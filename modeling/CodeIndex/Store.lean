import CodeIndex.Analysis
import CodeIndex.Consistency
import CodeIndex.Digest
import CodeIndex.Document.Codec
import CodeIndex.Json.Finite
import CodeIndex.Workspace

set_option autoImplicit false

/-!
# Store

The index documents of one project.  A document is written next to its place and then moved there, so a write
that fails leaves what was there before.
-/

namespace CodeIndex

structure Store where
  /-- The project's directory, as it is shown. -/
  root : String
  deriving DecidableEq, Repr

namespace Store

open Action

def coreFile : String := "PROJECT_INDEX.json"

def backupFile : String := "PROJECT_INDEX.json.backup"

def corePath (s : Store) : String := Path.join s.root coreFile

def backupPath (s : Store) : String := Path.join s.root backupFile

def shardDirectory (s : Store) : String := Path.join s.root Shard.directory

def shardPath (s : Store) (id : String) : String := Path.join s.shardDirectory (id ++ ".json")

/-- Files that the program writes are no part of the project. -/
def isOutput (path : String) : Bool :=
  path = coreFile || path = backupFile || Text.startsWith (Shard.directory ++ "/") path

/-- How errors name a shard. -/
def shardName (id : String) : String := "shard '" ++ id ++ "'"

def besides (path : String) : String := path ++ ".tmp"

/-- Writes a file as a whole or not at all. -/
def replaceFile (path : String) (bytes : ByteArray) : Action Unit := do
  let place ← locate path
  let aside ← locate (besides path)
  orStorage (besides path) (← tryChange (Disk.write aside bytes))
  match ← tryChange (Disk.rename aside place) with
  | .ok () => return
  | .error e =>
    let _ ← tryChange (Disk.removeFile aside)
    orStorage path (.error e)

def isPresent (path : String) : Action Bool := do
  let place ← locate path
  look fun d => d.holds place

def contents (path : String) : Action (Except DiskError ByteArray) := do
  let place ← locate path
  look fun d => d.read place

/-- A document from its bytes. -/
def decode? {α : Type} [Document α] (bytes : ByteArray) : Option α :=
  (String.fromUTF8? bytes).bind Document.read?

def decode {α : Type} [Document α] (what : String) (bytes : ByteArray) : Action α :=
  match decode? bytes with
  | some a => return a
  | none => failWith (.malformed what "unexpected contents")

def readDocument {α : Type} [Document α] (path what : String) : Action α := do
  decode what (← orStorage path (← contents path))

def encode {α : Type} [Document α] (a : α) : ByteArray := (Document.write a).toUTF8

/-- Digest of a file's bytes. -/
def digest (bytes : ByteArray) : String := Digest.ofBytes bytes

/-- The version that the index at hand says it has. -/
def version? (s : Store) : Action (Option String) := do
  match ← contents s.corePath with
  | .ok bytes =>
    return (String.fromUTF8? bytes).bind fun text =>
      (Json.value? text).bind fun j => (j.get? "version").bind Json.asString?
  | .error _ => return none

def isSplit (s : Store) : Action Bool := return (← s.version?) == some CoreIndex.splitVersion

def readCore (s : Store) : Action CoreIndex := do
  if !(← isPresent s.corePath) then failWith (.noIndex s.corePath)
  else
    let core : CoreIndex ← readDocument s.corePath coreFile
    if core.version = CoreIndex.splitVersion then return core else failWith (.noIndex s.corePath)

def readSingle (s : Store) : Action SingleIndex := readDocument s.corePath coreFile

def writeCore (s : Store) (core : CoreIndex) : Action Unit := replaceFile s.corePath (encode core)

def writeSingle (s : Store) (index : SingleIndex) : Action Unit := replaceFile s.corePath (encode index)

/-- Writes a shard and answers with its digest. -/
def writeShard (s : Store) (shard : Shard) : Action String := do
  let directory ← locate s.shardDirectory
  orStorage s.shardDirectory (← tryChange (Disk.makeDirectories directory))
  let bytes := encode shard
  replaceFile (s.shardPath shard.moduleId) bytes
  return digest bytes

/-- The bytes of a shard, if there is one. -/
def shardBytes? (s : Store) (id : String) : Action (Option ByteArray) := do
  match ← contents (s.shardPath id) with
  | .ok bytes => return some bytes
  | .error .absent => return none
  | .error e => orStorage (s.shardPath id) (.error e)

def readShard (s : Store) (id : String) : Action Shard := do
  if ← isPresent (s.shardPath id) then readDocument (s.shardPath id) (shardName id)
  else failWith (.notFound "module" id)

def removeShard (s : Store) (id : String) : Action Unit := do
  let place ← locate (s.shardPath id)
  match ← tryChange (Disk.removeFile place) with
  | .ok () => return
  | .error .absent => return
  | .error e => orStorage (s.shardPath id) (.error e)

/-- Puts a shard back as it was; nothing stands for one that was not there. -/
def restoreShard (s : Store) (id : String) : Option ByteArray → Action Unit
  | some bytes => replaceFile (s.shardPath id) bytes
  | none => s.removeShard id

/-- The module that a file in the shard directory belongs to, by its name. -/
def moduleOf? (file : String) : Option String :=
  match Path.splitName file with
  | (stem, some "json") => some stem
  | _ => none

/-- Removes the shards of other modules, and answers with their number. -/
def clearShards (s : Store) (keep : List String) : Action Nat := do
  let directory ← locate s.shardDirectory
  match ← look fun d => d.list directory with
  | .error .absent => return 0
  | .error e => orStorage s.shardDirectory (.error e)
  | .ok found =>
    let stale := (found.map Prod.fst).filter fun file => (moduleOf? file).any fun id => !keep.contains id
    stale.forM fun file => do
      orStorage (Path.join s.shardDirectory file) (← tryChange (Disk.removeFile (directory ++ [file])))
    return stale.length

/-- What is wrong with one module's shard, by its recorded digest. -/
def shardProblem? (s : Store) (core : CoreIndex) (id expected : String) : Action (Option String) := do
  if !core.modules.contains id then return some ("hash recorded for unknown module '" ++ id ++ "'")
  else
    match ← attempt (s.shardBytes? id) with
    | .ok (some bytes) =>
      let found := digest bytes
      return if found = expected then none
        else some (shardName id ++ " hash mismatch (expected " ++ expected ++ ", found " ++ found ++ ")")
    | .ok none => return some (shardName id ++ " is missing")
    | .error f => return some (shardName id ++ " unreadable: " ++ f.headline)

/-- Everything that is wrong with an index: its modules do not divide the files, or shards are not as recorded. -/
def problems (s : Store) (core : CoreIndex) : Action (List String) := do
  let unrecorded :=
    if core.hashes.isEmpty then []
    else (core.modules.keys.filter fun id => !core.hashes.contains id).map fun id =>
      "module '" ++ id ++ "' has no recorded hash"
  let shards ← core.hashes.toList.mapM fun (id, expected) => s.shardProblem? core id expected
  return core.partitionProblems ++ unrecorded ++ shards.filterMap fun p => p

def isIntact (s : Store) : Action Bool := do
  match ← attempt (do s.problems (← s.readCore)) with
  | .ok found => return found.isEmpty
  | .error _ => return false

end Store

end CodeIndex
