import CodeIndex.Build

set_option autoImplicit false

/-!
# Migration

An index that is one document becomes a core index with shards, made from what the document holds.  The document
is kept as a backup; when anything fails it is put back, and the shards that were written are removed.
-/

namespace CodeIndex

inductive MigrationOutcome where
  | alreadySplit
  | migrated (core : CoreIndex)
  deriving DecidableEq

namespace Migration

open Action

/-- Writes shards one after another; what was written is known also when one fails. -/
def writeShards (store : Store) (a : Analysis) :
    List (String × List String) → Dict String → Action (Dict String × Option Failure)
  | [], hashes => return (hashes, none)
  | (id, files) :: rest, hashes => do
    match ← attempt (during ("Failed to write shard '" ++ id ++ "'") (store.writeShard (a.shard id files))) with
    | .ok hash => writeShards store a rest (hashes.insert id hash)
    | .error f => return (hashes, some f)

/-- Checks a core index against the shards, writes it, and checks it again. -/
def settle (store : Store) (core : CoreIndex) : Action Unit := do
  let problems ← store.problems core
  if !problems.isEmpty then failWith (.inconsistent problems)
  during "Failed to write core index" (store.writeCore core)
  if !(← store.isIntact) then failWith (.inconsistent ["written index failed validation"])

/-- Removes the directory of the shards with everything in it. -/
def removeShards (store : Store) : Action Unit := do
  let directory ← locate store.shardDirectory
  match ← tryChange (Disk.removeTree directory) with
  | .ok () => return
  | .error .absent => return
  | .error e => orStorage store.shardDirectory (.error e)

/-- Puts the document back and removes shards, as far as that can be done. -/
def restore (store : Store) (document : ByteArray) (written : List String) (hadDirectory : Bool) : Action Unit := do
  orNote Store.coreFile (Store.replaceFile store.corePath document)
  written.forM fun id => orNote id (store.removeShard id)
  if !hadDirectory then orNote Shard.directory (removeShards store)

/-- Writes the shards and the core index that a document comes to. -/
def convert (m : Maker) (store : Store) (single : SingleIndex) (document : ByteArray) : Action CoreIndex := do
  let hadDirectory ← Store.isPresent store.shardDirectory
  let a := Analysis.ofSingle single
  let layout := Layout.detect? a.files
  let modules := (m.settings.splitting layout).modules a.files
  let (hashes, failure) ← writeShards store a modules.toList {}
  let core := a.core (Path.displayName store.root) single.madeAt modules hashes single.stats.fileSource layout
    m.settings
  let result ←
    match failure with
    | some f => pure (Except.error f)
    | none => attempt (settle store core)
  match result with
  | .ok () => return core
  | .error f =>
    restore store document hashes.keys hadDirectory
    throw f

/-- Turns the index of a project into one with shards. -/
def run (m : Maker) (root : String) : Action MigrationOutcome := do
  let root ← Maker.resolveRoot root
  let store : Store := ⟨root⟩
  match ← Store.contents store.corePath with
  | .error .absent => failWith (.noIndex store.corePath)
  | .error e => orStorage store.corePath (.error e)
  | .ok document =>
    if ← store.isSplit then return .alreadySplit
    let single : SingleIndex ← Store.decode Store.coreFile document
    during "Failed to write migration backup" (Store.replaceFile store.backupPath document)
    return .migrated (← convert m store single document)

end Migration

end CodeIndex
