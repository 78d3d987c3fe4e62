import CodeIndex.Impact
import CodeIndex.Layout
import CodeIndex.Relevance
import CodeIndex.Store

set_option autoImplicit false

/-!
# Loader

Reads the core index once and shards when they are asked for, and keeps what it has read.  A shard is only
handed out when its bytes have the digest that the core index records.
-/

namespace CodeIndex

structure Loader where
  store : Store
  /-- The core index, once it was read. -/
  known : Option CoreIndex
  /-- The shards that were read. -/
  kept : Dict Shard

/-- Reading through a loader.  What was read before a failure is kept. -/
abbrev Loading := ExceptT Failure (StateT Loader (StateM Workspace))

namespace Loading

variable {α : Type}

instance : MonadLift Action Loading := ⟨fun a => ExceptT.mk (StateT.lift a.run)⟩

/-- The outcome of reading through a loader, and the loader after it. -/
def result (a : Loading α) (l : Loader) : Action (Except Failure α × Loader) :=
  ExceptT.lift ((a.run).run l)

/-- The outcome of reading through a new loader. -/
def fresh (root : String) (a : Loading α) : Action α := do
  match ← a.result ⟨⟨root⟩, none, {}⟩ with
  | (.ok x, _) => return x
  | (.error f, _) => throw f

def failWith (f : Fault) : Loading α := throw (Failure.ofFault f)

/-- The outcome of a part; failures do not go further. -/
def attempt (a : Loading α) : Loading (Except Failure α) :=
  tryCatch (Except.ok <$> a) fun f => return .error f

end Loading

namespace Loader

open Loading

def ofRoot (root : String) : Loader := ⟨⟨root⟩, none, {}⟩

/-- The core index. -/
def core : Loading CoreIndex := do
  match (← getThe Loader).known with
  | some core => return core
  | none =>
    let core ← (← getThe Loader).store.readCore
    modifyThe Loader fun l => { l with known := some core }
    return core

/-- Fields that a shard must have. -/
def requiredFields : List String := ["module_id", "version", "files"]

/-- Whether bytes are those of a module's shard, as far as a core index says so. -/
def check (core : CoreIndex) (id : String) (bytes : ByteArray) : Except Fault Unit :=
  match core.hashes.get? id with
  | some expected =>
    let found := Store.digest bytes
    if found = expected then .ok ()
    else .error (.inconsistent
      [Store.shardName id ++ " hash mismatch (expected " ++ expected ++ ", found " ++ found ++ ")"])
  | none =>
    if !core.modules.contains id then .error (.notFound "module" id)
    else if core.hashes.isEmpty then .ok ()
    else .error (.inconsistent ["module '" ++ id ++ "' has no recorded hash"])

def isMissingIndex (f : Failure) : Bool := f.cause matches .fault (.noIndex _)

/-- Checks the bytes of a shard; where there is no core index there is nothing to check against. -/
def verify (id : String) (bytes : ByteArray) : Loading Unit := do
  match ← attempt core with
  | .ok core =>
    match check core id bytes with
    | .ok () => return
    | .error f => failWith f
  | .error f => unless isMissingIndex f do throw f

/-- The value in a shard's bytes, with all the fields that a shard must have. -/
def value (id : String) (bytes : ByteArray) : Except Fault Json :=
  match (String.fromUTF8? bytes).bind Json.value? with
  | none => .error (.malformed (Store.shardName id) "unexpected contents")
  | some j =>
    match requiredFields.filter fun field => (j.get? field).isNone with
    | [] => .ok j
    | missing => .error (.missingFields (Store.shardName id) missing)

/-- Reads a shard that was not read before. -/
def readShard (id : String) : Loading Shard := do
  match ← (← getThe Loader).store.shardBytes? id with
  | none => failWith (.notFound "module" id)
  | some bytes =>
    match value id bytes with
    | .error f => failWith f
    | .ok j =>
      verify id bytes
      match Shard.ofJson? j with
      | none => failWith (.malformed (Store.shardName id) "unexpected contents")
      | some shard =>
        modifyThe Loader fun l => { l with kept := l.kept.insert id shard }
        return shard

/-- The shard of a module. -/
def shard (id : String) : Loading Shard := do
  if !ModuleId.isValid id then failWith (.invalidName id)
  else
    match (← getThe Loader).kept.get? id with
    | some shard => return shard
    | none => readShard id

/-- The shards of some modules, as far as they can be loaded. -/
def shards (ids : List String) : Loading (Dict Shard) := do
  let found ← ids.filterMapM fun id => do
    match ← attempt (shard id) with
    | .ok s => return some (id, s)
    | .error _ => return none
  return Dict.ofList found

/-- The shards of all modules, as far as they can be loaded. -/
def allShards : Loading (Dict Shard) := do
  let core ← core
  shards core.modules.keys

/-- Who is affected by a change of a function, by the shards that can be loaded. -/
def impact (target : String) (depth : Nat) : Loading ImpactReport := do
  return (CallGraph.ofShards (← allShards).values).impact target depth

/-- Modules by their relevance to a query. -/
def ranking (query : String) (now : Moment) : Loading (List ModuleScore) := do
  let core ← core
  let changed := changeTimes (commitDates (← allShards).values)
  return (Scoring.mk .default (.ofText query) now changed).ranking core

end Loader

end CodeIndex
