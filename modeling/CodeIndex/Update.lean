import CodeIndex.Build
import CodeIndex.Imports

set_option autoImplicit false

/-!
# Updates

An update changes an index by what version control says was touched since it was made.  Only modules with a
touched file, or with a file that imports one, get new shards.  The core index is written last, after
the shards were checked; when anything fails before, the shards are put back as they were.
-/

namespace CodeIndex

/-- Indexed files that are new or different, and those that are gone. -/
structure ChangeSet where
  modified : Names
  removed : Names
  deriving DecidableEq

namespace ChangeSet

def isEmpty (c : ChangeSet) : Bool := Dict.isEmpty c.modified && Dict.isEmpty c.removed

/-- Every changed file, in order. -/
def all (c : ChangeSet) : List String := (Names.addAll c.modified c.removed.keys).keys

end ChangeSet

inductive UpdateOutcome where
  | unchanged
  | updated (modules changed : List String)
  deriving DecidableEq

namespace Update

open Action

/-- Sorts a touched path: a file to index, or one that was indexed and is gone. -/
def classify (m : Maker) (root : String) (core : CoreIndex) (c : ChangeSet) (path : String) :
    Action ChangeSet := do
  if ← Listing.isIndexable m.settings root path then return { c with modified := Names.add c.modified path }
  else if (core.moduleFor? path).isSome then return { c with removed := Names.add c.removed path }
  else return c

/-- Takes an indexed file that is not there for a removed one. -/
def noteMissing (root : String) (c : ChangeSet) (path : String) : Action ChangeSet := do
  if ← Store.isPresent (Path.join root path) then return c
  else return ⟨Dict.erase c.modified path, Names.add c.removed path⟩

/-- What changed since an index was made. -/
def changes (m : Maker) (root : String) (core : CoreIndex) : Action ChangeSet := do
  if !(← History.isWorkTree (Listing.timeout m.settings)) then
    failWith (.noVersionControl (root ++ " is not a git working tree"))
  else
    match ← attempt (History.touchedSince (Listing.timeout m.settings) core.madeAt) with
    | .error f => failWith (.noVersionControl f.fullText)
    | .ok touched =>
      let found ← touched.foldlM (classify m root core) ⟨{}, {}⟩
      core.allFiles.foldlM (noteMissing root) found

/-- The modules after a change, and the ids of those with a touched file. -/
structure Membership where
  modules : ModuleMap
  affected : Names

namespace Membership

/-- A removed file leaves its module. -/
def remove (core : CoreIndex) (m : Membership) (path : String) : Membership :=
  match core.moduleFor? path with
  | none => m
  | some id =>
    { modules := match m.modules.get? id with
        | some files => m.modules.insert id (files.filter (· ≠ path))
        | none => m.modules
      affected := m.affected.add id }

/-- A file that no module has yet is put into the one for its directory. -/
def add (core : CoreIndex) (m : Membership) (path : String) : Membership :=
  match core.moduleFor? path with
  | some id => { m with affected := m.affected.add id }
  | none =>
    let id := m.modules.placementOf path
    let files := ((m.modules.get? id).getD [] ++ [path]).mergeSort fun a b => decide (a ≤ b)
    { modules := m.modules.insert id files, affected := m.affected.add id }

/-- Modules of some more files are affected. -/
def touch (core : CoreIndex) (m : Membership) (path : String) : Membership :=
  match core.moduleFor? path with
  | some id => { m with affected := m.affected.add id }
  | none => m

/-- The modules of an index after a change, without those that have become empty. -/
def after (core : CoreIndex) (c : ChangeSet) (importers : List String) : Membership :=
  let modules : ModuleMap := core.modules.map fun _ entry => entry.files
  let m := c.removed.keys.foldl (remove core) ⟨modules, {}⟩
  let m := c.modified.keys.foldl (add core) m
  let m := importers.foldl (touch core) m
  { m with modules := m.modules.filter fun _ files => !files.isEmpty }

end Membership

/-- The shards of an index, which must all be there. -/
def readShards (store : Store) (core : CoreIndex) : Action (List Shard) :=
  core.modules.keys.mapM fun id => during ("Failed to load shard '" ++ id ++ "'") (store.readShard id)

/-- What shards were before they were written, nothing for those that were not there. -/
abbrev Backups := Dict (Option ByteArray)

/-- Puts a shard back as it was, or notes that this cannot be done. -/
def putBack (store : Store) (id : String) (previous : Option ByteArray) : Action Unit :=
  orNote id (store.restoreShard id previous)

/-- Puts shards back as they were, as far as that can be done. -/
def rollBack (store : Store) (backups : Backups) : Action Unit :=
  backups.toList.forM fun (id, previous) => putBack store id previous

/-- Writes the shard of a module, or removes it with its module. -/
def regenerate (store : Store) (a : Analysis) (modules : ModuleMap) (hashes : Dict String) (id : String) :
    Action (Dict String) := do
  match modules.get? id with
  | some files =>
    let hash ← during ("Failed to write shard '" ++ id ++ "'") (store.writeShard (a.shard id files))
    return hashes.insert id hash
  | none =>
    store.removeShard id
    return hashes.erase id

/-- Writes the shards of some modules one after another.  When one fails, those before it are put back. -/
def regenerateAll (store : Store) (a : Analysis) (modules : ModuleMap) :
    List String → Dict String → Backups → Action (Dict String × Backups)
  | [], hashes, backups => return (hashes, backups)
  | id :: rest, hashes, backups => do
    match ← attempt (store.shardBytes? id) with
    | .error f => rollBack store backups; throw f
    | .ok previous =>
      let backups := backups.insert id previous
      match ← attempt (regenerate store a modules hashes id) with
      | .error f => rollBack store backups; throw f
      | .ok hashes => regenerateAll store a modules rest hashes backups

/-- Writes a core index that agrees with the shards; otherwise they are put back. -/
def commit (store : Store) (core : CoreIndex) (backups : Backups) : Action Unit := do
  let problems ← store.problems core
  if !problems.isEmpty then
    rollBack store backups
    failWith (.inconsistent problems)
  else
    match ← attempt (store.writeCore core) with
    | .ok () => return
    | .error f => rollBack store backups; throw f

/-- Makes new shards for what changed and commits them. -/
def apply (m : Maker) (root : String) (core : CoreIndex) (c : ChangeSet) : Action UpdateOutcome := do
  let store : Store := ⟨root⟩
  let shards ← readShards store core
  let importers := Imports.importers (Imports.graph shards) c.all
  let membership := Membership.after core c importers
  let cache ← OutlineCache.load root
  let commits ← Listing.commits m.settings .versionControl
  let (fresh, cache) ← m.analyse root c.modified.keys cache commits
  let a := (Analysis.ofIndex core shards).overlay fresh c.removed.keys
  let affected := membership.affected.keys
  let (hashes, backups) ← regenerateAll store a membership.modules affected core.hashes {}
  let layout := Layout.detect? membership.modules.files
  let updated := a.core (Path.displayName root) (← get).now membership.modules hashes core.stats.fileSource layout
    m.settings
  commit store updated backups
  cache.saveQuietly
  return .updated affected c.all

/-- Updates an index that is as it should be. -/
def proceed (m : Maker) (root : String) (core : CoreIndex) : Action UpdateOutcome := do
  let c ← changes m root core
  if c.isEmpty then return .unchanged else apply m root core c

/-- Updates an index if it has shards and they are as recorded. -/
def check (m : Maker) (root : String) (core : CoreIndex) : Action UpdateOutcome := do
  if core.hashes.isEmpty && !core.modules.isEmpty then
    failWith (.missingFields "core index (built without detail shards)" ["module_hashes"])
  let problems ← Store.problems ⟨root⟩ core
  if !problems.isEmpty then failWith (.inconsistent problems)
  proceed m root core

/-- Updates the index of a project in place. -/
def run (m : Maker) (root : String) : Action UpdateOutcome := do
  let root ← Maker.resolveRoot root
  let core ← Store.readCore ⟨root⟩
  check m root core

end Update

end CodeIndex
