import CodeIndex.Proofs.Tracked

set_option autoImplicit false

/-!
# Runs as plans

A build and an update do the same from the moment at which they know what files to examine: they examine them one by one,
write shards of what they know then, take the time, write the core index, and then the cache.  What is different is in the
plan that they start from.
-/

namespace CodeIndex

open Action Store Update Update.Membership

/-- What a run is to do with the files that it takes up. -/
structure Plan where
  files : List String
  cache : OutlineCache
  commits : Dict Commit
  /-- What is known of all files, to which comes what is found of these, and which of them are gone. -/
  known : Analysis
  removed : List String
  modules : ModuleMap
  source : FileSource
  writeShards : Analysis → Action (Dict String × Backups)
  writeCore : CoreIndex → Backups → Action Unit

/-- Examines one file, if its language is known. -/
def Maker.examineFile (m : Maker) (cache : OutlineCache) (root file : String) : Action (Option Maker.Finding) := do
  match Language.ofPath? file with
  | none => return none
  | some language => return some (file, language, ← m.examine cache root file language)

namespace Plan

/-- What is known once these findings are there. -/
def analysis (p : Plan) (found : List Maker.Finding) : Analysis :=
  p.known.overlay (Maker.recordAll p.commits Analysis.empty found) p.removed

def core (p : Plan) (m : Maker) (root : String) (a : Analysis) (hashes : Dict String) (now : String) : CoreIndex :=
  a.core (Path.displayName root) now p.modules hashes p.source (Layout.detect? p.modules.files) m.settings

/-- What is left to do when the files are examined. -/
def conclude (p : Plan) (m : Maker) (root : String) (found : List Maker.Finding) : Action (CoreIndex × Nat) := do
  let a := p.analysis found
  let (hashes, backups) ← p.writeShards a
  let core := p.core m root a hashes (← get).now
  p.writeCore core backups
  (Maker.rememberAll p.cache found).saveQuietly
  return (core, a.skipped)

def carryOut (p : Plan) (m : Maker) (root : String) : Action (CoreIndex × Nat) := do
  let found ← p.files.filterMapM (m.examineFile p.cache root)
  p.conclude m root found

end Plan

theorem Maker.exec_examineFile (m : Maker) (cache : OutlineCache) (root file : String) (w : Workspace) :
    (m.examineFile cache root file).exec w = (m.finding? cache w root file, w) := by
  unfold examineFile finding?
  cases Language.ofPath? file with
  | none => rfl
  | some language =>
    dsimp only
    rw [exec_bind, exec_examine]
    cases m.examinedAt cache w.disk (w.here.resolve (Path.join root file)) file language <;> rfl

theorem Maker.analyse_eq (m : Maker) (root : String) (files : List String) (cache : OutlineCache) (commits : Dict Commit) :
    m.analyse root files cache commits = do
      let found ← files.filterMapM (m.examineFile cache root)
      return (recordAll commits Analysis.empty found, rememberAll cache found) := by
  unfold analyse examineFile
  exact bind_congr fun found => congrArg pure (foldl_pair commits found Analysis.empty cache)

theorem Analysis.overlay_nothing (a : Analysis) : Analysis.empty.overlay a [] = a := by
  obtain ⟨details, docs, skipped⟩ := a
  have hdetails : (Analysis.empty.overlay ⟨details, docs, skipped⟩ []).details = details := by
    apply Dict.ext_get?
    intro path
    rw [get?_details_overlay]
    exact Option.or_none
  have hdocs : (Analysis.empty.overlay ⟨details, docs, skipped⟩ []).docs = docs := by
    apply Dict.ext_get?
    intro path
    rw [get?_docs_overlay]
    split <;> exact Option.or_none
  have hskipped : (Analysis.empty.overlay ⟨details, docs, skipped⟩ []).skipped = skipped := Nat.zero_add skipped
  exact (Analysis.mk.injEq ..).mpr ⟨hdetails, hdocs, hskipped⟩

/-! ## Builds -/

/-- A build lists the files, and is to write all shards anew. -/
def Maker.plan (m : Maker) (root : String) : Action Plan := do
  let (files, source) ← Listing.files m.settings root
  let cache ← OutlineCache.load root
  let commits ← Listing.commits m.settings source
  let store : Store := ⟨root⟩
  return {
    files, cache, commits, source
    known := .empty
    removed := []
    modules := m.division files
    writeShards := fun a => do
      if m.settings.skipDetails then
        let _ ← during "Failed to remove old detail shards" (store.clearShards [])
        return ({}, {})
      else
        let hashes ← writeShards store (m.division files) a
        let _ ← during "Failed to remove stale shards" (store.clearShards (m.division files).keys)
        return (hashes, {})
    writeCore := fun core _ => during "Failed to write core index" (store.writeCore core) }

/-- A build carries out its plan. -/
theorem Maker.build_eq_plan (m : Maker) (root : String) : m.build root = (do
    let root ← resolveRoot root
    let p ← m.plan root
    p.carryOut m root) := by
  have hlayout : ∀ files, Layout.detect? (m.division files).files = Layout.detect? files := fun files =>
    Layout.detect?_congr (m.mem_files_division files)
  unfold build survey plan Plan.carryOut Plan.conclude Plan.analysis Plan.core
  simp only [analyse_eq, bind_assoc, pure_bind, Analysis.overlay_nothing, hlayout]
  split
  · simp only [bind_assoc, pure_bind]
    rfl
  · simp only [bind_assoc, pure_bind]
    rfl

/-! ## Updates -/

namespace Update

/-- What an update is to do about some changes, and the modules whose shards it writes. -/
def planChanges (m : Maker) (root : String) (core : CoreIndex) (c : ChangeSet) : Action (Plan × List String) := do
  let store : Store := ⟨root⟩
  let shards ← readShards store core
  let membership := Membership.after core c (Imports.importers (Imports.graph shards) c.all)
  let cache ← OutlineCache.load root
  let commits ← Listing.commits m.settings .versionControl
  let p : Plan := {
    files := c.modified.keys
    cache, commits
    known := Analysis.ofIndex core shards
    removed := c.removed.keys
    modules := membership.modules
    source := core.stats.fileSource
    writeShards := fun a => regenerateAll store a membership.modules membership.affected.keys core.hashes {}
    writeCore := commit store }
  return (p, membership.affected.keys)

/-- An update of an index carries out its plan. -/
theorem apply_eq_plan (m : Maker) (root : String) (core : CoreIndex) (c : ChangeSet) : apply m root core c = do
    let (p, ids) ← planChanges m root core c
    let _ ← p.carryOut m root
    return .updated ids c.all := by
  unfold apply planChanges Plan.carryOut Plan.conclude Plan.analysis Plan.core
  simp only [Maker.analyse_eq, bind_assoc, pure_bind]

/-- Only an index with shards that are as recorded is updated. -/
def accept (root : String) (core : CoreIndex) : Action Unit := do
  if core.hashes.isEmpty && !core.modules.isEmpty then
    failWith (.missingFields "core index (built without detail shards)" ["module_hashes"])
  let problems ← Store.problems ⟨root⟩ core
  if !problems.isEmpty then failWith (.inconsistent problems)

theorem check_eq_accept (m : Maker) (root : String) (core : CoreIndex) : check m root core = (do
    accept root core
    proceed m root core) := by
  unfold check accept
  split
  · rfl
  · simp only [bind_assoc]
    refine bind_congr fun problems => ?_
    split <;> rfl

/-- What an update is to do, if anything changed, and what it comes to. -/
def plan (m : Maker) (root : String) : Action (Option Plan × UpdateOutcome) := do
  let core ← Store.readCore ⟨root⟩
  accept root core
  let c ← changes m root core
  if c.isEmpty then return (none, .unchanged)
  else
    let (p, ids) ← planChanges m root core c
    return (some p, .updated ids c.all)

/-- An update carries out its plan, if it has one. -/
theorem run_eq_plan (m : Maker) (root : String) : run m root = (do
    let root ← Maker.resolveRoot root
    let (p, outcome) ← plan m root
    match p with
    | none => return outcome
    | some p => do
      let _ ← p.carryOut m root
      return outcome) := by
  unfold run plan
  simp only [check_eq_accept, proceed, bind_assoc]
  refine bind_congr fun root => bind_congr fun core => bind_congr fun _ => bind_congr fun c => ?_
  split
  · rw [pure_bind]
  · rw [apply_eq_plan]
    simp only [bind_assoc, pure_bind]

end Update

end CodeIndex
