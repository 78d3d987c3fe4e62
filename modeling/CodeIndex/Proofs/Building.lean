import CodeIndex.Proofs.Examined
import CodeIndex.Proofs.Holding
import CodeIndex.Proofs.Inventory
import CodeIndex.Proofs.SameIndex
import CodeIndex.Proofs.Touched

set_option autoImplicit false

/-!
# What builds leave on the disk

A build that succeeds leaves an index as an analysis makes it.
-/

namespace CodeIndex

open Action Store Update

variable {s : Store} {l : Location} {m : Maker} {w w' : Workspace} {a : Analysis} {modules : ModuleMap}

/-- Where an index is written: next to the shards and in the project's directory, under two endings. -/
def Store.IsOutputPlace (s : Store) (l : Location) : Prop :=
  ∃ name tail, (tail = ".json" ∨ tail = ".json.tmp") ∧ (l = s.place ++ [name ++ tail] ∨ l = s.shardsPlace ++ [name ++ tail])

theorem Store.isOutputPlace_corePlace (h : l = s.corePlace ∨ l = s.corePlace.aside) : s.IsOutputPlace l := by
  rcases h with rfl | rfl
  · exact ⟨"PROJECT_INDEX", ".json", .inl rfl, .inl rfl⟩
  · refine ⟨"PROJECT_INDEX", ".json.tmp", .inr rfl, .inl ?_⟩
    rw [corePlace, Location.aside_concat]
    rfl

theorem Store.isOutputPlace_of_shardFiles {ids : List String} (hv : ∀ id ∈ ids, ModuleId.isValid id = true)
    (h : ShardFiles s ids l) : s.IsOutputPlace l := by
  obtain ⟨id, hid, rfl | rfl⟩ := h
  · exact ⟨id, ".json", .inl rfl, .inr (shardPlace_of_isValid s (hv id hid))⟩
  · refine ⟨id, ".json.tmp", .inr rfl, .inr ?_⟩
    rw [shardPlace_of_isValid s (hv id hid), Location.aside_concat, String.append_assoc]
    rfl

theorem Store.isOutputPlace_of_isStale {keep : List String} (h : IsStale s keep l) : s.IsOutputPlace l := by
  obtain ⟨file, id, rfl, hid, -⟩ := h
  rw [eq_of_moduleOf? hid]
  exact ⟨id, ".json", .inl rfl, .inr rfl⟩

theorem isValid_keys (hm : modules.Proper) : ∀ id ∈ modules.keys, ModuleId.isValid id = true := by
  intro id hid
  obtain ⟨group, hget⟩ := Dict.mem_keys.1 hid
  exact hm.valid hget

section Absolute

variable (hs : Path.isAbsolute s.root = true)

include hs

/-- Shards that are there stay there when others are cleared and a core index is written. -/
theorem saved_of_clear_and_commit {w₁ w₂ : Workspace} {keep : List String}
    (hcleared : Changed (IsStale s keep) (fun _ => False) w w₁)
    (hwritten : Changed (fun l => l = s.corePlace ∨ l = s.corePlace.aside) (fun _ => False) w₁ w₂) {id : String} {bytes : ByteArray}
    (hid : ModuleId.isValid id = true) (hkeep : id ∈ keep) (h : w.disk.read (s.shardPlace id) = .ok bytes) :
    w₂.disk.read (s.shardPlace id) = .ok bytes := by
  have hsaved : Saved w.disk (s.shardPlace id) (some bytes) := h
  have hcleared' := saved_of_clearShards (isOpen_of_shard hid h) hcleared hid hkeep hsaved
  exact saved_of_writeCore hs (isOpen_of_shard hid hcleared') hwritten hid hcleared'

end Absolute

/-- What a build works from: the files, the source of their list, and what was found of each. -/
structure Surveyed (m : Maker) (s : Store) (w : Workspace) (files : List String) (source : FileSource)
    (commits : Dict Commit) (found : List Maker.Finding) : Prop where
  listed : ((Listing.files m.settings s.root).exec w).1 = .ok (files, source)
  logged : commits = Listing.known m.settings w.history source
  findings : files.filterMapM (m.finding? (OutlineCache.loaded w.disk s.root s.cachePlace) w s.root) = .ok found

theorem Maker.survey_ok (hs : Path.isAbsolute s.root = true) {files : List String} {source : FileSource} {cache : OutlineCache}
    (h : (m.survey s.root).exec w = (.ok (files, source, a, cache), w')) :
    w.Alike w' ∧ ∃ commits found, Surveyed m s w files source commits found ∧
      a = recordAll commits Analysis.empty found ∧
      cache = rememberAll (OutlineCache.loaded w.disk s.root s.cachePlace) found := by
  unfold survey at h
  obtain ⟨⟨files₁, source₁⟩, w₁, hfiles, ha₁, h⟩ := (Listing.looks_files _ _).bind_ok h
  dsimp only at h
  obtain ⟨w₂, hcommits, ha₂⟩ := Listing.exec_commits m.settings source₁ w₁
  have halike : w.Alike w₂ := ha₁.trans ha₂
  rw [exec_bind_of_ok (exec_loadCache hs _), exec_bind_of_ok hcommits, exec_bind, exec_analyse, finding?_of_alike halike,
    ha₁.disk_eq] at h
  cases hfound : files₁.filterMapM (m.finding? (OutlineCache.loaded w.disk s.root s.cachePlace) w s.root) with
  | error e =>
    rw [hfound] at h
    cases h
  | ok found =>
    rw [hfound] at h
    cases h
    rw [ha₁.history_eq]
    exact ⟨halike, _, found, ⟨congrArg Prod.fst hfiles, rfl, hfound⟩, rfl, rfl⟩

/-- A survey finds something of every file, or fails as one of them does. -/
theorem Maker.fst_exec_survey (hs : Path.isAbsolute s.root = true) {files : List String} {source : FileSource}
    (hfiles : ((Listing.files m.settings s.root).exec w).1 = .ok (files, source)) :
    ((m.survey s.root).exec w).1 =
      (files.filterMapM (m.finding? (OutlineCache.loaded w.disk s.root s.cachePlace) w s.root)).map fun found =>
        (files, source, recordAll (Listing.known m.settings w.history source) Analysis.empty found,
          rememberAll (OutlineCache.loaded w.disk s.root s.cachePlace) found) := by
  obtain ⟨w₁, hlisted, ha₁⟩ := (Listing.looks_files m.settings s.root).exec_eq (Workspace.Alike.refl w) hfiles
  obtain ⟨w₂, hcommits, ha₂⟩ := Listing.exec_commits m.settings source w₁
  unfold survey
  rw [exec_bind_of_ok hlisted]
  dsimp only
  rw [exec_bind_of_ok (exec_loadCache hs _), exec_bind_of_ok hcommits, exec_bind, exec_analyse,
    finding?_of_alike (ha₁.trans ha₂), ha₁.disk_eq, ha₁.history_eq]
  cases files.filterMapM (m.finding? (OutlineCache.loaded w.disk s.root s.cachePlace) w s.root) <;> rfl

/-- The core index that a build writes. -/
def builtCore (m : Maker) (s : Store) (a : Analysis) (files : List String) (source : FileSource) (now : String) : CoreIndex :=
  a.core (Path.displayName s.root) now ((m.settings.splitting (Layout.detect? files)).modules files)
    (a.hashes ((m.settings.splitting (Layout.detect? files)).modules files)) source (Layout.detect? files) m.settings

/-- Analyses that tell the same make the same core index. -/
theorem builtCore_of_same {b : Analysis} (h : a.Same b) (files : List String) (source : FileSource) (now : String) :
    builtCore m s a files source now = builtCore m s b files source now := by
  rw [builtCore, builtCore, h.hashes_eq, h.core_eq]

/-- When a core index is made is told by its time alone. -/
theorem builtCore_now (files : List String) (source : FileSource) (now now' : String) :
    builtCore m s a files source now' = { builtCore m s a files source now with madeAt := now' } := rfl

/-- The division of some files into modules. -/
def Maker.division (m : Maker) (files : List String) : ModuleMap := (m.settings.splitting (Layout.detect? files)).modules files

/-- The modules of which a build makes shards. -/
def Maker.sharded (m : Maker) (files : List String) : List String :=
  if m.settings.skipDetails then [] else (m.division files).keys

/-- The digests that a build records. -/
def Maker.recorded (m : Maker) (a : Analysis) (files : List String) : Dict String :=
  if m.settings.skipDetails then {} else a.hashes (m.division files)

theorem Maker.divides_division (m : Maker) (files : List String) : (m.division files).Divides files :=
  Splitting.divides_modules _ files

/-- The documents that a build writes are there, and no other shards. -/
structure Wrote (m : Maker) (s : Store) (a : Analysis) (files : List String) (core : CoreIndex) (d : Disk) : Prop where
  read : d.read s.corePlace = .ok (encode core)
  shards : ∀ id ∈ m.sharded files, Saved d (s.shardPlace id) (a.bytesOf? (m.division files) id)
  only : s.OnlyShards d (m.sharded files)

theorem Maker.mem_sharded {files : List String} {id : String} (h : id ∈ m.sharded files) : id ∈ (m.division files).keys := by
  rw [sharded] at h
  split at h
  · cases h
  · exact h

theorem Maker.isValid_sharded {files : List String} {id : String} (h : id ∈ m.sharded files) : ModuleId.isValid id = true :=
  isValid_keys (m.divides_division files).toProper id (mem_sharded h)

/-- The shards that are made are there. -/
theorem Wrote.read_shard {files : List String} {core : CoreIndex} {d : Disk} (h : Wrote m s a files core d) {id : String}
    (hid : id ∈ m.sharded files) : ∃ bytes, d.read (s.shardPlace id) = .ok bytes := by
  obtain ⟨group, hget⟩ := Dict.mem_keys.1 (Maker.mem_sharded hid)
  have hsaved := h.shards id hid
  rw [Analysis.bytesOf?, hget] at hsaved
  exact ⟨_, hsaved⟩

/-- The same analysis leaves the same shards. -/
theorem Wrote.sameShards {b : Analysis} {files : List String} {core core' : CoreIndex} {d d' : Disk}
    (h : Wrote m s a files core d) (h' : Wrote m s b files core' d') (hsame : a.Same b) : s.SameShards d d' := by
  intro file id hfile
  by_cases hid : id ∈ m.sharded files
  · obtain ⟨group, hget⟩ := Dict.mem_keys.1 (Maker.mem_sharded hid)
    have hsaved := h.shards id hid
    have hsaved' := h'.shards id hid
    rw [← hsame.bytesOf?_eq] at hsaved'
    rw [Analysis.bytesOf?, hget] at hsaved hsaved'
    rw [eq_of_moduleOf? hfile, ← shardPlace_of_isValid s (Maker.isValid_sharded hid)]
    exact Eq.trans hsaved' hsaved.symm
  · rw [Disk.read_eq_absent.2 (h.only file id hfile hid), Disk.read_eq_absent.2 (h'.only file id hfile hid)]

theorem Wrote.of_saveQuietly (hs : Path.isAbsolute s.root = true) {files : List String} {core : CoreIndex}
    (h : Wrote m s a files core w.disk) {c : OutlineCache}
    (hpath : c.path = some (Path.join (Path.join s.root OutlineCache.directory) OutlineCache.fileName))
    {r : Except Failure Unit} (hsave : c.saveQuietly.exec w = (r, w')) : Wrote m s a files core w'.disk := by
  obtain ⟨time, haccess⟩ := Disk.access_of_read h.read
  have hopen : w.disk.IsOpen s.place := Disk.isOpen_of_access_concat haccess
  refine ⟨?_, fun id hid => ?_, h.only.of_saveQuietly hs hpath hsave⟩
  · rw [Disk.read_congr (access_of_saveQuietly hs hpath hopen hsave .core)]
    exact h.read
  · exact (h.shards id hid).congr (access_of_saveQuietly hs hpath hopen hsave (.shard (Maker.isValid_sharded hid)))

/-- The half of a build that writes the documents of an index. -/
def Maker.writeDocuments (m : Maker) (s : Store) (files : List String) (a : Analysis)
    (make : String → Dict String → CoreIndex) : Action CoreIndex := do
  let hashes ←
    if m.settings.skipDetails then do
      let _ ← during "Failed to remove old detail shards" (s.clearShards [])
      pure {}
    else do
      let hashes ← writeShards s (m.division files) a
      let _ ← during "Failed to remove stale shards" (s.clearShards (m.division files).keys)
      pure hashes
  let core := make (← get).now hashes
  during "Failed to write core index" (s.writeCore core)
  return core

/-- A build surveys the project, writes the documents, and then the cache. -/
theorem Maker.build_eq (m : Maker) (root : String) : m.build root = do
    let root ← resolveRoot root
    let (files, source, a, cache) ← m.survey root
    let core ← m.writeDocuments ⟨root⟩ files a fun now hashes =>
      a.core (Path.displayName root) now (m.division files) hashes source (Layout.detect? files) m.settings
    cache.saveQuietly
    return (core, a.skipped) := by
  unfold build writeDocuments
  refine bind_congr fun root => bind_congr fun ⟨files, source, a, cache⟩ => ?_
  dsimp only
  split
  · simp only [bind_assoc, pure_bind]
    rfl
  · simp only [bind_assoc, pure_bind]
    rfl

/-- The core index is written last. -/
theorem Maker.commit_ok (make : String → Dict String → CoreIndex) {hashes : Dict String} {core : CoreIndex}
    (h : (do
      let hashes ← pure hashes
      let core := make (← get).now hashes
      during "Failed to write core index" (s.writeCore core)
      return core : Action CoreIndex).exec w = (.ok core, w')) :
    core = make w.now hashes ∧ (s.writeCore core).exec w = (.ok (), w') := by
  rw [pure_bind, exec_bind_of_ok (exec_get _)] at h
  obtain ⟨u, w₁, hcore, h⟩ := ok_of_exec_bind h
  cases h
  exact ⟨rfl, ok_of_exec_during hcore⟩

theorem Maker.writeDocuments_ok (hs : Path.isAbsolute s.root = true) (make : String → Dict String → CoreIndex)
    {files : List String} {core : CoreIndex} (h : (m.writeDocuments s files a make).exec w = (.ok core, w')) :
    core = make w.now (m.recorded a files) ∧ Wrote m s a files core w'.disk ∧
      Changed s.IsOutputPlace (· <+: s.shardsPlace) w w' := by
  have hm := (m.divides_division files).toProper
  have hcleared : ∀ {keep n w w'}, (s.clearShards keep).exec w = (.ok n, w') →
      Changed s.IsOutputPlace (· <+: s.shardsPlace) w w' := fun hclear =>
    (clearShards_changed hs hclear).mono (fun _ => isOutputPlace_of_isStale) fun _ => False.elim
  have hwritten : ∀ {core w w'}, (s.writeCore core).exec w = (.ok (), w') →
      Changed s.IsOutputPlace (· <+: s.shardsPlace) w w' := fun hcore =>
    (writeCore_ok hs hcore).2.mono (fun _ => isOutputPlace_corePlace) fun _ => False.elim
  unfold writeDocuments at h
  cases hskip : m.settings.skipDetails with
  | true =>
    have hsharded : m.sharded files = [] := by rw [sharded, hskip, if_pos rfl]
    have hrecorded : m.recorded a files = {} := by rw [recorded, hskip, if_pos rfl]
    simp only [hskip, if_true] at h
    obtain ⟨cleared, w₁, hclear, h⟩ := ok_of_exec_bind h
    replace hclear := ok_of_exec_during hclear
    obtain ⟨rfl, hcore⟩ := commit_ok make h
    have hchanged := (hcleared hclear).trans (hwritten hcore)
    obtain ⟨hread, hplaces⟩ := writeCore_ok hs hcore
    rw [(hcleared hclear).now_eq] at hread ⊢
    rw [hrecorded]
    refine ⟨rfl, ⟨hread, by simp [hsharded], ?_⟩, hchanged⟩
    rw [hsharded]
    exact (onlyShards_of_clearShards hs hclear).of_writeCore hplaces
  | false =>
    have hsharded : m.sharded files = (m.division files).keys := by rw [sharded, hskip]; rfl
    have hrecorded : m.recorded a files = a.hashes (m.division files) := by rw [recorded, hskip]; rfl
    simp only [hskip, Bool.false_eq_true, if_false] at h
    obtain ⟨hashes, w₁, hshards, h⟩ := ok_of_exec_bind h
    obtain ⟨cleared, w₂, hclear, h⟩ := ok_of_exec_bind h
    replace hclear := ok_of_exec_during hclear
    obtain ⟨hredone, rfl⟩ := writeShards_ok hs hm hshards
    obtain ⟨rfl, hcore⟩ := commit_ok make h
    have hfirst : Changed s.IsOutputPlace (· <+: s.shardsPlace) w w₁ :=
      hredone.changed.mono (fun _ => isOutputPlace_of_shardFiles (isValid_keys hm)) fun _ h => h
    obtain ⟨hread, hplaces⟩ := writeCore_ok hs hcore
    rw [(hcleared hclear).now_eq, hfirst.now_eq] at hread ⊢
    rw [hrecorded]
    refine ⟨rfl, ⟨hread, fun id hid => ?_, ?_⟩, hfirst.trans ((hcleared hclear).trans (hwritten hcore))⟩
    · rw [hsharded] at hid
      obtain ⟨files, hget⟩ := Dict.mem_keys.1 hid
      have hsaved := hredone.saved id hid
      rw [Analysis.bytesOf?, hget] at hsaved ⊢
      exact saved_of_clear_and_commit hs (clearShards_changed hs hclear) hplaces (hm.valid hget) hid hsaved
    · rw [hsharded]
      exact (onlyShards_of_clearShards hs hclear).of_writeCore hplaces

/-- A build leaves the documents that the analysis of its files makes, and no other shards.  Besides the documents only
    the cache changes, which is written last. -/
theorem Maker.build_spec {root : String} {core : CoreIndex} {n : Nat} (h : (m.build root).exec w = (.ok (core, n), w')) :
    ∃ files source commits found w₁ w₂, Surveyed m (w.store root) w files source commits found ∧
      core = { builtCore m (w.store root) (recordAll commits Analysis.empty found) files source w.now with
        hashes := m.recorded (recordAll commits Analysis.empty found) files } ∧
      n = (recordAll commits Analysis.empty found).skipped ∧
      Wrote m (w.store root) (recordAll commits Analysis.empty found) files core w₂.disk ∧ w.Alike w₁ ∧
      Changed (w.store root).IsOutputPlace (· <+: (w.store root).shardsPlace) w₁ w₂ ∧
      (rememberAll (OutlineCache.loaded w.disk (w.store root).root (w.store root).cachePlace) found).saveQuietly.exec w₂ =
        (.ok (), w') := by
  have hs := w.isAbsolute_store root
  rw [build_eq] at h
  obtain ⟨resolved, w₁, hroot, h⟩ := ok_of_exec_bind h
  obtain ⟨rfl, -, rfl⟩ := resolveRoot_ok hroot
  have hpath : (w₁.here.resolve root).toPath = (w₁.store root).root := rfl
  rw [hpath] at h
  generalize w₁.store root = s at h hs ⊢
  obtain ⟨⟨files, source, a, cache⟩, w₂, hsurvey, h⟩ := ok_of_exec_bind h
  obtain ⟨halike, commits, found, hsurveyed, rfl, rfl⟩ := survey_ok hs hsurvey
  obtain ⟨written, w₃, hwrite, h⟩ := ok_of_exec_bind h
  generalize hmake : (fun now hashes => (recordAll commits Analysis.empty found).core (Path.displayName s.root) now
    (m.division files) hashes source (Layout.detect? files) m.settings) = make at hwrite
  obtain ⟨w₄, hsave⟩ := OutlineCache.exec_saveQuietly
    (rememberAll (OutlineCache.loaded w₁.disk s.root s.cachePlace) found) w₃
  rw [exec_bind_of_ok hsave] at h
  cases h
  obtain ⟨rfl, hwrote, hchanged⟩ := writeDocuments_ok hs make hwrite
  subst hmake
  rw [halike.now_eq] at hwrote ⊢
  exact ⟨files, source, commits, found, w₂, w₃, hsurveyed, rfl, rfl, hwrote, halike, hchanged, hsave⟩

section Shards

variable (hskip : m.settings.skipDetails = false)

include hskip

theorem Maker.builtCore_recorded (s : Store) (a : Analysis) (files : List String) (source : FileSource) (now : String) :
    { builtCore m s a files source now with hashes := m.recorded a files } = builtCore m s a files source now := by
  rw [recorded, hskip]
  rfl

theorem Wrote.holding {files : List String} {source : FileSource} {now : String} {d : Disk}
    (h : Wrote m s a files (builtCore m s a files source now) d) : Holding s d (builtCore m s a files source now) a := by
  have hsharded : m.sharded files = (m.division files).keys := by rw [Maker.sharded, hskip]; rfl
  have hshards := h.shards
  rw [hsharded] at hshards
  exact ⟨Sharded.of_core (m.divides_division files) hshards _ _ _ _ _, h.read, rfl⟩

/-- A build that makes shards leaves an index as the analysis of its files makes it. -/
theorem Maker.build_ok {root : String} {core : CoreIndex} {n : Nat} (h : (m.build root).exec w = (.ok (core, n), w')) :
    ∃ files source commits found w₁ w₂, Surveyed m (w.store root) w files source commits found ∧
      core = builtCore m (w.store root) (recordAll commits Analysis.empty found) files source w.now ∧
      Holding (w.store root) w'.disk core (recordAll commits Analysis.empty found) ∧ w.Alike w₁ ∧
      Changed (w.store root).IsOutputPlace (· <+: (w.store root).shardsPlace) w₁ w₂ ∧
      (rememberAll (OutlineCache.loaded w.disk (w.store root).root (w.store root).cachePlace) found).saveQuietly.exec w₂ =
        (.ok (), w') := by
  obtain ⟨files, source, commits, found, w₁, w₂, hsurveyed, hcore, -, hwrote, halike, hchanged, hsave⟩ := build_spec h
  rw [builtCore_recorded hskip] at hcore
  subst hcore
  have hholding := (hwrote.holding hskip).of_saveQuietly (w.isAbsolute_store root) (path_rememberAll _ _) hsave
  exact ⟨files, source, commits, found, w₁, w₂, hsurveyed, rfl, hholding, halike, hchanged, hsave⟩

end Shards

end CodeIndex
