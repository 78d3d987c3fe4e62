import CodeIndex.Proofs.AnyIndex
import CodeIndex.Proofs.Idempotence
import CodeIndex.Proofs.UpdateInStep

set_option autoImplicit false

/-!
# Looking up modules with and without the map

The map from files to modules is the inverse of the modules' file lists wherever the consistency check finds nothing, so
a search through the lists finds the same (`moduleFor?_withoutMap`).  An update looks at the map in no other way: without
it, it takes the same steps and writes the same index.
-/

namespace CodeIndex

open Action Store Update

namespace CoreIndex

variable {core : CoreIndex}

def withoutMap (core : CoreIndex) : CoreIndex := { core with moduleOfFile := {} }

/-! ## Lookups -/

theorem Consistent.withoutMap (h : core.Consistent) : core.withoutMap.Consistent :=
  ⟨h.counts, h.nodup, fun _ _ => .inl rfl, fun hfile => nomatch hfile⟩

theorem Consistent.moduleFor?_withoutMap (h : core.Consistent) (file : String) :
    core.withoutMap.moduleFor? file = core.moduleFor? file := by
  refine Option.ext fun id => ?_
  rw [h.moduleFor?_eq_some, h.withoutMap.moduleFor?_eq_some]
  rfl

/-! ## Steps of an update -/

section Steps

variable (h : core.Consistent)

include h

theorem Consistent.problems_withoutMap (s : Store) : s.problems core.withoutMap = s.problems core := by
  have hpartition : core.withoutMap.partitionProblems = core.partitionProblems :=
    (partitionProblems_eq_nil.2 h.withoutMap).trans (partitionProblems_eq_nil.2 h).symm
  unfold Store.problems
  rw [hpartition]
  rfl

theorem Consistent.changes_withoutMap (m : Maker) (root : String) : changes m root core.withoutMap = changes m root core := by
  have hclassify : classify m root core.withoutMap = classify m root core := by
    funext c path
    unfold classify
    rw [h.moduleFor?_withoutMap]
  unfold changes
  rw [hclassify]
  rfl

theorem Consistent.after_withoutMap (c : ChangeSet) (importers : List String) :
    Membership.after core.withoutMap c importers = Membership.after core c importers := by
  have hremove : Membership.remove core.withoutMap = Membership.remove core := by
    funext m path
    unfold Membership.remove
    rw [h.moduleFor?_withoutMap]
  have hadd : Membership.add core.withoutMap = Membership.add core := by
    funext m path
    unfold Membership.add
    rw [h.moduleFor?_withoutMap]
  have htouch : Membership.touch core.withoutMap = Membership.touch core := by
    funext m path
    unfold Membership.touch
    rw [h.moduleFor?_withoutMap]
  unfold Membership.after
  rw [hremove, hadd, htouch]
  rfl

/-- Once it was read, it does not matter for an update whether a core index has the map. -/
theorem Consistent.check_withoutMap (m : Maker) (root : String) : check m root core.withoutMap = check m root core := by
  have happly : apply m root core.withoutMap = apply m root core := by
    funext c
    unfold apply
    simp only [h.after_withoutMap]
    rfl
  unfold check proceed
  rw [h.problems_withoutMap, h.changes_withoutMap, happly]
  rfl

end Steps

end CoreIndex

/-! ## Two core files -/

namespace Update

/-- Before an update writes the core index, only the core files differ, and not even these if one is a shard as well. -/
def OldCore (s : Store) (core : CoreIndex) : Disk.Differing := fun l bytes bytes' =>
  l = s.corePlace ∧ ((∃ id ∈ core.modules.keys, s.shardPlace id = s.corePlace) → bytes' = bytes)

/-- Only the core index is written with other bytes, and what is prepared beside it. -/
def NewCore (s : Store) : Disk.Differing := fun l _ _ => l = s.corePlace ∨ l = s.corePlace.aside

variable {s : Store} {core : CoreIndex} {now now' : String}

theorem newCore_of_oldCore (l : Location) (bytes bytes' : ByteArray) (h : OldCore s core l bytes bytes') :
    NewCore s l bytes bytes' := .inl h.1

theorem aside_ne_corePlace (directory : Location) (name : String) : directory ++ [name ++ ".tmp"] ≠ s.corePlace := by
  have haside : IsAside (directory ++ [name ++ ".tmp"]) := ⟨directory, name, rfl⟩
  exact ne_of_lastChar? haside.lastChar? (lastChar?_corePlace s) (by decide)

theorem settles_oldCore : Settles (OldCore s core) :=
  fun directory name _ _ h => absurd h.1 (aside_ne_corePlace directory name)

theorem settles_newCore : Settles (NewCore s) := by
  rintro directory name bytes bytes' (heq | haside)
  · exact absurd heq (aside_ne_corePlace directory name)
  · have hplace : directory ++ [name ++ ".tmp"] = s.place ++ [coreFile ++ ".tmp"] := haside.trans (Location.aside_concat _ _)
    obtain ⟨rfl, hname⟩ := List.append_singleton_inj.1 hplace
    have hname : name = coreFile := by simpa using hname
    exact .inl (hname ▸ rfl)

/-- The shards that an update may read do not differ. -/
theorem oldCore_shardPlace {id : String} (hid : Membership.Known core id) (bytes bytes' : ByteArray)
    (h : OldCore s core (s.shardPlace id) bytes bytes') : bytes' = bytes := by
  rcases hid with hmodule | hvalid
  · exact h.2 ⟨id, Dict.contains_iff_mem.1 hmodule, h.1⟩
  · exact absurd h.1 (shardPlace_ne_corePlace hvalid)

theorem oldCore_cachePlace (bytes bytes' : ByteArray) : ¬ OldCore s core s.cachePlace bytes bytes' := by
  rintro ⟨heq, -⟩
  have hlen := congrArg List.length heq
  simp [cachePlace, corePlace] at hlen

theorem spared_oldCore : Language.Spared (OldCore s core) := by
  rintro directory name language hname bytes bytes' ⟨heq, -⟩
  obtain ⟨-, rfl⟩ := List.append_singleton_inj.1 (show directory ++ [name] = s.place ++ [coreFile] from heq)
  have hnone : Language.ofName coreFile = none := by decide
  cases hnone.symm.trans hname

/-! ## Two runs -/

/-- After an update the disks are the same but for the core file.  If there is a new core index, the two only differ in
    the time at which they were made. -/
def Agree (s : Store) (now now' : String) (r : Except Failure UpdateOutcome) (w v : Workspace) : Prop :=
  Workspace.SameBut (NewCore s) now now' w v ∧ ∀ ids changed, r = .ok (.updated ids changed) →
    ∃ new : CoreIndex, s.coreOn? w.disk = some new ∧ new.madeAt = now ∧ s.coreOn? v.disk = some { new with madeAt := now' }

theorem agree_error (f : Failure) (w v : Workspace) (h : Workspace.SameBut (OldCore s core) now now' w v) :
    Agree s now now' (.error f) w v := ⟨h.mono newCore_of_oldCore, fun _ _ hr => nomatch hr⟩

/-- What an update does once it knows the time. -/
def finish (s : Store) (core : CoreIndex) (backups : Backups) (cache : OutlineCache) (o : UpdateOutcome) :
    Action UpdateOutcome := do
  commit s core backups
  cache.saveQuietly
  return o

section Absolute

variable (hs : Path.isAbsolute s.root = true)

include hs

theorem inStep_writeCore (new new' : CoreIndex) :
    InStep (Workspace.SameBut (NewCore s) now now') (s.writeCore new) (s.writeCore new') := by
  have haside : NewCore s (s.place ++ [coreFile ++ ".tmp"]) (encode new) (encode new') :=
    .inr (Location.aside_concat s.place coreFile).symm
  exact inStep_replaceFile (beside_corePath hs) (.inr haside) (settles_newCore _ _)

theorem paired_commit {new : CoreIndex} (hids : ∀ id ∈ new.modules.keys, Membership.Known core id) (backups : Backups) :
    Paired (Workspace.SameBut (OldCore s core) now now') (fun _ => Workspace.SameBut (NewCore s) now now')
      (commit s new backups) (commit s { new with madeAt := now' } backups) := by
  have hproblems : s.problems { new with madeAt := now' } = s.problems new := by
    have hpartition : CoreIndex.partitionProblems { new with madeAt := now' } = new.partitionProblems :=
      CoreIndex.partitionProblems_congr rfl rfl
    unfold Store.problems
    rw [hpartition]
    rfl
  have hread := fun id hid => oldCore_shardPlace (s := s) (hids id hid)
  unfold commit
  rw [hproblems]
  refine Paired.bind (blind_problems hs hread) (fun f w v h => h.mono newCore_of_oldCore) fun problems => ?_
  refine Paired.mono (P := Workspace.SameBut (NewCore s) now now') (Q := fun _ => Workspace.SameBut (NewCore s) now now') ?_
    (fun w v h => h.mono newCore_of_oldCore) fun _ _ _ => id
  split
  · exact (blind_rollBack hs settles_newCore backups).bind fun _ => inStep_failWith _
  · refine (inStep_writeCore hs new { new with madeAt := now' }).attempt.bind fun r => ?_
    split
    · exact inStep_pure _
    · exact (blind_rollBack hs settles_newCore backups).bind fun _ => inStep_throw _

/-- A core index that was committed is there, also when the cache is written. -/
theorem coreOn?_of_finish {new : CoreIndex} {backups : Backups} {cache : OutlineCache} {w w₁ w' : Workspace} {u : Unit}
    {r : Except Failure Unit}
    (hpath : cache.path = some (OutlineCache.pathIn s.root)) (hcommit : (commit s new backups).exec w = (.ok u, w₁))
    (hsave : cache.saveQuietly.exec w₁ = (r, w')) : s.coreOn? w'.disk = some new := by
  have hread := (writeCore_ok hs (intact_of_commit hs hcommit).2).1
  obtain ⟨time, haccess⟩ := Disk.access_of_read hread
  have hopen : w₁.disk.IsOpen s.place := Disk.isOpen_of_access_concat haccess
  rw [coreOn?, Disk.read_congr (access_of_saveQuietly hs hpath hopen hsave .core), hread]
  exact decode?_encode CoreIndex.readsBack new

theorem paired_finish {new : CoreIndex} (hids : ∀ id ∈ new.modules.keys, Membership.Known core id) (hnow : new.madeAt = now)
    (backups : Backups) {cache : OutlineCache} (hpath : cache.path = some (OutlineCache.pathIn s.root)) (o : UpdateOutcome) :
    Paired (Workspace.SameBut (OldCore s core) now now') (Agree s now now')
      (finish s new backups cache o) (finish s { new with madeAt := now' } backups cache o) := by
  intro w v hwv
  obtain ⟨r, w₁, v₁, hw, hv, hcommitted⟩ := (paired_commit hs hids backups).outcome hwv
  unfold finish
  cases r with
  | error f =>
    rw [exec_bind_of_error hw, exec_bind_of_error hv]
    exact ⟨rfl, hcommitted, fun _ _ hr => nomatch hr⟩
  | ok u =>
    obtain ⟨w', hw'⟩ := cache.exec_saveQuietly w₁
    obtain ⟨v', hv'⟩ := cache.exec_saveQuietly v₁
    have hsaved := (OutlineCache.blind_saveQuietly hs settles_newCore hpath w₁ v₁ hcommitted).2
    rw [hw', hv'] at hsaved
    rw [exec_bind_of_ok hw, exec_bind_of_ok hv, exec_bind_of_ok hw', exec_bind_of_ok hv']
    exact ⟨rfl, hsaved, fun _ _ _ => ⟨new, coreOn?_of_finish hs hpath hw hw', hnow, coreOn?_of_finish hs hpath hv hv'⟩⟩

theorem paired_apply (hc : core.Consistent) (m : Maker) (c : ChangeSet) :
    Paired (Workspace.SameBut (OldCore s core) now now') (Agree s now now')
      (apply m s.root core c) (apply m s.root core c) := by
  have hmodules : ∀ id ∈ core.modules.keys, Membership.Known core id := fun id hid => .inl (Dict.contains_iff_mem.2 hid)
  unfold apply
  refine Paired.bind (blind_readShards hs fun id hid => oldCore_shardPlace (hmodules id hid)) agree_error fun shards => ?_
  have hall := Membership.allKnown_after hc c (Imports.importers (Imports.graph shards) c.all)
  dsimp only
  generalize Membership.after core c (Imports.importers (Imports.graph shards) c.all) = membership at hall ⊢
  refine Paired.bind_of_ok (OutlineCache.blind_load hs oldCore_cachePlace) agree_error
    (fun cache => cache.path = some (OutlineCache.pathIn s.root)) (fun hload => ?_) fun cache hpath => ?_
  · rw [OutlineCache.exec_load] at hload
    cases hload
    rfl
  refine Paired.bind (Listing.blind_commits _ _) agree_error fun commits => ?_
  refine Paired.bind_of_ok (m.blind_analyse hs spared_oldCore _ _ _) agree_error
    (fun r => r.2.path = some (OutlineCache.pathIn s.root)) (fun hanalyse => ?_) fun ⟨fresh, cache⟩ hpath => ?_
  · obtain ⟨-, -, found, -, hcache⟩ := Maker.analyse_ok hanalyse
    rw [hcache, Maker.path_rememberAll, hpath]
  refine Paired.bind (blind_regenerateAll hs settles_oldCore _ _ (fun id hid => oldCore_shardPlace (hall.affected id hid)) _ _)
    agree_error fun ⟨hashes, backups⟩ => ?_
  have hids : ∀ now id, id ∈ (((Analysis.ofIndex core shards).overlay fresh c.removed.keys).core (Path.displayName s.root) now
      membership.modules hashes core.stats.fileSource (Layout.detect? membership.modules.files) m.settings).modules.keys →
        Membership.Known core id := by
    intro now id hid
    rw [keys_modules_core] at hid
    exact hall.modules id hid
  exact paired_now (k := fun now => finish s (((Analysis.ofIndex core shards).overlay fresh c.removed.keys).core
    (Path.displayName s.root) now membership.modules hashes core.stats.fileSource (Layout.detect? membership.modules.files)
    m.settings) backups cache (.updated membership.affected.keys c.all)) (paired_finish hs (hids now) rfl backups hpath _)

theorem paired_check (hc : core.Consistent) (m : Maker) :
    Paired (Workspace.SameBut (OldCore s core) now now') (Agree s now now') (check m s.root core) (check m s.root core) := by
  have hids : ∀ id ∈ core.modules.keys, ∀ bytes bytes', OldCore s core (s.shardPlace id) bytes bytes' → bytes' = bytes :=
    fun id hid => oldCore_shardPlace (.inl (Dict.contains_iff_mem.2 hid))
  rw [check_eq_accept]
  refine Paired.bind (blind_accept hs hids) agree_error fun _ => ?_
  unfold proceed
  refine Paired.bind (blind_changes hs spared_oldCore m core) agree_error fun c => ?_
  split
  · exact fun w v h => ⟨rfl, h.mono newCore_of_oldCore, fun _ _ hr => nomatch hr⟩
  · exact paired_apply hs hc m c

end Absolute

/-! ## Updates without the map -/

/-- Two workspaces hold the same but for the core index of a project, which is without its map on the second.  What was
    asked before does not count, nor what time it is. -/
structure LosesMap (s : Store) (core : CoreIndex) (w v : Workspace) : Prop where
  core_eq : s.coreOn? w.disk = some core
  core_eq' : s.coreOn? v.disk = some core.withoutMap
  elsewhere : ∀ l, l ≠ s.corePlace → v.disk.find? l = w.disk.find? l
  shards : ∀ id ∈ core.modules.keys, v.disk.read (s.shardPlace id) = w.disk.read (s.shardPlace id)
  clock_eq : v.disk.clock = w.disk.clock
  changes_eq : v.disk.changes = w.disk.changes
  refusals_eq : v.disk.refusals = w.disk.refusals
  here_eq : v.here = w.here
  history_eq : v.history = w.history
  unrestored_eq : v.unrestored = w.unrestored

theorem read_of_coreOn? {d : Disk} (h : s.coreOn? d = some core) :
    ∃ bytes, d.read s.corePlace = .ok bytes ∧ decode? bytes = some core := by
  unfold coreOn? at h
  split at h
  · next bytes hread => exact ⟨bytes, hread, h⟩
  · cases h

theorem LosesMap.sameBut {w v : Workspace} (h : LosesMap s core w v) :
    Workspace.SameBut (OldCore s core) w.now v.now w v := by
  refine ⟨⟨fun l => ?_, h.clock_eq, h.changes_eq, h.refusals_eq⟩, h.here_eq, h.history_eq, h.unrestored_eq, rfl, rfl⟩
  by_cases hl : l = s.corePlace
  · obtain ⟨bytes, hread, -⟩ := read_of_coreOn? h.core_eq
    obtain ⟨bytes', hread', -⟩ := read_of_coreOn? h.core_eq'
    obtain ⟨time, haccess⟩ := Disk.access_of_read hread
    obtain ⟨time', haccess'⟩ := Disk.access_of_read hread'
    rw [hl, Disk.find?_of_access haccess, Disk.find?_of_access haccess']
    refine .some (.inr ⟨bytes, time, bytes', time', rfl, rfl, rfl, ?_⟩)
    rintro ⟨id, hid, hplace⟩
    have hshard := h.shards id hid
    rw [hplace, hread, hread'] at hshard
    exact Except.ok.inj hshard
  · rw [h.elsewhere l hl]
    cases w.disk.find? l with
    | none => exact .none
    | some node => exact .some (.inl rfl)

theorem exec_readCore_of_coreOn? (hs : Path.isAbsolute s.root = true) {w : Workspace} (h : s.coreOn? w.disk = some core) :
    s.readCore.exec w =
      (if core.version = CoreIndex.splitVersion then .ok core else .error (Failure.ofFault (.noIndex s.corePath)), w) := by
  obtain ⟨bytes, hread, hdecode⟩ := read_of_coreOn? h
  by_cases hv : core.version = CoreIndex.splitVersion
  · rw [if_pos hv, exec_readCore hs hread hdecode hv]
  · obtain ⟨time, haccess⟩ := Disk.access_of_read hread
    have hpresent : (isPresent s.corePath).exec w = (.ok true, w) := by
      rw [exec_isPresent, resolve_corePath hs, Disk.holds_of_access haccess]
    have hdocument : (readDocument s.corePath coreFile : Action CoreIndex).exec w = (.ok core, w) :=
      exec_readDocument _ _ (by rw [resolve_corePath hs, hread]) hdecode
    rw [if_neg hv]
    unfold readCore
    rw [exec_bind_of_ok hpresent]
    change (readDocument s.corePath coreFile >>= fun core : CoreIndex => _ : Action CoreIndex).exec w = _
    rw [exec_bind_of_ok hdocument, if_neg hv]
    rfl

theorem agree_of_readCore (hs : Path.isAbsolute s.root = true) (hc : core.Consistent) (m : Maker) :
    Paired (fun w v => LosesMap s core w v ∧ w.now = now ∧ v.now = now') (Agree s now now')
      (s.readCore >>= check m s.root) (s.readCore >>= check m s.root) := by
  rintro w v ⟨h, rfl, rfl⟩
  have hw := exec_readCore_of_coreOn? hs h.core_eq
  have hv := exec_readCore_of_coreOn? hs h.core_eq'
  have hversion : core.withoutMap.version = core.version := rfl
  rw [hversion] at hv
  split at hw
  · next heq =>
    rw [if_pos heq] at hv
    rw [exec_bind_of_ok hw, exec_bind_of_ok hv, hc.check_withoutMap]
    exact paired_check hs hc m w v h.sameBut
  · next hne =>
    rw [if_neg hne] at hv
    rw [exec_bind_of_error hw, exec_bind_of_error hv]
    exact ⟨rfl, agree_error _ w v h.sameBut⟩

/-- With and without the map, an update comes to the same and leaves the same behind. -/
theorem agree_of_run (hc : core.Consistent) (m : Maker) {root : String} {w v : Workspace}
    (h : LosesMap (w.store root) core w v) : ∃ r w' v', (run m root).exec w = (r, w') ∧ (run m root).exec v = (r, v') ∧
      Agree (w.store root) w.now v.now r w' v' := by
  have hs := w.isAbsolute_store root
  obtain ⟨r, w₁, v₁, hw, hv, -⟩ := (Maker.blind_resolveRoot root).outcome h.sameBut
  obtain rfl : w₁ = w := (congrArg Prod.snd hw).symm.trans (Maker.exec_resolveRoot_self root w)
  obtain rfl : v₁ = v := (congrArg Prod.snd hv).symm.trans (Maker.exec_resolveRoot_self root v)
  unfold run
  cases r with
  | error f =>
    rw [exec_bind_of_error hw, exec_bind_of_error hv]
    exact ⟨_, _, _, rfl, rfl, agree_error f w₁ v₁ h.sameBut⟩
  | ok resolved =>
    obtain ⟨rfl, -, -⟩ := Maker.resolveRoot_ok hw
    rw [exec_bind_of_ok hw, exec_bind_of_ok hv]
    exact (agree_of_readCore hs hc m).outcome ⟨h, rfl, rfl⟩

theorem apply_ne_unchanged {m : Maker} {root : String} {c : ChangeSet} {w w' : Workspace} :
    (apply m root core c).exec w ≠ (.ok .unchanged, w') := by
  intro h
  rw [apply_eq_plan] at h
  obtain ⟨⟨p, ids⟩, w₁, -, h⟩ := ok_of_exec_bind h
  obtain ⟨r, w₂, -, h⟩ := ok_of_exec_bind h
  cases h

theorem disk_of_unchanged {m : Maker} {root : String} {w w' : Workspace} (h : (run m root).exec w = (.ok .unchanged, w')) :
    w'.disk = w.disk := by
  obtain ⟨core, -, -, -, halike | ⟨c, w₁, -, -, happly⟩⟩ := run_steps h
  · exact halike.disk_eq
  · exact absurd happly apply_ne_unchanged

/-- Where the consistency check finds nothing, the map and a search find the same module for a file, the one that lists
    it, and all files come in order and once.  So an update on the same index without the map comes to the same, leaves
    the same shards behind, and writes the same core index but for the time at which it was made. -/
theorem lookups_agree_without_map {core : CoreIndex} (h : core.partitionProblems = []) :
    (∀ file id, core.moduleFor? file = some id ↔ ∃ m, core.modules.get? id = some m ∧ file ∈ m.files) ∧
    (∀ file, core.withoutMap.moduleFor? file = core.moduleFor? file) ∧
    (core.allFiles.Pairwise (· < ·) ∧
      ∀ file, file ∈ core.allFiles ↔ ∃ id m, core.modules.get? id = some m ∧ file ∈ m.files) ∧
    ∀ (m : Maker) (root : String) (w v : Workspace), LosesMap (w.store root) core w v →
      ∃ r w' v', (run m root).exec w = (r, w') ∧ (run m root).exec v = (r, v') ∧
        (∀ l, l ≠ (w.store root).corePlace → l ≠ (w.store root).corePlace.aside → v'.disk.find? l = w'.disk.find? l) ∧
        (∀ id, (w.store root).shardPlace id ≠ (w.store root).corePlace →
          v'.disk.read ((w.store root).shardPlace id) = w'.disk.read ((w.store root).shardPlace id)) ∧
        v'.unrestored = w'.unrestored ∧
        (∀ ids changed, r = .ok (.updated ids changed) → ∃ new : CoreIndex, (w.store root).coreOn? w'.disk = some new ∧
          new.madeAt = w.now ∧ (w.store root).coreOn? v'.disk = some { new with madeAt := v.now }) ∧
        (r = .ok .unchanged → w'.disk = w.disk ∧ v'.disk = v.disk) := by
  have hc := CoreIndex.partitionProblems_eq_nil.1 h
  have hallFiles : core.allFiles.Pairwise (· < ·) := Text.pairwise_lt_mergeSort hc.nodup
  refine ⟨fun file id => hc.moduleFor?_eq_some, hc.moduleFor?_withoutMap, ⟨hallFiles, fun file => ?_⟩, ?_⟩
  · simp only [mem_allFiles, ModuleMap.Holds, Membership.get?_modulesOf]
    constructor
    · rintro ⟨id, _, ⟨entry, hentry, rfl⟩, hfile⟩
      exact ⟨id, entry, hentry, hfile⟩
    · rintro ⟨id, entry, hentry, hfile⟩
      exact ⟨id, _, ⟨entry, hentry, rfl⟩, hfile⟩
  · intro m root w v hloses
    have hs := w.isAbsolute_store root
    obtain ⟨r, w', v', hw, hv, hsame, hnew⟩ := agree_of_run hc m hloses
    refine ⟨r, w', v', hw, hv, fun l hcore haside => ?_, fun id hid => ?_, hsame.unrestored_eq, hnew, ?_⟩
    · rcases hsame.disk.find_cases l with heq | ⟨_, _, _, _, -, -, hl⟩
      · exact heq
      · exact absurd hl (not_or.2 ⟨hcore, haside⟩)
    · apply hsame.disk.read_eq
      rintro bytes bytes' (heq | haside)
      · exact absurd heq hid
      · exact absurd (haside ▸ isAside_aside _) (not_isAside_shardPlace hs id)
    · rintro rfl
      exact ⟨disk_of_unchanged hw, disk_of_unchanged hv⟩

theorem find?_eq_none_below {d : Disk} {place : Location} (hne : place ≠ [])
    (h : (d.entries.all fun e => e.1 == place || !List.isPrefixOf place e.1) = true) (l : Location) (hle : place <+: l)
    (hl : l ≠ place) : d.find? l = none := by
  by_contra hfound
  obtain ⟨node, hnode⟩ := Option.ne_none_iff_exists'.1 hfound
  have hroot : l ≠ [] := fun hnil => hne (List.prefix_nil.1 (hnil ▸ hle))
  rcases Bool.or_eq_true_iff.1 (List.all_eq_true.1 h _ (Disk.mem_of_find? hroot hnode)) with heq | hnot
  · exact hl (by simpa using heq)
  · simp [List.isPrefixOf_iff_prefix.2 hle] at hnot

/-- The index of a project is written again without the map. -/
theorem losesMap_of_put {w : Workspace} (hcore : s.coreOn? w.disk = some core)
    (hbelow : ∀ l, s.corePlace <+: l → l ≠ s.corePlace → w.disk.find? l = none)
    (hids : ∀ id ∈ core.modules.keys, ModuleId.isValid id = true) (time : Nat) (now : String) :
    LosesMap s core w { w with
      disk := w.disk.put s.corePlace (.file (encode core.withoutMap) time)
      now := now } := by
  obtain ⟨bytes, hread, -⟩ := read_of_coreOn? hcore
  obtain ⟨time₀, haccess⟩ := Disk.access_of_read hread
  have hopen : w.disk.IsOpen s.place := Disk.isOpen_of_access_concat haccess
  have hne : s.corePlace ≠ [] := by simp [corePlace]
  refine ⟨hcore, ?_, fun l hl => ?_, fun id hid => ?_, rfl, rfl, rfl, rfl, rfl, rfl⟩
  · have hput : (w.disk.put s.corePlace (.file (encode core.withoutMap) time)).read s.corePlace =
        .ok (encode core.withoutMap) := Disk.read_of_access (Disk.access_put_self hopen _)
    simp only [coreOn?, hput]
    exact decode?_encode CoreIndex.readsBack _
  · rw [Disk.find?_put _ _ _ _ hne, if_neg hl]
    split
    · next hle => exact (hbelow l hle hl).symm
    · rfl
  · exact Disk.read_congr (Disk.access_put_file haccess (shardPlace_ne_corePlace (hids id hid)))

/-- The project with one document, which version control reports, and its index without the map a day later. -/
theorem lookups_agree_without_map_uncommitted : ∃ core v w' v' new, core.partitionProblems = [] ∧
    core.moduleOfFile.isEmpty = false ∧ core.withoutMap.moduleFor? "README.md" = some "root" ∧
    LosesMap (uncommitted.store ".") core uncommitted v ∧ v.now = "2026-01-02T00:00:00Z" ∧
    (run (Maker.ofSettings .default) ".").exec uncommitted = (.ok (.updated ["root"] ["README.md"]), w') ∧
    (run (Maker.ofSettings .default) ".").exec v = (.ok (.updated ["root"] ["README.md"]), v') ∧
    (uncommitted.store ".").coreOn? w'.disk = some new ∧
    (uncommitted.store ".").coreOn? v'.disk = some { new with madeAt := "2026-01-02T00:00:00Z" } := by
  obtain ⟨core, n, w, a, hbuild, -, hstanding, hleads, -⟩ := tracked_documented
  have hbuilds : endsOk (fun r w => !r.1.moduleOfFile.isEmpty && r.1.moduleFor? "README.md" == some "root" &&
      r.1.modules.keys.all ModuleId.isValid &&
      w.disk.entries.all (fun e => e.1 == ["demo", coreFile] || !List.isPrefixOf ["demo", coreFile] e.1) &&
      decide (((proceed (Maker.ofSettings .default) "/demo" r.1).exec uncommitted).1 = .ok (.updated ["root"] ["README.md"])))
      (((Maker.ofSettings .default).build ".").exec Migration.documented) = true := by decide +kernel
  have hdisk : uncommitted.disk = w.disk := by rw [uncommitted, hbuild]
  replace hleads : uncommitted.Leads "." ⟨"/demo"⟩ := hleads.congr (by rw [uncommitted, hbuild])
  rw [← hdisk] at hstanding
  rw [hbuild] at hbuilds
  simp only [endsOk, Except.toOption, Option.any_some, Bool.and_eq_true, ← hdisk, decide_eq_true_eq, Bool.not_eq_true',
    beq_iff_eq, List.all_eq_true] at hbuilds
  obtain ⟨⟨⟨⟨hmap, hmodule⟩, hids⟩, hentries⟩, hproceed⟩ := hbuilds
  have hproblems : core.partitionProblems = [] := CoreIndex.partitionProblems_eq_nil.2 hstanding.consistent
  have hbelow := find?_eq_none_below (show corePlace ⟨"/demo"⟩ ≠ [] by simp [corePlace]) (List.all_eq_true.2 hentries)
  have hloses := losesMap_of_put hstanding.coreOn? hbelow hids 9 "2026-01-02T00:00:00Z"
  rw [← hleads.store_eq] at hloses
  obtain ⟨-, hlookup, -, hupdate⟩ := lookups_agree_without_map hproblems
  obtain ⟨r, w', v', hw, hv, -, -, -, hnew, -⟩ := hupdate (Maker.ofSettings .default) "." _ _ hloses
  have hrun := exec_run_of_standing hleads hstanding
  rw [hw] at hrun
  obtain rfl : r = .ok (.updated ["root"] ["README.md"]) := (congrArg Prod.fst hrun).trans hproceed
  obtain ⟨new, hnew, -, hnew'⟩ := hnew _ _ rfl
  exact ⟨core, _, w', v', new, hproblems, hmap, (hlookup "README.md").trans hmodule, hloses, rfl, hw, hv, hnew, hnew'⟩

end Update

end CodeIndex
