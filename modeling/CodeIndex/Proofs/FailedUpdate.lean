import CodeIndex.Proofs.UpdateCourse

set_option autoImplicit false

/-!
# Failed updates

Wherever an update fails, the core index and every shard that it has to do with have the bytes that they had, as
long as no two of these shards share a place and the shards that were written could be put back.
-/

namespace CodeIndex

open Action Store

/-- The store of a project whose root is given as a path. -/
def Workspace.store (w : Workspace) (root : String) : Store := ⟨(w.here.resolve root).toPath⟩

theorem Workspace.isAbsolute_store (w : Workspace) (root : String) : Path.isAbsolute (w.store root).root = true :=
  Path.isAbsolute_slash _

theorem Maker.exec_resolveRoot {root : String} {w : Workspace} (h : w.disk.IsOpen (w.here.resolve root)) :
    (resolveRoot root).exec w = (.ok (w.store root).root, w) := by
  have haccess : w.disk.access (w.here.resolve root) = .ok .directory := h
  unfold resolveRoot
  rw [exec_bind_of_ok (exec_locate _ _), exec_bind_of_ok (exec_look _ _), haccess]
  rfl

/-- The core index that is on the disk. -/
def Store.coreOn? (s : Store) (d : Disk) : Option CoreIndex :=
  match d.read s.corePlace with
  | .ok bytes => decode? bytes
  | .error _ => none

/-- A core index that can be read and agrees with the shards. -/
structure Store.Healthy (s : Store) (core : CoreIndex) (d : Disk) : Prop where
  read : ∃ bytes, d.read s.corePlace = .ok bytes ∧ decode? bytes = some core
  version : core.version = CoreIndex.splitVersion
  intact : s.Intact core d

namespace Update

variable {s : Store} {w₀ w w' : Workspace} {done : List String} {backups : Backups} {f : Failure}

/-- The shards of different modules, be they in an index or new, lie at different places. -/
def Apart (s : Store) (core : CoreIndex) : Prop :=
  ∀ id id', Membership.Known core id → Membership.Known core id' → s.shardPlace id = s.shardPlace id' → id = id'

/-- The documents of an index are as they were: the core index, and every shard of a module of the index or of one
    that can be new. -/
def DocumentsKept (s : Store) (w w' : Workspace) : Prop :=
  w'.disk.read s.corePlace = w.disk.read s.corePlace ∧
    ∀ id, (∀ core, s.coreOn? w.disk = some core → Membership.Known core id) →
      w'.disk.read (s.shardPlace id) = w.disk.read (s.shardPlace id)

theorem documentsKept_of_alike (h : w.Alike w') : DocumentsKept s w w' := by
  unfold DocumentsKept
  rw [h.disk_eq]
  exact ⟨rfl, fun _ _ => rfl⟩

theorem DocumentsKept.of_alike {w'' : Workspace} (hw : w.Alike w') (h : DocumentsKept s w' w'') :
    DocumentsKept s w w'' := by
  unfold DocumentsKept at h ⊢
  rwa [hw.disk_eq] at h

section Absolute

variable (hs : Path.isAbsolute s.root = true)

include hs

theorem commit_error (hp : Progress s w₀ w done backups) (hd : Distinct s w₀.disk done) {core : CoreIndex}
    (h : (commit s core backups).exec w = (.error f, w')) (hsame : w'.unrestored = w₀.unrestored) : Restored s w₀ w' := by
  rcases commit_cases hs h with ⟨hok, -⟩ | ⟨f, -, h⟩ | ⟨path, reason, w₁, hw, h⟩
  · cases hok
  · exact (exec_rollBack_throw hs hp hd h).2 hsame
  · have hcore : Changed (WrittenFor s done) (· <+: s.shardsPlace) w w₁ :=
      (replaceFile_error (beside_corePath hs w.here) hw).mono (fun l hl => .inr ⟨_, _, hl⟩) fun _ => False.elim
    exact (exec_rollBack_throw hs ⟨hp.changed.trans hcore, hp.mem_keys, hp.saved⟩ hd h).2 hsame

theorem read_of_readShards {core : CoreIndex} {shards : List Shard} (h : (readShards s core).exec w = (.ok shards, w'))
    {id : String} (hid : id ∈ core.modules.keys) : ∃ bytes, w.disk.read (s.shardPlace id) = .ok bytes := by
  obtain ⟨shard, hshard⟩ := mapM_ok (fun id => (looks_readShard s id).during _) h id hid
  rw [exec_during] at hshard
  rcases hr : (s.readShard id).exec w with ⟨e | found, w₁⟩
  · rw [hr] at hshard
    cases hshard
  · obtain ⟨bytes, hread, -⟩ := readShard_ok hs hr
    exact ⟨bytes, hread⟩

theorem sheltered_of_known {core : CoreIndex} (hopen : w.disk.IsOpen s.place)
    (hread : ∀ id ∈ core.modules.keys, ∃ bytes, w.disk.read (s.shardPlace id) = .ok bytes) {id : String}
    (hid : Membership.Known core id) : Sheltered s w.disk (s.shardPlace id) := by
  rcases hid with hcore | hvalid
  · obtain ⟨bytes, hbytes⟩ := hread id (Dict.contains_iff_mem.1 hcore)
    exact sheltered_of_read hopen hbytes (ne_of_lastChar? (lastChar?_shardPlace hs id) (lastChar?_shardsPlace s) (by decide))
  · exact sheltered_of_isValid hopen hvalid

/-- What is restored are the documents, when all shards of the index are there. -/
theorem Restored.documentsKept {core : CoreIndex} (hcore : s.coreOn? w.disk = some core) (hopen : w.disk.IsOpen s.place)
    (hread : ∀ id ∈ core.modules.keys, ∃ bytes, w.disk.read (s.shardPlace id) = .ok bytes) (h : Restored s w w') :
    DocumentsKept s w w' := by
  have hsheltered : ∀ id, Membership.Known core id → Sheltered s w.disk (s.shardPlace id) :=
    fun id hid => sheltered_of_known hs hopen hread hid
  refine ⟨h _ (sheltered_corePlace hopen) ?_, fun id hid => h _ (hsheltered id (hid core hcore)) ?_⟩
  · exact fun haside => ne_of_lastChar? (lastChar?_corePlace s) haside.lastChar? (by decide) rfl
  · exact not_isAside_shardPlace hs id

theorem Prepared.read {m : Maker} {core : CoreIndex} {c : ChangeSet} {shards : List Shard} {found : List Maker.Finding}
    {fresh : Analysis} (hp : Prepared m s.root core c w shards found fresh w') :
    ∀ id ∈ core.modules.keys, ∃ bytes, w'.disk.read (s.shardPlace id) = .ok bytes := by
  obtain ⟨w₁, hshards⟩ := hp.shards
  rw [hp.alike.disk_eq]
  exact fun id hid => read_of_readShards hs hshards hid

theorem Prepared.distinct {m : Maker} {core : CoreIndex} {c : ChangeSet} {shards : List Shard} {found : List Maker.Finding}
    {fresh : Analysis} (hp : Prepared m s.root core c w shards found fresh w') (hopen : w'.disk.IsOpen s.place)
    (hc : core.Consistent) (hapart : Apart s core) :
    Distinct s w'.disk ([] ++ (membershipAfter core c shards).affected.keys) := by
  have hknown : ∀ {id}, id ∈ [] ++ (membershipAfter core c shards).affected.keys → Membership.Known core id :=
    fun hid => Membership.known_of_affected hc c _ (List.nil_append _ ▸ hid)
  exact ⟨fun hid hid' => hapart _ _ (hknown hid) (hknown hid'), fun hid => sheltered_of_known hs hopen (hp.read hs) (hknown hid)⟩

theorem apply_error {m : Maker} {core : CoreIndex} {c : ChangeSet} (hcore : s.coreOn? w.disk = some core)
    (hopen : w.disk.IsOpen s.place) (hc : core.Consistent) (hapart : Apart s core)
    (h : (apply m s.root core c).exec w = (.error f, w')) (hsame : w'.unrestored = w.unrestored) :
    DocumentsKept s w w' := by
  cases course h with
  | unread alike _ => exact documentsKept_of_alike alike
  | unexamined alike _ _ => exact documentsKept_of_alike alike
  | unwritten prepared writing =>
    rw [← prepared.alike.disk_eq] at hcore hopen
    obtain ⟨-, hrestored⟩ := regenerateAll_spec hs _ (Progress.refl s _) (prepared.distinct hs hopen hc hapart)
      (Dict.nodup_keys _) writing
    have hkept := hrestored _ rfl (hsame.trans prepared.alike.unrestored_eq.symm)
    exact .of_alike prepared.alike (hkept.documentsKept hs hcore hopen (prepared.read hs))
  | uncommitted prepared writing committing =>
    rw [← prepared.alike.disk_eq] at hcore hopen
    have hdistinct := prepared.distinct hs hopen hc hapart
    obtain ⟨hprogress, -⟩ := regenerateAll_spec hs _ (Progress.refl s _) hdistinct (Dict.nodup_keys _) writing
    have hkept := commit_error hs (hprogress _ _ rfl) hdistinct committing (hsame.trans prepared.alike.unrestored_eq.symm)
    exact .of_alike prepared.alike (hkept.documentsKept hs hcore hopen (prepared.read hs))

theorem coreOn?_of_readCore {core : CoreIndex} (h : s.readCore.exec w = (.ok core, w')) :
    s.coreOn? w.disk = some core ∧ w.disk.IsOpen s.place := by
  obtain ⟨⟨bytes, hread, hdecode⟩, -⟩ := readCore_ok hs h
  obtain ⟨time, haccess⟩ := Disk.access_of_read hread
  refine ⟨?_, Disk.isOpen_of_access_concat haccess⟩
  rw [coreOn?, hread]
  exact hdecode

end Absolute

section Absolute

variable (hs : Path.isAbsolute s.root = true)

include hs

/-- The check fails at once, or the update goes on with an index that is intact. -/
theorem exec_check (m : Maker) (core : CoreIndex) (w : Workspace) :
    ((∃ f, (check m s.root core).exec w = (.error f, w)) ∧
      ((core.hashes.isEmpty && !core.modules.isEmpty) = true ∨ ¬ s.Intact core w.disk)) ∨
    (check m s.root core).exec w = (proceed m s.root core).exec w ∧
      (core.hashes.isEmpty && !core.modules.isEmpty) = false ∧ s.Intact core w.disk := by
  obtain ⟨found, hfound, hintact⟩ := exec_problems hs core w
  unfold check
  cases hguard : core.hashes.isEmpty && !core.modules.isEmpty with
  | true => exact .inl ⟨⟨_, rfl⟩, .inl rfl⟩
  | false =>
    simp only [Bool.false_eq_true, if_false]
    rw [exec_bind_of_ok hfound]
    cases found with
    | nil => exact .inr ⟨rfl, trivial, hintact.1 rfl⟩
    | cons p ps => exact .inl ⟨⟨_, rfl⟩, .inr fun hi => (nomatch hintact.2 hi)⟩

end Absolute

/-- An update fails while it only looks, or it has found an index that agrees with its shards.  Then it leaves everything as
    it is, or applies what changed in files that can be indexed. -/
theorem run_cases {m : Maker} {root : String} {r : Except Failure UpdateOutcome} (h : (run m root).exec w = (r, w')) :
    (∃ f, r = .error f ∧ w.Alike w') ∨
    ∃ core, (w.store root).coreOn? w.disk = some core ∧ (w.store root).Healthy core w.disk ∧
      w.disk.IsOpen (w.store root).place ∧
      (r = .ok .unchanged ∧ w.Alike w' ∨ ∃ (c : ChangeSet) (w₁ : Workspace), w.Alike w₁ ∧
        (∀ file ∈ c.modified.keys, Listing.indexable m.settings w (w.store root).root file = true) ∧
        (apply m (w.store root).root core c).exec w₁ = (r, w')) := by
  have hs := w.isAbsolute_store root
  unfold run at h
  rcases (Maker.looks_resolveRoot root).bind_cases h with ⟨f, hr, -, halike⟩ | ⟨resolved, w₁, hroot, -, h⟩
  · exact .inl ⟨f, hr, halike⟩
  obtain ⟨rfl, -, rfl⟩ := Maker.resolveRoot_ok hroot
  change (do
    let core ← Store.readCore (w₁.store root)
    check m (w₁.store root).root core).exec w₁ = _ at h
  generalize w₁.store root = s at h hs ⊢
  rcases (looks_readCore s).bind_cases h with ⟨f, hr, -, halike⟩ | ⟨core, w₂, hreadCore, ha₂, h⟩
  · exact .inl ⟨f, hr, halike⟩
  obtain ⟨hread, hversion⟩ := readCore_ok hs hreadCore
  obtain ⟨hcore, hopen⟩ := coreOn?_of_readCore hs hreadCore
  rcases exec_check hs m core w₂ with ⟨⟨f, hcheck⟩, -⟩ | ⟨hcheck, -, hintact⟩
  · cases hcheck.symm.trans h
    exact .inl ⟨f, rfl, ha₂⟩
  replace h := hcheck.symm.trans h
  rw [ha₂.disk_eq] at hintact
  rcases (looks_changes m s.root core).bind_cases h with ⟨f, hr, -, ha₃⟩ | ⟨c, w₃, hchanges, ha₃, h⟩
  · exact .inl ⟨f, hr, ha₂.trans ha₃⟩
  have halike : w₁.Alike w₃ := ha₂.trans ha₃
  refine .inr ⟨core, hcore, ⟨hread, hversion, hintact⟩, hopen, ?_⟩
  split at h
  · cases h
    exact .inl ⟨rfl, halike⟩
  · refine .inr ⟨c, w₃, halike, fun file hfile => ?_, h⟩
    rcases changes_spec m s.root core w₂ with ⟨⟨reason, hfails⟩, -⟩ | ⟨touched, c', -, hfound, hsorted⟩
    · rw [hchanges] at hfails
      cases hfails
    · rw [hchanges] at hfound
      cases hfound
      rw [← Listing.indexable_congr ha₂]
      exact ((hsorted.modified file).1 hfile).2

theorem run_error {m : Maker} {root : String} (h : (run m root).exec w = (.error f, w'))
    (hsame : w'.unrestored = w.unrestored)
    (hapart : ∀ core, (w.store root).coreOn? w.disk = some core → Apart (w.store root) core) :
    DocumentsKept (w.store root) w w' := by
  rcases run_cases h with ⟨-, -, halike⟩ | ⟨core, hcore, hhealthy, hopen, ⟨hr, -⟩ | ⟨c, w₁, ha₁, -, happly⟩⟩
  · exact documentsKept_of_alike halike
  · cases hr
  · have hapart' := hapart core hcore
    have hconsistent := CoreIndex.partitionProblems_eq_nil.1 hhealthy.intact.partition
    rw [← ha₁.disk_eq] at hcore hopen
    have hkept := apply_error (w.isAbsolute_store root) hcore hopen hconsistent hapart' happly
      (hsame.trans ha₁.unrestored_eq.symm)
    exact .of_alike ha₁ hkept

end Update

end CodeIndex
