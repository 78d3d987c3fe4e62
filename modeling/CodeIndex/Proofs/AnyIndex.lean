import CodeIndex.Proofs.Built
import CodeIndex.Proofs.FailedUpdate

set_option autoImplicit false

/-!
# Updates of any index

An update may start from an index that nobody knows anything of.  It does not move the program, and when it succeeds it
leaves an index that agrees with its shards, if the modules of the old one have proper ids.
-/

namespace CodeIndex

open Action Store

namespace Action

variable {α β : Type}

/-- The directory from which paths lead is the same afterwards. -/
def Stays (a : Action α) : Prop := ∀ w, (a.exec w).2.here = w.here

theorem Looks.stays {a : Action α} (h : a.Looks) : a.Stays := fun w => (h.keeps w).here_eq

theorem Stays.bind {a : Action α} {k : α → Action β} (ha : a.Stays) (hk : ∀ x, (k x).Stays) : (a >>= k).Stays := by
  intro w
  rw [exec_bind]
  have hfirst := ha w
  generalize a.exec w = r at hfirst ⊢
  rcases r with ⟨f | x, w'⟩
  · exact hfirst
  · exact (hk x w').trans hfirst

theorem Stays.tryCatch {a : Action α} {handler : Failure → Action α} (ha : a.Stays) (hh : ∀ f, (handler f).Stays) :
    (tryCatch a handler).Stays := by
  intro w
  rw [exec_tryCatch]
  have hfirst := ha w
  generalize a.exec w = r at hfirst ⊢
  rcases r with ⟨f | x, w'⟩
  · exact (hh f w').trans hfirst
  · exact hfirst

theorem Stays.during {a : Action α} (ha : a.Stays) (activity : String) : (during activity a).Stays :=
  ha.tryCatch fun _ => (looks_throw _).stays

theorem Stays.attempt {a : Action α} (ha : a.Stays) : (attempt a).Stays := by
  intro w
  rw [exec_attempt]
  have hfirst := ha w
  generalize a.exec w = r at hfirst ⊢
  rcases r with ⟨f | x, w'⟩
  · dsimp only
    split
    · exact hfirst
    · exact hfirst
  · exact hfirst

end Action

namespace Store

variable (s : Store)

end Store

namespace Update

variable (s : Store)

end Update

/-! ## Indices that agree with their shards -/

section Healthy

variable {s : Store} {core : CoreIndex} {d d' : Disk} {w w' : Workspace}

theorem Store.Intact.congr (h : s.Intact core d)
    (hsame : ∀ id ∈ core.modules.keys, d'.read (s.shardPlace id) = d.read (s.shardPlace id)) : s.Intact core d' := by
  refine ⟨h.partition, h.recorded, fun id expected hget => ?_⟩
  obtain ⟨hmodule, bytes, hread, hdigest⟩ := h.shards id expected hget
  exact ⟨hmodule, bytes, (hsame id (Dict.contains_iff_mem.1 hmodule)).trans hread, hdigest⟩

theorem Store.Healthy.exec_readCore (hs : Path.isAbsolute s.root = true) (h : s.Healthy core w.disk) :
    s.readCore.exec w = (.ok core, w) :=
  let ⟨_, hread, hdecode⟩ := h.read
  Store.exec_readCore hs hread hdecode h.version

theorem Store.Healthy.exec_problems (hs : Path.isAbsolute s.root = true) (h : s.Healthy core w.disk) :
    (s.problems core).exec w = (.ok [], w) := by
  obtain ⟨found, hfound, hintact⟩ := Store.exec_problems hs core w
  rw [hfound, hintact.2 h.intact]

end Healthy

namespace Update

variable {s : Store} {m : Maker} {core : CoreIndex} {c : ChangeSet} {w w' : Workspace}

section Absolute

variable (hs : Path.isAbsolute s.root = true)

include hs

/-- What is committed was checked before. -/
theorem intact_of_commit {backups : Backups} {u : Unit} (hx : (commit s core backups).exec w = (.ok u, w')) :
    s.Intact core w.disk ∧ (s.writeCore core).exec w = (.ok (), w') := by
  rcases commit_cases hs hx with ⟨-, hintact, hw⟩ | ⟨f, -, hback⟩ | ⟨path, reason, w₁, -, hback⟩
  · exact ⟨hintact, hw⟩
  · cases rollBack_throw hs hback
  · cases rollBack_throw hs hback

/-- A core index that is written where it was found intact is there with its shards. -/
theorem healthy_of_writeCore (hopen : w.disk.IsOpen s.place) (hversion : core.version = CoreIndex.splitVersion)
    (hvalid : ∀ id ∈ core.modules.keys, ModuleId.isValid id = true) (hintact : s.Intact core w.disk)
    (hx : (s.writeCore core).exec w = (.ok (), w')) : s.Healthy core w'.disk := by
  obtain ⟨hread, hchanged⟩ := writeCore_ok hs hx
  exact ⟨⟨_, hread, decode?_encode CoreIndex.readsBack core⟩, hversion,
    hintact.congr fun id hid => Disk.read_congr (access_of_writeCore hs hopen hchanged (hvalid id hid))⟩

omit hs in
theorem keys_modules_core (b : Analysis) (root now : String) (modules : ModuleMap) (hashes : Dict String) (source : FileSource)
    (layout : Option Layout) (settings : Settings) :
    (b.core root now modules hashes source layout settings).modules.keys = modules.keys := by
  rw [Analysis.core, Dict.keys_map]

/-- An update that succeeds examines files, writes shards, commits a core index, and then writes the cache. -/
theorem apply_steps {o : UpdateOutcome} (hx : (apply m s.root core c).exec w = (.ok o, w')) :
    ∃ importers a found hashes backups core' w₁ w₂ w₃,
      c.modified.keys.filterMapM (m.finding? (OutlineCache.loaded w.disk s.root s.cachePlace) w s.root) = .ok found ∧
      w.Alike w₁ ∧
      (regenerateAll s a (Membership.after core c importers).modules (Membership.after core c importers).affected.keys
        core.hashes {}).exec w₁ = (.ok (hashes, backups), w₂) ∧
      core'.modules.keys = (Membership.after core c importers).modules.keys ∧ core'.version = CoreIndex.splitVersion ∧
      (commit s core' backups).exec w₂ = (.ok (), w₃) ∧
      (Maker.rememberAll (OutlineCache.loaded w.disk s.root s.cachePlace) found).saveQuietly.exec w₃ = (.ok (), w') := by
  cases course hx with
  | @done shards found fresh _ _ _ _ _ _ prepared writing committing saving =>
    have hfound := prepared.found
    rw [cacheBefore_eq hs] at hfound saving
    exact ⟨_, _, _, _, _, _, _, _, _, hfound, prepared.alike, writing, keys_modules_core _ _ _ _ _ _ _ _, rfl, committing, saving⟩

/-- Besides the documents an update that succeeds changes only the cache, which is written last. -/
theorem apply_ok (hc : core.Consistent) (hvalid : ∀ id ∈ core.modules.keys, ModuleId.isValid id = true)
    (hopen : w.disk.IsOpen s.place) {o : UpdateOutcome} (hx : (apply m s.root core c).exec w = (.ok o, w')) :
    ∃ found core' w₁ w₂,
      c.modified.keys.filterMapM (m.finding? (OutlineCache.loaded w.disk s.root s.cachePlace) w s.root) = .ok found ∧
      w.Alike w₁ ∧ Changed s.IsOutputPlace (· <+: s.shardsPlace) w₁ w₂ ∧ s.Healthy core' w₂.disk ∧
      (∀ id ∈ core'.modules.keys, ModuleId.isValid id = true) ∧
      (Maker.rememberAll (OutlineCache.loaded w.disk s.root s.cachePlace) found).saveQuietly.exec w₂ = (.ok (), w') := by
  have hknown : ∀ {id}, Membership.Known core id → ModuleId.isValid id = true := by
    rintro id (hid | hid)
    · exact hvalid id (Dict.contains_iff_mem.1 hid)
    · exact hid
  obtain ⟨importers, a, found, hashes, backups, core', w₁, w₂, w₃, hfound, halike, hregenerate, hkeys, hversion, hcommit,
    hsave⟩ := apply_steps hs hx
  have hall := Membership.allKnown_after hc c importers
  generalize Membership.after core c importers = membership at hregenerate hkeys hall
  have haffected : ∀ id ∈ membership.affected.keys, ModuleId.isValid id = true := fun id hid => hknown (hall.affected id hid)
  have hmodules : ∀ id ∈ core'.modules.keys, ModuleId.isValid id = true := fun id hid =>
    hknown (hall.modules id (hkeys ▸ hid))
  rw [← halike.disk_eq] at hopen
  obtain ⟨hredone, -⟩ := regenerateAll_ok hs _ haffected membership.affected.nodup_keys hopen hregenerate
  obtain ⟨hintact, hwrite⟩ := intact_of_commit hs hcommit
  have hshards : Changed s.IsOutputPlace (· <+: s.shardsPlace) w₁ w₂ :=
    hredone.changed.mono (fun _ => isOutputPlace_of_shardFiles haffected) fun _ h => h
  have hcore : Changed s.IsOutputPlace (· <+: s.shardsPlace) w₂ w₃ :=
    (writeCore_ok hs hwrite).2.mono (fun _ => isOutputPlace_corePlace) fun _ => False.elim
  exact ⟨found, core', w₁, w₃, hfound, halike, hshards.trans hcore,
    healthy_of_writeCore hs (hredone.changed.frame.isOpen hopen) hversion hmodules hintact hwrite, hmodules, hsave⟩

end Absolute

/-- An update that succeeds found an index that agrees with its shards.  It leaves everything as it is, or renews the
    index for files of which those that changed can be indexed. -/
theorem run_steps {root : String} {o : UpdateOutcome} (hx : (run m root).exec w = (.ok o, w')) :
    ∃ core, (w.store root).coreOn? w.disk = some core ∧ (w.store root).Healthy core w.disk ∧
      w.disk.IsOpen (w.store root).place ∧
      (w.Alike w' ∨ ∃ (c : ChangeSet) (w₁ : Workspace), w.Alike w₁ ∧
        (∀ file ∈ c.modified.keys, Listing.indexable m.settings w (w.store root).root file = true) ∧
        (apply m (w.store root).root core c).exec w₁ = (.ok o, w')) := by
  rcases run_cases hx with ⟨f, hfails, -⟩ | ⟨core, hcore, hhealthy, hopen, ⟨-, halike⟩ | happlied⟩
  · cases hfails
  · exact ⟨core, hcore, hhealthy, hopen, .inl halike⟩
  · exact ⟨core, hcore, hhealthy, hopen, .inr happlied⟩

end Update

end CodeIndex
