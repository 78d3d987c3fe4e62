import CodeIndex.Proofs.Building

set_option autoImplicit false

/-!
# What writing can fail of

The half of a build that writes fails only because the disk did not do what it was to do.
-/

namespace CodeIndex

open Action Store

namespace Action

variable {α β : Type}

/-- The action can only fail because of the disk. -/
def OnlyStorage (a : Action α) : Prop := ∀ (w w' : Workspace) (f : Failure), a.exec w = (.error f, w') → f.IsStorage

theorem onlyStorage_of_exec {a : Action α} (h : ∀ w, ∃ x w', a.exec w = (.ok x, w')) : a.OnlyStorage := by
  intro w w' f hx
  obtain ⟨x, w'', hok⟩ := h w
  cases hok.symm.trans hx

theorem onlyStorage_pure (x : α) : (pure x : Action α).OnlyStorage := onlyStorage_of_exec fun w => ⟨x, w, rfl⟩

theorem onlyStorage_orStorage (path : String) (r : Except DiskError α) : (orStorage path r).OnlyStorage := by
  intro w w' f hx
  cases r with
  | ok x => cases hx
  | error e =>
    cases hx
    exact ⟨path, e.reason, rfl⟩

theorem OnlyStorage.bind {a : Action α} {k : α → Action β} (ha : a.OnlyStorage) (hk : ∀ x, (k x).OnlyStorage) :
    (a >>= k).OnlyStorage := by
  intro w w' f hx
  rw [exec_bind] at hx
  split at hx
  · exact hk _ _ _ _ hx
  · next heq =>
    cases hx
    exact ha _ _ _ heq

theorem OnlyStorage.during {a : Action α} (ha : a.OnlyStorage) (activity : String) : (during activity a).OnlyStorage := by
  intro w w' f hx
  rw [exec_during] at hx
  split at hx
  · cases hx
  · next heq =>
    cases hx
    obtain ⟨path, reason, hcause⟩ := ha _ _ _ heq
    exact ⟨path, reason, hcause⟩

theorem onlyStorage_mapM {f : α → Action β} (h : ∀ x, (f x).OnlyStorage) (xs : List α) : (xs.mapM f).OnlyStorage := by
  induction xs with
  | nil => exact onlyStorage_pure _
  | cons x xs ih =>
    rw [List.mapM_cons]
    exact (h x).bind fun y => ih.bind fun ys => onlyStorage_pure _

theorem onlyStorage_forM {f : α → Action PUnit} (h : ∀ x, (f x).OnlyStorage) (xs : List α) : (xs.forM f).OnlyStorage := by
  induction xs with
  | nil => exact onlyStorage_pure _
  | cons x xs ih => exact (h x).bind fun _ => ih

theorem onlyStorage_locate (path : String) : (locate path).OnlyStorage := onlyStorage_of_exec fun w => ⟨_, w, rfl⟩

theorem onlyStorage_look (f : Disk → α) : (look f).OnlyStorage := onlyStorage_of_exec fun w => ⟨_, w, rfl⟩

theorem onlyStorage_tryChange (c : Disk.Change α) : (tryChange c).OnlyStorage :=
  onlyStorage_of_exec fun w => ⟨_, _, exec_tryChange c w⟩

end Action

namespace Store

theorem onlyStorage_replaceFile (path : String) (bytes : ByteArray) : (replaceFile path bytes).OnlyStorage := by
  intro w w' f hx
  obtain ⟨p, reason, rfl⟩ := replaceFile_fault hx
  exact ⟨p, reason, rfl⟩

theorem onlyStorage_writeShard (s : Store) (shard : Shard) : (s.writeShard shard).OnlyStorage :=
  (onlyStorage_locate _).bind fun _ => (onlyStorage_tryChange _).bind fun _ => (onlyStorage_orStorage _ _).bind fun _ =>
    (onlyStorage_replaceFile _ _).bind fun _ => onlyStorage_pure _

theorem onlyStorage_clearShards (s : Store) (keep : List String) : (s.clearShards keep).OnlyStorage := by
  refine (onlyStorage_locate _).bind fun directory => (onlyStorage_look _).bind fun found => ?_
  split
  · exact onlyStorage_pure _
  · exact onlyStorage_orStorage _ _
  · refine (onlyStorage_forM (fun file => ?_) _).bind fun _ => onlyStorage_pure _
    exact (onlyStorage_tryChange _).bind fun _ => onlyStorage_orStorage _ _

theorem onlyStorage_writeCore (s : Store) (core : CoreIndex) : (s.writeCore core).OnlyStorage :=
  onlyStorage_replaceFile _ _

end Store

theorem OutlineCache.onlyStorage_saveQuietly (c : OutlineCache) : c.saveQuietly.OnlyStorage :=
  onlyStorage_of_exec fun w => let ⟨w', h⟩ := c.exec_saveQuietly w; ⟨(), w', h⟩

namespace Maker

variable {m : Maker} {w w' : Workspace} {f : Failure}

theorem onlyStorage_writeShards (s : Store) (modules : ModuleMap) (a : Analysis) : (writeShards s modules a).OnlyStorage :=
  (onlyStorage_mapM (fun _ => ((onlyStorage_writeShard _ _).during _).bind fun _ => onlyStorage_pure _) _).bind fun _ =>
    onlyStorage_pure _

theorem onlyStorage_writeDocuments (m : Maker) (s : Store) (files : List String) (a : Analysis)
    (make : String → Dict String → CoreIndex) : (m.writeDocuments s files a make).OnlyStorage := by
  have hcommit : ∀ hashes : Dict String, (do
      let hashes ← pure hashes
      let core := make (← get).now hashes
      during "Failed to write core index" (s.writeCore core)
      return core : Action CoreIndex).OnlyStorage := fun hashes =>
    (onlyStorage_pure hashes).bind fun _ => (onlyStorage_of_exec fun w => ⟨w, w, rfl⟩).bind fun _ =>
      ((onlyStorage_writeCore _ _).during _).bind fun _ => onlyStorage_pure _
  unfold writeDocuments
  split
  · exact ((onlyStorage_clearShards _ _).during _).bind fun _ => hcommit {}
  · exact (onlyStorage_writeShards _ _ _).bind fun hashes => ((onlyStorage_clearShards _ _).during _).bind fun _ =>
      hcommit hashes

/-- A build fails before it writes anything, or because of the disk. -/
theorem build_error {root : String} (h : (m.build root).exec w = (.error f, w')) :
    (resolveRoot root).exec w = (.error f, w') ∨
      (∃ resolved, (resolveRoot root).exec w = (.ok resolved, w) ∧ (m.survey resolved).exec w = (.error f, w')) ∨
      f.IsStorage := by
  rw [build_eq, exec_bind] at h
  rcases hroot : (resolveRoot root).exec w with ⟨e | resolved, w₁⟩
  · rw [hroot] at h
    cases h
    exact .inl rfl
  obtain ⟨-, -, rfl⟩ := resolveRoot_ok hroot
  rw [hroot] at h
  dsimp only at h
  rw [exec_bind] at h
  rcases hsurvey : (m.survey resolved).exec w₁ with ⟨e | ⟨files, source, a, cache⟩, w₂⟩
  · rw [hsurvey] at h
    cases h
    exact .inr (.inl ⟨resolved, rfl, hsurvey⟩)
  rw [hsurvey] at h
  exact .inr (.inr (((onlyStorage_writeDocuments _ _ _ _ _).bind fun core =>
    cache.onlyStorage_saveQuietly.bind fun _ => onlyStorage_pure (core, a.skipped)) _ _ _ h))

end Maker

end CodeIndex
