import CodeIndex.Proofs.Dict
import CodeIndex.Proofs.Store
import Mathlib.Tactic.Choose

set_option autoImplicit false

/-!
# Shards and the core index on the disk

What reading, writing, removing and checking the documents of an index comes to, in terms of what the disk holds at
their places.
-/

namespace CodeIndex.Store

open Action

variable {s : Store} {w w' : Workspace} {id : String}

/-! ## Looking -/

theorem looks_contents (path : String) : (contents path).Looks := (looks_locate path).bind fun _ => looks_look _

theorem looks_isPresent (path : String) : (isPresent path).Looks := (looks_locate path).bind fun _ => looks_look _

theorem looks_decode {α : Type} [Document α] (what : String) (bytes : ByteArray) :
    (decode what bytes : Action α).Looks := by
  unfold decode
  split
  · exact looks_pure _
  · exact looks_failWith _

theorem looks_readDocument {α : Type} [Document α] (path what : String) : (readDocument path what : Action α).Looks :=
  (looks_contents path).bind fun _ => (looks_orStorage _ _).bind fun _ => looks_decode _ _

theorem looks_readCore (s : Store) : s.readCore.Looks := by
  refine (looks_isPresent _).bind fun present => ?_
  split
  · exact looks_failWith _
  · refine (looks_readDocument _ _).bind fun core => ?_
    split
    · exact looks_pure _
    · exact looks_failWith _

theorem looks_readShard (s : Store) (id : String) : (s.readShard id).Looks := by
  refine (looks_isPresent _).bind fun present => ?_
  split
  · exact looks_readDocument _ _
  · exact looks_failWith _

theorem looks_version? (s : Store) : s.version?.Looks := by
  refine (looks_contents _).bind fun found => ?_
  split <;> exact looks_pure _

theorem looks_isSplit (s : Store) : s.isSplit.Looks := (looks_version? s).bind fun _ => looks_pure _

theorem exec_readDocument {α : Type} [Document α] (path what : String) {bytes : ByteArray} {a : α}
    (h : w.disk.read (w.here.resolve path) = .ok bytes) (ha : decode? bytes = some a) :
    (readDocument path what : Action α).exec w = (.ok a, w) := by
  unfold readDocument
  rw [exec_bind_of_ok (exec_contents path w), h, exec_bind_of_ok (exec_orStorage_ok _ _ _), decode, ha]
  rfl

theorem readDocument_ok {α : Type} [Document α] {path what : String} {a : α}
    (h : (readDocument path what : Action α).exec w = (.ok a, w')) :
    ∃ bytes, w.disk.read (w.here.resolve path) = .ok bytes ∧ decode? bytes = some a := by
  unfold readDocument at h
  rw [exec_bind_of_ok (exec_contents path w)] at h
  cases hr : w.disk.read (w.here.resolve path) with
  | error e => rw [hr] at h; cases h
  | ok bytes =>
    rw [hr, exec_bind_of_ok (exec_orStorage_ok _ _ _)] at h
    refine ⟨bytes, rfl, ?_⟩
    unfold decode at h
    cases hd : (decode? bytes : Option α) with
    | none => rw [hd] at h; cases h
    | some found => rw [hd] at h; cases h; rfl

/-! ## Checking, wherever the store is -/

theorem exec_shardBytes?_here (s : Store) (id : String) (w : Workspace) :
    (s.shardBytes? id).exec w = (match w.disk.read (w.here.resolve (s.shardPath id)) with
      | .ok bytes => .ok (some bytes)
      | .error .absent => .ok none
      | .error e => .error (Failure.ofFault (.storage (s.shardPath id) e.reason)), w) := by
  unfold shardBytes?
  rw [exec_bind_of_ok (exec_contents _ _)]
  cases w.disk.read (w.here.resolve (s.shardPath id)) with
  | ok bytes => rfl
  | error e => cases e <;> rfl

theorem exec_shardProblem? (s : Store) (core : CoreIndex) (id expected : String) (w : Workspace) :
    ∃ p, (s.shardProblem? core id expected).exec w = (.ok p, w) ∧ (p = none ↔ core.modules.contains id = true ∧
      ∃ bytes, w.disk.read (w.here.resolve (s.shardPath id)) = .ok bytes ∧ digest bytes = expected) := by
  unfold shardProblem?
  cases hc : core.modules.contains id with
  | false => exact ⟨_, rfl, by simp⟩
  | true =>
    have hattempt : (attempt (s.shardBytes? id)).exec w = (.ok ((s.shardBytes? id).exec w).1, w) := by
      rw [exec_attempt, exec_shardBytes?_here]
      cases w.disk.read (w.here.resolve (s.shardPath id)) with
      | ok bytes => rfl
      | error e => cases e <;> rfl
    rw [exec_shardBytes?_here] at hattempt
    cases hr : w.disk.read (w.here.resolve (s.shardPath id)) with
    | error e =>
      rw [hr] at hattempt
      cases e <;> exact ⟨_, exec_bind_of_ok hattempt, by simp⟩
    | ok bytes =>
      rw [hr] at hattempt
      refine ⟨if digest bytes = expected then none else some _, exec_bind_of_ok hattempt, ?_⟩
      by_cases he : digest bytes = expected
      · simp [he]
      · simp [he]

/-- The check finds nothing where the modules divide the files and the shards are those that were recorded, and only
    there.  It changes nothing. -/
theorem exec_problems_here (s : Store) (core : CoreIndex) (w : Workspace) :
    ∃ found, (s.problems core).exec w = (.ok found, w) ∧ (found = [] ↔ core.partitionProblems = [] ∧
      (core.hashes.isEmpty = true ∨ ∀ id ∈ core.modules.keys, core.hashes.contains id = true) ∧
      ∀ id expected, core.hashes.get? id = some expected → core.modules.contains id = true ∧
        ∃ bytes, w.disk.read (w.here.resolve (s.shardPath id)) = .ok bytes ∧ digest bytes = expected) := by
  choose p hp hnone using fun e : String × String => exec_shardProblem? s core e.1 e.2 w
  have hmap : (core.hashes.toList.mapM fun e => s.shardProblem? core e.1 e.2).exec w =
      (.ok (core.hashes.toList.map p), w) := by
    rw [exec_mapM (r := fun e => .ok (p e)) fun e _ => hp e]
    exact congrArg (fun r => (r, w)) List.mapM_pure
  refine ⟨_, exec_bind_of_ok hmap, ?_⟩
  rw [List.append_eq_nil_iff, List.append_eq_nil_iff, List.filterMap_eq_nil_iff]
  have hrecorded : (if core.hashes.isEmpty then [] else
      (core.modules.keys.filter fun id => !core.hashes.contains id).map fun id =>
        "module '" ++ id ++ "' has no recorded hash") = [] ↔
      core.hashes.isEmpty = true ∨ ∀ id ∈ core.modules.keys, core.hashes.contains id = true := by
    split
    · next he => simp [he]
    · next he => simp [he, List.filter_eq_nil_iff]
  have hshards : (∀ o ∈ core.hashes.toList.map p, o = none) ↔ ∀ id expected, core.hashes.get? id = some expected →
      core.modules.contains id = true ∧ ∃ bytes, w.disk.read (w.here.resolve (s.shardPath id)) = .ok bytes ∧ digest bytes = expected := by
    simp only [List.forall_mem_map, Prod.forall, Dict.mem_toList]
    exact forall_congr' fun id => forall_congr' fun expected => imp_congr_right fun _ => hnone (id, expected)
  rw [hrecorded, hshards, and_assoc]

section Absolute

variable (hs : Path.isAbsolute s.root = true)

include hs

theorem exec_readCore {bytes : ByteArray} {core : CoreIndex} (h : w.disk.read s.corePlace = .ok bytes)
    (hd : decode? bytes = some core) (hv : core.version = CoreIndex.splitVersion) :
    s.readCore.exec w = (.ok core, w) := by
  obtain ⟨time, ha⟩ := Disk.access_of_read h
  have hpresent : (isPresent s.corePath).exec w = (.ok true, w) := by
    rw [exec_isPresent, resolve_corePath hs, Disk.holds_of_access ha]
  have hdocument : (readDocument s.corePath coreFile).exec w = (.ok core, w) :=
    exec_readDocument _ _ (by rw [resolve_corePath hs, h]) hd
  unfold readCore
  rw [exec_bind_of_ok hpresent]
  change (readDocument s.corePath coreFile >>= fun core : CoreIndex => _ : Action CoreIndex).exec w = _
  rw [exec_bind_of_ok hdocument, if_pos hv]
  rfl

theorem readCore_ok {core : CoreIndex} (h : s.readCore.exec w = (.ok core, w')) :
    (∃ bytes, w.disk.read s.corePlace = .ok bytes ∧ decode? bytes = some core) ∧
      core.version = CoreIndex.splitVersion := by
  unfold readCore at h
  rw [exec_bind_of_ok (exec_isPresent _ _)] at h
  split at h
  · cases h
  · rw [exec_bind] at h
    rcases hr : (readDocument s.corePath coreFile : Action CoreIndex).exec w with ⟨e | found, w₁⟩
    · rw [hr] at h
      cases h
    · rw [hr] at h
      have hread := readDocument_ok hr
      rw [resolve_corePath hs] at hread
      dsimp only at h
      split at h
      · next hv =>
        cases h
        exact ⟨hread, hv⟩
      · cases h

theorem exec_readShard {bytes : ByteArray} {shard : Shard} (h : w.disk.read (s.shardPlace id) = .ok bytes)
    (hd : decode? bytes = some shard) : (s.readShard id).exec w = (.ok shard, w) := by
  obtain ⟨time, ha⟩ := Disk.access_of_read h
  have hpresent : (isPresent (s.shardPath id)).exec w = (.ok true, w) := by
    rw [exec_isPresent, resolve_shardPath hs, Disk.holds_of_access ha]
  unfold readShard
  rw [exec_bind_of_ok hpresent]
  exact exec_readDocument _ _ (by rw [resolve_shardPath hs, h]) hd

theorem readShard_ok {shard : Shard} (h : (s.readShard id).exec w = (.ok shard, w')) :
    ∃ bytes, w.disk.read (s.shardPlace id) = .ok bytes ∧ decode? bytes = some shard := by
  unfold readShard at h
  rw [exec_bind_of_ok (exec_isPresent _ _)] at h
  split at h
  · have hread := readDocument_ok h
    rwa [resolve_shardPath hs] at hread
  · cases h

theorem exec_shardBytes? (id : String) (w : Workspace) :
    (s.shardBytes? id).exec w = (match w.disk.read (s.shardPlace id) with
      | .ok bytes => .ok (some bytes)
      | .error .absent => .ok none
      | .error e => .error (Failure.ofFault (.storage (s.shardPath id) e.reason)), w) := by
  rw [exec_shardBytes?_here, resolve_shardPath hs]

/-! ## Writing -/

theorem writeShard_ok {shard : Shard} {hash : String} (h : (s.writeShard shard).exec w = (.ok hash, w')) :
    hash = digest (encode shard) ∧ (∃ time, w'.disk.access (s.shardPlace shard.moduleId) = .ok (.file (encode shard) time)) ∧
      Changed (fun l => l = s.shardPlace shard.moduleId ∨ l = (s.shardPlace shard.moduleId).aside) (· <+: s.shardsPlace) w w' := by
  obtain ⟨directory, name, hb⟩ := beside_shardPath hs w.here shard.moduleId
  have hplace : s.shardPlace shard.moduleId = directory ++ [name ++ ".json"] :=
    (resolve_shardPath hs w.here shard.moduleId).symm.trans hb.place
  unfold writeShard at h
  rw [exec_bind_of_ok (exec_locate _ _), resolve_shardDirectory hs, exec_bind_of_ok (exec_tryChange _ _)] at h
  rcases hm : (Disk.makeDirectories s.shardsPlace).run w.disk with ⟨e | _, d⟩
  · rw [hm] at h
    cases h
  · rw [hm, exec_bind_of_ok (exec_orStorage_ok _ _ _), exec_bind] at h
    obtain ⟨-, hframe, hlater⟩ := Disk.makeDirectories_ok hm
    rcases hr : (replaceFile (s.shardPath shard.moduleId) (encode shard)).exec { w with disk := d } with ⟨f | _, w₁⟩
    · rw [hr] at h
      cases h
    · rw [hr] at h
      cases h
      obtain ⟨htime, -, hchanged⟩ := replaceFile_ok (w := { w with disk := d }) hb hr
      rw [hplace, Location.aside_concat]
      have hmade : Changed (fun _ => False) (· <+: s.shardsPlace) w { w with disk := d } := ⟨rfl, hframe, hlater⟩
      exact ⟨rfl, htime, (hmade.mono (fun _ => False.elim) fun _ => id).trans (hchanged.mono (fun _ => id) fun _ => False.elim)⟩

theorem writeShard_error {shard : Shard} {f : Failure} (h : (s.writeShard shard).exec w = (.error f, w')) :
    Changed (· = (s.shardPlace shard.moduleId).aside) (· <+: s.shardsPlace) w w' ∧
      ∃ path reason, f = Failure.ofFault (.storage path reason) := by
  obtain ⟨directory, name, hb⟩ := beside_shardPath hs w.here shard.moduleId
  have hplace : s.shardPlace shard.moduleId = directory ++ [name ++ ".json"] :=
    (resolve_shardPath hs w.here shard.moduleId).symm.trans hb.place
  unfold writeShard at h
  rw [exec_bind_of_ok (exec_locate _ _), resolve_shardDirectory hs, exec_bind_of_ok (exec_tryChange _ _)] at h
  rcases hm : (Disk.makeDirectories s.shardsPlace).run w.disk with ⟨e | _, d⟩
  · rw [hm] at h
    cases h
    rw [Disk.makeDirectories_error hm]
    exact ⟨changed_counted _ _ w, _, _, rfl⟩
  · rw [hm, exec_bind_of_ok (exec_orStorage_ok _ _ _), exec_bind] at h
    obtain ⟨-, hframe, hlater⟩ := Disk.makeDirectories_ok hm
    rcases hr : (replaceFile (s.shardPath shard.moduleId) (encode shard)).exec { w with disk := d } with ⟨f | _, w₁⟩
    · rw [hr] at h
      cases h
      have hchanged := replaceFile_error (w := { w with disk := d }) hb hr
      rw [hplace, Location.aside_concat]
      have hmade : Changed (fun _ => False) (· <+: s.shardsPlace) w { w with disk := d } := ⟨rfl, hframe, hlater⟩
      exact ⟨(hmade.mono (fun _ => False.elim) fun _ => id).trans (hchanged.mono (fun _ => id) fun _ => False.elim),
        replaceFile_fault hr⟩
    · rw [hr] at h
      cases h

theorem removeShard_ok {u : Unit} (h : (s.removeShard id).exec w = (.ok u, w')) :
    w'.disk.access (s.shardPlace id) = .error .absent ∧ Changed (· = s.shardPlace id) (fun _ => False) w w' := by
  unfold removeShard at h
  rw [exec_bind_of_ok (exec_locate _ _), resolve_shardPath hs, exec_bind_of_ok (exec_tryChange _ _)] at h
  rcases hr : (Disk.removeFile (s.shardPlace id)).run w.disk with ⟨e | _, d⟩
  · rw [hr] at h
    obtain ⟨rfl, habsent⟩ := Disk.removeFile_error hr
    cases e with
    | absent =>
      cases h
      exact ⟨habsent rfl, changed_counted _ _ w⟩
    | notDirectory => cases h
    | isDirectory => cases h
    | notEmpty => cases h
    | refused => cases h
  · rw [hr] at h
    cases h
    obtain ⟨-, habsent, hframe, hlater⟩ := Disk.removeFile_ok hr
    exact ⟨habsent, rfl, hframe, hlater⟩

theorem removeShard_error {f : Failure} (h : (s.removeShard id).exec w = (.error f, w')) :
    Changed (fun _ => False) (fun _ => False) w w' ∧ ∃ path reason, f = Failure.ofFault (.storage path reason) := by
  unfold removeShard at h
  rw [exec_bind_of_ok (exec_locate _ _), resolve_shardPath hs, exec_bind_of_ok (exec_tryChange _ _)] at h
  rcases hr : (Disk.removeFile (s.shardPlace id)).run w.disk with ⟨e | _, d⟩
  · rw [hr] at h
    obtain ⟨rfl, -⟩ := Disk.removeFile_error hr
    cases e with
    | absent => cases h
    | notDirectory => cases h; exact ⟨changed_counted _ _ w, _, _, rfl⟩
    | isDirectory => cases h; exact ⟨changed_counted _ _ w, _, _, rfl⟩
    | notEmpty => cases h; exact ⟨changed_counted _ _ w, _, _, rfl⟩
    | refused => cases h; exact ⟨changed_counted _ _ w, _, _, rfl⟩
  · rw [hr] at h
    cases h

/-! ## Checking -/

/-- The index is as its core says: the modules divide the files, and the shards are those that were recorded. -/
structure Intact (s : Store) (core : CoreIndex) (d : Disk) : Prop where
  partition : core.partitionProblems = []
  recorded : core.hashes.isEmpty = true ∨ ∀ id ∈ core.modules.keys, core.hashes.contains id = true
  shards : ∀ id expected, core.hashes.get? id = some expected → core.modules.contains id = true ∧
    ∃ bytes, d.read (s.shardPlace id) = .ok bytes ∧ digest bytes = expected

/-- The check finds nothing exactly where the index is intact, and changes nothing. -/
theorem exec_problems (core : CoreIndex) (w : Workspace) :
    ∃ found, (s.problems core).exec w = (.ok found, w) ∧ (found = [] ↔ s.Intact core w.disk) := by
  obtain ⟨found, hfound, hnone⟩ := exec_problems_here s core w
  refine ⟨found, hfound, hnone.trans ?_⟩
  simp only [resolve_shardPath hs]
  exact ⟨fun h => ⟨h.1, h.2.1, h.2.2⟩, fun h => ⟨h.partition, h.recorded, h.shards⟩⟩

end Absolute

end CodeIndex.Store
