import CodeIndex.Proofs.Asking

set_option autoImplicit false

/-!
# One snapshot

A loader that was asked for the core index first hands out nothing but this index and its shards, whatever happens to the
files from one call to the next: a shard was once there under the digest that this core index records for it.
-/

namespace CodeIndex.Loader

/-! ## Calls -/

/-- What a loader is asked for. -/
inductive Call
  | core
  | shard (id : String)
  | shards (ids : List String)
  | allShards

/-- What a loader hands out: perhaps the core index, and shards by their modules. -/
structure Handout where
  core : Option CoreIndex
  shards : Dict Shard

def Call.make : Call → Loading Handout
  | .core => return ⟨some (← Loader.core), ∅⟩
  | .shard id => return ⟨none, Dict.insert ∅ id (← Loader.shard id)⟩
  | .shards ids => return ⟨none, ← Loader.shards ids⟩
  | .allShards => return ⟨none, ← Loader.allShards⟩

/-- A loader in use: it was asked for the core index, and then for anything any number of times.  Every call finds a
    workspace of its own, the latest is the first of the list. -/
inductive InUse (root : String) (core : CoreIndex) : List Workspace → Loader → Prop
  | first {w w' : Workspace} {l : Loader} (h : Loader.core.exec (Loader.ofRoot root) w = ((.ok core, l), w')) :
      InUse root core [w] l
  | call {seen : List Workspace} {l l' : Loader} {w w' : Workspace} {r : Except Failure Handout} (c : Call)
      (before : InUse root core seen l) (h : c.make.exec l w = ((r, l'), w')) : InUse root core (w :: seen) l'

/-- A shard of a core index: in one of the workspaces that were seen, the file of the module had the recorded digest and
    was read as this shard. -/
structure Genuine (root : String) (core : CoreIndex) (seen : List Workspace) (id : String) (shard : Shard) : Prop where
  valid : ModuleId.isValid id = true
  recorded : ∃ w ∈ seen, ∃ bytes, w.disk.read (w.here.resolve (Store.shardPath ⟨root⟩ id)) = .ok bytes ∧
    core.hashes.get? id = some (Store.digest bytes) ∧
    ((String.fromUTF8? bytes).bind Json.value?).bind Shard.ofJson? = some shard

/-- A module whose file is as recorded, and is a shard with all its fields. -/
structure Offered (root : String) (core : CoreIndex) (w : Workspace) (id : String) : Prop where
  valid : ModuleId.isValid id = true
  recorded : ∃ bytes, w.disk.read (w.here.resolve (Store.shardPath ⟨root⟩ id)) = .ok bytes ∧
    core.hashes.get? id = some (Store.digest bytes) ∧ ∃ j shard, value id bytes = .ok j ∧ Shard.ofJson? j = some shard

variable {root : String} {core : CoreIndex} {seen : List Workspace} {w : Workspace} {l : Loader} {id : String}
  {shard : Shard}

theorem Genuine.mono {more : List Workspace} (h : Genuine root core seen id shard) (hle : seen ⊆ more) :
    Genuine root core more id shard := by
  obtain ⟨w, hw, hrest⟩ := h.recorded
  exact ⟨h.valid, w, hle hw, hrest⟩

def AllGenuine (root : String) (core : CoreIndex) (seen : List Workspace) (found : Dict Shard) : Prop :=
  ∀ id shard, found.get? id = some shard → Genuine root core seen id shard

/-! ## Shards that are read -/

/-- Bytes pass the check only under the recorded digest, unless no digests are recorded at all. -/
theorem get?_hashes_of_check {bytes : ByteArray} (h : check core id bytes = .ok ()) (hhashes : core.hashes.isEmpty = false) :
    core.hashes.get? id = some (Store.digest bytes) := by
  unfold check at h
  split at h
  · next expected hget =>
    dsimp only at h
    split at h
    · next heq => rw [hget, heq]
    · cases h
  · rw [hhashes] at h
    split at h <;> cases h

theorem value_eq_ok {bytes : ByteArray} {j : Json} (h : value id bytes = .ok j) :
    (String.fromUTF8? bytes).bind Json.value? = some j := by
  unfold value at h
  split at h
  · cases h
  · next j' hj =>
    split at h
    · cases h
      exact hj
    · cases h

theorem shardOf_eq_ok {bytes : ByteArray} (h : shardOf (.ok core) id bytes = .ok shard) :
    check core id bytes = .ok () ∧ ((String.fromUTF8? bytes).bind Json.value?).bind Shard.ofJson? = some shard := by
  unfold shardOf at h
  split at h
  · cases h
  · next j hvalue =>
    split at h
    · cases h
    · next hverdict =>
      split at h
      · cases h
      · next hshard =>
        cases h
        refine ⟨?_, by rw [value_eq_ok hvalue, Option.bind_some, hshard]⟩
        unfold verdict at hverdict
        dsimp only at hverdict
        cases hcheck : check core id bytes with
        | ok u => rfl
        | error f =>
          rw [hcheck] at hverdict
          cases hverdict

theorem genuine_of_shardFrom (hvalid : ModuleId.isValid id = true) (hhashes : core.hashes.isEmpty = false) (hw : w ∈ seen)
    (h : shardFrom (.ok core) ⟨root⟩ id w = .ok shard) : Genuine root core seen id shard := by
  unfold shardFrom at h
  rw [Store.exec_shardBytes?_here] at h
  cases hread : w.disk.read (w.here.resolve (Store.shardPath ⟨root⟩ id)) with
  | error e =>
    rw [hread] at h
    cases e <;> cases h
  | ok bytes =>
    rw [hread] at h
    obtain ⟨hcheck, hshard⟩ := shardOf_eq_ok h
    exact ⟨hvalid, w, hw, bytes, hread, get?_hashes_of_check hcheck hhashes, hshard⟩

theorem Offered.shardFrom_eq (h : Offered root core w id) : ∃ shard, shardFrom (.ok core) ⟨root⟩ id w = .ok shard := by
  obtain ⟨bytes, hread, hhash, j, shard, hvalue, hshard⟩ := h.recorded
  have hbytes : ((Store.shardBytes? ⟨root⟩ id).exec w).1 = .ok (some bytes) := by
    rw [Store.exec_shardBytes?_here, hread]
  have hverdict : verdict (.ok core) id bytes = .ok () := by
    rw [verdict, check, hhash]
    dsimp only
    rw [if_pos rfl]
    rfl
  refine ⟨shard, (shardFrom_of_bytes hbytes _).trans ?_⟩
  rw [shardOf, hvalue]
  dsimp only
  rw [hverdict]
  dsimp only
  rw [hshard]

/-! ## What a loader remembers -/

/-- A loader that knows a core index keeps only shards of it. -/
structure Remembers (root : String) (core : CoreIndex) (seen : List Workspace) (l : Loader) : Prop where
  store : l.store = ⟨root⟩
  known : l.known = some core
  kept : AllGenuine root core seen l.kept

namespace Remembers

theorem mono {more : List Workspace} (h : Remembers root core seen l) (hle : seen ⊆ more) : Remembers root core more l :=
  ⟨h.store, h.known, fun id shard hget => (h.kept id shard hget).mono hle⟩

theorem coreFrom_eq (h : Remembers root core seen l) (w : Workspace) : l.coreFrom w = .ok core := by
  rw [coreFrom, h.known]

theorem informed_eq (h : Remembers root core seen l) (w : Workspace) : l.informed w = l := by
  rw [informed, h.coreFrom_eq, show (Except.ok core : Except Failure CoreIndex).toOption = l.known from h.known.symm]

theorem genuine_of_shardFor (h : Remembers root core seen l) (hhashes : core.hashes.isEmpty = false) (hw : w ∈ seen)
    (hfor : l.shardFor id w = .ok shard) : Genuine root core seen id shard := by
  cases hvalid : ModuleId.isValid id with
  | false => simp [shardFor, hvalid] at hfor
  | true =>
    cases hkept : l.kept.get? id with
    | some found =>
      rw [shardFor_of_kept hvalid hkept] at hfor
      cases hfor
      exact h.kept id shard hkept
    | none =>
      rw [shardFor_of_not_kept hvalid hkept, h.coreFrom_eq, h.store] at hfor
      exact genuine_of_shardFrom hvalid hhashes hw hfor

theorem shardFor_of_offered (h : Remembers root core seen l) (hoffered : Offered root core w id) :
    ∃ shard, l.shardFor id w = .ok shard := by
  cases hkept : l.kept.get? id with
  | some shard => exact ⟨shard, shardFor_of_kept hoffered.valid hkept w⟩
  | none =>
    rw [shardFor_of_not_kept hoffered.valid hkept, h.coreFrom_eq, h.store]
    exact hoffered.shardFrom_eq

theorem asked {l' : Loader} (h : Remembers root core seen l) (hhashes : core.hashes.isEmpty = false) (hw : w ∈ seen)
    (hasked : l.Asked id w l') : Remembers root core seen l' := by
  refine ⟨hasked.store.trans h.store, ?_, fun other shard hget => ?_⟩
  · rcases hasked.known with hknown | hknown
    · exact hknown.trans h.known
    · rw [hknown, h.coreFrom_eq]
      rfl
  · rcases hasked.get?_kept hget with hold | ⟨rfl, hfor⟩
    · exact h.kept other shard hold
    · exact h.genuine_of_shardFor hhashes hw hfor

end Remembers

/-! ## Calls of a loader that remembers -/

/-- What a call comes to: the core index is always the same, and a shard is one of it. -/
structure Call.Sound (root : String) (core : CoreIndex) (seen : List Workspace) (c : Call) (r : Except Failure Handout) :
    Prop where
  again : c = .core → r = .ok ⟨some core, ∅⟩
  core_eq : ∀ given core', r = .ok given → given.core = some core' → core' = core
  genuine : ∀ given id shard, r = .ok given → given.shards.get? id = some shard → Genuine root core seen id shard

theorem Call.sound_error {c : Call} (hc : c ≠ .core) (f : Failure) : c.Sound root core seen (.error f) :=
  ⟨fun h => absurd h hc, by rintro _ _ ⟨⟩, by rintro _ _ _ ⟨⟩⟩

theorem Call.sound_shards {c : Call} (hc : c ≠ .core) {found : Dict Shard} (h : AllGenuine root core seen found) :
    c.Sound root core seen (.ok ⟨none, found⟩) := by
  refine ⟨fun heq => absurd heq hc, ?_, ?_⟩
  · rintro given core' ⟨⟩ ⟨⟩
  · rintro given id shard ⟨⟩
    exact h id shard

section Keeps

open Loading

theorem keeps_core : Keeps (Remembers root core seen) w Loader.core (· = .ok core) := fun l h =>
  ⟨_, _, exec_core l w, (h.informed_eq w).symm ▸ h, h.coreFrom_eq w⟩

variable (hhashes : core.hashes.isEmpty = false) (hw : w ∈ seen)

include hhashes hw

theorem keeps_shard (id : String) : Keeps (Remembers root core seen) w (Loader.shard id)
    fun r => ∀ shard, r = .ok shard → Genuine root core seen id shard := by
  intro l h
  obtain ⟨l', hrun, hasked⟩ := exec_shard l id w
  exact ⟨_, l', hrun, h.asked hhashes hw hasked, fun shard hfor => h.genuine_of_shardFor hhashes hw hfor⟩

/-- Shards that cannot be loaded are left out. -/
theorem keeps_shards (ids : List String) : Keeps (Remembers root core seen) w (Loader.shards ids)
    fun r => ∃ found, r = .ok found ∧ AllGenuine root core seen found := by
  unfold Loader.shards
  refine Keeps.bind_of_ok (@keeps_filterMapM _ _ _ w _ (fun _ o => ∀ e, o = some e → Genuine root core seen e.1 e.2) ids
    fun id _ => ?_) ?_
  · refine (keeps_shard hhashes hw id).attempt.bind_of_ok fun r hgenuine => ?_
    cases r with
    | error f => exact keeps_pure ⟨none, rfl, nofun⟩
    | ok shard =>
      refine keeps_pure ⟨some (id, shard), rfl, ?_⟩
      rintro e ⟨⟩
      exact hgenuine shard rfl
  · rintro entries ⟨os, hall, rfl⟩
    refine keeps_pure ⟨_, rfl, fun id shard hget => ?_⟩
    obtain ⟨o, ho, heq⟩ := List.mem_filterMap.1 (Dict.mem_of_get?_ofList hget)
    obtain ⟨i, hi, rfl⟩ := List.getElem_of_mem ho
    exact hall.get (hall.length_eq ▸ hi) hi (id, shard) heq

theorem keeps_allShards : Keeps (Remembers root core seen) w Loader.allShards
    fun r => ∃ found, r = .ok found ∧ AllGenuine root core seen found :=
  keeps_core.bind_of_eq (keeps_shards hhashes hw core.modules.keys)

theorem keeps_make (c : Call) : Keeps (Remembers root core seen) w c.make (c.Sound root core seen) := by
  cases c with
  | core =>
    refine keeps_core.bind_of_eq (keeps_pure ⟨fun _ => rfl, ?_, ?_⟩)
    · rintro given core' ⟨⟩ ⟨⟩
      rfl
    · rintro given id shard ⟨⟩ hget
      cases hget
  | shard id =>
    refine (keeps_shard hhashes hw id).bind (fun shard hgenuine => ?_) fun f _ => Call.sound_error (by nofun) f
    refine keeps_pure (Call.sound_shards (by nofun) fun other found hget => ?_)
    rw [Dict.get?_insert] at hget
    split at hget
    · next heq =>
      cases hget
      exact heq ▸ hgenuine _ rfl
    · cases hget
  | shards ids =>
    exact (keeps_shards hhashes hw ids).bind_of_ok fun found hall => keeps_pure (Call.sound_shards (by nofun) hall)
  | allShards =>
    exact (keeps_allShards hhashes hw).bind_of_ok fun found hall => keeps_pure (Call.sound_shards (by nofun) hall)

end Keeps

/-! ## Loaders in use -/

theorem remembers_of_first {w' : Workspace} (h : Loader.core.exec (ofRoot root) w = ((.ok core, l), w')) :
    Remembers root core [w] l := by
  have hknows := h.symm.trans (exec_core (ofRoot root) w)
  simp only [Prod.mk.injEq] at hknows
  obtain ⟨⟨hcore, rfl⟩, -⟩ := hknows
  exact ⟨rfl, by rw [informed, ← hcore]; rfl, nofun⟩

theorem InUse.remembers (h : InUse root core seen l) (hhashes : core.hashes.isEmpty = false) :
    Remembers root core seen l := by
  induction h with
  | first h => exact remembers_of_first h
  | call c before h ih =>
    -- what was genuine before is genuine when one more workspace was seen
    obtain ⟨r, l', hrun, hl', -⟩ := keeps_make hhashes List.mem_cons_self c _ (ih.mono (List.subset_cons_self _ _))
    obtain ⟨⟨rfl, rfl⟩, rfl⟩ := h.symm.trans hrun
    exact hl'

/-- However a loader was used since it was asked for a core index with digests, and whatever the files have become: it hands
    out this core index again, and no shard but what was once there, in the file of a module with a valid name, under the
    digest that the core index records.  Nor does it refuse a module whose file is as recorded.  The calls for several
    shards are calls for one after the other. -/
theorem hands_out_one_snapshot (h : InUse root core seen l) (hhashes : core.hashes.isEmpty = false) (c : Call)
    (w : Workspace) : ∃ r l', c.make.exec l w = ((r, l'), w) ∧ c.Sound root core (w :: seen) r ∧
      ∀ id, c = .shard id → Offered root core w id → ∃ shard, r = .ok ⟨none, Dict.insert ∅ id shard⟩ := by
  have hremembers := (h.remembers hhashes).mono (List.subset_cons_self w seen)
  obtain ⟨r, l', hrun, -, hsound⟩ := keeps_make hhashes List.mem_cons_self c l hremembers
  refine ⟨r, l', hrun, hsound, ?_⟩
  rintro id rfl hoffered
  obtain ⟨shard, hfor⟩ := hremembers.shardFor_of_offered hoffered
  obtain ⟨l₁, hshard, -⟩ := exec_shard l id w
  rw [hfor] at hshard
  exact ⟨shard, congrArg (fun x => x.1.1) (hrun.symm.trans (Loading.exec_bind_of_ok hshard))⟩

/-- A loader that was asked for the core index and for a module of a project hands the module out once more when all files
    are gone. -/
theorem hands_out_one_snapshot_erased : ∃ core id shard w l,
    InUse "." core [w, w] l ∧ core.hashes.isEmpty = false ∧
    (∃ l', (Call.shard id).make.exec l { w with disk := .empty } =
      ((.ok ⟨none, Dict.insert ∅ id shard⟩, l'), { w with disk := .empty })) ∧
    Genuine "." core [{ w with disk := .empty }, w, w] id shard := by
  obtain ⟨core, n, w, a, -, -, hstanding, hleads, hfiles, -⟩ := tracked_documented
  have hholding := hstanding.toHolding
  obtain ⟨id, files, hget, -⟩ := Update.mem_allFiles.1 (show "README.md" ∈ core.allFiles by simp [hfiles])
  have hfirst := exec_core_of_holding hleads hholding (.inl rfl) ∅
  have hhashes : core.hashes.isEmpty = false := by
    rw [Bool.eq_false_iff, Ne, Dict.isEmpty_iff, hholding.hashes]
    intro hnone
    have hid := hnone id
    rw [Analysis.get?_hashes, Analysis.bytesOf?, hget] at hid
    cases hid
  obtain ⟨l₁, hshard⟩ := exec_shard_of_holding hleads hholding (.inr rfl) hget
  obtain ⟨l, hrun, hasked⟩ := exec_shard ⟨⟨"."⟩, some core, ∅⟩ id w
  have hfor : shardFor ⟨⟨"."⟩, some core, ∅⟩ id w = .ok (a.shard id files) :=
    congrArg (fun x => x.1.1) (hrun.symm.trans hshard)
  have hkept : l.kept.get? id = some (a.shard id files) := by
    rw [hasked.kept, hfor]
    exact (Dict.get?_insert _ _ _ _).trans (if_pos rfl)
  rw [hfor] at hrun
  have hinUse : InUse "." core [w, w] l := .call (.shard id) (.first hfirst) (Loading.exec_bind_of_ok hrun)
  obtain ⟨r, l', hmake, hsound, -⟩ := hands_out_one_snapshot hinUse hhashes (.shard id) { w with disk := .empty }
  obtain ⟨l₂, hagain, -⟩ := exec_shard l id { w with disk := .empty }
  rw [shardFor_of_kept (hholding.isValid (Dict.mem_keys.2 ⟨files, hget⟩)) hkept] at hagain
  have hok : r = .ok ⟨none, Dict.insert ∅ id (a.shard id files)⟩ :=
    congrArg (fun x => x.1.1) (hmake.symm.trans (Loading.exec_bind_of_ok hagain))
  refine ⟨core, id, a.shard id files, w, l, hinUse, hhashes, ⟨l', hok ▸ hmake⟩, hsound.genuine _ id _ hok ?_⟩
  exact (Dict.get?_insert _ _ _ _).trans (if_pos rfl)

end CodeIndex.Loader
