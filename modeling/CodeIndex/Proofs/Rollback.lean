import CodeIndex.Proofs.Looking
import CodeIndex.Proofs.Membership

set_option autoImplicit false

/-!
# What a failed update leaves behind

Before a shard is written its bytes are noted, and after a failure they are put back.  This restores everything as
long as no shard was written before the bytes of another one at the same place were noted: ids that come from an
index are not checked, and two of them can lead to one place.
-/

namespace CodeIndex

namespace Location

/-- The last character of a location's last name. -/
def lastChar? (l : Location) : Option Char := (l.getLastD "").toList.getLast?

theorem lastChar?_concat (l : Location) (name tail : String) (ht : tail.toList ≠ []) :
    lastChar? (l ++ [name ++ tail]) = tail.toList.getLast? := by
  rw [lastChar?, List.getLastD_concat, String.toList_append, List.getLast?_append_of_ne_nil _ ht]

end Location

namespace Store

open Action

variable {s : Store}

theorem exists_shardPlace (hs : Path.isAbsolute s.root = true) (id : String) :
    ∃ directory name, s.shardPlace id = directory ++ [name ++ ".json"] := by
  obtain ⟨directory, name, hb⟩ := beside_shardPath hs [] id
  exact ⟨directory, name, (resolve_shardPath hs [] id).symm.trans hb.place⟩

theorem lastChar?_shardPlace (hs : Path.isAbsolute s.root = true) (id : String) :
    (s.shardPlace id).lastChar? = some 'n' := by
  obtain ⟨directory, name, h⟩ := exists_shardPlace hs id
  rw [h, Location.lastChar?_concat _ _ _ (by decide)]
  decide

theorem lastChar?_shardsPlace (s : Store) : s.shardsPlace.lastChar? = some 'd' := by
  have h := Location.lastChar?_concat s.place "" Shard.directory (by decide)
  rw [String.empty_append] at h
  exact h.trans (by decide)

theorem lastChar?_corePlace (s : Store) : s.corePlace.lastChar? = some 'n' := by
  have h := Location.lastChar?_concat s.place "" coreFile (by decide)
  rw [String.empty_append] at h
  exact h.trans (by decide)

theorem not_shardsPlace_le_corePlace : ¬ s.shardsPlace <+: s.corePlace := by
  rw [corePlace, shardsPlace, List.prefix_append_right_inj]
  rintro ⟨rest, hrest⟩
  exact absurd (List.cons.inj hrest).1 (by decide)

theorem ne_of_lastChar? {l l' : Location} {c c' : Char} (h : l.lastChar? = some c) (h' : l'.lastChar? = some c')
    (hne : c ≠ c') : l ≠ l' := by
  rintro rfl
  rw [h] at h'
  cases h'
  exact hne rfl

end Store

namespace Update

open Action Store

/-! ## Places that writes elsewhere leave alone -/

/-- The directories above a place are there, except perhaps the one for shards, which is not below the place. -/
structure Sheltered (s : Store) (d : Disk) (l : Location) : Prop where
  below : ∀ p, p <+: l → p ≠ l → d.IsOpen p ∨ p = s.shardsPlace
  apart : ¬ l <+: s.shardsPlace

/-- A file in which another one is prepared. -/
def IsAside (l : Location) : Prop := ∃ directory name, l = directory ++ [name ++ ".tmp"]

/-- Where something happens while the shards of some modules are written. -/
def WrittenFor (s : Store) (ids : List String) (l : Location) : Prop := (∃ id ∈ ids, l = s.shardPlace id) ∨ IsAside l

theorem WrittenFor.mono {s : Store} {ids ids' : List String} (h : ids ⊆ ids') {l : Location} :
    WrittenFor s ids l → WrittenFor s ids' l :=
  Or.imp_left fun ⟨id, hid, hl⟩ => ⟨id, h hid, hl⟩

/-- The shards of some modules and the files in which they are prepared. -/
def ShardFiles (s : Store) (ids : List String) (l : Location) : Prop :=
  ∃ id ∈ ids, l = s.shardPlace id ∨ l = (s.shardPlace id).aside

theorem ShardFiles.mono {s : Store} {ids ids' : List String} (h : ids ⊆ ids') {l : Location} :
    ShardFiles s ids l → ShardFiles s ids' l :=
  fun ⟨id, hid, hl⟩ => ⟨id, h hid, hl⟩

theorem isAside_aside (l : Location) : IsAside l.aside := ⟨_, _, rfl⟩

theorem ShardFiles.writtenFor {s : Store} {ids : List String} {l : Location} (h : ShardFiles s ids l) : WrittenFor s ids l := by
  obtain ⟨id, hid, rfl | rfl⟩ := h
  · exact .inl ⟨id, hid, rfl⟩
  · exact .inr (isAside_aside _)

theorem IsAside.lastChar? {l : Location} (h : IsAside l) : l.lastChar? = some 'p' := by
  obtain ⟨directory, name, rfl⟩ := h
  rw [Location.lastChar?_concat _ _ _ (by decide)]
  decide

variable {s : Store} {d d' : Disk} {l : Location} {written made : Location → Prop}

theorem Sheltered.mono (h : Sheltered s d l) (hf : Disk.Frame written made d d') : Sheltered s d' l :=
  ⟨fun p hp hne => (h.below p hp hne).imp_left hf.isOpen, h.apart⟩

theorem Sheltered.access_of_frame (h : Sheltered s d l) (hf : Disk.Frame written made d d') (hw : ¬ written l)
    (hsh : ¬ written s.shardsPlace) (hm : ¬ made l) : d'.access l = d.access l := by
  refine hf.access_eq (fun t ht hp => ?_) hm
  have hne : t ≠ l := by
    rintro rfl
    exact hw ht
  refine ⟨hne, (h.below t hp hne).resolve_right ?_⟩
  rintro rfl
  exact hsh ht

theorem Sheltered.access_eq (h : Sheltered s d l) (hf : Disk.Frame written (· <+: s.shardsPlace) d d')
    (hw : ¬ written l) (hsh : ¬ written s.shardsPlace) : d'.access l = d.access l :=
  h.access_of_frame hf hw hsh h.apart

theorem sheltered_of_read (hd : d.IsOpen s.place) {bytes : ByteArray} (h : d.read l = .ok bytes)
    (hne : l ≠ s.shardsPlace) : Sheltered s d l := by
  obtain ⟨time, ha⟩ := Disk.access_of_read h
  refine ⟨fun p hp hpl => .inl (Disk.isOpen_above ha hp hpl), fun hp => ?_⟩
  rcases List.prefix_concat_iff.1 hp with heq | hp
  · exact hne heq
  · have hopen : d.IsOpen l := by
      by_cases heq : l = s.place
      · rw [heq]
        exact hd
      · exact Disk.isOpen_above hd hp heq
    rw [Disk.IsOpen, ha] at hopen
    cases hopen

theorem sheltered_of_isValid (hd : d.IsOpen s.place) {id : String} (h : ModuleId.isValid id = true) :
    Sheltered s d (s.shardPlace id) := by
  rw [shardPlace_of_isValid s h]
  refine ⟨fun p hp hne => ?_, Disk.not_concat_le _ _⟩
  rcases List.prefix_concat_iff.1 hp with heq | hp
  · exact absurd heq hne
  · rcases List.prefix_concat_iff.1 hp with heq | hp
    · exact .inr heq
    · by_cases heq : p = s.place
      · exact .inl (heq ▸ hd)
      · exact .inl (Disk.isOpen_above hd hp heq)

theorem sheltered_corePlace (hd : d.IsOpen s.place) : Sheltered s d s.corePlace := by
  refine ⟨fun p hp hne => ?_, fun hp => ?_⟩
  · rcases List.prefix_concat_iff.1 hp with heq | hp
    · exact absurd heq hne
    · by_cases heq : p = s.place
      · exact .inl (heq ▸ hd)
      · exact .inl (Disk.isOpen_above hd hp heq)
  · have heq := hp.eq_of_length (by simp [corePlace, shardsPlace])
    exact ne_of_lastChar? (lastChar?_corePlace s) (lastChar?_shardsPlace s) (by decide) heq

section Absolute

variable (hs : Path.isAbsolute s.root = true)

include hs

theorem not_writtenFor_shardsPlace (ids : List String) : ¬ WrittenFor s ids s.shardsPlace := by
  rintro (⟨id, -, h⟩ | h)
  · exact ne_of_lastChar? (lastChar?_shardsPlace s) (lastChar?_shardPlace hs id) (by decide) h
  · exact ne_of_lastChar? (lastChar?_shardsPlace s) h.lastChar? (by decide) rfl

theorem not_isAside_shardPlace (id : String) : ¬ IsAside (s.shardPlace id) :=
  fun h => ne_of_lastChar? (lastChar?_shardPlace hs id) h.lastChar? (by decide) rfl

end Absolute

/-! ## Putting back -/

/-- What was noted of a file is what the disk holds. -/
def Saved (d : Disk) (l : Location) : Option ByteArray → Prop
  | some bytes => d.read l = .ok bytes
  | none => d.read l = .error .absent

theorem Saved.congr {previous : Option ByteArray} (h : Saved d l previous) (ha : d'.access l = d.access l) :
    Saved d' l previous := by
  cases previous <;> exact (Disk.read_congr ha).trans h

theorem Saved.read_eq {previous : Option ByteArray} (h : Saved d l previous) (h' : Saved d' l previous) :
    d'.read l = d.read l := by
  cases previous <;> exact h'.trans h.symm

variable {w w' : Workspace} {id : String} {previous : Option ByteArray} {f : Failure} {u : Unit}

section Absolute

variable (hs : Path.isAbsolute s.root = true)

include hs

theorem shardBytes?_ok (h : (s.shardBytes? id).exec w = (.ok previous, w')) :
    w' = w ∧ Saved w.disk (s.shardPlace id) previous := by
  rw [exec_shardBytes? hs] at h
  cases hr : w.disk.read (s.shardPlace id) with
  | ok bytes =>
    rw [hr] at h
    cases h
    exact ⟨rfl, hr⟩
  | error e =>
    rw [hr] at h
    cases e with
    | absent => cases h; exact ⟨rfl, hr⟩
    | notDirectory => cases h
    | isDirectory => cases h
    | notEmpty => cases h
    | refused => cases h

theorem shardBytes?_error (h : (s.shardBytes? id).exec w = (.error f, w')) :
    w' = w ∧ ∃ path reason, f = Failure.ofFault (.storage path reason) := by
  rw [exec_shardBytes? hs] at h
  cases hr : w.disk.read (s.shardPlace id) with
  | ok bytes => rw [hr] at h; cases h
  | error e =>
    rw [hr] at h
    cases e with
    | absent => cases h
    | notDirectory => cases h; exact ⟨rfl, _, _, rfl⟩
    | isDirectory => cases h; exact ⟨rfl, _, _, rfl⟩
    | notEmpty => cases h; exact ⟨rfl, _, _, rfl⟩
    | refused => cases h; exact ⟨rfl, _, _, rfl⟩

theorem restoreShard_ok (h : (s.restoreShard id previous).exec w = (.ok u, w')) :
    Saved w'.disk (s.shardPlace id) previous ∧ Changed (WrittenFor s [id]) (· <+: s.shardsPlace) w w' := by
  cases previous with
  | none =>
    obtain ⟨habsent, hchanged⟩ := removeShard_ok hs h
    exact ⟨Disk.read_eq_absent.2 habsent, hchanged.mono (fun l hl => .inl ⟨id, by simp, hl⟩) fun _ => False.elim⟩
  | some bytes =>
    obtain ⟨directory, name, hb⟩ := beside_shardPath hs w.here id
    have hplace : s.shardPlace id = directory ++ [name ++ ".json"] :=
      (resolve_shardPath hs w.here id).symm.trans hb.place
    obtain ⟨⟨time, haccess⟩, -, hchanged⟩ := replaceFile_ok hb h
    rw [← hplace] at haccess
    refine ⟨Disk.read_of_access haccess, hchanged.mono (fun l hl => ?_) fun _ => False.elim⟩
    rcases hl with rfl | rfl
    · exact .inl ⟨id, by simp, hplace.symm⟩
    · exact .inr ⟨_, _, rfl⟩

theorem restoreShard_error (h : (s.restoreShard id previous).exec w = (.error f, w')) :
    w'.unrestored = w.unrestored ∧ f.cause ≠ .unscannable := by
  cases previous with
  | none =>
    obtain ⟨hchanged, path, reason, rfl⟩ := removeShard_error hs h
    exact ⟨hchanged.unrestored_eq, by simp [Failure.ofFault]⟩
  | some bytes =>
    obtain ⟨directory, name, hb⟩ := beside_shardPath hs w.here id
    obtain ⟨path, reason, rfl⟩ := replaceFile_fault h
    exact ⟨(replaceFile_error hb h).unrestored_eq, by simp [Failure.ofFault]⟩

/-- A shard is put back, or it is noted that it is not. -/
theorem exec_putBack (id : String) (previous : Option ByteArray) (w : Workspace) :
    ∃ w', (putBack s id previous).exec w = (.ok (), w') ∧
      ((s.restoreShard id previous).exec w = (.ok (), w') ∨ w'.unrestored = w.unrestored ++ [id]) :=
  exec_orNote id fun _ _ => restoreShard_error hs

/-- Putting back goes on to the end, and where nothing is noted, everything is as it was saved. -/
theorem exec_forM_putBack (entries : List (String × Option ByteArray)) (w : Workspace) :
    ∃ w', (entries.forM fun e => putBack s e.1 e.2).exec w = (.ok (), w') ∧
      w.unrestored.length ≤ w'.unrestored.length ∧
      (w'.unrestored = w.unrestored →
        (entries.Pairwise fun a b => s.shardPlace a.1 ≠ s.shardPlace b.1) →
        (∀ e ∈ entries, Sheltered s w.disk (s.shardPlace e.1)) →
        Changed (WrittenFor s (entries.map Prod.fst)) (· <+: s.shardsPlace) w w' ∧
          ∀ e ∈ entries, Saved w'.disk (s.shardPlace e.1) e.2) := by
  induction entries generalizing w with
  | nil => exact ⟨w, rfl, Nat.le_refl _, fun _ _ _ => ⟨Changed.refl _ _ w, by simp⟩⟩
  | cons e rest ih =>
    obtain ⟨w₁, hput, hcases⟩ := exec_putBack hs e.1 e.2 w
    obtain ⟨w₂, hrest, hlen, hspec⟩ := ih w₁
    have hle : w.unrestored.length ≤ w₁.unrestored.length := by
      rcases hcases with hok | hnoted
      · rw [(restoreShard_ok hs hok).2.unrestored_eq]
      · rw [hnoted]
        exact (List.prefix_append _ _).length_le
    refine ⟨w₂, ?_, Nat.le_trans hle hlen, ?_⟩
    · change (putBack s e.1 e.2 >>= fun _ => rest.forM fun e => putBack s e.1 e.2).exec w = _
      rw [exec_bind_of_ok hput]
      exact hrest
    · intro hsame hplaces hsheltered
      obtain ⟨hhead, htail⟩ := List.pairwise_cons.1 hplaces
      have hok : (s.restoreShard e.1 e.2).exec w = (.ok (), w₁) := by
        refine hcases.resolve_right fun hnoted => ?_
        rw [hsame, hnoted, List.length_append, List.length_singleton] at hlen
        omega
      obtain ⟨hsaved, hchanged⟩ := restoreShard_ok hs hok
      obtain ⟨hchanged', hsaved'⟩ := hspec (hsame.trans hchanged.unrestored_eq.symm) htail fun e' he' =>
        (hsheltered e' (List.mem_cons_of_mem _ he')).mono hchanged.frame
      refine ⟨?_, fun e' he' => ?_⟩
      · exact (hchanged.mono (fun l => WrittenFor.mono (by simp)) fun _ => id).trans
          (hchanged'.mono (fun l => WrittenFor.mono (by simp)) fun _ => id)
      · rcases List.mem_cons.1 he' with rfl | he'
        · refine hsaved.congr ?_
          refine ((hsheltered e' (by simp)).mono hchanged.frame).access_eq hchanged'.frame ?_
            (not_writtenFor_shardsPlace hs _)
          rintro (⟨i, hi, heq⟩ | haside)
          · obtain ⟨e'', he'', rfl⟩ := List.mem_map.1 hi
            exact hhead e'' he'' heq
          · exact not_isAside_shardPlace hs e'.1 haside
        · exact hsaved' e' he'

end Absolute

/-! ## Going forward -/

/-- An update has written the shards of some modules and noted what they were. -/
structure Progress (s : Store) (w₀ w : Workspace) (done : List String) (backups : Backups) : Prop where
  changed : Changed (WrittenFor s done) (· <+: s.shardsPlace) w₀ w
  mem_keys : ∀ {id}, id ∈ backups.keys ↔ id ∈ done
  saved : ∀ {id previous}, backups.get? id = some previous → Saved w₀.disk (s.shardPlace id) previous

/-- Places that are apart, each sheltered from what happens at the others. -/
structure Distinct (s : Store) (d : Disk) (ids : List String) : Prop where
  place_inj : ∀ {id id'}, id ∈ ids → id' ∈ ids → s.shardPlace id = s.shardPlace id' → id = id'
  sheltered : ∀ {id}, id ∈ ids → Sheltered s d (s.shardPlace id)

/-- Every sheltered file is as it was, but for those in which others are prepared. -/
def Restored (s : Store) (w₀ w : Workspace) : Prop :=
  ∀ l, Sheltered s w₀.disk l → ¬ IsAside l → w.disk.read l = w₀.disk.read l

variable {w₀ : Workspace} {done : List String} {backups : Backups}

theorem Progress.refl (s : Store) (w : Workspace) : Progress s w w [] {} :=
  ⟨Changed.refl _ _ w, by simp [Dict.mem_keys], by simp⟩

theorem Distinct.mono {ids ids' : List String} (h : Distinct s d ids) (hsub : ids' ⊆ ids) : Distinct s d ids' :=
  ⟨fun hi hi' => h.place_inj (hsub hi) (hsub hi'), fun hi => h.sheltered (hsub hi)⟩

section Absolute

variable (hs : Path.isAbsolute s.root = true)

include hs

/-- What was noted is put back, and nothing else was touched. -/
theorem exec_rollBack (hp : Progress s w₀ w done backups) (hd : Distinct s w₀.disk done) :
    ∃ w', (rollBack s backups).exec w = (.ok (), w') ∧ (w'.unrestored = w₀.unrestored → Restored s w₀ w') := by
  obtain ⟨w', hexec, -, hspec⟩ := exec_forM_putBack hs backups.toList w
  refine ⟨w', hexec, fun hsame l hl haside => ?_⟩
  have hmem : ∀ {e}, e ∈ backups.toList → e.1 ∈ done := fun he => hp.mem_keys.1 (List.mem_map_of_mem he)
  have hplaces : backups.toList.Pairwise fun a b => s.shardPlace a.1 ≠ s.shardPlace b.1 := by
    refine List.Pairwise.imp_of_mem ?_ backups.ascending
    intro a b ha hb hlt heq
    exact String.ne_of_lt hlt (hd.place_inj (hmem ha) (hmem hb) heq)
  obtain ⟨hchanged, hsaved⟩ := hspec (hsame.trans hp.changed.unrestored_eq.symm) hplaces fun e he =>
    (hd.sheltered (hmem he)).mono hp.changed.frame
  by_cases hw : ∃ id ∈ done, l = s.shardPlace id
  · obtain ⟨id, hid, rfl⟩ := hw
    obtain ⟨previous, hget⟩ := Dict.mem_keys.1 (hp.mem_keys.2 hid)
    exact (hp.saved hget).read_eq (hsaved (id, previous) (Dict.mem_toList.2 hget))
  · have hkeys : WrittenFor s (backups.toList.map Prod.fst) l → WrittenFor s done l :=
      WrittenFor.mono fun id hid => hp.mem_keys.1 hid
    have hnot : ¬ WrittenFor s done l := fun h => h.elim hw haside
    have hfirst := hl.access_eq hp.changed.frame hnot (not_writtenFor_shardsPlace hs _)
    have hsecond := (hl.mono hp.changed.frame).access_eq hchanged.frame (fun h => hnot (hkeys h))
      (not_writtenFor_shardsPlace hs _)
    exact Disk.read_congr (hsecond.trans hfirst)

theorem exec_rollBack_throw {α : Type} (hp : Progress s w₀ w done backups) (hd : Distinct s w₀.disk done)
    {r : Except Failure α} (h : (do rollBack s backups; throw f : Action α).exec w = (r, w')) :
    r = .error f ∧ (w'.unrestored = w₀.unrestored → Restored s w₀ w') := by
  obtain ⟨w₁, hexec, hrestored⟩ := exec_rollBack hs hp hd
  rw [exec_bind_of_ok hexec] at h
  cases h
  exact ⟨rfl, hrestored⟩

/-- One module is written or removed; whether that works or not, nothing happens elsewhere. -/
theorem regenerate_changed {a : Analysis} {modules : ModuleMap} {hashes : Dict String} {r : Except Failure (Dict String)}
    (h : (regenerate s a modules hashes id).exec w = (r, w')) :
    Changed (ShardFiles s [id]) (· <+: s.shardsPlace) w w' ∧ ∀ f, r = .error f → f.IsStorage := by
  unfold regenerate at h
  split at h
  · next files hfiles =>
    rw [exec_bind, exec_during] at h
    rcases hw : (s.writeShard (a.shard id files)).exec w with ⟨f | hash, w₁⟩
    · rw [hw] at h
      cases h
      obtain ⟨hchanged, path, reason, rfl⟩ := writeShard_error hs hw
      refine ⟨hchanged.mono (fun l hl => ⟨id, by simp, .inr hl⟩) fun _ h => h, ?_⟩
      rintro f ⟨⟩
      exact ⟨path, reason, rfl⟩
    · rw [hw] at h
      cases h
      obtain ⟨-, -, hchanged⟩ := writeShard_ok hs hw
      exact ⟨hchanged.mono (fun l hl => ⟨id, by simp, hl⟩) fun _ h => h, fun f hf => by cases hf⟩
  · rw [exec_bind] at h
    rcases hr : (s.removeShard id).exec w with ⟨f | u, w₁⟩
    · rw [hr] at h
      cases h
      obtain ⟨hchanged, path, reason, rfl⟩ := removeShard_error hs hr
      refine ⟨hchanged.mono (fun _ => False.elim) fun _ => False.elim, ?_⟩
      rintro f ⟨⟩
      exact ⟨path, reason, rfl⟩
    · rw [hr] at h
      cases h
      obtain ⟨-, hchanged⟩ := removeShard_ok hs hr
      exact ⟨hchanged.mono (fun l hl => ⟨id, by simp, .inl hl⟩) fun _ => False.elim, fun f hf => by cases hf⟩

theorem Progress.regenerate (hp : Progress s w₀ w done backups) (hd : Distinct s w₀.disk (done ++ [id])) (hnew : id ∉ done)
    (hsaved : Saved w.disk (s.shardPlace id) previous) (hchanged : Changed (ShardFiles s [id]) (· <+: s.shardsPlace) w w') :
    Progress s w₀ w' (done ++ [id]) (backups.insert id previous) := by
  refine ⟨?_, fun {other} => ?_, fun {other noted} hget => ?_⟩
  · exact (hp.changed.mono (fun l => WrittenFor.mono (by simp)) fun _ h => h).trans
      (hchanged.mono (fun l hl => hl.writtenFor.mono (by simp)) fun _ h => h)
  · rw [Membership.mem_keys_insert, hp.mem_keys, List.mem_append, List.mem_singleton, or_comm]
  · rw [Dict.get?_insert] at hget
    split at hget
    · next heq =>
      cases hget
      subst heq
      have hnot : ¬ WrittenFor s done (s.shardPlace id) := by
        rintro (⟨i, hi, heq⟩ | haside)
        · exact hnew (hd.place_inj (by simp) (by simp [hi]) heq ▸ hi)
        · exact not_isAside_shardPlace hs id haside
      exact hsaved.congr ((hd.sheltered (by simp)).access_eq hp.changed.frame hnot
        (not_writtenFor_shardsPlace hs _)).symm
    · exact hp.saved hget

/-- The first of some modules is taken up.  If its shard cannot be read, or it cannot be written or removed, what was written
    is put back; otherwise the other modules follow. -/
theorem regenerateAll_cases {a : Analysis} {modules : ModuleMap} {id : String} {rest : List String} {hashes : Dict String}
    {r : Except Failure (Dict String × Backups)}
    (h : (regenerateAll s a modules (id :: rest) hashes backups).exec w = (r, w')) :
    (∃ f : Failure, f.IsStorage ∧ (do rollBack s backups; throw f : Action (Dict String × Backups)).exec w = (r, w')) ∨
    ∃ previous, Saved w.disk (s.shardPlace id) previous ∧
      ((∃ f w₁, f.IsStorage ∧ (regenerate s a modules hashes id).exec w = (.error f, w₁) ∧
          (do rollBack s (backups.insert id previous); throw f : Action (Dict String × Backups)).exec w₁ = (r, w')) ∨
        ∃ hashes' w₁, (regenerate s a modules hashes id).exec w = (.ok hashes', w₁) ∧
          (regenerateAll s a modules rest hashes' (backups.insert id previous)).exec w₁ = (r, w')) := by
  unfold regenerateAll at h
  rw [exec_bind, exec_attempt] at h
  rcases hb : (s.shardBytes? id).exec w with ⟨f | previous, w₁⟩
  · obtain ⟨rfl, path, reason, rfl⟩ := shardBytes?_error hs hb
    rw [hb] at h
    exact .inl ⟨_, ⟨path, reason, rfl⟩, h⟩
  · obtain ⟨rfl, hsaved⟩ := shardBytes?_ok hs hb
    rw [hb] at h
    dsimp only at h
    rw [exec_bind, exec_attempt] at h
    refine .inr ⟨previous, hsaved, ?_⟩
    rcases hr : (regenerate s a modules hashes id).exec w₁ with ⟨f | hashes₁, w₂⟩
    · have hstorage := (regenerate_changed hs hr).2 f rfl
      rw [hr] at h
      simp only [hstorage.ne_unscannable, if_false] at h
      exact .inl ⟨f, w₂, hstorage, rfl, h⟩
    · rw [hr] at h
      exact .inr ⟨hashes₁, w₂, rfl, h⟩

/-- Either all shards are written, or what was written is put back. -/
theorem regenerateAll_spec {a : Analysis} {modules : ModuleMap} (ids : List String) {hashes : Dict String}
    (hp : Progress s w₀ w done backups) (hd : Distinct s w₀.disk (done ++ ids)) (hn : (done ++ ids).Nodup)
    {r : Except Failure (Dict String × Backups)}
    (h : (regenerateAll s a modules ids hashes backups).exec w = (r, w')) :
    (∀ hashes' backups', r = .ok (hashes', backups') → Progress s w₀ w' (done ++ ids) backups') ∧
      ∀ f, r = .error f → w'.unrestored = w₀.unrestored → Restored s w₀ w' := by
  induction ids generalizing w done hashes backups with
  | nil =>
    cases h
    rw [List.append_nil]
    refine ⟨?_, fun f hf => by cases hf⟩
    rintro _ _ ⟨⟩
    exact hp
  | cons id rest ih =>
    have hnew : id ∉ done := fun hmem => (List.nodup_append.1 hn).2.2 id hmem id (by simp) rfl
    have hdone : Distinct s w₀.disk done := hd.mono (by simp)
    have hnext : Distinct s w₀.disk (done ++ [id]) := hd.mono (by simp)
    have hsplit : done ++ id :: rest = done ++ [id] ++ rest := by simp
    rcases regenerateAll_cases hs h with ⟨f, -, hback⟩ | ⟨previous, hsaved, ⟨f, w₁, -, hr, hback⟩ | ⟨hashes₁, w₁, hr, h⟩⟩
    · obtain ⟨rfl, hrestored⟩ := exec_rollBack_throw hs hp hdone hback
      exact ⟨fun _ _ hr => (nomatch hr), fun _ _ => hrestored⟩
    · have hp' := hp.regenerate hs hnext hnew hsaved (regenerate_changed hs hr).1
      obtain ⟨rfl, hrestored⟩ := exec_rollBack_throw hs hp' hnext hback
      exact ⟨fun _ _ hr => (nomatch hr), fun _ _ => hrestored⟩
    · have hp' := hp.regenerate hs hnext hnew hsaved (regenerate_changed hs hr).1
      rw [hsplit] at hd hn ⊢
      exact ih hp' hd hn h

end Absolute

end Update

end CodeIndex
