import CodeIndex.Proofs.Disk

set_option autoImplicit false

/-!
# Changes of a disk

A change that fails leaves the disk as it was and only counts.  One that happens is described by what is found
afterwards at its location, and by a frame: what it leaves alone everywhere else.
-/

namespace CodeIndex.Disk

/-! ## Frames -/

/-- Between two disks, files were changed only at `written` locations, and directories made only at `made` ones. -/
structure Frame (written made : Location → Prop) (d d' : Disk) : Prop where
  isOpen : ∀ {l}, d.IsOpen l → d'.IsOpen l
  access_eq : ∀ {l}, (∀ t, written t → t <+: l → t ≠ l ∧ d.IsOpen t) → ¬ made l → d'.access l = d.access l
  /-- No directory is made where a file is. -/
  file_eq : ∀ {l bytes time}, d.access l = .ok (.file bytes time) → ¬ written l → d'.access l = d.access l
  opened : ∀ {l}, d'.IsOpen l → d.IsOpen l ∨ made l

namespace Frame

variable {written made written' made' : Location → Prop} {d d' d'' : Disk}

theorem refl (written made : Location → Prop) (d : Disk) : Frame written made d d :=
  ⟨id, fun _ _ => rfl, fun _ _ => rfl, .inl⟩

theorem trans (h : Frame written made d d') (h' : Frame written made d' d'') : Frame written made d d'' := by
  refine ⟨fun hl => h'.isOpen (h.isOpen hl), fun {l} hw hm => ?_, fun {l bytes time} hl hw => ?_,
    fun {l} hl => (h'.opened hl).elim h.opened .inr⟩
  · rw [h'.access_eq (fun t ht hp => ⟨(hw t ht hp).1, h.isOpen (hw t ht hp).2⟩) hm, h.access_eq hw hm]
  · have hkept := h.file_eq hl hw
    exact (h'.file_eq (hkept.trans hl) hw).trans hkept

theorem mono (h : Frame written made d d') (hw : ∀ l, written l → written' l) (hm : ∀ l, made l → made' l) :
    Frame written' made' d d' :=
  ⟨h.isOpen, fun hl hml => h.access_eq (fun t ht => hl t (hw t ht)) fun hml' => hml (hm _ hml'),
    fun hl hnot => h.file_eq hl fun hwl => hnot (hw _ hwl), fun hl => (h.opened hl).imp id (hm _)⟩

theorem of_access_eq (h : ∀ l, d'.access l = d.access l) : Frame written made d d' :=
  ⟨fun hl => (h _).trans hl, fun _ _ => h _, fun _ _ => h _, fun hl => .inl ((h _).symm.trans hl)⟩

/-- What is reached is left alone where nothing is written or made. -/
theorem access_of_ok (h : Frame written made d d') {l : Location} {node : Node} (hl : d.access l = .ok node)
    (hw : ¬ written l) (hm : ¬ made l) : d'.access l = .ok node := by
  rw [h.access_eq ?_ hm, hl]
  intro t ht hp
  have hne : t ≠ l := by
    rintro rfl
    exact hw ht
  exact ⟨hne, isOpen_above hl hp hne⟩

/-- In a directory that is reached, what is not written is left alone, be it there or not. -/
theorem access_of_isOpen (h : Frame written made d d') {l : Location} {name : String} (hl : d.IsOpen l)
    (hw : ¬ written (l ++ [name])) (hm : ¬ made (l ++ [name])) : d'.access (l ++ [name]) = d.access (l ++ [name]) := by
  refine h.access_eq (fun t ht hp => ?_) hm
  have hne : t ≠ l ++ [name] := by
    rintro rfl
    exact hw ht
  refine ⟨hne, ?_⟩
  rcases List.prefix_concat_iff.1 hp with heq | hp
  · exact absurd heq hne
  · by_cases heq : t = l
    · rw [heq]
      exact hl
    · exact isOpen_above hl hp heq

end Frame

/-! ## Refusals -/

/-- The disk after a change that did not happen. -/
def counted (d : Disk) : Disk := { d with changes := d.changes + 1 }

@[simp] theorem access_counted (d : Disk) (l : Location) : d.counted.access l = d.access l := rfl

theorem frame_counted (written made : Location → Prop) (d : Disk) : Frame written made d d.counted :=
  Frame.of_access_eq fun _ => rfl

@[simp] theorem find?_counted (d : Disk) (l : Location) : d.counted.find? l = d.find? l := rfl

theorem run_bind {ε σ α β : Type} (a : ExceptT ε (StateM σ) α) (f : α → ExceptT ε (StateM σ) β) (s : σ) :
    (a >>= f).run.run s = match a.run.run s with
      | (.ok x, s') => (f x).run.run s'
      | (.error e, s') => (.error e, s') := by
  change (ExceptT.bindCont f (a.run.run s).1).run (a.run.run s).2 = _
  rcases a.run.run s with ⟨_ | _, _⟩ <;> rfl

theorem run_change (f : Disk → Except DiskError Disk) (d : Disk) :
    (change f).run d = if d.refusals.contains d.changes then (.error .refused, d.counted)
      else match f d with
        | .ok d' => (.ok (), { d' with changes := d.changes + 1 })
        | .error e => (.error e, d.counted) := by
  change (change f).run.run d = _
  unfold change
  rw [run_bind]
  change (set d.counted >>= fun _ => _ : Change Unit).run.run d = _
  rw [run_bind]
  change (ExceptT.run (if _ then _ else _ : Change Unit)).run d.counted = _
  split
  · rfl
  · cases f d <;> rfl

theorem change_error {f : Disk → Except DiskError Disk} {d d' : Disk} {e : DiskError}
    (h : (change f).run d = (.error e, d')) : d' = d.counted ∧ (e = .refused ∨ f d = .error e) := by
  rw [run_change] at h
  split at h
  · cases h
    exact ⟨rfl, .inl rfl⟩
  · cases hf : f d with
    | ok d₁ => rw [hf] at h; cases h
    | error e₁ => rw [hf] at h; cases h; exact ⟨rfl, .inr rfl⟩

theorem change_ok {f : Disk → Except DiskError Disk} {d d' : Disk} {u : Unit}
    (h : (change f).run d = (.ok u, d')) : ∃ d₁, f d = .ok d₁ ∧ d' = { d₁ with changes := d.changes + 1 } := by
  rw [run_change] at h
  split at h
  · cases h
  · cases hf : f d with
    | ok d₁ => rw [hf] at h; cases h; exact ⟨d₁, rfl, rfl⟩
    | error e => rw [hf] at h; cases h

/-! ## Single changes -/

variable {d d' : Disk} {l : Location} {name : String} {bytes : ByteArray} {e : DiskError} {u : Unit}

theorem isOpen_of_isDirectory (hl : d.IsOpen l) (h : d.isDirectory (l ++ [name]) = true) : d.IsOpen (l ++ [name]) := by
  unfold isDirectory at h
  rw [IsOpen, access_of_isOpen hl]
  cases hf : d.find? (l ++ [name]) with
  | none => rw [hf] at h; cases h
  | some node => cases node with
    | file bytes time => rw [hf] at h; cases h
    | directory => rfl

theorem obstacle?_concat (hl : d.IsOpen l) (name : String) : d.obstacle? (l ++ [name]) = none :=
  obstacle?_concat_eq_none.2 hl

theorem isDirectory_of_isOpen (h : d.IsOpen l) : d.isDirectory l = true := by
  unfold isDirectory
  rw [find?_of_access h]

theorem isOpen_of_le {t x : Location} (h : d.IsOpen x) (hp : t <+: x) : d.IsOpen t := by
  by_cases heq : t = x
  · rw [heq]
    exact h
  · exact isOpen_above h hp heq

/-- A change that is seen only from a location down, where no directory was and none is then. -/
theorem frame_of_elsewhere {t : Location} (hn : ¬ d.IsOpen t) (hn' : ¬ d'.IsOpen t)
    (h : ∀ x, ¬ t <+: x → d'.access x = d.access x) : Frame (· = t) (fun _ => False) d d' := by
  refine ⟨fun {x} hx => (h x fun hp => hn (isOpen_of_le hx hp)).trans hx,
    fun {x} hx _ => h x fun hp => hn (hx t rfl hp).2, fun {x bytes time} hx hw => ?_,
    fun {x} hx => .inl ((h x fun hp => hn' (isOpen_of_le hx hp)).symm.trans hx)⟩
  exact h x fun hp => hn (isOpen_above hx hp fun heq => hw heq.symm)

theorem not_isOpen_of_file {time : Nat} (h : d.access l = .ok (.file bytes time)) : ¬ d.IsOpen l := by
  intro hopen
  cases h.symm.trans hopen

theorem not_isOpen_of_error (h : d.access l = .error e) : ¬ d.IsOpen l := by
  intro hopen
  cases h.symm.trans hopen

/-- What any change does: refusals stay, changes are counted, and a sound disk stays sound. -/
structure Later (d d' : Disk) : Prop where
  refusals_eq : d'.refusals = d.refusals
  le_changes : d.changes ≤ d'.changes
  sound : d.Sound → d'.Sound

theorem Later.refl (d : Disk) : Later d d := ⟨rfl, Nat.le_refl _, id⟩

theorem Later.trans {d d' d'' : Disk} (h : Later d d') (h' : Later d' d'') : Later d d'' :=
  ⟨h'.refusals_eq.trans h.refusals_eq, Nat.le_trans h.le_changes h'.le_changes, fun hs => h'.sound (h.sound hs)⟩

theorem later_counted (d : Disk) : Later d d.counted := ⟨rfl, Nat.le_succ _, id⟩

theorem write_error (h : (write l bytes).run d = (.error e, d')) : d' = d.counted := (change_error h).1

theorem write_ok (h : (write (l ++ [name]) bytes).run d = (.ok u, d')) :
    d.IsOpen l ∧ ¬ d.IsOpen (l ++ [name]) ∧ (∃ time, d'.access (l ++ [name]) = .ok (.file bytes time)) ∧
      Frame (· = l ++ [name]) (fun _ => False) d d' ∧ Later d d' := by
  obtain ⟨d₁, hf, rfl⟩ := change_ok h
  cases hob : d.obstacle? (l ++ [name]) with
  | some e => rw [hob] at hf; cases hf
  | none =>
    have hl := obstacle?_concat_eq_none.1 hob
    cases hdir : d.isDirectory (l ++ [name]) with
    | true => rw [hob, hdir] at hf; cases hf
    | false =>
      rw [hob, hdir] at hf
      cases hf
      have hn : ¬ d.IsOpen (l ++ [name]) := fun hopen => by
        rw [isDirectory_of_isOpen hopen] at hdir
        cases hdir
      exact ⟨hl, hn, ⟨d.clock, access_put_self hl _⟩,
        frame_of_elsewhere hn (not_isOpen_of_file (access_put_self hl (.file bytes d.clock))) fun x hx =>
          access_put_elsewhere d _ (by simp) hx,
        ⟨rfl, Nat.le_succ _, fun hs => hs.put hl _⟩⟩

theorem rename_error {source target : Location} (h : (rename source target).run d = (.error e, d')) : d' = d.counted :=
  (change_error h).1

theorem removeFile_error (h : (removeFile l).run d = (.error e, d')) :
    d' = d.counted ∧ (e = .absent → d.access l = .error .absent) := by
  obtain ⟨hd, hor⟩ := change_error h
  refine ⟨hd, ?_⟩
  rintro rfl
  rcases hor with hr | hf
  · cases hr
  · cases ha : d.access l with
    | error e => rw [ha] at hf; cases hf; rfl
    | ok node => cases node <;> rw [ha] at hf <;> cases hf

theorem removeFile_ok (h : (removeFile l).run d = (.ok u, d')) :
    (∃ bytes time, d.access l = .ok (.file bytes time)) ∧ d'.access l = .error .absent ∧
      Frame (· = l) (fun _ => False) d d' ∧ Later d d' := by
  obtain ⟨d₁, hf, rfl⟩ := change_ok h
  cases ha : d.access l with
  | error e => rw [ha] at hf; cases hf
  | ok node =>
    cases node with
    | directory => rw [ha] at hf; cases hf
    | file bytes time =>
      rw [ha] at hf
      cases hf
      cases l using List.reverseRecOn with
      | nil => rw [access_nil] at ha; cases ha
      | append_singleton l name =>
        have hn : ¬ d.IsOpen (l ++ [name]) := fun hopen => by
          rw [IsOpen, ha] at hopen
          cases hopen
        have hgone : (d.erase (l ++ [name])).access (l ++ [name]) = .error .absent :=
          access_erase_self (isOpen_of_access_concat ha)
        exact ⟨⟨bytes, time, rfl⟩, hgone,
          frame_of_elsewhere hn (not_isOpen_of_error hgone) fun x hx => access_erase_elsewhere d (by simp) hx,
          ⟨rfl, Nat.le_succ _, fun hs => hs.erase (by simp)⟩⟩

/-- Moving a file within a directory takes it from one name to another. -/
theorem rename_ok {source target : String} {time : Nat} (hne : source ≠ target)
    (hs : d.access (l ++ [source]) = .ok (.file bytes time))
    (h : (rename (l ++ [source]) (l ++ [target])).run d = (.ok u, d')) :
    d'.access (l ++ [target]) = .ok (.file bytes time) ∧ d'.access (l ++ [source]) = .error .absent ∧
      Frame (fun x => x = l ++ [source] ∨ x = l ++ [target]) (fun _ => False) d d' ∧ Later d d' := by
  obtain ⟨d₁, hf, rfl⟩ := change_ok h
  have hl := isOpen_of_access_concat hs
  have hob := obstacle?_concat hl target
  rw [hs, hob] at hf
  cases hdir : d.isDirectory (l ++ [target]) with
  | true => rw [hdir] at hf; cases hf
  | false =>
    rw [hdir] at hf
    cases hf
    have hns : ¬ d.IsOpen (l ++ [source]) := fun hopen => by
      rw [IsOpen, hs] at hopen
      cases hopen
    have hnt : ¬ d.IsOpen (l ++ [target]) := fun hopen => by
      rw [isDirectory_of_isOpen hopen] at hdir
      cases hdir
    have hnp : ∀ a b : String, a ≠ b → ¬ l ++ [a] <+: l ++ [b] := by
      intro a b hab hp
      have heq := hp.eq_of_length (by simp)
      simp at heq
      exact hab heq
    have herase : ∀ x, ¬ l ++ [source] <+: x → (d.erase (l ++ [source])).access x = d.access x :=
      fun x hx => access_erase_elsewhere d (by simp) hx
    have hl' : (d.erase (l ++ [source])).IsOpen l := (herase l (not_concat_le l source)).trans hl
    have hnt' : ¬ (d.erase (l ++ [source])).IsOpen (l ++ [target]) := by
      rw [IsOpen, herase _ (hnp _ _ hne)]
      exact hnt
    have hput : ∀ x, ¬ l ++ [target] <+: x → ((d.erase (l ++ [source])).put (l ++ [target]) (.file bytes time)).access x =
        (d.erase (l ++ [source])).access x := fun x hx => access_put_elsewhere _ _ (by simp) hx
    have hmoved : ((d.erase (l ++ [source])).put (l ++ [target]) (.file bytes time)).access (l ++ [target]) =
        .ok (.file bytes time) := access_put_self hl' _
    have hframe := ((frame_of_elsewhere hns (not_isOpen_of_error (access_erase_self hl)) herase).mono (fun _ => Or.inl)
      fun _ => id).trans
      ((frame_of_elsewhere hnt' (not_isOpen_of_file hmoved) hput).mono (fun _ => Or.inr) fun _ => id)
    refine ⟨hmoved, ?_, ⟨hframe.isOpen, hframe.access_eq, hframe.file_eq, hframe.opened⟩,
      ⟨rfl, Nat.le_succ _, fun hs => (hs.erase (by simp)).put hl' _⟩⟩
    exact (hput _ (hnp _ _ hne.symm)).trans (access_erase_self hl)

/-! ## Directories -/

/-- One step of making directories. -/
def makeDirectory (d : Disk) (l : Location) : Disk := if d.isDirectory l then d else d.put l .directory

theorem makeDirectory_spec (hl : d.IsOpen l) (hf : d.isFile (l ++ [name]) = false) :
    (d.makeDirectory (l ++ [name])).IsOpen (l ++ [name]) ∧
      (∀ x, x ≠ l ++ [name] → (d.makeDirectory (l ++ [name])).access x = d.access x) ∧
      (∀ x, (d.makeDirectory (l ++ [name])).isFile x = true → d.isFile x = true) ∧
      (d.Sound → (d.makeDirectory (l ++ [name])).Sound) := by
  unfold makeDirectory
  split
  · next hdir => exact ⟨isOpen_of_isDirectory hl hdir, fun _ _ => rfl, fun _ => id, id⟩
  · next hdir =>
    have hnone : d.find? (l ++ [name]) = none := by
      unfold isFile at hf
      unfold isDirectory at hdir
      cases h : d.find? (l ++ [name]) with
      | none => rfl
      | some node => cases node with
        | file bytes time => rw [h] at hf; cases hf
        | directory => rw [h] at hdir; exact absurd rfl hdir
    refine ⟨access_put_self hl _, fun x hx => access_put_directory hl hnone hx, fun x hx => ?_, fun hs => hs.put hl _⟩
    unfold isFile at hx ⊢
    rw [find?_put d _ _ _ (by simp)] at hx
    by_cases heq : x = l ++ [name]
    · rw [if_pos heq] at hx
      cases hx
    · rw [if_neg heq] at hx
      by_cases hp : l ++ [name] <+: x
      · rw [if_pos hp] at hx
        cases hx
      · rwa [if_neg hp] at hx

theorem foldl_makeDirectory (d : Disk) (l : Location) (h : ∀ p, p <+: l → d.isFile p = false) :
    ((l.above ++ [l]).foldl makeDirectory d).IsOpen l ∧
      (∀ x, ¬ x <+: l → ((l.above ++ [l]).foldl makeDirectory d).access x = d.access x) ∧
      (∀ x, ((l.above ++ [l]).foldl makeDirectory d).isFile x = true → d.isFile x = true) ∧
      (d.Sound → ((l.above ++ [l]).foldl makeDirectory d).Sound) := by
  induction l using List.reverseRecOn with
  | nil => exact ⟨rfl, fun _ _ => rfl, fun _ => id, id⟩
  | append_singleton l name ih =>
    obtain ⟨hopen, hsame, hfile, hsound⟩ := ih fun p hp => h p (hp.trans (List.prefix_append _ _))
    rw [above_concat, List.foldl_append, List.foldl_cons, List.foldl_nil]
    generalize (Location.above l ++ [l]).foldl makeDirectory d = d₁ at hopen hsame hfile hsound ⊢
    have hf : d₁.isFile (l ++ [name]) = false := by
      rw [Bool.eq_false_iff]
      intro ht
      have hd := hfile _ ht
      rw [h _ List.prefix_rfl] at hd
      cases hd
    obtain ⟨hmade, hother, hstill, hkeeps⟩ := makeDirectory_spec hopen hf
    refine ⟨hmade, fun x hx => ?_, fun x hx => hfile x (hstill x hx), fun hs => hkeeps (hsound hs)⟩
    rw [hother x fun heq => hx (heq ▸ List.prefix_rfl), hsame x fun hp => hx (hp.trans (List.prefix_append _ _))]

theorem makeDirectories_of_isOpen (h : d.IsOpen l) : (makeDirectories l).run d = (.ok (), d) := by
  change (makeDirectories l).run.run d = _
  unfold makeDirectories
  rw [run_bind]
  change (ExceptT.run (if _ then _ else _ : Change Unit)).run d = _
  rw [h]
  rfl

theorem makeDirectories_of_not_isOpen (h : ¬ d.IsOpen l) : (makeDirectories l).run d =
    (change fun d => if (l.above ++ [l]).any d.isFile then .error .notDirectory
      else .ok ((l.above ++ [l]).foldl makeDirectory d)).run d := by
  change (makeDirectories l).run.run d = _
  unfold makeDirectories
  rw [run_bind]
  change (ExceptT.run (if _ then _ else _ : Change Unit)).run d = _
  rw [if_neg]
  · rfl
  · intro hm
    apply h
    unfold IsOpen
    revert hm
    cases d.access l with
    | error e => exact fun hm => absurd hm Bool.false_ne_true
    | ok node => cases node with
      | file bytes time => exact fun hm => absurd hm Bool.false_ne_true
      | directory => exact fun _ => rfl

theorem makeDirectories_error (h : (makeDirectories l).run d = (.error e, d')) : d' = d.counted := by
  by_cases hl : d.IsOpen l
  · rw [makeDirectories_of_isOpen hl] at h
    cases h
  · rw [makeDirectories_of_not_isOpen hl] at h
    exact (change_error h).1

theorem makeDirectories_ok (h : (makeDirectories l).run d = (.ok u, d')) :
    d'.IsOpen l ∧ Frame (fun _ => False) (· <+: l) d d' ∧ Later d d' := by
  by_cases hl : d.IsOpen l
  · rw [makeDirectories_of_isOpen hl] at h
    cases h
    exact ⟨hl, Frame.refl _ _ d, Later.refl d⟩
  · rw [makeDirectories_of_not_isOpen hl] at h
    obtain ⟨d₁, hf, rfl⟩ := change_ok h
    split at hf
    · cases hf
    · next hany =>
      cases hf
      have hfiles : ∀ p, p <+: l → d.isFile p = false := by
        intro p hp
        rw [Bool.eq_false_iff]
        intro ht
        apply hany
        rw [List.any_eq_true]
        refine ⟨p, ?_, ht⟩
        by_cases heq : p = l
        · simp [heq]
        · simp [mem_above.2 ⟨hp, heq⟩]
      obtain ⟨hopen, hsame, -, hsound⟩ := foldl_makeDirectory d l hfiles
      refine ⟨hopen, ⟨fun {x} hx => ?_, fun {x} _ hx => hsame x hx, fun {x bytes time} hx _ => hsame x fun hp => ?_,
        fun {x} hx => ?_⟩, ⟨?_, Nat.le_succ _, hsound⟩⟩
      · by_cases hp : x <+: l
        · by_cases heq : x = l
          · rw [heq]
            exact hopen
          · exact isOpen_above hopen hp heq
        · exact (hsame x hp).trans hx
      · have hfile := hfiles x hp
        rw [isFile, find?_of_access hx] at hfile
        cases hfile
      · by_cases hp : x <+: l
        · exact .inr hp
        · exact .inl ((hsame x hp).symm.trans hx)
      · have hrefusals : ∀ (ps : List Location) (d : Disk), (ps.foldl makeDirectory d).refusals = d.refusals := by
          intro ps
          induction ps with
          | nil => exact fun _ => rfl
          | cons p ps ih =>
            intro d
            rw [List.foldl_cons, ih]
            unfold makeDirectory
            split <;> rfl
        exact hrefusals _ d

end CodeIndex.Disk
