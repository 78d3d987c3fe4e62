import CodeIndex.Proofs.Outputs

set_option autoImplicit false

/-!
# Indices that are one document

A build of an index as one document leaves that document and no shards.
-/

namespace CodeIndex

open Action Store Update

variable {s : Store} {m : Maker} {w w' : Workspace} {keep : List String}

/-! ## Directories that are removed -/

/-- A directory that was removed is gone with what is below it, and one that stays is as it was. -/
theorem Disk.removeDirectory_spec {d d' : Disk} {l : Location} {name : String} {r : Except DiskError Unit}
    (h : (removeDirectory (l ++ [name])).run d = (r, d')) : Later d d' ∧
      ((∀ x, d'.access x = d.access x) ∨
        (d'.access (l ++ [name]) = .error .absent ∧ ∀ x, ¬ l ++ [name] <+: x → d'.access x = d.access x)) := by
  rcases r with e | u
  · obtain ⟨rfl, -⟩ := change_error h
    exact ⟨later_counted d, .inl fun x => rfl⟩
  · obtain ⟨d₁, hf, rfl⟩ := change_ok h
    have hd₁ : d₁ = d.erase (l ++ [name]) ∧ d.IsOpen (l ++ [name]) := by
      split at hf
      · cases hf
      · next hlist =>
        rw [list] at hlist
        split at hlist
        · next hopen => exact ⟨(Except.ok.inj hf).symm, hopen⟩
        · cases hlist
        · cases hlist
      · cases hf
    obtain ⟨rfl, hopen⟩ := hd₁
    exact ⟨⟨rfl, Nat.le_succ _, fun hs => hs.erase (by simp)⟩,
      .inr ⟨access_erase_self (isOpen_of_access_concat hopen), fun x hx => access_erase_elsewhere d (by simp) hx⟩⟩

namespace Store

theorem not_shardsPlace_le_cachePlace : ¬ s.shardsPlace <+: s.cachePlace := by
  rw [cachePlace, List.append_assoc, shardsPlace, List.prefix_append_right_inj]
  rintro ⟨rest, hrest⟩
  exact absurd (List.cons.inj hrest).1 (by decide)

section Absolute

variable (hs : Path.isAbsolute s.root = true)

include hs

theorem produced_of_clearShards (hopen : w.disk.IsOpen s.place) {r : Except Failure Nat}
    (h : (s.clearShards keep).exec w = (r, w')) : s.Produced w w' :=
  .of_changed hopen ((clearShards_changed hs h).mono (fun _ => isOutputPlace_of_isStale) fun _ => False.elim)

theorem read_of_clearShards {r : Except Failure Nat} (h : (s.clearShards keep).exec w = (r, w'))
    {bytes : ByteArray} (hread : w.disk.read s.corePlace = .ok bytes) : w'.disk.read s.corePlace = .ok bytes := by
  obtain ⟨time, haccess⟩ := Disk.access_of_read hread
  have hnot : ¬ IsStale s keep s.corePlace := fun ⟨_, _, heq, _⟩ =>
    not_shardsPlace_le_corePlace (heq ▸ List.prefix_append _ _)
  exact Disk.read_of_access ((clearShards_changed hs h).frame.access_of_ok haccess hnot id)

/-- Shards from before are removed, and their directory if nothing else is in it. -/
theorem dropShards_ok {α : Type} {rest : Action α} {x : α} (hopen : w.disk.IsOpen s.place) {bytes : ByteArray}
    (hread : w.disk.read s.corePlace = .ok bytes)
    (h : (do
      if ← isPresent s.shardDirectory then
        let _ ← s.clearShards []
        let directory ← locate s.shardDirectory
        let _ ← tryChange (Disk.removeDirectory directory)
      rest).exec w = (.ok x, w')) :
    ∃ w₁, s.Produced w w₁ ∧ s.OnlyShards w₁.disk [] ∧ w₁.disk.read s.corePlace = .ok bytes ∧ rest.exec w₁ = (.ok x, w') := by
  rw [exec_bind_of_ok (exec_isPresent _ w), resolve_shardDirectory hs] at h
  cases hpresent : w.disk.holds s.shardsPlace with
  | false =>
    simp only [hpresent, Bool.false_eq_true, if_false] at h
    refine ⟨w, .refl s w, fun file id _ _ => ?_, hread, h⟩
    have hplace : w.disk.access s.shardsPlace = .error .absent := by
      have haccess := Disk.access_of_isOpen hopen Shard.directory
      cases hfind : w.disk.find? (s.place ++ [Shard.directory]) with
      | none =>
        rw [hfind] at haccess
        exact haccess
      | some node =>
        rw [hfind] at haccess
        cases (Disk.holds_of_access haccess).symm.trans hpresent
    exact Disk.access_error_below hplace (List.prefix_append _ _)
  | true =>
    simp only [hpresent, if_true] at h
    obtain ⟨n, w₁, hclear, h⟩ := ok_of_exec_bind h
    rw [exec_bind_of_ok (exec_locate _ w₁), resolve_shardDirectory hs, exec_bind_of_ok (exec_tryChange _ w₁)] at h
    have hproduced := produced_of_clearShards hs hopen hclear
    have honly := onlyShards_of_clearShards hs hclear
    have hread₁ := read_of_clearShards hs hclear hread
    rcases hremove : (Disk.removeDirectory s.shardsPlace).run w₁.disk with ⟨r, d⟩
    rw [hremove] at h
    dsimp only at h
    obtain ⟨hlater, hsame | ⟨hgone, helse⟩⟩ := Disk.removeDirectory_spec hremove
    · exact ⟨{ w₁ with disk := d }, hproduced.trans ⟨rfl, fun l _ => Disk.node?_congr (hsame l), hlater, hsame _⟩,
        honly.congr fun file hfile => (hsame _).trans hfile, (Disk.read_congr (hsame _)).trans hread₁, h⟩
    · exact ⟨{ w₁ with disk := d }, hproduced.trans ⟨rfl, fun l hl => Disk.node?_congr (helse l fun hp => hl (.inl hp)), hlater,
          helse _ not_shardsPlace_le_cachePlace⟩,
        fun file id _ _ => Disk.access_error_below hgone (List.prefix_append _ _),
        (Disk.read_congr (helse _ not_shardsPlace_le_corePlace)).trans hread₁, h⟩

end Absolute

end Store

namespace Maker

/-- A build of one document leaves the document that the analysis of the files makes, and no shards.  The cache is
    written last. -/
theorem buildSingle_ok {root : String} (hopen : w.disk.IsOpen (w.store root).place) {index : SingleIndex} {n : Nat}
    (h : (m.buildSingle root).exec w = (.ok (index, n), w')) :
    ∃ files source commits found w₁ w₂, Surveyed m (w.store root) w files source commits found ∧
      index = (recordAll commits Analysis.empty found).single (Path.displayName (w.store root).root) w.now files source
        (Layout.detect? files) m.settings ∧
      n = (recordAll commits Analysis.empty found).skipped ∧ w₂.disk.read (w.store root).corePlace = .ok (encode index) ∧
      (w.store root).OnlyShards w₂.disk [] ∧ w.Alike w₁ ∧ (w.store root).Produced w₁ w₂ ∧
      (rememberAll (OutlineCache.loaded w.disk (w.store root).root (w.store root).cachePlace) found).saveQuietly.exec w₂ =
        (.ok (), w') := by
  have hs := w.isAbsolute_store root
  unfold buildSingle at h
  obtain ⟨resolved, w₁, hroot, h⟩ := ok_of_exec_bind h
  obtain ⟨rfl, -, rfl⟩ := resolveRoot_ok hroot
  have hpath : (w₁.here.resolve root).toPath = (w₁.store root).root := rfl
  rw [hpath] at h
  generalize w₁.store root = s at h hs hopen ⊢
  obtain ⟨⟨files, source, a, cache⟩, w₂, hsurvey, h⟩ := ok_of_exec_bind h
  obtain ⟨halike, commits, found, hsurveyed, rfl, rfl⟩ := survey_ok hs hsurvey
  dsimp only at h
  rw [exec_bind_of_ok (exec_get w₂), halike.now_eq] at h
  obtain ⟨u, w₃, hwrite, h⟩ := ok_of_exec_bind h
  obtain ⟨hread, hchanged⟩ := replaceCore_ok hs (ok_of_exec_during hwrite)
  have hproduced : s.Produced w₂ w₃ := .of_changed (by rw [halike.disk_eq]; exact hopen)
    (hchanged.mono (fun _ => isOutputPlace_corePlace) fun _ => False.elim)
  have hopen₃ : w₃.disk.IsOpen s.place := hproduced.isOpen (by rw [halike.disk_eq]; exact hopen)
  obtain ⟨w₄, hdropped, honly, hread₄, hrest⟩ := dropShards_ok hs hopen₃ hread h
  obtain ⟨w₅, hsave⟩ := OutlineCache.exec_saveQuietly
    (rememberAll (OutlineCache.loaded w₁.disk s.root s.cachePlace) found) w₄
  rw [exec_bind_of_ok hsave] at hrest
  cases hrest
  exact ⟨files, source, commits, found, w₂, w₄, hsurveyed, rfl, rfl, hread₄, honly, halike, hproduced.trans hdropped, hsave⟩

end Maker

end CodeIndex
