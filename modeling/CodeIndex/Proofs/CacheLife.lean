import CodeIndex.Proofs.Overwritten
import CodeIndex.Proofs.Rebuilt

set_option autoImplicit false

/-!
# The life of a cache

A project is built, updated and edited, in any order.  When a file that was edited always gets another time, the cache tells
the truth of every file at every moment, so that a build comes to the same with and without it.
-/

namespace CodeIndex

open Action Store Update

variable {s : Store} {m : Maker} {w w' v : Workspace} {root : String} {seen : SourceState → Prop}

/-! ## Histories -/

/-- What a project went through, with the states that its source files were seen in.  There was no cache at first, and the
    cache was not written but by runs. -/
inductive OutlineCache.Life (s : Store) : (SourceState → Prop) → Workspace → Prop
  | start {w : Workspace} (hopen : w.disk.IsOpen s.place) (hsound : w.disk.Sound)
      (hcache : w.disk.holds s.cachePlace = false) : Life s (s.Finds w.disk) w
  | built {seen : SourceState → Prop} {w w' : Workspace} {m : Maker} {root : String} {core : CoreIndex} {n : Nat}
      (h : Life s seen w) (hroot : w.store root = s) (hrun : (m.build root).exec w = (.ok (core, n), w')) : Life s seen w'
  | builtSingle {seen : SourceState → Prop} {w w' : Workspace} {m : Maker} {root : String} {index : SingleIndex} {n : Nat}
      (h : Life s seen w) (hroot : w.store root = s) (hrun : (m.buildSingle root).exec w = (.ok (index, n), w')) :
      Life s seen w'
  | updated {seen : SourceState → Prop} {w w' : Workspace} {m : Maker} {root : String} {o : UpdateOutcome}
      (h : Life s seen w) (hroot : w.store root = s) (hrun : (run m root).exec w = (.ok o, w')) : Life s seen w'
  /-- Anything may happen to the rest of the disk, to what version control tells, and to the time, as long as a file that is
      no longer in a state in which it was seen has a time at which it was not seen. -/
  | edited {seen : SourceState → Prop} {w w' : Workspace} (h : Life s seen w) (hopen : w'.disk.IsOpen s.place)
      (hsound : w'.disk.Sound)
      (hcache : w'.disk.access s.cachePlace = w.disk.access s.cachePlace ∨ w'.disk.holds s.cachePlace = false)
      (hnew : ∀ x y, s.Finds w'.disk x → seen y → x.place = y.place → x.time = y.time → x = y) :
      Life s (fun x => seen x ∨ s.Finds w'.disk x) w'

/-- What holds all through the life of a cache. -/
structure OutlineCache.Lives (s : Store) (seen : SourceState → Prop) (w : Workspace) : Prop where
  isOpen : w.disk.IsOpen s.place
  sound : w.disk.Sound
  dated : Dated seen
  finds : ∀ x, s.Finds w.disk x → seen x
  truthful : Truthful seen (loaded w.disk s.root s.cachePlace).entries

theorem Store.Finds.eq_of_place {d : Disk} {x y : SourceState} (hx : s.Finds d x) (hy : s.Finds d y)
    (hplace : x.place = y.place) : x = y := by
  have haccess := hx.access
  rw [hplace, hy.access] at haccess
  cases x
  cases y
  cases hplace
  cases haccess
  rfl

theorem dated_finds (s : Store) (d : Disk) : Dated (s.Finds d) :=
  ⟨fun _ hx => hx.place_ne_nil, fun _ _ hx hy hplace _ => hx.eq_of_place hy hplace⟩

theorem Dated.or {d : Disk} (h : Dated seen)
    (hnew : ∀ x y, s.Finds d x → seen y → x.place = y.place → x.time = y.time → x = y) :
    Dated fun x => seen x ∨ s.Finds d x := by
  refine ⟨fun x hx => hx.elim (h.place_ne_nil x) Finds.place_ne_nil, ?_⟩
  rintro x y (hx | hx) (hy | hy) hplace htime
  · exact h.eq_of_time x y hx hy hplace htime
  · exact (hnew y x hy hx hplace.symm htime.symm).symm
  · exact hnew x y hx hy hplace htime
  · exact hx.eq_of_place hy hplace

namespace OutlineCache

theorem Truthful.mono {seen' : SourceState → Prop} {entries : Dict Outline} (h : Truthful seen entries)
    (hseen : ∀ x, seen x → seen' x) : Truthful seen' entries := fun key o hget =>
  let ⟨x, hx, hkey⟩ := h key o hget
  ⟨x, hseen x hx, hkey⟩

theorem entries_loaded_of_holds {d : Disk} {l : Location} (h : d.holds l = false) (root : String) :
    (loaded d root l).entries = {} := by
  rw [loaded, Disk.read]
  cases ha : d.access l with
  | error e => rfl
  | ok node => cases (Disk.holds_of_access ha).symm.trans h

/-- A run that spares source files leaves a cache that tells the truth. -/
theorem Lives.of_spared (hs : Path.isAbsolute s.root = true) (h : Lives s seen w) (hspared : Spared m s w w') :
    Lives s seen w' := by
  refine ⟨hspared.isOpen, hspared.later.sound h.sound, h.dated, fun x hx => h.finds x (hspared.finds hx), ?_⟩
  rcases hspared.cached with hlost | ⟨files, found, hindexable, hfound, hgrown⟩
  · rw [hlost]
    exact truthful_empty seen
  · exact Maker.truthful_of_grown hs h.finds h.truthful hindexable hfound hgrown

theorem Life.lives (h : Life s seen w) : Lives s seen w := by
  have habsolute : ∀ {w : Workspace} {root : String}, w.store root = s → Path.isAbsolute s.root = true := fun hroot =>
    hroot ▸ Workspace.isAbsolute_store _ _
  induction h with
  | start hopen hsound hcache =>
    refine ⟨hopen, hsound, dated_finds s _, fun x hx => hx, ?_⟩
    rw [entries_loaded_of_holds hcache]
    exact truthful_empty _
  | built h hroot hrun ih =>
    have hkept := Maker.kept_of_build (hroot ▸ ih.isOpen) hrun
    rw [hroot] at hkept
    exact ih.of_spared (habsolute hroot) (hkept.spared ih.isOpen)
  | builtSingle h hroot hrun ih =>
    have hkept := Maker.kept_of_buildSingle (hroot ▸ ih.isOpen) hrun
    rw [hroot] at hkept
    exact ih.of_spared (habsolute hroot) (hkept.spared ih.isOpen)
  | updated h hroot hrun ih =>
    have hspared := Update.spared_of_run (hroot ▸ ih.isOpen) hrun
    rw [hroot] at hspared
    exact ih.of_spared (habsolute hroot) hspared
  | edited h hopen hsound hcache hnew ih =>
    refine ⟨hopen, hsound, ih.dated.or hnew, fun x hx => .inr hx, ?_⟩
    rcases hcache with hsame | hgone
    · rw [entries_loaded_congr hsame]
      exact ih.truthful.mono fun _ => .inl
    · rw [entries_loaded_of_holds hgone]
      exact truthful_empty _

/-! ## Builds -/

end OutlineCache

end CodeIndex
