import CodeIndex.Proofs.Listed
import CodeIndex.Proofs.SingleBuild

set_option autoImplicit false

/-!
# What builds leave of the project

Builds, also those of one document, change nothing but the program's own places.  Of the cache they leave what was there,
with what they read from files that can be indexed.
-/

namespace CodeIndex

open Action Store Update

variable {s : Store} {m : Maker} {w w' w₁ w₂ : Workspace}

/-- What a run leaves of the project, and of the cache. -/
structure Kept (m : Maker) (s : Store) (w w' : Workspace) : Prop where
  here_eq : w'.here = w.here
  history_eq : w'.history = w.history
  agree : Disk.AgreeOff s.IsOwn w.disk w'.disk
  later : Disk.Later w.disk w'.disk
  cached : ∃ (files : List String) (found : List Maker.Finding),
    (∀ file ∈ files, Listing.indexable m.settings w s.root file = true) ∧
    files.filterMapM (m.finding? (OutlineCache.loaded w.disk s.root s.cachePlace) w s.root) = .ok found ∧
    Maker.Grown (OutlineCache.loaded w.disk s.root s.cachePlace) found (OutlineCache.loaded w'.disk s.root s.cachePlace).entries

theorem Kept.isOpen (h : Kept m s w w') (hopen : w.disk.IsOpen s.place) : w'.disk.IsOpen s.place :=
  h.agree.access_of_ok not_isOwn_place hopen

section Absolute

variable (hs : Path.isAbsolute s.root = true)

include hs

/-- Writing the cache changes nothing but the directory with the cache. -/
theorem Store.changed_of_saveQuietly {cache : OutlineCache} (hpath : cache.path = some (OutlineCache.pathIn s.root))
    {r : Except Failure Unit} (h : cache.saveQuietly.exec w = (r, w')) :
    Changed (fun l => l = s.cacheDirectory ++ [OutlineCache.fileName] ∨ l = s.cacheDirectory ++ [OutlineCache.fileName ++ ".tmp"])
      (· <+: s.cacheDirectory) w w' := by
  obtain ⟨r', hsaved⟩ := OutlineCache.save_of_saveQuietly h
  exact (OutlineCache.save_spec hpath (beside_cachePath hs w.here) hsaved).1

theorem Store.agreeOff_of_saveQuietly {cache : OutlineCache} (hpath : cache.path = some (OutlineCache.pathIn s.root))
    (hopen : w.disk.IsOpen s.place) {r : Except Failure Unit} (h : cache.saveQuietly.exec w = (r, w')) :
    Disk.AgreeOff (s.cacheDirectory <+: ·) w.disk w'.disk := by
  refine .of_frame (changed_of_saveQuietly hs hpath h).frame ?_ (fun l hl => ?_) ?_
  · rintro l (rfl | rfl) <;> exact List.prefix_append _ _
  · rcases List.prefix_concat_iff.1 hl with rfl | hp
    · exact .inl List.prefix_rfl
    · exact .inr (Disk.isOpen_of_le hopen hp)
  · rintro l (rfl | rfl) hmade <;> exact absurd hmade (Disk.not_concat_le _ _)

/-- A run that examines files, writes documents, and then the cache. -/
theorem Kept.of_written {files : List String} {found : List Maker.Finding} (hopen : w.disk.IsOpen s.place)
    (hindexable : ∀ file ∈ files, Listing.indexable m.settings w s.root file = true)
    (hfound : files.filterMapM (m.finding? (OutlineCache.loaded w.disk s.root s.cachePlace) w s.root) = .ok found)
    (halike : w.Alike w₁) (hproduced : s.Produced w₁ w₂) {r : Except Failure Unit}
    (hsave : (Maker.rememberAll (OutlineCache.loaded w.disk s.root s.cachePlace) found).saveQuietly.exec w₂ = (r, w')) :
    Kept m s w w' := by
  have hpath := Maker.path_rememberAll (OutlineCache.loaded w.disk s.root s.cachePlace) found
  have hopen₂ : w₂.disk.IsOpen s.place := hproduced.isOpen (by rw [halike.disk_eq]; exact hopen)
  have hsaved := changed_of_saveQuietly hs hpath hsave
  have hagree := hproduced.agree.trans ((agreeOff_of_saveQuietly hs hpath hopen₂ hsave).mono fun _ hl => .inr (.inl hl))
  have hlater := hproduced.later.trans hsaved.later
  have hcache := hproduced.cache
  rw [halike.disk_eq] at hagree hlater hcache
  have hhistory : w₂.history = w₁.history := by rw [hproduced.eq]
  exact ⟨hsaved.here_eq.trans (hproduced.here_eq.trans halike.here_eq),
    hsaved.history_eq.trans (hhistory.trans halike.history_eq), hagree, hlater, files, found, hindexable, hfound,
    OutlineCache.grown_of_saveQuietly hs hfound hcache hsave⟩

end Absolute

section Runs

variable {root : String} (hopen : w.disk.IsOpen (w.store root).place)

include hopen

theorem Maker.kept_of_build {core : CoreIndex} {n : Nat} (h : (m.build root).exec w = (.ok (core, n), w')) :
    Kept m (w.store root) w w' := by
  obtain ⟨files, source, commits, found, w₁, w₂, hsurveyed, -, -, -, halike, hchanged, hsave⟩ := build_spec h
  exact .of_written (w.isAbsolute_store root) hopen (Listing.files_ok hsurveyed.listed).1 hsurveyed.findings halike
    (.of_changed (by rw [halike.disk_eq]; exact hopen) hchanged) hsave

theorem Maker.kept_of_buildSingle {index : SingleIndex} {n : Nat} (h : (m.buildSingle root).exec w = (.ok (index, n), w')) :
    Kept m (w.store root) w w' := by
  obtain ⟨files, source, commits, found, w₁, w₂, hsurveyed, -, -, -, -, halike, hproduced, hsave⟩ := buildSingle_ok hopen h
  exact .of_written (w.isAbsolute_store root) hopen (Listing.files_ok hsurveyed.listed).1 hsurveyed.findings halike hproduced
    hsave

end Runs

end CodeIndex
