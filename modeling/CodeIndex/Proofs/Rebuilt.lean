import CodeIndex.Proofs.StorageFailure
import CodeIndex.Proofs.Surveys
import CodeIndex.Proofs.Unseen

set_option autoImplicit false

/-!
# Builds of one project

Builds of one project come to the same index, if the caches agree: when one succeeds, so does the other, or the disk did not
do what it was to do.  If it was the cache alone that was taken away, not even the disk makes a difference.
-/

namespace CodeIndex

open Action Store Update

/-- A path leads to the project of a store. -/
structure Workspace.Leads (w : Workspace) (root : String) (s : Store) : Prop where
  store_eq : w.store root = s
  resolve_eq : w.here.resolve root = s.place

variable {s : Store} {m : Maker} {w w' v : Workspace} {root : String}

theorem Workspace.Leads.isAbsolute (h : w.Leads root s) : Path.isAbsolute s.root = true :=
  h.store_eq ▸ w.isAbsolute_store root

theorem Workspace.Leads.congr (h : w.Leads root s) (hhere : v.here = w.here) : v.Leads root s :=
  ⟨by rw [← h.store_eq, store, store, hhere], by rw [hhere, h.resolve_eq]⟩

theorem Workspace.Leads.exec_resolveRoot (h : w.Leads root s) (hopen : w.disk.IsOpen s.place) :
    (Maker.resolveRoot root).exec w = (.ok s.root, w) := by
  rw [Maker.exec_resolveRoot (h.resolve_eq ▸ hopen), h.store_eq]

/-- Where a survey succeeds a build does, unless the disk fails. -/
theorem Maker.build_of_surveyed (hw : w.Leads root s) (hopen : w.disk.IsOpen s.place) {files : List String}
    {source : FileSource} {commits : Dict Commit} {found : List Finding} (h : Surveyed m s w files source commits found) :
    (∃ w', (m.build root).exec w = (.ok ({ builtCore m s (recordAll commits Analysis.empty found) files source w.now with
          hashes := m.recorded (recordAll commits Analysis.empty found) files },
        (recordAll commits Analysis.empty found).skipped), w') ∧
      Wrote m s (recordAll commits Analysis.empty found) files
        { builtCore m s (recordAll commits Analysis.empty found) files source w.now with
          hashes := m.recorded (recordAll commits Analysis.empty found) files } w'.disk) ∨
      ∃ f w', (m.build root).exec w = (.error f, w') ∧ f.IsStorage := by
  have hs := hw.isAbsolute
  rcases hbuild : (m.build root).exec w with ⟨f | ⟨core, n⟩, w'⟩
  · refine .inr ⟨f, w', rfl, ?_⟩
    rcases build_error hbuild with hroot | ⟨resolved, hroot, hsurvey⟩ | hstorage
    · rw [hw.exec_resolveRoot hopen] at hroot
      cases hroot
    · rw [hw.exec_resolveRoot hopen] at hroot
      cases hroot
      have hfound := fst_exec_survey hs h.listed
      rw [h.findings, hsurvey] at hfound
      cases hfound
    · exact hstorage
  · obtain ⟨files', source', commits', found', w₁, w₂, hsurveyed, rfl, rfl, hwrote, -, -, hsave⟩ := build_spec hbuild
    rw [hw.store_eq] at hsurveyed hwrote hsave
    replace hwrote := hwrote.of_saveQuietly hs (path_rememberAll _ _) hsave
    -- Both surveys are one.
    obtain ⟨rfl, rfl⟩ := Prod.mk.inj (Except.ok.inj (h.listed.symm.trans hsurveyed.listed))
    obtain rfl := Except.ok.inj (h.findings.symm.trans hsurveyed.findings)
    obtain rfl : commits = commits' := h.logged.trans hsurveyed.logged.symm
    rw [hw.store_eq]
    exact .inl ⟨w', rfl, hwrote⟩

end CodeIndex
