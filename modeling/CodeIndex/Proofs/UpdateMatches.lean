import CodeIndex.Proofs.AsBuilt

set_option autoImplicit false

/-!
# Updates against builds

Run at the same moment, an update and a build leave the same index, or both stop at a source that cannot be scanned.
-/

namespace CodeIndex.Update

open Action Store CodeIndex.Update.Membership

variable {s : Store} {m : Maker} {root : String} {w w' v v' : Workspace} {core : CoreIndex} {files touched : List String}
  {source : FileSource} {commits : Dict Commit} {found : List Maker.Finding}

section Revised

variable (hopen : w.disk.IsOpen (w.here.resolve root)) (h : Built m (w.store root) w w' core files source commits found)
  (hr : Revised m (w.store root) core files touched w w' v)

include h hr

theorem Revised.store_eq : v.store root = w.store root := by
  rw [Workspace.store, Workspace.store, hr.here_eq, h.here_eq]

include hopen

theorem Revised.exec_resolveRoot : (Maker.resolveRoot root).exec v = (.ok (w.store root).root, v) := by
  have hstays := Revised.isOpen h hr hopen
  rw [← h.here_eq, ← hr.here_eq] at hstays
  rw [Maker.exec_resolveRoot hstays, Revised.store_eq h hr]

/-- The update is what follows once the index was read and checked. -/
theorem Revised.exec_run : (run m root).exec v = (proceed m (w.store root).root core).exec v := by
  have hs := w.isAbsolute_store root
  have hresolve := Revised.exec_resolveRoot hopen h hr
  have hholding := Revised.holding hs h hr
  rw [← Revised.store_eq h hr] at hresolve hholding ⊢
  exact Update.exec_run hholding hresolve

/-- A build goes on where its survey ends. -/
theorem Revised.build_error {f : Failure} (h' : ((m.survey (w.store root).root).exec v).1 = .error f) :
    ∃ v', (m.build root).exec v = (.error f, v') := by
  rcases hsurvey : (m.survey (w.store root).root).exec v with ⟨r, v₁⟩
  rw [hsurvey] at h'
  obtain rfl : r = .error f := h'
  refine ⟨v₁, ?_⟩
  unfold Maker.build
  rw [exec_bind_of_ok (Revised.exec_resolveRoot hopen h hr), exec_bind_of_error hsurvey]

/-- Where an update fails, but not because of the disk, a build stops at a source that cannot be scanned. -/
theorem Revised.fails (hx : ∃ f, ((run m root).exec v).1 = .error f ∧ ¬ f.IsStorage) :
    ∃ f v', (m.build root).exec v = (.error f, v') ∧ f.cause = .unscannable := by
  have hs := w.isAbsolute_store root
  obtain ⟨f, hf, hstorage⟩ := hx
  obtain ⟨c, hchanges, hmodified, hremoved⟩ := Revised.changes h hr
  rcases hrun : (run m root).exec v with ⟨r, v'⟩
  rw [hrun] at hf
  obtain rfl : r = .error f := hf
  rw [Revised.exec_run hopen h hr] at hrun
  obtain ⟨hfails, -⟩ := proceed_of_changes hs (Revised.holding hs h hr) (fun file _ => hremoved file) hchanges hrun
  obtain ⟨file, hfile, hfinding⟩ := (hfails f rfl).resolve_left hstorage
  have hsurvey := Maker.fst_exec_survey hs hr.lists
  cases hfound : files.filterMapM (m.finding? (OutlineCache.loaded v.disk (w.store root).root (w.store root).cachePlace) v
      (w.store root).root) with
  | ok found' =>
    obtain ⟨o, ho⟩ := (Maker.filterMapM_ok hfound).1 file ((hmodified file).1 hfile).2
    cases ho.symm.trans hfinding
  | error f' =>
    rw [hfound] at hsurvey
    obtain ⟨v'', hbuild⟩ := Revised.build_error hopen h hr hsurvey
    obtain ⟨file', -, hfinding'⟩ := Maker.filterMapM_error hfound
    exact ⟨f', v'', hbuild, Maker.finding?_error hfinding'⟩

variable (hapart : Maker.KeysApart w (w.store root).root files)

include hapart

/-- After an update the index is what an analysis of all files makes, and such an analysis does not stop. -/
theorem Revised.succeeds {o : UpdateOutcome} (hx : (run m root).exec v = (.ok o, v')) :
    (∃ found', files.filterMapM (m.finding? (OutlineCache.loaded v.disk (w.store root).root (w.store root).cachePlace) v
      (w.store root).root) = .ok found') ∧
    ∃ core' a, Holding (w.store root) v'.disk core' a ∧ ∀ b,
      m.Analysed (OutlineCache.loaded v.disk (w.store root).root (w.store root).cachePlace) v (w.store root).root
        (Listing.known m.settings v.history .versionControl) files b →
      a.Same b ∧ ∀ now, builtCore m (w.store root) b files .versionControl now = { core' with madeAt := now } := by
  have hs := w.isAbsolute_store root
  obtain ⟨c, hchanges, hmodified, hremoved⟩ := Revised.changes h hr
  rw [Revised.exec_run hopen h hr] at hx
  have hholding := Revised.holding hs h hr
  obtain ⟨-, hunchanged, hupdated⟩ := proceed_of_changes hs hholding (fun file _ => hremoved file) hchanges hx
  cases o with
  | unchanged =>
    obtain ⟨hempty, halike⟩ := hunchanged rfl
    have hnone : ∀ file, ¬ (file ∈ touched ∧ file ∈ files) := by
      intro file hfile
      have hmem := (hmodified file).2 hfile
      rw [ChangeSet.isEmpty, Bool.and_eq_true, Dict.isEmpty_iff_eq] at hempty
      rw [hempty.1] at hmem
      cases hmem
    refine ⟨Revised.findings hs h hr hapart fun file hfile hin => absurd ⟨hin, hfile⟩ (hnone file), core, _,
      halike.disk_eq.symm ▸ hholding, fun b hb => ?_⟩
    have hsame : (Maker.recordAll commits Analysis.empty found).Same b :=
      Analysis.Same.of_get? fun file => Revised.kept hs h hr hapart hb (hnone file)
    refine ⟨hsame, fun now => ?_⟩
    rw [h.core_eq, builtCore_of_same hsame, Revised.source_eq h hr]
    exact builtCore_now _ _ _ _
  | updated ids changed =>
    obtain ⟨importers, fresh, hrenewed⟩ := hupdated ids changed rfl
    have hmodules := Built.modules_after h hrenewed.regrouped (fun file hfile => ((hmodified file).1 hfile).2) hremoved
    refine ⟨Revised.findings hs h hr hapart fun file hfile hin language hlanguage => ?_, _, _, hrenewed.holding,
      fun b hb => ?_⟩
    · obtain ⟨e, he, -⟩ := hrenewed.analysed.inside file ((hmodified file).2 ⟨hin, hfile⟩) language hlanguage
      exact ⟨e, he⟩
    · have hsame := Revised.renewed_same hs h hr hapart hrenewed hmodified hremoved hb
      exact ⟨hsame, fun now => Revised.core_eq h hr hmodules hsame⟩

end Revised

/-- After contents changed, an update and a build at the same moment come to the same.  If the update fails, it was
    the disk, or a source cannot be scanned, at which the build stops too.  Otherwise the build fails only because of
    the disk, and the index that it writes is the one that the update wrote, but for the time. -/
theorem update_matches_build {m : Maker} {root : String} {w w' v : Workspace} {core : CoreIndex} {n : Nat}
    {files touched : List String} (hshards : m.settings.skipDetails = false)
    (hbuild : (m.build root).exec w = (.ok (core, n), w'))
    (hrevised : Revised m (w.store root) core files touched w w' v)
    (hapart : Maker.KeysApart w (w.store root).root files) :
    (∀ f v', (run m root).exec v = (.error f, v') → f.IsStorage ∨
      ∃ f' v'', (m.build root).exec v = (.error f', v'') ∧ f'.cause = .unscannable) ∧
    ∀ o v', (run m root).exec v = (.ok o, v') →
      (∀ f v'', (m.build root).exec v = (.error f, v'') → f.IsStorage) ∧
      ∀ built k v'', (m.build root).exec v = (.ok (built, k), v'') →
        ∃ updated, (w.store root).SameIndex v'.disk v''.disk updated built := by
  have hs := w.isAbsolute_store root
  have hopen := Maker.isOpen_of_build hbuild
  obtain ⟨files', source, commits, found, h⟩ := Maker.built_of_build hshards hbuild
  cases h.surveyed.listed.symm.trans hrevised.listed
  refine ⟨fun f v' hx => ?_, fun o v' hx => ?_⟩
  · by_cases hstorage : f.IsStorage
    · exact .inl hstorage
    · exact .inr (Revised.fails hopen h hrevised ⟨f, by rw [hx], hstorage⟩)
  · obtain ⟨⟨found', hfound'⟩, core', a, hholding, hsame⟩ := Revised.succeeds hopen h hrevised hapart hx
    refine ⟨fun f v'' hy => ?_, fun built k v'' hy => ?_⟩
    · rcases Maker.build_error hy with hroot | ⟨resolved, hroot, hsurvey⟩ | hstorage
      · cases hroot.symm.trans (Revised.exec_resolveRoot hopen h hrevised)
      · cases hroot.symm.trans (Revised.exec_resolveRoot hopen h hrevised)
        have hbad := Maker.fst_exec_survey hs hrevised.lists
        rw [hsurvey, hfound'] at hbad
        cases hbad
      · exact hstorage
    · obtain ⟨files', source', commits', found'', h'⟩ := Maker.built_of_build hshards hy
      rw [Revised.store_eq h hrevised] at h'
      cases h'.surveyed.listed.symm.trans hrevised.lists
      obtain rfl := h'.surveyed.logged
      obtain ⟨hanalyses, hcore⟩ := hsame _ (Maker.analysed_of_findings h'.surveyed.findings)
      refine ⟨core', .of_holding hholding h'.holding hanalyses ?_⟩
      have heq := h'.core_eq.trans (hcore v.now)
      rw [heq]

/-- A project with one file, which is under version control. -/
def tracked : Workspace where
  disk := ⟨[(["demo"], .directory), (["demo", "README.md"], .file "# Old".toUTF8 1)], 2, 0, []⟩
  here := ["demo"]
  history := fun q => .output (if q = .isWorkTree then "true" else if q = .files then "README.md" else "").toUTF8
  asked := []
  now := "2026-01-01T00:00:00Z"
  unrestored := []

/-- The project after a build, when the file was written anew and version control reports it. -/
def edited : Workspace :=
  let w := (((Maker.ofSettings .default).build ".").exec tracked).2
  { w with
    disk := w.disk.put ["demo", "README.md"] (.file "# New".toUTF8 9)
    history := fun q => .output
      (if q = .isWorkTree then "true" else if q = .files ∨ q = .uncommitted then "README.md" else "").toUTF8 }

theorem revised_edited {core : CoreIndex} {n : Nat} {w' : Workspace}
    (hbuild : ((Maker.ofSettings .default).build ".").exec tracked = (.ok (core, n), w')) :
    Revised (Maker.ofSettings .default) (tracked.store ".") core ["README.md"] ["README.md"] tracked w' edited := by
  obtain ⟨files, source, commits, found, h⟩ := Maker.built_of_build (by decide) hbuild
  have hstore : tracked.store "." = ⟨"/demo"⟩ := by decide +kernel
  have hplace : tracked.here.resolve (Path.join "/demo" "README.md") = ["demo", "README.md"] := by decide +kernel
  have hedited : edited.disk = w'.disk.put ["demo", "README.md"] (.file "# New".toUTF8 9) ∧ edited.here = w'.here := by
    rw [edited, hbuild]
    exact ⟨rfl, rfl⟩
  rw [hstore] at h ⊢
  have hbefore : tracked.disk.access ["demo", "README.md"] = .ok (.file "# Old".toUTF8 1) := rfl
  have hkept := h.kept (show Language.ofPath? "README.md" = some .markdown by decide) (hplace ▸ hbefore)
  rw [hplace, hbefore] at hkept
  have hmade : core.madeAt = "2026-01-01T00:00:00Z" := by
    rw [h.core_eq]
    rfl
  refine ⟨hedited.2, fun l hl => ?_, fun file hfile _ => hfile, ?_, ?_, ?_, ?_, fun file hfile _ => hfile⟩
  · have hne := hl "README.md" (by simp)
    rw [h.here_eq, hplace] at hne
    rw [hedited.1]
    exact Disk.access_put_file hkept hne
  · rw [hmade]
    decide +kernel
  · decide +kernel
  · decide +kernel
  · intro file hfile hnot
    exact absurd hfile hnot

theorem update_matches_build_edited : ∃ core n w',
    ((Maker.ofSettings .default).build ".").exec tracked = (.ok (core, n), w') ∧
    (∀ f v', (run (Maker.ofSettings .default) ".").exec edited = (.error f, v') → f.IsStorage ∨
      ∃ f' v'', ((Maker.ofSettings .default).build ".").exec edited = (.error f', v'') ∧ f'.cause = .unscannable) ∧
    ∀ o v', (run (Maker.ofSettings .default) ".").exec edited = (.ok o, v') →
      (∀ f v'', ((Maker.ofSettings .default).build ".").exec edited = (.error f, v'') → f.IsStorage) ∧
      ∀ built k v'', ((Maker.ofSettings .default).build ".").exec edited = (.ok (built, k), v'') →
        ∃ updated, (tracked.store ".").SameIndex v'.disk v''.disk updated built := by
  rcases hbuild : ((Maker.ofSettings .default).build ".").exec tracked with ⟨f | ⟨core, n⟩, w'⟩
  · have hok : (((Maker.ofSettings .default).build ".").exec tracked).1.isOk = true := by decide +kernel
    rw [hbuild] at hok
    cases hok
  · have hapart : Maker.KeysApart tracked (tracked.store ".").root ["README.md"] := by
      intro file hfile file' hfile' _ _ _
      rw [List.mem_singleton.1 hfile, List.mem_singleton.1 hfile']
    exact ⟨core, n, w', rfl, update_matches_build (by decide) hbuild (revised_edited hbuild) hapart⟩

end CodeIndex.Update
