import CodeIndex.Proofs.Built
import CodeIndex.Proofs.Made
import CodeIndex.Proofs.SameIndex
import CodeIndex.Proofs.StorageFailure

set_option autoImplicit false

/-!
# Updates come to what builds come to

After the contents of some files changed, an update leaves the documents that a build would write at that moment, if
every changed file is reported and no file is reported that a build would not list.  Files that are not reported are
as they were when the index was made, so that what the shards tell of them is what an analysis would find again.
-/

namespace CodeIndex

open Action Store Update Update.Membership

variable {s : Store} {m : Maker} {w w' v v' : Workspace} {a b : Analysis}

namespace Maker

theorem isOpen_of_build {root : String} {r : CoreIndex × Nat} (h : (m.build root).exec w = (.ok r, w')) :
    w.disk.IsOpen (w.here.resolve root) := by
  unfold build at h
  obtain ⟨resolved, w₁, hroot, -, -⟩ := (looks_resolveRoot root).bind_ok h
  exact (resolveRoot_ok hroot).2.1

end Maker

/-! ## What is found again -/

/-- A file that is as it was when an index was built is found to be what it was found to be then. -/
theorem Built.examined_again {core : CoreIndex} {files : List String} {source : FileSource} {commits : Dict Commit}
    {found : List Maker.Finding} (h : Built m s w w' core files source commits found) (hs : Path.isAbsolute s.root = true)
    (hapart : Maker.KeysApart w s.root files) (hhere : v.here = w'.here)
    (hcache : v.disk.access s.cachePlace = w'.disk.access s.cachePlace) {file : String} {language : Language}
    (hfile : file ∈ files) (hlanguage : Language.ofPath? file = some language)
    (hsame : v.disk.access (w.here.resolve (Path.join s.root file)) = w'.disk.access (w.here.resolve (Path.join s.root file))) :
    (m.examinedAt (OutlineCache.loaded v.disk s.root s.cachePlace) v.disk (v.here.resolve (Path.join s.root file)) file
        language).map Maker.Examined.result =
      (m.examinedAt (OutlineCache.loaded w.disk s.root s.cachePlace) w.disk (w.here.resolve (Path.join s.root file)) file
        language).map Maker.Examined.result := by
  obtain ⟨bytes, time, hbefore⟩ := Listing.access_of_indexable ((Listing.files_ok h.surveyed.listed).1 file hfile)
  have haccess := hsame.trans (h.kept hlanguage hbefore)
  rw [hhere, h.here_eq, Maker.examinedAt_congr haccess,
    Maker.examinedAt_entries (OutlineCache.entries_loaded_congr hcache s.root)]
  exact Maker.examinedAt_of_grown hs hapart h.surveyed.findings h.remembered hfile hlanguage

/-- What is known of the files of an index after a change, when those that did not change are as an analysis has them. -/
theorem renewed_same {core : CoreIndex} {files : List String} {fresh : Analysis} {c : ChangeSet} {cache : OutlineCache}
    {commits : Dict Commit} {root : String} (hcritical : core.critical = a.docsOf .critical)
    (hfiles : ∀ file, file ∈ (modulesOf core).files ↔ file ∈ files) (hremoved : ∀ file, file ∉ c.removed.keys)
    (hmodified : ∀ file ∈ c.modified.keys, file ∈ files)
    (hlanguage : ∀ file ∈ files, ∃ language, Language.ofPath? file = some language)
    (hfresh : m.Analysed cache v root commits c.modified.keys fresh) (hb : m.Analysed cache v root commits files b)
    (hkept : ∀ file ∉ c.modified.keys, a.details.get? file = b.details.get? file ∧ a.docs.get? file = b.docs.get? file) :
    (renewed core a fresh c).Same b := by
  refine Analysis.Same.of_get? fun path => ?_
  rw [renewed, Analysis.get?_details_overlay, Analysis.get?_docs_overlay, Analysis.get?_details_ofIndex,
    Analysis.get?_docs_ofIndex hcritical, ← ModuleMap.files_eq_flatMap]
  simp only [hremoved path, hfiles, if_false, false_or]
  by_cases hmod : path ∈ c.modified.keys
  · obtain ⟨language, hlang⟩ := hlanguage path (hmodified path hmod)
    obtain ⟨e, he, hdetails, hdocs⟩ := hfresh.inside path hmod language hlang
    obtain ⟨e', he', hdetails', hdocs'⟩ := hb.inside path (hmodified path hmod) language hlang
    obtain rfl : e = e' := Except.ok.inj (he.symm.trans he')
    have hcontains : fresh.details.contains path = true := Dict.contains_iff.2 ⟨_, hdetails⟩
    rw [hdetails, hdetails', hdocs, hdocs', hcontains, if_pos rfl, Option.or_none]
    exact ⟨rfl, rfl⟩
  · obtain ⟨hdetails, hdocs⟩ := hfresh.outside path hmod
    obtain ⟨hsame, hsameDocs⟩ := hkept path hmod
    have hcontains : ¬ fresh.details.contains path = true := by
      rw [Dict.contains, hdetails]
      exact Bool.false_ne_true
    rw [hdetails, hdocs, if_neg hcontains, Option.none_or, Option.none_or]
    by_cases hpath : path ∈ files
    · rw [if_pos hpath, if_pos hpath]
      exact ⟨hsame, hsameDocs⟩
    · obtain ⟨hnone, hnoDocs⟩ := hb.outside path hpath
      rw [if_neg hpath, if_neg hpath, hsameDocs, hnone, hnoDocs]
      exact ⟨rfl, rfl⟩

namespace Update

/-! ## Changed contents -/

/-- Since an index was built nothing but the contents of its files changed.  Version control lists the same files, reports
    those that changed, and has nothing new to tell of those that it does not report.  It reports nothing that could be
    indexed and is not listed. -/
structure Revised (m : Maker) (s : Store) (core : CoreIndex) (files touched : List String) (w w' v : Workspace) : Prop where
  here_eq : v.here = w'.here
  access_eq : ∀ l, (∀ file ∈ files, l ≠ w'.here.resolve (Path.join s.root file)) → v.disk.access l = w'.disk.access l
  reported : ∀ file ∈ files, v.disk.access (w'.here.resolve (Path.join s.root file)) ≠
    w'.disk.access (w'.here.resolve (Path.join s.root file)) → file ∈ touched
  reports : ((History.touchedSince (Listing.timeout m.settings) core.madeAt).exec v).1 = .ok touched
  listed : ((Listing.files m.settings s.root).exec w).1 = .ok (files, .versionControl)
  lists : ((Listing.files m.settings s.root).exec v).1 = .ok (files, .versionControl)
  unreported : ∀ file ∈ files, file ∉ touched → (Listing.known m.settings v.history .versionControl).get? file =
    (Listing.known m.settings w.history .versionControl).get? file
  only : ∀ file ∈ touched, Listing.indexable m.settings v s.root file = true → file ∈ files

section Revised

variable {core : CoreIndex} {files touched : List String} {source : FileSource} {commits : Dict Commit}
  {found : List Maker.Finding} (hs : Path.isAbsolute s.root = true)
  (h : Built m s w w' core files source commits found) (hr : Revised m s core files touched w w' v)

include hr in
theorem Revised.language {file : String} (hfile : file ∈ files) : ∃ language, Language.ofPath? file = some language :=
  Listing.language_of_indexable ((Listing.files_ok hr.lists).1 file hfile)

include hs hr in
/-- Index and cache are as the build left them. -/
theorem Revised.access_output {l : Location} (hl : s.IsOutputPlace l ∨ l = s.cachePlace) :
    v.disk.access l = w'.disk.access l := by
  refine hr.access_eq l ?_
  rintro file hfile rfl
  obtain ⟨language, hlanguage⟩ := hr.language hfile
  rcases hl with hl | hl
  · exact not_isOutputPlace_of_source hs w'.here hlanguage hl
  · exact not_cachePlace_of_source hs w'.here hlanguage (.inl hl)

include hs h hr

theorem Revised.holding : Holding s v.disk core (Maker.recordAll commits Analysis.empty found) := by
  refine ⟨h.holding.toSharded.congr fun id hid => Disk.read_congr ?_, ?_, h.holding.version⟩
  · refine hr.access_output hs (.inl ?_)
    have hfile : ShardFiles s [id] (s.shardPlace id) := ⟨id, by simp, .inl rfl⟩
    exact isOutputPlace_of_shardFiles (by simpa using h.holding.isValid hid) hfile
  · rw [Disk.read_congr (hr.access_output hs (.inl (isOutputPlace_corePlace (.inl rfl))))]
    exact h.holding.read

omit hs in
theorem Revised.source_eq : source = .versionControl := by
  have hlisted := h.surveyed.listed.symm.trans hr.listed
  cases hlisted
  rfl

omit hs hr in
theorem Built.mem_files {file : String} : file ∈ (modulesOf core).files ↔ file ∈ files := by
  have hdivides := Splitting.divides_modules (m.settings.splitting (Layout.detect? files)) files
  rw [h.core_eq, builtCore, Analysis.modulesOf_core, ModuleMap.mem_files]
  exact hdivides.mem_iff.symm

omit hs in
/-- Exactly the reported files of the index are taken for changed. -/
theorem Revised.changes : ∃ c, ((changes m s.root core).exec v).1 = .ok c ∧
    (∀ file, file ∈ c.modified.keys ↔ file ∈ touched ∧ file ∈ files) ∧ ∀ file, file ∉ c.removed.keys := by
  have hindexable := (Listing.files_ok hr.lists).1
  rcases changes_spec m s.root core v with ⟨-, hfails⟩ | ⟨touched', c, htouched, hchanges, hsorted⟩
  · rcases hfails with htree | ⟨f, htouched⟩
    · cases htree.symm.trans (Listing.isWorkTree_of_files hr.lists)
    · cases htouched.symm.trans hr.reports
  · obtain rfl : touched' = touched := Except.ok.inj (htouched.symm.trans hr.reports)
    refine ⟨c, hchanges, fun file => ?_, fun file hfile => ?_⟩
    · rw [hsorted.modified]
      exact ⟨fun ⟨hin, hindex⟩ => ⟨hin, hr.only file hin hindex⟩, fun ⟨hin, hfile⟩ => ⟨hin, hindexable file hfile⟩⟩
    · rcases (hsorted.removed file).1 hfile with ⟨-, hnot, hmodule⟩ | ⟨hall, hmissing⟩
      · obtain ⟨id, hid⟩ := Option.isSome_iff_exists.1 hmodule
        obtain ⟨entry, hentry, hin⟩ := h.holding.consistent.moduleFor?_eq_some.1 hid
        have hfile := (Built.mem_files h).1 (ModuleMap.mem_files.2 ⟨id, entry.files, get?_modulesOf.2 ⟨entry, hentry, rfl⟩, hin⟩)
        cases (hindexable file hfile).symm.trans hnot
      · have hfile := (Built.mem_files h).1 (ModuleMap.mem_files.2 (mem_allFiles.1 hall))
        cases (present_of_indexable (hindexable file hfile)).symm.trans hmissing

/-- What an analysis finds of a file that is not reported is what the index tells of it. -/
theorem Revised.untouched (hapart : Maker.KeysApart w s.root files) {file : String} {language : Language}
    (hfile : file ∈ files) (hnot : file ∉ touched) (hlanguage : Language.ofPath? file = some language) :
    ∃ e, m.examinedAt (OutlineCache.loaded v.disk s.root s.cachePlace) v.disk (v.here.resolve (Path.join s.root file)) file
        language = .ok e ∧
      (Maker.recordAll commits Analysis.empty found).details.get? file =
        some (e.entry language ((Listing.known m.settings v.history .versionControl).get? file)) ∧
      (Maker.recordAll commits Analysis.empty found).docs.get? file = e.doc? := by
  have hplace : v.disk.access (w.here.resolve (Path.join s.root file)) =
      w'.disk.access (w.here.resolve (Path.join s.root file)) := by
    rw [← h.here_eq]
    exact Classical.byContradiction fun hne => hnot (hr.reported file hfile hne)
  have hagain := h.examined_again hs hapart hr.here_eq (hr.access_output hs (.inr rfl)) hfile hlanguage hplace
  obtain ⟨e₀, he₀, hdetails, hdocs⟩ := (Maker.analysed_of_findings h.surveyed.findings).inside file hfile language hlanguage
  rw [he₀] at hagain
  have hcommit : commits.get? file = (Listing.known m.settings v.history .versionControl).get? file := by
    rw [h.surveyed.logged, Revised.source_eq h hr, hr.unreported file hfile hnot]
  cases he : m.examinedAt (OutlineCache.loaded v.disk s.root s.cachePlace) v.disk
      (v.here.resolve (Path.join s.root file)) file language with
  | error f =>
    rw [he] at hagain
    cases hagain
  | ok e =>
    rw [he] at hagain
    have hresult : e₀.result = e.result := (Except.ok.inj hagain).symm
    refine ⟨e, rfl, ?_, ?_⟩
    · rw [hdetails, ← hcommit, Maker.Examined.entry_congr hresult]
    · rw [hdocs, Maker.Examined.doc?_congr hresult]

/-- Where reported files can be examined all files can. -/
theorem Revised.findings (hapart : Maker.KeysApart w s.root files)
    (hreported : ∀ file ∈ files, file ∈ touched → ∀ language, Language.ofPath? file = some language →
      ∃ e, m.examinedAt (OutlineCache.loaded v.disk s.root s.cachePlace) v.disk (v.here.resolve (Path.join s.root file)) file
        language = .ok e) :
    ∃ found', files.filterMapM (m.finding? (OutlineCache.loaded v.disk s.root s.cachePlace) v s.root) = .ok found' := by
  cases hfound : files.filterMapM (m.finding? (OutlineCache.loaded v.disk s.root s.cachePlace) v s.root) with
  | ok found' => exact ⟨found', rfl⟩
  | error f =>
    obtain ⟨file, hfile, hfinding⟩ := Maker.filterMapM_error hfound
    obtain ⟨language, hlanguage⟩ := hr.language hfile
    obtain ⟨e, he⟩ : ∃ e, m.examinedAt (OutlineCache.loaded v.disk s.root s.cachePlace) v.disk
        (v.here.resolve (Path.join s.root file)) file language = .ok e := by
      by_cases hin : file ∈ touched
      · exact hreported file hfile hin language hlanguage
      · obtain ⟨e, he, -⟩ := Revised.untouched hs h hr hapart hfile hin hlanguage
        exact ⟨e, he⟩
    rw [Maker.finding?, hlanguage] at hfinding
    simp only [he] at hfinding
    cases hfinding

/-- The index and a new analysis tell the same of all files that are not reported. -/
theorem Revised.kept (hapart : Maker.KeysApart w s.root files)
    (hb : m.Analysed (OutlineCache.loaded v.disk s.root s.cachePlace) v s.root
      (Listing.known m.settings v.history .versionControl) files b) {file : String} (hnot : ¬ (file ∈ touched ∧ file ∈ files)) :
    (Maker.recordAll commits Analysis.empty found).details.get? file = b.details.get? file ∧
      (Maker.recordAll commits Analysis.empty found).docs.get? file = b.docs.get? file := by
  by_cases hfile : file ∈ files
  · obtain ⟨language, hlanguage⟩ := hr.language hfile
    obtain ⟨e, he, hdetails, hdocs⟩ := Revised.untouched hs h hr hapart hfile (fun hin => hnot ⟨hin, hfile⟩) hlanguage
    obtain ⟨e', he', hdetails', hdocs'⟩ := hb.inside file hfile language hlanguage
    obtain rfl : e = e' := Except.ok.inj (he.symm.trans he')
    exact ⟨hdetails.trans hdetails'.symm, hdocs.trans hdocs'.symm⟩
  · obtain ⟨hdetails, hdocs⟩ := (Maker.analysed_of_findings h.surveyed.findings).outside file hfile
    obtain ⟨hdetails', hdocs'⟩ := hb.outside file hfile
    exact ⟨hdetails.trans hdetails'.symm, hdocs.trans hdocs'.symm⟩

omit hs in
/-- The project's directory is still there. -/
theorem Revised.isOpen {l : Location} (hl : w.disk.IsOpen l) : v.disk.IsOpen l := by
  refine (hr.access_eq l ?_).trans (h.isOpen hl)
  rintro file hfile rfl
  obtain ⟨bytes, time, hbefore⟩ := Listing.access_of_indexable ((Listing.files_ok h.surveyed.listed).1 file hfile)
  obtain ⟨language, hlanguage⟩ := hr.language hfile
  have hopen := h.isOpen hl
  rw [h.here_eq, Disk.IsOpen, h.kept hlanguage hbefore, hbefore] at hopen
  cases hopen

omit hs hr in
/-- The layout that an update finds is the one that the build found. -/
theorem Built.layout_eq {modules : ModuleMap} (hmodules : modules = modulesOf core) :
    Layout.detect? modules.files = Layout.detect? files := by
  subst hmodules
  exact Layout.detect?_congr fun file => Built.mem_files h

omit hs hr in
theorem Built.modulesOf_eq : modulesOf core = (m.settings.splitting (Layout.detect? files)).modules files := by
  rw [h.core_eq, builtCore, Analysis.modulesOf_core]

omit hs hr in
/-- No module changes when no file comes or goes. -/
theorem Built.modules_after {c : ChangeSet} {importers : List String} (hregrouped : Regrouped core c (after core c importers))
    (hmodified : ∀ file ∈ c.modified.keys, file ∈ files) (hremoved : ∀ file, file ∉ c.removed.keys) :
    (after core c importers).modules = modulesOf core :=
  hregrouped.modules_eq h.holding.consistent (fun file hfile => (Built.mem_files h).2 (hmodified file hfile)) hremoved

omit hs in
/-- The core index that an update writes is the one that a build writes. -/
theorem Revised.core_eq {c : ChangeSet} {importers : List String} {fresh : Analysis} {now now' : String}
    (hmodules : (after core c importers).modules = modulesOf core)
    (hsame : (renewed core (Maker.recordAll commits Analysis.empty found) fresh c).Same b) :
    builtCore m s b files .versionControl now' =
      { renewedCore m s core (renewed core (Maker.recordAll commits Analysis.empty found) fresh c)
          (after core c importers).modules now with madeAt := now' } := by
  have hsource : core.stats.fileSource = .versionControl := by
    rw [h.core_eq]
    exact Revised.source_eq h hr
  rw [renewedCore, hmodules, hsource, Built.layout_eq h rfl, Built.modulesOf_eq h, hsame.hashes_eq, hsame.core_eq]
  rfl

/-- What an update made anew is what a build finds. -/
theorem Revised.renewed_same (hapart : Maker.KeysApart w s.root files) {c : ChangeSet} {importers : List String}
    {fresh : Analysis} (hrenewed : Renewed s m core (Maker.recordAll commits Analysis.empty found) c v v' importers fresh)
    (hmodified : ∀ file, file ∈ c.modified.keys ↔ file ∈ touched ∧ file ∈ files) (hremoved : ∀ file, file ∉ c.removed.keys)
    (hb : m.Analysed (OutlineCache.loaded v.disk s.root s.cachePlace) v s.root
      (Listing.known m.settings v.history .versionControl) files b) :
    (renewed core (Maker.recordAll commits Analysis.empty found) fresh c).Same b :=
  CodeIndex.renewed_same h.holding.critical (fun _ => Built.mem_files h) hremoved (fun file hfile => ((hmodified file).1 hfile).2)
    (fun _ hfile => hr.language hfile) hrenewed.analysed hb
    fun file hfile => Revised.kept hs h hr hapart hb fun hin => hfile ((hmodified file).2 hin)

end Revised

end Update

end CodeIndex
