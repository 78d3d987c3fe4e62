import CodeIndex.Proofs.Made
import CodeIndex.Proofs.MigrationMatches

set_option autoImplicit false

/-!
# The analysis behind an index

However an index came about, it is known which analysis made it: that of the listed files when it was built, or when the
document was that it was migrated from, with what every update found since laid over it.  The index tells of just the
files that this analysis tells of.
-/

namespace CodeIndex

open Action Store Update Update.Membership

variable {s : Store} {m m₀ : Maker} {core : CoreIndex} {a b fresh : Analysis} {c : ChangeSet} {w w' v v' : Workspace}
  {files files' : List String}

/-! ## Files that an analysis tells of -/

namespace Analysis

/-- The analysis tells of these files, which a listing may take up, and of no others.  It has a synopsis of documentation
    alone. -/
structure Covers (a : Analysis) (files : List String) : Prop where
  plain : ∀ file ∈ files, Plain file
  known : ∀ file, (a.details.get? file).isSome = true ↔ file ∈ files
  named : ∀ file entry, a.details.get? file = some entry → Language.ofPath? file = some entry.language
  documented : ∀ file, (a.docs.get? file).isSome = (a.details.get? file).any fun entry => entry.language.isDocumentation

namespace Covers

theorem congr (h : a.Covers files) (hfiles : ∀ file, file ∈ files' ↔ file ∈ files) : a.Covers files' :=
  ⟨fun file hfile => h.plain file ((hfiles file).1 hfile), fun file => (h.known file).trans (hfiles file).symm, h.named,
    h.documented⟩

theorem of_same (h : a.Covers files) (hsame : a.Same b) : b.Covers files :=
  ⟨h.plain, hsame.details ▸ h.known, hsame.details ▸ h.named, hsame.details ▸ hsame.docs ▸ h.documented⟩

theorem details_eq_none (h : a.Covers files) {file : String} (hfile : file ∉ files) : a.details.get? file = none := by
  rw [← Option.not_isSome_iff_eq_none, h.known]
  exact hfile

theorem docs_eq_none (h : a.Covers files) {file : String} (hfile : file ∉ files) : a.docs.get? file = none := by
  rw [← Option.not_isSome_iff_eq_none, h.documented, h.details_eq_none hfile]
  exact Bool.false_ne_true

/-- What is laid over an analysis comes to the files that it tells of, and removed ones go. -/
theorem overlay (h : a.Covers files) (hfresh : fresh.Covers files') (removed : List String) :
    (a.overlay fresh removed).Covers (files.filter (· ∉ removed) ++ files') := by
  constructor
  · intro file hfile
    rcases List.mem_append.1 hfile with hold | hnew
    · exact h.plain file (List.mem_filter.1 hold).1
    · exact hfresh.plain file hnew
  · intro file
    rw [get?_details_overlay, List.mem_append, List.mem_filter, ← h.known, ← hfresh.known]
    cases fresh.details.get? file with
    | some entry => simp
    | none => by_cases hremoved : file ∈ removed <;> simp [hremoved]
  · intro file entry hentry
    rw [get?_details_overlay] at hentry
    cases hget : fresh.details.get? file with
    | some e =>
      rw [hget, Option.some_or] at hentry
      exact hfresh.named file entry (hget.trans hentry)
    | none =>
      rw [hget, Option.none_or] at hentry
      split at hentry
      · cases hentry
      · exact h.named file entry hentry
  · intro file
    have hdocs := hfresh.documented file
    rw [get?_docs_overlay, get?_details_overlay]
    cases hget : fresh.details.get? file with
    | some e =>
      have hcontains : fresh.details.contains file = true := Dict.contains_iff.2 ⟨e, hget⟩
      rw [hget] at hdocs
      rw [if_pos (.inr hcontains), Option.or_none, hdocs, Option.some_or]
    | none =>
      have hcontains : ¬ fresh.details.contains file = true := by
        rw [Dict.contains_iff]
        rintro ⟨e, he⟩
        cases hget.symm.trans he
      rw [hget] at hdocs
      rw [Option.not_isSome_iff_eq_none.1 (ne_true_of_eq_false hdocs), Option.none_or, Option.none_or]
      by_cases hremoved : file ∈ removed
      · rw [if_pos (.inl hremoved), if_pos hremoved]
        rfl
      · rw [if_neg (not_or.2 ⟨hremoved, hcontains⟩), if_neg hremoved]
        exact h.documented file

end Covers

end Analysis

namespace Maker

variable {cache : OutlineCache} {root : String} {commits : Dict Commit}

theorem Examined.language_entry (e : Examined) (language : Language) (commit : Option Commit) :
    (e.entry language commit).language = language := by
  cases e <;> rfl

/-- There is a synopsis of just those files that are documentation. -/
theorem isSome_doc? {d : Disk} {place : Location} {file : String} {language : Language} {e : Examined}
    (h : m.examinedAt cache d place file language = .ok e) : e.doc?.isSome = language.isDocumentation := by
  rw [examinedAt] at h
  split at h
  · next hdoc =>
    cases h
    exact hdoc.symm
  · next hdoc =>
    rw [Bool.eq_false_iff.2 hdoc]
    split at h
    · cases h
      rfl
    · split at h
      · cases h
        rfl
      · rw [sourceAt] at h
        split at h
        · cases h
          rfl
        · split at h
          · cases h
            rfl
          · cases h
            rfl
          · cases h

/-- An analysis that tells of every file what an examination may find, and of no others, covers the files. -/
theorem covers_of_entries (hplain : ∀ file ∈ files, Plain file)
    (hinside : ∀ file ∈ files, ∃ (language : Language) (e : Examined) (commit : Option Commit),
      Language.ofPath? file = some language ∧ e.doc?.isSome = language.isDocumentation ∧
      a.details.get? file = some (e.entry language commit) ∧ a.docs.get? file = e.doc?)
    (houtside : ∀ file ∉ files, a.details.get? file = none ∧ a.docs.get? file = none) : a.Covers files := by
  constructor
  · exact hplain
  · intro file
    by_cases hfile : file ∈ files
    · obtain ⟨language, e, commit, -, -, hdetails, -⟩ := hinside file hfile
      simp [hdetails, hfile]
    · simp [(houtside file hfile).1, hfile]
  · intro file entry hentry
    by_cases hfile : file ∈ files
    · obtain ⟨language, e, commit, hl, -, hdetails, -⟩ := hinside file hfile
      rw [hdetails] at hentry
      cases hentry
      rw [hl, Examined.language_entry]
    · rw [(houtside file hfile).1] at hentry
      cases hentry
  · intro file
    by_cases hfile : file ∈ files
    · obtain ⟨language, e, commit, -, hdoc, hdetails, hdocs⟩ := hinside file hfile
      rw [hdetails, hdocs, Option.any_some, hdoc, Examined.language_entry]
    · rw [(houtside file hfile).1, (houtside file hfile).2]
      rfl

/-- An analysis of files that can be indexed tells of all of them. -/
theorem Analysed.covers {v : Workspace} {root' : String} (h : m.Analysed cache w root commits files a)
    (hindexable : ∀ file ∈ files, Listing.indexable m.settings v root' file = true) : a.Covers files := by
  apply covers_of_entries (fun file hfile => Listing.plain_of_indexable (hindexable file hfile)) _ h.outside
  intro file hfile
  obtain ⟨language, hl⟩ := Listing.language_of_indexable (hindexable file hfile)
  obtain ⟨e, he, hdetails, hdocs⟩ := h.inside file hfile language hl
  exact ⟨language, e, commits.get? file, hl, isSome_doc? he, hdetails, hdocs⟩

/-- Analyses of the same files at the same time tell the same. -/
theorem Analysed.same (h : m.Analysed cache w root commits files a) (h' : m.Analysed cache w root commits files b)
    (hlanguage : ∀ file ∈ files, ∃ language, Language.ofPath? file = some language) : a.Same b := by
  apply Analysis.Same.of_get?
  intro file
  by_cases hfile : file ∈ files
  · obtain ⟨language, hl⟩ := hlanguage file hfile
    obtain ⟨e, he, hdetails, hdocs⟩ := h.inside file hfile language hl
    obtain ⟨e', he', hdetails', hdocs'⟩ := h'.inside file hfile language hl
    obtain rfl : e = e' := Except.ok.inj (he.symm.trans he')
    exact ⟨hdetails.trans hdetails'.symm, hdocs.trans hdocs'.symm⟩
  · exact ⟨(h.outside file hfile).1.trans (h'.outside file hfile).1.symm,
      (h.outside file hfile).2.trans (h'.outside file hfile).2.symm⟩

/-- What an analysis of some files of a project finds at this moment. -/
def review (m : Maker) (root : String) (files : List String) : Action Analysis := do
  let cache ← OutlineCache.load root
  let commits ← Listing.commits m.settings .versionControl
  let (a, _) ← m.analyse root files cache commits
  return a

theorem fst_exec_review (hs : Path.isAbsolute s.root = true) (files : List String) (w : Workspace) :
    ((m.review s.root files).exec w).1 =
      (files.filterMapM (m.finding? (OutlineCache.loaded w.disk s.root s.cachePlace) w s.root)).map
        (recordAll (Listing.known m.settings w.history .versionControl) Analysis.empty) := by
  obtain ⟨w₁, hcommits, halike⟩ := Listing.exec_commits m.settings .versionControl w
  rw [review, exec_bind_of_ok (exec_loadCache hs _), exec_bind_of_ok hcommits, exec_bind, exec_analyse,
    finding?_of_alike halike]
  cases files.filterMapM (m.finding? (OutlineCache.loaded w.disk s.root s.cachePlace) w s.root) <;> rfl

theorem review_ok (hs : Path.isAbsolute s.root = true) (h : ((m.review s.root files).exec w).1 = .ok a) :
    m.Analysed (OutlineCache.loaded w.disk s.root s.cachePlace) w s.root
      (Listing.known m.settings w.history .versionControl) files a := by
  rw [fst_exec_review hs] at h
  cases hfound : files.filterMapM (m.finding? (OutlineCache.loaded w.disk s.root s.cachePlace) w s.root) with
  | error f =>
    rw [hfound] at h
    cases h
  | ok found =>
    rw [hfound] at h
    cases h
    exact analysed_of_findings hfound

end Maker

/-- What a survey is made of is known from what it surveys. -/
theorem Surveyed.unique {source source' : FileSource} {commits commits' : Dict Commit} {found found' : List Maker.Finding}
    (h : Surveyed m s w files source commits found) (h' : Surveyed m s w files' source' commits' found') :
    files = files' ∧ source = source' ∧ commits = commits' ∧ found = found' := by
  have hlisted := h.listed
  rw [h'.listed] at hlisted
  cases hlisted
  have hlogged := h.logged.trans h'.logged.symm
  have hfound := h.findings
  rw [h'.findings] at hfound
  cases hfound
  exact ⟨rfl, rfl, hlogged, rfl⟩

theorem Surveyed.covers {source : FileSource} {commits : Dict Commit} {found : List Maker.Finding}
    (h : Surveyed m s w files source commits found) : (Maker.recordAll commits Analysis.empty found).Covers files :=
  h.analysed.covers (Listing.files_ok h.listed).1

theorem Maker.surveyed_of_survey (hs : Path.isAbsolute s.root = true) {source : FileSource} {cache : OutlineCache}
    (h : ((m.survey s.root).exec w).1 = .ok (files, source, a, cache)) :
    ∃ commits found, Surveyed m s w files source commits found ∧ a = recordAll commits Analysis.empty found := by
  have hexec : (m.survey s.root).exec w = (.ok (files, source, a, cache), ((m.survey s.root).exec w).2) := by rw [← h]
  obtain ⟨-, commits, found, hsurveyed, ha, -⟩ := survey_ok hs hexec
  exact ⟨commits, found, hsurveyed, ha⟩

/-! ## Indices that an analysis makes -/

/-- There is a shard for every module. -/
def CoreIndex.HasShards (core : CoreIndex) : Prop := core.hashes.isEmpty = true → core.modules.isEmpty = true

theorem Holding.of_same {d : Disk} (h : Holding s d core a) (hsame : a.Same b) : Holding s d core b := by
  refine ⟨⟨h.consistent, h.divides, ?_, ?_, ?_⟩, h.read, h.version⟩
  · rw [h.critical, Analysis.docsOf, Analysis.docsOf, hsame.docs]
  · rw [h.hashes, hsame.hashes_eq]
  · intro id hid
    rw [← hsame.bytesOf?_eq]
    exact h.shards id hid

/-- The index on a disk is all that a maker makes of an analysis, and tells of the files that the analysis tells of. -/
structure Standing (s : Store) (m : Maker) (d : Disk) (core : CoreIndex) (a : Analysis) : Prop extends
    Holding s d core a where
  made : core = a.core (Path.displayName s.root) core.madeAt (modulesOf core) (a.hashes (modulesOf core))
    core.stats.fileSource (Layout.detect? (modulesOf core).files) m.settings
  covers : a.Covers (modulesOf core).files

namespace Standing

variable {d d' : Disk}

theorem of_same (h : Standing s m d core a) (hsame : a.Same b) : Standing s m d core b := by
  refine ⟨h.toHolding.of_same hsame, ?_, h.covers.of_same hsame⟩
  rw [← hsame.core_eq, ← hsame.hashes_eq]
  exact h.made

theorem hasShards (h : Standing s m d core a) : core.HasShards := by
  intro hempty
  rw [h.hashes, Analysis.hashes, Dict.isEmpty_map, modulesOf, Dict.isEmpty_map] at hempty
  exact hempty

theorem congr (h : Standing s m d core a) (hcore : d'.read s.corePlace = d.read s.corePlace)
    (hshards : ∀ id ∈ core.modules.keys, d'.read (s.shardPlace id) = d.read (s.shardPlace id)) :
    Standing s m d' core a :=
  ⟨⟨h.toSharded.congr fun id hid => hshards id (mem_keys_modulesOf.1 hid), hcore.trans h.read, h.version⟩, h.made, h.covers⟩

/-- An analysis makes the index that a core index made from it says. -/
theorem of_core {madeAt : String} {modules : ModuleMap} {source : FileSource} {layout : Option Layout}
    (h : Holding s d (a.core (Path.displayName s.root) madeAt modules (a.hashes modules) source layout m.settings) a)
    (hlayout : layout = Layout.detect? modules.files) (hcovers : a.Covers modules.files) :
    Standing s m d (a.core (Path.displayName s.root) madeAt modules (a.hashes modules) source layout m.settings) a := by
  have hmodules := a.modulesOf_core (Path.displayName s.root) madeAt modules (a.hashes modules) source layout m.settings
  refine ⟨h, ?_, ?_⟩
  · rw [hmodules, ← hlayout]
    rfl
  · rw [hmodules]
    exact hcovers

end Standing

/-- A division of some files into modules has these files. -/
theorem Maker.mem_files_division (m : Maker) (files : List String) (file : String) :
    file ∈ (m.division files).files ↔ file ∈ files :=
  ModuleMap.mem_files.trans (m.divides_division files).mem_iff.symm

theorem standing_builtCore {source : FileSource} {now : String} {d : Disk}
    (h : Holding s d (builtCore m s a files source now) a) (hcovers : a.Covers files) :
    Standing s m d (builtCore m s a files source now) a :=
  Standing.of_core h (Layout.detect?_congr fun file => (m.mem_files_division files file).symm)
    (hcovers.congr (m.mem_files_division files))

/-! ## Updates -/

namespace Update

/-- What an update makes its documents from is the analysis that made the index, with what was found now laid over it. -/
theorem renewed_same_overlay (hcovers : a.Covers (modulesOf core).files) (hcritical : core.critical = a.docsOf .critical) :
    (renewed core a fresh c).Same (a.overlay fresh c.removed.keys) := by
  have hfiles := ModuleMap.files_eq_flatMap (modulesOf core)
  apply Analysis.Same.of_get?
  intro file
  rw [renewed, Analysis.get?_details_overlay, Analysis.get?_details_overlay, Analysis.get?_docs_overlay,
    Analysis.get?_docs_overlay, Analysis.get?_details_ofIndex, Analysis.get?_docs_ofIndex hcritical, ← hfiles]
  by_cases hfile : file ∈ (modulesOf core).files
  · rw [if_pos hfile, if_pos hfile]
    exact ⟨rfl, rfl⟩
  · rw [if_neg hfile, if_neg hfile, hcovers.details_eq_none hfile, hcovers.docs_eq_none hfile]
    exact ⟨rfl, rfl⟩

/-- What an update makes its documents from tells of just the files that are in the modules then. -/
theorem covers_renewed {membership : Membership} (h : Standing s m₀ w.disk core a) (hr : Regrouped core c membership)
    (hfresh : fresh.Covers c.modified.keys) : (renewed core a fresh c).Covers membership.modules.files := by
  have hover : (a.overlay fresh c.removed.keys).Covers
      ((modulesOf core).files.filter (· ∉ c.removed.keys) ++ c.modified.keys) := h.covers.overlay hfresh c.removed.keys
  refine (hover.of_same (renewed_same_overlay h.covers h.critical).symm).congr fun file => ?_
  exact ModuleMap.mem_files.trans hr.divides_files.mem_iff.symm

/-- An update that changes an index lays what it found over the analysis that made the index. -/
theorem standing_of_renewed {importers touched : List String} (h : Standing s m₀ w.disk core a)
    (hr : Renewed s m core a c w w' importers fresh) (hsorted : Sorted m s.root core w touched c) :
    Standing s m w'.disk (renewedCore m s core (renewed core a fresh c) (after core c importers).modules w.now)
      (a.overlay fresh c.removed.keys) := by
  have hfresh := hr.analysed.covers fun file hfile => ((hsorted.modified file).1 hfile).2
  have hcovers := covers_renewed h hr.regrouped hfresh
  exact (Standing.of_core hr.holding rfl hcovers).of_same (renewed_same_overlay h.covers h.critical)

/-- What it found is what an analysis of the modified files finds at that moment. -/
theorem standing_of_review {importers touched : List String} (h : Standing s m₀ w.disk core a)
    (hr : Renewed s m core a c w w' importers fresh) (hsorted : Sorted m s.root core w touched c)
    (hs : Path.isAbsolute s.root = true) (hreview : ((m.review s.root c.modified.keys).exec w).1 = .ok b) :
    Standing s m w'.disk (renewedCore m s core (renewed core a fresh c) (after core c importers).modules w.now)
      (a.overlay b c.removed.keys) := by
  have hsame : fresh.Same b := hr.analysed.same (Maker.review_ok hs hreview) fun file hfile =>
    Listing.language_of_indexable ((hsorted.modified file).1 hfile).2
  exact (standing_of_renewed h hr hsorted).of_same (hsame.overlay a c.removed.keys)

/-- Only an index with shards is updated. -/
theorem hasShards_of_run {root : String} {o : UpdateOutcome} (hcore : (w.store root).coreOn? w.disk = some core)
    (h : (run m root).exec w = (.ok o, w')) : core.HasShards := by
  have hs := w.isAbsolute_store root
  unfold run at h
  obtain ⟨resolved, w₁, hroot, -, h⟩ := (Maker.looks_resolveRoot root).bind_ok h
  obtain ⟨rfl, -, rfl⟩ := Maker.resolveRoot_ok hroot
  change (do
    let core ← Store.readCore (w₁.store root)
    check m (w₁.store root).root core).exec w₁ = _ at h
  generalize w₁.store root = s at h hs hcore
  obtain ⟨core', w₂, hreadCore, -, h⟩ := (looks_readCore s).bind_ok h
  obtain rfl : core' = core := Option.some.inj ((coreOn?_of_readCore hs hreadCore).1.symm.trans hcore)
  rcases exec_check hs m core' w₂ with ⟨⟨f, hcheck⟩, -⟩ | ⟨-, hshards, -⟩
  · cases hcheck.symm.trans h
  · intro hempty
    simpa [hempty] using hshards

end Update

/-! ## Histories -/

/-- An index was made by builds, migrations of documents that the program wrote, and updates, with whatever happened in
    between to other files.  The maker is that of the last run which wrote the index, and the analysis is the one behind
    it. -/
inductive Tracked (s : Store) : Maker → Workspace → Analysis → Prop
  | built {m : Maker} {root : String} {w w' : Workspace} {r : CoreIndex × Nat} {files : List String} {source : FileSource}
      {a : Analysis} {cache : OutlineCache} (hroot : w.store root = s)
      (hsurvey : ((m.survey s.root).exec w).1 = .ok (files, source, a, cache))
      (h : (m.build root).exec w = (.ok r, w')) : Tracked s m w' a
  | migrated {m m₀ : Maker} {root root₀ : String} {v v' w w' : Workspace} {r : SingleIndex × Nat} {files : List String}
      {source : FileSource} {a : Analysis} {cache : OutlineCache} {core : CoreIndex} (hleads : v.Leads root₀ s)
      (hsurvey : ((m₀.survey s.root).exec v).1 = .ok (files, source, a, cache))
      (hsingle : (m₀.buildSingle root₀).exec v = (.ok r, v'))
      (hdocument : w.disk.read s.corePlace = v'.disk.read s.corePlace) (hroot : w.store root = s)
      (h : (Migration.run m root).exec w = (.ok (.migrated core), w')) : Tracked s m w' a
  | updated {m m₀ : Maker} {root : String} {w w' : Workspace} {a fresh : Analysis} {core : CoreIndex} {c : ChangeSet}
      {ids changed : List String} (hw : Tracked s m₀ w a) (hroot : w.store root = s) (hcore : s.coreOn? w.disk = some core)
      (hchanges : ((Update.changes m s.root core).exec w).1 = .ok c)
      (hreview : ((m.review s.root c.modified.keys).exec w).1 = .ok fresh)
      (h : (Update.run m root).exec w = (.ok (.updated ids changed), w')) :
      Tracked s m w' (a.overlay fresh c.removed.keys)
  | unchanged {m m₀ : Maker} {root : String} {w w' : Workspace} {a : Analysis} (hw : Tracked s m₀ w a)
      (hroot : w.store root = s) (h : (Update.run m root).exec w = (.ok .unchanged, w')) : Tracked s m₀ w' a
  | later {m : Maker} {w w' : Workspace} {a : Analysis} (hw : Tracked s m w a)
      (hcore : w'.disk.read s.corePlace = w.disk.read s.corePlace)
      (hshards : ∀ core, s.coreOn? w.disk = some core → ∀ id ∈ core.modules.keys,
        w'.disk.read (s.shardPlace id) = w.disk.read (s.shardPlace id)) : Tracked s m w' a

/-- A build leaves an index that the analysis of its files makes, or one without shards when the settings say so. -/
theorem Wrote.standing {source : FileSource} {now : String} {d : Disk} (h : Wrote m s a files core d)
    (hcore : core = { builtCore m s a files source now with hashes := m.recorded a files }) (hcovers : a.Covers files) :
    Standing s m d core a ∨ m.settings.skipDetails = true ∧ ¬ core.HasShards := by
  have hstanding : m.recorded a files = a.hashes (m.division files) → m.sharded files = (m.division files).keys →
      Standing s m d core a := by
    intro hrecorded hsharded
    have hbuilt : core = builtCore m s a files source now := by
      rw [hcore, hrecorded]
      rfl
    rw [hbuilt] at h ⊢
    have hshards := h.shards
    rw [hsharded] at hshards
    exact standing_builtCore ⟨Sharded.of_core (m.divides_division files) hshards _ _ _ _ _, h.read, rfl⟩ hcovers
  cases hskip : m.settings.skipDetails with
  | false =>
    apply Or.inl
    apply hstanding
    · rw [Maker.recorded, hskip]
      rfl
    · rw [Maker.sharded, hskip]
      rfl
  | true =>
    by_cases hempty : m.division files = ∅
    · apply Or.inl
      apply hstanding
      · rw [Maker.recorded, if_pos hskip, hempty]
        rfl
      · rw [Maker.sharded, if_pos hskip, hempty]
        rfl
    · refine .inr ⟨rfl, fun hshards => hempty ?_⟩
      have hmodules : core.modules = Dict.map (fun id files => a.moduleEntry id files) (m.division files) := by
        rw [hcore]
        rfl
      have hnone : core.hashes.isEmpty = true := by
        rw [hcore, Maker.recorded, if_pos hskip]
        rfl
      have hall := hshards hnone
      rw [hmodules, Dict.isEmpty_map] at hall
      exact Dict.isEmpty_iff_eq.1 hall

theorem Maker.standing_of_build {root : String} {r : CoreIndex × Nat} {source : FileSource} {cache : OutlineCache}
    (hroot : w.store root = s) (hsurvey : ((m.survey s.root).exec w).1 = .ok (files, source, a, cache))
    (h : (m.build root).exec w = (.ok r, w')) :
    ∃ core, s.coreOn? w'.disk = some core ∧
      (Standing s m w'.disk core a ∨ m.settings.skipDetails = true ∧ ¬ core.HasShards) := by
  subst hroot
  obtain ⟨core, n⟩ := r
  have hs := w.isAbsolute_store root
  obtain ⟨commits, found, hsurveyed, rfl⟩ := surveyed_of_survey hs hsurvey
  obtain ⟨files', source', commits', found', w₁, w₂, hsurveyed', hcore, -, hwrote, -, -, hsave⟩ := build_spec h
  obtain ⟨rfl, rfl, rfl, rfl⟩ := hsurveyed.unique hsurveyed'
  replace hwrote := hwrote.of_saveQuietly hs (path_rememberAll _ _) hsave
  refine ⟨core, ?_, hwrote.standing hcore hsurveyed.covers⟩
  rw [Store.coreOn?, hwrote.read]
  exact decode?_encode CoreIndex.readsBack core

/-- A migration of a document that the program wrote leaves an index that the analysis of the document makes. -/
theorem Migration.standing_of_run {root root₀ : String} {r : SingleIndex × Nat} {source : FileSource} {cache : OutlineCache}
    (hleads : v.Leads root₀ s) (hsurvey : ((m₀.survey s.root).exec v).1 = .ok (files, source, a, cache))
    (hsingle : (m₀.buildSingle root₀).exec v = (.ok r, v')) (hdocument : w.disk.read s.corePlace = v'.disk.read s.corePlace)
    (hroot : w.store root = s) (h : (run m root).exec w = (.ok (.migrated core), w')) :
    Standing s m w'.disk core a := by
  obtain ⟨index, n⟩ := r
  have hs := hleads.isAbsolute
  have hopen : v.disk.IsOpen s.place := by
    unfold Maker.buildSingle at hsingle
    obtain ⟨resolved, v₁, hresolved, -, -⟩ := (Maker.looks_resolveRoot root₀).bind_ok hsingle
    rw [← hleads.resolve_eq]
    exact (Maker.resolveRoot_ok hresolved).2.1
  obtain ⟨commits, found, hsurveyed, rfl⟩ := Maker.surveyed_of_survey hs hsurvey
  obtain ⟨hread, -, -, -, files', source', commits', found', hsurveyed', hsame, -, -, -⟩ :=
    Maker.document_of_buildSingle hleads hopen hsingle
  obtain ⟨rfl, rfl, rfl, rfl⟩ := hsurveyed.unique hsurveyed'
  have hcovers : (Analysis.ofSingle index).Covers (Analysis.ofSingle index).files := by
    refine (hsurveyed.covers.of_same ⟨hsame.details.symm, hsame.docs.symm⟩).congr fun file => ?_
    rw [Analysis.files, hsame.details, ← hsurveyed.files_eq]
    rfl
  have hcourse := course h
  rw [hroot] at hcourse
  cases hcourse with
  | done hfound hbackup hconversion =>
    obtain rfl : _ = encode index := Except.ok.inj (hfound.read.symm.trans (hdocument.trans hread))
    obtain rfl : _ = index :=
      Option.some.inj (hfound.decoded.symm.trans (decode?_encode SingleIndex.readsBack index))
    have hholding := holding_of_convert hs hconversion
    obtain ⟨rfl, -⟩ := (convert_ok hs).1 hconversion
    exact (standing_builtCore hholding hcovers).of_same hsame

/-- The index is there, and stands for its analysis unless it was made without shards. -/
theorem standing_or_bare (h : Tracked s m w a) :
    ∃ core, s.coreOn? w.disk = some core ∧
      (Standing s m w.disk core a ∨ m.settings.skipDetails = true ∧ ¬ core.HasShards) := by
  induction h with
  | built hroot hsurvey h => exact Maker.standing_of_build hroot hsurvey h
  | migrated hleads hsurvey hsingle hdocument hroot h =>
    have hstanding := Migration.standing_of_run hleads hsurvey hsingle hdocument hroot h
    exact ⟨_, hstanding.coreOn?, .inl hstanding⟩
  | updated hw hroot hcore hchanges hreview h ih =>
    subst hroot
    obtain ⟨core', hcore', hstanding | ⟨-, hbare⟩⟩ := ih
    · obtain rfl := Option.some.inj (hcore.symm.trans hcore')
      obtain ⟨touched, c', -, hchanges', hsorted, importers, fresh', hrenewed⟩ :=
        (run_spec hstanding.toHolding h).2.2 _ _ rfl
      obtain rfl := Except.ok.inj (hchanges.symm.trans hchanges')
      have hnew := standing_of_review hstanding hrenewed hsorted (Workspace.isAbsolute_store _ _) hreview
      exact ⟨_, hnew.coreOn?, .inl hnew⟩
    · exact absurd (hasShards_of_run hcore' h) hbare
  | unchanged hw hroot h ih =>
    subst hroot
    obtain ⟨core, hcore, hstanding | ⟨-, hbare⟩⟩ := ih
    · have halike := (run_spec hstanding.toHolding h).2.1 rfl
      rw [halike.disk_eq]
      exact ⟨core, hcore, .inl hstanding⟩
    · exact absurd (hasShards_of_run hcore h) hbare
  | later hw hread hshards ih =>
    obtain ⟨core, hcore, hstanding⟩ := ih
    refine ⟨core, ?_, hstanding.imp_left fun hstanding => hstanding.congr hread (hshards core hcore)⟩
    rw [Store.coreOn?, hread]
    exact hcore

namespace Tracked

theorem isAbsolute (h : Tracked s m w a) : Path.isAbsolute s.root = true := by
  induction h with
  | built hroot => exact hroot ▸ Workspace.isAbsolute_store _ _
  | migrated hleads => exact hleads.isAbsolute
  | updated _ _ _ _ _ _ ih => exact ih
  | unchanged _ _ _ ih => exact ih
  | later _ _ _ ih => exact ih

/-- Where there are shards the index stands for its analysis. -/
theorem standing (h : Tracked s m w a) (hcore : s.coreOn? w.disk = some core) (hshards : core.HasShards) :
    Standing s m w.disk core a := by
  obtain ⟨core', hcore', hstanding | ⟨-, hbare⟩⟩ := standing_or_bare h
  · obtain rfl := Option.some.inj (hcore.symm.trans hcore')
    exact hstanding
  · obtain rfl := Option.some.inj (hcore.symm.trans hcore')
    exact absurd hshards hbare

/-- So it does where the settings ask for shards. -/
theorem standing_of_shards (h : Tracked s m w a) (hskip : m.settings.skipDetails = false) :
    ∃ core, Standing s m w.disk core a := by
  obtain ⟨core, -, hstanding | ⟨hbare, -⟩⟩ := standing_or_bare h
  · exact ⟨core, hstanding⟩
  · rw [hskip] at hbare
    cases hbare

end Tracked

/-- A build of the project with one document, and the index that it leaves. -/
theorem tracked_documented : ∃ core n w a,
    ((Maker.ofSettings .default).build ".").exec Migration.documented = (.ok (core, n), w) ∧
    Tracked ⟨"/demo"⟩ (Maker.ofSettings .default) w a ∧ Standing ⟨"/demo"⟩ (Maker.ofSettings .default) w.disk core a ∧
    w.Leads "." ⟨"/demo"⟩ ∧ core.allFiles = ["README.md"] ∧ ∃ source cache,
      (((Maker.ofSettings .default).survey "/demo").exec Migration.documented).1 = .ok (["README.md"], source, a, cache) := by
  have hleads : Migration.documented.Leads "." ⟨"/demo"⟩ := ⟨by decide +kernel, by decide +kernel⟩
  have hbuilds : endsOk (fun r _ => r.1.allFiles == ["README.md"])
      (((Maker.ofSettings .default).build ".").exec Migration.documented) = true := by decide +kernel
  have hlists : endsOk (fun r _ => r.1 == ["README.md"])
      (((Maker.ofSettings .default).survey "/demo").exec Migration.documented) = true := by decide +kernel
  obtain ⟨⟨core, n⟩, w, hbuild, hall⟩ := endsOk_iff.1 hbuilds
  obtain ⟨⟨files, source, a, cache⟩, w₁, hsurvey, hfiles⟩ := endsOk_iff.1 hlists
  obtain rfl : files = ["README.md"] := by simpa using hfiles
  obtain ⟨files, source', commits, found, hbuilt⟩ := Maker.built_of_build rfl hbuild
  have htracked : Tracked ⟨"/demo"⟩ (Maker.ofSettings .default) w a :=
    .built hleads.store_eq (congrArg Prod.fst hsurvey) hbuild
  have hholding := hbuilt.holding
  rw [hleads.store_eq] at hholding
  obtain ⟨core', hstanding⟩ := htracked.standing_of_shards rfl
  obtain rfl := Option.some.inj (hholding.coreOn?.symm.trans hstanding.coreOn?)
  exact ⟨core, n, w, a, hbuild, htracked, hstanding, hleads.congr hbuilt.here_eq, by simpa using hall, source, cache,
    congrArg Prod.fst hsurvey⟩

end CodeIndex
