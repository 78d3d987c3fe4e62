import CodeIndex.Proofs.AnyIndex
import CodeIndex.Proofs.Kept
import CodeIndex.Proofs.Tracked

set_option autoImplicit false

/-!
# Updates that find nothing new

Version control reports a file that was not committed at every update.  So it is examined again and again, and what was
found is laid over what the index tells of it.  Where both are the same the index stays as it is, but for the time.
-/

namespace CodeIndex

open Action Store Update Update.Membership

variable {s : Store} {m : Maker} {core : CoreIndex} {a b fresh : Analysis} {c : ChangeSet} {w w' v : Workspace}
  {files touched : List String} {file root : String}

/-! ## Files that are as the index has them -/

namespace Maker

/-- An examination of the file finds what an analysis tells of it. -/
def Confirms (m : Maker) (s : Store) (w : Workspace) (a : Analysis) (file : String) : Prop :=
  ∀ language, Language.ofPath? file = some language → ∃ e,
    m.examinedAt (OutlineCache.loaded w.disk s.root s.cachePlace) w.disk (w.here.resolve (Path.join s.root file)) file
      language = .ok e ∧
    a.details.get? file = some (e.entry language ((Listing.known m.settings w.history .versionControl).get? file)) ∧
    a.docs.get? file = e.doc?

/-- Analyses that an examination confirms tell the same of the file. -/
theorem Confirms.agree (h : m.Confirms s w a file) (h' : m.Confirms s w b file) (hplain : Plain file) :
    a.details.get? file = b.details.get? file ∧ a.docs.get? file = b.docs.get? file := by
  obtain ⟨language, hlanguage⟩ := Option.isSome_iff_exists.1 hplain.2
  obtain ⟨e, he, hdetails, hdocs⟩ := h language hlanguage
  obtain ⟨e', he', hdetails', hdocs'⟩ := h' language hlanguage
  obtain rfl : e = e' := Except.ok.inj (he.symm.trans he')
  exact ⟨hdetails.trans hdetails'.symm, hdocs.trans hdocs'.symm⟩

theorem Confirms.congr (h : m.Confirms s w a file) (hdetails : b.details.get? file = a.details.get? file)
    (hdocs : b.docs.get? file = a.docs.get? file) : m.Confirms s w b file := by
  intro language hlanguage
  rw [hdetails, hdocs]
  exact h language hlanguage

theorem Confirms.finding?_ne_error (h : m.Confirms s w a file) (f : Failure) :
    m.finding? (OutlineCache.loaded w.disk s.root s.cachePlace) w s.root file ≠ .error f := by
  intro hfinding
  unfold finding? at hfinding
  split at hfinding
  · cases hfinding
  · next language hlanguage =>
    obtain ⟨e, he, -⟩ := h language hlanguage
    rw [he] at hfinding
    cases hfinding

end Maker

/-- Nothing changes where what is laid over an analysis is what it tells already. -/
theorem Analysis.overlay_same {removed : List String} (hremoved : ∀ file, file ∉ removed) (houtside : OnlyKnows fresh files)
    (hinside : ∀ file ∈ files, (fresh.details.get? file).isSome = true ∧
      fresh.details.get? file = a.details.get? file ∧ fresh.docs.get? file = a.docs.get? file) :
    (a.overlay fresh removed).Same a := by
  apply Same.of_get?
  intro file
  by_cases hfile : file ∈ files
  · obtain ⟨hsome, hdetails, hdocs⟩ := hinside file hfile
    obtain ⟨entry, hentry⟩ := Option.isSome_iff_exists.1 hsome
    obtain ⟨hover, hdocsOver⟩ := overlay_told hentry
    exact ⟨hover.trans (hentry.symm.trans hdetails), hdocsOver.trans hdocs⟩
  · obtain ⟨hdetails, hdocs⟩ := houtside file hfile
    exact overlay_untold (hremoved file) hdetails hdocs

namespace Update

/-- No file of the index is gone, and those that are taken for modified are as the index has them. -/
structure Idle (m : Maker) (s : Store) (w : Workspace) (core : CoreIndex) (a : Analysis) (c : ChangeSet) : Prop where
  removed : ∀ file, file ∉ c.removed.keys
  modified : ∀ file ∈ c.modified.keys, file ∈ (modulesOf core).files ∧ m.Confirms s w a file

/-- What an update changes when nothing changed is the time in the core index. -/
theorem sameIndex_of_renewed {importers : List String} (h : Standing s m w.disk core a)
    (hr : Renewed s m core a c w w' importers fresh) (hidle : Idle m s w core a c) :
    s.SameIndex w.disk w'.disk core
      (renewedCore m s core (renewed core a fresh c) (after core c importers).modules w.now) := by
  have hmodules : (after core c importers).modules = modulesOf core :=
    hr.regrouped.modules_eq h.consistent (fun file hfile => (hidle.modified file hfile).1) hidle.removed
  have hover : (a.overlay fresh c.removed.keys).Same a := by
    apply Analysis.overlay_same hidle.removed hr.analysed.outside
    intro file hfile
    have hplain := h.covers.plain file (hidle.modified file hfile).1
    have hconfirms : m.Confirms s w fresh file := hr.analysed.inside file hfile
    obtain ⟨hdetails, hdocs⟩ := hconfirms.agree (hidle.modified file hfile).2 hplain
    refine ⟨?_, hdetails, hdocs⟩
    rw [hdetails, h.covers.known]
    exact (hidle.modified file hfile).1
  have hsame : (renewed core a fresh c).Same a := (renewed_same_overlay h.covers h.critical).trans hover
  apply SameIndex.of_holding h.toHolding hr.holding hsame.symm
  rw [renewedCore, hmodules, hsame.hashes_eq, hsame.core_eq]
  exact congrArg (fun core : CoreIndex => { core with madeAt := w.now }) h.made.symm

/-- An update leaves the index as it is but for the time, unless the disk fails. -/
def KeepsIndex (m : Maker) (root : String) (s : Store) (core : CoreIndex) (w : Workspace) : Prop :=
  (∀ f w', (run m root).exec w = (.error f, w') → f.IsStorage) ∧
    ∀ o w', (run m root).exec w = (.ok o, w') → ∃ core', s.SameIndex w.disk w'.disk core core'

theorem exec_run_of_standing (hleads : w.Leads root s) (h : Standing s m w.disk core a) :
    (run m root).exec w = (proceed m s.root core).exec w := by
  have hroot := hleads.exec_resolveRoot h.isOpen
  rw [← hleads.store_eq] at hroot h ⊢
  exact exec_run h.toHolding hroot

theorem keepsIndex_of_idle (hleads : w.Leads root s) (h : Standing s m w.disk core a)
    (hchanges : ((changes m s.root core).exec w).1 = .ok c) (hidle : Idle m s w core a c) : KeepsIndex m root s core w := by
  have hs := hleads.isAbsolute
  have hdisjoint : ∀ file ∈ c.modified.keys, file ∉ c.removed.keys := fun file _ => hidle.removed file
  constructor
  · intro f w' hx
    rw [exec_run_of_standing hleads h] at hx
    obtain ⟨hfails, -, -⟩ := proceed_of_changes hs h.toHolding hdisjoint hchanges hx
    rcases hfails f rfl with hstorage | ⟨file, hfile, hfinding⟩
    · exact hstorage
    · exact absurd hfinding ((hidle.modified file hfile).2.finding?_ne_error f)
  · intro o w' hx
    rw [exec_run_of_standing hleads h] at hx
    obtain ⟨-, hunchanged, hupdated⟩ := proceed_of_changes hs h.toHolding hdisjoint hchanges hx
    cases o with
    | unchanged =>
      obtain ⟨-, halike⟩ := hunchanged rfl
      rw [halike.disk_eq]
      exact ⟨core, .of_holding h.toHolding h.toHolding (.refl a) rfl⟩
    | updated ids changed =>
      obtain ⟨importers, fresh, hrenewed⟩ := hupdated ids changed rfl
      exact ⟨_, sameIndex_of_renewed h hrenewed hidle⟩

/-! ## What version control reports -/

/-- In a work tree version control reports some paths as touched since the index was made. -/
structure Reports (m : Maker) (w : Workspace) (core : CoreIndex) (touched : List String) : Prop where
  workTree : ((History.isWorkTree (Listing.timeout m.settings)).exec w).1 = .ok true
  touched : ((History.touchedSince (Listing.timeout m.settings) core.madeAt).exec w).1 = .ok touched

theorem Reports.changes (h : Reports m w core touched) (root : String) :
    ∃ c, ((changes m root core).exec w).1 = .ok c ∧ Sorted m root core w touched c := by
  rcases changes_spec m root core w with ⟨-, htree | ⟨f, hfails⟩⟩ | ⟨touched', c, htouched, hchanges, hsorted⟩
  · cases htree.symm.trans h.workTree
  · cases hfails.symm.trans h.touched
  · obtain rfl := Except.ok.inj (htouched.symm.trans h.touched)
    exact ⟨c, hchanges, hsorted⟩

/-- The files of an index that the analysis `a` made can be indexed, and a fresh analysis tells of them what `a` does. -/
structure InSync (m : Maker) (s : Store) (w : Workspace) (core : CoreIndex) (a : Analysis) : Prop where
  indexable : ∀ file ∈ core.allFiles, Listing.indexable m.settings w s.root file = true
  analysed : ∃ b, ((m.review s.root core.allFiles).exec w).1 = .ok b ∧ b.Same a

theorem InSync.confirms (hs : Path.isAbsolute s.root = true) (h : InSync m s w core a) (hfile : file ∈ core.allFiles) :
    m.Confirms s w a file := by
  obtain ⟨b, hreview, hsame⟩ := h.analysed
  have hb : m.Confirms s w b file := (Maker.review_ok hs hreview).inside file hfile
  exact hb.congr (by rw [hsame.details]) (by rw [hsame.docs])

theorem InSync.idle (hs : Path.isAbsolute s.root = true) (h : InSync m s w core a)
    (hsorted : Sorted m s.root core w touched c) (htouched : ∀ file ∈ touched, Plain file → file ∈ core.allFiles)
    (hc : core.Consistent) : Idle m s w core a c := by
  constructor
  · intro file hfile
    rcases (hsorted.removed file).1 hfile with ⟨-, hnot, hmodule⟩ | ⟨hmem, habsent⟩
    · have hmem := mem_allFiles.2 ((isSome_moduleFor? hc).1 hmodule)
      cases hnot.symm.trans (h.indexable file hmem)
    · cases habsent.symm.trans (present_of_indexable (h.indexable file hmem))
  · intro file hfile
    obtain ⟨hreported, hindexable⟩ := (hsorted.modified file).1 hfile
    have hmem := htouched file hreported (Listing.plain_of_indexable hindexable)
    exact ⟨ModuleMap.mem_files.2 (mem_allFiles.1 hmem), h.confirms hs hmem⟩

/-! ## Once more -/

/-- Between a run and a later moment nothing was edited or committed. -/
structure Undisturbed (m : Maker) (w v : Workspace) : Prop where
  disk_eq : v.disk = w.disk
  here_eq : v.here = w.here
  known_eq : Listing.known m.settings v.history .versionControl = Listing.known m.settings w.history .versionControl

/-- What an update that examined modified files left of the project, and in the cache. -/
structure Left (m : Maker) (s : Store) (w w' : Workspace) (c : ChangeSet) : Prop where
  here_eq : w'.here = w.here
  history_eq : w'.history = w.history
  agree : Disk.AgreeOff s.IsOwn w.disk w'.disk
  remembered : ∃ found, c.modified.keys.filterMapM (m.finding? (OutlineCache.loaded w.disk s.root s.cachePlace) w s.root) =
      .ok found ∧
    Maker.Grown (OutlineCache.loaded w.disk s.root s.cachePlace) found (OutlineCache.loaded w'.disk s.root s.cachePlace).entries

theorem left_of_alike (hempty : c.isEmpty = true) (h : w.Alike w') : Left m s w w' c := by
  have hnone : c.modified = ∅ := Dict.isEmpty_iff_eq.1 (Bool.and_eq_true_iff.1 hempty).1
  refine ⟨h.here_eq, h.history_eq, ?_, [], ?_, ?_⟩
  · rw [h.disk_eq]
    exact .refl _ _
  · rw [hnone]
    rfl
  · rw [h.disk_eq]
    exact .refl _ _

theorem left_of_apply (hs : Path.isAbsolute s.root = true) (h : Holding s w.disk core a)
    (hindexable : ∀ file ∈ c.modified.keys, Listing.indexable m.settings w s.root file = true) {w₁ : Workspace}
    (halike : w.Alike w₁) {o : UpdateOutcome} (hx : (apply m s.root core c).exec w₁ = (.ok o, w')) : Left m s w w' c := by
  have hvalid : ∀ id ∈ core.modules.keys, ModuleId.isValid id = true := fun id hid => h.isValid (mem_keys_modulesOf.2 hid)
  obtain ⟨found, core', w₂, w₃, hfound, ha₂, hchanged, -, -, hsave⟩ :=
    apply_ok hs h.consistent hvalid (halike.disk_eq ▸ h.isOpen) hx
  rw [Maker.finding?_of_alike halike, halike.disk_eq] at hfound
  rw [halike.disk_eq] at hsave
  have ha := halike.trans ha₂
  have hproduced : s.Produced w₂ w₃ := .of_changed (ha.disk_eq ▸ h.isOpen) hchanged
  have hkept := Kept.of_written hs h.isOpen hindexable hfound ha hproduced hsave
  have hcache := hproduced.cache
  rw [ha.disk_eq] at hcache
  exact ⟨hkept.here_eq, hkept.history_eq, hkept.agree, found, hfound, OutlineCache.grown_of_saveQuietly hs hfound hcache hsave⟩

theorem Left.confirms (hs : Path.isAbsolute s.root = true) (h : Left m s w w' c) (hapart : Maker.KeysApart w s.root c.modified.keys)
    (hv : Undisturbed m w' v) (hfile : file ∈ c.modified.keys)
    (hindexable : Listing.indexable m.settings w s.root file = true) (hconfirms : m.Confirms s w a file) :
    m.Confirms s v a file := by
  obtain ⟨found, hfound, hgrown⟩ := h.remembered
  intro language hlanguage
  obtain ⟨e, he, hdetails, hdocs⟩ := hconfirms language hlanguage
  obtain ⟨bytes, time, haccess⟩ := Listing.access_of_indexable hindexable
  have hplain := Listing.plain_of_indexable hindexable
  have haccess' := h.agree.access_of_ok (not_isOwn_of_plain hs w.here hplain) haccess
  -- the cache now knows what was found, so it is found again
  have hagain := Maker.examinedAt_of_grown hs hapart hfound hgrown hfile hlanguage
  rw [he, ← Maker.examinedAt_congr (haccess'.trans haccess.symm), ← hv.disk_eq, ← h.here_eq, ← hv.here_eq] at hagain
  cases hexamined : m.examinedAt (OutlineCache.loaded v.disk s.root s.cachePlace) v.disk
      (v.here.resolve (Path.join s.root file)) file language with
  | error f =>
    rw [hexamined] at hagain
    cases hagain
  | ok e' =>
    rw [hexamined] at hagain
    have hresult : e'.result = e.result := Except.ok.inj hagain
    refine ⟨e', rfl, ?_, ?_⟩
    · rw [hdetails, hv.known_eq, h.history_eq, Maker.Examined.entry_congr hresult]
    · rw [hdocs, Maker.Examined.doc?_congr hresult]

/-- What an update that succeeded left: an index that has all that was modified as it was found to be, and the rest as it
    was. -/
structure Finished (m : Maker) (s : Store) (w w' : Workspace) (core core' : CoreIndex) (a a' : Analysis) (c : ChangeSet) :
    Prop extends Left m s w w' c where
  standing : Standing s m w'.disk core' a'
  files : ∀ file, file ∈ (modulesOf core').files ↔
    file ∈ (modulesOf core).files ∧ file ∉ c.removed.keys ∨ file ∈ c.modified.keys
  confirms : ∀ file ∈ c.modified.keys, m.Confirms s w a' file
  others : ∀ file, file ∉ c.removed.keys → file ∉ c.modified.keys →
    a'.details.get? file = a.details.get? file ∧ a'.docs.get? file = a.docs.get? file

theorem finished_of_alike (h : Standing s m w.disk core a) (hempty : c.isEmpty = true) (halike : w.Alike w') :
    Finished m s w w' core core a a c := by
  obtain ⟨hmodified, hremoved⟩ := Bool.and_eq_true_iff.1 hempty
  rw [Dict.isEmpty_iff_eq] at hmodified hremoved
  have hnone : ∀ file, file ∉ Dict.keys (∅ : Names) := by simp [Dict.mem_keys]
  refine ⟨left_of_alike hempty halike, halike.disk_eq ▸ h, fun file => ?_, fun file hfile => ?_, fun _ _ _ => ⟨rfl, rfl⟩⟩
  · rw [hmodified, hremoved]
    simp [hnone]
  · rw [hmodified] at hfile
    exact absurd hfile (hnone file)

theorem finished_of_renewed {importers : List String} (h : Standing s m w.disk core a)
    (hr : Renewed s m core a c w w' importers fresh) (hsorted : Sorted m s.root core w touched c) (hleft : Left m s w w' c) :
    Finished m s w w' core (renewedCore m s core (renewed core a fresh c) (after core c importers).modules w.now) a
      (a.overlay fresh c.removed.keys) c := by
  refine ⟨hleft, standing_of_renewed h hr hsorted, fun file => ?_, fun file hfile => ?_, fun file hremoved hfile => ?_⟩
  · rw [modulesOf_renewedCore, ModuleMap.mem_files, ← hr.regrouped.divides_files.mem_iff, List.mem_append, List.mem_filter]
    simp
  · have hconfirms : m.Confirms s w fresh file := hr.analysed.inside file hfile
    obtain ⟨language, hlanguage⟩ := Listing.language_of_indexable ((hsorted.modified file).1 hfile).2
    obtain ⟨e, -, hdetails, -⟩ := hconfirms language hlanguage
    obtain ⟨hover, hdocs⟩ := Analysis.overlay_told hdetails
    exact hconfirms.congr (hover.trans hdetails.symm) hdocs
  · obtain ⟨hdetails, hdocs⟩ := hr.analysed.outside file hfile
    exact Analysis.overlay_untold hremoved hdetails hdocs

theorem finished_of_run (hleads : w.Leads root s) (h : Standing s m w.disk core a)
    (hchanges : ((changes m s.root core).exec w).1 = .ok c) (hsorted : Sorted m s.root core w touched c) {o : UpdateOutcome}
    (hx : (run m root).exec w = (.ok o, w')) : ∃ core' a', Finished m s w w' core core' a a' c := by
  have hs := hleads.isAbsolute
  rw [exec_run_of_standing hleads h] at hx
  obtain ⟨-, hunchanged, hupdated⟩ := proceed_of_changes hs h.toHolding hsorted.disjoint hchanges hx
  cases o with
  | unchanged =>
    obtain ⟨hempty, halike⟩ := hunchanged rfl
    exact ⟨core, a, finished_of_alike h hempty halike⟩
  | updated ids changed =>
    obtain ⟨importers, fresh, hrenewed⟩ := hupdated ids changed rfl
    obtain ⟨c', w₁, hc', halike, hx⟩ := (looks_changes m s.root core).bind_ok hx
    rw [hc'] at hchanges
    cases hchanges
    split at hx
    · cases hx
    · have hleft := left_of_apply hs h.toHolding (fun file hfile => ((hsorted.modified file).1 hfile).2) halike hx
      exact ⟨_, _, finished_of_renewed h hrenewed hsorted hleft⟩

section Again

variable {core' : CoreIndex} {a' : Analysis} {touched' : List String} {c' : ChangeSet}
  (hs : Path.isAbsolute s.root = true) (hc : core.Consistent) (h : Finished m s w w' core core' a a' c)
  (hsorted : Sorted m s.root core w touched c)

include h hsorted

include hc in
/-- What was taken for removed is no longer in the index, and all else is still there. -/
theorem Finished.stands (hfile : file ∈ (modulesOf core').files) :
    present w s.root file = true ∧ (file ∈ touched → Listing.indexable m.settings w s.root file = true) := by
  rcases (h.files file).1 hfile with ⟨hold, hkept⟩ | hmodified
  · have hmodule : (core.moduleFor? file).isSome = true := (isSome_moduleFor? hc).2 (ModuleMap.mem_files.1 hold)
    constructor
    · rw [← Bool.not_eq_false]
      intro habsent
      apply hkept
      exact (hsorted.removed file).2 (.inr ⟨mem_allFiles.2 (ModuleMap.mem_files.1 hold), habsent⟩)
    · intro htouched
      rw [← Bool.not_eq_false]
      intro hnot
      apply hkept
      exact (hsorted.removed file).2 (.inl ⟨htouched, hnot, hmodule⟩)
  · have hindexable := ((hsorted.modified file).1 hmodified).2
    exact ⟨present_of_indexable hindexable, fun _ => hindexable⟩

include hs hc in
/-- An update that follows finds nothing new, if version control reports nothing more. -/
theorem Finished.idle (hapart : Maker.KeysApart w s.root touched) (hsorted' : Sorted m s.root core' v touched' c')
    (hv : Undisturbed m w' v) (hagain : ∀ file ∈ touched', Plain file → file ∈ touched) : Idle m s v core' a' c' := by
  have hagree : Disk.AgreeOff s.IsOwn w.disk v.disk := hv.disk_eq ▸ h.agree
  have hindexable : ∀ file, Listing.indexable m.settings v s.root file = Listing.indexable m.settings w s.root file :=
    Listing.indexable_agree hs hagree
  constructor
  · intro file hfile
    have hmem : file ∈ (modulesOf core').files := by
      rcases (hsorted'.removed file).1 hfile with ⟨-, -, hmodule⟩ | ⟨hmem, -⟩
      · exact ModuleMap.mem_files.2 ((isSome_moduleFor? h.standing.consistent).1 hmodule)
      · exact ModuleMap.mem_files.2 (mem_allFiles.1 hmem)
    have hplain := h.standing.covers.plain file hmem
    obtain ⟨hpresent, hstill⟩ := h.stands hc hsorted hmem
    rcases (hsorted'.removed file).1 hfile with ⟨htouched, hnot, -⟩ | ⟨-, habsent⟩
    · rw [hindexable, hstill (hagain file htouched hplain)] at hnot
      cases hnot
    · rw [present, Location.resolve_of_isAbsolute (Path.isAbsolute_join hs) v.here w.here,
        Disk.holds_congr (hagree _ (not_isOwn_of_plain hs w.here hplain))] at habsent
      cases habsent.symm.trans hpresent
  · intro file hfile
    obtain ⟨htouched, hin⟩ := (hsorted'.modified file).1 hfile
    have hmem := hagain file htouched (Listing.plain_of_indexable hin)
    rw [hindexable] at hin
    have hmodified : file ∈ c.modified.keys := (hsorted.modified file).2 ⟨hmem, hin⟩
    refine ⟨(h.files file).2 (.inr hmodified), ?_⟩
    apply h.toLeft.confirms hs _ hv hmodified hin (h.confirms file hmodified)
    intro x hx y hy
    exact hapart x ((hsorted.modified x).1 hx).1 y ((hsorted.modified y).1 hy).1

end Again

/-- An update that finds every file as the index has it leaves all shards and digests as they are, and of the core index
    changes the time alone, whichever indexed files version control reports.  So does an update after one that
    succeeded, if nothing was edited in between. -/
theorem update_idempotent (h : Tracked s m w a) (hleads : w.Leads root s) (hcore : s.coreOn? w.disk = some core)
    (hshards : core.HasShards) (hreports : Reports m w core touched) :
    (InSync m s w core a → (∀ file ∈ touched, Plain file → file ∈ core.allFiles) → KeepsIndex m root s core w) ∧
    (Maker.KeysApart w s.root touched → ∀ o w', (run m root).exec w = (.ok o, w') →
      ∃ core', s.coreOn? w'.disk = some core' ∧ ∀ v touched', Undisturbed m w' v → Reports m v core' touched' →
        (∀ file ∈ touched', Plain file → file ∈ touched) → KeepsIndex m root s core' v) := by
  have hs := hleads.isAbsolute
  have hstanding := h.standing hcore hshards
  obtain ⟨c, hchanges, hsorted⟩ := hreports.changes s.root
  constructor
  · intro hsync htouched
    exact keepsIndex_of_idle hleads hstanding hchanges (hsync.idle hs hsorted htouched hstanding.consistent)
  · intro hapart o w' hx
    obtain ⟨core', a', hfinished⟩ := finished_of_run hleads hstanding hchanges hsorted hx
    refine ⟨core', hfinished.standing.coreOn?, ?_⟩
    intro v touched' hv hreports' hagain
    obtain ⟨c', hchanges', hsorted'⟩ := hreports'.changes s.root
    have hidle := hfinished.idle hs hstanding.consistent hsorted hapart hsorted' hv hagain
    have hleads' : v.Leads root s := hleads.congr (hv.here_eq.trans hfinished.here_eq)
    have hstanding' : Standing s m v.disk core' a' := hv.disk_eq ▸ hfinished.standing
    exact keepsIndex_of_idle hleads' hstanding' hchanges' hidle

/-- The project with one document after a build, once version control reports the document. -/
def uncommitted : Workspace :=
  { (((Maker.ofSettings .default).build ".").exec Migration.documented).2 with
    history := fun q => .output (if q = .isWorkTree then "true" else if q = .uncommitted then "README.md" else "").toUTF8 }

theorem reports_of_uncommitted (core : CoreIndex) (hw : w.history = uncommitted.history) :
    Reports (Maker.ofSettings .default) w core ["README.md"] := by
  constructor
  · rw [History.fst_exec_isWorkTree, hw]
    decide +kernel
  · have hanswers : w.history (.committedSince core.madeAt) = .output "".toUTF8 ∧
        w.history .uncommitted = .output "README.md".toUTF8 ∧ w.history .newFiles = .output "".toUTF8 := by
      rw [hw]
      exact ⟨rfl, rfl, rfl⟩
    rw [History.fst_exec_touchedSince _ hanswers.1 hanswers.2.1 hanswers.2.2]
    decide +kernel

theorem update_idempotent_uncommitted : ∃ core n w a,
    ((Maker.ofSettings .default).build ".").exec Migration.documented = (.ok (core, n), w) ∧
    Tracked ⟨"/demo"⟩ (Maker.ofSettings .default) uncommitted a ∧ uncommitted.Leads "." ⟨"/demo"⟩ ∧
    Store.coreOn? ⟨"/demo"⟩ uncommitted.disk = some core ∧ core.HasShards ∧
    Reports (Maker.ofSettings .default) uncommitted core ["README.md"] ∧
    InSync (Maker.ofSettings .default) ⟨"/demo"⟩ uncommitted core a ∧ core.allFiles = ["README.md"] ∧
    KeepsIndex (Maker.ofSettings .default) "." ⟨"/demo"⟩ core uncommitted ∧
    ∃ ids w' core', (run (Maker.ofSettings .default) ".").exec uncommitted = (.ok (.updated ids ["README.md"]), w') ∧
      Store.coreOn? ⟨"/demo"⟩ w'.disk = some core' ∧
      KeepsIndex (Maker.ofSettings .default) "." ⟨"/demo"⟩ core' { w' with now := "2026-01-03T00:00:00Z" } := by
  obtain ⟨core, n, w, a, hbuild, htracked, hstanding, hleads, hfiles, source, cache, hsurvey⟩ := tracked_documented
  have hdisk : uncommitted.disk = w.disk := by rw [uncommitted, hbuild]
  have hhere : uncommitted.here = w.here := by rw [uncommitted, hbuild]
  have hreports := reports_of_uncommitted core rfl
  have hindexable : Listing.indexable Settings.default uncommitted "/demo" "README.md" = true := by decide +kernel
  have hreview : endsOk (fun r _ => endsOk (fun b _ => decide (b.details = r.2.2.1.details ∧ b.docs = r.2.2.1.docs))
      (((Maker.ofSettings .default).review "/demo" ["README.md"]).exec uncommitted))
      (((Maker.ofSettings .default).survey "/demo").exec Migration.documented) = true := by decide +kernel
  have hproceed : ((((Maker.ofSettings .default).build ".").exec Migration.documented).1.bind fun r =>
      ((proceed (Maker.ofSettings .default) "/demo" r.1).exec uncommitted).1) = .ok (.updated ["root"] ["README.md"]) := by
    decide +kernel
  rw [endsOk, hsurvey] at hreview
  replace hreview : endsOk (fun b _ => decide (b.details = a.details ∧ b.docs = a.docs))
      (((Maker.ofSettings .default).review "/demo" ["README.md"]).exec uncommitted) = true := hreview
  rw [hbuild] at hproceed
  replace hleads : uncommitted.Leads "." ⟨"/demo"⟩ := hleads.congr hhere
  replace htracked : Tracked ⟨"/demo"⟩ (Maker.ofSettings .default) uncommitted a :=
    htracked.later (by rw [hdisk]) fun _ _ _ _ => by rw [hdisk]
  replace hstanding : Standing ⟨"/demo"⟩ (Maker.ofSettings .default) uncommitted.disk core a := by
    rw [hdisk]
    exact hstanding
  have hsync : InSync (Maker.ofSettings .default) ⟨"/demo"⟩ uncommitted core a := by
    constructor
    · rw [hfiles]
      intro file hfile
      rw [List.mem_singleton.1 hfile]
      exact hindexable
    · rw [hfiles]
      obtain ⟨b, w₁, hb, htest⟩ := endsOk_iff.1 hreview
      obtain ⟨hdetails, hdocs⟩ := of_decide_eq_true htest
      exact ⟨b, congrArg Prod.fst hb, hdetails, hdocs⟩
  obtain ⟨hkeeps, hagain⟩ := update_idempotent htracked hleads hstanding.coreOn? hstanding.hasShards hreports
  rcases hrun : (run (Maker.ofSettings .default) ".").exec uncommitted with ⟨r, w'⟩
  have hsame := exec_run_of_standing hleads hstanding
  rw [hrun] at hsame
  obtain rfl : r = .ok (.updated ["root"] ["README.md"]) := (congrArg Prod.fst hsame).trans hproceed
  have hapart : Maker.KeysApart uncommitted "/demo" ["README.md"] := by
    intro file hfile file' hfile' _ _ _
    rw [List.mem_singleton.1 hfile, List.mem_singleton.1 hfile']
  obtain ⟨core', hcore', hidle⟩ := hagain hapart _ _ hrun
  have hleft : w'.history = uncommitted.history := by
    obtain ⟨c, hchanges, hsorted⟩ := hreports.changes "/demo"
    obtain ⟨_, _, hfinished⟩ := finished_of_run hleads hstanding hchanges hsorted hrun
    exact hfinished.history_eq
  refine ⟨core, n, w, a, hbuild, htracked, hleads, hstanding.coreOn?, hstanding.hasShards, hreports, hsync, hfiles,
    hkeeps hsync (by simp [hfiles]), _, w', core', rfl, hcore', ?_⟩
  exact hidle _ ["README.md"] ⟨rfl, rfl, rfl⟩ (reports_of_uncommitted core' hleft) fun file hfile _ => hfile

end Update

end CodeIndex
