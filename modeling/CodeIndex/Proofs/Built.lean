import CodeIndex.Proofs.Building
import CodeIndex.Proofs.Remembered

set_option autoImplicit false

/-!
# What a build leaves for the next run

A build leaves source files alone, and the cache that it leaves holds what was there and what was read.
-/

namespace CodeIndex

open Action Store Update

variable {s : Store} {m : Maker} {w w' : Workspace} {file : String} {language : Language}

namespace Listing

/-- The listed files are indexable, in order and each once. -/
theorem files_ok {settings : Settings} {root : String} {found : List String} {source : FileSource}
    (h : ((files settings root).exec w).1 = .ok (found, source)) :
    (∀ file ∈ found, indexable settings w root file = true) ∧ found.Pairwise (· < ·) := by
  rcases hfiles : (files settings root).exec w with ⟨r, w'⟩
  rw [hfiles] at h
  obtain rfl : r = .ok (found, source) := h
  unfold files at hfiles
  obtain ⟨⟨paths, source'⟩, w₁, -, halike, hrest⟩ := (looks_candidates _ _).bind_ok hfiles
  dsimp only at hrest
  rw [exec_bind_of_ok (exec_filterM fun path _ => exec_isIndexable settings root path w₁)] at hrest
  cases hrest
  refine ⟨fun file hfile => ?_, Text.pairwise_sortedSet _⟩
  obtain ⟨-, hindexable⟩ := List.mem_filter.1 (Text.mem_sortedSet.1 hfile)
  rw [indexable_congr halike] at hindexable
  exact hindexable

theorem isWorkTree_of_files {settings : Settings} {root : String} {found : List String}
    (h : ((files settings root).exec w).1 = .ok (found, .versionControl)) :
    ((History.isWorkTree (timeout settings)).exec w).1 = .ok true := by
  rcases hfiles : (files settings root).exec w with ⟨r, w'⟩
  rw [hfiles] at h
  obtain rfl : r = .ok (found, .versionControl) := h
  unfold files at hfiles
  obtain ⟨⟨paths, source⟩, w₁, hcandidates, -, hrest⟩ := (looks_candidates _ _).bind_ok hfiles
  dsimp only at hrest
  rw [exec_bind_of_ok (exec_filterM fun path _ => exec_isIndexable settings root path w₁)] at hrest
  cases hrest
  unfold candidates at hcandidates
  obtain ⟨isTree, w₂, htree, -, hcandidates⟩ := (History.looks_isWorkTree _).bind_ok hcandidates
  rw [htree]
  cases isTree with
  | true => rfl
  | false =>
    simp only [Bool.false_eq_true, if_false] at hcandidates
    obtain ⟨walked, w₃, -, -, hcandidates⟩ := (looks_walk _).bind_ok hcandidates
    cases hcandidates

theorem language_of_indexable {settings : Settings} {root : String} (h : indexable settings w root file = true) :
    ∃ language, Language.ofPath? file = some language := by
  unfold indexable at h
  cases hlanguage : Language.ofPath? file with
  | none => simp [hlanguage] at h
  | some language => exact ⟨language, rfl⟩

end Listing

/-! ## Source files -/

section Absolute

variable (hs : Path.isAbsolute s.root = true)

include hs

theorem Store.not_isOutputPlace_of_source (here : Location) (h : Language.ofPath? file = some language) :
    ¬ s.IsOutputPlace (here.resolve (Path.join s.root file)) := by
  obtain ⟨directory, name, hplace, hname⟩ := Language.place_of_ofPath? hs here h
  rintro ⟨stem, tail, htail, heq⟩
  have hlast : name = stem ++ tail := by
    rw [hplace] at heq
    rcases heq with heq | heq <;> exact (List.append_singleton_inj.1 heq).2
  rcases htail with rfl | rfl
  · have hnone : Language.ofName (stem ++ "." ++ "json") = none := Language.ofName_append stem (by decide) (by decide)
    rw [String.append_assoc] at hnone
    cases (hlast ▸ hname).symm.trans hnone
  · have hnone : Language.ofName (stem ++ ".json" ++ "." ++ "tmp") = none :=
      Language.ofName_append (stem ++ ".json") (by decide) (by decide)
    rw [String.append_assoc, String.append_assoc] at hnone
    cases (hlast ▸ hname).symm.trans hnone

/-- A source file is none of the files with the cache. -/
theorem Store.not_cachePlace_of_source (here : Location) (h : Language.ofPath? file = some language) :
    ¬ (here.resolve (Path.join s.root file) = s.place ++ [OutlineCache.directory] ++ [OutlineCache.fileName] ∨
      here.resolve (Path.join s.root file) =
        s.place ++ [OutlineCache.directory] ++ [OutlineCache.fileName ++ ".tmp"]) := by
  obtain ⟨directory, name, hplace, hname⟩ := Language.place_of_ofPath? hs here h
  rw [hplace]
  rintro (heq | heq)
  · obtain ⟨-, rfl⟩ := List.append_singleton_inj.1 heq
    have hnone : Language.ofName OutlineCache.fileName = none := by decide
    cases hname.symm.trans hnone
  · obtain ⟨-, rfl⟩ := List.append_singleton_inj.1 heq
    have hnone : Language.ofName (OutlineCache.fileName ++ ".tmp") = none := by decide
    cases hname.symm.trans hnone

end Absolute

/-! ## The cache after a build -/

theorem Store.not_isOutputPlace_prefix_cachePlace {l : Location} (h : s.IsOutputPlace l) : ¬ l <+: s.cachePlace := by
  have hfirst : ∀ name rest, s.place ++ name :: rest <+: s.cachePlace → name = OutlineCache.directory := by
    intro name rest hprefix
    rw [cachePlace, List.append_assoc, List.prefix_append_right_inj] at hprefix
    obtain ⟨more, hmore⟩ := hprefix
    exact (List.cons.inj hmore).1
  intro hprefix
  obtain ⟨stem, tail, htail, rfl | rfl⟩ := h
  · have hname := congrArg (fun name : String => name.toList.getLast?) (hfirst _ _ hprefix)
    rcases htail with rfl | rfl <;> simp [OutlineCache.directory] at hname
  · rw [shardsPlace, List.append_assoc] at hprefix
    exact absurd (hfirst _ _ hprefix) (by decide)

theorem OutlineCache.entries_loaded_congr {d d' : Disk} {place : Location} (h : d'.access place = d.access place)
    (root : String) : (loaded d' root place).entries = (loaded d root place).entries := by
  rw [loaded, loaded, Disk.read_congr h]

/-- A cache that was written is read back. -/
theorem OutlineCache.entries_loaded {d : Disk} {place : Location} {entries : Dict Outline}
    (h : d.read place = .ok (toJson entries).render.toUTF8) (root : String) : (loaded d root place).entries = entries := by
  rw [loaded, h]
  simp only [fromUTF8?_toUTF8, Option.bind_some, Json.read?_render (counting_toJson entries), entries?_toJson,
    Option.getD_some]

/-- Where a cache is saved there is that cache, or what was there. -/
theorem OutlineCache.entries_of_saveQuietly (hs : Path.isAbsolute s.root = true) {c : OutlineCache}
    (hpath : c.path = some (pathIn s.root)) {r : Except Failure Unit} (h : c.saveQuietly.exec w = (r, w')) :
    (loaded w'.disk s.root s.cachePlace).entries = c.entries ∨ w'.disk.access s.cachePlace = w.disk.access s.cachePlace := by
  obtain ⟨r', hsaved⟩ := save_of_saveQuietly h
  obtain ⟨-, ⟨hwritten, -⟩ | hsame⟩ := save_spec hpath (beside_cachePath hs w.here) hsaved
  · exact .inl (entries_loaded hwritten s.root)
  · exact .inr hsame

/-- The cache that a run writes last holds what was there and what was read. -/
theorem OutlineCache.grown_of_saveQuietly (hs : Path.isAbsolute s.root = true) {d : Disk} {files : List String}
    {found : List Maker.Finding} {v : Workspace}
    (hfound : files.filterMapM (m.finding? (loaded d s.root s.cachePlace) v s.root) = .ok found)
    (hcache : w.disk.access s.cachePlace = d.access s.cachePlace) {r : Except Failure Unit}
    (hsave : (Maker.rememberAll (loaded d s.root s.cachePlace) found).saveQuietly.exec w = (r, w')) :
    Maker.Grown (loaded d s.root s.cachePlace) found (loaded w'.disk s.root s.cachePlace).entries := by
  rcases entries_of_saveQuietly hs (Maker.path_rememberAll _ _) hsave with hentries | hsame
  · rw [hentries]
    exact Maker.grown_rememberAll hfound
  · rw [entries_loaded_congr (hsame.trans hcache)]
    exact .refl _ _

/-- What a build left. -/
structure Built (m : Maker) (s : Store) (w w' : Workspace) (core : CoreIndex) (files : List String) (source : FileSource)
    (commits : Dict Commit) (found : List Maker.Finding) : Prop where
  surveyed : Surveyed m s w files source commits found
  core_eq : core = builtCore m s (Maker.recordAll commits Analysis.empty found) files source w.now
  holding : Holding s w'.disk core (Maker.recordAll commits Analysis.empty found)
  here_eq : w'.here = w.here
  isOpen : ∀ {l}, w.disk.IsOpen l → w'.disk.IsOpen l
  kept : ∀ {file language bytes time}, Language.ofPath? file = some language →
    w.disk.access (w.here.resolve (Path.join s.root file)) = .ok (.file bytes time) →
    w'.disk.access (w.here.resolve (Path.join s.root file)) = w.disk.access (w.here.resolve (Path.join s.root file))
  remembered : Maker.Grown (OutlineCache.loaded w.disk s.root s.cachePlace) found
    (OutlineCache.loaded w'.disk s.root s.cachePlace).entries

theorem Maker.built_of_build {root : String} (hskip : m.settings.skipDetails = false) {core : CoreIndex} {n : Nat}
    (h : (m.build root).exec w = (.ok (core, n), w')) :
    ∃ files source commits found, Built m (w.store root) w w' core files source commits found := by
  have hs := w.isAbsolute_store root
  obtain ⟨files, source, commits, found, w₁, w₂, hsurveyed, hcore, hholding, halike, hchanged, hsave⟩ := build_ok hskip h
  generalize w.store root = s at *
  obtain ⟨r, hsaved⟩ := OutlineCache.save_of_saveQuietly hsave
  obtain ⟨hcached, -⟩ := OutlineCache.save_spec (path_rememberAll _ _) (beside_cachePath hs w₂.here) hsaved
  have hhere : w'.here = w.here := hcached.here_eq.trans (hchanged.here_eq.trans halike.here_eq)
  have hbefore : w₂.disk.access s.cachePlace = w.disk.access s.cachePlace := by
    rw [← halike.disk_eq]
    refine hchanged.frame.access_eq (fun t ht hp => absurd hp (not_isOutputPlace_prefix_cachePlace ht)) fun hmade => ?_
    have hlen := hmade.length_le
    simp [cachePlace, shardsPlace] at hlen
  have hopen : ∀ {l}, w.disk.IsOpen l → w'.disk.IsOpen l := by
    intro l hl
    rw [← halike.disk_eq] at hl
    exact hcached.frame.isOpen (hchanged.frame.isOpen hl)
  refine ⟨files, source, commits, found, hsurveyed, hcore, hholding, hhere, hopen,
    fun {file language bytes time} hlanguage haccess => ?_,
    OutlineCache.grown_of_saveQuietly hs hsurveyed.findings hbefore hsave⟩
  rw [← halike.disk_eq] at haccess ⊢
  have hfirst := hchanged.frame.file_eq haccess (not_isOutputPlace_of_source hs w.here hlanguage)
  exact (hcached.frame.file_eq (hfirst.trans haccess) (not_cachePlace_of_source hs w.here hlanguage)).trans hfirst

end CodeIndex
