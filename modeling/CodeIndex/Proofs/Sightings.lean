import CodeIndex.Proofs.CacheLife
import CodeIndex.Proofs.Lawful

set_option autoImplicit false

/-!
# What was seen of files

The files of a plan are examined one after another, each at a moment of its own.  What is known of a file afterwards is
what its contents told at that moment.
-/

namespace CodeIndex

open Action Store Update

/-- What was found of a file, and its contents at that moment. -/
structure Sighting where
  finding : Maker.Finding
  bytes : Option ByteArray

def Sighting.file (r : Sighting) : String := r.finding.1

namespace Sighting

variable {s : Store} {m : Maker} {w : Workspace} {seen : SourceState → Prop} {cache : OutlineCache} {file : String}
  {r : Sighting} {p : Plan} {rest : List String} {done : List Sighting} {source : String → Option ByteArray}
  {ready : Disk → Prop}

/-- What the file was found to be is what its contents tell, and what the cache is to remember of it is true. -/
structure Faithful (m : Maker) (seen : SourceState → Prop) (r : Sighting) : Prop where
  language : Language.ofPath? r.file = some r.finding.2.1
  documented : r.finding.2.2.doc?.isSome = r.finding.2.1.isDocumentation
  result : ∀ bytes, r.bytes = some bytes → m.resultOf r.file r.finding.2.1 bytes = .ok r.finding.2.2.result
  remembered : ∀ o key, r.finding.2.2 = .outline o (some key) → ∃ x, seen x ∧ x.key = key ∧ x.outline? = some o

/-- The contents of a file, if they can be read. -/
def contentOf (s : Store) (w : Workspace) (file : String) : Option ByteArray :=
  (w.disk.read (w.here.resolve (Path.join s.root file))).toOption

theorem contentOf_eq_some {bytes : ByteArray} :
    contentOf s w file = some bytes ↔ w.disk.read (w.here.resolve (Path.join s.root file)) = .ok bytes := by
  unfold contentOf
  cases w.disk.read (w.here.resolve (Path.join s.root file)) <;> simp [Except.toOption]

/-- An examination with a cache that tells the truth is faithful. -/
theorem faithful_of_finding (hs : Path.isAbsolute s.root = true) (h : OutlineCache.Lives s seen w) (happart : ToldApart seen)
    (hcache : OutlineCache.Truthful seen cache.entries) (hplain : Plain file) {finding : Maker.Finding}
    (hfinding : m.finding? cache w s.root file = .ok (some finding)) :
    Faithful m seen ⟨finding, contentOf s w file⟩ ∧ finding.1 = file := by
  obtain ⟨hfile, hlanguage, hexamined⟩ := Maker.finding?_eq hfinding
  obtain ⟨name, language, e⟩ := finding
  obtain rfl : name = file := hfile
  dsimp only at hlanguage hexamined
  refine ⟨⟨hlanguage, Maker.isSome_doc? hexamined, ?_, ?_⟩, rfl⟩
  · intro bytes hbytes
    dsimp only [Sighting.file] at hbytes ⊢
    rw [contentOf_eq_some] at hbytes
    rw [← Maker.examinedAt_eq_resultOf hs happart h.dated h.finds hcache hplain hlanguage hbytes, hexamined]
    rfl
  · rintro o key rfl
    obtain ⟨-, hkey, hsource⟩ := Maker.examinedAt_outline hexamined
    cases hread : w.disk.read (w.here.resolve (Path.join s.root name)) with
    | error e =>
      rw [Maker.sourceAt, Disk.readText, hread] at hsource
      cases hsource
    | ok bytes =>
      obtain ⟨x, rfl, hplace, hfinds, hx⟩ := finds_of_read hs hplain hlanguage hread
      rw [← hplace] at hkey hsource
      rw [Maker.keyAt?_of_access hfinds.access] at hkey
      exact ⟨x, h.finds x hfinds, Option.some.inj hkey, (Maker.sourceAt_of_outline hfinds.access hx _).1 hsource⟩

/-- Some files of a plan were examined, and the rest is still to be. -/
structure Taken (m : Maker) (seen : SourceState → Prop) (p : Plan) (rest : List String) (done : List Sighting) : Prop where
  perm : (done.map Sighting.file ++ rest).Perm p.files
  faithful : ∀ r ∈ done, r.Faithful m seen

theorem Taken.start (m : Maker) (seen : SourceState → Prop) (p : Plan) : Taken m seen p p.files [] :=
  ⟨.refl _, by simp⟩

theorem Taken.next {before after : List String} (h : Taken m seen p (before ++ file :: after) done)
    (hr : r.Faithful m seen) (hfile : r.file = file) : Taken m seen p (before ++ after) (done ++ [r]) := by
  constructor
  · refine List.Perm.trans ?_ h.perm
    rw [List.map_append, List.map_singleton, hfile, List.append_assoc]
    apply List.Perm.append_left
    rw [List.singleton_append]
    exact List.perm_middle.symm
  · intro r' hr'
    rcases List.mem_append.1 hr' with hold | hnew
    · exact h.faithful r' hold
    · rw [List.mem_singleton.1 hnew]
      exact hr

/-! ## When all are taken -/

/-- What was found, in the order in which the files were examined. -/
def findings (done : List Sighting) : List Maker.Finding := done.map Sighting.finding

/-- What was read last of a file. -/
def lastRead (done : List Sighting) (source : String → Option ByteArray) (file : String) : Option ByteArray :=
  match done.find? fun r => r.file == file with
  | some r => r.bytes
  | none => source file

theorem lastRead_of_mem {content : String → Option ByteArray} (hbytes : ∀ r ∈ done, r.bytes = content r.file)
    (hr : r ∈ done) : lastRead done source r.file = content r.file := by
  unfold lastRead
  split
  · next r' hfirst =>
    have hname : r'.file = r.file := by simpa using List.find?_some hfirst
    rw [hbytes r' (List.mem_of_find?_eq_some hfirst), hname]
  · next hnone =>
    have hmissed := List.find?_eq_none.1 hnone r hr
    simp at hmissed

section Complete

variable (h : Taken m seen p [] done)

include h

theorem mem_files_of_taken : file ∈ p.files ↔ ∃ r ∈ done, r.file = file := by
  rw [← h.perm.mem_iff, List.append_nil, List.mem_map]

theorem eq_of_file (hlawful : p.Lawful s m source ready) {r' : Sighting} (hr : r ∈ done) (hr' : r' ∈ done)
    (hfile : r.file = r'.file) : r = r' := by
  have hnodup : (done.map Sighting.file).Nodup := by
    rw [← List.append_nil (done.map Sighting.file)]
    exact h.perm.nodup_iff.2 hlawful.nodup
  exact List.inj_on_of_nodup_map hnodup hr hr' hfile

/-- What was found of a file is recorded. -/
theorem recorded (hlawful : p.Lawful s m source ready) (hr : r ∈ done) :
    (Maker.recordAll p.commits Analysis.empty (findings done)).details.get? r.file =
      some (r.finding.2.2.entry r.finding.2.1 (p.commits.get? r.file)) ∧
    (Maker.recordAll p.commits Analysis.empty (findings done)).docs.get? r.file = r.finding.2.2.doc? := by
  have hmem : (r.file, r.finding.2.1, r.finding.2.2) ∈ findings done := List.mem_map_of_mem hr
  apply Maker.recordAll_of_mem hmem _ (.inl rfl)
  intro x hx hname
  obtain ⟨r', hr', rfl⟩ := List.mem_map.1 hx
  rw [eq_of_file h hlawful hr' hr hname]
  rfl

theorem onlyKnows : OnlyKnows (Maker.recordAll p.commits Analysis.empty (findings done)) p.files := by
  intro file hfile
  apply Maker.recordAll_of_notMem
  intro x hx hname
  obtain ⟨r, hr, rfl⟩ := List.mem_map.1 hx
  exact hfile ((mem_files_of_taken h).2 ⟨r, hr, hname⟩)

/-- The analysis of a plan tells of the files of its modules. -/
theorem covers (hlawful : p.Lawful s m source ready) : (p.analysis (findings done)).Covers p.modules.files := by
  apply hlawful.covers
  apply Maker.covers_of_entries hlawful.plain _ (onlyKnows h)
  intro file hfile
  obtain ⟨r, hr, rfl⟩ := (mem_files_of_taken h).1 hfile
  obtain ⟨hdetails, hdocs⟩ := recorded h hlawful hr
  have hfaithful := h.faithful r hr
  exact ⟨_, _, _, hfaithful.language, hfaithful.documented, hdetails, hdocs⟩

/-- All that it tells comes of what was read last. -/
theorem records (hlawful : p.Lawful s m source ready) :
    ∀ file ∈ p.modules.files, ∀ bytes, lastRead done source file = some bytes →
      m.Records (p.analysis (findings done)) file bytes := by
  intro file hfile bytes hbytes
  unfold lastRead at hbytes
  split at hbytes
  · next r hfound =>
    have hr := List.mem_of_find?_eq_some hfound
    obtain rfl : r.file = file := by simpa using List.find?_some hfound
    obtain ⟨hdetails, hdocs⟩ := recorded h hlawful hr
    have hfaithful := h.faithful r hr
    obtain ⟨hover, hdocsOver⟩ := Analysis.overlay_told hdetails
    exact .of_result hfaithful.language (hfaithful.result bytes hbytes) hover (hdocsOver.trans hdocs)
  · next hnone =>
    have hnot : file ∉ p.files := by
      intro hmem
      obtain ⟨r, hr, hname⟩ := (mem_files_of_taken h).1 hmem
      have hmissed := List.find?_eq_none.1 hnone r hr
      simp [hname] at hmissed
    obtain ⟨hremoved, hknown⟩ := hlawful.kept file hfile hnot
    obtain ⟨hdetails, hdocs⟩ := onlyKnows h file hnot
    obtain ⟨hover, hdocsOver⟩ := Analysis.overlay_untold hremoved hdetails hdocs
    exact (hknown bytes hbytes).congr hover hdocsOver

omit h in
/-- The cache is to remember only what is true. -/
theorem truthful_rememberAll (hfaithful : ∀ r ∈ done, r.Faithful m seen) (hcache : OutlineCache.Truthful seen cache.entries) :
    OutlineCache.Truthful seen (Maker.rememberAll cache (findings done)).entries := by
  intro key o hget
  rcases Maker.get?_rememberAll hget with hold | ⟨x, hx, houtline⟩
  · exact hcache key o hold
  · obtain ⟨r, hr, rfl⟩ := List.mem_map.1 hx
    exact (hfaithful r hr).remembered o key houtline

end Complete

end Sighting

end CodeIndex
