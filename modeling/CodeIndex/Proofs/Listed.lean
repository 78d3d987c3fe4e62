import CodeIndex.Proofs.Outputs

set_option autoImplicit false

/-!
# What a listing finds

In a directory that is there a listing never fails.  What it finds is told by the version-control tool and by the disk
outside the program's own places.
-/

namespace CodeIndex

open Action Store Update

variable {w w' : Workspace} {settings : Settings} {root : String}

namespace History

/-- The tool says that a directory is under version control. -/
def isTracked (timeout : Nat) (history : History) : Bool :=
  match answered timeout .isWorkTree (history .isWorkTree) with
  | .ok output => Text.on Text.trim output == "true"
  | .error _ => false

/-- Asking fails only in ways that can be passed over. -/
theorem exec_attempt_asked {α : Type} (timeout : Nat) (q : HistoryQuery) (f : String → α) (w : Workspace) :
    ∃ w', (attempt (do return f (← ask timeout q))).exec w = (.ok ((answered timeout q (w.history q)).map f), w') := by
  obtain ⟨asked, hexec⟩ := exec_ask timeout q w
  rw [exec_attempt, exec_bind, hexec]
  cases hanswer : answered timeout q (w.history q) with
  | ok output => exact ⟨_, rfl⟩
  | error failure =>
    rw [hanswer] at hexec
    obtain ⟨message, hmessage⟩ := ask_error hexec
    dsimp only
    rw [if_neg (by simp [hmessage])]
    exact ⟨_, rfl⟩

theorem fst_exec_isWorkTree (timeout : Nat) (w : Workspace) :
    ((isWorkTree timeout).exec w).1 = .ok (isTracked timeout w.history) := by
  obtain ⟨w', hexec⟩ := exec_attempt_asked timeout .isWorkTree id w
  rw [show (do return id (← ask timeout .isWorkTree)) = ask timeout .isWorkTree from bind_pure _] at hexec
  unfold isWorkTree isTracked
  rw [exec_bind_of_ok hexec]
  cases answered timeout .isWorkTree (w.history .isWorkTree) <;> rfl

end History

namespace Listing

/-- The files that the version-control tool tells of, if it can tell. -/
def tracked? (settings : Settings) (history : History) : Option (List String) :=
  if History.isTracked (timeout settings) history then
    match answered (timeout settings) .files (history .files) with
    | .ok output => some (Text.sortedSet (History.linesIn output.toList))
    | .error _ => none
  else none

/-- Paths that may be files of a project, and where their list comes from. -/
def offered (settings : Settings) (history : History) (d : Disk) (place : Location) : List String × FileSource :=
  match tracked? settings history with
  | some files => (files, .versionControl)
  | none => (d.walk place, .walk)

theorem fst_exec_walk (h : w.disk.IsOpen (w.here.resolve root)) :
    ((walk root).exec w).1 = .ok (w.disk.walk (w.here.resolve root)) := by
  have haccess : w.disk.access (w.here.resolve root) = .ok .directory := h
  unfold walk
  rw [exec_bind_of_ok (exec_locate root w), exec_bind_of_ok (exec_look _ w), haccess]
  rfl

theorem fst_exec_candidates (h : w.disk.IsOpen (w.here.resolve root)) :
    ((candidates settings root).exec w).1 = .ok (offered settings w.history w.disk (w.here.resolve root)) := by
  have hwalk : ∀ {w₁}, w.Alike w₁ → ((do return (← walk root, FileSource.walk) : Action _).exec w₁).1 =
      .ok (w.disk.walk (w.here.resolve root), .walk) := by
    intro w₁ halike
    obtain ⟨w₂, hexec, -⟩ := (looks_walk root).exec_eq halike (fst_exec_walk h)
    rw [exec_bind_of_ok hexec]
    rfl
  obtain ⟨w₁, htree, halike⟩ := (History.looks_isWorkTree _).exec_eq (Workspace.Alike.refl w)
    (History.fst_exec_isWorkTree (timeout settings) w)
  unfold candidates offered tracked?
  rw [exec_bind_of_ok htree]
  cases History.isTracked (timeout settings) w.history with
  | false => exact hwalk halike
  | true =>
    obtain ⟨w₂, hfiles⟩ := History.exec_attempt_asked (timeout settings) .files
      (fun output => Text.sortedSet (History.linesIn output.toList)) w₁
    have halike₂ : w₁.Alike w₂ := by
      have hkeeps := (Looks.attempt (History.looks_files (timeout settings))).keeps w₁
      rw [History.files, hfiles] at hkeeps
      exact hkeeps
    simp only [if_true]
    rw [History.files, exec_bind_of_ok hfiles, halike.history_eq]
    cases answered (timeout settings) .files (w.history .files) with
    | ok output => rfl
    | error f => exact hwalk (halike.trans halike₂)

/-- The files of a project are those of the offered paths that can be indexed. -/
theorem fst_exec_files (h : w.disk.IsOpen (w.here.resolve root)) :
    ((files settings root).exec w).1 =
      .ok (Text.sortedSet ((offered settings w.history w.disk (w.here.resolve root)).1.filter (indexable settings w root)),
        (offered settings w.history w.disk (w.here.resolve root)).2) := by
  obtain ⟨w₁, hcandidates, halike⟩ := (looks_candidates settings root).exec_eq (Workspace.Alike.refl w) (fst_exec_candidates h)
  unfold files
  rw [exec_bind_of_ok hcandidates]
  dsimp only
  rw [exec_bind_of_ok (exec_filterM fun path _ => exec_isIndexable settings root path w₁),
    funext (indexable_congr halike settings root)]
  rfl

end Listing

/-! ## Disks that list the same -/

theorem Disk.isVisited_of_excluded {name : String} (h : excludedDirectories.contains name = true) (d : Disk) (l : Location) :
    d.isVisited (l ++ [name]) = false := by
  unfold isVisited
  rw [List.getLast?_concat]
  simp only [h, Bool.not_true, Bool.false_and]

/-- The rules of a directory outside the program's own lie outside, too. -/
theorem Store.not_isOwn_rules {s : Store} {directory : Location} (hshards : ¬ s.shardsPlace <+: directory)
    (hcache : ¬ s.cacheDirectory <+: directory) {names : List String}
    (hnames : names ∈ [[Disk.versionDirectory], [Disk.ignoreFile]] ++ Disk.versionIgnoreFiles) : ¬ s.IsOwn (directory ++ names) := by
  have hfacts : ∀ names ∈ [[Disk.versionDirectory], [Disk.ignoreFile]] ++ Disk.versionIgnoreFiles,
      names ≠ [] ∧ Shard.directory ∉ names ∧ OutlineCache.directory ∉ names ∧
        ∀ name ∈ names.getLast?, ∀ tail ∈ endings, tail.toList.getLast? ≠ none ∧ name.toList.getLast? ≠ tail.toList.getLast? := by
    decide
  obtain ⟨hne, hshardsName, hcacheName, hlast⟩ := hfacts names hnames
  refine not_isOwn_concat hne hshards hcache ⟨hshardsName, hcacheName⟩ fun stem tail htail hname => ?_
  obtain ⟨hsome, hdiffer⟩ := hlast _ hname tail htail
  rw [String.toList_append, List.getLast?_append, Option.or_of_isSome (Option.isSome_iff_ne_none.2 hsome)] at hdiffer
  exact hdiffer rfl

/-- Of the disk only what is reached at a path's place counts. -/
theorem Listing.indexable_eq (settings : Settings) (w : Workspace) (root path : String) :
    indexable settings w root path =
      (!(Store.isOutput path || (Text.pieces '/' path).any excludedDirectories.contains || (Language.ofPath? path).isNone) &&
        match w.disk.node? (w.here.resolve (Path.join root path)) with
        | some (.file bytes _) => decide (bytes.size ≤ settings.maxFileSize)
        | _ => false) := by
  unfold indexable Disk.node?
  rcases w.disk.access (w.here.resolve (Path.join root path)) with e | ⟨bytes, time⟩ | _ <;> rfl

theorem Listing.plain_of_indexable {path : String} (h : indexable settings w root path = true) : Store.Plain path := by
  rw [indexable_eq, Bool.and_eq_true, Bool.not_eq_true', Bool.or_eq_false_iff, Bool.or_eq_false_iff] at h
  exact ⟨h.1.1.2, by simpa using h.1.2⟩

section Agree

variable {s : Store} (hs : Path.isAbsolute s.root = true) (hagree : Disk.AgreeOff s.IsOwn w.disk w'.disk)

include hagree

include hs in
theorem Listing.indexable_agree (path : String) :
    indexable settings w' s.root path = indexable settings w s.root path := by
  have hplain : Store.Plain path → indexable settings w' s.root path = indexable settings w s.root path := fun hplain => by
    rw [indexable_eq, indexable_eq, Location.resolve_of_isAbsolute (Path.isAbsolute_join hs) w'.here w.here,
      hagree _ (not_isOwn_of_plain hs w.here hplain)]
  by_cases h : indexable settings w s.root path = true
  · exact hplain (plain_of_indexable h)
  · by_cases h' : indexable settings w' s.root path = true
    · exact hplain (plain_of_indexable h')
    · rw [Bool.not_eq_true] at h h'
      rw [h, h']

/-- A source file that is found by walking through one disk is found by walking through the other. -/
theorem Disk.walk_agree (hsound : w.disk.Sound) (hsound' : w'.disk.Sound) {path : String}
    (hlanguage : (Language.ofPath? path).isSome = true) (h : path ∈ w.disk.walk s.place) : path ∈ w'.disk.walk s.place := by
  rw [mem_walk hsound] at h
  obtain ⟨l, bytes, time, ha, hp, hlen, hways, rfl⟩ := h
  have hbelow : ∀ name, excludedDirectories.contains name = true → ¬ s.place ++ [name] <+: l := by
    intro name hname hprefix
    have hvisited := hways _ hprefix (by simp)
    rw [isVisited_of_excluded hname] at hvisited
    cases hvisited
  have hshards : ¬ s.shardsPlace <+: l := hbelow _ (by decide)
  have hcache : ¬ s.cacheDirectory <+: l := hbelow _ (by decide)
  have hnot : ¬ s.IsOwn l := by
    rintro (hown | hown | ⟨stem, tail, htail, rfl⟩)
    · exact hshards hown
    · exact hcache hown
    · rw [List.drop_left] at hlanguage
      rw [show Path.ofComponents [stem ++ tail] = stem ++ tail from rfl, ofPath?_append_ending stem htail] at hlanguage
      cases hlanguage
  have ha' := hagree.access_of_ok hnot ha
  refine (mem_walk hsound').2 ⟨l, bytes, time, ha', hp, hlen, fun p hpl hplen => ?_, rfl⟩
  rw [isVisited_congr (d := w.disk)]
  · exact hways p hpl hplen
  · by_cases heq : p = l
    · rw [heq, isDirectory, isDirectory, hsound.find?_eq, hsound'.find?_eq, hagree l hnot]
    · rw [isDirectory_of_isOpen (Disk.isOpen_above ha hpl heq), isDirectory_of_isOpen (Disk.isOpen_above ha' hpl heq)]
  · intro directory hdirectory file hfile
    have hdl := (mem_above.1 hdirectory).1.trans hpl
    exact readText_congr (hagree _ (not_isOwn_rules (fun hx => hshards (hx.trans hdl)) (fun hx => hcache (hx.trans hdl))
      (List.mem_cons_of_mem _ hfile)))
  · intro directory hdirectory
    have hdl := (mem_above.1 hdirectory).1.trans hpl
    exact holds_congr (hagree _ (not_isOwn_rules (fun hx => hshards (hx.trans hdl)) (fun hx => hcache (hx.trans hdl))
      List.mem_cons_self))

include hs in
/-- Where version control tells the same, disks that have the same outside the program's own places list the same files. -/
theorem Listing.files_agree (hsound : w.disk.Sound) (hsound' : w'.disk.Sound) (hopen : w.disk.IsOpen s.place)
    (hopen' : w'.disk.IsOpen s.place) (hhistory : w'.history = w.history) :
    ((files settings s.root).exec w').1 = ((files settings s.root).exec w).1 := by
  have hplace := fun here => resolve_root hs here
  rw [fst_exec_files (by rw [hplace]; exact hopen'), fst_exec_files (by rw [hplace]; exact hopen), hplace, hplace, hhistory]
  unfold offered
  cases htracked : tracked? settings w.history with
  | some files => rw [funext (indexable_agree hs hagree)]
  | none =>
    dsimp only
    refine congrArg (fun files => Except.ok (files, FileSource.walk)) (Text.sortedSet_congr fun path => ?_)
    rw [List.mem_filter, List.mem_filter, indexable_agree hs hagree]
    refine and_congr_left fun hindexable => ?_
    obtain ⟨language, hlanguage⟩ := language_of_indexable hindexable
    have hsome : (Language.ofPath? path).isSome = true := by rw [hlanguage]; rfl
    exact ⟨Disk.walk_agree hagree.symm hsound' hsound hsome, Disk.walk_agree hagree hsound hsound' hsome⟩

end Agree

end CodeIndex
