import CodeIndex.Proofs.DocumentText
import CodeIndex.Proofs.Looking
import CodeIndex.Proofs.Membership

set_option autoImplicit false

/-!
# What an update takes for changed

A touched path that can be indexed is a modified file.  An indexed file is removed when it is not there, or when it
was touched and can be indexed no longer.
-/

namespace CodeIndex

open Action

namespace History

variable {timeout : Nat} {w w' : Workspace} {f : Failure}

theorem ask_error {q : HistoryQuery} (h : (ask timeout q).exec w = (.error f, w')) : ∃ message, f.cause = .other message := by
  obtain ⟨asked, hexec⟩ := exec_ask timeout q w
  rw [hexec] at h
  have hanswer : answered timeout q (w.history q) = .error f := congrArg Prod.fst h
  unfold answered at hanswer
  split at hanswer
  · cases hanswer
    exact ⟨_, rfl⟩
  · cases hanswer
    exact ⟨_, rfl⟩
  · cases hanswer
    exact ⟨_, rfl⟩
  · split at hanswer
    · cases hanswer
    · cases hanswer
      exact ⟨_, rfl⟩

theorem touchedSince_error {moment : String} (h : (touchedSince timeout moment).exec w = (.error f, w')) :
    ∃ message, f.cause = .other message := by
  unfold touchedSince at h
  rw [exec_bind] at h
  rcases hfirst : (ask timeout (.committedSince moment)).exec w with ⟨f₁ | committed, w₁⟩
  · rw [hfirst] at h
    cases h
    exact ask_error hfirst
  rw [hfirst] at h
  dsimp only at h
  rw [exec_bind] at h
  rcases hsecond : (ask timeout .uncommitted).exec w₁ with ⟨f₂ | uncommitted, w₂⟩
  · rw [hsecond] at h
    cases h
    exact ask_error hsecond
  rw [hsecond] at h
  dsimp only at h
  rw [exec_bind] at h
  rcases hthird : (ask timeout .newFiles).exec w₂ with ⟨f₃ | fresh, w₃⟩
  · rw [hthird] at h
    cases h
    exact ask_error hthird
  · rw [hthird] at h
    cases h

theorem exec_ask_output {q : HistoryQuery} {output : String} (timeout : Nat) (h : w.history q = .output output.toUTF8) :
    ∃ asked, (ask timeout q).exec w = (.ok output, { w with asked := asked }) := by
  obtain ⟨asked, hexec⟩ := exec_ask timeout q w
  refine ⟨asked, ?_⟩
  rw [hexec, h, answered, fromUTF8?_toUTF8]

/-- What was touched are the lines of three answers. -/
theorem fst_exec_touchedSince {moment committed uncommitted fresh : String} (timeout : Nat)
    (hcommitted : w.history (.committedSince moment) = .output committed.toUTF8)
    (huncommitted : w.history .uncommitted = .output uncommitted.toUTF8)
    (hfresh : w.history .newFiles = .output fresh.toUTF8) : ((touchedSince timeout moment).exec w).1 =
      .ok (Text.sortedSet ([committed, uncommitted, fresh].flatMap fun output => linesIn output.toList)) := by
  obtain ⟨asked₁, hfirst⟩ := exec_ask_output timeout hcommitted
  obtain ⟨asked₂, hsecond⟩ := @exec_ask_output { w with asked := asked₁ } _ _ timeout huncommitted
  obtain ⟨asked₃, hthird⟩ := @exec_ask_output { w with asked := asked₂ } _ _ timeout hfresh
  unfold touchedSince
  rw [exec_bind_of_ok hfirst, exec_bind_of_ok hsecond, exec_bind_of_ok hthird]
  rfl

theorem exec_isWorkTree (timeout : Nat) (w : Workspace) : ∃ b w', (isWorkTree timeout).exec w = (.ok b, w') := by
  unfold isWorkTree
  rw [exec_bind, exec_attempt]
  rcases hask : (ask timeout .isWorkTree).exec w with ⟨f | output, w₁⟩
  · obtain ⟨message, hmessage⟩ := ask_error hask
    refine ⟨false, w₁, ?_⟩
    simp [hmessage]
  · exact ⟨_, w₁, rfl⟩

end History

namespace Listing

/-- The newest commits that version control tells of, none where it fails. -/
def known (settings : Settings) (history : History) : FileSource → Dict Commit
  | .walk => {}
  | .versionControl =>
    match answered (timeout settings) .log (history .log) with
    | .ok output => History.lastCommits (History.records output.toList)
    | .error _ => {}

theorem exec_commits (settings : Settings) (source : FileSource) (w : Workspace) :
    ∃ w', (commits settings source).exec w = (.ok (known settings w.history source), w') ∧ w.Alike w' := by
  suffices h : ((commits settings source).exec w).1 = .ok (known settings w.history source) from
    ⟨_, Prod.ext h rfl, (looks_commits settings source).keeps w⟩
  cases source with
  | walk => rfl
  | versionControl =>
    unfold commits History.commits known
    dsimp only
    rw [exec_bind, exec_attempt, exec_bind]
    obtain ⟨asked, hexec⟩ := exec_ask (timeout settings) .log w
    rw [hexec]
    cases hanswer : answered (timeout settings) .log (w.history .log) with
    | error f =>
      rw [hanswer] at hexec
      obtain ⟨message, hmessage⟩ := History.ask_error hexec
      simp [hmessage]
    | ok output => rfl

/-- Whether a path is to be indexed, as the disk has it. -/
def indexable (settings : Settings) (w : Workspace) (root path : String) : Bool :=
  !(Store.isOutput path || (Text.pieces '/' path).any excludedDirectories.contains || (Language.ofPath? path).isNone) &&
    match w.disk.access (w.here.resolve (Path.join root path)) with
    | .ok (.file bytes _) => decide (bytes.size ≤ settings.maxFileSize)
    | _ => false

theorem exec_isIndexable (settings : Settings) (root path : String) (w : Workspace) :
    (isIndexable settings root path).exec w = (.ok (indexable settings w root path), w) := by
  unfold isIndexable indexable
  cases hout : Store.isOutput path || (Text.pieces '/' path).any excludedDirectories.contains ||
    (Language.ofPath? path).isNone with
  | true => rfl
  | false =>
    simp only [Bool.false_eq_true, if_false, Bool.not_false, Bool.true_and]
    rw [exec_bind_of_ok (exec_locate _ _), exec_bind_of_ok (exec_look _ _)]
    rcases w.disk.access (w.here.resolve (Path.join root path)) with e | node
    · rfl
    · cases node <;> rfl

theorem indexable_congr {w w' : Workspace} (h : w.Alike w') (settings : Settings) (root path : String) :
    indexable settings w' root path = indexable settings w root path := by
  unfold indexable
  rw [h.disk_eq, h.here_eq]

theorem access_of_indexable {settings : Settings} {w : Workspace} {root path : String}
    (h : indexable settings w root path = true) :
    ∃ bytes time, w.disk.access (w.here.resolve (Path.join root path)) = .ok (.file bytes time) := by
  unfold indexable at h
  rw [Bool.and_eq_true] at h
  obtain ⟨-, hfile⟩ := h
  split at hfile
  · next bytes time haccess => exact ⟨bytes, time, haccess⟩
  · cases hfile

end Listing

namespace Update

variable {m : Maker} {root : String} {core : CoreIndex} {c : ChangeSet} {w w' : Workspace}

/-- The file at a path from the project's directory is there. -/
def present (w : Workspace) (root path : String) : Bool := w.disk.holds (w.here.resolve (Path.join root path))

theorem present_of_indexable {settings : Settings} {path : String}
    (h : Listing.indexable settings w root path = true) : present w root path = true := by
  obtain ⟨bytes, time, haccess⟩ := Listing.access_of_indexable h
  exact Disk.holds_of_access haccess

/-- How a touched path is sorted. -/
def sorted (m : Maker) (w : Workspace) (root : String) (core : CoreIndex) (c : ChangeSet) (path : String) : ChangeSet :=
  if Listing.indexable m.settings w root path then { c with modified := Names.add c.modified path }
  else if (core.moduleFor? path).isSome then { c with removed := Names.add c.removed path }
  else c

theorem exec_classify (path : String) :
    (classify m root core c path).exec w = (.ok (sorted m w root core c path), w) := by
  unfold classify sorted
  rw [exec_bind_of_ok (Listing.exec_isIndexable _ _ _ _)]
  cases Listing.indexable m.settings w root path <;> cases (core.moduleFor? path).isSome <;> rfl

/-- How an indexed file is looked after. -/
def noted (w : Workspace) (root : String) (c : ChangeSet) (path : String) : ChangeSet :=
  if present w root path then c else ⟨Dict.erase c.modified path, Names.add c.removed path⟩

theorem exec_noteMissing (path : String) : (noteMissing root c path).exec w = (.ok (noted w root c path), w) := by
  unfold noteMissing noted present
  rw [exec_bind_of_ok (Store.exec_isPresent _ _)]
  cases w.disk.holds (w.here.resolve (Path.join root path)) <;> rfl

theorem foldl_sorted (paths : List String) (c : ChangeSet) (file : String) :
    (file ∈ (paths.foldl (sorted m w root core) c).modified.keys ↔
      file ∈ c.modified.keys ∨ file ∈ paths ∧ Listing.indexable m.settings w root file = true) ∧
    (file ∈ (paths.foldl (sorted m w root core) c).removed.keys ↔
      file ∈ c.removed.keys ∨ file ∈ paths ∧ Listing.indexable m.settings w root file = false ∧
        (core.moduleFor? file).isSome = true) := by
  induction paths generalizing c with
  | nil => simp
  | cons path rest ih =>
    obtain ⟨hmodified, hremoved⟩ := ih (sorted m w root core c path)
    rw [List.foldl_cons, hmodified, hremoved]
    unfold sorted
    cases hindexable : Listing.indexable m.settings w root path with
    | true =>
      simp only [if_true, Dict.mem_keys_add, List.mem_cons]
      grind
    | false =>
      simp only [Bool.false_eq_true, if_false]
      cases hfor : (core.moduleFor? path).isSome with
      | true =>
        simp only [if_true, Dict.mem_keys_add, List.mem_cons]
        grind
      | false =>
        simp only [Bool.false_eq_true, if_false, List.mem_cons]
        grind

theorem foldl_noted (paths : List String) (c : ChangeSet) (file : String) :
    (file ∈ (paths.foldl (noted w root) c).modified.keys ↔
      file ∈ c.modified.keys ∧ (file ∈ paths → present w root file = true)) ∧
    (file ∈ (paths.foldl (noted w root) c).removed.keys ↔
      file ∈ c.removed.keys ∨ file ∈ paths ∧ present w root file = false) := by
  induction paths generalizing c with
  | nil => simp
  | cons path rest ih =>
    obtain ⟨hmodified, hremoved⟩ := ih (noted w root c path)
    rw [List.foldl_cons, hmodified, hremoved]
    unfold noted
    cases hpresent : present w root path with
    | true =>
      simp only [if_true, List.mem_cons]
      grind
    | false =>
      simp only [Bool.false_eq_true, if_false, Dict.mem_keys_add, Dict.mem_keys_erase, List.mem_cons]
      grind

/-- What is changed, by the touched paths and the disk. -/
structure Sorted (m : Maker) (root : String) (core : CoreIndex) (w : Workspace) (touched : List String) (c : ChangeSet) :
    Prop where
  modified : ∀ file, file ∈ c.modified.keys ↔ file ∈ touched ∧ Listing.indexable m.settings w root file = true
  removed : ∀ file, file ∈ c.removed.keys ↔
    file ∈ touched ∧ Listing.indexable m.settings w root file = false ∧ (core.moduleFor? file).isSome = true ∨
      file ∈ core.allFiles ∧ present w root file = false

theorem Sorted.disjoint {touched : List String} (h : Sorted m root core w touched c) :
    ∀ file ∈ c.modified.keys, file ∉ c.removed.keys := by
  intro file hmodified hremoved
  obtain ⟨-, hindexable⟩ := (h.modified file).1 hmodified
  rcases (h.removed file).1 hremoved with ⟨-, hnot, -⟩ | ⟨-, habsent⟩
  · rw [hindexable] at hnot
    cases hnot
  · rw [present_of_indexable hindexable] at habsent
    cases habsent

theorem sorted_of_folds (touched : List String) :
    Sorted m root core w touched (core.allFiles.foldl (noted w root) (touched.foldl (sorted m w root core) ⟨{}, {}⟩)) := by
  refine ⟨fun file => ?_, fun file => ?_⟩
  · rw [(foldl_noted _ _ file).1, (foldl_sorted _ _ file).1]
    have hnil : file ∉ Dict.keys (∅ : Names) := by simp [Dict.mem_keys]
    constructor
    · rintro ⟨h | h, -⟩
      · exact absurd h hnil
      · exact h
    · exact fun h => ⟨.inr h, fun _ => present_of_indexable h.2⟩
  · rw [(foldl_noted _ _ file).2, (foldl_sorted _ _ file).2]
    have hnil : file ∉ Dict.keys (∅ : Names) := by simp [Dict.mem_keys]
    constructor
    · rintro ((h | h) | h)
      · exact absurd h hnil
      · exact .inl h
      · exact .inr h
    · exact fun h => h.imp .inr fun h => h

/-- Version control says what was touched, or there is no update. -/
theorem changes_spec (m : Maker) (root : String) (core : CoreIndex) (w : Workspace) :
    (∃ reason, ((changes m root core).exec w).1 = .error (Failure.ofFault (.noVersionControl reason))) ∧
      (((History.isWorkTree (Listing.timeout m.settings)).exec w).1 = .ok false ∨
        ∃ f, ((History.touchedSince (Listing.timeout m.settings) core.madeAt).exec w).1 = .error f) ∨
    ∃ touched c, ((History.touchedSince (Listing.timeout m.settings) core.madeAt).exec w).1 = .ok touched ∧
      ((changes m root core).exec w).1 = .ok c ∧ Sorted m root core w touched c := by
  have hlooks := History.looks_isWorkTree (Listing.timeout m.settings)
  obtain ⟨b, w₁, htree⟩ := History.exec_isWorkTree (Listing.timeout m.settings) w
  have halike : w.Alike w₁ := by simpa [htree] using hlooks.keeps w
  have htouched := (History.looks_touchedSince (Listing.timeout m.settings) core.madeAt).congr halike
  have hkeeps := (History.looks_touchedSince (Listing.timeout m.settings) core.madeAt).keeps w₁
  unfold changes
  rw [exec_bind_of_ok htree, htree, ← htouched]
  cases b with
  | false => exact .inl ⟨⟨_, rfl⟩, .inl rfl⟩
  | true =>
    simp only [Bool.not_true, Bool.false_eq_true, if_false]
    rw [exec_bind, exec_attempt]
    rcases hask : (History.touchedSince (Listing.timeout m.settings) core.madeAt).exec w₁ with ⟨f | touched, w₂⟩
    · obtain ⟨message, hmessage⟩ := History.touchedSince_error hask
      refine .inl ⟨⟨f.fullText, ?_⟩, .inr ⟨f, rfl⟩⟩
      simp [hmessage]
    · rw [hask] at hkeeps
      have halike₂ : w.Alike w₂ := halike.trans hkeeps
      refine .inr ⟨touched, _, rfl, ?_, sorted_of_folds touched⟩
      dsimp only
      rw [exec_bind_of_ok (exec_foldlM _ fun c path _ => exec_classify path),
        exec_foldlM _ fun c path _ => exec_noteMissing path]
      have hsorted : sorted m w₂ root core = sorted m w root core := by
        funext c path
        unfold sorted
        rw [Listing.indexable_congr halike₂]
      have hnoted : noted w₂ root = noted w root := by
        funext c path
        unfold noted present
        rw [halike₂.disk_eq, halike₂.here_eq]
      rw [hsorted, hnoted]

end Update

end CodeIndex
