import CodeIndex.Proofs.Dict
import CodeIndex.Proofs.SortedSet
import CodeIndex.Source.Shell
import Mathlib.Logic.Relation

set_option autoImplicit false

/-!
# Bodies of shell functions

A body ends at the first line by which some brace was opened and as many were closed, counted from the defining line on,
or with the script.  The lines that reading comes to are one after another, but for what lies between a defining line and
the end of its body.  So bodies do not overlap, and a function that looks like one inside a body is none.
-/

namespace CodeIndex.Shell

open Text

variable {lines : List Line} {first last : Nat}

/-! ## Counting braces -/

/-- The lines from one up to, not including, another. -/
def stretch (first stop : Nat) (lines : List Line) : List Line := (lines.drop first).take (stop - first)

/-- Some brace is opened in the code of some lines, and as many are closed. -/
def Closed (lines : List Line) : Prop :=
  0 < (lines.flatMap code).count '\x7b' ∧ (lines.flatMap code).count '\x7b' ≤ (lines.flatMap code).count '\x7d'

instance (lines : List Line) : Decidable (Closed lines) := inferInstanceAs (Decidable (_ ∧ _))

theorem braces_eq (depth : Int × Bool) (line : Line) :
    braces depth line = (depth.1 + (code line).count '\x7b' - (code line).count '\x7d',
      depth.2 || decide (0 < (code line).count '\x7b')) := by
  unfold braces
  generalize code line = cs
  induction cs generalizing depth with
  | nil => simp
  | cons c cs ih =>
    rw [List.foldl_cons, ih]
    by_cases hopen : c = '\x7b'
    · subst hopen
      simp
      omega
    · by_cases hclose : c = '\x7d'
      · subst hclose
        simp
        omega
      · simp [hopen, hclose]

theorem foldl_braces (depth : Int × Bool) (lines : List Line) :
    lines.foldl braces depth = (depth.1 + (lines.flatMap code).count '\x7b' - (lines.flatMap code).count '\x7d',
      depth.2 || decide (0 < (lines.flatMap code).count '\x7b')) := by
  induction lines generalizing depth with
  | nil => simp
  | cons line rest ih =>
    rw [List.foldl_cons, ih, braces_eq, List.flatMap_cons, List.count_append, List.count_append, Bool.or_assoc]
    refine Prod.ext (by push_cast; omega) (congrArg (depth.2 || ·) ?_)
    rw [← Bool.decide_or]
    exact decide_eq_decide.2 (by omega)

/-- Whether the braces are closed again, by the count that is kept. -/
def isClosed (depth : Int × Bool) : Bool := depth.2 && decide (depth.1 ≤ 0)

theorem isClosed_foldl (lines : List Line) : isClosed (lines.foldl braces (0, false)) = true ↔ Closed lines := by
  rw [foldl_braces, isClosed, Closed, Bool.and_eq_true, Bool.false_or, decide_eq_true_eq, decide_eq_true_eq]
  omega

/-! ## Where a body ends -/

theorem bodyLength_cons (depth : Int × Bool) (line : Line) (rest : List Line) :
    bodyLength depth (line :: rest) = if isClosed (braces depth line) then 0 else bodyLength (braces depth line) rest + 1 :=
  rfl

theorem bodyLength_le (depth : Int × Bool) (lines : List Line) : bodyLength depth lines ≤ lines.length := by
  induction lines generalizing depth with
  | nil => rfl
  | cons line rest ih =>
    rw [bodyLength_cons]
    split
    · exact Nat.zero_le _
    · exact Nat.succ_le_succ (ih _)

theorem isClosed_of_lt_bodyLength {depth : Int × Bool} {n : Nat} (h : n < bodyLength depth lines) :
    isClosed ((lines.take (n + 1)).foldl braces depth) = false := by
  induction lines generalizing depth n with
  | nil => cases h
  | cons line rest ih =>
    rw [bodyLength_cons] at h
    split at h
    · cases h
    · next hopen =>
      cases n with
      | zero => simpa using hopen
      | succ n => exact ih (Nat.lt_of_succ_lt_succ h)

theorem isClosed_bodyLength {depth : Int × Bool} (h : bodyLength depth lines < lines.length) :
    isClosed ((lines.take (bodyLength depth lines + 1)).foldl braces depth) = true := by
  induction lines generalizing depth with
  | nil => cases h
  | cons line rest ih =>
    rw [bodyLength_cons] at h ⊢
    split
    · next hclosed => simpa using hclosed
    · next hopen =>
      rw [if_neg hopen] at h
      exact ih (Nat.lt_of_succ_lt_succ h)

/-- The body of a function that is defined at one line ends at another, or there are no more lines there. -/
structure Ends (lines : List Line) (first last : Nat) : Prop where
  le : first ≤ last
  le_length : last ≤ lines.length
  before : ∀ k, first ≤ k → k < last → ¬ Closed (stretch first (k + 1) lines)
  closed : last < lines.length → Closed (stretch first (last + 1) lines)

theorem ends_bodyLength (h : first ≤ lines.length) : Ends lines first (first + bodyLength (0, false) (lines.drop first)) := by
  have hle := bodyLength_le (0, false) (lines.drop first)
  rw [List.length_drop] at hle
  refine ⟨Nat.le_add_right _ _, by omega, fun k hk hlt => ?_, fun hlt => ?_⟩
  · rw [← isClosed_foldl, stretch, show k + 1 - first = k - first + 1 by omega,
      isClosed_of_lt_bodyLength (by omega : k - first < bodyLength (0, false) (lines.drop first))]
    exact Bool.false_ne_true
  · rw [← isClosed_foldl, stretch, show ∀ n, first + n + 1 - first = n + 1 by omega]
    exact isClosed_bodyLength (by rw [List.length_drop]; omega)

theorem Ends.unique {last' : Nat} (h : Ends lines first last) (h' : Ends lines first last') : last = last' := by
  rcases Nat.lt_trichotomy last last' with hlt | heq | hlt
  · exact absurd (h.closed (hlt.trans_le h'.le_length)) (h'.before last h.le hlt)
  · exact heq
  · exact absurd (h'.closed (hlt.trans_le h.le_length)) (h.before last' h'.le hlt)

/-- Where reading goes on after a line: with the next one, or behind the body of the function that is defined. -/
inductive Step (lines : List Line) : Nat → Nat → Prop
  | next {first : Nat} {line : Line} (hline : lines[first]? = some line) (hnone : definedName? line = none) :
      Step lines first (first + 1)
  | past {first last : Nat} {line name : Line} (hline : lines[first]? = some line) (hname : definedName? line = some name)
      (hends : Ends lines first last) : Step lines first (last + 1)

abbrev Reaches (lines : List Line) : Nat → Nat → Prop := Relation.ReflTransGen (Step lines)

/-- A line that reading comes to defines a function. -/
structure Defines (lines : List Line) (first : Nat) (name : String) : Prop where
  reached : Reaches lines 0 first
  named : lines[first]?.bind definedName? = some name.toList

variable {i j : Nat}

theorem Step.lt (h : Step lines i j) : i < j := by
  cases h with
  | next => exact Nat.lt_succ_self i
  | past _ _ hends => exact Nat.lt_succ_of_le hends.le

theorem Step.unique : Relator.RightUnique (Step lines) := by
  intro i j k hj hk
  cases hj with
  | next hline hnone =>
    cases hk with
    | next => rfl
    | past hline' hname =>
      cases hline.symm.trans hline'
      cases hnone.symm.trans hname
  | past hline hname hends =>
    cases hk with
    | next hline' hnone =>
      cases hline.symm.trans hline'
      cases hnone.symm.trans hname
    | past _ _ hends' => rw [hends.unique hends']

theorem Reaches.le (h : Reaches lines i j) : i ≤ j := by
  induction h with
  | refl => exact Nat.le_refl i
  | tail _ hstep ih => exact ih.trans hstep.lt.le

theorem Defines.exists_line {name : String} (h : Defines lines first name) :
    ∃ line, lines[first]? = some line ∧ definedName? line = some name.toList := Option.bind_eq_some_iff.1 h.named

/-- What is read below a defining line is read below the body. -/
theorem Defines.lt_of_reaches {name : String} (h : Defines lines first name) (hends : Ends lines first last)
    (hreach : Reaches lines 0 j) (hlt : first < j) : last < j := by
  obtain ⟨line, hline, hname⟩ := h.exists_line
  rcases Relation.ReflTransGen.total_of_right_unique Step.unique h.reached hreach with hon | hback
  · rcases hon.cases_head with rfl | ⟨next, hstep, hrest⟩
    · exact absurd hlt (Nat.lt_irrefl _)
    · rw [← Step.unique (.past hline hname hends) hstep] at hrest
      exact Nat.lt_of_succ_le (Reaches.le hrest)
  · exact absurd (Reaches.le hback) (Nat.not_le.2 hlt)

/-! ## The pieces of a script -/

/-- The pieces of a script from a line on. -/
inductive Taken (lines : List Line) : Nat → List Piece → Prop
  | stop {first : Nat} (h : lines.length ≤ first) : Taken lines first []
  | next {first : Nat} {line : Line} {ps : List Piece} (hline : lines[first]? = some line) (hnone : definedName? line = none)
      (h : Taken lines (first + 1) ps) : Taken lines first (⟨first, line, none, []⟩ :: ps)
  | past {first last : Nat} {line name : Line} {ps : List Piece} (hline : lines[first]? = some line)
      (hname : definedName? line = some name) (hends : Ends lines first last) (hlt : first < last)
      (h : Taken lines (last + 1) ps) : Taken lines first (⟨first, line, some name, stretch (first + 1) last lines⟩ :: ps)

variable {ps : List Piece}

theorem Taken.le_offset (h : Taken lines first ps) {p : Piece} (hp : p ∈ ps) : first ≤ p.offset := by
  induction h with
  | stop => cases hp
  | next _ _ _ ih =>
    rcases List.mem_cons.1 hp with rfl | hmem
    · exact Nat.le_refl _
    · exact Nat.le_of_succ_le (ih hmem)
  | past _ _ _ hlt _ ih =>
    rcases List.mem_cons.1 hp with rfl | hmem
    · exact Nat.le_refl _
    · have hle := ih hmem
      omega

theorem Taken.pairwise (h : Taken lines first ps) : ps.Pairwise fun p q => p.offset < q.offset := by
  induction h with
  | stop => exact List.Pairwise.nil
  | next _ _ htaken ih => exact List.pairwise_cons.2 ⟨fun q hq => htaken.le_offset hq, ih⟩
  | past _ _ _ hlt htaken ih =>
    refine List.pairwise_cons.2 ⟨fun q hq => ?_, ih⟩
    have hle := htaken.le_offset hq
    dsimp only
    omega

/-- The pieces are the lines that reading comes to. -/
theorem Taken.exists_piece (h : Taken lines first ps) (hreach : Reaches lines first i) {line : Line}
    (hi : lines[i]? = some line) : ∃ p ∈ ps, p.offset = i := by
  induction h with
  | stop hle =>
    have hlt := (List.getElem?_eq_some_iff.1 hi).1
    have hstart := hreach.le
    omega
  | next hline hnone _ ih =>
    rcases hreach.cases_head with rfl | ⟨after, hstep, hrest⟩
    · exact ⟨_, List.mem_cons_self, rfl⟩
    · rw [← Step.unique (.next hline hnone) hstep] at hrest
      obtain ⟨p, hp, heq⟩ := ih hrest
      exact ⟨p, List.mem_cons_of_mem _ hp, heq⟩
  | past hline hname hends _ _ ih =>
    rcases hreach.cases_head with rfl | ⟨after, hstep, hrest⟩
    · exact ⟨_, List.mem_cons_self, rfl⟩
    · rw [← Step.unique (.past hline hname hends) hstep] at hrest
      obtain ⟨p, hp, heq⟩ := ih hrest
      exact ⟨p, List.mem_cons_of_mem _ hp, heq⟩

/-- A piece with a name is a function with its body. -/
theorem Taken.ends (h : Taken lines first ps) {p : Piece} (hp : p ∈ ps) {name : Line} (hname : p.name = some name) :
    Reaches lines first p.offset ∧ lines[p.offset]?.bind definedName? = some name ∧
      ∃ last, Ends lines p.offset last ∧ p.offset < last ∧ p.body = stretch (p.offset + 1) last lines := by
  induction h with
  | stop => cases hp
  | next hline hnone _ ih =>
    rcases List.mem_cons.1 hp with rfl | hmem
    · cases hname
    · obtain ⟨hreach, hfound⟩ := ih hmem
      exact ⟨.head (.next hline hnone) hreach, hfound⟩
  | past hline hdefined hends hlt _ ih =>
    rcases List.mem_cons.1 hp with rfl | hmem
    · cases hname
      exact ⟨.refl, by rw [hline, Option.bind_some, hdefined], _, hends, hlt, rfl⟩
    · obtain ⟨hreach, hfound⟩ := ih hmem
      exact ⟨.head (.past hline hdefined hends) hreach, hfound⟩

/-- A piece has the name that its line defines. -/
theorem Taken.name_eq (h : Taken lines first ps) {p : Piece} (hp : p ∈ ps) :
    p.name = lines[p.offset]?.bind definedName? := by
  induction h with
  | stop => cases hp
  | next hline hnone _ ih =>
    rcases List.mem_cons.1 hp with rfl | hmem
    · rw [hline, Option.bind_some, hnone]
    · exact ih hmem
  | past hline hname _ _ _ ih =>
    rcases List.mem_cons.1 hp with rfl | hmem
    · rw [hline, Option.bind_some, hname]
    · exact ih hmem

/-! ## What is recorded -/

theorem ne_nil_of_mem_commands {line command : Line} (h : command ∈ commands line) : command ≠ [] := by
  unfold commands at h
  dsimp only at h
  split at h
  · cases h
  · have hcommand := (List.mem_filter.1 h).2
    rintro rfl
    cases hcommand

theorem mem_calledNames {own call : String} {names : List String} :
    call ∈ calledNames own names ↔ call ∈ names ∧ call ≠ "" ∧ call ≠ own := by
  rw [calledNames, mem_sortedSet, List.mem_filter, Bool.and_eq_true, decide_eq_true_eq, decide_eq_true_eq]

theorem mem_stretch {line : Line} : line ∈ stretch first last lines ↔ ∃ k, first ≤ k ∧ k < last ∧ lines[k]? = some line := by
  rw [stretch, List.mem_iff_getElem?]
  constructor
  · rintro ⟨n, hn⟩
    rw [List.getElem?_take] at hn
    split at hn
    · rw [List.getElem?_drop] at hn
      exact ⟨first + n, Nat.le_add_right _ _, by omega, hn⟩
    · cases hn
  · rintro ⟨k, hle, hlt, hk⟩
    refine ⟨k - first, ?_⟩
    rw [List.getElem?_take_of_lt (by omega), List.getElem?_drop, Nat.add_sub_cancel' hle, hk]

/-- What is recorded of a function: the line that defines it last, and the commands on the lines of the body there. -/
structure Records (lines : List Line) (name : String) (c : Callable) (first last : Nat) : Prop where
  defines : Defines lines first name
  ends : Ends lines first last
  latest : ∀ later, Defines lines later name → later ≤ first
  line : c.line = (first + 1).toUInt64
  sorted : c.calls.Pairwise (· < ·)
  not_own : name ∉ c.calls
  calls : ∀ call, call ∈ c.calls ↔
    call ≠ name ∧ ∃ k line, first < k ∧ k < last ∧ lines[k]? = some line ∧ call.toList ∈ commands line

theorem callable?_eq_some {p : Piece} {name : String} {c : Callable} (h : p.callable? lines = some (name, c)) :
    p.name = some name.toList ∧ c.line = (p.offset + 1).toUInt64 ∧
      c.calls = calledNames name ((p.body.flatMap commands).map String.ofList) := by
  obtain ⟨found, hfound, h⟩ := Option.bind_eq_some_iff.1 h
  cases h
  exact ⟨by rw [hfound, String.toList_ofList], rfl, rfl⟩

theorem callable?_of_name (lines : List Line) {p : Piece} {name : String} (h : p.name = some name.toList) :
    ∃ c, p.callable? lines = some (name, c) := by
  rw [Piece.callable?, h]
  exact ⟨_, by rw [Option.bind_eq_bind, Option.bind_some, String.ofList_toList]; rfl⟩

theorem mem_calls_iff {name call : String} (first last : Nat) :
    call ∈ calledNames name (((stretch (first + 1) last lines).flatMap commands).map String.ofList) ↔
      call ≠ name ∧ ∃ k line, first < k ∧ k < last ∧ lines[k]? = some line ∧ call.toList ∈ commands line := by
  rw [mem_calledNames, List.mem_map]
  simp only [List.mem_flatMap, mem_stretch]
  constructor
  · rintro ⟨⟨command, ⟨line, ⟨k, hle, hlt, hk⟩, hcommand⟩, rfl⟩, -, hne⟩
    exact ⟨hne, k, line, hle, hlt, hk, by rwa [String.toList_ofList]⟩
  · rintro ⟨hne, k, line, hlt, hend, hk, hcommand⟩
    refine ⟨⟨call.toList, ⟨line, ⟨k, hlt, hend, hk⟩, hcommand⟩, String.ofList_toList⟩, ?_, hne⟩
    rintro rfl
    exact ne_nil_of_mem_commands hcommand rfl

/-- The last entry under a key, with those behind it. -/
theorem exists_append_of_get?_ofList {α : Type} {entries : List (String × α)} {key : String} {value : α}
    (h : (Dict.ofList entries).get? key = some value) :
    ∃ before after, entries = before ++ (key, value) :: after ∧ ∀ e ∈ after, e.1 ≠ key := by
  induction entries using List.reverseRecOn with
  | nil => cases h
  | append_singleton init e ih =>
    rw [Dict.get?_ofList, List.reverse_append, List.reverse_singleton, List.singleton_append, Dict.find?] at h
    split at h
    · next heq =>
      cases h
      exact ⟨init, [], by rw [← heq], fun e he => absurd he List.not_mem_nil⟩
    · next hne =>
      rw [← Dict.get?_ofList] at h
      obtain ⟨before, after, rfl, hafter⟩ := ih h
      refine ⟨before, after ++ [e], by simp, fun x hx => ?_⟩
      rcases List.mem_append.1 hx with hmem | hlast
      · exact hafter x hmem
      · rw [List.mem_singleton.1 hlast]
        exact hne

variable {name : String} {c : Callable}

theorem Taken.exists_of_defines (h : Taken lines 0 ps) (hdefines : Defines lines first name) :
    ∃ p ∈ ps, p.offset = first ∧ ∃ c, p.callable? lines = some (name, c) := by
  obtain ⟨line, hline, -⟩ := hdefines.exists_line
  obtain ⟨p, hp, rfl⟩ := h.exists_piece hdefines.reached hline
  exact ⟨p, hp, rfl, callable?_of_name lines ((h.name_eq hp).trans hdefines.named)⟩

theorem Taken.records (h : Taken lines 0 ps)
    (hget : (Dict.ofList (ps.filterMap (Piece.callable? lines))).get? name = some c) :
    ∃ first last, Records lines name c first last := by
  obtain ⟨before, after, hsplit, hafter⟩ := exists_append_of_get?_ofList hget
  obtain ⟨above, rest, rfl, -, hrest⟩ := List.filterMap_eq_append_iff.1 hsplit
  obtain ⟨between, p, below, rfl, hnone, hp, rfl⟩ := List.filterMap_eq_cons_iff.1 hrest
  obtain ⟨hname, hline, hcalls⟩ := callable?_eq_some hp
  obtain ⟨hreach, hfound, last, hends, -, hbody⟩ := h.ends (by simp) hname
  refine ⟨p.offset, last, ⟨hreach, hfound⟩, hends, fun later hlater => ?_, hline, ?_, ?_, fun call => ?_⟩
  · -- a later line that defines the name would be a piece below, and what is recorded below has other names
    obtain ⟨q, hq, rfl, c', hc'⟩ := h.exists_of_defines hlater
    by_contra hlt
    rw [← List.append_assoc] at hq
    have hpairs := h.pairwise
    rw [← List.append_assoc, List.pairwise_append] at hpairs
    have hbelow : q ∈ below := by
      rcases List.mem_append.1 hq with habove | hq
      · exact absurd (hpairs.2.2 q habove p List.mem_cons_self).le hlt
      · rcases List.mem_cons.1 hq with rfl | hq
        · exact absurd (Nat.le_refl _) hlt
        · exact hq
    exact hafter (name, c') (List.mem_filterMap.2 ⟨q, hbelow, hc'⟩) rfl
  · rw [hcalls]
    exact pairwise_sortedSet _
  · rw [hcalls, mem_calledNames]
    exact fun hmem => hmem.2.2 rfl
  · rw [hcalls, hbody, mem_calls_iff]

end CodeIndex.Shell
