import CodeIndex.Synopsis
import Mathlib.Algebra.Group.Nat.Even
import Mathlib.Data.List.Basic

set_option autoImplicit false

/-!
# Headings outside fenced blocks

A line counts if it is no fence and an even number of fences is above it.  The synopsis of a document is made of the
headings on these lines alone, although each is looked at together with the next line, whatever that is: a fence
underlines nothing, so neither edge of a block lets anything in or out.
-/

namespace CodeIndex.Synopsis

open Text

/-! ## Headings by lines -/

/-- The heading on a line, with its text as a string. -/
def headingOn? (line : List Char) (next : Option (List Char)) : Option (Nat × String) :=
  (heading? line next).map fun found => (found.1, String.ofList found.2)

/-- The headings from a line on, inside or outside a fenced block. -/
def headingsFrom (inFence : Bool) : List (List Char) → List (Nat × String)
  | [] => []
  | line :: rest =>
    if isFence line then headingsFrom (!inFence) rest
    else if inFence then headingsFrom inFence rest
    else (headingOn? line rest.head?).toList ++ headingsFrom inFence rest

/-- The heading on a line that counts: it is no fence, and the number of fences above it says that it is in no block, if
    reading starts inside a block or outside. -/
def headingAt? (inFence : Bool) (lines : List (List Char)) (i : Nat) : Option (Nat × String) :=
  lines[i]?.bind fun line =>
    if isFence line = false ∧ (Even ((lines.take i).countP isFence) ↔ inFence = false) then headingOn? line lines[i + 1]?
    else none

/-- The headings of a document, line by line. -/
def headingsIn (lines : List (List Char)) : List (Nat × String) :=
  (List.range lines.length).filterMap (headingAt? false lines)

/-- Headings added to a synopsis one after another. -/
def addAll (s : Synopsis) (found : List (Nat × String)) : Synopsis :=
  found.foldl (fun s heading => s.addHeading heading.1 heading.2) s

/-- The synopsis of headings: the first one of level one is the title, and the others are kept up to the limit. -/
def gather (found : List (Nat × String)) : Synopsis where
  title := (found.find? fun heading => heading.1 == 1).map Prod.snd
  headings := ((found.eraseP fun heading => heading.1 == 1).map Prod.snd).take headingLimit

variable {line fence : List Char} {lines before inside inside' after : List (List Char)}

theorem readLines_eq (inFence : Bool) (s : Synopsis) (lines : List (List Char)) :
    readLines inFence s lines = s.addAll (headingsFrom inFence lines) := by
  induction lines generalizing inFence s with
  | nil => rfl
  | cons line rest ih =>
    rw [readLines, headingsFrom]
    split
    · exact ih _ _
    · split
      · exact ih _ _
      · rw [headingOn?]
        cases heading? line rest.head? with
        | none => exact ih _ _
        | some found => exact ih _ _

theorem headingAt?_zero (inFence : Bool) (line : List Char) (rest : List (List Char)) :
    headingAt? inFence (line :: rest) 0 =
      if isFence line = false ∧ inFence = false then headingOn? line rest.head? else none := by
  simp [headingAt?, List.head?_eq_getElem?]

theorem headingAt?_succ (inFence : Bool) (line : List Char) (rest : List (List Char)) (i : Nat) :
    headingAt? inFence (line :: rest) (i + 1) = headingAt? (isFence line ^^ inFence) rest i := by
  simp only [headingAt?, List.getElem?_cons_succ, List.take_succ_cons, List.countP_cons]
  cases isFence line <;> cases inFence <;> simp [Nat.even_add_one]

theorem headingsFrom_eq (inFence : Bool) (lines : List (List Char)) :
    headingsFrom inFence lines = (List.range lines.length).filterMap (headingAt? inFence lines) := by
  induction lines generalizing inFence with
  | nil => rfl
  | cons line rest ih =>
    have hrest : (headingAt? inFence (line :: rest) ∘ Nat.succ) = headingAt? (isFence line ^^ inFence) rest :=
      funext (headingAt?_succ inFence line rest)
    rw [List.length_cons, List.range_succ_eq_map, List.filterMap_cons, List.filterMap_map, hrest, ← ih, headingAt?_zero,
      headingsFrom]
    cases isFence line with
    | true => simp
    | false =>
      cases inFence with
      | true => simp
      | false => cases headingOn? line rest.head? <;> simp

/-! ## A block between lines -/

/-- A fence underlines nothing. -/
theorem underlineLevel?_fence (h : isFence fence = true) : underlineLevel? fence = none := by
  rw [isFence, List.isPrefixOf_iff_prefix] at h
  obtain ⟨rest, hrest⟩ := h
  rw [underlineLevel?, ← hrest]
  simp

theorem headingOn?_fence (line : List Char) (h : isFence fence = true) : headingOn? line (some fence) = headingOn? line none := by
  rw [headingOn?, headingOn?, heading?, heading?, Option.bind_some, underlineLevel?_fence h, Option.bind_none]

theorem headingsFrom_fence (h : isFence fence = true) (inFence : Bool) (above below : List (List Char)) :
    headingsFrom inFence (above ++ fence :: below) =
      headingsFrom inFence above ++ headingsFrom (if Even (above.countP isFence) then !inFence else inFence) below := by
  induction above generalizing inFence with
  | nil => simp [headingsFrom, h]
  | cons line above ih =>
    have hnext : headingOn? line (above ++ fence :: below).head? = headingOn? line above.head? := by
      cases above with
      | nil => exact headingOn?_fence line h
      | cons next above => rfl
    rw [List.cons_append, headingsFrom, headingsFrom, ih, ih, hnext, List.countP_cons]
    by_cases heven : Even (above.countP isFence) <;> cases isFence line <;> cases inFence <;> simp [Nat.even_add_one, heven]

theorem headingsFrom_inside (h : ∀ line ∈ inside, isFence line = false) (below : List (List Char)) :
    headingsFrom true (inside ++ below) = headingsFrom true below := by
  induction inside with
  | nil => rfl
  | cons line inside ih =>
    rw [List.cons_append, headingsFrom, h line List.mem_cons_self]
    exact ih fun other hother => h other (List.mem_cons_of_mem _ hother)

/-- Lines that open a fenced block, lines inside it, and what follows from the fence on that closes it, if any does. -/
structure Surrounds (before : List (List Char)) (fence : List Char) (inside after : List (List Char)) : Prop where
  even : Even (before.countP isFence)
  opens : isFence fence = true
  within : ∀ line ∈ inside, isFence line = false
  closes : ∀ line ∈ after.head?, isFence line = true

theorem Surrounds.headings (h : Surrounds before fence inside after) :
    headingsFrom false (before ++ fence :: (inside ++ after)) = headingsIn before ++ headingsIn after.tail := by
  rw [headingsFrom_fence h.opens, if_pos h.even, Bool.not_false, headingsFrom_inside h.within, headingsIn, headingsIn,
    ← headingsFrom_eq, ← headingsFrom_eq]
  cases after with
  | nil => rfl
  | cons close below => rw [headingsFrom, if_pos (h.closes close rfl), Bool.not_true, List.tail_cons]

/-! ## Title and headings -/

theorem addAll_cons (s : Synopsis) (heading : Nat × String) (found : List (Nat × String)) :
    s.addAll (heading :: found) = (s.addHeading heading.1 heading.2).addAll found := rfl

theorem addAll_titled (found : List (Nat × String)) (title : String) {headings : List String}
    (h : headings.length ≤ headingLimit) :
    addAll ⟨some title, headings⟩ found = ⟨some title, (headings ++ found.map Prod.snd).take headingLimit⟩ := by
  induction found generalizing headings with
  | nil => rw [addAll, List.foldl_nil, List.map_nil, List.append_nil, List.take_of_length_le h]
  | cons heading found ih =>
    rw [addAll_cons, addHeading, if_neg (by simp), List.map_cons]
    dsimp only
    split
    · next hlt => rw [ih (by rw [List.length_append, List.length_singleton]; omega), List.append_assoc, List.singleton_append]
    · next hfull => rw [ih h, List.take_append_of_le_length (by omega), List.take_append_of_le_length (by omega)]

theorem addAll_untitled (found : List (Nat × String)) {headings : List String} (h : headings.length ≤ headingLimit) :
    addAll ⟨none, headings⟩ found = ⟨(gather found).title,
      (headings ++ (found.eraseP fun heading => heading.1 == 1).map Prod.snd).take headingLimit⟩ := by
  induction found generalizing headings with
  | nil =>
    rw [addAll, List.foldl_nil, List.eraseP_nil, List.map_nil, List.append_nil, List.take_of_length_le h]
    rfl
  | cons heading found ih =>
    rw [addAll_cons, addHeading]
    by_cases hlevel : heading.1 = 1
    · rw [if_pos ⟨hlevel, rfl⟩, addAll_titled _ _ h, List.eraseP_cons_of_pos (by simpa using hlevel), gather,
        List.find?_cons_of_pos (by simpa using hlevel)]
      rfl
    · rw [if_neg fun hfirst => hlevel hfirst.1, List.eraseP_cons_of_neg (by simpa using hlevel), List.map_cons, gather,
        List.find?_cons_of_neg (by simpa using hlevel)]
      dsimp only
      split
      · next hlt =>
        rw [ih (by rw [List.length_append, List.length_singleton]; omega), List.append_assoc, List.singleton_append]
        rfl
      · next hfull =>
        rw [ih h, List.take_append_of_le_length (by omega), List.take_append_of_le_length (by omega)]
        rfl

/-- The synopsis of a document is made of the headings on the lines that count. -/
theorem ofText_eq (text : String) : ofText text = gather (headingsFrom false (Text.lines text.toList)) := by
  rw [ofText, readLines_eq, empty, addAll_untitled _ (Nat.zero_le _), List.nil_append]
  rfl

theorem ne_empty_of_mem_headingsFrom {inFence : Bool} {heading : Nat × String} (h : heading ∈ headingsFrom inFence lines) :
    heading.2 ≠ "" := by
  rw [headingsFrom_eq] at h
  obtain ⟨i, -, h⟩ := List.mem_filterMap.1 h
  obtain ⟨line, -, h⟩ := Option.bind_eq_some_iff.1 h
  split at h
  · obtain ⟨found, hfound, rfl⟩ := Option.map_eq_some_iff.1 h
    have hkept := (Option.filter_eq_some_iff.1 hfound).2
    intro hempty
    rw [String.ofList_eq_empty_iff] at hempty
    simp [hempty] at hkept
  · cases h

/-- Whatever stands inside a fenced block, the synopsis is that of the headings before the block and behind it.  Title and
    headings of any document are texts with something in them, and the headings are at most twenty. -/
theorem fenced_lines_invisible :
    (∀ {before inside inside' after : List (List Char)} {fence : List Char} {text text' : String},
      Surrounds before fence inside after → Surrounds before fence inside' after →
      Text.lines text.toList = before ++ fence :: (inside ++ after) →
      Text.lines text'.toList = before ++ fence :: (inside' ++ after) →
      ofText text = ofText text' ∧ ofText text = gather (headingsIn before ++ headingsIn after.tail)) ∧
    ∀ text, (∀ title ∈ (ofText text).title, title ≠ "") ∧ (∀ heading ∈ (ofText text).headings, heading ≠ "") ∧
      (ofText text).headings.length ≤ 20 := by
  refine ⟨fun {before inside inside' after fence text text'} h h' htext htext' => ?_, fun text => ?_⟩
  · rw [ofText_eq, ofText_eq, htext, htext', h.headings, h'.headings]
    exact ⟨rfl, rfl⟩
  · rw [ofText_eq, gather]
    refine ⟨fun title htitle => ?_, fun heading hheading => ?_, List.length_take_le _ _⟩
    · obtain ⟨found, hfound, rfl⟩ := Option.map_eq_some_iff.1 htitle
      exact ne_empty_of_mem_headingsFrom (List.mem_of_find?_eq_some hfound)
    · obtain ⟨found, hfound, rfl⟩ := List.mem_map.1 (List.mem_of_mem_take hheading)
      exact ne_empty_of_mem_headingsFrom (List.mem_of_mem_eraseP hfound)

/-- What is above a block: another one, and a line that a rule inside the block would underline. -/
def linesAbove : List String := ["# Guide", "```", "# shown", "```", "Setup"]

/-- What is below a line inside the block: the fence that closes it, a rule, and a heading. -/
def linesBelow : List String := ["```", "---", "## Use"]

/-- A document with a block of some lines. -/
def withBlock (inside : List String) : String := "\n".intercalate (linesAbove ++ "```sh" :: (inside ++ linesBelow))

theorem fenced_lines_invisible_ruled :
    Surrounds (linesAbove.map String.toList) "```sh".toList (["---", "# hidden"].map String.toList)
        (linesBelow.map String.toList) ∧
      Surrounds (linesAbove.map String.toList) "```sh".toList (["==="].map String.toList)
        (linesBelow.map String.toList) ∧
      ofText (withBlock ["---", "# hidden"]) = ofText (withBlock ["==="]) ∧
      ofText (withBlock ["==="]) = ⟨some "Guide", ["Use"]⟩ := by
  have hruled : Surrounds (linesAbove.map String.toList) "```sh".toList (["---", "# hidden"].map String.toList)
      (linesBelow.map String.toList) := ⟨by decide +kernel, by decide +kernel, by decide +kernel, by decide +kernel⟩
  have hdoubled : Surrounds (linesAbove.map String.toList) "```sh".toList (["==="].map String.toList)
      (linesBelow.map String.toList) := ⟨by decide +kernel, by decide +kernel, by decide +kernel, by decide +kernel⟩
  exact ⟨hruled, hdoubled, (fenced_lines_invisible.1 hruled hdoubled (by decide +kernel) (by decide +kernel)).1,
    by decide +kernel⟩

end CodeIndex.Synopsis
