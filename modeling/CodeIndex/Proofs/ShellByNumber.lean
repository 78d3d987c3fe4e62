import CodeIndex.Proofs.ShellBodies

set_option autoImplicit false

/-!
# Reading a shell script by line numbers

Here a script is read as a loop over line numbers, and reading goes wrong wherever a line or a range of lines is taken
that the script does not have.  That is so just where a function closes on its defining line: then the range of its
body would end before it starts.
-/

namespace CodeIndex.Shell

namespace ByNumber

/-- The lines of a range, which has to start before it ends, within the script. -/
def range? (first stop : Nat) (lines : List Line) : Option (List Line) :=
  if first ≤ stop ∧ stop ≤ lines.length then some (stretch first stop lines) else none

/-- The number of the line by which the braces are closed, given the number of the first line. -/
def closing? (number : Nat) (depth : Int × Bool) : List Line → Option Nat
  | [] => none
  | line :: rest =>
    let depth := braces depth line
    if depth.2 && decide (depth.1 ≤ 0) then some number else closing? (number + 1) depth rest

/-- Where the body of a function ends; at the end of the script, when nothing closes it. -/
def bodyEnd (lines : List Line) (first : Nat) : Nat := (closing? first (0, false) (lines.drop first)).getD lines.length

/-- The topmost text of the comments right above a line, upwards from a number, with the one found below. -/
def docAbove? (lines : List Line) : Nat → Option Line → Option (Option Line)
  | 0, doc => some doc
  | number + 1, doc => do
    match comment? (← lines[number]?) with
    | none => return doc
    | some text => docAbove? lines number (if text.isEmpty then doc else some text)

def addImport (o : Outline) (line : Line) : Outline :=
  match included? line with
  | none => o
  | some target =>
    if o.imports.contains (String.ofList target) then o
    else { o with imports := o.imports ++ [String.ofList target] }

/-- The function that a line defines, with the number of the line that ends its body. -/
def function? (lines : List Line) (number stop : Nat) (name : String) : Option Callable := do
  let body ← range? (number + 1) (min stop lines.length) lines
  let doc ← docAbove? lines number none
  return {
    line := (number + 1).toUInt64
    signature := name ++ "()"
    calls := calledNames name ((body.flatMap commands).map String.ofList)
    doc := doc.map String.ofList }

theorem closing?_eq (number : Nat) (depth : Int × Bool) (lines : List Line) :
    closing? number depth lines =
      if bodyLength depth lines < lines.length then some (number + bodyLength depth lines) else none := by
  induction lines generalizing number depth with
  | nil => rfl
  | cons line rest ih =>
    rw [closing?, bodyLength_cons]
    change (if isClosed (braces depth line) = true then _ else _) = _
    split
    · simp
    · rw [ih, List.length_cons]
      simp only [Nat.add_lt_add_iff_right, Nat.add_assoc, Nat.add_comm 1]

theorem ends_bodyEnd {lines : List Line} {first : Nat} (h : first ≤ lines.length) :
    Ends lines first (bodyEnd lines first) := by
  have hends := ends_bodyLength h
  have hle := bodyLength_le (0, false) (lines.drop first)
  rw [bodyEnd, closing?_eq]
  split
  · exact hends
  · rw [List.length_drop] at *
    rwa [show first + bodyLength (0, false) (lines.drop first) = lines.length by omega] at hends

/-- Reads on from a line. -/
def readFrom (lines : List Line) (number : Nat) (o : Outline) : Option Outline :=
  match _hline : lines[number]? with
  | none => some o
  | some line =>
    match definedName? line with
    | none => readFrom lines (number + 1) (addImport o line)
    | some name => do
      let stop := bodyEnd lines number
      let c ← function? lines number stop (String.ofList name)
      readFrom lines (stop + 1)
        { addImport o line with functions := (addImport o line).functions.insert (String.ofList name) c }
termination_by lines.length - number
decreasing_by
  · have hlt := (List.getElem?_eq_some_iff.1 _hline).1
    omega
  · have hlt := (List.getElem?_eq_some_iff.1 _hline).1
    have hle := (ends_bodyEnd hlt.le).le
    omega

def outline? (source : String) : Option Outline := readFrom (Text.lines source.toList) 0 Outline.empty

variable {lines : List Line} {first last : Nat}

/-! ## The same outline -/

end ByNumber

/-! ## What is read -/

/-- A line lies between the one that defines a function and the one that ends its body. -/
def Within (lines : List Line) (name : String) (k : Nat) : Prop :=
  ∃ first last, Defines lines first name ∧ Ends lines first last ∧ first < k ∧ k < last

theorem Within.unique {lines : List Line} {name name' : String} {k : Nat} (h : Within lines name k)
    (h' : Within lines name' k) : name = name' := by
  obtain ⟨first, last, hdefines, hends, hafter, hbefore⟩ := h
  obtain ⟨first', last', hdefines', hends', hafter', hbefore'⟩ := h'
  rcases Nat.lt_trichotomy first first' with hlt | rfl | hlt
  · have hapart := hdefines.lt_of_reaches hends hdefines'.reached hlt
    omega
  · exact String.toList_injective (Option.some.inj (hdefines.named.symm.trans hdefines'.named))
  · have hapart := hdefines'.lt_of_reaches hends' hdefines.reached hlt
    omega

/-- A script with a function inside the body of another, and one whose body nothing closes. -/
def nested : String :=
  "deploy()\n\x7b\n  inner() \x7b\n    ship; deploy\n  \x7d # \x7d\n  report\n\x7d\nwatch() \x7b # \x7d\n  poll\n"

end CodeIndex.Shell
