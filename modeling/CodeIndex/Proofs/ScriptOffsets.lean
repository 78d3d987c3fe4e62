import CodeIndex.Proofs.ByteOffset
import CodeIndex.Source.Script

set_option autoImplicit false

/-!
# Reading a script by byte offsets

Here a script is read with offsets into its UTF-8 form, and reading can go wrong wherever it could: when the text is
cut at an offset where no character starts, and when a loop does not move on.  Brackets are found byte by byte.
-/

namespace CodeIndex.Script.ByOffset

open Text

/-- What stops reading. -/
inductive Stop where
  /-- A stretch of the text that does not start and end with characters, or is not in it. -/
  | cut
  /-- A step of a loop that does not move forward. -/
  | stuck
  deriving DecidableEq, Repr

abbrev Read := Except Stop

/-- What can be cut out of the text. -/
def orCut {α : Type} (found : Option α) : Read α := found.elim (.error .cut) .ok

/-- A loop over the offsets before a limit.  A step says where to go on, if at all, and each has to move forward. -/
def loop {σ : Type} (limit : Nat) (step : Nat → σ → Read (Option Nat × σ)) (pos : Nat) (state : σ) : Read σ :=
  if pos < limit then
    match step pos state with
    | .error stop => .error stop
    | .ok (none, state) => .ok state
    | .ok (some next, state) => if pos < next then loop limit step next state else .error .stuck
  else .ok state
termination_by limit - pos

/-! ## Lines -/

/-- The end of the line at an offset, and the start of the next one. -/
def lineBounds (source : List Char) (pos : Nat) : Read (Nat × Nat) := do
  let rest ← orCut (fromOffset? pos source)
  match find? ['\n'] rest with
  | some n => return (pos + offsetOf rest n, pos + offsetOf rest n + 1)
  | none => return (size source, size source)

def nextLineStart (source : List Char) (pos : Nat) : Read Nat := Prod.snd <$> lineBounds source (min pos (size source))

/-- Line number of an offset, from 1. -/
def lineOf (source : List Char) (pos : Nat) : Read UInt64 := do
  let before ← orCut (toOffset? (min pos (size source)) source)
  return (before.count '\n' + 1).toUInt64

/-! ## Brackets -/

/-- The byte of a character in ASCII. -/
def byte (c : Char) : UInt8 := c.val.toUInt8

/-- Brackets that are open, the quote that is, and where the last bracket was closed. -/
structure Nesting where
  depth : Nat
  quote : Option UInt8
  found : Option Nat

/-- One step in search of a bracket: over one byte, over two after a backslash, or over a comment. -/
def closingStep (source : List Char) (opener closer : UInt8) (pos : Nat) (state : Nesting) : Read (Option Nat × Nesting) := do
  let b ← orCut (bytes source)[pos]?
  match state.quote with
  | some q =>
    if b = byte '\\' then return (some (pos + 2), state)
    else return (some (pos + 1), if b = q then { state with quote := none } else state)
  | none =>
    if b = byte '"' ∨ b = byte '\'' ∨ b = byte '\x60' then return (some (pos + 1), { state with quote := some b })
    else if b = byte '/' ∧ (bytes source)[pos + 1]? = some (byte '/') then do
      let rest ← orCut (fromOffset? pos source)
      return (some ((find? ['\n'] rest).elim (size source) fun n => pos + offsetOf rest n), state)
    else if b = byte '/' ∧ (bytes source)[pos + 1]? = some (byte '*') then do
      let rest ← orCut (fromOffset? (pos + 2) source)
      return (some ((find? commentClosing rest).elim (size source) fun n => pos + 2 + offsetOf rest n + 2), state)
    else if b = opener then return (some (pos + 1), { state with depth := state.depth + 1 })
    else if b = closer then
      if state.depth - 1 = 0 then return (none, { state with found := some pos })
      else return (some (pos + 1), { state with depth := state.depth - 1 })
    else return (some (pos + 1), state)

/-- The offset of the bracket that closes the one at an offset. -/
def closing (opener closer : Char) (source : List Char) (pos : Nat) : Read (Option Nat) :=
  Nesting.found <$> loop (size source) (closingStep source (byte opener) (byte closer)) pos ⟨0, none, none⟩

/-- The end of a body that opens at an offset. -/
def blockEnd (source : List Char) (pos : Nat) : Read Nat := do
  let close ← closing '\x7b' '\x7d' source pos
  return (close.map (· + 1)).getD (size source)

/-! ## Declarations -/

/-- A function or method, by offsets. -/
structure Found where
  name : List Char
  nameStart : Nat
  signature : String
  body : Option (Nat × Nat)
  resume : Nat

/-- What a pattern matches in a line at an offset: a name, where it starts and where the match ends. -/
def matchOffsets? (p : Pattern Char) (pos : Nat) (line : List Char) : Option (List Char × Nat × Nat) := do
  let found ← p.find? line
  let (start, stop) ← found.group? "name"
  return (slice start stop line, pos + offsetOf line start, pos + offsetOf line found.stop)

/-- A declaration from its head's end and its body on; reading goes on after the last byte of the body. -/
def finish (source : List Char) (pos : Nat) (name : List Char) (nameStart headEnd : Nat) (body : Option (Nat × Nat)) :
    Read (Option Found) := do
  let resume ← nextLineStart source (body.elim headEnd fun body => body.2 - 1)
  let head ← orCut (between? pos headEnd source)
  return some ⟨name, nameStart, String.ofList (collapse head), body, resume⟩

/-- A declaration whose pattern ends with the parenthesis of its parameters. -/
def parenCallable (source : List Char) (pos : Nat) (line : List Char) (p : Pattern Char) : Read (Option Found) :=
  match matchOffsets? p pos line with
  | none => return none
  | some (name, nameStart, matched) => do
    match ← closing '(' ')' source (matched - 1) with
    | none => return none
    | some close => do
      let rest ← orCut (fromOffset? (close + 1) source)
      match findChar? (fun c => c == '\x7b' || c == ';') rest with
      | none => finish source pos name nameStart (close + 1) none
      | some n => do
        let stop := close + 1 + offsetOf rest n
        let b ← orCut (bytes source)[stop]?
        if b = byte '\x7b' then do
          let last ← blockEnd source stop
          finish source pos name nameStart stop (some (stop, last))
        else finish source pos name nameStart stop none

/-- A declaration whose pattern ends with an arrow. -/
def arrowCallable (source : List Char) (pos : Nat) (line : List Char) (p : Pattern Char) : Read (Option Found) :=
  match matchOffsets? p pos line with
  | none => return none
  | some (name, nameStart, matched) => do
    let rest ← orCut (fromOffset? matched source)
    let start := matched + (size rest - size (trimStart rest))
    let body ← orCut (fromOffset? start source)
    if body.head? = some '\x7b' then do
      let last ← blockEnd source start
      finish source pos name nameStart matched (some (start, last))
    else do
      let (last, _) ← lineBounds source start
      finish source pos name nameStart matched (some (matched, last))

/-- The first text line of the documentation comment that ends right before an offset. -/
def jsdoc (source : List Char) (pos : Nat) : Read (Option String) := do
  let before ← trimEnd <$> orCut (toOffset? pos source)
  if !commentClosing.isSuffixOf before then return none
  else match findLast? commentOpening before with
    | none => return none
    | some n => do
      let inside ← orCut (between? (offsetOf before n + 3) (size before - 2) before)
      return (((lines inside).map commentLine).find? fun l => !l.isEmpty && l.head? != some '@').map String.ofList

def calls (source : List Char) : Option (Nat × Nat) → Read (List String)
  | some (start, stop) => callsIn <$> orCut (between? start stop source)
  | none => return []

def callable (source : List Char) (pos : Nat) (found : Found) : Read Callable := do
  let calls ← calls source found.body
  let line ← lineOf source found.nameStart
  let doc ← jsdoc source pos
  return ⟨line, found.signature, calledNames (String.ofList found.name) calls, doc⟩

/-- Where reading goes on after a line that declares nothing. -/
def skip (source : List Char) (pos : Nat) (line : List Char) (next : Nat) : Read Nat :=
  match findChar? (· == '\x7b') line with
  | none => return next
  | some n => do
    match ← closing '\x7b' '\x7d' source (pos + offsetOf line n) with
    | some close => return max (← nextLineStart source close) next
    | none => return size source

/-! ## The two loops -/

/-- The first that finds a declaration. -/
def orElse (first second : Read (Option Found)) : Read (Option Found) := do
  match ← first with
  | some found => return some found
  | none => second

/-- One line of a class body. -/
def memberStep (source : List Char) (stop pos : Nat) (methods : Dict Callable) : Read (Option Nat × Dict Callable) := do
  let (lineEnd, next) ← lineBounds source pos
  let line ← orCut (between? pos (min lineEnd stop) source)
  let method := Option.filter (fun found => !isControl found.name) <$> parenCallable source pos line methodHead
  match ← orElse method (arrowCallable source pos line arrowField) with
  | some found => return (some found.resume, methods.insert (String.ofList found.name) (← callable source pos found))
  | none => return (some (← skip source pos line next), methods)

def members (source : List Char) (start stop : Nat) : Read (Dict Callable) := loop stop (memberStep source stop) start ∅

/-- The methods of a class whose head stands at an offset, and where reading goes on. -/
def classMembers (source : List Char) (pos next : Nat) : Read (Dict Callable × Nat) := do
  let rest ← orCut (fromOffset? pos source)
  match findChar? (· == '\x7b') rest with
  | none => return (∅, next)
  | some n => do
    let opened := pos + offsetOf rest n
    let close := (← closing '\x7b' '\x7d' source opened).getD (size source)
    let methods ← members source (opened + 1) close
    return (methods, ← nextLineStart source close)

/-- One line outside all classes. -/
def step (source : List Char) (pos : Nat) (o : Outline) : Read (Option Nat × Outline) := do
  let (lineEnd, next) ← lineBounds source pos
  let line ← orCut (between? pos lineEnd source)
  match classHead.find? line with
  | some found =>
    match found.group? "name" with
    | none => return (some next, o)
    | some (start, stop) => do
      let number ← lineOf source (pos + offsetOf line start)
      let doc ← jsdoc source pos
      let (methods, next) ← classMembers source pos next
      let name := String.ofList (slice start stop line)
      let bases := (found.group? "base").toList.map fun (start, stop) => String.ofList (slice start stop line)
      return (some next, { o with types := o.types.insert name ⟨number, bases, methods, doc⟩ })
  | none => do
    let other := orElse (parenCallable source pos line functionBinding) (arrowCallable source pos line arrowBinding)
    match ← orElse (parenCallable source pos line functionHead) other with
    | some found =>
      let function ← callable source pos found
      return (some found.resume, { o with functions := o.functions.insert (String.ofList found.name) function })
    | none => return (some (← skip source pos line next), o)

/-- The outline of a script. -/
def outline (source : String) : Read Outline :=
  let text := source.toList
  loop (size text) (step text) 0 { Outline.empty with imports := importsOf text }

end CodeIndex.Script.ByOffset
