import CodeIndex.Outline
import CodeIndex.Source.ScriptBracket
import CodeIndex.Source.ScriptNotation
import CodeIndex.Text.Basic

set_option autoImplicit false

/-!
# Outlines of scripts

A script is read line by line; a declaration or an open brace moves reading to the line after its end.  Places
are offsets into the text.  Two things cannot be scanned: a comment of nothing but its delimiters before a
declaration, and a body that ends without a closing brace right after a character outside ASCII.
-/

namespace CodeIndex.Script

open Text

/-- The end of the line at a place, before its line feed. -/
def lineEnd (source : List Char) (place : Nat) : Nat :=
  let rest := source.drop place
  place + ((find? ['\n'] rest).getD rest.length)

/-- The start of the line after the one at a place. -/
def nextLine (source : List Char) (place : Nat) : Nat := min (lineEnd source place + 1) source.length

/-- Where reading goes on after a stretch; nothing when its last character is outside ASCII. -/
def resumeAfter? (source : List Char) (stop : Nat) : Option Nat :=
  match source[stop - 1]? with
  | some c => if c.toNat < 128 then some (nextLine source (stop - 1)) else none
  | none => some (nextLine source (stop - 1))

/-- The place of the bracket that closes the one at a place. -/
def closingAt? (opener closer : Char) (source : List Char) (place : Nat) : Option Nat :=
  (closing? opener closer (source.drop place)).map (place + ·)

/-- The end of a body that opens at a place: after its closing brace, or the end of the text. -/
def bodyEnd (source : List Char) (place : Nat) : Nat :=
  ((closingAt? '\x7b' '\x7d' source place).map (· + 1)).getD source.length

/-- Line number of a place, from 1. -/
def lineNumber (source : List Char) (place : Nat) : UInt64 := ((source.take place).count '\n' + 1).toUInt64

/-- A function or method, by places. -/
structure Declaration where
  name : List Char
  nameStart : Nat
  start : Nat
  /-- End of what is shown as its signature. -/
  headEnd : Nat
  body : Option (Nat × Nat)
  /-- Where reading goes on. -/
  resume : Nat

/-- What a declaration's pattern matches in a line at a place, and the place where the match ends. -/
def matchLine? (p : Pattern Char) (place : Nat) (line : List Char) : Option (List Char × Nat × Nat) := do
  let found ← p.find? line
  let (start, stop) ← found.group? "name"
  return (slice start stop line, place + start, place + found.stop)

/-- A declaration whose pattern ends with the parenthesis of its parameters.  The outer option is nothing when
the text cannot be scanned, the inner one when there is no such declaration. -/
def parenthesised (source : List Char) (place : Nat) (line : List Char) (p : Pattern Char) :
    Option (Option Declaration) :=
  match matchLine? p place line with
  | none => some none
  | some (name, nameStart, matched) =>
    match closingAt? '(' ')' source (matched - 1) with
    | none => some none
    | some close =>
      let declaration := fun headEnd body resume => ⟨name, nameStart, place, headEnd, body, resume⟩
      match findChar? (fun c => c == '\x7b' || c == ';') (source.drop (close + 1)) with
      | none => some (some (declaration (close + 1) none (nextLine source (close + 1))))
      | some n =>
        let stop := close + 1 + n
        if source[stop]? = some '\x7b' then
          let last := bodyEnd source stop
          (resumeAfter? source last).map fun resume => some (declaration stop (some (stop, last)) resume)
        else some (some (declaration stop none (nextLine source stop)))

/-- A declaration whose pattern ends with an arrow.  Its body is a block, or what follows up to the end of the
line on which something follows. -/
def arrow (source : List Char) (place : Nat) (line : List Char) (p : Pattern Char) :
    Option (Option Declaration) :=
  match matchLine? p place line with
  | none => some none
  | some (name, nameStart, matched) =>
    let start := matched + ((source.drop matched).takeWhile isBlank).length
    let body :=
      if source[start]? = some '\x7b' then (start, bodyEnd source start) else (matched, lineEnd source start)
    (resumeAfter? source body.2).map fun resume =>
      some ⟨name, nameStart, place, matched, some body, resume⟩

def commentOpening : List Char := "/**".toList

def commentClosing : List Char := "*/".toList

/-- Text of a line in a documentation comment. -/
def commentLine (line : List Char) : List Char := trim ((trim line).dropWhile (· == '*'))

/-- First line of text in the documentation comment that ends right before a place.  The outer option is
nothing when that comment is only its delimiters, which then overlap. -/
def docBefore (source : List Char) (place : Nat) : Option (Option String) :=
  let before := trimEnd (source.take place)
  if !commentClosing.isSuffixOf before then some none
  else
    match findLast? commentOpening before with
    | none => some none
    | some start =>
      let inside := slice (start + 3) (before.length - 2) before
      if before.length < start + 5 then none
      else some (((lines inside).map commentLine).find? (fun l => !l.isEmpty && l.head? != some '@')
        |>.map String.ofList)

def callsIn (body : List Char) : List String :=
  ((Pattern.findAll call body).filterMap fun found => do
    let (start, stop) ← found.group? "name"
    let name := slice start stop body
    if isControl name then none else some (String.ofList name))

namespace Declaration

def callable? (source : List Char) (d : Declaration) : Option (String × Callable) := do
  let doc ← docBefore source d.start
  let name := String.ofList d.name
  return (name, {
    line := lineNumber source d.nameStart
    signature := String.ofList (collapse (slice d.start d.headEnd source))
    calls := calledNames name ((d.body.map fun (start, stop) => callsIn (slice start stop source)).getD [])
    doc := doc })

end Declaration

/-- Where reading goes on after a line that declares nothing. -/
def skipLine (source : List Char) (place : Nat) (line : List Char) : Nat :=
  match findChar? (· == '\x7b') line with
  | none => nextLine source place
  | some n =>
    match closingAt? '\x7b' '\x7d' source (place + n) with
    | some close => max (nextLine source close) (nextLine source place)
    | none => source.length

/-- A member that a line of a class body declares. -/
def member (source : List Char) (place : Nat) (line : List Char) : Option (Option Declaration) := do
  let method ← parenthesised source place line methodHead
  match method.filter fun d => !isControl d.name with
  | some d => return some d
  | none => arrow source place line arrowField

/-- The members in a class body from one place up to another. -/
def membersIn (source : List Char) (stop : Nat) : Nat → Nat → Option (List Declaration)
  | 0, _ => some []
  | fuel + 1, place =>
    if stop ≤ place then some []
    else do
      let line := slice place (min (lineEnd source place) stop) source
      match ← member source place line with
      | some d => return d :: (← membersIn source stop fuel d.resume)
      | none => membersIn source stop fuel (skipLine source place line)

/-- A class, and where reading goes on after it. -/
def typeOutline? (source : List Char) (place : Nat) (line : List Char) (found : Pattern.Found) :
    Option (TypeOutline × Nat) := do
  let doc ← docBefore source place
  let (nameStart, _) := (found.group? "name").getD (0, 0)
  let bases := (found.group? "base").toList.map fun (start, stop) => String.ofList (slice start stop line)
  let (members, resume) ← match findChar? (· == '\x7b') (source.drop place) with
    | none => some ([], nextLine source place)
    | some n =>
      let close := (closingAt? '\x7b' '\x7d' source (place + n)).getD source.length
      (membersIn source close (source.length + 1) (place + n + 1)).map fun members =>
        (members, nextLine source close)
  let methods ← members.mapM (Declaration.callable? source)
  return (⟨lineNumber source (place + nameStart), bases, Dict.ofList methods, doc⟩, resume)

/-- A declaration outside all classes. -/
def topLevel (source : List Char) (place : Nat) (line : List Char) : Option (Option Declaration) := do
  match ← parenthesised source place line functionHead with
  | some d => return some d
  | none =>
    match ← parenthesised source place line functionBinding with
    | some d => return some d
    | none => arrow source place line arrowBinding

/-- What a script declares, from a place on. -/
def declarationsFrom (source : List Char) : Nat → Nat → Outline → Option Outline
  | 0, _, outline => some outline
  | fuel + 1, place, outline =>
    if source.length ≤ place then some outline
    else
      let line := slice place (lineEnd source place) source
      match classHead.find? line with
      | some found => do
        let (type, resume) ← typeOutline? source place line found
        let (start, stop) := (found.group? "name").getD (0, 0)
        let name := String.ofList (slice start stop line)
        declarationsFrom source fuel resume { outline with types := outline.types.insert name type }
      | none => do
        match ← topLevel source place line with
        | some d =>
          let (name, callable) ← d.callable? source
          declarationsFrom source fuel d.resume
            { outline with functions := outline.functions.insert name callable }
        | none => declarationsFrom source fuel (skipLine source place line) outline

/-- The modules that a script names, in order of their places. -/
def importsOf (source : List Char) : List String :=
  let found := imports.flatMap fun p => (Pattern.findAll p source).filterMap fun f => f.group? "target"
  let ordered := found.mergeSort fun a b => decide (a.1 < b.1) || (a.1 == b.1 && decide (a.2 ≤ b.2))
  distinct (ordered.map fun (start, stop) => String.ofList (slice start stop source))

/-- The outline of a script, if it can be scanned. -/
def outline? (source : String) : Option Outline :=
  let text := source.toList
  declarationsFrom text (text.length + 1) 0 { Outline.empty with imports := importsOf text }

end CodeIndex.Script
