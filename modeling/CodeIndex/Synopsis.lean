import CodeIndex.Document
import CodeIndex.Text.Basic

set_option autoImplicit false

/-!
# Synopses of documentation files

A heading is a line that starts with `#` marks, or a line underlined by `=` or `-`.  The first heading of
level one is the title; the others are kept in order, up to a limit.  Fenced blocks hold no headings, but an
underline is looked for on the next line whatever that line is.
-/

namespace CodeIndex.Synopsis

open Text

def headingLimit : Nat := 20

def empty : Synopsis := ⟨none, []⟩

def isFence (line : List Char) : Bool := "```".toList.isPrefixOf (trim line)

/-- A line of at least three marks and nothing else, and the level that it gives to the line above. -/
def underlineLevel? (line : List Char) : Option Nat :=
  let marks := trim line
  if marks.length < 3 then none
  else if marks.all (· == '=') then some 1
  else if marks.all (· == '-') then some 2
  else none

/-- A line of `#` marks and a text after a space, or of marks alone; its level and text. -/
def marked? (line : List Char) : Option (Nat × List Char) :=
  let level := (line.takeWhile (· == '#')).length
  let text := line.dropWhile (· == '#')
  if text.isEmpty || text.head? == some ' ' then
    some (level, trim (dropEndWhile (· == '#') (trim text)))
  else none

/-- The heading on a line, given the line after it; level and text. -/
def heading? (line : List Char) (next : Option (List Char)) : Option (Nat × List Char) :=
  let line := trimEnd line
  let found :=
    if line.head? = some '#' then marked? line
    else if (trim line).isEmpty then none
    else (next.bind underlineLevel?).map fun level => (level, trim line)
  found.filter fun (_, text) => !text.isEmpty

def addHeading (s : Synopsis) (level : Nat) (text : String) : Synopsis :=
  if level = 1 ∧ s.title.isNone then { s with title := some text }
  else if s.headings.length < headingLimit then { s with headings := s.headings ++ [text] }
  else s

/-- Reads on from a line, inside or outside a fenced block. -/
def readLines (inFence : Bool) (s : Synopsis) : List (List Char) → Synopsis
  | [] => s
  | line :: rest =>
    if isFence line then readLines (!inFence) s rest
    else if inFence then readLines inFence s rest
    else match heading? line rest.head? with
      | some (level, text) => readLines inFence (s.addHeading level (String.ofList text)) rest
      | none => readLines inFence s rest

def ofText (text : String) : Synopsis := readLines false empty (lines text.toList)

end CodeIndex.Synopsis
