import CodeIndex.Outline
import CodeIndex.Pattern
import CodeIndex.Text.Letter

set_option autoImplicit false

/-!
# Shell scripts

A script is read line by line.  A function runs from its defining line to the first line after which as many
braces are closed as were opened; the commands on the lines strictly between are its calls.  A function
that closes on its own defining line has no such lines, and the script is not scanned.
-/

namespace CodeIndex.Shell

open Text Pattern

abbrev Line := List Char

def blanks : Pattern Char := star (one isBlank)

def blanks1 : Pattern Char := plus (one isBlank)

def isNameStart (c : Char) : Bool := c.isAlpha || c == '_'

/-- A function name: letters, digits, and some punctuation after the first character. -/
def name : Pattern Char :=
  .group "name" (.seq (one isNameStart) (star (one fun c => isWord c || c == ':' || c == '.' || c == '-')))

def parens : Pattern Char := seqs [word ['('], blanks, word [')']]

/-- `function name`, with or without parentheses, or `name()`. -/
def definition : Pattern Char := seqs [textStart, blanks,
  .alt (seqs [word "function".toList, blanks1, name, blanks, optional parens]) (seqs [name, blanks, parens])]

/-- `source file` or `. file`. -/
def inclusion : Pattern Char := seqs [textStart, blanks,
  .alt (word "source".toList) (word ['.']), blanks1, optional (one fun c => c == '"' || c == '\''),
  .group "target" (plus (one fun c => !(c == '"' || c == '\'' || c == ';' || isBlank c)))]

/-- What a pattern's group holds in a line. -/
def groupIn? (p : Pattern Char) (group : String) (line : Line) : Option Line := do
  let (start, stop) ← (← p.find? line).group? group
  return slice start stop line

def definedName? (line : Line) : Option Line := groupIn? definition "name" line

def included? (line : Line) : Option Line := groupIn? inclusion "target" line

/-- The line up to a comment. -/
def code (line : Line) : Line := (find? " #".toList line).elim line line.take

/-- Braces open after a line, and whether one was opened at all. -/
def braces (depth : Int × Bool) (line : Line) : Int × Bool :=
  (code line).foldl (fun (depth, opened) c =>
    if c = '\x7b' then (depth + 1, true) else if c = '\x7d' then (depth - 1, opened) else (depth, opened)) depth

/-- Number of lines before the one that closes what the first line opens; all lines if none does. -/
def bodyLength (depth : Int × Bool) : List Line → Nat
  | [] => 0
  | line :: rest =>
    let depth := braces depth line
    if depth.2 && decide (depth.1 ≤ 0) then 0 else bodyLength depth rest + 1

def isReserved (command : Line) : Bool :=
  ["if", "then", "else", "elif", "fi", "for", "in", "do", "done", "while", "until", "case", "esac",
    "function", "return", "local", "export", "declare", "readonly", "set", "shift", "break", "continue",
    "true", "false", "exit"].contains (String.ofList command)

def isCommand : Line → Bool
  | [] => false
  | c :: rest => isNameStart c && rest.all fun c => isWord c || c == '-'

/-- The command of each statement on a line: its first word that assigns nothing. -/
def commands (line : Line) : List Line :=
  let text := trim line
  if text.head? = some '#' then []
  else
    let statements := split (fun c => [';', '|', '&', '(', '\x7b', '\x7d', '\x60'].contains c) text
    (statements.filterMap fun s => (words s).find? fun w => !w.contains '=').filter fun w =>
      isCommand w && !isReserved w

/-- Text of a comment line. -/
def comment? (line : Line) : Option Line :=
  let text := trim line
  if text.head? = some '#' && !"#!".toList.isPrefixOf text then some (trim (text.dropWhile (· == '#'))) else none

/-- The first line with text of the comments right above, given the lines above from near to far. -/
def docAbove : List Line → Option Line
  | [] => none
  | line :: above =>
    match comment? line with
    | none => none
    | some text => (docAbove above).orElse fun _ => if text.isEmpty then none else some text

/-- A line outside all bodies, with the function that it defines. -/
structure Piece where
  /-- Number of lines above. -/
  offset : Nat
  line : Line
  name : Option Line
  /-- The lines strictly between the defining line and the closing one. -/
  body : List Line

/-- The lines outside all bodies; nothing when a function closes on its defining line. -/
def pieces? (offset : Nat) : List Line → Option (List Piece)
  | [] => some []
  | line :: rest =>
    match definedName? line with
    | none => (pieces? (offset + 1) rest).map (⟨offset, line, none, []⟩ :: ·)
    | some name =>
      let length := bodyLength (0, false) (line :: rest)
      if length = 0 then none
      else (pieces? (offset + length + 1) (rest.drop length)).map
        (⟨offset, line, some name, rest.take (length - 1)⟩ :: ·)
termination_by lines => lines.length
decreasing_by
  · simp
  · rw [List.length_drop, List.length_cons]
    omega

/-- The functions that pieces of a script define. -/
def Piece.callable? (lines : List Line) (p : Piece) : Option (String × Callable) := do
  let name := String.ofList (← p.name)
  return (name, {
    line := (p.offset + 1).toUInt64
    signature := name ++ "()"
    calls := calledNames name ((p.body.flatMap commands).map String.ofList)
    doc := (docAbove (lines.take p.offset).reverse).map String.ofList })

/-- The outline of a script, unless a function closes on its defining line. -/
def outline? (source : String) : Option Outline := do
  let lines := Text.lines source.toList
  let pieces ← pieces? 0 lines
  return {
    functions := Dict.ofList (pieces.filterMap (Piece.callable? lines))
    types := {}
    imports := distinct ((pieces.filterMap fun p => included? p.line).map String.ofList) }

end CodeIndex.Shell
