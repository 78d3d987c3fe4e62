import CodeIndex.Text.Blank
import CodeIndex.Text.Letter

set_option autoImplicit false

/-!
# Tokens of Python

A text in quotes is an opening and a closing token; between them stand the tokens of the expressions that are
written into it, each between brackets of its own.  The first token of a logical line carries the width of
its indentation; comments, blank lines and line breaks inside brackets leave no trace.
-/

namespace CodeIndex.Python

open Text

inductive Token.Kind where
  | word | number | mark
  /-- A bracket or the start of a text in quotes. -/
  | opening
  | closing
  deriving DecidableEq, Repr

structure Token where
  kind : Token.Kind
  /-- As written; a text in quotes is shown by its quote only. -/
  text : List Char
  start : Nat
  stop : Nat
  /-- Indentation of the logical line that the token begins. -/
  indent : Option Nat
  deriving DecidableEq, Repr

structure Quote where
  mark : Char
  /-- Three quotes at either end. -/
  long : Bool
  /-- A backslash stands for itself. -/
  raw : Bool
  /-- Expressions in braces are evaluated. -/
  filled : Bool
  deriving DecidableEq, Repr

inductive Frame where
  | bracket
  | quoted (quote : Quote)
  /-- An expression written into a text. -/
  | hole
  /-- How the value of such an expression is formatted. -/
  | format
  deriving DecidableEq, Repr

structure Lexer where
  offset : Nat
  /-- What is open, the innermost first. -/
  frames : List Frame
  /-- Indentation so far, at the start of a line. -/
  indent : Option Nat

namespace Quote

def ends (q : Quote) : List Char := List.replicate (if q.long then 3 else 1) q.mark

/-- A quote with its prefix at the start of a text, and its length. -/
def read? (text : List Char) : Option (Quote × Nat) :=
  let letters := (text.takeWhile fun c => "rRbBuUfFtT".toList.contains c)
  let has := fun s : String => letters.any fun c => s.toList.contains c
  match text.drop letters.length with
  | c :: rest =>
    if 2 < letters.length || !(c == '"' || c == '\'') then none
    else
      let long := [c, c].isPrefixOf rest
      let quote : Quote := ⟨c, long, has "rR", has "fFtT"⟩
      some (quote, letters.length + quote.ends.length)
  | [] => none

/-- Length of what a backslash begins in a text with expressions. -/
def escapeLength (q : Quote) (rest : List Char) : Nat :=
  match rest with
  | [] => 1
  | c :: rest' =>
    if q.raw then if c == q.mark || c == '\\' then 2 else 1
    else if c == '\x7b' || c == '\x7d' then 1
    else if c == 'N' && rest'.head? == some '\x7b' then
      3 + (rest'.takeWhile (· != '\x7d')).length
    else 2

end Quote

/-- Length of a number; a letter may follow that belongs to something else. -/
def numberLength (text : List Char) : Nat :=
  let digits := fun cs : List Char => (cs.takeWhile fun c => c.isDigit || c == '_').length
  match text with
  | '0' :: base :: rest =>
    if "xXoObB".toList.contains base then
      2 + (rest.takeWhile fun c => c.isAlphanum || c == '_').length
    else decimal digits text
  | _ => decimal digits text
where
  /-- Digits, a fraction, an exponent and a suffix. -/
  decimal (digits : List Char → Nat) (text : List Char) : Nat :=
    let whole := digits text
    let fraction := match text.drop whole with
      | '.' :: rest => 1 + digits rest
      | _ => 0
    let exponent := match text.drop (whole + fraction) with
      | e :: sign :: rest =>
        if !(e == 'e' || e == 'E') then 0
        else if (sign == '+' || sign == '-') && rest.head?.any Char.isDigit then 2 + digits rest
        else if sign.isDigit then 1 + digits (sign :: rest)
        else 0
      | _ => 0
    let suffix := match text.drop (whole + fraction + exponent) with
      | c :: _ => if "jJlL".toList.contains c then 1 else 0
      | [] => 0
    whole + fraction + exponent + suffix

/-- Length of a mark, a following equals sign included. -/
def markLength : List Char → Nat
  | c :: '=' :: _ => if "=!<>:+-*/%&|^@".toList.contains c then 2 else 1
  | _ => 1

namespace Lexer

/-- The lexer after some characters. -/
def past (s : Lexer) (length : Nat) (frames : List Frame) : Lexer := ⟨s.offset + length, frames, none⟩

def token (s : Lexer) (kind : Token.Kind) (text : List Char) (length : Nat) : Token :=
  ⟨kind, text, s.offset, s.offset + length, s.indent⟩

/-- One step inside a text in quotes: what is read, how far, and what is open then. -/
def readQuoted (s : Lexer) (q : Quote) (outer : List Frame) (text : List Char) :
    Option Token × Nat × List Frame :=
  let here := .quoted q :: outer
  match text with
  | [] => (none, 1, here)
  | c :: rest =>
    if q.ends.isPrefixOf text then (some (s.token .closing [q.mark] q.ends.length), q.ends.length, outer)
    else if c == '\\' then (none, if q.filled then q.escapeLength rest else 2, here)
    else if q.filled && c == '\x7b' then
      if rest.head? == some '\x7b' then (none, 2, here)
      else (some (s.token .opening [c] 1), 1, .hole :: here)
    else (none, 1, here)

/-- One step inside the format of a value. -/
def readFormat (s : Lexer) (outer : List Frame) (text : List Char) : Option Token × Nat × List Frame :=
  match text with
  | '\x7b' :: _ => (some (s.token .opening ['\x7b'] 1), 1, .hole :: .format :: outer)
  | '\x7d' :: _ => (some (s.token .closing ['\x7d'] 1), 1, outer.drop 1)
  | _ => (none, 1, .format :: outer)

/-- One step in code, at a character that is no blank and begins no comment. -/
def readCode (s : Lexer) (c : Char) (text : List Char) : Option Token × Nat × List Frame :=
  match Quote.read? text with
  | some (q, length) => (some (s.token .opening [q.mark] length), length, .quoted q :: s.frames)
  | none =>
    if isIdentifierStart c then
      let word := text.takeWhile isIdentifierPart
      (some (s.token .word word (max word.length 1)), max word.length 1, s.frames)
    else if c.isDigit || (c == '.' && (text.drop 1).head?.any Char.isDigit) then
      let length := max (numberLength text) 1
      (some (s.token .number (text.take length) length), length, s.frames)
    else if c == '(' || c == '[' || c == '\x7b' then
      (some (s.token .opening [c] 1), 1, .bracket :: s.frames)
    else if c == ')' || c == ']' || c == '\x7d' then (some (s.token .closing [c] 1), 1, s.frames.drop 1)
    else if c == ':' && s.frames.head? == some .hole then (none, 1, .format :: s.frames)
    else
      let length := markLength text
      (some (s.token .mark (text.take length) length), length, s.frames)

/-- Length of a backslash with the line break after it. -/
def continuationLength : List Char → Nat
  | '\n' :: _ => 2
  | '\r' :: '\n' :: _ => 3
  | _ => 1

/-- Blanks, comments and joined lines: how far they go, and the indentation then. -/
def skip? (s : Lexer) (c : Char) (rest : List Char) : Option (Nat × Option Nat) :=
  if c == '\n' then some (1, if s.frames.isEmpty then some 0 else s.indent)
  else if c == '\t' then some (1, s.indent.map (· + 8))
  else if c == '\r' || c == '\x0c' then some (1, s.indent.map fun _ => 0)
  else if c == '\ufeff' || c == '\u2060' || c == '\u200b' then some (1, s.indent)
  else if isBlank c then some (1, s.indent.map (· + 1))
  else if c == '#' then some (1 + (rest.takeWhile (· != '\n')).length, s.indent)
  else if c == '\\' then some (continuationLength rest, s.indent)
  else none

/-- The tokens of a text from where the lexer stands. -/
def tokens : Nat → Lexer → List Char → List Token
  | 0, _, _ => []
  | _, _, [] => []
  | fuel + 1, s, c :: rest =>
    let further := fun (step : Option Token × Nat × List Frame) =>
      let (found, length, frames) := step
      found.toList ++ tokens fuel (s.past length frames) ((c :: rest).drop length)
    match s.frames with
    | .quoted q :: outer => further (s.readQuoted q outer (c :: rest))
    | .format :: outer => further (s.readFormat outer (c :: rest))
    | _ =>
      match s.skip? c rest with
      | some (length, indent) => tokens fuel ⟨s.offset + length, s.frames, indent⟩ ((c :: rest).drop length)
      | none => further (s.readCode c (c :: rest))

end Lexer

def tokens (source : List Char) : List Token := Lexer.tokens (source.length + 1) ⟨0, [], some 0⟩ source

end CodeIndex.Python
