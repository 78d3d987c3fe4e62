import CodeIndex.Text.Blank
import CodeIndex.Text.Letter

set_option autoImplicit false

/-!
# Tokens of Rust

Comments are tokens as well, since documentation is written in them.  Closing angle brackets are single marks, so
that nested type arguments close one at a time.
-/

namespace CodeIndex.Rust

open Text

inductive Token.Kind where
  /-- Identifiers and keywords. -/
  | word
  | literal
  | lifetime
  | opening
  | closing
  | mark
  | comment
  deriving DecidableEq, Repr

structure Token where
  kind : Token.Kind
  text : List Char
  start : Nat
  stop : Nat
  deriving DecidableEq, Repr

namespace Token

def isWord (t : Token) (word : String) : Bool := t.kind == .word && t.text == word.toList

def isMark (t : Token) (mark : String) : Bool := t.kind == .mark && t.text == mark.toList

/-- One or two angle brackets that open type arguments or compare. -/
def isLess (t : Token) : Bool := t.isMark "<" || t.isMark "<<"

def opens (t : Token) (bracket : Char) : Bool := t.kind == .opening && t.text == [bracket]

end Token

/-- Length of a block comment from inside it; comments nest. -/
def blockCommentLength (depth : Nat) : List Char → Nat
  | c :: d :: rest =>
    if c == '/' && d == '*' then blockCommentLength (depth + 1) rest + 2
    else if c == '*' && d == '/' then
      if depth ≤ 1 then 2 else blockCommentLength (depth - 1) rest + 2
    else blockCommentLength depth (d :: rest) + 1
  | rest => rest.length
termination_by text => text.length

/-- Length of a text in quotes from its opening quote on. -/
def quotedLength (quote : Char) (text : List Char) : Nat :=
  1 + inside (text.drop 1)
where
  /-- Up to and with the closing quote. -/
  inside : List Char → Nat
    | [] => 0
    | '\\' :: _ :: rest => inside rest + 2
    | c :: rest => if c == quote then 1 else inside rest + 1

/-- Length of a raw text from its hash signs on. -/
def rawLength? (text : List Char) : Option Nat :=
  let hashes := (text.takeWhile (· == '#')).length
  match text.drop hashes with
  | '"' :: rest => some (hashes + 1 + inside ('"' :: List.replicate hashes '#') rest)
  | _ => none
where
  /-- Up to and with the closing quote and its hash signs. -/
  inside (ending : List Char) : List Char → Nat
    | [] => 0
    | c :: rest => if ending.isPrefixOf (c :: rest) then ending.length else inside ending rest + 1

/-- Length of a literal text that begins with letters. -/
def prefixedLength? (text : List Char) : Option Nat :=
  match text with
  | 'b' :: 'r' :: rest => (rawLength? rest).map (· + 2)
  | 'c' :: 'r' :: rest => (rawLength? rest).map (· + 2)
  | 'r' :: rest => (rawLength? rest).map (· + 1)
  | 'b' :: '"' :: _ => some (1 + quotedLength '"' (text.drop 1))
  | 'c' :: '"' :: _ => some (1 + quotedLength '"' (text.drop 1))
  | 'b' :: '\'' :: _ => some (1 + quotedLength '\'' (text.drop 1))
  | _ => none

/-- Length of an identifier, with what makes it a raw one. -/
def wordLength (text : List Char) : Nat :=
  match text with
  | 'r' :: '#' :: c :: _ =>
    if isIdentifierStart c then 2 + ((text.drop 2).takeWhile isIdentifierPart).length
    else (text.takeWhile isIdentifierPart).length
  | _ => (text.takeWhile isIdentifierPart).length

/-- Length of a number; after a dot it is a field and has no fraction. -/
def numberLength (afterDot : Bool) (text : List Char) : Nat :=
  let part := fun cs : List Char =>
    let run := cs.takeWhile fun c => c.isAlphanum || c == '_'
    let signed := run.getLast?.any (fun c => c == 'e' || c == 'E') && !("0x".toList.isPrefixOf text)
    match signed, cs.drop run.length with
    | true, sign :: d :: rest =>
      if (sign == '+' || sign == '-') && d.isDigit then
        run.length + 1 + ((d :: rest).takeWhile fun c => c.isAlphanum || c == '_').length
      else run.length
    | _, _ => run.length
  if afterDot then (text.takeWhile Char.isDigit).length
  else
    let whole := part text
    match text.drop whole with
    | '.' :: d :: rest => if d.isDigit then whole + 1 + part (d :: rest) else whole
    | _ => whole

/-- Marks of more than one character. -/
def longMarks : List (List Char) := ["..=", "...", "..", "::", "->", "=>", "||", "<<"].map String.toList

def markLength (text : List Char) : Nat :=
  ((longMarks.find? fun m => m.isPrefixOf text).map List.length).getD 1

/-- Kind and length of what begins with a single quote. -/
def tick (text : List Char) : Token.Kind × Nat :=
  match text with
  | _ :: '\\' :: _ => (.literal, quotedLength '\'' text)
  | _ :: _ :: '\'' :: _ => (.literal, 3)
  | _ => (.lifetime, 1 + ((text.drop 1).takeWhile isIdentifierPart).length)

/-- Kind and length of the token at the start of a text; nothing for a blank. -/
def token? (afterDot : Bool) (text : List Char) : Option (Token.Kind × Nat) :=
  match text with
  | [] => none
  | c :: rest =>
    if isBlank c || c == '\ufeff' then none
    else if "//".toList.isPrefixOf text then some (.comment, (text.takeWhile (· != '\n')).length)
    else if "/*".toList.isPrefixOf text then some (.comment, 2 + blockCommentLength 1 (text.drop 2))
    else if c == '"' then some (.literal, quotedLength '"' text)
    else if c == '\'' then some (tick text)
    else if isIdentifierStart c then
      match prefixedLength? text with
      | some length => some (.literal, length)
      | none => some (.word, wordLength text)
    else if c.isDigit then some (.literal, numberLength afterDot (c :: rest))
    else if "([\x7b".toList.contains c then some (.opening, 1)
    else if ")]\x7d".toList.contains c then some (.closing, 1)
    else some (.mark, markLength text)

/-- The tokens of a text that begins at an offset. -/
def tokensFrom : Nat → Bool → Nat → List Char → List Token
  | 0, _, _, _ => []
  | _, _, _, [] => []
  | fuel + 1, afterDot, offset, c :: rest =>
    match token? afterDot (c :: rest) with
    | none => tokensFrom fuel afterDot (offset + 1) rest
    | some (kind, length) =>
      let length := max length 1
      let text := (c :: rest).take length
      ⟨kind, text, offset, offset + length⟩ ::
        tokensFrom fuel (kind == .mark && text == ['.']) (offset + length) ((c :: rest).drop length)

/-- The tokens of a text, after a first line that names an interpreter. -/
def tokens (source : List Char) : List Token :=
  let skipped :=
    if "#!".toList.isPrefixOf source && !"#![".toList.isPrefixOf source
    then (source.takeWhile (· != '\n')).length else 0
  tokensFrom (source.length + 1) false skipped (source.drop skipped)

end CodeIndex.Rust
