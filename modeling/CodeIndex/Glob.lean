import CodeIndex.Pattern
import CodeIndex.Text.Basic

set_option autoImplicit false

/-!
# Globs

A glob is matched against the bytes of a whole path.  `*` stands for any bytes and `?` for one byte, slashes
included unless they are to be kept apart; `[…]` for one byte of a class, where a character of several bytes counts as its bytes; `{…,…}`
for one of its branches, empty branches left out.  Between slashes or at an end, `**` stands for any number
of directories.
-/

namespace CodeIndex

inductive Glob.Part where
  | literal (c : Char)
  | any
  | many
  /-- `**` at the beginning, with the slash after it. -/
  | leadingDirs
  /-- `**` at the end, with the slash before it. -/
  | trailingDirs
  /-- `**` between slashes, with both of them. -/
  | middleDirs
  | oneOf (negated : Bool) (ranges : List (Char × Char))
  | branches (alternatives : List (List Glob.Part))

structure Glob where
  parts : List Glob.Part

namespace Glob

/-- The branches that are being read: the innermost group last, its finished branches before its open one. -/
structure Reading where
  /-- Groups that are open, the innermost first: their finished branches and what stood before the group. -/
  groups : List (List (List Part) × List Part)
  /-- Parts of the open branch, last first. -/
  parts : List Part

def Reading.push (r : Reading) (p : Part) : Reading := { r with parts := p :: r.parts }

/-- The rest of a class whose bracket was read.  `first` holds until something was read, `open` when a dash
    waits for the end of a range.  Answers the ranges, last first. -/
def readClass (first waiting : Bool) (ranges : List (Char × Char)) :
    List Char → Option (List (Char × Char) × List Char)
  | [] => none
  | c :: rest =>
    if c = ']' ∧ !first then
      some (if waiting then ('-', '-') :: ranges else ranges, rest)
    else if c = '-' ∧ !first ∧ !waiting then readClass false true ranges rest
    else if waiting then
      match ranges with
      | (a, _) :: more => if c < a then none else readClass false false ((a, c) :: more) rest
      | [] => none
    else readClass false false ((c, c) :: ranges) rest

def isSeparator (c : Option Char) : Bool := c == some '/'

/-- Two stars that stand for any bytes. -/
def Reading.twoStars (r : Reading) : Reading := (r.push .many).push .many

/-- The second of two stars was read; `before` is the character before the first. -/
def readStars (r : Reading) (before : Option Char) (rest : List Char) : Reading × List Char :=
  if r.parts.isEmpty then
    match rest with
    | [] => (r.push .leadingDirs, rest)
    | '/' :: rest => (r.push .leadingDirs, rest)
    | _ => (r.twoStars, rest)
  else
    let inGroup := !r.groups.isEmpty
    let opens := before == some ',' || before == some '\x7b'
    if !isSeparator before && !(inGroup && opens) then (r.twoStars, rest)
    else
      let replaceLast (p : Part) : Reading :=
        match r.parts with
        | .leadingDirs :: _ => r
        | .trailingDirs :: _ => r
        | _ :: more => { r with parts := p :: more }
        | [] => r
      match rest with
      | [] => (replaceLast .trailingDirs, rest)
      | c :: more =>
        if inGroup && (c == ',' || c == '\x7d') then (replaceLast .trailingDirs, rest)
        else if c == '/' then (replaceLast .middleDirs, more)
        else (r.twoStars, rest)

/-- Reads a glob; `before` is the character before the rest.  Every step takes a character. -/
def readParts : Nat → Reading → Option Char → List Char → Option Reading
  | 0, _, _, _ => none
  | _, r, _, [] => some r
  | fuel + 1, r, before, c :: rest =>
    match c with
    | '?' => readParts fuel (r.push .any) (some c) rest
    | '*' =>
      match rest with
      | '*' :: rest =>
        let (r, after) := readStars r before rest
        let taken := rest.take (rest.length - after.length)
        readParts fuel r (taken.getLast?.orElse fun _ => some '*') after
      | _ => readParts fuel (r.push .many) (some c) rest
    | '[' =>
      let (negated, body) := match rest with
        | '!' :: body => (true, body)
        | '^' :: body => (true, body)
        | _ => (false, rest)
      match readClass true false [] body with
      | some (ranges, rest) => readParts fuel (r.push (.oneOf negated ranges.reverse)) (some ']') rest
      | none => none
    | '\x7b' => readParts fuel ⟨([], r.parts) :: r.groups, []⟩ (some c) rest
    | '\x7d' =>
      match r.groups with
      | [] => none
      | (done, outer) :: groups =>
        let group := Part.branches (done ++ [r.parts.reverse])
        readParts fuel ⟨groups, group :: outer⟩ (some c) rest
    | ',' =>
      match r.groups with
      | [] => readParts fuel (r.push (.literal ',')) (some c) rest
      | (done, outer) :: groups =>
        readParts fuel ⟨(done ++ [r.parts.reverse], outer) :: groups, []⟩ (some c) rest
    | '\\' =>
      match rest with
      | [] => none
      | e :: rest => readParts fuel (r.push (.literal e)) (some e) rest
    | c => readParts fuel (r.push (.literal c)) (some c) rest

/-- Reads a glob; unclosed classes and groups, ranges that go down, and a lone backslash are refused. -/
def ofString? (s : String) : Option Glob := do
  let cs := s.toList
  let r ← readParts (cs.length + 1) ⟨[], []⟩ none cs
  if r.groups.isEmpty then some ⟨r.parts.reverse⟩ else none

open Pattern

def byte (b : UInt8) : Pattern UInt8 := one (· == b)

def anyByte : Pattern UInt8 := one fun _ => true

/-- Any byte but a slash. -/
def nameByte : Pattern UInt8 := one fun b => b != 47

def anyBytes : Pattern UInt8 := star anyByte

def slash : Pattern UInt8 := byte 47

def bytesOf (c : Char) : List UInt8 := String.utf8EncodeChar c

/-- Whether a byte is in a class: a range runs from the last byte of its first character to the first byte
    of its last, and the other bytes of both stand for themselves. -/
def inRange (b : UInt8) (range : Char × Char) : Bool :=
  let first := bytesOf range.1
  let last := bytesOf range.2
  first.contains b || last.contains b
    || (first.getLast?.any (· ≤ b) && last.head?.any (b ≤ ·))

def inRanges (b : UInt8) (ranges : List (Char × Char)) : Bool :=
  ranges.any fun r => if r.1 = r.2 then (bytesOf r.1).contains b else inRange b r

mutual

/-- The pattern of a part, with what `?` stands for. -/
def patternOf (wild : Pattern UInt8) : Part → Pattern UInt8
  | .literal c => word (bytesOf c)
  | .any => wild
  | .many => star wild
  | .leadingDirs => alt (optional slash) (seq anyBytes slash)
  | .trailingDirs => seq slash anyBytes
  | .middleDirs => alt slash (seqs [slash, anyBytes, slash])
  | .oneOf negated ranges => one fun b => inRanges b ranges != negated
  | .branches alternatives =>
    match patternsOf wild alternatives with
    | [] => nothing
    | patterns => anyOf patterns

/-- The patterns of the branches that are not empty. -/
def patternsOf (wild : Pattern UInt8) : List (List Part) → List (Pattern UInt8)
  | [] => []
  | branch :: rest =>
    if saysNothing branch then patternsOf wild rest
    else seqs (sequenceOf wild branch) :: patternsOf wild rest

def sequenceOf (wild : Pattern UInt8) : List Part → List (Pattern UInt8)
  | [] => []
  | part :: rest => patternOf wild part :: sequenceOf wild rest

/-- Nothing but groups without a branch. -/
def saysNothing : List Part → Bool
  | [] => true
  | .branches alternatives :: rest => allSayNothing alternatives && saysNothing rest
  | _ :: _ => false

def allSayNothing : List (List Part) → Bool
  | [] => true
  | branch :: rest => saysNothing branch && allSayNothing rest

end

def pattern (wild : Pattern UInt8) (g : Glob) : Pattern UInt8 :=
  match g.parts with
  | [.leadingDirs] => anyBytes
  | parts => seqs (sequenceOf wild parts)

def accepts (g : Glob) (path : String) : Bool := (g.pattern anyByte).accepts path.toUTF8.toList

/-- Matches a path when `*` and `?` take no slash. -/
def acceptsByNames (g : Glob) (path : String) : Bool := (g.pattern nameByte).accepts path.toUTF8.toList

end Glob

end CodeIndex
