import CodeIndex.Json.Finite
import CodeIndex.Text.Letter

set_option autoImplicit false

/-!
# JSON with comments

Settings files may be written in JSON5: comments, a comma after the last item, bare keys, single quotes,
more escapes, hexadecimal and signed numbers, `Infinity` and `NaN`.  The two words have no JSON value
and read as `null`.  A whole number must fit 64 signed bits and a hexadecimal one 32 bits without sign.
-/

namespace CodeIndex.Json.Relaxed

def endsLine (c : Char) : Bool :=
  c == '\n' || c == '\r' || c.toNat == 0x2028 || c.toNat == 0x2029

/-- White space of the notation: tabs, line ends, the byte order mark and all space separators. -/
def isSpace (c : Char) : Bool :=
  let n := c.toNat
  n == 9 || n == 11 || n == 12 || n == 0x20 || n == 0xA0 || n == 0xFEFF || n == 0x1680
    || (0x2000 ≤ n && n ≤ 0x200A) || n == 0x202F || n == 0x205F || n == 0x3000 || endsLine c

/-- What follows a block comment whose opening was read. -/
def afterBlock : List Char → Option (List Char)
  | [] => none
  | '*' :: '/' :: rest => some rest
  | _ :: rest => afterBlock rest

/-- Skips space and comments; nothing when a block comment stays open. -/
def skip (text : List Char) : Option (List Char) := go (text.length + 1) text
where
  go : Nat → List Char → Option (List Char)
    | 0, text => some text
    | fuel + 1, text =>
      match text.dropWhile isSpace with
      | '/' :: '*' :: rest => (afterBlock rest).bind (go fuel)
      | '/' :: '/' :: rest => go fuel (rest.dropWhile fun c => !endsLine c)
      | rest => some rest

def isNameStart (c : Char) : Bool := Text.isLetter c || c == '$' || c == '_'

/-- Letters, marks, digits, connectors and the spacing accents. -/
def isNamePart (c : Char) : Bool :=
  let n := c.toNat
  isNameStart c || Text.isWord c || n == 0x5E || n == 0x60 || n == 0xA8 || n == 0xAF || n == 0xB4
    || n == 0xB7 || n == 0xB8

/-- The rest of a name; an escape stands for the character it encodes. -/
def name? (isNext : Char → Bool) (read : List Char) : List Char → Option (List Char × List Char)
  | [] => some (read.reverse, [])
  | '\\' :: 'u' :: a :: b :: c :: d :: rest =>
    match unit? a b c d with
    | some n => if isLeading n || isTrailing n then none else name? isNamePart (Char.ofNat n :: read) rest
    | none => none
  | c :: rest => if isNext c then name? isNamePart (c :: read) rest else some (read.reverse, c :: rest)

/-- What a backslash and this character stand for; digits, `x` and `u` stand for nothing by themselves. -/
def escaped? (c : Char) : Option Char :=
  if c == 'b' then some '\x08'
  else if c == 'f' then some '\x0c'
  else if c == 'n' then some '\n'
  else if c == 'r' then some '\r'
  else if c == 't' then some '\t'
  else if c == 'v' then some '\x0b'
  else if c == '0' then some '\x00'
  else if isDigit c || c == 'x' || c == 'u' || endsLine c then none
  else some c

/-- The rest of a string up to its closing `mark`. -/
def unquote (mark : Char) (read : List Char) : List Char → Option (List Char × List Char)
  | [] => none
  | '\\' :: 'u' :: a :: b :: c :: d :: rest =>
    match unit? a b c d with
    | none => none
    | some lead =>
      if isTrailing lead then none
      else if isLeading lead then
        match rest with
        | '\\' :: 'u' :: a :: b :: c :: d :: rest =>
          match unit? a b c d with
          | some trail =>
            if isTrailing trail then unquote mark (pairChar lead trail :: read) rest else none
          | none => none
        | _ => none
      else unquote mark (Char.ofNat lead :: read) rest
  | '\\' :: 'x' :: a :: b :: rest =>
    match unit? '0' '0' a b with
    | some n => unquote mark (Char.ofNat n :: read) rest
    | none => none
  | '\\' :: '\r' :: '\n' :: rest => unquote mark read rest
  | '\\' :: c :: rest =>
    if endsLine c then unquote mark read rest
    else match escaped? c with
      | some e => unquote mark (e :: read) rest
      | none => none
  | c :: rest =>
    if c = mark then some (read.reverse, rest)
    else if endsLine c then none
    else unquote mark (c :: read) rest

/-- Whole digits, fraction and exponent of a number; a point needs digits on one side. -/
def decimal? (text : List Char) : Option (List Char × List Char × List Char) :=
  match text with
  | '.' :: _ => do
    let (frac, rest) ← fraction? text
    let (exp, rest) ← exponentOrNone rest
    return ([], frac ++ exp, rest)
  | _ => do
    let (whole, rest) ← whole? text
    let (frac, rest) := match rest with
      | '.' :: more => ('.' :: more.takeWhile isDigit, more.dropWhile isDigit)
      | _ => ([], rest)
    let (exp, rest) ← exponentOrNone rest
    return (whole, frac ++ exp, rest)
where
  /-- A mark without digits is no part of the number. -/
  exponentOrNone (rest : List Char) : Option (List Char × List Char) :=
    match exponent? rest with
    | some found => some found
    | none => some ([], rest)

/-- A number in 64 signed bits. -/
def whole64? (minus : Bool) (n : Nat) : Option Json :=
  if minus then
    if n = 0 then some (.natural 0) else if n ≤ 1 <<< 63 then some (.negative n) else none
  else if n < 1 <<< 63 then some (.natural n) else none

def hexNumber? (digits : List Char) : Option Json :=
  let n := digits.foldl (fun n c => n * 16 + (hexValue? c).getD 0) 0
  if n < 1 <<< 32 then some (.natural n) else none

def isHexDigit (c : Char) : Bool := (hexValue? c).isSome

def unsigned? (sign : Option Char) (text : List Char) : Option (Json × List Char) :=
  match text with
  | '0' :: x :: h :: rest =>
    if (x = 'x' ∨ x = 'X') ∧ isHexDigit h then
      if sign.isSome then none
      else do
        let n ← hexNumber? (h :: rest.takeWhile isHexDigit)
        return (n, rest.dropWhile isHexDigit)
    else plainNumber sign text
  | _ => plainNumber sign text
where
  plainNumber (sign : Option Char) (text : List Char) : Option (Json × List Char) := do
    let (whole, tail, rest) ← decimal? text
    let minus := decide (sign = some '-')
    if tail.isEmpty then
      let n ← whole64? minus (naturalOf whole)
      return (n, rest)
    else
      let written := (if minus then ['-'] else []) ++ whole ++ tail
      if decimalInRange written then return (.decimal (String.ofList written), rest) else none

def next? : List Char → Option (Token × List Char)
  | [] => none
  | c :: rest =>
    match punctuation? c with
    | some token => some (token, rest)
    | none =>
      if c = '"' ∨ c = '\'' then
        (unquote c [] rest).map fun (s, rest) => (.text (String.ofList s), rest)
      else if c = '+' ∨ c = '-' then
        match name? isNameStart [] rest with
        | some ([], _) => (unsigned? (some c) rest).map fun (n, rest) => (.number n, rest)
        | some (word, rest) =>
          if c = '-' ∧ (word = "Infinity".toList ∨ word = "NaN".toList) then some (.number .null, rest)
          else none
        | none => none
      else match name? isNameStart [] (c :: rest) with
        | some ([], _) => (unsigned? none (c :: rest)).map fun (n, rest) => (.number n, rest)
        | some (word, rest) => some (.word (String.ofList word), rest)
        | none => none

def grammar : Grammar :=
  ⟨true, true, fun w => if w = "Infinity" ∨ w = "NaN" then some .null else none⟩

/-- The value of a text in relaxed notation. -/
def value? (text : String) : Option Json := do
  let cs := text.toList
  let ts ← tokensBy skip next? (cs.length + 1) cs []
  let value ← grammar.ofTokens? ts
  return value.canonical

end CodeIndex.Json.Relaxed
