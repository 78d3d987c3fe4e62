import CodeIndex.Json.Basic
import CodeIndex.Text.Basic

set_option autoImplicit false

/-!
# JSON tokens

`Token.text` is the compact written form of a token and `Token.next?` reads one token from the head of
a text.  Strings are written with the short escapes, `\u00xx` for the other control characters, and
everything else as it is.
-/

namespace CodeIndex.Json

inductive Token where
  | openArray | closeArray | openObject | closeObject | comma | colon
  | text (value : String)
  /-- A number, as the value it stands for. -/
  | number (value : Json)
  /-- A bare word such as `true`. -/
  | word (value : String)
  deriving BEq, Inhabited

def escape (c : Char) : List Char :=
  if c = '"' then ['\\', '"']
  else if c = '\\' then ['\\', '\\']
  else if c = '\n' then ['\\', 'n']
  else if c = '\r' then ['\\', 'r']
  else if c = '\t' then ['\\', 't']
  else if c = '\x08' then ['\\', 'b']
  else if c = '\x0c' then ['\\', 'f']
  else if c.toNat < 0x20 then ['\\', 'u', '0', '0', Text.hexDigit (c.toNat / 16), Text.hexDigit (c.toNat % 16)]
  else [c]

def quote (s : String) : List Char := '"' :: (s.toList.flatMap escape ++ ['"'])

/-- The written form of a number; of every other value, nothing. -/
def numberText : Json → List Char
  | .natural n => Nat.toDigits 10 n
  | .negative n => '-' :: Nat.toDigits 10 n
  | .decimal text => text.toList
  | _ => []

def Token.written : Token → List Char
  | .openArray => ['[']
  | .closeArray => [']']
  | .openObject => ['\x7b']
  | .closeObject => ['\x7d']
  | .comma => [',']
  | .colon => [':']
  | .text s => quote s
  | .number n => numberText n
  | .word w => w.toList

def digitValue? (c : Char) : Option Nat :=
  if '0' ≤ c ∧ c ≤ '9' then some (c.toNat - 48) else none

def hexValue? (c : Char) : Option Nat :=
  if '0' ≤ c ∧ c ≤ '9' then some (c.toNat - 48)
  else if 'a' ≤ c ∧ c ≤ 'f' then some (c.toNat - 87)
  else if 'A' ≤ c ∧ c ≤ 'F' then some (c.toNat - 55)
  else none

/-- The number that four hexadecimal digits stand for. -/
def unit? (a b c d : Char) : Option Nat := do
  let a ← hexValue? a
  let b ← hexValue? b
  let c ← hexValue? c
  let d ← hexValue? d
  return ((a * 16 + b) * 16 + c) * 16 + d

def isLeading (n : Nat) : Bool := 0xD800 ≤ n && n ≤ 0xDBFF

def isTrailing (n : Nat) : Bool := 0xDC00 ≤ n && n ≤ 0xDFFF

/-- The character that a pair of surrogate units encodes. -/
def pairChar (lead trail : Nat) : Char :=
  Char.ofNat (0x10000 + (lead - 0xD800) * 0x400 + (trail - 0xDC00))

/-- What a backslash and this character stand for. -/
def shortEscape? : Char → Option Char
  | '"' => some '"'
  | '\\' => some '\\'
  | '/' => some '/'
  | 'b' => some '\x08'
  | 'f' => some '\x0c'
  | 'n' => some '\n'
  | 'r' => some '\r'
  | 't' => some '\t'
  | _ => none

/-- The rest of a string and what follows its closing quote; `read` holds, last first, what was read. -/
def unquote (read : List Char) : List Char → Option (List Char × List Char)
  | [] => none
  | '"' :: rest => some (read.reverse, rest)
  | '\\' :: 'u' :: a :: b :: c :: d :: rest =>
    match unit? a b c d with
    | none => none
    | some lead =>
      if isTrailing lead then none
      else if isLeading lead then
        match rest with
        | '\\' :: 'u' :: a :: b :: c :: d :: rest =>
          match unit? a b c d with
          | some trail =>
            if isTrailing trail then unquote (pairChar lead trail :: read) rest else none
          | none => none
        | _ => none
      else unquote (Char.ofNat lead :: read) rest
  | '\\' :: e :: rest =>
    match shortEscape? e with
    | some c => unquote (c :: read) rest
    | none => none
  | c :: rest => if c.toNat < 0x20 then none else unquote (c :: read) rest

def isDigit (c : Char) : Bool := '0' ≤ c && c ≤ '9'

def naturalOf (digits : List Char) : Nat :=
  digits.foldl (fun n c => n * 10 + (c.toNat - 48)) 0

/-- The fraction at the head of a text, with its point; empty when there is none. -/
def fraction? : List Char → Option (List Char × List Char)
  | '.' :: rest =>
    let digits := rest.takeWhile isDigit
    if digits.isEmpty then none else some ('.' :: digits, rest.dropWhile isDigit)
  | rest => some ([], rest)

/-- The exponent at the head of a text, with its mark; empty when there is none. -/
def exponent? : List Char → Option (List Char × List Char)
  | e :: rest =>
    if e = 'e' ∨ e = 'E' then
      let (sign, rest) := match rest with
        | '+' :: rest => (['+'], rest)
        | '-' :: rest => (['-'], rest)
        | rest => ([], rest)
      let digits := rest.takeWhile isDigit
      if digits.isEmpty then none else some (e :: sign ++ digits, rest.dropWhile isDigit)
    else some ([], e :: rest)
  | [] => some ([], [])

/-- The whole digits of a number: a lone zero, or digits that do not begin with one. -/
def whole? (text : List Char) : Option (List Char × List Char) :=
  match text with
  | '0' :: rest => some (['0'], rest)
  | _ =>
    let digits := text.takeWhile isDigit
    if digits.isEmpty then none else some (digits, text.dropWhile isDigit)

/-- The value of a number written as `sign`, whole digits, and the rest of it. -/
def numberOf (minus : Bool) (whole tail : List Char) : Json :=
  let n := naturalOf whole
  if tail.isEmpty && !minus && decide (n < countLimit) then .natural n
  else if tail.isEmpty && minus && decide (0 < n ∧ n ≤ countLimit / 2) then .negative n
  else .decimal (String.ofList ((if minus then ['-'] else []) ++ whole ++ tail))

def unsigned? (minus : Bool) (text : List Char) : Option (Json × List Char) := do
  let (whole, rest) ← whole? text
  let (frac, rest) ← fraction? rest
  let (exp, rest) ← exponent? rest
  return (numberOf minus whole (frac ++ exp), rest)

def number? : List Char → Option (Json × List Char)
  | '-' :: rest => unsigned? true rest
  | text => unsigned? false text

def isSpace (c : Char) : Bool := c == ' ' || c == '\t' || c == '\n' || c == '\r'

def isWordChar (c : Char) : Bool := ('a' ≤ c && c ≤ 'z') || ('A' ≤ c && c ≤ 'Z')

/-- The punctuation token that one character is. -/
def punctuation? : Char → Option Token
  | '[' => some .openArray
  | ']' => some .closeArray
  | '\x7b' => some .openObject
  | '\x7d' => some .closeObject
  | ',' => some .comma
  | ':' => some .colon
  | _ => none

/-- The token at the head of a text, and the text after it. -/
def Token.next? : List Char → Option (Token × List Char)
  | [] => none
  | c :: rest =>
    match punctuation? c with
    | some token => some (token, rest)
    | none =>
      if c = '"' then (unquote [] rest).map fun (s, rest) => (.text (String.ofList s), rest)
      else if isWordChar c then
        some (.word (String.ofList (c :: rest.takeWhile isWordChar)), rest.dropWhile isWordChar)
      else (number? (c :: rest)).map fun (n, rest) => (.number n, rest)

/-- All tokens of a text, by a reader of one token and one of the space between tokens.  Every token has
    a character, so the length of the text bounds their number. -/
def tokensBy (skip : List Char → Option (List Char)) (next? : List Char → Option (Token × List Char)) :
    Nat → List Char → List Token → Option (List Token)
  | 0, _, _ => none
  | fuel + 1, text, read =>
    match skip text with
    | none => none
    | some [] => some read.reverse
    | some text =>
      match next? text with
      | none => none
      | some (token, rest) => tokensBy skip next? fuel rest (token :: read)

def tokens? (text : List Char) : Option (List Token) :=
  tokensBy (fun text => some (text.dropWhile isSpace)) Token.next? (text.length + 1) text []

end CodeIndex.Json
