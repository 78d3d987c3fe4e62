import CodeIndex.Text.Blank

set_option autoImplicit false

/-!
# Cutting, searching and joining texts

Texts are lists of characters while they are taken apart; `Text.on` lifts such a function to `String`.
Lines end at a line feed, and a carriage return right before that line feed belongs to the ending.
-/

namespace CodeIndex.Text

/-- The two sides of the first `sep`. -/
def cutFirst (sep : Char) : List Char → Option (List Char × List Char)
  | [] => none
  | c :: cs =>
    if c = sep then some ([], cs)
    else (cutFirst sep cs).map fun (before, after) => (c :: before, after)

/-- The two sides of the last `sep`. -/
def cutLast (sep : Char) (cs : List Char) : Option (List Char × List Char) :=
  (cutFirst sep cs.reverse).map fun (after, before) => (before.reverse, after.reverse)

/-- A carriage return at the very end is dropped. -/
def dropReturn (cs : List Char) : List Char :=
  if cs.getLast? = some '\r' then cs.dropLast else cs

/-- Line endings are normalised in every piece but the last, which no line feed follows. -/
def closeLines : List (List Char) → List (List Char)
  | [] => []
  | [last] => if last.isEmpty then [] else [last]
  | line :: rest => dropReturn line :: closeLines rest

/-- The lines of a text.  Nothing after the last line feed is no line. -/
def lines (cs : List Char) : List (List Char) :=
  closeLines (split (· == '\n') cs)

/-- Offset of the first occurrence of `needle`. -/
def find? (needle : List Char) : List Char → Option Nat
  | [] => if needle.isEmpty then some 0 else none
  | c :: cs =>
    if needle.isPrefixOf (c :: cs) then some 0
    else (find? needle cs).map (· + 1)

/-- Offset of the last occurrence of `needle`. -/
def findLast? (needle cs : List Char) : Option Nat :=
  (find? needle.reverse cs.reverse).map fun n => cs.length - n - needle.length

def contains (needle cs : List Char) : Bool := (find? needle cs).isSome

/-- Offset of the first character of a class. -/
def findChar? (p : Char → Bool) (cs : List Char) : Option Nat := cs.findIdx? p

/-- `cs` without `head`, when it starts with it. -/
def dropHead? (head cs : List Char) : Option (List Char) :=
  if head.isPrefixOf cs then some (cs.drop head.length) else none

/-- The characters from offset `start` up to, not including, offset `stop`. -/
def slice (start stop : Nat) (cs : List Char) : List Char :=
  (cs.drop start).take (stop - start)

/-- Every leading occurrence of `head` is dropped. -/
def dropHeads (head : List Char) (cs : List Char) : List Char :=
  go cs.length cs
where
  go : Nat → List Char → List Char
    | 0, cs => cs
    | fuel + 1, cs =>
      match dropHead? head cs with
      | some rest => go fuel rest
      | none => cs

/-- A function on lists of characters, applied to a string. -/
def on (f : List Char → List Char) (s : String) : String := String.ofList (f s.toList)

/-- The pieces of a string between single characters. -/
def pieces (sep : Char) (s : String) : List String :=
  (split (· == sep) s.toList).map String.ofList

/-- The two sides of the first `sep` of a string. -/
def cutFirstIn (sep : Char) (s : String) : Option (String × String) :=
  (cutFirst sep s.toList).map fun (a, b) => (String.ofList a, String.ofList b)

/-- The two sides of the last `sep` of a string. -/
def cutLastIn (sep : Char) (s : String) : Option (String × String) :=
  (cutLast sep s.toList).map fun (a, b) => (String.ofList a, String.ofList b)

def linesOf (s : String) : List String := (lines s.toList).map String.ofList

def startsWith (head s : String) : Bool := head.toList.isPrefixOf s.toList

def endsWith (tail s : String) : Bool := tail.toList.isSuffixOf s.toList

def occursIn (needle s : String) : Bool := contains needle.toList s.toList

/-- A lower-case hexadecimal digit. -/
def hexDigit (n : Nat) : Char :=
  if n < 10 then Char.ofNat (48 + n) else Char.ofNat (87 + n)

/-- Strings in order, each once. -/
def sortedSet (names : List String) : List String :=
  dedupe (names.mergeSort fun a b => decide (a ≤ b))
where
  /-- Equal neighbours are kept once. -/
  dedupe : List String → List String
    | [] => []
    | [a] => [a]
    | a :: b :: rest => if a = b then dedupe (b :: rest) else a :: dedupe (b :: rest)

/-- Each string where it occurs first. -/
def distinct (names : List String) : List String :=
  names.foldl (fun seen name => if seen.contains name then seen else seen ++ [name]) []

end CodeIndex.Text
