set_option autoImplicit false

/-!
# Ranges of characters

A class of characters is a list of ranges of code points in increasing order.  It is written down as
text: hexadecimal bounds with a dash between them, and commas between ranges.
-/

namespace CodeIndex.Text

/-- The digits of a hexadecimal number, read with a value so far. -/
def hexNumber (digits : List Char) : Nat :=
  digits.foldl (fun n c =>
    n * 16 + (if c.toNat < 58 then c.toNat - 48 else c.toNat - 55)) 0

structure Range where
  first : Nat
  last : Nat
  deriving Repr, DecidableEq

namespace Range

/-- Reads one range; a single number is a range of one code point. -/
def read (text : List Char) : Range :=
  let first := text.takeWhile (· != '-')
  let last := (text.dropWhile (· != '-')).drop 1
  ⟨hexNumber first, if last.isEmpty then hexNumber first else hexNumber last⟩

/-- Cuts the text of a table at its commas. -/
def entries (text : String) : List (List Char) :=
  text.toList.foldr (fun c acc =>
    if c = ',' then [] :: acc
    else match acc with
      | [] => [[c]]
      | entry :: rest => (c :: entry) :: rest) [[]]

/-- Reads a table of several lines. -/
def readAll (lines : List String) : List Range := lines.flatMap fun line => (entries line).map read

/-- Membership; the ranges increase, so the search ends at the first one beyond `n`. -/
def holds (n : Nat) : List Range → Bool
  | [] => false
  | r :: rest => if n < r.first then false else n ≤ r.last || holds n rest

end Range

end CodeIndex.Text
