import CodeIndex.Json.Text

set_option autoImplicit false

/-!
# Numbers within double precision

A free value holds only numbers that a double can come near.  A decimal is out of range when it is at
least halfway from the largest double to the next power of two, `2 ^ 1024 - 2 ^ 970`.
-/

namespace CodeIndex.Json

def outOfRange : Nat := 1 <<< 1024 - 1 <<< 970

/-- The digits of an exponent part, with its sign; zero when there is none. -/
def exponentOf (text : List Char) : Int :=
  match text.drop 1 with
  | '-' :: digits => -(naturalOf digits)
  | '+' :: digits => naturalOf digits
  | digits => naturalOf digits

/-- Whether `coefficient * 10 ^ exponent` is in range. -/
def inRange (coefficient : Nat) (digits : Nat) (exponent : Int) : Bool :=
  if coefficient = 0 then true
  else if exponent > 400 then false
  else if exponent + digits < 300 then true
  else match exponent with
    | .ofNat e => coefficient * Nat.pow 10 e < outOfRange
    | .negSucc e => coefficient < outOfRange * Nat.pow 10 (e + 1)

/-- Whether the number written as `text` is in range. -/
def decimalInRange (text : List Char) : Bool :=
  let isMark := fun c => c == 'e' || c == 'E'
  let unsigned := text.filter fun c => c != '-' && c != '+'
  let body := unsigned.takeWhile fun c => !(isMark c)
  let whole := body.takeWhile (· != '.')
  let frac := (body.dropWhile (· != '.')).drop 1
  let exponent := exponentOf (text.dropWhile fun c => !(isMark c))
  inRange (naturalOf (whole ++ frac)) (whole ++ frac).length (exponent - frac.length)

mutual

def numbersInRange : Json → Bool
  | .decimal text => decimalInRange text.toList
  | .array items => itemsInRange items
  | .object members => membersInRange members
  | _ => true

def itemsInRange : List Json → Bool
  | [] => true
  | item :: rest => numbersInRange item && itemsInRange rest

def membersInRange : List (String × Json) → Bool
  | [] => true
  | (_, value) :: rest => numbersInRange value && membersInRange rest

end

/-- Arrays and objects of a free value nest less deep than this. -/
def depthLimit : Nat := 128

/-- A free value: limited in depth, with numbers in range, and the last of equal keys wins. -/
def value? (text : String) : Option Json := do
  let value ← read? text
  if value.depth < depthLimit && value.numbersInRange then some value.canonical else none

end CodeIndex.Json
