import CodeIndex.Dict

set_option autoImplicit false

/-!
# JSON values

Objects keep their members as they were written, duplicates included, because a reader of documents
refuses a field that is given twice while a reader of free values lets the last one win (`canonical`).
Numbers are kept by what a count can be: a natural number or a negative one of 64 bits; every other
number is only kept as text.
-/

namespace CodeIndex

inductive Json where
  | null
  | bool (value : Bool)
  | natural (value : Nat)
  /-- The number `-(magnitude)`. -/
  | negative (magnitude : Nat)
  /-- A number with a fraction or an exponent, or one beyond 64 bits. -/
  | decimal (text : String)
  | string (value : String)
  | array (items : List Json)
  | object (members : List (String × Json))
  deriving Inhabited, BEq

namespace Json

/-- Counts are below this bound. -/
def countLimit : Nat := 1 <<< 64

def ofNames (names : List String) : Json := .array (names.map .string)

def ofOption {α : Type} (f : α → Json) : Option α → Json
  | none => .null
  | some a => f a

def ofDict {α : Type} (f : α → Json) (d : Dict α) : Json :=
  .object (d.toList.map fun e => (e.1, f e.2))

/-- The last value written under a key. -/
def lookup (key : String) (members : List (String × Json)) : Option Json :=
  (members.reverse.find? fun m => m.1 = key).map Prod.snd

def get? (key : String) : Json → Option Json
  | .object members => lookup key members
  | _ => none

def asString? : Json → Option String
  | .string s => some s
  | _ => none

def asBool? : Json → Option Bool
  | .bool b => some b
  | _ => none

def asNatural? : Json → Option Nat
  | .natural n => if n < countLimit then some n else none
  | _ => none

/-- A count as JSON. -/
def ofCount (n : UInt64) : Json := .natural n.toNat

def asCount? (j : Json) : Option UInt64 := (asNatural? j).map UInt64.ofNat

def asArray? : Json → Option (List Json)
  | .array items => some items
  | _ => none

mutual

/-- Nesting of arrays and objects. -/
def depth : Json → Nat
  | .array items => depthItems items + 1
  | .object members => depthMembers members + 1
  | _ => 0

def depthItems : List Json → Nat
  | [] => 0
  | item :: rest => max (depth item) (depthItems rest)

def depthMembers : List (String × Json) → Nat
  | [] => 0
  | (_, value) :: rest => max (depth value) (depthMembers rest)

end

mutual

/-- Members in order of their keys, the last of equal keys kept, at every level. -/
def canonical : Json → Json
  | .array items => .array (canonicalItems items)
  | .object members => .object (Dict.ofList (canonicalMembers members)).toList
  | other => other

def canonicalItems : List Json → List Json
  | [] => []
  | item :: rest => canonical item :: canonicalItems rest

def canonicalMembers : List (String × Json) → List (String × Json)
  | [] => []
  | (key, value) :: rest => (key, canonical value) :: canonicalMembers rest

end

end Json

end CodeIndex
