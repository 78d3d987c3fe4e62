import CodeIndex.Json.Text

set_option autoImplicit false

/-!
# Reading records from JSON

A record is an object whose declared fields may come in any order but only once, or an array with the
fields by position.  Undeclared fields are ignored.  Readers answer `none` for a value of another shape.
-/

namespace CodeIndex.Json

/-- How often a key is written. -/
def timesGiven (key : String) (members : List (String × Json)) : Nat :=
  (members.filter fun m => m.1 = key).length

/-- The declared fields of an object, absent ones as `none`. -/
def namedFields? (names : List String) : Json → Option (List (Option Json))
  | .object members =>
    if names.all fun name => timesGiven name members ≤ 1 then
      some (names.map fun name => lookup name members)
    else none
  | _ => none

/-- The declared fields of an object or, by position, of an array. -/
def fields? (names : List String) : Json → Option (List (Option Json))
  | .array items =>
    if items.length ≤ names.length then
      some (items.map some ++ List.replicate (names.length - items.length) none)
    else none
  | value => namedFields? names value

/-- A field that must be given. -/
def required {α : Type} (read : Json → Option α) (field : Option Json) : Option α := field.bind read

/-- A field with a value of its own when it is not given. -/
def orElse {α : Type} (absent : α) (read : Json → Option α) : Option Json → Option α
  | none => some absent
  | some value => read value

/-- A field that may be left out or `null`. -/
def optional {α : Type} (read : Json → Option α) : Option Json → Option (Option α)
  | none => some none
  | some .null => some none
  | some value => (read value).map some

def listOf? {α : Type} (read : Json → Option α) : Json → Option (List α)
  | .array items => items.mapM read
  | _ => none

def names? : Json → Option (List String) := listOf? asString?

/-- An object as a map; every value must be readable, also one that a later equal key replaces. -/
def dictOf? {α : Type} (read : Json → Option α) : Json → Option (Dict α)
  | .object members =>
    (members.mapM fun m => (read m.2).map fun v => (m.1, v)).map Dict.ofList
  | _ => none

/-- A choice written as its name, or as an object with that one name and `null`. -/
def choice? {α : Type} (read : String → Option α) : Json → Option α
  | .string s => read s
  | .object [(s, .null)] => read s
  | _ => none

def pair? : Json → Option (String × String)
  | .array [.string a, .string b] => some (a, b)
  | _ => none

/-- A member that is written only when there is something to write. -/
def memberIf (given : Bool) (key : String) (value : Json) : List (String × Json) :=
  if given then [(key, value)] else []

def memberOf {α : Type} (key : String) (write : α → Json) : Option α → List (String × Json)
  | none => []
  | some a => [(key, write a)]

end CodeIndex.Json
