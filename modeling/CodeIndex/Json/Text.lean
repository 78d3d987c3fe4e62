import CodeIndex.Json.Token

set_option autoImplicit false

/-!
# The compact text of a JSON value, and reading it

`Json.tokens` lists the tokens of a value and `Json.render` writes them one after the other.  `read?`
accepts one value and nothing else.
-/

namespace CodeIndex.Json

mutual

def tokens : Json → List Token
  | .null => [.word "null"]
  | .bool true => [.word "true"]
  | .bool false => [.word "false"]
  | .natural n => [.number (.natural n)]
  | .negative n => [.number (.negative n)]
  | .decimal t => [.number (.decimal t)]
  | .string s => [.text s]
  | .array items => .openArray :: tokensOfItems items
  | .object members => .openObject :: tokensOfMembers members

/-- The items of an array and its closing bracket. -/
def tokensOfItems : List Json → List Token
  | [] => [.closeArray]
  | [item] => tokens item ++ [.closeArray]
  | item :: rest => tokens item ++ .comma :: tokensOfItems rest

/-- The members of an object and its closing brace. -/
def tokensOfMembers : List (String × Json) → List Token
  | [] => [.closeObject]
  | [(key, value)] => .text key :: .colon :: tokens value ++ [.closeObject]
  | (key, value) :: rest => .text key :: .colon :: tokens value ++ .comma :: tokensOfMembers rest

end

/-- The compact text: no space between tokens. -/
def render (value : Json) : String := String.ofList (value.tokens.flatMap Token.written)

/-- What a notation allows beyond plain JSON. -/
structure Grammar where
  /-- A comma may follow the last item or member. -/
  trailingComma : Bool
  /-- A bare word may be a key. -/
  bareKeys : Bool
  /-- The value of a bare word that is not `null`, `true` or `false`. -/
  wordValue : String → Option Json

def Grammar.plain : Grammar := ⟨false, false, fun _ => none⟩

namespace Grammar

variable (g : Grammar)

def word? (w : String) : Option Json :=
  if w = "null" then some .null
  else if w = "true" then some (.bool true)
  else if w = "false" then some (.bool false)
  else g.wordValue w

def key? : Token → Option String
  | .text s => some s
  | .word w => if g.bareKeys then some w else none
  | _ => none

/-- Part of a value that is being read. -/
inductive Part where
  /-- Some value. -/
  | value
  /-- An item of an array; `afterComma` when one must come, or may by `trailingComma` be missing. -/
  | items (read : List Json) (afterComma : Bool)
  | members (read : List (String × Json)) (afterComma : Bool)

/-- Reads a value, or the rest of an array or object.  Every call but the first follows a token, so
    twice the number of tokens bounds the depth of calls. -/
def read? : Nat → Part → List Token → Option (Json × List Token)
  | 0, _, _ => none
  | fuel + 1, .value, ts =>
    match ts with
    | .text s :: rest => some (.string s, rest)
    | .number n :: rest => some (n, rest)
    | .word w :: rest => (g.word? w).map fun v => (v, rest)
    | .openArray :: rest => read? fuel (.items [] false) rest
    | .openObject :: rest => read? fuel (.members [] false) rest
    | _ => none
  | fuel + 1, .items read afterComma, ts =>
    match ts with
    | .closeArray :: rest =>
      if afterComma && !g.trailingComma then none else some (.array read.reverse, rest)
    | _ =>
      match read? fuel .value ts with
      | some (item, .closeArray :: rest) => some (.array (item :: read).reverse, rest)
      | some (item, .comma :: rest) => read? fuel (.items (item :: read) true) rest
      | _ => none
  | fuel + 1, .members read afterComma, ts =>
    match ts with
    | .closeObject :: rest =>
      if afterComma && !g.trailingComma then none else some (.object read.reverse, rest)
    | key :: .colon :: rest =>
      match g.key? key with
      | none => none
      | some key =>
        match read? fuel .value rest with
        | some (value, .closeObject :: rest) => some (.object ((key, value) :: read).reverse, rest)
        | some (value, .comma :: rest) => read? fuel (.members ((key, value) :: read) true) rest
        | _ => none
    | _ => none

/-- The one value that the tokens are. -/
def ofTokens? (ts : List Token) : Option Json :=
  match g.read? (2 * ts.length + 2) .value ts with
  | some (value, []) => some value
  | _ => none

end Grammar

/-- The one value that a plain JSON text holds, duplicate members included. -/
def read? (text : String) : Option Json := do
  let ts ← tokens? text.toList
  Grammar.plain.ofTokens? ts

end CodeIndex.Json
