import CodeIndex.Store

set_option autoImplicit false

/-!
# Cache of outlines

Outlines that were read before, by a digest of where a file is, when it was changed last and how long it is.
The cache file can be thrown away at any time: one that is not as expected counts as empty.
-/

namespace CodeIndex

structure OutlineCache where
  /-- Where it is kept; nothing for a cache that is never written. -/
  path : Option String
  entries : Dict Outline
  /-- Something was added since it was read or written. -/
  isDirty : Bool
  hits : Nat
  misses : Nat

namespace OutlineCache

open Action Json

def directory : String := ".project-index"

def fileName : String := "signature_cache.json"

def version : Nat := 1

/-- Names the rules by which outlines are read; a cache made by other rules is not used. -/
def schema : String := "outline-rules-1"

def empty : OutlineCache := ⟨none, {}, false, 0, 0⟩

def toJson (entries : Dict Outline) : Json := Json.canonical (.object
  [("version", .natural version), ("schema", .string schema), ("entries", ofDict Outline.toJson entries)])

/-- The entries of a cache file of the present version and rules. -/
def entries? (j : Json) : Option (Dict Outline) := do
  let [v, rules, found] ← fields? ["version", "schema", "entries"] j | none
  let v ← required asNatural? v
  let rules ← required asString? rules
  let found ← required (dictOf? Outline.ofJson?) found
  if v = version ∧ rules = schema then some found else none

/-- The cache of a project, empty when there is none that can be used. -/
def load (root : String) : Action OutlineCache := do
  let path := Path.join (Path.join root directory) fileName
  let found := match ← Store.contents path with
    | .ok bytes => (String.fromUTF8? bytes).bind fun text => (Json.read? text).bind entries?
    | .error _ => none
  return { empty with path := some path, entries := found.getD {} }

/-- The key of a file by where it is, when it was changed last and how long it is. -/
def keyOf (place : Location) (time size : Nat) : String :=
  Digest.ofString (place.toPath ++ "\x00" ++ toString time ++ "\x00" ++ toString size)

/-- The key of a file in its present state. -/
def key? (path : String) : Action (Option String) := do
  let place ← locate path
  match ← look fun d => d.access place with
  | .ok (.file bytes time) => return some (keyOf place time bytes.size)
  | .ok .directory => return some (keyOf place 0 0)
  | .error _ => return none

/-- What is stored under a key, and the cache with the question counted. -/
def get (c : OutlineCache) (key : String) : Option Outline × OutlineCache :=
  match c.entries.get? key with
  | some o => (some o, { c with hits := c.hits + 1 })
  | none => (none, { c with misses := c.misses + 1 })

def put (c : OutlineCache) (key : String) (o : Outline) : OutlineCache :=
  { c with entries := c.entries.insert key o, isDirty := true }

/-- Writes the cache, if it has a place and something was added. -/
def save (c : OutlineCache) : Action OutlineCache := do
  match c.path with
  | none => return c
  | some path =>
    if !c.isDirty then return c
    else
      let place ← locate path
      match ← tryChange (Disk.makeDirectories place.dropLast) with
      | .error e => throw ⟨["Failed to create " ++ Location.toPath place.dropLast], .other e.reason⟩
      | .ok () =>
        Store.replaceFile path (toJson c.entries).render.toUTF8
        return { c with isDirty := false }

/-- Writes the cache; it does not matter when that fails. -/
def saveQuietly (c : OutlineCache) : Action Unit := do
  let _ ← attempt (save c)

end OutlineCache

end CodeIndex
