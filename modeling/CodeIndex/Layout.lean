import CodeIndex.Text.Basic

set_option autoImplicit false

/-!
# Module names and known project layouts

A module id is made of letters, digits, `_`, `-` and `.`, and does not start with a dot.  A layout is known by
the names of the directories right under a source root; it suggests how deep to split modules and which
directories to read first.
-/

namespace CodeIndex

namespace ModuleId

def isAllowed (c : Char) : Bool :=
  ('a' ≤ c && c ≤ 'z') || ('A' ≤ c && c ≤ 'Z') || ('0' ≤ c && c ≤ '9') || c == '_' || c == '-' || c == '.'

/-- A directory name as a module id: other characters become `_` and leading dots go. -/
def sanitize (name : String) : String :=
  let cleaned := (name.toList.map fun c => if isAllowed c then c else '_').dropWhile (· == '.')
  if cleaned.isEmpty then "_" else String.ofList cleaned

def isValid (id : String) : Bool :=
  let cs := id.toList
  !cs.isEmpty && cs.head? != some '.' && cs.all isAllowed

end ModuleId

/-- A layout known by its directories. -/
structure Preset where
  name : String
  markers : List String
  maxDepth : Nat
  /-- Directories to read first. -/
  priority : List String
  deriving DecidableEq, Repr

/-- A preset found under a source root; the empty root is the project itself. -/
structure Layout where
  preset : Preset
  root : String
  matched : List String
  deriving DecidableEq, Repr

namespace Layout

def presets : List Preset := [
  ⟨"react", ["components", "hooks", "pages", "contexts", "store", "styles", "assets", "utils",
    "services"], 3, ["components", "pages", "hooks"]⟩,
  ⟨"vue", ["components", "views", "router", "store", "composables", "plugins", "assets"], 3,
    ["components", "views", "store"]⟩,
  ⟨"django", ["models", "views", "templates", "migrations", "management", "forms", "static"], 2,
    ["models", "views"]⟩,
  ⟨"rails", ["models", "controllers", "views", "helpers", "mailers", "jobs", "channels"], 2,
    ["models", "controllers"]⟩,
  ⟨"rust", ["bin", "cli", "commands", "handlers", "models", "parsers", "storage", "utils"], 2,
    ["bin", "commands"]⟩,
  ⟨"go", ["cmd", "internal", "pkg", "api", "configs", "scripts"], 2, ["cmd", "internal"]⟩]

/-- Source roots in the order in which they are tried. -/
def sourceRoots : List String := ["src", "app", "lib", "source", ""]

def minMatches : Nat := 3

/-- The directory right under `root` in which a file lies. -/
def subdirectory? (root file : String) : Option String := do
  let rest ← if root = "" then some file.toList
    else Text.dropHead? (root ++ "/").toList file.toList
  let (dir, _) ← Text.cutFirst '/' rest
  return String.ofList dir

/-- The layout that a preset and a set of directories make. -/
def candidate (root : String) (dirs : List String) (preset : Preset) : Layout :=
  ⟨preset, root, preset.markers.filter dirs.contains⟩

/-- The better of two layouts; the earlier one of equals. -/
def better (best : Option Layout) (next : Layout) : Option Layout :=
  match best with
  | some b => if next.matched.length ≤ b.matched.length then some b else some next
  | none => some next

/-- The preset that shares most directories with the layout under a root, and at least three. -/
def underRoot? (files : List String) (root : String) : Option Layout :=
  let dirs := Text.sortedSet (files.filterMap (subdirectory? root))
  let candidates := (presets.map (candidate root dirs)).filter fun l => minMatches ≤ l.matched.length
  candidates.foldl better none

def detect? (files : List String) : Option Layout := sourceRoots.findSome? (underRoot? files)

/-- Ids, or beginnings of ids, of the modules to read first. -/
def priorityModules (l : Layout) : List String :=
  (l.preset.priority.filter l.matched.contains).map fun dir =>
    if l.root = "" then ModuleId.sanitize dir
    else ModuleId.sanitize l.root ++ "-" ++ ModuleId.sanitize dir

end Layout

end CodeIndex
