import CodeIndex.Dict
import CodeIndex.Layout

set_option autoImplicit false

/-!
# Modules

Files are grouped by their top directory, and a group of at least `threshold` files is split along its
subdirectories while the directory looks organised: some subdirectory holds a fifth of the threshold, or
splitting is forced.  Files that lie in a split directory itself make a module of their own.  Splitting only
refines: every file stays in exactly one module.
-/

namespace CodeIndex

/-- Files of each module. -/
abbrev ModuleMap := Dict (List String)

namespace ModuleMap

/-- Module of the files at the top of the project. -/
def rootId : String := "root"

def topId (file : String) : String :=
  match Text.cutFirstIn '/' file with
  | some (top, _) => ModuleId.sanitize top
  | none => rootId

/-- Files by top directory, in order and each once. -/
def byTop (files : List String) : ModuleMap :=
  Dict.map (fun _ group => Text.sortedSet group)
    (files.foldl (fun m file => Dict.update m (topId file) [] (· ++ [file])) (∅ : ModuleMap))

/-- Ids of the modules with at least so many files. -/
def largeIds (m : ModuleMap) (threshold : Nat) : List String :=
  (m.toList.filter fun e => threshold ≤ e.2.length).map Prod.fst

/-- Adds a module; if its id is taken, the two become one. -/
def merge (m : ModuleMap) (id : String) (files : List String) : ModuleMap :=
  match m.get? id with
  | some present => m.insert id (Text.sortedSet (present ++ files))
  | none => m.insert id files

def mergeAll (m : ModuleMap) (parts : List (String × List String)) : ModuleMap :=
  parts.foldl (fun m part => merge m part.1 part.2) m

/-- The module of each file; of two, the one with the greater id. -/
def moduleOfFile (m : ModuleMap) : Dict String :=
  Dict.ofList (m.toList.flatMap fun (id, files) => files.map fun file => (file, id))

/-- All files, module by module. -/
def files (m : ModuleMap) : List String := m.values.flatten

end ModuleMap

/-- How modules are split. -/
structure Splitting where
  enabled : Bool
  threshold : Nat
  maxDepth : Nat
  /-- Split without asking whether the directory looks organised. -/
  force : Bool
  deriving DecidableEq, Repr

namespace Splitting

/-- The directory right below the shared part of a path, when the file lies in one. -/
def childOf? (shared : Nat) (file : String) : Option String :=
  let parts := Text.pieces '/' file
  if shared + 1 < parts.length then parts[shared]? else none

/-- Files by the directory right below the shared part of their paths. -/
def buckets (shared : Nat) (files : List String) : ModuleMap :=
  files.foldl (fun m file =>
    match childOf? shared file with
    | some child => Dict.update m child [] (· ++ [file])
    | none => m) (∅ : ModuleMap)

/-- Files that lie in the shared directory itself. -/
def ownFiles (shared : Nat) (files : List String) : List String :=
  files.filter fun file => (childOf? shared file).isNone

def looksOrganised (s : Splitting) (buckets : ModuleMap) : Bool :=
  buckets.values.any fun b => s.threshold ≤ b.length * 5

def ownId (id : String) : String := id ++ "-root"

def childId (id child : String) : String := id ++ "-" ++ ModuleId.sanitize child

/-- Splits one module whose files share the first components of their paths; `levels` more times at most. -/
def split (s : Splitting) : Nat → String → Nat → List String → ModuleMap
  | 0, id, _, files => (∅ : ModuleMap).insert id files
  | levels + 1, id, shared, files =>
    if files.length < s.threshold then (∅ : ModuleMap).insert id files
    else
      let own := ownFiles shared files
      let below := buckets shared files
      if below.isEmpty || !(s.looksOrganised below || s.force) then
        (∅ : ModuleMap).insert id ((own ++ ModuleMap.files below).mergeSort fun a b => decide (a ≤ b))
      else
        let start := if own.isEmpty then (∅ : ModuleMap) else ModuleMap.merge ∅ (ownId id) own
        below.toList.foldl (fun m (child, bucket) =>
          if s.threshold ≤ bucket.length then
            ModuleMap.mergeAll m (split s levels (childId id child) (shared + 1) bucket).toList
          else ModuleMap.merge m (childId id child) bucket) start

/-- The modules of a project. -/
def modules (s : Splitting) (files : List String) : ModuleMap :=
  let top := ModuleMap.byTop files
  if s.enabled then
    (ModuleMap.largeIds top s.threshold).foldl (fun m id =>
      match m.get? id with
      | some group => ModuleMap.mergeAll (m.erase id) (s.split s.maxDepth id 1 group).toList
      | none => m) top
  else top

end Splitting

namespace ModuleMap

/-- The first of a directory's module and the module of its own files that exists. -/
def existing? (m : ModuleMap) (dirs : List String) : Option String :=
  let id := "-".intercalate dirs
  if m.contains id then some id
  else if m.contains (Splitting.ownId id) then some (Splitting.ownId id)
  else none

/-- Looks for a module from the deepest directory up. -/
def placeFrom (m : ModuleMap) (dirs : List String) : Nat → Option String
  | 0 => none
  | depth + 1 => (m.existing? (dirs.take (depth + 1))).orElse fun _ => placeFrom m dirs depth

/-- The module for a file that no module holds yet: the one of its deepest directory that has one, else a
    new one named for its top directory. -/
def placementOf (m : ModuleMap) (path : String) : String :=
  match Text.cutLastIn '/' path with
  | none => rootId
  | some (dir, _) =>
    let dirs := (Text.pieces '/' dir).map ModuleId.sanitize
    (m.placeFrom dirs dirs.length).getD (dirs.head?.getD rootId)

end ModuleMap

end CodeIndex
