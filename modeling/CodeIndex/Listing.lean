import CodeIndex.IgnoreRules
import CodeIndex.OutlineCache

set_option autoImplicit false

/-!
# The files of a project

Files come from version control where there is one, and from walking through the directories otherwise.  Only
those in a known language are indexed, and none that the program writes itself.
-/

namespace CodeIndex

/-- Directories that are never looked into. -/
def excludedDirectories : List String :=
  ["target", "node_modules", "dist", "build", ".git", "__pycache__", ".pytest_cache", ".mypy_cache", ".venv",
    "venv", ".next", ".nuxt", "coverage", OutlineCache.directory, Shard.directory]

namespace Disk

def ignoreFile : String := ".ignore"

def versionDirectory : String := ".git"

/-- Further ignore files, which only count under version control. -/
def versionIgnoreFiles : List Location := [[".gitignore"], [versionDirectory, "info", "exclude"]]

/-- The rules of a directory in one of its files. -/
def rulesIn (d : Disk) (file directory : Location) : IgnoreRules :=
  ((d.readText (directory ++ file)).map IgnoreRules.ofText).getD []

/-- Whether the rules of some directories keep a location, if they decide it; the first that decide count. -/
def verdictIn? (d : Disk) (l : Location) (directories : List Location) (file : Location) : Option Bool :=
  directories.findSome? fun directory =>
    (d.rulesIn file directory).verdict? (Path.ofComponents (l.drop directory.length)) (d.isDirectory l)

/-- The directories up to the nearest one under version control; none where there is no such directory. -/
def underVersionControl (d : Disk) : List Location → List Location
  | [] => []
  | directory :: rest =>
    if d.holds (directory ++ [versionDirectory]) then [directory]
    else
      match underVersionControl d rest with
      | [] => []
      | found => directory :: found

/-- Whether the rules of the directories above keep a location, if they decide it; the nearest that decide
count. -/
def verdict? (d : Disk) (l : Location) : Option Bool :=
  let directories := l.above.reverse
  (d.verdictIn? l directories [ignoreFile]).orElse fun _ =>
    versionIgnoreFiles.findSome? (d.verdictIn? l (d.underVersionControl directories))

/-- A walk goes to this location from the directory that holds it. -/
def isVisited (d : Disk) (l : Location) : Bool :=
  match l.getLast? with
  | none => true
  | some name =>
    !excludedDirectories.contains name
      && match d.verdict? l with
        | some kept => kept
        | none => !Text.startsWith "." name

/-- The files that a walk from a directory finds, by their paths from there. -/
def walk (d : Disk) (root : Location) : List String :=
  let below := d.entries.filter fun e =>
    (e.2 matches .file _ _) && root.isPrefixOf e.1 && root.length < e.1.length
  (below.filter fun e => (e.1.above ++ [e.1]).all fun l => l.length ≤ root.length || d.isVisited l).map
    fun e => Path.ofComponents (e.1.drop root.length)

end Disk

namespace Listing

open Action

/-- Milliseconds that the version-control tool may take. -/
def timeout (settings : Settings) : Nat := settings.timeout * 1000

/-- The walk's failure at a directory that is not there. -/
def walkFailure (root : String) (e : DiskError) : Failure :=
  ⟨["Failed to walk project directory", root], .other ("IO error for operation on " ++ root ++ ": " ++ e.reason)⟩

def walk (root : String) : Action (List String) := do
  let place ← locate root
  match ← look fun d => d.access place with
  | .error e => throw (walkFailure root e)
  | .ok (.file _ _) => return []
  | .ok .directory => look fun d => d.walk place

/-- A path from the project's directory is to be indexed. -/
def isIndexable (settings : Settings) (root path : String) : Action Bool := do
  if Store.isOutput path || (Text.pieces '/' path).any excludedDirectories.contains
      || (Language.ofPath? path).isNone then return false
  else
    let place ← locate (Path.join root path)
    match ← look fun d => d.access place with
    | .ok (.file bytes _) => return bytes.size ≤ settings.maxFileSize
    | _ => return false

/-- The paths that may be files of the project. -/
def candidates (settings : Settings) (root : String) : Action (List String × FileSource) := do
  if ← History.isWorkTree (timeout settings) then
    match ← attempt (History.files (timeout settings)) with
    | .ok files => return (files, .versionControl)
    | .error _ => return (← walk root, .walk)
  else return (← walk root, .walk)

/-- The files of the project in order, and where their list came from. -/
def files (settings : Settings) (root : String) : Action (List String × FileSource) := do
  let (found, source) ← candidates settings root
  let indexable ← found.filterM fun path => isIndexable settings root path
  return (Text.sortedSet indexable, source)

/-- The newest commit of each file, as far as it is known. -/
def commits (settings : Settings) (source : FileSource) : Action (Dict Commit) := do
  match source with
  | .walk => return {}
  | .versionControl =>
    match ← attempt (History.commits (timeout settings)) with
    | .ok found => return found
    | .error _ => return {}

end Listing

end CodeIndex
