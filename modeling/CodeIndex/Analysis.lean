import CodeIndex.Document
import CodeIndex.DisplayTree
import CodeIndex.Settings

set_option autoImplicit false

/-!
# Analyses and the documents made from them

An analysis holds what is known about a set of files.  Shards and the core index are functions of an
analysis and a division of its files into modules, so the same analysis and modules always give the same
documents.
-/

namespace CodeIndex

structure Analysis where
  /-- Every file, documentation included. -/
  details : Dict FileEntry
  docs : Dict (DocTier × Synopsis)
  /-- Files that are only listed because they could not be read. -/
  skipped : Nat
  deriving DecidableEq

namespace Analysis

def empty : Analysis := ⟨{}, {}, 0⟩

def files (a : Analysis) : List String := a.details.keys

/-- Removes some files, then lays another analysis over what is left. -/
def overlay (a other : Analysis) (removed : List String) : Analysis :=
  let gone := fun path => removed.contains path || other.details.contains path
  { details := (a.details.filter fun path _ => !removed.contains path).insertAll other.details.toList
    docs := (a.docs.filter fun path _ => !gone path).insertAll other.docs.toList
    skipped := a.skipped + other.skipped }

/-- Synopses of one tier. -/
def docsOf (a : Analysis) (tier : DocTier) : Dict Synopsis :=
  (a.docs.filter fun _ d => d.1 == tier).map fun _ d => d.2

/-- Adds one to the count of a name. -/
def tally (names : List String) : Dict UInt64 :=
  names.foldl (fun counts name => counts.update name 0 (· + 1)) {}

def stats (a : Analysis) (source : FileSource) (layout : Option Layout) : Stats where
  totalFiles := a.files.length.toUInt64
  totalDirs := (DirTree.countDirs a.files).toUInt64
  filesByLanguage := tally (a.details.values.map fun f => f.language.name)
  docTiers := tally (a.docs.values.map fun d => d.1.name)
  fileSource := source
  listedOnly := (a.details.values.filter FileEntry.listedOnly).length.toUInt64
  framework := layout.map fun l => l.preset.name

/-- The details of some files, as far as they are known. -/
def detailsOf (a : Analysis) (files : List String) : Dict FileEntry :=
  Dict.ofList (files.filterMap fun path => (a.details.get? path).map fun f => (path, f))

/-- Synopses of one tier among some files. -/
def docsAmong (a : Analysis) (tier : DocTier) (files : List String) : Dict Synopsis :=
  Dict.ofList (files.filterMap fun path =>
    match a.docs.get? path with
    | some (t, s) => if t = tier then some (path, s) else none
    | none => none)

/-- The shard of one module.  A call is local when the module defines the called name. -/
def shard (a : Analysis) (id : String) (files : List String) : Shard :=
  let details := a.detailsOf files
  let defined := Names.ofList (details.values.flatMap fun f => f.outline.definedNames)
  let edges := details.values.flatMap fun f => f.outline.callEdges
  let (inside, outside) := edges.partition fun e => defined.contains e.2
  { moduleId := id
    version := Shard.currentVersion
    files := details
    localCalls := Outline.sortEdges inside
    externalCalls := Outline.sortEdges outside
    standard := a.docsAmong .standard files
    archive := a.docsAmong .archive files }

end Analysis

namespace Shard

def directory : String := "PROJECT_INDEX.d"

/-- Where the core index says that a shard is. -/
def relativePath (id : String) : String := directory ++ "/" ++ id ++ ".json"

end Shard

namespace Analysis

def moduleEntry (a : Analysis) (id : String) (files : List String) : ModuleEntry where
  fileCount := files.length.toUInt64
  callableCount :=
    ((files.filterMap a.details.get?).map fun f => f.outline.callableCount).foldl (· + ·) 0
  detailPath := Shard.relativePath id
  files := files

/-- A layout's modules to read first, as far as there are such modules. -/
def priorityModules (modules : ModuleMap) (layout : Option Layout) : List String :=
  match layout with
  | none => []
  | some l => l.priorityModules.filter fun head =>
      modules.keys.any fun id => id = head || Text.startsWith (head ++ "-") id

/-- The core index over some modules, made at some time under a root of some name. -/
def core (a : Analysis) (root madeAt : String) (modules : ModuleMap) (hashes : Dict String)
    (source : FileSource) (layout : Option Layout) (settings : Settings) : CoreIndex where
  version := CoreIndex.splitVersion
  madeAt := madeAt
  root := root
  tree := DirTree.render root modules.files settings.treeDepth
  stats := a.stats source layout
  modules := Dict.map (fun id files => a.moduleEntry id files) modules
  moduleOfFile := modules.moduleOfFile
  hashes := hashes
  critical := a.docsOf .critical
  standard := if settings.includeAllTiers then some (a.docsOf .standard) else none
  archive := if settings.includeAllTiers then some (a.docsOf .archive) else none
  priorityModules := priorityModules modules layout

/-- Every call of every file, in order and each once. -/
def calls (a : Analysis) : List CallEdge :=
  Outline.sortEdges (a.details.values.flatMap fun f => f.outline.callEdges)

/-- A map of synopses, or nothing when there are none. -/
def nonEmpty? (docs : Dict Synopsis) : Option (Dict Synopsis) := if docs.isEmpty then none else some docs

/-- The whole index as one document. -/
def single (a : Analysis) (root madeAt : String) (files : List String) (source : FileSource)
    (layout : Option Layout) (settings : Settings) : SingleIndex where
  version := SingleIndex.currentVersion
  madeAt := madeAt
  root := root
  tree := DirTree.render root files settings.treeDepth
  stats := a.stats source layout
  files := a.details
  calls := a.calls
  docs := ⟨nonEmpty? (a.docsOf .critical), nonEmpty? (a.docsOf .standard), nonEmpty? (a.docsOf .archive)⟩

/-- Adds the files of a shard. -/
def addShard (a : Analysis) (s : Shard) : Analysis where
  details := a.details.insertAll s.files.toList
  docs := (a.docs.insertAll (s.standard.toList.map fun e => (e.1, .standard, e.2))).insertAll
    (s.archive.toList.map fun e => (e.1, .archive, e.2))
  skipped := a.skipped

/-- The analysis that an index was made from. -/
def ofIndex (core : CoreIndex) (shards : List Shard) : Analysis :=
  let a := shards.foldl addShard empty
  { a with docs := a.docs.insertAll (core.critical.toList.map fun e => (e.1, .critical, e.2)) }

/-- Adds documentation; a file that is not there yet is listed as documentation. -/
def addDocs (a : Analysis) (tier : DocTier) (docs : Dict Synopsis) : Analysis :=
  docs.toList.foldl (fun a e =>
    { a with
      details := if a.details.contains e.1 then a.details
        else a.details.insert e.1 ⟨.markdown, {}, false, none⟩
      docs := a.docs.insert e.1 (tier, e.2) }) a

/-- The analysis that a single document holds. -/
def ofSingle (s : SingleIndex) : Analysis :=
  s.docs.toList.foldl (fun a (tier, docs) => a.addDocs tier (docs.getD {})) { empty with details := s.files }

end Analysis

end CodeIndex
