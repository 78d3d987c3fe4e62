import CodeIndex.Language
import CodeIndex.Outline

set_option autoImplicit false

/-!
# The documents of an index

The core index is always loaded: the modules with their files, statistics, a display tree and the
critical documentation.  A shard holds the details of one module's files.  The single document holds
everything at once.
-/

namespace CodeIndex

/-- The most recent commit that touched a file. -/
structure Commit where
  id : String
  author : String
  /-- Date in RFC 3339 form. -/
  date : String
  deriving DecidableEq, Inhabited

structure FileEntry where
  language : Language
  outline : Outline
  /-- There is no outline, because none could be made. -/
  listedOnly : Bool
  commit : Option Commit
  deriving DecidableEq

def FileEntry.listed (language : Language) : FileEntry := ⟨language, {}, true, none⟩

/-- Title and headings of a documentation file. -/
structure Synopsis where
  title : Option String
  headings : List String
  deriving DecidableEq, Inhabited

/-- Where the list of files came from. -/
inductive FileSource where
  | versionControl | walk
  deriving DecidableEq, Repr, Inhabited

namespace FileSource

def name : FileSource → String
  | .versionControl => "git"
  | .walk => "walk"

def ofName? (s : String) : Option FileSource :=
  if s = "git" then some .versionControl else if s = "walk" then some .walk else none

end FileSource

structure Stats where
  totalFiles : UInt64
  totalDirs : UInt64
  filesByLanguage : Dict UInt64
  docTiers : Dict UInt64
  fileSource : FileSource
  listedOnly : UInt64
  framework : Option String
  deriving DecidableEq

structure ModuleEntry where
  fileCount : UInt64
  callableCount : UInt64
  detailPath : String
  files : List String
  deriving DecidableEq

structure CoreIndex where
  version : String
  /-- When the index was made. -/
  madeAt : String
  root : String
  tree : List String
  stats : Stats
  modules : Dict ModuleEntry
  /-- The module of each file; empty in older indices. -/
  moduleOfFile : Dict String
  /-- Digest of each module's shard; empty when there are no shards. -/
  hashes : Dict String
  critical : Dict Synopsis
  standard : Option (Dict Synopsis)
  archive : Option (Dict Synopsis)
  priorityModules : List String
  deriving DecidableEq

structure Shard where
  moduleId : String
  version : String
  files : Dict FileEntry
  /-- Calls of names that the module defines. -/
  localCalls : List CallEdge
  externalCalls : List CallEdge
  standard : Dict Synopsis
  archive : Dict Synopsis
  deriving DecidableEq

/-- The whole index as one document. -/
structure SingleIndex where
  version : String
  madeAt : String
  root : String
  tree : List String
  stats : Stats
  files : Dict FileEntry
  calls : List CallEdge
  /-- Documentation by tier; a tier may be missing. -/
  docs : PerTier (Option (Dict Synopsis))
  deriving DecidableEq

namespace CoreIndex

/-- Version written into a core index with shards. -/
def splitVersion : String := "2.0-split"

/-- The module that holds a file: by the map, or by search when the index has no map. -/
def moduleFor? (core : CoreIndex) (path : String) : Option String :=
  if core.moduleOfFile.isEmpty then
    (core.modules.toList.find? fun m => m.2.files.contains path).map Prod.fst
  else core.moduleOfFile.get? path

/-- All indexed files in order. -/
def allFiles (core : CoreIndex) : List String :=
  (core.modules.values.flatMap ModuleEntry.files).mergeSort fun a b => decide (a ≤ b)

end CoreIndex

namespace Shard

def currentVersion : String := "2.0"

/-- Every call, those within the module first. -/
def calls (shard : Shard) : List CallEdge := shard.localCalls ++ shard.externalCalls

end Shard

namespace SingleIndex

def currentVersion : String := "1.0"

end SingleIndex

end CodeIndex
