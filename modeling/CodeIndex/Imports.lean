import CodeIndex.Document
import CodeIndex.Text.Letter

set_option autoImplicit false

/-!
# Imports between files

An import is matched to a file by segments alone: the last segment of the file, or its directory for files
that stand for their directory, must occur in the import, and the segments before it must agree as far as
both go.  Nothing is resolved, so renamed imports can be missed and equal names can match by chance.
-/

namespace CodeIndex.Imports

open Text

/-- Stems of files that stand for their directory. -/
def directoryStems : List String := ["mod", "index", "__init__", "lib"]

/-- The directories of a path and the stem of its file, the latter left out when the directory says it. -/
def pathSegments (path : String) : List String :=
  let (dir, file) := (cutLastIn '/' path).getD ("", path)
  let stem := match cutLastIn '.' file with
    | some (stem, _) => if stem = "" then file else stem
    | none => file
  let dirs := (pieces '/' dir).filter (· ≠ "")
  if !dirs.isEmpty && directoryStems.contains stem then dirs else dirs ++ [stem]

def isSegmentChar (c : Char) : Bool := isAlphanumeric c || c == '_' || c == '-'

/-- Words that say where an import starts and name nothing. -/
def anchors : List String := ["crate", "self", "super"]

def importSegments (target : String) : List String :=
  ((runs (fun c => !isSegmentChar c) target.toList).map String.ofList).filter fun s =>
    !anchors.contains s

/-- Two lists agree from their ends as far as both go. -/
def agreeAtEnd (a b : List String) : Bool := (a.reverse.zip b.reverse).all fun (x, y) => x == y

/-- Some beginning of the import ends as the path does. -/
def isMatch (target path : String) : Bool :=
  let segments := importSegments target
  match (pathSegments path).reverse with
  | [] => false
  | last :: parents =>
    segments.zipIdx.any fun (segment, i) =>
      segment == last && agreeAtEnd (segments.take i) parents.reverse

/-- Files by what they import. -/
def graph (shards : List Shard) : Dict Names :=
  shards.foldl (fun g shard =>
    shard.files.toList.foldl (fun g (path, f) =>
      f.outline.imports.foldl (fun g target => g.update target {} fun s => Names.add s path) g) g) {}

/-- Files that import a changed file and have not changed themselves. -/
def importers (graph : Dict Names) (changed : List String) : List String :=
  sortedSet <| (graph.toList.filter fun (target, _) => changed.any (isMatch target)).flatMap
    fun (_, files) => files.keys.filter fun f => !changed.contains f

end CodeIndex.Imports
