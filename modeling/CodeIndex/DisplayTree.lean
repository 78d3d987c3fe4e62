import CodeIndex.Dict
import CodeIndex.Text.Basic

set_option autoImplicit false

/-!
# The display tree

A picture of the directories that hold indexed files, made from the list of files alone.  Directories come
before files and both in order; deep directories are only counted, and so are files beyond the tenth of a
directory.  Every directory line states how many files lie below it.
-/

namespace CodeIndex

/-- Directories by name, and the files that lie in the directory itself. -/
inductive DirTree where
  | node (dirs : List (String × DirTree)) (files : List String)

namespace DirTree

def fileLimit : Nat := 10

def empty : DirTree := .node [] []

def dirs : DirTree → List (String × DirTree)
  | .node dirs _ => dirs

def files : DirTree → List String
  | .node _ files => files

/-- Changes the entry of a name, or makes one where it belongs. -/
def change (name : String) (f : DirTree → DirTree) : List (String × DirTree) → List (String × DirTree)
  | [] => [(name, f empty)]
  | (other, t) :: rest =>
    if name < other then (name, f empty) :: (other, t) :: rest
    else if other < name then (other, t) :: change name f rest
    else (other, f t) :: rest

/-- Adds a file below the directories of a path. -/
def addAt : List String → String → DirTree → DirTree
  | [], file, .node dirs files => .node dirs (files ++ [file])
  | dir :: path, file, .node dirs files => .node (change dir (addAt path file) dirs) files

/-- The directories of a path and its last component. -/
def splitPath (path : String) : List String × String :=
  let parts := Text.pieces '/' path
  (parts.dropLast, parts.getLast?.getD "")

def insert (path : String) (t : DirTree) : DirTree :=
  let (dirs, file) := splitPath path
  addAt dirs file t

def ofFiles (files : List String) : DirTree := files.foldl (fun t path => t.insert path) empty

mutual

def fileCount : DirTree → Nat
  | .node dirs files => files.length + fileCountIn dirs

def fileCountIn : List (String × DirTree) → Nat
  | [] => 0
  | (_, t) :: rest => fileCount t + fileCountIn rest

end

mutual

/-- Directories below this one. -/
def dirCount : DirTree → Nat
  | .node dirs _ => dirCountIn dirs

def dirCountIn : List (String × DirTree) → Nat
  | [] => 0
  | (_, t) :: rest => 1 + dirCount t + dirCountIn rest

end

/-- How an entry is joined to the line of its directory, and what stands before the lines below it. -/
def connector (isLast : Bool) : String := if isLast then "└──" else "├──"

def indentation (isLast : Bool) : String := if isLast then "    " else "│   "

def countText (count : Nat) : String :=
  if count = 1 then "(1 file)" else "(" ++ toString count ++ " files)"

/-- Lines of the files of a directory; those beyond the limit are one line that counts them. -/
def fileLines (indent : String) (files : List String) : List String :=
  let sorted := files.mergeSort fun a b => decide (a ≤ b)
  let shown := sorted.take fileLimit
  let hidden := sorted.length - shown.length
  let entries := shown ++ (if hidden > 0 then ["... " ++ toString hidden ++ " more files"] else [])
  entries.zipIdx.map fun (entry, i) => indent ++ connector (i + 1 == entries.length) ++ " " ++ entry

mutual

/-- Lines of the entries of a directory, of `levels` levels at most. -/
def linesOf (levels : Nat) (indent : String) : DirTree → List String
  | .node dirs files =>
    if levels = 0 then []
    else dirLines levels indent files.isEmpty dirs ++ fileLines indent files

/-- Lines of directories and what is below them; `closes` when no files follow. -/
def dirLines (levels : Nat) (indent : String) (closes : Bool) : List (String × DirTree) → List String
  | [] => []
  | (name, t) :: rest =>
    let isLast := closes && rest.isEmpty
    (indent ++ connector isLast ++ " " ++ name ++ "/ " ++ countText t.fileCount)
      :: linesOf (levels - 1) (indent ++ indentation isLast) t
      ++ dirLines levels indent closes rest

end

/-- The tree of some files under the name of their root. -/
def render (root : String) (files : List String) (levels : Nat) : List String :=
  (root ++ "/") :: linesOf levels "" (ofFiles files)

/-- The directories of a path from the deepest up, until one that is in the set already. -/
def addParents : Nat → List Char → Names → Names
  | 0, _, seen => seen
  | fuel + 1, path, seen =>
    match Text.cutLast '/' path with
    | none => seen
    | some (parent, _) =>
      let name := String.ofList parent
      if seen.contains name then seen else addParents fuel parent (seen.add name)

/-- Number of directories that hold some file, directly or further down. -/
def countDirs (files : List String) : Nat :=
  (files.foldl (fun seen path => addParents path.length path.toList seen) (∅ : Names)).size

end DirTree

end CodeIndex
