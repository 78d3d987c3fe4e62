import CodeIndex.Document

set_option autoImplicit false

/-!
# Consistency of a core index

The map from files to modules is to be the exact inverse of the modules' file lists.  Every violation is one
line of text.  An index without a map has only its file lists checked.
-/

namespace CodeIndex.CoreIndex

/-- A file count that is not the number of files. -/
def countProblems (id : String) (m : ModuleEntry) : List String :=
  if m.fileCount = m.files.length.toUInt64 then []
  else ["module '" ++ id ++ "' reports " ++ toString m.fileCount ++ " files but lists "
    ++ toString m.files.length]

/-- A file that was seen before, in a module that `seen` names. -/
def repetitionProblems (seen : Dict String) (id file : String) : List String :=
  match seen.get? file with
  | some other => ["file '" ++ file ++ "' is in modules '" ++ other ++ "' and '" ++ id ++ "'"]
  | none => []

/-- A file that the map does not send to its module. -/
def mapProblems (core : CoreIndex) (id file : String) : List String :=
  if core.moduleOfFile.isEmpty then []
  else match core.moduleOfFile.get? file with
    | some mapped =>
      if mapped = id then []
      else ["file '" ++ file ++ "' maps to '" ++ mapped ++ "' but is listed under '" ++ id ++ "'"]
    | none => ["file '" ++ file ++ "' missing from file_to_module_map"]

/-- Goes through the files of a module; `seen` holds the last module of each file so far. -/
def fileProblems (core : CoreIndex) (id : String) : Dict String → List String → List String × Dict String
  | seen, [] => ([], seen)
  | seen, file :: rest =>
    let here := repetitionProblems seen id file ++ core.mapProblems id file
    let (later, seen) := fileProblems core id (seen.insert file id) rest
    (here ++ later, seen)

def moduleProblems (core : CoreIndex) :
    Dict String → List (String × ModuleEntry) → List String × Dict String
  | seen, [] => ([], seen)
  | seen, (id, m) :: rest =>
    let (inFiles, seen) := core.fileProblems id seen m.files
    let (later, seen) := moduleProblems core seen rest
    (countProblems id m ++ inFiles ++ later, seen)

/-- Entries of the map whose file no module lists. -/
def strayProblems (core : CoreIndex) (seen : Dict String) : List String :=
  (core.moduleOfFile.toList.filter fun e => !seen.contains e.1).map fun (file, id) =>
    "map entry '" ++ file ++ "' -> '" ++ id ++ "' has no module listing"

def partitionProblems (core : CoreIndex) : List String :=
  let (problems, seen) := core.moduleProblems {} core.modules.toList
  problems ++ core.strayProblems seen

end CodeIndex.CoreIndex
