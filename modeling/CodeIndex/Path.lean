import CodeIndex.Text.Basic

set_option autoImplicit false

/-!
# Paths

A path is a string with slashes.  Empty and `.` components say nothing; the file name is the last of the
others unless it is `..`, and the extension is what follows its last dot, when something precedes that dot.
-/

namespace CodeIndex.Path

open Text

/-- The components that mean something, `..` included. -/
def components (path : String) : List String :=
  (pieces '/' path).filter fun c => c ≠ "" && c ≠ "."

def fileName? (path : String) : Option String :=
  match (components path).getLast? with
  | some name => if name = ".." then none else some name
  | none => none

/-- A file name as its stem and extension. -/
def splitName (name : String) : String × Option String :=
  match cutLastIn '.' name with
  | some (stem, ext) => if stem = "" then (name, none) else (stem, some ext)
  | none => (name, none)

def extension? (path : String) : Option String := do
  let name ← fileName? path
  (splitName name).2

def isAbsolute (path : String) : Bool := startsWith "/" path

/-- `path` as seen from `base`; an absolute path is itself. -/
def join (base path : String) : String :=
  if isAbsolute path || base = "" then path
  else if endsWith "/" base then base ++ path
  else base ++ "/" ++ path

/-- The components of a path, put together again. -/
def ofComponents (components : List String) : String := "/".intercalate components

/-- The display name of a directory. -/
def displayName (path : String) : String := (fileName? path).getD "."

end CodeIndex.Path
