import CodeIndex.Glob

set_option autoImplicit false

/-!
# Ignore files

A line of an ignore file is a glob for paths below the file's directory.  Without a slash inside it applies at
every depth; one at the end restricts it to directories, `!` at the start takes paths back in.  The last
line that matches decides.
-/

namespace CodeIndex

structure IgnoreRule where
  glob : Glob
  /-- Paths that match are kept. -/
  keeps : Bool
  onlyDirectories : Bool

abbrev IgnoreRules := List IgnoreRule

namespace IgnoreRule

open Text

/-- The line without blanks at its end; one after a backslash stays. -/
def stripped (line : List Char) : List Char :=
  if "\\ ".toList.isSuffixOf line then line else trimEnd line

/-- A mark at the start of a line, or the character that a backslash there protects. -/
def opening (line : List Char) : Bool × Bool × List Char :=
  match line with
  | '\\' :: '!' :: rest => (false, false, '!' :: rest)
  | '\\' :: '#' :: rest => (false, false, '#' :: rest)
  | '!' :: '/' :: rest => (true, true, rest)
  | '!' :: rest => (true, false, rest)
  | '/' :: rest => (false, true, rest)
  | _ => (false, false, line)

/-- The line without a slash at its end, and whether there was one. -/
def closing (line : List Char) : Bool × List Char :=
  if line.getLast? = some '/' then
    let rest := line.dropLast
    (true, if rest.getLast? = some '\\' then rest.dropLast else rest)
  else (false, line)

/-- The glob that a line means, seen from the directory of its file. -/
def globText (anchored : Bool) (line : List Char) : List Char :=
  let deep := !anchored && !line.contains '/' && !("**/".toList.isPrefixOf line || line = "**".toList)
  let text := if deep then "**/".toList ++ line else line
  if "/**".toList.isSuffixOf text then text ++ "/*".toList else text

def ofLine? (line : List Char) : Option IgnoreRule :=
  if line.head? = some '#' then none
  else
    let line := stripped line
    if line.isEmpty then none
    else
      let (keeps, anchored, rest) := opening line
      let (onlyDirectories, rest) := closing rest
      (Glob.ofString? (String.ofList (globText anchored rest))).map fun glob => ⟨glob, keeps, onlyDirectories⟩

end IgnoreRule

namespace IgnoreRules

/-- The rules of a file; lines that are no rules say nothing. -/
def ofText (text : String) : IgnoreRules :=
  (Text.lines text.toList).filterMap IgnoreRule.ofLine?

/-- Whether a path is kept, if the rules decide it. -/
def verdict? (rules : IgnoreRules) (path : String) (isDirectory : Bool) : Option Bool :=
  (rules.reverse.find? fun r => (isDirectory || !r.onlyDirectories) && r.glob.acceptsByNames path).map
    IgnoreRule.keeps

end IgnoreRules

end CodeIndex
