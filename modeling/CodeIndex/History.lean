import CodeIndex.Document
import CodeIndex.Text.Basic

set_option autoImplicit false

/-!
# Version control

What the version-control tool is asked, what it answers, and how its answers are read.  Records of the log are
set off by a record separator, and the fields of a record's first line by a field separator; the other
lines of a record are the files that it touched.
-/

namespace CodeIndex

inductive HistoryQuery where
  | isWorkTree
  /-- Tracked files and new ones that are not ignored. -/
  | files
  | newFiles
  /-- Files of the commits since a time. -/
  | committedSince (moment : String)
  /-- Files that differ from the last commit. -/
  | uncommitted
  /-- Every commit with its files, the newest first. -/
  | log
  deriving DecidableEq, Repr, Inhabited

namespace History

def recordSeparator : Char := '\x1e'

def fieldSeparator : Char := '\x1f'

end History

open History in
/-- The arguments that ask for it. -/
def HistoryQuery.arguments : HistoryQuery → List String
  | isWorkTree => ["rev-parse", "--is-inside-work-tree"]
  | files => ["ls-files", "--cached", "--others", "--exclude-standard"]
  | newFiles => ["ls-files", "--others", "--exclude-standard"]
  | committedSince moment => ["log", "--relative", "--since=" ++ moment, "--name-only", "--format="]
  | uncommitted => ["diff", "--relative", "--name-only", "HEAD"]
  | log => ["log", "--relative",
      "--format=" ++ String.ofList [recordSeparator] ++ "%H" ++ String.ofList [fieldSeparator] ++ "%an"
        ++ String.ofList [fieldSeparator] ++ "%aI", "--name-only"]

/-- The command as a user would write it. -/
def HistoryQuery.command (q : HistoryQuery) : String := "git " ++ " ".intercalate q.arguments

/-- What came of asking. -/
inductive HistoryAnswer where
  | output (bytes : ByteArray)
  | failed (complaint : ByteArray)
  /-- No answer in the time that was given. -/
  | hung
  /-- There is no such tool. -/
  | missing

/-- The tool, as a function from what it is asked. -/
abbrev History := HistoryQuery → HistoryAnswer

namespace History

open Text

/-- Nothing is under version control. -/
def none : History := fun _ => .failed "fatal: not a git repository".toUTF8

/-- The lines with something on them, trimmed. -/
def linesIn (output : List Char) : List String :=
  (((lines output).map trim).filter fun l => !l.isEmpty).map String.ofList

/-- A record of the log: a commit and the files that it touched. -/
def record? (text : List Char) : Option (Commit × List String) :=
  match lines text with
  | [] => .none
  | header :: files =>
    match split (· == fieldSeparator) header with
    | [id, author, date] =>
      some (⟨String.ofList id, String.ofList author, String.ofList date⟩,
        ((files.map trim).filter fun l => !l.isEmpty).map String.ofList)
    | _ => .none

def records (output : List Char) : List (Commit × List String) :=
  ((split (· == recordSeparator) output).filter fun r => !(trim r).isEmpty).filterMap record?

/-- The first commit that lists each file. -/
def lastCommits (found : List (Commit × List String)) : Dict Commit :=
  Dict.ofListFirst (found.flatMap fun (commit, files) => files.map fun file => (file, commit))

/-- A span of time in milliseconds, in its largest unit. -/
def timeText (milliseconds : Nat) : String :=
  if milliseconds = 0 then "0ns"
  else if milliseconds < 1000 then toString milliseconds ++ "ms"
  else
    let thousandths := milliseconds % 1000
    let digits := (toString (1000 + thousandths)).toList.drop 1
    let fraction := dropEndWhile (· == '0') digits
    toString (milliseconds / 1000) ++ (if fraction.isEmpty then "" else "." ++ String.ofList fraction) ++ "s"

end History

end CodeIndex
