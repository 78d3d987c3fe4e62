import CodeIndex.Disk
import CodeIndex.Fault
import CodeIndex.History
import CodeIndex.Text.Utf8

set_option autoImplicit false

/-!
# Workspace

Where the program works: a disk, a directory from which relative paths lead, and a version-control tool.
An action may fail with a cause and still leave changes behind.
-/

namespace CodeIndex

structure Workspace where
  disk : Disk
  /-- The directory that relative paths start from. -/
  here : Location
  history : History
  /-- What the version-control tool was asked, the latest last. -/
  asked : List HistoryQuery
  /-- The present time. -/
  now : String
  /-- What could not be put back as it was, as it was noted. -/
  unrestored : List String

abbrev Action := ExceptT Failure (StateM Workspace)

namespace Action

variable {α : Type}

def locate (path : String) : Action Location := return (← get).here.resolve path

/-- Something that only looks at the disk. -/
def look (f : Disk → α) : Action α := return f (← get).disk

/-- A change of the disk and what came of it. -/
def tryChange (c : Disk.Change α) : Action (Except DiskError α) := do
  let w ← get
  let (result, disk) := c.run w.disk
  set { w with disk := disk }
  return result

def failWith (f : Fault) : Action α := throw (Failure.ofFault f)

/-- A result of the disk, with its error put down to a path. -/
def orStorage (path : String) : Except DiskError α → Action α
  | .ok a => return a
  | .error e => failWith (.storage path e.reason)

/-- The action as part of a larger activity; sources that cannot be scanned stop everything. -/
def during (activity : String) (a : Action α) : Action α :=
  tryCatch a fun f => throw (f.within activity)

/-- The result of an action or its failure.  Sources that cannot be scanned stop everything. -/
def attempt (a : Action α) : Action (Except Failure α) :=
  tryCatch (Except.ok <$> a) fun f => if f.cause = .unscannable then throw f else return .error f

/-- Puts something back, or notes that this cannot be done. -/
def orNote (what : String) (a : Action Unit) : Action Unit := do
  match ← attempt a with
  | .ok () => return
  | .error _ => modify fun w => { w with unrestored := w.unrestored ++ [what] }

/-- Asks the version-control tool, which has some milliseconds to answer. -/
def ask (timeout : Nat) (q : HistoryQuery) : Action String := do
  let w ← get
  let answer := w.history q
  unless answer matches .missing do set { w with asked := w.asked ++ [q] }
  match answer with
  | .missing => throw ⟨["Failed to execute " ++ q.command], .other DiskError.absent.reason⟩
  | .hung => throw (Failure.other (q.command ++ " timed out after " ++ History.timeText timeout))
  | .failed complaint =>
    throw (Failure.other (q.command ++ " failed: " ++ Text.on Text.trim (Text.lossy complaint)))
  | .output bytes =>
    match String.fromUTF8? bytes with
    | some s => return s
    | none => throw ⟨["Invalid UTF-8 in git output"], .other "invalid UTF-8"⟩

end Action

namespace History

open Action

def isWorkTree (timeout : Nat) : Action Bool := do
  match ← attempt (ask timeout .isWorkTree) with
  | .ok output => return Text.on Text.trim output == "true"
  | .error _ => return false

/-- Files under version control and new ones. -/
def files (timeout : Nat) : Action (List String) := do
  return Text.sortedSet (linesIn (← ask timeout .files).toList)

/-- Files that were touched since a time: by commits, in the work tree, or by being new. -/
def touchedSince (timeout : Nat) (moment : String) : Action (List String) := do
  let committed ← ask timeout (.committedSince moment)
  let uncommitted ← ask timeout .uncommitted
  let fresh ← ask timeout .newFiles
  return Text.sortedSet ([committed, uncommitted, fresh].flatMap fun output => linesIn output.toList)

/-- The newest commit of each file. -/
def commits (timeout : Nat) : Action (Dict Commit) := do
  return lastCommits (records (← ask timeout .log).toList)

end History

end CodeIndex
