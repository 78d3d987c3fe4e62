import CodeIndex.Command.Invocation
import CodeIndex.Migration
import CodeIndex.Server
import CodeIndex.Settings.Stored
import CodeIndex.Update

set_option autoImplicit false

/-!
# Runs

What the program does when it is told to, and what it says about it.  Results are lines of output; what went
another way than expected is noted beside them, failures last.
-/

namespace CodeIndex

inductive Line where
  | text (s : String)
  /-- How long the run took. -/
  | elapsed
  deriving DecidableEq, Repr, Inhabited

def Line.render (time : String) : Line → String
  | .text s => s
  | .elapsed => "  Time: " ++ time

/-- What a run says. -/
structure Report where
  lines : List Line
  notes : List String
  deriving DecidableEq, Repr, Inhabited

structure Outcome extends Report where
  code : Nat
  deriving DecidableEq, Repr

/-- A run in progress.  What it said before a failure stays said. -/
abbrev Running := ExceptT Failure (StateT Report (StateM Workspace))

namespace Running

variable {α : Type}

instance : MonadLift Action Running := ⟨fun a => ExceptT.mk (StateT.lift a.run)⟩

def line (l : Line) : Running Unit := modifyThe Report fun r => { r with lines := r.lines ++ [l] }

def say (s : String) : Running Unit := line (.text s)

def note (s : String) : Running Unit := modifyThe Report fun r => { r with notes := r.notes ++ [s] }

/-- Says something unless the run is to be quiet. -/
def unlessQuiet (i : Invocation) (a : Running Unit) : Running Unit := if i.quiet then pure () else a

end Running

namespace Invocation

open Running

/-- The project's settings, as far as the invocation does not say otherwise. -/
def settings (i : Invocation) : Action Settings := do
  let s ← Settings.load i.root
  return { s with
    mode := i.mode.getD s.mode
    threshold := i.threshold.getD s.threshold
    skipDetails := i.skipDetails || s.skipDetails }

def store (i : Invocation) : Store := ⟨i.root⟩

/-- Whether the index is to have shards. -/
def wantsShards (i : Invocation) (m : Maker) : Action Bool := do
  match m.settings.mode with
  | .split => return true
  | .single => return false
  | .auto =>
    if ← i.store.isSplit then return true
    let (files, _) ← Listing.files m.settings i.root
    return m.settings.threshold ≤ files.length

def saySkipped (skipped : Nat) : Running Unit :=
  if skipped = 0 then pure () else say ("  Listed without details: " ++ toString skipped)

def runSingle (i : Invocation) (m : Maker) : Running Unit := do
  if i.incremental then
    throw (Failure.other "Incremental updates require the split layout (use --mode split)")
  let (index, skipped) ← m.buildSingle i.root
  unlessQuiet i do
    say ("Index written: " ++ i.store.corePath ++ " (single file)")
    say ("  Files indexed: " ++ toString index.stats.totalFiles)
    saySkipped skipped
    line .elapsed

def sayUpdate : UpdateOutcome → Running Unit
  | .unchanged => say "Index is up to date"
  | .updated modules changed => do
    say "Index updated incrementally"
    say ("  Changed files: " ++ toString changed.length)
    say ("  Regenerated modules: " ++ ", ".intercalate modules)
    line .elapsed

/-- Notes why an index is built anew. -/
def noteRebuild (f : Failure) : Running Unit :=
  match f.fault? with
  | some fault =>
    if fault.needsRebuild then note ("Incremental update not possible (" ++ fault.message ++ "), rebuilding")
    else note ("Incremental update failed (" ++ f.fullText ++ "), rebuilding")
  | none => note ("Incremental update failed (" ++ f.fullText ++ "), rebuilding")

/-- Tries to update an index; the answer says whether that was enough. -/
def tryUpdate (i : Invocation) (m : Maker) : Running Bool := do
  let possible ← i.store.isSplit
  if !i.full && possible && !m.settings.skipDetails then
    match ← Action.attempt (Update.run m i.root) with
    | .ok outcome =>
      unlessQuiet i (sayUpdate outcome)
      return true
    | .error f =>
      if i.incremental then throw (f.within "Incremental update failed")
      unlessQuiet i (noteRebuild f)
      return false
  else if i.incremental then
    throw (Failure.other
      ("No split index with detail shards at " ++ i.store.corePath ++ "; run a full build first"))
  else return false

def sayBuild (i : Invocation) (core : CoreIndex) (skipped : Nat) : Running Unit := do
  say ("Index written: " ++ i.store.corePath)
  say ("  Files indexed: " ++ toString core.stats.totalFiles)
  say ("  Modules: " ++ toString core.modules.size)
  match core.stats.framework with
  | some layout => say ("  Layout: " ++ layout)
  | none => pure ()
  saySkipped skipped
  line .elapsed

def runBuild (i : Invocation) : Running Unit := do
  let m := Maker.ofSettings (← i.settings)
  if ← i.wantsShards m then
    if !(← i.tryUpdate m) then
      let (core, skipped) ← m.build i.root
      unlessQuiet i (i.sayBuild core skipped)
  else i.runSingle m

def runMigration (i : Invocation) : Running Unit := do
  let m := Maker.ofSettings (← i.settings)
  match ← Action.during "Migration failed" (Migration.run m i.root) with
  | .alreadySplit => unlessQuiet i (note "Index already uses the split layout, nothing to migrate.")
  | .migrated core =>
    unlessQuiet i do
      say "Migrated to split layout"
      say ("  Files: " ++ toString core.stats.totalFiles)
      say ("  Modules: " ++ toString core.modules.size)
      say ("  Backup: " ++ i.store.backupPath)

/-- Says the answer to a question. -/
def runQuestion (i : Invocation) (q : Answers.Question) : Running Unit := do
  let answer ← (Answers.answer q).fresh i.root
  match (answer.get? "error").bind Json.asString? with
  | some message => throw (Failure.other message)
  | none => say answer.render

def sayNames (title : String) (names : List String) : Running Unit := do
  say ("  " ++ title ++ " (" ++ toString names.length ++ "):")
  names.forM fun name => say ("    " ++ name)

def runImpact (i : Invocation) (name : String) (depth : Nat) (asJson : Bool) : Running Unit := do
  let report ← (Loader.impact name depth).fresh i.root
  if asJson then say report.toJson.render
  else
    say ("Impact of changing '" ++ report.target ++ "'")
    sayNames "Direct callers" report.direct
    sayNames "Indirect callers" report.indirect
    say ("  Total affected: " ++ toString report.totalAffected)

/-- A number in a column. -/
def column (width n : Nat) : String :=
  let digits := toString n
  String.ofList (List.replicate (width - digits.length) ' ') ++ digits

def scoreLine (s : ModuleScore) : String :=
  column 4 s.score ++ "  " ++ s.moduleId ++ "  (" ++ toString s.files.length ++ " files)"

def runRelevance (i : Invocation) (words : List String) (limit : Nat) (asJson : Bool) : Running Unit := do
  let moment := (Moment.ofText? (← getThe Workspace).now).getD default
  let ranking ← (Loader.ranking (" ".intercalate words) moment).fresh i.root
  let scores := ranking.take limit
  if asJson then say (Json.array (scores.map ModuleScore.toJson)).render
  else if scores.isEmpty then note "No module matches the query."
  else scores.forM fun s => say (scoreLine s)

def runVerification (i : Invocation) : Running Unit := do
  let core ← i.store.readCore
  match ← i.store.problems core with
  | [] =>
    unlessQuiet i (say ("Index OK: " ++ toString core.modules.size ++ " modules, "
      ++ toString core.stats.totalFiles ++ " files, " ++ toString core.hashes.size ++ " shard hashes verified"))
  | problems =>
    problems.forM note
    throw (Failure.ofFault (.inconsistent problems))

def runServer (i : Invocation) (requests : List String) : Running Unit := do
  let replies ← (Server.serve requests).fresh i.root
  replies.forM fun reply => say reply.render

/-- Does what the invocation says; the server takes its requests from the input. -/
def run (i : Invocation) (input : List String) : Running Unit :=
  match i.command with
  | none => if i.migrate then i.runMigration else i.runBuild
  | some .serve => i.runServer input
  | some (.search pattern limit) => i.runQuestion (.search pattern limit)
  | some (.info path) => i.runQuestion (.fileInfo path)
  | some (.impact name depth asJson) => i.runImpact name depth asJson
  | some (.relevant words limit asJson) => i.runRelevance words limit asJson
  | some .verify => i.runVerification

end Invocation

namespace Outcome

def versionLine : String := "pidx " ++ Server.programVersion

/-- What is said about arguments that say nothing else to do. -/
def ofUsage : UsageError → Outcome
  | .versionAsked => ⟨⟨[.text versionLine], []⟩, 0⟩
  | .helpAsked => ⟨⟨[], []⟩, 0⟩
  | _ => ⟨⟨[], []⟩, 2⟩

/-- What comes of some arguments.  Sources that cannot be scanned stop everything. -/
def ofArguments (arguments input : List String) : Action Outcome := do
  match Invocation.ofArguments arguments with
  | .error e => return ofUsage e
  | .ok i =>
    let (result, report) ← ExceptT.lift ((i.run input).run.run ⟨[], []⟩)
    match result with
    | .ok () => return ⟨report, 0⟩
    | .error f =>
      if f.cause = .unscannable then throw f
      else return ⟨{ report with notes := report.notes ++ ["Error: " ++ f.fullText] }, 1⟩

end Outcome

end CodeIndex
