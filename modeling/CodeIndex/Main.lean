import CodeIndex.Command.Run
import Std.Time.DateTime

set_option autoImplicit false

/-!
# The program

Takes the files that it needs from the real disk, runs the command on them and puts back what has changed.  The
paths of a project's files come on standard input, one a line, as version control lists them; there is no
other access to version control.  The server reads its requests there.
-/

namespace CodeIndex.Program

def usage : String := "\n".intercalate [
  "Usage: pidx [OPTIONS] [COMMAND]", "",
  "Without a command, builds the index of the files that are listed on standard input.", "",
  "Commands: serve, search, info, impact, relevant, verify",
  "Options: -C PATH, --mode MODE, --threshold N, --incremental, --full, --skip-details, --migrate, -v, -q"]

/-- The files that are listed on standard input, and nothing else about their history. -/
def listed (paths : List String) : History
  | .isWorkTree => .output "true\n".toUTF8
  | .files => .output ("\n".intercalate paths).toUTF8
  | _ => .failed "no history at hand".toUTF8

/-- Stands for the time of a file's last change: it is another one for other contents. -/
def stamp (bytes : ByteArray) : Nat :=
  (Digest.ofBytes bytes).toList.foldl (fun n c => n * 16 + (Json.hexValue? c).getD 0) 0

/-- A disk with one more node, and the directories above it. -/
def withNode (d : Disk) (l : Location) (node : Node) : Disk :=
  (l.above.foldl (fun d above => if d.isDirectory above then d else d.put above .directory) d).put l node

/-- A disk with one more file of the real one, if it is there. -/
def fetch (here : Location) (d : Disk) (path : String) : IO Disk := do
  let l := here.resolve path
  try
    let bytes ← IO.FS.readBinFile l.toPath
    return withNode d l (.file bytes (stamp bytes))
  catch _ => return d

/-- Files that a project's index consists of, besides its shards. -/
def indexPaths (store : Store) : List String := [
  Path.join store.root Settings.fileName, store.corePath, store.backupPath,
  Path.join (Path.join store.root OutlineCache.directory) OutlineCache.fileName]

/-- The shards that a core index names. -/
def shardPaths (space : Workspace) (store : Store) : List String :=
  match (ExceptT.run store.readCore).run space with
  | (.ok core, _) => core.modules.keys.map store.shardPath
  | (.error _, _) => []

/-- The parts of the real disk that belong to a project. -/
def gather (root now : String) (paths : List String) : IO Workspace := do
  let here := Location.resolve [] (toString (← IO.FS.realPath "."))
  let store : Store := ⟨root⟩
  let start := withNode Disk.empty (here.resolve root) .directory
  let d ← (indexPaths store ++ paths.map (Path.join root)).foldlM (fetch here) start
  let history := if paths.isEmpty then History.none else listed paths
  let space : Workspace := ⟨d, here, history, [], now, []⟩
  return { space with disk := ← (shardPaths space store).foldlM (fetch here) d }

/-- Puts a file where it belongs, as a whole or not at all. -/
def store (l : Location) (bytes : ByteArray) : IO Unit := do
  IO.FS.createDirAll (Location.toPath l.dropLast)
  IO.FS.writeBinFile (Store.besides l.toPath) bytes
  IO.FS.rename (Store.besides l.toPath) l.toPath

/-- Brings the real disk from one state to another. -/
def settle (before after : Disk) : IO Unit := do
  for (l, node) in after.entries do
    match node, before.find? l with
    | .file bytes _, some (.file old _) => if bytes != old then store l bytes
    | .file bytes _, _ => store l bytes
    | .directory, _ => pure ()
  for (l, node) in before.entries do
    match node, after.find? l with
    | .file _ _, none => IO.FS.removeFile l.toPath
    | _, _ => pure ()

/-- The present time in UTC. -/
def present : IO String := do
  let t ← Std.Time.Timestamp.now
  return Moment.toText ⟨t.toSecondsSinceUnixEpoch.val, 0⟩

partial def readLines (input : IO.FS.Stream) : IO (List String) := do
  let line ← input.getLine
  if line.isEmpty then return []
  return (Text.lines line.toList).map String.ofList ++ (← readLines input)

/-- Answers requests one by one, until there are no more. -/
partial def answerRequests (input output : IO.FS.Stream) (space : Workspace) (loader : Loader) : IO Unit := do
  let line ← input.getLine
  if line.isEmpty then return
  let request := (Text.linesOf line).headD ""
  match (ExceptT.run ((Server.respond? request).result loader)).run space with
  | (.ok (.ok (some reply), loader), space) =>
    output.putStrLn reply.render
    output.flush
    answerRequests input output space loader
  | (.ok (_, loader), space) => answerRequests input output space loader
  | (.error _, space) => answerRequests input output space loader

def print (o : Outcome) (time : String) : IO Unit := do
  o.notes.forM fun n => IO.eprintln n
  o.lines.forM fun l => IO.println (l.render time)

/-- Runs a command other than the server, and answers with the exit code. -/
def perform (arguments : List String) (i : Invocation) : IO UInt32 := do
  let started ← IO.monoMsNow
  let builds := i.command.isNone && !i.migrate
  let paths ← if builds then readLines (← IO.getStdin) else pure []
  if builds && paths.isEmpty then
    IO.eprintln "Error: no files are listed on standard input"
    return 1
  let space ← gather i.root (← present) paths
  match (ExceptT.run (Outcome.ofArguments arguments [])).run space with
  | (.error f, _) =>
    IO.eprintln ("Error: " ++ f.fullText)
    return 1
  | (.ok o, after) =>
    settle space.disk after.disk
    print o (History.timeText ((← IO.monoMsNow) - started))
    return o.code.toUInt32

def run (arguments : List String) : IO UInt32 := do
  match Invocation.ofArguments arguments with
  | .error e =>
    let o := Outcome.ofUsage e
    print o ""
    if e = .helpAsked then IO.println usage
    else if o.code ≠ 0 then IO.eprintln usage
    return o.code.toUInt32
  | .ok i =>
    if i.command = some .serve then
      let space ← gather i.root (← present) []
      answerRequests (← IO.getStdin) (← IO.getStdout) space (Loader.ofRoot i.root)
      return 0
    else perform arguments i

end CodeIndex.Program

def main (arguments : List String) : IO UInt32 := CodeIndex.Program.run arguments
