import CodeIndex.Answers

set_option autoImplicit false

/-!
# Server

Answers about a project as a JSON-RPC service, one request and one reply a line.  A line that is no request and
a notification get no reply.  Questions whose answer is a failure are answered all the same; only requests
that ask for nothing known are errors.
-/

namespace CodeIndex.Server

open Json

structure Request where
  id : Option Json
  method : String
  params : Option Json

namespace Request

/-- A free value inside a request. -/
def free? (j : Json) : Option Json := if j.numbersInRange then some j.canonical else none

/-- By position, a request must have all its fields. -/
def hasEveryField : Json → Bool
  | .array items => items.length = 4
  | _ => true

def ofText? (line : String) : Option Request := do
  let j ← Json.read? line
  if j.depth < depthLimit ∧ hasEveryField j then
    let [version, id, method, params] ← fields? ["jsonrpc", "id", "method", "params"] j | none
    let _ ← required asString? version
    return ⟨← optional free? id, ← required asString? method, ← optional free? params⟩
  else none

/-- Nobody waits for a reply. -/
def isNotification (r : Request) : Bool := r.id.isNone && Text.startsWith "notifications/" r.method

end Request

def text (s : String) : Json := .string s

/-- A schema for the arguments of a tool. -/
def schema (properties : List (String × String × String)) (required : List String) : Json :=
  .object ([("type", text "object"),
      ("properties", .object (properties.map fun (name, type, description) =>
        (name, .object [("type", text type), ("description", text description)])))]
    ++ memberIf (!required.isEmpty) "required" (ofNames required))

def tool (name description : String) (arguments : Json) : Json :=
  .object [("name", text name), ("description", text description), ("inputSchema", arguments)]

def tools : List Json := [
  tool "load_core_index"
    ("Load the Core Index: directory tree, stats, module list with file counts, file→module map and critical "
      ++ "documentation.\n\n**Use this first.** Pick modules from the result, then load only those with load_detail.")
    (schema [] []),
  tool "load_detail"
    ("Load the Detail Shard of one module: per-file functions, classes, imports, local and external call graph, "
      ++ "standard/archive documentation.\n\n**Example:** module \"src-components\"")
    (schema [("module", "string", "Module id as listed in the Core Index (letters, digits, '_', '-', '.')")]
      ["module"]),
  tool "search_files"
    ("Search indexed file paths.\n\nPlain patterns match as case-insensitive substrings; patterns containing * or ? "
      ++ "match as globs (e.g. \"src/**/*.py\").\n\n**Returns:** \x7bpattern, matches: [\x7bpath, module\x7d], total, "
      ++ "truncated\x7d")
    (schema [("pattern", "string", "Substring or glob pattern"),
      ("limit", "integer", "Maximum number of matches (default: 50)")] ["pattern"]),
  tool "get_file_info"
    ("Everything the index knows about one file: module, language, functions, classes, imports, documentation summary "
      ++ "and last commit.")
    (schema [("path", "string", "File path relative to the project root")] ["path"])]

/-- Version of the program that the server reports. -/
def programVersion : String := "0.4.0"

def description : Json := .object [
  ("protocolVersion", text "2024-11-05"), ("capabilities", .object [("tools", .object [])]),
  ("serverInfo", .object [("name", text "project-index"), ("version", text programVersion)])]

/-- A member of a value; nothing for a value that has no members. -/
def member? (j : Json) (key : String) : Option Json := j.get? key

def textMember (j : Json) (key missing : String) : Except String String :=
  match (member? j key).bind asString? with
  | some s => .ok s
  | none => .error missing

/-- The question that a call of a tool asks. -/
def question (params : Option Json) : Except String Answers.Question := do
  match params with
  | none => throw "Missing params"
  | some params =>
    let name ← textMember params "name" "Missing tool name"
    let arguments := (member? params "arguments").getD .null
    match name with
    | "load_core_index" => return .coreIndex
    | "load_detail" => return .detail (← textMember arguments "module" "Missing module")
    | "search_files" =>
      let pattern ← textMember arguments "pattern" "Missing pattern"
      return .search pattern ((member? arguments "limit").bind asNatural?)
    | "get_file_info" => return .fileInfo (← textMember arguments "path" "Missing path")
    | other => throw ("Unknown tool: " ++ other)

/-- The result of a request, or what is wrong with it. -/
def result (r : Request) : Loading (Except String Json) := do
  match r.method with
  | "initialize" => return .ok description.canonical
  | "tools/list" => return .ok (Json.object [("tools", .array tools)]).canonical
  | "tools/call" =>
    match question r.params with
    | .error e => return .error e
    | .ok q =>
      let answer ← Answers.answer q
      return .ok (.object [("content", .array [.object [("text", text answer.render), ("type", text "text")]])])
  | other => return .error ("Unknown method: " ++ other)

def errorCode : Json := .negative 32603

def reply (id : Option Json) : Except String Json → Json
  | .ok value => .object [("jsonrpc", text "2.0"), ("id", id.getD .null), ("result", value)]
  | .error message => .object [("jsonrpc", text "2.0"), ("id", id.getD .null),
      ("error", .object [("code", errorCode), ("message", text message)])]

/-- The reply to a line, if it gets one. -/
def respond? (line : String) : Loading (Option Json) := do
  match Request.ofText? line with
  | none => return none
  | some r =>
    if r.isNotification then return none
    else return some (reply r.id (← result r))

/-- The replies to some lines, in order. -/
def serve (lines : List String) : Loading (List Json) := lines.filterMapM respond?

end CodeIndex.Server
