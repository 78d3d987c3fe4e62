import CodeIndex.Glob
import CodeIndex.Loader
import CodeIndex.Text.Lower

set_option autoImplicit false

/-!
# Answers about a project

Questions that a reader of the index asks.  Each is answered with a JSON value; a failure is answered with an
object that has its message under `error`.
-/

namespace CodeIndex

namespace Answers

open Json

/-- What a search pattern matches: a glob if it has a wildcard and is one, else any path with it in any case. -/
inductive Matcher where
  | glob (g : Glob)
  | part (lower : String)

namespace Matcher

def ofPattern (pattern : String) : Matcher :=
  let hasWildcard := pattern.toList.any fun c => c == '*' || c == '?'
  match if hasWildcard then Glob.ofString? pattern else none with
  | some g => glob g
  | none => part (Text.lowerOf pattern)

def accepts (path : String) : Matcher → Bool
  | glob g => g.accepts path
  | part lower => Text.occursIn lower (Text.lowerOf path)

end Matcher

def defaultLimit : Nat := 50

structure SearchResult where
  pattern : String
  /-- Paths with their modules, by paths. -/
  found : List (String × String)
  total : Nat
  deriving DecidableEq, Repr

namespace SearchResult

def toJson (r : SearchResult) : Json := .object [
  ("matches", .array (r.found.map fun (path, id) => .object [("module", .string id), ("path", .string path)])),
  ("pattern", .string r.pattern), ("total", .natural r.total),
  ("truncated", .bool (r.found.length < r.total))]

end SearchResult

/-- The first indexed paths that a pattern matches. -/
def search (core : CoreIndex) (pattern : String) (limit : Nat) : SearchResult :=
  let matcher := Matcher.ofPattern pattern
  let found := core.modules.toList.flatMap fun (id, entry) =>
    (entry.files.filter fun path => matcher.accepts path).map fun path => (path, id)
  let sorted := found.mergeSort fun a b => decide (a.1 ≤ b.1)
  ⟨pattern, sorted.take limit, sorted.length⟩

/-- What the documents say about one file. -/
def describe (core : CoreIndex) (id : String) (shard : Shard) (path : String) : Json :=
  let synopsis := fun (tier : DocTier) (docs : Dict Synopsis) =>
    match docs.get? path with
    | some s => [("doc", s.toJson), ("doc_tier", Json.string tier.name)]
    | none => []
  let details := match (shard.files.get? path).map FileEntry.toJson with
    | some (.object members) => members
    | _ => []
  Json.canonical (.object ([("path", .string path), ("module", .string id)]
    ++ synopsis .critical core.critical ++ details
    ++ synopsis .standard shard.standard ++ synopsis .archive shard.archive))

/-- What is known about one file. -/
def fileInfo (path : String) : Loading Json := do
  let path := String.ofList (Text.dropHeads "./".toList path.toList)
  let core ← Loader.core
  match core.moduleFor? path with
  | none => Loading.failWith (.notFound "file" path)
  | some id => return describe core id (← Loader.shard id) path

inductive Question where
  | coreIndex
  | detail (id : String)
  | search (pattern : String) (limit : Option Nat)
  | fileInfo (path : String)
  deriving DecidableEq, Repr

/-- The value that a question asks for. -/
def value : Question → Loading Json
  | .coreIndex => return (← Loader.core).toJson.canonical
  | .detail id => return (← Loader.shard id).toJson.canonical
  | .search pattern limit => return (search (← Loader.core) pattern (limit.getD defaultLimit)).toJson
  | .fileInfo path => fileInfo path

/-- The answer to a question. -/
def answer (q : Question) : Loading Json := do
  match ← Loading.attempt (value q) with
  | .ok j => return j
  | .error f => return .object [("error", .string f.headline)]

end Answers

end CodeIndex
