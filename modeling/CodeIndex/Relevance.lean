import CodeIndex.Document
import CodeIndex.Json.Record
import CodeIndex.Moment
import CodeIndex.Text.Lower

set_option autoImplicit false

/-!
# Relevance of modules to a query

A module scores the sum over its files of three bonuses: the query names the file, the file changed lately, a
word of the query occurs in its path.  Modules without a score are left out; the others come in order of
their scores, equal ones in order of their ids.
-/

namespace CodeIndex

structure RelevanceWeights where
  /-- The query names the file. -/
  named : Nat
  lastWeek : Nat
  lastMonth : Nat
  keyword : Nat
  deriving DecidableEq, Repr

namespace RelevanceWeights

def default : RelevanceWeights := ⟨10, 5, 2, 1⟩

end RelevanceWeights

structure RelevanceQuery where
  /-- Lower-case words, each once. -/
  terms : List String
  /-- Words that look like paths. -/
  references : List String
  deriving DecidableEq, Repr

namespace RelevanceQuery

open Text

def isWrapping (c : Char) : Bool := [',', ';', '"', '\'', '\x60', '(', ')'].contains c

/-- The words of a text without the marks around them. -/
def wordsOf (text : String) : List (List Char) :=
  ((words text.toList).map (trimBy isWrapping)).filter fun w => !w.isEmpty

def looksLikePath (word : List Char) : Bool :=
  word.contains '/' || (Language.ofPath? (String.ofList word)).isSome

def ofText (text : String) : RelevanceQuery :=
  let ws := wordsOf text
  let terms := ws.map fun w => String.ofList (lower w)
  { terms := distinct (terms.filter fun t => 2 ≤ t.utf8ByteSize)
    references := (ws.filter looksLikePath).map fun w => String.ofList (dropHeads "./".toList w) }

/-- A reference is the path itself or its last components. -/
def isNamed (q : RelevanceQuery) (path : String) : Bool :=
  q.references.any fun r => path = r || endsWith ("/" ++ r) path

def hasKeyword (q : RelevanceQuery) (path : String) : Bool :=
  let lowered := lower path.toList
  q.terms.any fun t => contains t.toList lowered

end RelevanceQuery

structure ModuleScore where
  moduleId : String
  score : Nat
  /-- Files with a score of their own. -/
  files : List String
  deriving DecidableEq, Repr

namespace ModuleScore

def toJson (s : ModuleScore) : Json := .object
  [("module_id", .string s.moduleId), ("score", .natural s.score), ("files", Json.ofNames s.files)]

end ModuleScore

/-- What a score is made of besides the files. -/
structure Scoring where
  weights : RelevanceWeights
  query : RelevanceQuery
  now : Moment
  changedAt : Dict Moment

namespace Scoring

def recency (s : Scoring) (path : String) : Nat :=
  match s.changedAt.get? path with
  | none => 0
  | some t =>
    if t.isWithinDays s.now 7 then s.weights.lastWeek
    else if t.isWithinDays s.now 30 then s.weights.lastMonth
    else 0

def fileScore (s : Scoring) (path : String) : Nat :=
  (if s.query.isNamed path then s.weights.named else 0) + s.recency path
    + (if s.query.hasKeyword path then s.weights.keyword else 0)

def moduleScore (s : Scoring) (id : String) (files : List String) : ModuleScore :=
  let scoring := files.filter fun f => 0 < s.fileScore f
  ⟨id, (scoring.map s.fileScore).foldl (· + ·) 0, Text.sortedSet scoring⟩

/-- Higher scores first, then smaller ids. -/
def precedes (a b : ModuleScore) : Bool :=
  b.score < a.score || (a.score == b.score && decide (a.moduleId ≤ b.moduleId))

def ranking (s : Scoring) (core : CoreIndex) : List ModuleScore :=
  let scores := core.modules.toList.map fun (id, m) => s.moduleScore id m.files
  (scores.filter fun m => 0 < m.score).mergeSort precedes

end Scoring

/-- Times of last change from dates; a date that is none is left out. -/
def changeTimes (dates : List (String × String)) : Dict Moment :=
  Dict.ofList (dates.filterMap fun (path, date) => (Moment.ofText? date).map fun t => (path, t))

/-- Dates of the last commits in some shards. -/
def commitDates (shards : List Shard) : List (String × String) :=
  shards.flatMap fun shard => shard.files.toList.filterMap fun (path, f) =>
    f.commit.map fun c => (path, c.date)

end CodeIndex
