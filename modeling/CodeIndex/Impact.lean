import CodeIndex.Document
import CodeIndex.Json.Record

set_option autoImplicit false

/-!
# What a change can affect

Callers of a name are affected directly, their callers indirectly, up to a number of steps.  The names of the
calls are numbered in the order in which they come up, and callers are found breadth first over the numbers:
each name is counted once, where it is first reached.
-/

namespace CodeIndex

/-- The names in some calls, and the numbers of the callers of each. -/
structure CallGraph where
  names : List String
  callers : List (List Nat)

structure ImpactReport where
  target : String
  direct : List String
  indirect : List String
  deriving DecidableEq, Repr

namespace ImpactReport

def affected (r : ImpactReport) : List String := r.direct ++ r.indirect

def totalAffected (r : ImpactReport) : Nat := r.direct.length + r.indirect.length

def toJson (r : ImpactReport) : Json := .object
  [("target", .string r.target), ("direct", Json.ofNames r.direct),
    ("indirect", Json.ofNames r.indirect), ("total_affected", .natural r.totalAffected)]

end ImpactReport

namespace CallGraph

def empty : CallGraph := ⟨[], []⟩

def number? (g : CallGraph) (name : String) : Option Nat := g.names.idxOf? name

/-- The number of a name; a new name gets the next one. -/
def number (g : CallGraph) (name : String) : Nat × CallGraph :=
  match g.number? name with
  | some n => (n, g)
  | none => (g.names.length, ⟨g.names ++ [name], g.callers ++ [[]]⟩)

def callersOf (g : CallGraph) (n : Nat) : List Nat := g.callers.getD n []

/-- Notes that one number calls another, once. -/
def addCaller (g : CallGraph) (caller callee : Nat) : CallGraph :=
  { g with callers := g.callers.modify callee fun known =>
      if known.contains caller then known else known ++ [caller] }

def addEdge (g : CallGraph) (e : CallEdge) : CallGraph :=
  let (caller, g) := g.number e.1
  let (callee, g) := g.number e.2
  g.addCaller caller callee

/-- Edges without a name at one end say nothing. -/
def ofEdges (edges : List CallEdge) : CallGraph :=
  (edges.filter fun e => e.1 ≠ "" && e.2 ≠ "").foldl addEdge empty

/-- Edges from free values; what is no pair of strings is left out. -/
def ofJson (edges : List Json) : CallGraph := ofEdges (edges.filterMap Json.pair?)

def ofShards (shards : List Shard) : CallGraph := ofEdges (shards.flatMap Shard.calls)

/-- A walk from a target: the numbers it has reached, those whose callers it has yet to look at, with their
    distances from the target, and the names to report. -/
structure Walk where
  reached : List Nat
  waiting : List (Nat × Nat)
  direct : List String
  indirect : List String

namespace Walk

def start (n : Nat) : Walk := ⟨[n], [(n, 0)], [], []⟩

/-- Reaches a caller of something at some distance. -/
def reach (g : CallGraph) (distance : Nat) (w : Walk) (caller : Nat) : Walk :=
  if w.reached.contains caller then w
  else
    let name := g.names.getD caller ""
    { reached := w.reached ++ [caller]
      waiting := w.waiting ++ [(caller, distance + 1)]
      direct := if distance = 0 then w.direct ++ [name] else w.direct
      indirect := if distance = 0 then w.indirect else w.indirect ++ [name] }

/-- Looks at the callers of the number that has waited longest. -/
def step (g : CallGraph) (maxDepth : Nat) (w : Walk) : Walk :=
  match w.waiting with
  | [] => w
  | (n, distance) :: rest =>
    let w := { w with waiting := rest }
    if maxDepth ≤ distance then w else (g.callersOf n).foldl (reach g distance) w

/-- Takes so many steps. -/
def run (g : CallGraph) (maxDepth : Nat) : Nat → Walk → Walk
  | 0, w => w
  | steps + 1, w => run g maxDepth steps (step g maxDepth w)

end Walk

/-- A number waits once at most, so there are no more steps than names. -/
def walk (g : CallGraph) (maxDepth start : Nat) : Walk :=
  Walk.run g maxDepth g.names.length (Walk.start start)

def impact (g : CallGraph) (target : String) (maxDepth : Nat) : ImpactReport :=
  match g.number? target with
  | none => ⟨target, [], []⟩
  | some n =>
    let w := g.walk maxDepth n
    ⟨target, w.direct.mergeSort fun a b => decide (a ≤ b), w.indirect.mergeSort fun a b => decide (a ≤ b)⟩

/-- Steps that are taken when nothing else is asked for. -/
def defaultDepth : Nat := 10

end CallGraph

end CodeIndex
