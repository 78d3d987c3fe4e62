import CodeIndex.Dict
import CodeIndex.Text.Basic

set_option autoImplicit false

/-!
# The outline of a source file

What a file declares and imports: free functions, types with their methods, and import targets.  A call
is recorded by the bare name that is called; a caller is named `f` or, for a method, `Type.f`.
-/

namespace CodeIndex

/-- A function or method. -/
structure Callable where
  /-- Line of the definition, from 1. -/
  line : UInt64
  /-- The declaration up to its body, with single spaces. -/
  signature : String
  /-- Names called in the body, in order and each once. -/
  calls : List String
  /-- First line of the documentation. -/
  doc : Option String
  deriving DecidableEq, Inhabited

/-- A class, struct, enum or trait. -/
structure TypeOutline where
  line : UInt64
  bases : List String
  methods : Dict Callable
  doc : Option String
  deriving DecidableEq

structure Outline where
  functions : Dict Callable
  types : Dict TypeOutline
  imports : List String
  deriving DecidableEq

/-- A caller and the name it calls. -/
abbrev CallEdge := String × String

/-- Called names in order, each once, without empty ones and without the caller's own name. -/
def calledNames (own : String) (names : List String) : List String :=
  Text.sortedSet (names.filter fun name => name ≠ "" && name ≠ own)

namespace TypeOutline

def empty : TypeOutline := ⟨0, [], {}, none⟩

end TypeOutline

namespace Outline

def empty : Outline := ⟨{}, {}, []⟩

instance : EmptyCollection Outline := ⟨empty⟩

/-- Methods with their qualified names. -/
def methods (o : Outline) : List (String × Callable) :=
  o.types.toList.flatMap fun (type, t) => t.methods.toList.map fun (m, c) => (type ++ "." ++ m, c)

/-- Functions, then methods under their qualified names. -/
def callables (o : Outline) : List (String × Callable) := o.functions.toList ++ o.methods

def callableCount (o : Outline) : UInt64 := o.callables.length.toUInt64

/-- Names that a call in the same module may mean: functions, types, methods bare and qualified. -/
def definedNames (o : Outline) : List String :=
  o.functions.keys ++ o.types.toList.flatMap fun (type, t) =>
    type :: t.methods.keys.flatMap fun m => [m, type ++ "." ++ m]

def callEdges (o : Outline) : List CallEdge :=
  o.callables.flatMap fun (caller, c) => c.calls.map fun callee => (caller, callee)

/-- Edges in order, each once. -/
def sortEdges (edges : List CallEdge) : List CallEdge :=
  dedupe (edges.mergeSort fun a b => decide (a.1 < b.1) || (a.1 = b.1 && decide (a.2 ≤ b.2)))
where
  /-- Equal neighbours are kept once. -/
  dedupe : List CallEdge → List CallEdge
    | [] => []
    | [a] => [a]
    | a :: b :: rest => if a = b then dedupe (b :: rest) else a :: dedupe (b :: rest)

end Outline

end CodeIndex
