import CodeIndex.Outline
import CodeIndex.Source.RustLandmark
import CodeIndex.Text.Basic

set_option autoImplicit false

/-!
# Outlines of Rust files

A function belongs to the innermost implementation or trait around it, is free when there is none, and is not
listed when a function or closure is nearer.  Its calls include those of functions inside it.
-/

namespace CodeIndex.Rust

open Text

/-- The landmarks of a text, by the places where they begin. -/
def landmarks (ts : List Token) : List Landmark :=
  let code := ts.filter fun t => t.kind != .comment
  let reader := ((readExpressions (4 * code.length + 8) .closing .nothing).run ⟨code, 0, []⟩).2
  reader.found.mergeSort fun a b => decide (a.start ≤ b.start)

/-- Text of a comment that documents what follows. -/
def docText? (t : Token) : Option (List Char) :=
  if t.kind == .comment then (dropHead? "///".toList t.text).map trim else none

/-- Passes over an attribute, given the tokens before a place from near to far. -/
def beforeAttribute? : List Token → Option (List Token)
  | t :: rest => if t.kind == .closing && t.text == [']'] then go 0 (t :: rest) else none
  | [] => none
where
  /-- Back to the bracket that opens it and the hash sign. -/
  go (depth : Nat) : List Token → Option (List Token)
    | [] => none
    | t :: rest =>
      if t.kind == .closing then go (depth + 1) rest
      else if t.kind == .opening then
        if depth ≤ 1 then
          match rest with
          | hash :: rest => if hash.isMark "#" then some rest else none
          | [] => none
        else go (depth - 1) rest
      else go depth rest

/-- The lines of documentation right before a place, the last first, given the tokens before it from near to
far.  Attributes may stand between. -/
def docLines : Nat → List Token → List (List Char)
  | 0, _ => []
  | _, [] => []
  | fuel + 1, t :: rest =>
    match docText? t with
    | some text => text :: docLines fuel rest
    | none =>
      match beforeAttribute? (t :: rest) with
      | some rest => docLines fuel rest
      | none => []

/-- First line with text of the documentation before a place. -/
def docBefore (ts : List Token) (place : Nat) : Option String :=
  let before := (ts.takeWhile fun t => decide (t.start < place)).reverse
  ((docLines (before.length + 1) before).reverse.find? fun l => !l.isEmpty).map String.ofList

def lineNumber (source : List Char) (offset : Nat) : UInt64 := ((source.take offset).count '\n' + 1).toUInt64

/-- The text of a stretch up to type arguments. -/
def bareText (source : List Char) (stretch : Nat × Nat) : String :=
  String.ofList (trim ((slice stretch.1 stretch.2 source).takeWhile (· != '<')))

/-- Whose function it is. -/
inductive Owner where
  | free
  | nested
  | type (name : String) (trait : Option String) (line : UInt64)

/-- The stretch within which a landmark decides whose a function is. -/
def Landmark.extent? : Landmark → Option (Nat × Nat)
  | .function start _ _ stop => some (start, stop)
  | .implementation start stop _ _ => some (start, stop)
  | .trait start stop _ => some (start, stop)
  | .closure start stop => some (start, stop)
  | _ => none

def Landmark.owner (source : List Char) : Landmark → Owner
  | .implementation start _ subject base =>
    .type (bareText source subject) (base.map (bareText source)) (lineNumber source start)
  | .trait start _ name => .type (String.ofList name) none (lineNumber source start)
  | _ => .nested

/-- The owner of a function that begins at a place, by the last landmark around it. -/
def ownerAt (source : List Char) (found : List Landmark) (place : Nat) : Owner :=
  let around := found.filter fun l => l.extent?.any fun (start, stop) => start < place && place < stop
  (around.getLast?.map (Landmark.owner source)).getD .free

/-- Names called between two places. -/
def callsWithin (found : List Landmark) (start stop : Nat) : List String :=
  found.filterMap fun l =>
    match l with
    | .call place name => if start ≤ place && place < stop then some (String.ofList name) else none
    | _ => none

def signature (source : List Char) (start stop : Nat) : String :=
  String.ofList (trim (dropEndWhile (· == ';') (collapse (slice start stop source))))

structure Surroundings where
  source : List Char
  tokens : List Token
  found : List Landmark

/-- Adds a type where its name is new. -/
def addType (s : Surroundings) (types : Dict TypeOutline) : Landmark → Dict TypeOutline
  | .type start name =>
    let name := String.ofList name
    if types.contains name then types
    else types.insert name ⟨lineNumber s.source start, [], {}, docBefore s.tokens start⟩
  | _ => types

/-- Adds a method, and to the bases the trait that it implements. -/
def addMethod (types : Dict TypeOutline) (type : String) (trait : Option String) (line : UInt64) (name : String)
    (c : Callable) : Dict TypeOutline :=
  let t := (types.get? type).getD { TypeOutline.empty with line := line }
  let bases := match trait with
    | some base => if t.bases.contains base then t.bases else t.bases ++ [base]
    | none => t.bases
  types.insert type { t with bases := bases, methods := t.methods.insert name c }

def addFunction (s : Surroundings) (o : Outline) : Landmark → Outline
  | .function start name body stop =>
    let name := String.ofList name
    let c : Callable := {
      line := lineNumber s.source start
      signature := signature s.source start (body.getD stop)
      calls := calledNames name (callsWithin s.found start stop)
      doc := docBefore s.tokens start }
    match ownerAt s.source s.found start with
    | .nested => o
    | .free => { o with functions := o.functions.insert name c }
    | .type type trait line => { o with types := addMethod o.types type trait line name c }
  | _ => o

def importsOf (source : List Char) (found : List Landmark) : List String :=
  distinct (found.filterMap fun l =>
    match l with
    | .imported start stop => some (String.ofList (collapse (slice start stop source)))
    | _ => none)

def outline (source : String) : Outline :=
  let text := source.toList
  let ts := tokens text
  let found := landmarks ts
  let s : Surroundings := ⟨text, ts, found⟩
  found.foldl (addFunction s) ⟨{}, found.foldl (addType s) {}, importsOf text found⟩

end CodeIndex.Rust
