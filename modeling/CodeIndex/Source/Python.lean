import CodeIndex.Outline
import CodeIndex.Source.PythonBlock

set_option autoImplicit false

/-!
# Outlines of Python modules

Functions and classes inside functions belong to those functions and are not listed.  A function directly in
the block of a class is its method; one in a nested statement of that block is a free function.
-/

namespace CodeIndex.Python

open Text

def isKeyword (t : Token) : Bool :=
  ["False", "None", "True", "and", "as", "assert", "async", "await", "break", "class", "continue", "def", "del",
    "elif", "else", "except", "finally", "for", "from", "global", "if", "import", "in", "is", "lambda",
    "nonlocal", "not", "or", "pass", "raise", "return", "try", "while", "with", "yield"].any t.isWord

/-- What a compound statement declares. -/
inductive Heading where
  | function (name : List Char)
  | type (name : List Char)
  | other

def heading : List Token → Heading
  | t :: u :: rest =>
    if t.isWord "class" then .type u.text
    else if t.isWord "def" then .function u.text
    else if t.isWord "async" && u.isWord "def" then (rest.head?.map fun n => .function n.text).getD .other
    else .other
  | _ => .other

/-- Names right before an opening parenthesis. -/
def callsAmong : List Token → List (List Char)
  | t :: u :: rest =>
    let further := callsAmong (u :: rest)
    if t.kind == .word && !isKeyword t && u.kind == .opening && u.text == ['('] then t.text :: further
    else further
  | _ => []

/-- The tokens of a head in which a parenthesis after a name is a call: not the declared name, not a pattern. -/
def callTokens (head : List Token) : List Token :=
  match heading head with
  | .function _ => (head.dropWhile fun t => !t.isWord "def").drop 2
  | .type _ => head.drop 2
  | .other =>
    match head with
    | t :: rest =>
      if t.isWord "case" then ((splitOutside (fun t => t.isWord "if") 0 rest).drop 1).flatten
      else if t.isWord "match" then rest
      else head
    | [] => []

def Block.calls : Block → List (List Char)
  | .done => []
  | .simple ts rest => callsAmong ts ++ rest.calls
  | .compound head body rest => callsAmong (callTokens head) ++ body.calls ++ rest.calls

/-- The tokens up to the closing token of the bracket that is open. -/
def throughClosing (depth : Nat) : List Token → List Token × List Token
  | [] => ([], [])
  | t :: rest =>
    let depth := t.nest depth
    if depth = 0 then ([t], rest)
    else
      let (inside, after) := throughClosing depth rest
      (t :: inside, after)

/-- The text that some tokens span. -/
def spanned (source : List Char) (ts : List Token) : List Char :=
  match ts.head?, ts.getLast? with
  | some first, some last => slice first.start last.stop source
  | _, _ => []

def isQuoteMark (c : Char) : Bool := c == '"' || c == '\''

/-- The text in quotes that a block begins with, when its first statement is nothing else or a tuple
that begins with it. -/
def leadingText? (source : List Char) : Block → Option (List Char)
  | .simple (t :: rest) _ =>
    if t.kind == .opening && t.text.all isQuoteMark then
      let (text, after) := throughClosing 0 (t :: rest)
      if after.head?.all fun u => u.isMark "," then some (spanned source text) else none
    else none
  | _ => none

/-- First line with text of the documentation that a block begins with. -/
def doc? (source : List Char) (body : Block) : Option String := do
  let written ← leadingText? source body
  let inside := trimBy isQuoteMark (written.dropWhile fun c => "rRuUbB".toList.contains c)
  ((Text.lines inside).map trim).find? (fun l => !l.isEmpty) |>.map String.ofList

def lineNumber (source : List Char) (offset : Nat) : UInt64 := ((source.take offset).count '\n' + 1).toUInt64

/-- The head of a function up to its block, without the colon. -/
def signature (source : List Char) (head : List Token) (body : Block) : String :=
  let start := (head.head?.map Token.start).getD 0
  let stop := (body.start?.orElse fun _ => head.getLast?.map Token.stop).getD start
  String.ofList (trimEnd (dropEndWhile (· == ':') (collapse (slice start stop source))))

/-- The tokens after a stretch in square brackets, if one comes first. -/
def afterParameters (ts : List Token) : List Token :=
  if ts.head?.any fun t => t.kind == .opening && t.text == ['['] then (throughClosing 0 ts).2 else ts

/-- Bases in a class head: its arguments without those given by name. -/
def bases (source : List Char) (head : List Token) : List String :=
  match afterParameters (head.drop 2) with
  | t :: rest =>
    let (inside, _) := throughClosing 0 (t :: rest)
    let arguments := splitOutside (fun t => t.isMark ",") 0 (inside.drop 1).dropLast
    (arguments.filter fun ts => !ts.isEmpty && !isNamed ts).map fun ts =>
      String.ofList (collapse (spanned source ts))
  | [] => []
where
  /-- An argument given by name. -/
  isNamed : List Token → Bool
    | t :: u :: _ => t.kind == .word && u.isMark "="
    | _ => false

inductive Declared where
  | function (owner : Option String) (name : String) (callable : Callable)
  | type (name : String) (outline : TypeOutline)

def callable (source : List Char) (name : String) (head : List Token) (body : Block) : Callable where
  line := lineNumber source ((head.head?.map Token.start).getD 0)
  signature := signature source head body
  calls := calledNames name ((callsAmong (callTokens head) ++ body.calls).map String.ofList)
  doc := doc? source body

/-- Functions and classes outside all functions, with the class whose block a function is in. -/
def declared (source : List Char) (owner : Option String) : Block → List Declared
  | .done => []
  | .simple _ rest => declared source owner rest
  | .compound head body rest =>
    let further := declared source owner rest
    match heading head with
    | .function name =>
      let name := String.ofList name
      .function owner name (callable source name head body) :: further
    | .type name =>
      let name := String.ofList name
      let line := lineNumber source ((head.head?.map Token.start).getD 0)
      .type name ⟨line, bases source head, {}, doc? source body⟩ :: (declared source (some name) body ++ further)
    | .other => declared source none body ++ further

/-- Modules that an import statement names. -/
def imported (source : List Char) : List Token → List (List Char)
  | t :: rest =>
    if t.isWord "import" then
      (splitOutside (fun t => t.isMark ",") 0 rest).map fun ts =>
        collapse (spanned source (ts.takeWhile fun t => !t.isWord "as"))
    else if t.isWord "from" then
      let ts := rest.takeWhile fun t => !t.isWord "import"
      if ts.length = 1 && ts.any fun t => t.isWord "__future__" then [] else [collapse (spanned source ts)]
    else []
  | [] => []

def importsOf (source : List Char) : Block → List (List Char)
  | .done => []
  | .simple ts rest => imported source ts ++ importsOf source rest
  | .compound _ body rest => importsOf source body ++ importsOf source rest

def addType (types : Dict TypeOutline) : Declared → Dict TypeOutline
  | .type name outline => types.insert name outline
  | .function _ _ _ => types

/-- Adds a function, to its class when it is a method. -/
def addFunction (o : Outline) : Declared → Outline
  | .type _ _ => o
  | .function none name c => { o with functions := o.functions.insert name c }
  | .function (some owner) name c =>
    { o with types := o.types.update owner .empty fun t => { t with methods := t.methods.insert name c } }

/-- The outline of a module.  Of two classes with one name the later one is described, with the methods of
both. -/
def outline (source : String) : Outline :=
  let text := source.toList
  let block := statements text
  let found := declared text none block
  let imports := ((importsOf text block).filter fun i => !i.isEmpty).map String.ofList
  found.foldl addFunction ⟨{}, found.foldl addType {}, distinct imports⟩

end CodeIndex.Python
