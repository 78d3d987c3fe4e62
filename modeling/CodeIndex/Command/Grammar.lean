import CodeIndex.Text.Basic

set_option autoImplicit false

/-!
# Command lines

Arguments are read from left to right against a grammar of options and words.  A value that stands apart
from its option is only judged when the next thing is understood, so an argument that nobody knows is
reported before a bad value in front of it.
-/

namespace CodeIndex

/-- Why a command line does not say what to do. -/
inductive UsageError where
  | unknownArgument
  | unknownCommand
  /-- Options that do not go together, or one that was given twice. -/
  | conflict
  | missingValue
  | badValue
  /-- A value for an option that takes none. -/
  | surplusValue
  | missingWord
  | helpAsked
  | versionAsked
  deriving DecidableEq, Repr, Inhabited

inductive OptionKind where
  /-- Given at most once. -/
  | flag
  /-- Given any number of times. -/
  | counter
  /-- Takes a value, which is judged by a function; given at most once. -/
  | value (judge : String → Option UsageError)
  /-- Ends the reading. -/
  | ending (reason : UsageError)

structure OptionRule where
  name : String
  letter : Option Char
  kind : OptionKind

/-- How many words a grammar takes. -/
inductive WordRule where
  | none | one | many
  deriving DecidableEq, Repr, Inhabited

structure Grammar where
  options : List OptionRule
  words : WordRule
  /-- Words that hand the rest of the line to another grammar. -/
  commands : List String
  /-- Options that do not go together. -/
  exclusive : List (String × String)

/-- What was understood so far. -/
structure Given where
  /-- Options with their values, in the order in which they were given; a flag has an empty value. -/
  options : List (String × String)
  words : List String
  deriving DecidableEq, Repr, Inhabited

namespace Given

def has (g : Given) (name : String) : Bool := g.options.any fun o => o.1 = name

def value? (g : Given) (name : String) : Option String := g.options.lookup name

def count (g : Given) (name : String) : Nat := (g.options.filter fun o => o.1 = name).length

end Given

/-- An option at the end of what was read. -/
inductive Pending where
  | nothing
  /-- Its value is to come. -/
  | awaited (rule : OptionRule)
  /-- Its value has come and is not judged yet. -/
  | held (rule : OptionRule) (value : String)

structure Progress where
  given : Given
  pending : Pending
  /-- Everything else is a word. -/
  onlyWords : Bool

namespace Progress

def start : Progress := ⟨⟨[], []⟩, .nothing, false⟩

def isAwaiting (p : Progress) : Bool := p.pending matches .awaited _

/-- Takes a value for an option. -/
def accept (p : Progress) (rule : OptionRule) (value : String) : Except UsageError Progress :=
  if p.given.has rule.name then .error .conflict
  else
    let verdict := match rule.kind with
      | .value judge => judge value
      | _ => none
    match verdict with
    | some e => .error e
    | none =>
      .ok { p with
        given := { p.given with options := p.given.options ++ [(rule.name, value)] }
        pending := .nothing }

/-- Judges the pending option. -/
def settle (p : Progress) : Except UsageError Progress :=
  match p.pending with
  | .nothing => .ok p
  | .awaited _ => .error .missingValue
  | .held rule value => p.accept rule value

/-- Takes an option that stands for itself. -/
def flag (p : Progress) (rule : OptionRule) : Except UsageError Progress := do
  let p ← p.settle
  let repeated := { p with given := { p.given with options := p.given.options ++ [(rule.name, "")] } }
  match rule.kind with
  | .ending reason => .error reason
  | .counter => .ok repeated
  | _ => if p.given.has rule.name then .error .conflict else .ok repeated

/-- Takes an option with the value that is attached to it, if one is. -/
def option (p : Progress) (rule : OptionRule) (attached : Option String) : Except UsageError Progress := do
  let p ← p.settle
  match attached with
  | some value => p.accept rule value
  | none => .ok { p with pending := .awaited rule }

def addWord (p : Progress) (word : String) : Except UsageError Progress := do
  let p ← p.settle
  return { p with given := { p.given with words := p.given.words ++ [word] } }

end Progress

namespace Grammar

open Text

variable (g : Grammar)

def named? (name : String) : Option OptionRule := g.options.find? fun r => r.name = name

def lettered? (letter : Char) : Option OptionRule := g.options.find? fun r => r.letter = some letter

/-- An option by its name, with what follows an equals sign. -/
def readNamed (p : Progress) (name : String) (attached : Option String) : Except UsageError Progress :=
  match g.named? name with
  | none => .error .unknownArgument
  | some rule =>
    match rule.kind, attached with
    | .value _, _ => p.option rule attached
    | _, some _ => .error .surplusValue
    | _, none => p.flag rule

/-- Options by their letters; what follows the letter of an option with a value is the value. -/
def readLetters (p : Progress) : List Char → Except UsageError Progress
  | [] => .ok p
  | letter :: rest =>
    match g.lettered? letter with
    | none => .error .unknownArgument
    | some rule =>
      match rule.kind with
      | .value _ =>
        p.option rule (match rest with
          | [] => none
          | '=' :: value => some (String.ofList value)
          | value => some (String.ofList value))
      | _ => do readLetters (← p.flag rule) rest

/-- A word is refused if the grammar has no place for it. -/
def readWord (p : Progress) (word : String) : Except UsageError Progress :=
  let refused : UsageError :=
    if g.commands.isEmpty || (p.onlyWords && g.commands.contains word) then .unknownArgument else .unknownCommand
  match g.words with
  | .none => .error refused
  | .one => if p.given.words.isEmpty then p.addWord word else .error refused
  | .many => p.addWord word

/-- A name with what follows the first equals sign. -/
def splitValue (text : List Char) : String × Option String :=
  match text.span (· != '=') with
  | (name, _ :: value) => (String.ofList name, some (String.ofList value))
  | (name, []) => (String.ofList name, none)

/-- One argument that is not the name of a command. -/
def readArgument (p : Progress) (argument : String) : Except UsageError Progress :=
  if p.onlyWords then g.readWord p argument
  else
    match argument.toList with
    | ['-', '-'] => .ok { p with onlyWords := true }
    | '-' :: '-' :: text =>
      let (name, attached) := splitValue text
      g.readNamed p name attached
    | '-' :: letter :: letters => g.readLetters p (letter :: letters)
    | _ =>
      match p.pending with
      | .awaited rule => .ok { p with pending := .held rule argument }
      | _ => g.readWord p argument

/-- Reads arguments up to the name of a command, which comes with the rest. -/
def read (p : Progress) : List String → Except UsageError (Progress × Option (String × List String))
  | [] => .ok (p, none)
  | argument :: rest =>
    if !p.onlyWords && !p.isAwaiting && g.commands.contains argument then .ok (p, some (argument, rest))
    else do read (← g.readArgument p argument) rest

/-- What was given, if nothing is missing and everything goes together. -/
def finish (p : Progress) : Except UsageError Given := do
  let p ← p.settle
  if g.exclusive.any fun (a, b) => p.given.has a && p.given.has b then .error .conflict
  else if g.words != .none && p.given.words.isEmpty then .error .missingWord
  else .ok p.given

end Grammar

end CodeIndex
