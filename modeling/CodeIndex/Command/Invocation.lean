import CodeIndex.Command.Grammar
import CodeIndex.Impact
import CodeIndex.Settings

set_option autoImplicit false

/-!
# Invocations

What the program is told to do.  Without a command it builds, updates or migrates the index; the commands only
read one.  Options that all commands know may stand before a command or behind it; behind it they win.
-/

namespace CodeIndex

inductive Command where
  | serve
  | search (pattern : String) (limit : Option Nat)
  | info (path : String)
  | impact (name : String) (depth : Nat) (asJson : Bool)
  | relevant (words : List String) (limit : Nat) (asJson : Bool)
  | verify
  deriving DecidableEq, Repr

structure Invocation where
  root : String
  mode : Option Mode
  threshold : Option Nat
  incremental : Bool
  full : Bool
  skipDetails : Bool
  migrate : Bool
  verbosity : Nat
  quiet : Bool
  command : Option Command
  deriving DecidableEq, Repr

namespace Invocation

/-! ## Values -/

/-- A count in decimal digits, with or without a plus sign. -/
def count? (text : String) : Option Nat :=
  let digits := match text.toList with
    | '+' :: rest => rest
    | other => other
  if digits.isEmpty || !digits.all Char.isDigit then none
  else (String.ofList digits).toNat?.filter fun n => n < Json.countLimit

def judgeCount (least : Nat) (text : String) : Option UsageError :=
  match count? text with
  | some n => if least ≤ n then none else some .badValue
  | none => some .badValue

def judgePath (text : String) : Option UsageError := if text = "" then some .missingValue else none

def judgeMode (text : String) : Option UsageError := if (Mode.ofName? text).isNone then some .badValue else none

/-! ## Grammars -/

def helpRule : OptionRule := ⟨"help", some 'h', .ending .helpAsked⟩

def versionRule : OptionRule := ⟨"version", some 'V', .ending .versionAsked⟩

/-- Options that every command knows. -/
def sharedRules : List OptionRule := [
  ⟨"root", some 'C', .value judgePath⟩, ⟨"verbose", some 'v', .counter⟩, ⟨"quiet", some 'q', .flag⟩, helpRule]

def limitRule : OptionRule := ⟨"limit", some 'l', .value (judgeCount 0)⟩

def depthRule : OptionRule := ⟨"depth", some 'd', .value (judgeCount 0)⟩

def jsonRule : OptionRule := ⟨"json", none, .flag⟩

/-- The grammar of a command, by its name. -/
def commandGrammar (name : String) : Grammar :=
  let grammar := fun (rules : List OptionRule) (words : WordRule) =>
    (⟨rules ++ sharedRules, words, [], []⟩ : Grammar)
  match name with
  | "search" => grammar [limitRule] .one
  | "info" => grammar [] .one
  | "impact" => grammar [depthRule, jsonRule] .one
  | "relevant" => grammar [limitRule, jsonRule] .many
  | _ => grammar [] .none

def commandNames : List String := ["serve", "search", "info", "impact", "relevant", "verify", "help"]

def topGrammar : Grammar where
  options := [⟨"mode", none, .value judgeMode⟩, ⟨"threshold", none, .value (judgeCount 1)⟩,
    ⟨"incremental", none, .flag⟩, ⟨"full", none, .flag⟩, ⟨"skip-details", none, .flag⟩,
    ⟨"migrate", none, .flag⟩, versionRule] ++ sharedRules
  words := .none
  commands := commandNames
  exclusive := [("incremental", "full"), ("migrate", "incremental"), ("migrate", "full")]

/-! ## Reading -/

/-- What was given for the options of a command. -/
def commandOf (name : String) (g : Given) : Command :=
  let word := g.words.headD ""
  let count? := fun option => (g.value? option).bind count?
  let asJson := g.has "json"
  match name with
  | "search" => .search word (count? "limit")
  | "info" => .info word
  | "impact" => .impact word ((count? "depth").getD CallGraph.defaultDepth) asJson
  | "relevant" => .relevant g.words ((count? "limit").getD 10) asJson
  | "verify" => .verify
  | _ => .serve

/-- Help is given on one command at most. -/
def help : List String → UsageError
  | [] => .helpAsked
  | [name] => if commandNames.contains name then .helpAsked else .unknownCommand
  | _ => .unknownCommand

/-- The largest verbosity that is told apart. -/
def verbosityLimit : Nat := 255

def ofGiven (top : Given) (inner : Option (String × Given)) : Invocation :=
  let below : Given := (inner.map Prod.snd).getD ⟨[], []⟩
  let shared := fun option => if below.has option then below else top
  { root := ((shared "root").value? "root").getD "."
    mode := (top.value? "mode").bind Mode.ofName?
    threshold := (top.value? "threshold").bind count?
    incremental := top.has "incremental"
    full := top.has "full"
    skipDetails := top.has "skip-details"
    migrate := top.has "migrate"
    verbosity := min ((shared "verbose").count "verbose") verbosityLimit
    quiet := (shared "quiet").has "quiet"
    command := inner.map fun (name, g) => commandOf name g }

/-- The command that a line ends with, by its name and what was given for it. -/
def readCommand : Option (String × List String) → Except UsageError (Option (String × Given))
  | none => .ok none
  | some (name, rest) => do
    if name = "help" then throw (help rest)
    let grammar := commandGrammar name
    let (p, _) ← grammar.read .start rest
    return some (name, ← grammar.finish p)

/-- What some arguments say. -/
def ofArguments (arguments : List String) : Except UsageError Invocation := do
  let (p, rest) ← topGrammar.read .start arguments
  let inner ← readCommand rest
  let top ← topGrammar.finish p
  return ofGiven top inner

end Invocation

end CodeIndex
