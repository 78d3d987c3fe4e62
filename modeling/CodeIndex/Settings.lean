import CodeIndex.Json.Relaxed
import CodeIndex.Json.Record
import CodeIndex.Modules
import CodeIndex.Text.Lower
import CodeIndex.TierRules

set_option autoImplicit false

/-!
# Settings of a project

Settings start as the defaults and take in one entry of the file after another: a value that is not acceptable
counts as absent, and an absent one keeps its default.  Nothing about a settings file is ever an error.
-/

namespace CodeIndex

/-- One document or a core index with shards. -/
inductive Mode where
  /-- Shards when the project has enough files. -/
  | auto
  | split
  | single
  deriving DecidableEq, Repr, Inhabited

namespace Mode

def name : Mode → String
  | .auto => "auto"
  | .split => "split"
  | .single => "single"

def ofName? (s : String) : Option Mode := [auto, split, single].find? fun m => m.name = s

end Mode

inductive SplitStrategy where
  | auto | force | disabled
  deriving DecidableEq, Repr, Inhabited

namespace SplitStrategy

def name : SplitStrategy → String
  | .auto => "auto"
  | .force => "force"
  | .disabled => "disabled"

def ofName? (s : String) : Option SplitStrategy := [auto, force, disabled].find? fun m => m.name = s

end SplitStrategy

structure SubmoduleSettings where
  enabled : Bool
  threshold : Nat
  strategy : SplitStrategy
  maxDepth : Option Nat
  deriving DecidableEq, Repr

structure Settings where
  mode : Mode
  /-- Number of files from which automatic mode makes shards. -/
  threshold : Nat
  submodules : SubmoduleSettings
  tierPatterns : TierPatterns
  /-- Standard and archive synopses also go into the core index. -/
  includeAllTiers : Bool
  maxFileSize : Nat
  /-- Threads for extraction; zero lets the program choose. -/
  threads : Nat
  /-- Seconds that a version-control command may take. -/
  timeout : Nat
  treeDepth : Nat
  /-- No shards are written. -/
  skipDetails : Bool
  deriving DecidableEq, Repr

namespace SubmoduleSettings

def default : SubmoduleSettings := ⟨true, 100, .auto, none⟩

def defaultMaxDepth : Nat := 3

def isSplitting (s : SubmoduleSettings) : Bool := s.enabled && s.strategy != .disabled

end SubmoduleSettings

namespace Settings

open Json

def fileName : String := ".project-index.json"

def default : Settings where
  mode := .auto
  threshold := 1000
  submodules := .default
  tierPatterns := PerTier.all none
  includeAllTiers := false
  maxFileSize := 1024 * 1024
  threads := 0
  timeout := 10
  treeDepth := 3
  skipDetails := false

def positive? (j : Json) : Option Nat := j.asNatural?.filter fun n => 0 < n

/-- A choice by name, in any case. -/
def option? {α : Type} (read : String → Option α) (j : Json) : Option α :=
  j.asString?.bind fun s => read (Text.lowerOf s)

def maxDepth? (j : Json) : Option Nat := j.asNatural?.filter fun n => 1 ≤ n && n ≤ 3

/-- Goes through the entries of an object in the order of their keys; what is no object has none. -/
def readEntries {α : Type} (readEntry : α → String → Json → α) (s : α) : Json → α
  | .object members => (Dict.ofList members).toList.foldl (fun s e => readEntry s e.1 e.2) s
  | _ => s

/-- Takes in an entry about submodules; one that is not acceptable changes nothing. -/
def readSubmodule (s : SubmoduleSettings) (key : String) (value : Json) : SubmoduleSettings :=
  match key with
  | "enabled" => { s with enabled := (asBool? value).getD s.enabled }
  | "threshold" => { s with threshold := (positive? value).getD s.threshold }
  | "strategy" => { s with strategy := (option? SplitStrategy.ofName? value).getD s.strategy }
  | "max_depth" => { s with maxDepth := (maxDepth? value).or s.maxDepth }
  | _ => s

/-- Takes in the patterns of a tier. -/
def readTier (p : TierPatterns) (name : String) (value : Json) : TierPatterns :=
  match DocTier.ofName? name, names? value with
  | some tier, some patterns => p.set (some patterns) tier
  | _, _ => p

/-- Takes in one entry of the settings. -/
def readEntry (s : Settings) (key : String) (value : Json) : Settings :=
  match key with
  | "mode" => { s with mode := (option? Mode.ofName? value).getD s.mode }
  | "threshold" => { s with threshold := (positive? value).getD s.threshold }
  | "submodule_config" => { s with submodules := readEntries readSubmodule s.submodules value }
  | "doc_tiers" => { s with tierPatterns := readEntries readTier s.tierPatterns value }
  | "include_all_doc_tiers" => { s with includeAllTiers := (asBool? value).getD s.includeAllTiers }
  | "max_file_size" => { s with maxFileSize := (positive? value).getD s.maxFileSize }
  | "parallel_threads" => { s with threads := (asNatural? value).getD s.threads }
  | "git_timeout_secs" => { s with timeout := (positive? value).getD s.timeout }
  | "tree_depth" => { s with treeDepth := (positive? value).getD s.treeDepth }
  | _ => s

/-- Settings from a free value; what is no object has no settings. -/
def ofJson (j : Json) : Settings := readEntries readEntry default j

/-- Settings from a text: plain JSON, else the relaxed notation, else the defaults. -/
def ofText (text : String) : Settings :=
  match (Json.value? text).orElse fun _ => Relaxed.value? text with
  | some j => ofJson j
  | none => default

/-- Depth to which modules are split: as set, else as a layout suggests. -/
def splitDepth (s : Settings) (hint : Option Nat) : Nat :=
  (s.submodules.maxDepth.orElse fun _ => hint).getD SubmoduleSettings.defaultMaxDepth

def splitting (s : Settings) (layout : Option Layout) : Splitting where
  enabled := s.submodules.isSplitting
  threshold := s.submodules.threshold
  maxDepth := s.splitDepth (layout.map fun l => l.preset.maxDepth)
  force := s.submodules.strategy == .force

end Settings

end CodeIndex
