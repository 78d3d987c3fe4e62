import CodeIndex.Path

set_option autoImplicit false

/-!
# Languages and documentation tiers

The language of a file is decided by its extension alone, in exactly the spelling listed here; a file
without one of them is not indexable.
-/

namespace CodeIndex

inductive Language where
  | rust | python | javascript | typescript | shell | markdown
  deriving DecidableEq, Repr, Inhabited

namespace Language

def all : List Language := [.rust, .python, .javascript, .typescript, .shell, .markdown]

def name : Language → String
  | .rust => "rust"
  | .python => "python"
  | .javascript => "javascript"
  | .typescript => "typescript"
  | .shell => "shell"
  | .markdown => "markdown"

def extensions : Language → List String
  | .rust => ["rs"]
  | .python => ["py", "pyi"]
  | .javascript => ["js", "mjs", "cjs", "jsx"]
  | .typescript => ["ts", "mts", "cts", "tsx"]
  | .shell => ["sh", "bash", "zsh"]
  | .markdown => ["md", "markdown", "rst", "adoc"]

def ofName? (s : String) : Option Language := all.find? fun l => l.name = s

def ofExtension? (ext : String) : Option Language := all.find? fun l => l.extensions.contains ext

def ofPath? (path : String) : Option Language := (Path.extension? path).bind ofExtension?

/-- Documentation is summarised and put into a tier; it has no declarations. -/
def isDocumentation (l : Language) : Bool := l == .markdown

theorem ofName?_name (l : Language) : ofName? l.name = some l := by
  cases l <;> decide

end Language

/-- How prominent a documentation file is. -/
inductive DocTier where
  | critical | standard | archive
  deriving DecidableEq, Repr, Inhabited

namespace DocTier

def all : List DocTier := [.critical, .standard, .archive]

def name : DocTier → String
  | .critical => "critical"
  | .standard => "standard"
  | .archive => "archive"

def ofName? (s : String) : Option DocTier := all.find? fun t => t.name = s

theorem ofName?_name (t : DocTier) : ofName? t.name = some t := by
  cases t <;> decide

end DocTier

/-- A value for each tier. -/
structure PerTier (α : Type) where
  critical : α
  standard : α
  archive : α
  deriving DecidableEq, Repr

namespace PerTier

variable {α β : Type}

def get (p : PerTier α) : DocTier → α
  | .critical => p.critical
  | .standard => p.standard
  | .archive => p.archive

def set (p : PerTier α) (value : α) : DocTier → PerTier α
  | .critical => { p with critical := value }
  | .standard => { p with standard := value }
  | .archive => { p with archive := value }

def all (value : α) : PerTier α := ⟨value, value, value⟩

/-- The values with their tiers, in the order of the tiers. -/
def toList (p : PerTier α) : List (DocTier × α) := DocTier.all.map fun t => (t, p.get t)

end PerTier

end CodeIndex
