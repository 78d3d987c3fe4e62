import CodeIndex.Glob
import CodeIndex.Language

set_option autoImplicit false

/-!
# Tiers of documentation files

Globs put a path into a tier.  Critical patterns win over standard ones, standard ones over archive ones, and
what no pattern matches is standard.  A setting replaces all patterns of its tier.
-/

namespace CodeIndex

/-- Patterns given for some tiers, as written. -/
abbrev TierPatterns := PerTier (Option (List String))

/-- The rules that put a documentation path into a tier. -/
structure TierRules where
  critical : List Glob
  standard : List Glob
  archive : List Glob

namespace TierRules

def defaults : PerTier (List String) where
  critical := ["README*", "**/README*", "ARCHITECTURE*", "CONTRIBUTING*", "docs/architecture/**"]
  standard := []
  archive := ["**/archive/**", "**/old/**", "CHANGELOG*", "HISTORY*"]

/-- Reads patterns; the first one that is no glob is the error. -/
def readAll : List String → Except String (List Glob)
  | [] => .ok []
  | pattern :: rest =>
    match Glob.ofString? pattern with
    | none => .error pattern
    | some glob => (readAll rest).map (glob :: ·)

/-- Reads the patterns of a tier, its own or the default ones. -/
def readTier (given : TierPatterns) (tier : DocTier) : Except String (List Glob) :=
  readAll ((given.get tier).getD (defaults.get tier))

/-- The rules that patterns give; the error is a pattern that is no glob. -/
def ofPatterns (given : TierPatterns) : Except String TierRules := do
  let critical ← readTier given .critical
  let archive ← readTier given .archive
  let standard ← readTier given .standard
  return ⟨critical, standard, archive⟩

def builtin : TierRules :=
  match ofPatterns (PerTier.all none) with
  | .ok rules => rules
  | .error _ => ⟨[], [], []⟩

def tierOf (rules : TierRules) (path : String) : DocTier :=
  if rules.critical.any (·.accepts path) then .critical
  else if rules.standard.any (·.accepts path) then .standard
  else if rules.archive.any (·.accepts path) then .archive
  else .standard

end TierRules

end CodeIndex
