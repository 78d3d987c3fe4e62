set_option autoImplicit false

/-!
# Matching brackets

A script is code with quoted stretches and comments in it; brackets count in code only.  `closing?` finds
the bracket that closes the one at which reading starts.
-/

namespace CodeIndex.Script

/-- Where in a script a character stands. -/
inductive Region where
  | code
  | quoted (quote : Char)
  /-- After a backslash between quotes. -/
  | escaped (quote : Char)
  | lineComment
  /-- At the star that opens a comment. -/
  | opening
  | comment
  /-- At the slash that closes a comment. -/
  | closing
  deriving DecidableEq, Repr

namespace Region

def isQuote (c : Char) : Bool := c == '"' || c == '\'' || c == '\x60'

/-- The region after a character, by the character that follows it. -/
def after (next : Option Char) (c : Char) : Region → Region
  | code =>
    if isQuote c then quoted c
    else if c = '/' && next = some '/' then lineComment
    else if c = '/' && next = some '*' then opening
    else code
  | quoted q => if c = '\\' then escaped q else if c = q then code else quoted q
  | escaped q => quoted q
  | lineComment => if c = '\n' then code else lineComment
  | opening => comment
  | comment => if c = '*' && next = some '/' then closing else comment
  | closing => code

end Region

/-- Offset of the bracket at which no more are open, when `depth` are open at the start. -/
def closingFrom? (opener closer : Char) : Region → Nat → List Char → Option Nat
  | _, _, [] => none
  | region, depth, c :: rest =>
    let further := fun depth => (closingFrom? opener closer (region.after rest.head? c) depth rest).map (· + 1)
    if region = .code && c = opener then further (depth + 1)
    else if region = .code && c = closer then
      if depth ≤ 1 then some 0 else further (depth - 1)
    else further depth

/-- Offset of the bracket that closes the one at the start of the text. -/
def closing? (opener closer : Char) (text : List Char) : Option Nat :=
  closingFrom? opener closer .code 0 text

end CodeIndex.Script
