import CodeIndex.Pattern
import CodeIndex.Text.Blank
import CodeIndex.Text.Letter

set_option autoImplicit false

/-!
# Declarations of a script, as patterns

How a line starts that declares a function, a binding, a class or a member of a class, how a module is
named in an import, and what a call looks like.
-/

namespace CodeIndex.Script

open Text Pattern

def isNameStart (c : Char) : Bool := c.isAlpha || c == '_' || c == '$'

def isNamePart (c : Char) : Bool := isWord c || c == '$'

def name : Pattern Char := .seq (one isNameStart) (star (one isNamePart))

def text (s : String) : Pattern Char := word s.toList

def blanks : Pattern Char := star (one isBlank)

def blanks1 : Pattern Char := plus (one isBlank)

def noneOf (s : String) : Pattern Char := one fun c => !s.toList.contains c

/-- A place between a word character and another. -/
def boundary : Pattern Char :=
  place fun before after => before.any isWord != after.any isWord

def keyword (s : String) : Pattern Char := .seq (text s) blanks1

def maybeKeyword (s : String) : Pattern Char := optional (keyword s)

/-- Any number of some keywords. -/
def keywords (names : List String) : Pattern Char := star (.seq (anyOf (names.map text)) blanks1)

def indent : Pattern Char := .seq textStart blanks

/-- Type parameters before a parameter list. -/
def typeParameters : Pattern Char := optional (seqs [text "<", star (noneOf ">("), text ">"])

/-- A type after a name, up to the equals sign. -/
def annotation : Pattern Char := optional (.seq (text ":") (star (noneOf "=")))

def parameters : Pattern Char := seqs [text "(", star (noneOf ")"), text ")"]

/-- A result type, as short as possible. -/
def resultType : Pattern Char :=
  optional (seqs [blanks, text ":", blanks, lazyPlus (noneOf "=")])

/-- A function declaration up to its parameters. -/
def functionHead : Pattern Char := seqs [indent, maybeKeyword "export", maybeKeyword "default",
  maybeKeyword "declare", maybeKeyword "async", text "function", blanks, optional (text "*"), blanks,
  .group "name" name, blanks, typeParameters, blanks, text "("]

/-- A variable up to its value. -/
def binding : Pattern Char := seqs [indent, maybeKeyword "export",
  anyOf [text "const", text "let", text "var"], blanks1, .group "name" name, blanks, annotation,
  text "=", blanks, maybeKeyword "async"]

/-- A variable whose value is a function, up to its parameters. -/
def functionBinding : Pattern Char := seqs [binding, text "function", boundary, blanks,
  optional (text "*"), blanks, optional name, blanks, text "("]

/-- A variable whose value is an arrow function, up to the arrow. -/
def arrowBinding : Pattern Char := seqs [binding,
  .alt (seqs [typeParameters, parameters, resultType]) name, blanks, text "=>"]

/-- A class up to its base. -/
def classHead : Pattern Char := seqs [indent, maybeKeyword "export", maybeKeyword "default",
  maybeKeyword "declare", maybeKeyword "abstract", keyword "class", .group "name" name,
  optional (seqs [blanks, text "<", star (noneOf ">\x7b"), text ">"]),
  optional (seqs [blanks1, keyword "extends",
    .group "base" (.seq (one isNameStart) (star (one fun c => isNamePart c || c == '.')))])]

/-- A member's name; a private one starts with a hash sign. -/
def memberName : Pattern Char := .group "name" (.seq (optional (text "#")) name)

/-- A method up to its parameters. -/
def methodHead : Pattern Char := seqs [indent,
  keywords ["public", "private", "protected", "static", "async", "readonly", "override", "abstract", "get", "set"],
  optional (text "*"), blanks, memberName, blanks, optional (text "?"), blanks, typeParameters, blanks, text "("]

/-- A field whose value is an arrow function, up to the arrow. -/
def arrowField : Pattern Char := seqs [indent,
  keywords ["public", "private", "protected", "static", "readonly"], memberName, blanks, annotation,
  text "=", blanks, maybeKeyword "async", .alt (seqs [parameters, resultType]) name, blanks, text "=>"]

/-- The start of a text or of a line in it. -/
def lineStart : Pattern Char := place fun before _ => before.all (· == '\n')

def quote : Pattern Char := one fun c => c == '"' || c == '\''

/-- A quoted module name. -/
def quotedTarget : Pattern Char := seqs [quote, .group "target" (plus (noneOf "'\"")), quote]

/-- Module names as arguments of a function. -/
def argument (function : String) : Pattern Char :=
  seqs [boundary, text function, blanks, text "(", blanks, quotedTarget, blanks, text ")"]

/-- Everything that names another module. -/
def imports : List (Pattern Char) := [
  seqs [lineStart, blanks, keyword "import", maybeKeyword "type",
    optional (seqs [lazyPlus (one fun c => isNamePart c || isBlank c || "*\x7b\x7d,".toList.contains c),
      blanks1, keyword "from"]), quotedTarget],
  seqs [lineStart, blanks, keyword "export", maybeKeyword "type",
    .alt (.seq (text "*") (optional (seqs [blanks1, keyword "as", plus (one isNamePart)])))
      (seqs [text "\x7b", star (noneOf "\x7d"), text "\x7d"]),
    blanks1, keyword "from", quotedTarget],
  argument "require", argument "import"]

def call : Pattern Char := seqs [.group "name" name, blanks,
  optional (seqs [text "<", star (noneOf "<>()"), text ">"]), blanks, text "("]

/-- Words that are followed by a parenthesis and call nothing. -/
def isControl (name : List Char) : Bool :=
  ["if", "for", "while", "switch", "catch", "function", "return", "typeof", "super", "import", "require",
    "await", "yield", "delete", "void"].contains (String.ofList name)

end CodeIndex.Script
