import CodeIndex.Source.PythonToken

set_option autoImplicit false

/-!
# Statements of Python

A compound statement has a head, up to its colon, and a block: the statements after the colon on the same
line, or the deeper indented lines that follow.
-/

namespace CodeIndex.Python

/-- Statements in order. -/
inductive Block where
  | done
  | simple (tokens : List Token) (rest : Block)
  | compound (head : List Token) (body rest : Block)

namespace Block

def append : Block → Block → Block
  | done, b => b
  | simple ts rest, b => simple ts (rest.append b)
  | compound head body rest, b => compound head body (rest.append b)

/-- All tokens, nested statements included. -/
def tokens : Block → List Token
  | done => []
  | simple ts rest => ts ++ rest.tokens
  | compound head body rest => head ++ body.tokens ++ rest.tokens

def start? (b : Block) : Option Nat := b.tokens.head?.map Token.start

end Block

namespace Token

def isWord (t : Token) (word : String) : Bool := t.kind == .word && t.text == word.toList

def isMark (t : Token) (mark : String) : Bool := t.kind == .mark && t.text == mark.toList

/-- How a token changes the number of open brackets. -/
def nest (t : Token) (depth : Nat) : Nat :=
  match t.kind with
  | .opening => depth + 1
  | .closing => depth - 1
  | _ => depth

end Token

/-- Tokens between separators outside brackets. -/
def splitOutside (isSeparator : Token → Bool) (depth : Nat) : List Token → List (List Token)
  | [] => [[]]
  | t :: rest =>
    if depth = 0 && isSeparator t then [] :: splitOutside isSeparator depth rest
    else
      match splitOutside isSeparator (t.nest depth) rest with
      | [] => [[t]]
      | first :: others => (t :: first) :: others

/-- The two sides of the first colon outside brackets that closes no lambda's parameters. -/
def cutColon? (depth lambdas : Nat) : List Token → Option (List Token × List Token)
  | [] => none
  | t :: rest =>
    if depth = 0 && t.isMark ":" && lambdas = 0 then some ([], rest)
    else
      let lambdas :=
        if depth ≠ 0 then lambdas
        else if t.isWord "lambda" then lambdas + 1
        else if t.isMark ":" then lambdas - 1
        else lambdas
      (cutColon? (t.nest depth) lambdas rest).map fun (head, tail) => (t :: head, tail)

structure Line where
  indent : Nat
  tokens : List Token

/-- Logical lines; each begins with a token that has an indentation. -/
def lines : List Token → List Line
  | [] => []
  | t :: rest =>
    match t.indent, lines rest with
    | some n, found => ⟨n, t :: firstRun rest⟩ :: found
    | none, found => found
where
  /-- The tokens before the next line. -/
  firstRun (ts : List Token) : List Token := ts.takeWhile fun t => t.indent.isNone

def isCompoundWord (t : Token) : Bool :=
  ["if", "elif", "else", "for", "while", "try", "except", "finally", "with", "def", "class", "async"].any t.isWord

/-- A line begins a compound statement.  `match` does so before a colon at the end of the line, and `case` at
the start of a statement in its block. -/
def isCompound (inMatch : Bool) (tokens : List Token) : Bool :=
  match tokens with
  | [] => false
  | t :: _ =>
    isCompoundWord t || (t.isWord "match" && tokens.getLast?.any fun t => t.isMark ":")
      || (inMatch && t.isWord "case")

/-- Statements on one line. -/
def simples (tokens : List Token) : Block :=
  (splitOutside (fun t => t.isMark ";") 0 tokens).foldr
    (fun ts b => if ts.isEmpty then b else .simple ts b) .done

/-- The statements of some lines at an indentation, and the lines after them. -/
def block : Nat → Bool → Nat → List Line → Block × List Line
  | 0, _, _, lines => (.done, lines)
  | _, _, _, [] => (.done, [])
  | fuel + 1, inMatch, indent, line :: rest =>
    if line.indent < indent then (.done, line :: rest)
    else
      let cut := if isCompound inMatch line.tokens then cutColon? 0 0 line.tokens else none
      match cut with
      | none =>
        let (following, after) := block fuel inMatch indent rest
        ((simples line.tokens).append following, after)
      | some (head, tail) =>
        let isMatch := head.head?.any fun t => t.isWord "match"
        let (body, rest) :=
          match tail, rest with
          | [], next :: _ =>
            if line.indent < next.indent then block fuel isMatch next.indent rest else (.done, rest)
          | _, _ => (simples tail, rest)
        let (following, after) := block fuel inMatch indent rest
        (.compound head body following, after)

/-- The statements of a text. -/
def statements (source : List Char) : Block :=
  let found := lines (tokens source)
  (block (found.length + 1) false 0 found).1

end CodeIndex.Python
