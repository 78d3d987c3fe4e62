import CodeIndex.Source.RustToken

set_option autoImplicit false

/-!
# Landmarks of a Rust file

Reading a file yields its landmarks: where functions, types, implementations and closures stand, what is
imported, and what is called.  Expressions are read loosely: all that matters is which parentheses are those
of a call, so patterns, types, macro arguments and attributes are told from expressions and passed over.
-/

namespace CodeIndex.Rust

inductive Landmark where
  /-- A name that is called. -/
  | call (place : Nat) (name : List Char)
  /-- A function, its body's start if it has one, and its end. -/
  | function (start : Nat) (name : List Char) (body : Option Nat) (stop : Nat)
  /-- A struct, enum or trait. -/
  | type (start : Nat) (name : List Char)
  /-- An implementation, with the stretches of its type and of its trait. -/
  | implementation (start stop : Nat) (type : Nat × Nat) (trait : Option (Nat × Nat))
  | trait (start stop : Nat) (name : List Char)
  | closure (start stop : Nat)
  /-- The stretch that names what is imported. -/
  | imported (start stop : Nat)
  deriving Repr

namespace Landmark

def start : Landmark → Nat
  | call place _ => place
  | function start _ _ _ => start
  | type start _ => start
  | implementation start _ _ _ => start
  | trait start _ _ => start
  | closure start _ => start
  | imported start _ => start

end Landmark

/-- What has been read right before, as far as it says what a bracket or an operator means. -/
inductive Before where
  /-- Nothing that a value ends with. -/
  | nothing
  /-- A name that can be called. -/
  | name (text : List Char)
  /-- Another value. -/
  | value
  deriving DecidableEq, Repr

/-- Where a stretch of expressions ends. -/
inductive Until where
  /-- After the bracket that closes it. -/
  | closing
  /-- After the arrow that ends a guard. -/
  | arrow
  /-- Before a comma, a semicolon or a closing bracket. -/
  | separator
  /-- Before the brace that opens a body. -/
  | body
  deriving DecidableEq, Repr

structure Reader where
  rest : List Token
  /-- End of the last token. -/
  stop : Nat
  /-- The latest first. -/
  found : List Landmark

abbrev Reading := StateM Reader

namespace Reading

def peek? : Reading (Option Token) := return (← get).rest.head?

def peekSecond? : Reading (Option Token) := return ((← get).rest.drop 1).head?

/-- Moves past one token. -/
def skip : Reading Unit := modify fun s =>
  match s.rest with
  | [] => s
  | t :: rest => { s with rest := rest, stop := t.stop }

def skipMany (count : Nat) : Reading Unit :=
  match count with
  | 0 => return
  | count + 1 => do skip; skipMany count

def add (landmark : Landmark) : Reading Unit := modify fun s => { s with found := landmark :: s.found }

/-- End of the last token. -/
def position : Reading Nat := return (← get).stop

def nextIs (test : Token → Bool) : Reading Bool := return (← peek?).any test

end Reading

/-- Words after which a value is expected. -/
def isLeading (t : Token) : Bool :=
  ["return", "break", "continue", "yield", "move", "async", "unsafe", "loop", "else", "in", "mut", "ref", "const",
    "static", "box", "do", "try", "where", "dyn", "pub", "fn", "type", "use", "mod", "struct", "enum", "trait",
    "impl", "extern"].any t.isWord

/-- Words that are values of themselves. -/
def isValueWord (t : Token) : Bool :=
  ["self", "super", "crate", "true", "false", "await", "_"].any t.isWord

/-- What a word leaves behind for the token after it, once what it begins has been read. -/
def afterWord (t : Token) : Before :=
  if isLeading t || t.isWord "let" || t.isWord "for" then .nothing
  else if isValueWord t || ["if", "while", "match", "as"].any t.isWord then .value
  else .name t.text

/-- What an item is. -/
inductive Item where
  | function | type | trait | implementation | module | use | crate | foreign | alias | constant | other
  deriving DecidableEq, Repr

def isName (t : Token) : Bool := t.kind == .word && !isLeading t

/-- Number of tokens of a visibility. -/
def visibilityLength : List Token → Nat
  | t :: u :: rest =>
    if !t.isWord "pub" then 0
    else if u.opens '(' then 3 + (rest.takeWhile fun v => v.kind != .closing).length
    else 1
  | _ => 0

/-- The item that begins after some words, and the number of tokens up to its own name or body. -/
def itemAfter? (first second third : Token) : Option (Item × Nat) :=
  if first.isWord "fn" && second.kind == .word then some (.function, 1)
  else if (first.isWord "struct" || first.isWord "enum") && isName second then some (.type, 1)
  else if first.isWord "trait" && isName second then some (.trait, 1)
  else if first.isWord "impl" then some (.implementation, 1)
  else if first.isWord "mod" && isName second then some (.module, 1)
  else if first.isWord "use" then some (.use, 1)
  else if first.isWord "extern" && second.isWord "crate" then some (.crate, 2)
  else if first.isWord "extern" && second.opens '\x7b' then some (.foreign, 1)
  else if first.isWord "extern" && second.kind == .literal && third.opens '\x7b' then some (.foreign, 2)
  else if first.isWord "type" && isName second then some (.alias, 1)
  else if (first.isWord "const" || first.isWord "static") && second.kind == .word && third.isMark ":" then
    some (.constant, 1)
  else if first.isWord "static" && second.isWord "mut" then some (.constant, 2)
  else if first.isWord "union" && isName second && (third.opens '\x7b' || third.isMark "<") then some (.other, 1)
  else none

/-- A token where there is none. -/
def noToken : Token := ⟨.mark, [], 0, 0⟩

def isModifier (t next : Token) : Bool :=
  ["const", "async", "unsafe", "extern", "safe", "auto"].any t.isWord
    || (t.isWord "default" && ["fn", "const", "async", "unsafe", "extern", "type", "impl"].any next.isWord)
    || (t.kind == .literal && t.text.getLast? == some '"')

/-- The item that a list of tokens begins with, and the number of tokens before what the item's reading
begins with. -/
def item? (tokens : List Token) : Option (Item × Nat) :=
  let visible := visibilityLength tokens
  (go (tokens.drop visible)).map fun (item, n) => (item, visible + n)
where
  /-- Passes over modifiers. -/
  go : List Token → Option (Item × Nat)
    | [] => none
    | t :: rest =>
      match itemAfter? t (rest.head?.getD noToken) ((rest.drop 1).head?.getD noToken) with
      | some found => some found
      | none => if isModifier t (rest.head?.getD noToken) then (go rest).map fun (item, n) => (item, n + 1) else none

/-- Words that can begin an item. -/
def mayBeginItem (t : Token) : Bool :=
  ["pub", "const", "async", "unsafe", "extern", "safe", "auto", "default", "fn", "struct", "enum", "trait", "impl",
    "mod", "use", "type", "static", "union"].any t.isWord

open Reading

mutual

/-- Passes over a pattern, a type or a signature up to a token outside brackets.  Lengths of arrays and braces in
type arguments are expressions. -/
def passOver : Nat → Nat → (Token → Bool) → Reading Unit
  | 0, _, _ => return
  | fuel + 1, angles, stop => do
    match ← peek? with
    | none => return
    | some t =>
      if (angles = 0 && stop t) || t.kind == .closing then return
      skip
      if t.kind == .opening then
        if t.opens '\x7b' && angles ≠ 0 then readExpressions fuel .closing .nothing
        else passGroup fuel (t.opens '[')
        passOver fuel angles stop
      else if t.isMark "<" then passOver fuel (angles + 1) stop
      else if t.isMark "<<" then passOver fuel (angles + 2) stop
      else if t.isMark ">" then passOver fuel (angles - 1) stop
      else passOver fuel angles stop

/-- Passes over the rest of a bracket, and its closing token. -/
def passGroup : Nat → Bool → Reading Unit
  | 0, _ => return
  | fuel + 1, isArray => do
    match ← peek? with
    | none => return
    | some t =>
      skip
      if t.kind == .closing then return
      else if t.kind == .opening then
        passGroup fuel (t.opens '[')
        passGroup fuel isArray
      else if isArray && t.isMark ";" then readExpressions fuel .closing .nothing
      else passGroup fuel isArray

/-- Passes over type arguments from their opening mark on. -/
def passArguments : Nat → Reading Unit
  | 0 => return
  | fuel + 1 => do
    let double ← nextIs fun t => t.isMark "<<"
    skip
    passOver fuel (if double then 1 else 0) fun t => t.isMark ">"
    skip

/-- Passes over a type that nothing sets off from what follows. -/
def passType : Nat → Reading Unit
  | 0 => return
  | fuel + 1 => do
    match ← peek? with
    | none => return
    | some t =>
      if t.isMark "&" || t.isMark "*" || t.kind == .lifetime || t.kind == .literal
          || ["mut", "const", "dyn", "impl", "unsafe", "extern", "for"].any t.isWord then
        skip
        if (← nextIs Token.isLess) && t.isWord "for" then passArguments fuel
        passType fuel
      else if t.isWord "fn" then
        skip
        if ← nextIs fun u => u.opens '(' then
          skip
          passGroup fuel false
        if ← nextIs fun u => u.isMark "->" then
          skip
          passType fuel
      else if t.kind == .opening then
        skip
        passGroup fuel (t.opens '[')
      else if t.isLess then
        passArguments fuel
        passPath fuel
      else if t.isMark "::" then passPath fuel
      else if t.isMark "!" then skip
      else if t.kind == .word then
        skip
        passPath fuel

/-- Passes over the rest of a path. -/
def passPath : Nat → Reading Unit
  | 0 => return
  | fuel + 1 => do
    match ← peek? with
    | none => return
    | some t =>
      if t.isLess then
        passArguments fuel
        passPath fuel
      else if t.isMark "::" then
        skip
        if ← nextIs fun u => u.kind == .word then skip
        passPath fuel

/-- Reads expressions, statements and items up to where they end. -/
def readExpressions : Nat → Until → Before → Reading Unit
  | 0, _, _ => return
  | fuel + 1, goal, before => do
    match ← peek? with
    | none => return
    | some t =>
      if t.kind == .closing then
        if goal == .closing then skip
        return
      if goal == .separator && (t.isMark "," || t.isMark ";" || t.isMark "=>") then return
      if goal == .body && t.opens '\x7b' && before ≠ .nothing then return
      if goal == .arrow && t.isMark "=>" then
        skip
        return
      let further := readExpressions fuel goal
      if t.isMark "#" then
        passAttribute fuel
        further before
      else if mayBeginItem t && (item? (← get).rest).isSome then
        readItem fuel
        further .nothing
      else if t.kind == .opening then
        match before with
        | .name name => if t.opens '(' then add (.call t.start name)
        | _ => pure ()
        skip
        readExpressions fuel .closing .nothing
        further .value
      else if t.kind == .word then
        readWord fuel t
        further (afterWord t)
      else if t.isMark "." then
        skip
        match ← peek? with
        | some u =>
          if u.kind == .literal then
            skip
            further (.name u.text)
          else further .nothing
        | none => return
      else if t.isMark "::" then
        skip
        if ← nextIs Token.isLess then
          passArguments fuel
          further before
        else further .nothing
      else if t.isMark "!" && before ≠ .nothing && before ≠ .value then
        skip
        passMacro fuel before
        further .value
      else if t.isLess && before == .nothing then
        passArguments fuel
        further .nothing
      else if (t.isMark "|" || t.isMark "||") && before == .nothing then
        readClosure fuel
        further .value
      else
        skip
        further (if t.kind == .literal || t.isMark "?" || t.isMark ".." then .value else .nothing)

/-- Reads what a word begins. -/
def readWord : Nat → Token → Reading Unit
  | 0, _ => return
  | fuel + 1, t => do
    skip
    if t.isWord "let" then
      passOver fuel 0 fun u => u.isMark "=" || u.isMark ":" || u.isMark ";"
      if ← nextIs fun u => u.isMark ":" then
        passOver fuel 0 fun u => u.isMark "=" || u.isMark ";"
    else if t.isWord "as" then passType fuel
    else if t.isWord "if" || t.isWord "while" then
      readExpressions fuel .body .nothing
      readBlock fuel
    else if t.isWord "for" then
      if ← nextIs Token.isLess then passArguments fuel
      else
        passOver fuel 0 fun u => u.isWord "in"
        skip
        readExpressions fuel .body .nothing
        readBlock fuel
    else if t.isWord "match" then
      readExpressions fuel .body .nothing
      if ← nextIs fun u => u.opens '\x7b' then
        skip
        readArms fuel

/-- Reads a block in braces. -/
def readBlock : Nat → Reading Unit
  | 0 => return
  | fuel + 1 => do
    if ← nextIs fun u => u.opens '\x7b' then
      skip
      readExpressions fuel .closing .nothing

/-- Passes over an attribute. -/
def passAttribute : Nat → Reading Unit
  | 0 => return
  | fuel + 1 => do
    skip
    if ← nextIs fun u => u.isMark "!" then skip
    if ← nextIs fun u => u.opens '[' then
      skip
      passGroup fuel false

/-- Passes over the arguments of a macro, and the name of one that is defined. -/
def passMacro : Nat → Before → Reading Unit
  | 0, _ => return
  | fuel + 1, before => do
    if before == .name "macro_rules".toList then
      if ← nextIs fun u => u.kind == .word then skip
    if ← nextIs fun u => u.kind == .opening then
      skip
      passGroup fuel false

/-- Reads a closure from the bar on. -/
def readClosure : Nat → Reading Unit
  | 0 => return
  | fuel + 1 => do
    let start := ((← peek?).map Token.start).getD 0
    let empty ← nextIs fun u => u.isMark "||"
    skip
    unless empty do
      passOver fuel 0 fun u => u.isMark "|"
      skip
    if ← nextIs fun u => u.isMark "->" then passOver fuel 0 fun u => u.opens '\x7b'
    readExpressions fuel .separator .nothing
    add (.closure start (← position))

/-- Reads the arms of a match, and the closing brace. -/
def readArms : Nat → Reading Unit
  | 0 => return
  | fuel + 1 => do
    match ← peek? with
    | none => return
    | some t =>
      if t.kind == .closing then skip
      else if t.isMark "#" then
        passAttribute fuel
        readArms fuel
      else
        passOver fuel 0 fun u => u.isMark "=>" || u.isWord "if"
        if ← nextIs fun u => u.isWord "if" then
          skip
          readExpressions fuel .arrow .nothing
        else if ← nextIs fun u => u.isMark "=>" then skip
        readArm fuel
        if ← nextIs fun u => u.isMark "," then skip
        readArms fuel

/-- Reads the value of an arm, which may be a block with nothing after it. -/
def readArm : Nat → Reading Unit
  | 0 => return
  | fuel + 1 => do
    match ← peek? with
    | none => return
    | some t =>
      if t.kind == .lifetime then
        skip
        skip
        readArm fuel
      else if t.opens '\x7b' || t.isWord "loop" || t.isWord "unsafe" then
        unless t.opens '\x7b' do skip
        readBlock fuel
        readArmRest fuel
      else if t.isWord "if" then
        readIf fuel
        readArmRest fuel
      else if ["match", "while", "for"].any t.isWord then
        readWord fuel t
        readArmRest fuel
      else readExpressions fuel .separator .nothing

/-- Reads on after a block when a method or an operator on its value follows. -/
def readArmRest : Nat → Reading Unit
  | 0 => return
  | fuel + 1 => do
    if ← nextIs fun u => u.isMark "." || u.isMark "?" then readExpressions fuel .separator .value

/-- Reads a condition with all its branches. -/
def readIf : Nat → Reading Unit
  | 0 => return
  | fuel + 1 => do
    skip
    readExpressions fuel .body .nothing
    readBlock fuel
    if ← nextIs fun u => u.isWord "else" then
      skip
      if ← nextIs fun u => u.isWord "if" then readIf fuel else readBlock fuel

/-- Reads an item from its first modifier on. -/
def readItem : Nat → Reading Unit
  | 0 => return
  | fuel + 1 => do
    let tokens := (← get).rest
    let start := (tokens.head?.map Token.start).getD 0
    match item? tokens with
    | none => skip
    | some (item, length) =>
      skipMany length
      let name := ((← peek?).map Token.text).getD []
      let toBody := passOver fuel 0 fun u => u.opens '\x7b' || u.isMark ";"
      match item with
      | .function =>
        toBody
        let body := (← peek?).filter fun u => u.opens '\x7b'
        if body.isSome then readBlock fuel else skip
        add (.function start name (body.map Token.start) (← position))
      | .type =>
        add (.type start name)
        passBody fuel
      | .trait =>
        add (.type start name)
        toBody
        if ← nextIs fun u => u.opens '\x7b' then readBlock fuel else skip
        add (.trait start (← position) name)
      | .implementation => readImplementation fuel start
      | .module =>
        let name ← peek?
        skip
        if ← nextIs fun u => u.opens '\x7b' then readBlock fuel
        else
          add (.imported ((name.map Token.start).getD 0) (← position))
          skip
      | .use =>
        let first ← peek?
        passOver fuel 0 fun u => u.isMark ";"
        add (.imported ((first.map Token.start).getD 0) (← position))
        skip
      | .crate =>
        let name ← peek?
        skip
        add (.imported ((name.map Token.start).getD 0) (← position))
        passOver fuel 0 fun u => u.isMark ";"
        skip
      | .foreign => readBlock fuel
      | .alias =>
        passOver fuel 0 fun u => u.isMark ";"
        skip
      | .constant => passOver fuel 0 fun u => u.isMark "=" || u.isMark ";"
      | .other => passBody fuel

/-- Passes over the fields or variants of a type. -/
def passBody : Nat → Reading Unit
  | 0 => return
  | fuel + 1 => do
    passOver fuel 0 fun u => u.opens '\x7b' || u.isMark ";"
    if ← nextIs fun u => u.opens '\x7b' then
      skip
      passGroup fuel false
    else skip

/-- Reads an implementation from its type parameters on. -/
def readImplementation : Nat → Nat → Reading Unit
  | 0, _ => return
  | fuel + 1, start => do
    if ← nextIs Token.isLess then passArguments fuel
    if ← nextIs fun u => u.isMark "!" || u.isWord "const" then skip
    let first ← readImplemented fuel
    let second ←
      if ← nextIs fun u => u.isWord "for" then do
        skip
        let type ← readImplemented fuel
        pure (some type)
      else pure none
    passOver fuel 0 fun u => u.opens '\x7b' || u.isMark ";"
    readBlock fuel
    let stop ← position
    match second with
    | some type => add (.implementation start stop type (some first))
    | none => add (.implementation start stop first none)

/-- The stretch of a type or trait that is implemented. -/
def readImplemented : Nat → Reading (Nat × Nat)
  | 0 => return (0, 0)
  | fuel + 1 => do
    let start := ((← peek?).map Token.start).getD 0
    if ← nextIs fun u => u.isWord "for" then
      skip
      passArguments fuel
    passOver fuel 0 fun u => u.opens '\x7b' || u.isMark ";" || u.isWord "for" || u.isWord "where"
    return (start, ← position)

end

end CodeIndex.Rust
