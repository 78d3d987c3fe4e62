set_option autoImplicit false

/-!
# Patterns

A pattern describes a stretch of a text, over any type of symbols.  Matching tries the ways to match in
order of preference and takes the first one that also lets the rest of the pattern match: the left of two
alternatives, more repetitions for a greedy one, fewer for a lazy one.  Groups record where they matched.
-/

namespace CodeIndex

inductive Pattern (α : Type) where
  /-- Matches at every place, and takes nothing. -/
  | nothing
  | one (test : α → Bool)
  /-- A place, by the symbols before and after it. -/
  | place (test : Option α → Option α → Bool)
  | seq (first second : Pattern α)
  | alt (left right : Pattern α)
  | many (greedy : Bool) (body : Pattern α)
  | group (name : String) (body : Pattern α)

namespace Pattern

variable {α : Type}

/-- A place in a text and what was recorded on the way there. -/
structure Spot (α : Type) where
  before : Option α
  offset : Nat
  rest : List α
  groups : List (String × Nat × Nat)

/-- What must still match after the present part; it answers with the end of the whole match. -/
abbrev Then (α : Type) := Spot α → Option (Spot α)

/-- Repeats a part that takes at least one symbol each time, at most as often as the count says. -/
def repeated (greedy : Bool) (part : Spot α → Then α → Option (Spot α)) :
    Nat → Spot α → Then α → Option (Spot α)
  | 0, s, next => next s
  | count + 1, s, next =>
    let again := fun _ : Unit => part s fun s' =>
      if s.offset < s'.offset then repeated greedy part count s' next else none
    if greedy then (again ()).orElse fun _ => next s else (next s).orElse again

def run : Pattern α → Spot α → Then α → Option (Spot α)
  | nothing, s, next => next s
  | one test, s, next =>
    match s.rest with
    | [] => none
    | a :: rest =>
      if test a then next { s with before := some a, offset := s.offset + 1, rest := rest } else none
  | place test, s, next => if test s.before s.rest.head? then next s else none
  | seq p q, s, next => run p s fun s' => run q s' next
  | alt p q, s, next => (run p s next).orElse fun _ => run q s next
  | many greedy p, s, next => repeated greedy (run p) s.rest.length s next
  | group name p, s, next => run p s fun s' =>
      next { s' with groups := (name, s.offset, s'.offset) :: s'.groups }

/-- A stretch of the text and the stretches of its groups, as offsets. -/
structure Found where
  start : Nat
  stop : Nat
  groups : List (String × Nat × Nat)

def Found.group? (f : Found) (name : String) : Option (Nat × Nat) := f.groups.lookup name

def matchAt? (p : Pattern α) (before : Option α) (offset : Nat) (rest : List α) : Option Found :=
  (p.run ⟨before, offset, rest, []⟩ some).map fun s => ⟨offset, s.offset, s.groups⟩

/-- The first place at which the pattern matches. -/
def findFrom? (p : Pattern α) : Option α → Nat → List α → Option Found
  | before, offset, rest =>
    match p.matchAt? before offset rest with
    | some found => some found
    | none =>
      match rest with
      | [] => none
      | a :: rest => findFrom? p (some a) (offset + 1) rest

def find? (p : Pattern α) (text : List α) : Option Found := p.findFrom? none 0 text

/-- Matches that do not overlap, each as early as possible. -/
def findAll (p : Pattern α) (text : List α) : List Found := go (text.length + 1) none 0 text
where
  go : Nat → Option α → Nat → List α → List Found
    | 0, _, _, _ => []
    | fuel + 1, before, offset, rest =>
      match p.findFrom? before offset rest with
      | none => []
      | some found =>
        let stop := max found.stop (found.start + 1)
        let taken := stop - offset
        found :: (if rest.length < taken then []
          else go fuel (rest[taken - 1]?.orElse fun _ => before) stop (rest.drop taken))

/-- The pattern matches the text as a whole. -/
def accepts (p : Pattern α) (text : List α) : Bool :=
  (p.run ⟨none, 0, text, []⟩ fun s => if s.rest.isEmpty then some s else none).isSome

def seqs : List (Pattern α) → Pattern α
  | [] => nothing
  | [p] => p
  | p :: rest => seq p (seqs rest)

/-- Any one of some patterns, earlier ones preferred; none matches nowhere. -/
def anyOf : List (Pattern α) → Pattern α
  | [] => place fun _ _ => false
  | [p] => p
  | p :: rest => alt p (anyOf rest)

def optional (p : Pattern α) : Pattern α := alt p nothing

def star (p : Pattern α) : Pattern α := many true p

def plus (p : Pattern α) : Pattern α := seq p (star p)

/-- One or more, as few as possible. -/
def lazyPlus (p : Pattern α) : Pattern α := seq p (many false p)

/-- A fixed stretch of text. -/
def word [BEq α] (symbols : List α) : Pattern α := seqs (symbols.map fun a => one (· == a))

def textStart : Pattern α := place fun before _ => before.isNone

end Pattern

end CodeIndex
