set_option autoImplicit false

/-!
# Blank characters and the text around them

The class is Unicode's `White_Space`.  Trimming removes blanks at the ends of a text, `words` cuts it
at runs of blanks, and `collapse` writes every run of blanks inside it as one space.
-/

namespace CodeIndex.Text

/-- Unicode `White_Space`. -/
def isBlank (c : Char) : Bool :=
  let n := c.toNat
  (9 ≤ n && n ≤ 13) || n == 0x20 || n == 0x85 || n == 0xA0 || n == 0x1680
    || (0x2000 ≤ n && n ≤ 0x200A) || n == 0x2028 || n == 0x2029 || n == 0x202F
    || n == 0x205F || n == 0x3000

/-- The text without the characters of a class at its end. -/
def dropEndWhile (p : Char → Bool) (cs : List Char) : List Char :=
  (cs.reverse.dropWhile p).reverse

/-- The text without the characters of a class at either end. -/
def trimBy (p : Char → Bool) (cs : List Char) : List Char :=
  dropEndWhile p (cs.dropWhile p)

def trimStart (cs : List Char) : List Char := cs.dropWhile isBlank

def trimEnd (cs : List Char) : List Char := dropEndWhile isBlank cs

def trim (cs : List Char) : List Char := trimBy isBlank cs

/-- One step of `split`, read from the end of the text. -/
def splitStep (sep : Char → Bool) (c : Char) (pieces : List (List Char)) : List (List Char) :=
  if sep c then [] :: pieces
  else match pieces with
    | [] => [[c]]
    | piece :: rest => (c :: piece) :: rest

/-- The pieces between separators: one more than there are separators. -/
def split (sep : Char → Bool) (cs : List Char) : List (List Char) :=
  cs.foldr (splitStep sep) [[]]

/-- The maximal runs of characters that are not separators. -/
def runs (sep : Char → Bool) (cs : List Char) : List (List Char) :=
  (split sep cs).filter (fun piece => !piece.isEmpty)

def words (cs : List Char) : List (List Char) := runs isBlank cs

/-- The words with one space between neighbours. -/
def collapse (cs : List Char) : List Char :=
  [' '].intercalate (words cs)

theorem split_nil (sep : Char → Bool) : split sep [] = [[]] := rfl

theorem split_cons (sep : Char → Bool) (c : Char) (cs : List Char) :
    split sep (c :: cs) = splitStep sep c (split sep cs) := rfl

theorem split_ne_nil (sep : Char → Bool) (cs : List Char) : split sep cs ≠ [] := by
  cases cs with
  | nil => simp [split_nil]
  | cons c cs =>
    rw [split_cons]
    unfold splitStep
    split
    · simp
    · split <;> simp

end CodeIndex.Text
