set_option autoImplicit false

/-!
# UTF-8 with faults

Bytes that are no text are read as far as they go: the longest start of a character that is cut short, or a
byte that begins none, becomes one replacement character.
-/

namespace CodeIndex.Text

/-- The ranges of the bytes that must follow a first byte; nothing for a byte that begins no character. -/
def continuations? (first : UInt8) : Option (List (UInt8 × UInt8)) :=
  let rest : UInt8 × UInt8 := (0x80, 0xBF)
  if first < 0x80 then some []
  else if 0xC2 ≤ first && first ≤ 0xDF then some [rest]
  else if first == 0xE0 then some [(0xA0, 0xBF), rest]
  else if first == 0xED then some [(0x80, 0x9F), rest]
  else if 0xE1 ≤ first && first ≤ 0xEF then some [rest, rest]
  else if first == 0xF0 then some [(0x90, 0xBF), rest, rest]
  else if 0xF1 ≤ first && first ≤ 0xF3 then some [rest, rest, rest]
  else if first == 0xF4 then some [(0x80, 0x8F), rest, rest]
  else none

/-- How many of the bytes fit their ranges, from the first on. -/
def fitting : List (UInt8 × UInt8) → List UInt8 → Nat
  | (low, high) :: ranges, b :: bytes => if low ≤ b && b ≤ high then fitting ranges bytes + 1 else 0
  | _, _ => 0

/-- The number that a first byte and those after it stand for. -/
def codePoint (first : UInt8) (more : List UInt8) : Nat :=
  let bits := match more.length with
    | 0 => first.toNat
    | 1 => first.toNat % 32
    | 2 => first.toNat % 16
    | _ => first.toNat % 8
  more.foldl (fun n b => n * 64 + b.toNat % 64) bits

def decodeLossy : Nat → List UInt8 → List Char
  | 0, _ => []
  | _, [] => []
  | fuel + 1, first :: rest =>
    match continuations? first with
    | none => '\ufffd' :: decodeLossy fuel rest
    | some ranges =>
      let count := fitting ranges rest
      let c := if count = ranges.length then Char.ofNat (codePoint first (rest.take count)) else '\ufffd'
      c :: decodeLossy fuel (rest.drop count)

/-- The text of some bytes, with replacement characters where they are no text. -/
def lossy (bytes : ByteArray) : String :=
  match String.fromUTF8? bytes with
  | some s => s
  | none => String.ofList (decodeLossy (bytes.size + 1) bytes.toList)

end CodeIndex.Text
