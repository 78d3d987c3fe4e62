import CodeIndex.Text.Basic
import Mathlib.Tactic.Common

set_option autoImplicit false

/-!
# Byte offsets into a text

An offset counts the bytes of a text in UTF-8.  A text can be cut where one of its characters starts or where it ends,
and nowhere else: those offsets belong to places, which count characters.
-/

namespace CodeIndex.Text

/-- Length of a text in bytes. -/
def size : List Char → Nat
  | [] => 0
  | c :: cs => c.utf8Size + size cs

/-- A text in UTF-8. -/
def bytes (cs : List Char) : List UInt8 := cs.flatMap String.utf8EncodeChar

/-- The offset of a place. -/
def offsetOf (cs : List Char) (place : Nat) : Nat := size (cs.take place)

/-- The text from an offset on, if it can be cut there. -/
def fromOffset? : Nat → List Char → Option (List Char)
  | 0, cs => some cs
  | _ + 1, [] => none
  | n + 1, c :: cs => if c.utf8Size ≤ n + 1 then fromOffset? (n + 1 - c.utf8Size) cs else none

/-- The text up to an offset, likewise. -/
def toOffset? : Nat → List Char → Option (List Char)
  | 0, _ => some []
  | _ + 1, [] => none
  | n + 1, c :: cs => if c.utf8Size ≤ n + 1 then (toOffset? (n + 1 - c.utf8Size) cs).map (c :: ·) else none

/-- The text between two offsets, if it can be cut at both and they are in order. -/
def between? (start stop : Nat) (cs : List Char) : Option (List Char) :=
  if start ≤ stop then (fromOffset? start cs).bind (toOffset? (stop - start)) else none

variable {cs : List Char} {place : Nat} {c : Char}

/-! ## Offsets of places -/

theorem size_append (xs ys : List Char) : size (xs ++ ys) = size xs + size ys := by
  induction xs with
  | nil => rw [List.nil_append, size, Nat.zero_add]
  | cons c xs ih => rw [List.cons_append, size, size, ih, Nat.add_assoc]

@[simp] theorem offsetOf_zero (cs : List Char) : offsetOf cs 0 = 0 := rfl

theorem offsetOf_of_length_le (h : cs.length ≤ place) : offsetOf cs place = size cs := by
  rw [offsetOf, List.take_of_length_le h]

theorem offsetOf_length (cs : List Char) : offsetOf cs cs.length = size cs := offsetOf_of_length_le (Nat.le_refl _)

theorem offsetOf_add (cs : List Char) (place n : Nat) :
    offsetOf cs (place + n) = offsetOf cs place + offsetOf (cs.drop place) n := by
  rw [offsetOf, List.take_add, size_append, offsetOf, offsetOf]

theorem drop_eq_cons (h : cs[place]? = some c) : cs.drop place = c :: cs.drop (place + 1) := by
  rw [List.drop_eq_getElem?_toList_append, h]
  rfl

theorem offsetOf_succ (h : cs[place]? = some c) : offsetOf cs (place + 1) = offsetOf cs place + c.utf8Size := by
  rw [offsetOf_add, drop_eq_cons h]
  rfl

theorem offsetOf_mono {there : Nat} (h : place ≤ there) : offsetOf cs place ≤ offsetOf cs there := by
  obtain ⟨n, rfl⟩ := Nat.exists_eq_add_of_le h
  rw [offsetOf_add]
  exact Nat.le_add_right _ _

theorem offsetOf_max (cs : List Char) (place there : Nat) :
    offsetOf cs (max place there) = max (offsetOf cs place) (offsetOf cs there) := by
  rcases Nat.le_total place there with h | h
  · rw [Nat.max_eq_right h, Nat.max_eq_right (offsetOf_mono h)]
  · rw [Nat.max_eq_left h, Nat.max_eq_left (offsetOf_mono h)]

theorem offsetOf_min (cs : List Char) (place there : Nat) :
    offsetOf cs (min place there) = min (offsetOf cs place) (offsetOf cs there) := by
  rcases Nat.le_total place there with h | h
  · rw [Nat.min_eq_left h, Nat.min_eq_left (offsetOf_mono h)]
  · rw [Nat.min_eq_right h, Nat.min_eq_right (offsetOf_mono h)]

theorem offsetOf_le_size (cs : List Char) (place : Nat) : offsetOf cs place ≤ size cs := by
  rcases Nat.le_total place cs.length with h | h
  · rw [← offsetOf_length cs]
    exact offsetOf_mono h
  · exact Nat.le_of_eq (offsetOf_of_length_le h)

theorem offsetOf_lt {there : Nat} (h : place < there) (hplace : place < cs.length) :
    offsetOf cs place < offsetOf cs there := by
  have hpos := Char.utf8Size_pos cs[place]
  have hle : offsetOf cs (place + 1) ≤ offsetOf cs there := offsetOf_mono h
  rw [offsetOf_succ (List.getElem?_eq_getElem hplace)] at hle
  omega

theorem offsetOf_lt_iff {there : Nat} (hthere : there ≤ cs.length) :
    offsetOf cs place < offsetOf cs there ↔ place < there :=
  ⟨fun h => Nat.lt_of_not_le fun hle => absurd (offsetOf_mono hle) (Nat.not_le.2 h), fun h => offsetOf_lt h (Nat.lt_of_lt_of_le h hthere)⟩

theorem offsetOf_lt_size_iff : offsetOf cs place < size cs ↔ place < cs.length := by
  rw [← offsetOf_length cs, offsetOf_lt_iff (Nat.le_refl _)]

/-! ## Cutting -/

theorem fromOffset?_cons (c : Char) (cs : List Char) (n : Nat) : fromOffset? (c.utf8Size + n) (c :: cs) = fromOffset? n cs := by
  obtain ⟨k, hk⟩ : ∃ k, c.utf8Size + n = k + 1 := Nat.exists_eq_succ_of_ne_zero (by have := c.utf8Size_pos; omega)
  rw [hk, fromOffset?, if_pos (by omega), show k + 1 - c.utf8Size = n by omega]

theorem toOffset?_cons (c : Char) (cs : List Char) (n : Nat) :
    toOffset? (c.utf8Size + n) (c :: cs) = (toOffset? n cs).map (c :: ·) := by
  obtain ⟨k, hk⟩ : ∃ k, c.utf8Size + n = k + 1 := Nat.exists_eq_succ_of_ne_zero (by have := c.utf8Size_pos; omega)
  rw [hk, toOffset?, if_pos (by omega), show k + 1 - c.utf8Size = n by omega]

theorem fromOffset?_offsetOf (cs : List Char) (place : Nat) : fromOffset? (offsetOf cs place) cs = some (cs.drop place) := by
  induction cs generalizing place with
  | nil => rw [offsetOf, List.take_nil, List.drop_nil, size, fromOffset?]
  | cons c cs ih =>
    cases place with
    | zero => rw [offsetOf_zero, fromOffset?, List.drop_zero]
    | succ place => exact (fromOffset?_cons c cs _).trans (ih place)

theorem toOffset?_offsetOf (cs : List Char) (place : Nat) : toOffset? (offsetOf cs place) cs = some (cs.take place) := by
  induction cs generalizing place with
  | nil => rw [offsetOf, List.take_nil, size, toOffset?]
  | cons c cs ih =>
    cases place with
    | zero => rw [offsetOf_zero, toOffset?, List.take_zero]
    | succ place =>
      refine (toOffset?_cons c cs _).trans ?_
      rw [← offsetOf, ih, Option.map_some, List.take_succ_cons]

theorem between?_offsetOf {there : Nat} (h : place ≤ there) :
    between? (offsetOf cs place) (offsetOf cs there) cs = some (slice place there cs) := by
  obtain ⟨n, rfl⟩ := Nat.exists_eq_add_of_le h
  rw [between?, if_pos (offsetOf_mono h), fromOffset?_offsetOf, Option.bind_some, offsetOf_add, Nat.add_sub_cancel_left,
    toOffset?_offsetOf, slice, Nat.add_sub_cancel_left]

/-- A text cannot be cut inside a character. -/
theorem fromOffset?_inside {k : Nat} (h : cs[place]? = some c) (hpos : 0 < k) (hk : k < c.utf8Size) :
    fromOffset? (offsetOf cs place + k) cs = none := by
  induction cs generalizing place with
  | nil => cases h
  | cons d cs ih =>
    cases place with
    | zero =>
      cases h
      obtain ⟨k, rfl⟩ := Nat.exists_eq_add_of_lt hpos
      rw [offsetOf_zero, Nat.zero_add, Nat.zero_add, fromOffset?, if_neg (by omega)]
    | succ place =>
      have hoffset : offsetOf (d :: cs) (place + 1) + k = d.utf8Size + (offsetOf cs place + k) := Nat.add_assoc _ _ _
      rw [hoffset, fromOffset?_cons]
      exact ih h

/-! ## Bytes -/

theorem length_bytes (cs : List Char) : (bytes cs).length = size cs := by
  induction cs with
  | nil => rfl
  | cons c cs ih =>
    rw [bytes, List.flatMap_cons, List.length_append, String.length_utf8EncodeChar, size]
    rw [← ih, bytes]

theorem bytes_append (xs ys : List Char) : bytes (xs ++ ys) = bytes xs ++ bytes ys := List.flatMap_append

theorem drop_bytes (cs : List Char) (place : Nat) : (bytes cs).drop (offsetOf cs place) = bytes (cs.drop place) := by
  conv_lhs => rw [← List.take_append_drop place cs, bytes_append, offsetOf, ← length_bytes, List.take_append_drop]
  rw [List.drop_left]

/-- The bytes of a character stand where it starts. -/
theorem getElem?_bytes (h : cs[place]? = some c) {k : Nat} (hk : k < c.utf8Size) :
    (bytes cs)[offsetOf cs place + k]? = (String.utf8EncodeChar c)[k]? := by
  have hlen : k < (String.utf8EncodeChar c).length := by rwa [String.length_utf8EncodeChar]
  rw [← List.getElem?_drop, drop_bytes, drop_eq_cons h, bytes, List.flatMap_cons, List.getElem?_append_left hlen]

/-- One byte is what a character in ASCII takes. -/
theorem utf8Size_eq_one_iff : c.utf8Size = 1 ↔ c.toNat < 128 := by
  rw [Char.utf8Size_eq_one_iff, UInt32.le_iff_toNat_le]
  exact Nat.lt_succ_iff.symm

theorem utf8EncodeChar_of_lt (h : c.toNat < 128) : String.utf8EncodeChar c = [c.val.toUInt8] :=
  String.utf8EncodeChar_eq_singleton (utf8Size_eq_one_iff.2 h)

theorem size_of_ascii (h : ∀ c ∈ cs, c.toNat < 128) : size cs = cs.length := by
  induction cs with
  | nil => rfl
  | cons c cs ih =>
    obtain ⟨hc, hcs⟩ := List.forall_mem_cons.1 h
    rw [size, utf8Size_eq_one_iff.2 hc, ih hcs, List.length_cons, Nat.add_comm]

/-- Over characters in ASCII, offsets increase as places do. -/
theorem offsetOf_add_of_ascii {xs : List Char} (hpre : xs <+: cs.drop place) (h : ∀ c ∈ xs, c.toNat < 128) :
    offsetOf cs (place + xs.length) = offsetOf cs place + xs.length := by
  have htake : offsetOf (cs.drop place) xs.length = size xs := congrArg size (List.prefix_iff_eq_take.1 hpre).symm
  rw [offsetOf_add, htake, size_of_ascii h]

/-- All bytes of a character outside ASCII are outside it too. -/
theorem le_of_mem_utf8EncodeChar (h : 128 ≤ c.toNat) {b : UInt8} (hb : b ∈ String.utf8EncodeChar c) : 128 ≤ b.toNat := by
  have hwide : ∀ n, 128 ≤ n → n < 256 → 128 ≤ (UInt8.ofNat n).toNat := fun n hle hlt => by
    rwa [UInt8.toNat_ofNat_of_lt' (by simpa using hlt)]
  have hnot : ¬ c.val.toNat ≤ 127 := Nat.not_le.2 h
  simp only [String.utf8EncodeChar, if_neg hnot] at hb
  split at hb
  · simp only [List.mem_cons, List.not_mem_nil, or_false] at hb
    rcases hb with rfl | rfl <;> exact hwide _ (by omega) (by omega)
  · split at hb
    · simp only [List.mem_cons, List.not_mem_nil, or_false] at hb
      rcases hb with rfl | rfl | rfl <;> exact hwide _ (by omega) (by omega)
    · simp only [List.mem_cons, List.not_mem_nil, or_false] at hb
      rcases hb with rfl | rfl | rfl | rfl <;> exact hwide _ (by omega) (by omega)

theorem bytes_cons_ascii {c : Char} (hc : c.toNat < 128) (cs : List Char) : bytes (c :: cs) = c.val.toUInt8 :: bytes cs := by
  rw [bytes, List.flatMap_cons, utf8EncodeChar_of_lt hc]
  rfl

/-- A byte in ASCII is a character. -/
theorem exists_place_of_ascii {pos : Nat} {b : UInt8} (h : (bytes cs)[pos]? = some b) (hb : b.toNat < 128) :
    ∃ place c, cs[place]? = some c ∧ c.toNat < 128 ∧ offsetOf cs place = pos ∧ c.val.toUInt8 = b := by
  induction cs generalizing pos with
  | nil => cases h
  | cons c cs ih =>
    rw [bytes, List.flatMap_cons] at h
    by_cases hpos : pos < (String.utf8EncodeChar c).length
    · rw [List.getElem?_append_left hpos] at h
      have hc : c.toNat < 128 := by
        by_contra hwide
        exact absurd (le_of_mem_utf8EncodeChar (Nat.not_lt.1 hwide) (List.mem_of_getElem? h)) (Nat.not_le.2 hb)
      rw [utf8EncodeChar_of_lt hc] at h hpos
      obtain rfl : pos = 0 := Nat.lt_one_iff.1 hpos
      exact ⟨0, c, rfl, hc, rfl, Option.some.inj h⟩
    · rw [List.getElem?_append_right (Nat.not_lt.1 hpos)] at h
      obtain ⟨place, d, hd, hascii, hoffset, hbyte⟩ := ih h
      refine ⟨place + 1, d, hd, hascii, ?_, hbyte⟩
      rw [String.length_utf8EncodeChar] at hpos hoffset
      change c.utf8Size + offsetOf cs place = pos
      omega

end CodeIndex.Text
