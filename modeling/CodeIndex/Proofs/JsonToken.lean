import CodeIndex.Json.Token

set_option autoImplicit false

/-!
# Reading back written tokens

A token that was written is read back from the head of a text, as long as what follows it does not continue it: a
number must not be followed by more of a number, and a word not by a letter.
-/

namespace CodeIndex.Json

/-! ## Strings -/

theorem hexValue?_hexDigit {n : Nat} (h : n < 16) : hexValue? (Text.hexDigit n) = some n := by
  have hall : ∀ k : Fin 16, hexValue? (Text.hexDigit k) = some k.val := by decide
  exact hall ⟨n, h⟩

theorem unit?_control {n : Nat} (h : n < 0x20) :
    unit? '0' '0' (Text.hexDigit (n / 16)) (Text.hexDigit (n % 16)) = some n := by
  have hzero : hexValue? '0' = some 0 := by decide
  have hhigh : hexValue? (Text.hexDigit (n / 16)) = some (n / 16) := hexValue?_hexDigit (by omega)
  have hlow : hexValue? (Text.hexDigit (n % 16)) = some (n % 16) := hexValue?_hexDigit (by omega)
  have hn : ((0 * 16 + 0) * 16 + n / 16) * 16 + n % 16 = n := by omega
  simp only [unit?, hzero, hhigh, hlow]
  exact congrArg some hn

/-- A character that is written as it is. -/
theorem unquote_plain {c : Char} (hq : c ≠ '"') (hb : c ≠ '\\') (hc : ¬ c.toNat < 0x20) (read rest : List Char) :
    unquote read (c :: rest) = unquote (c :: read) rest := by
  rw [unquote.eq_def]
  split
  · next h => cases h
  · next h => exact absurd (List.cons.inj h).1 hq
  · next h => exact absurd (List.cons.inj h).1 hb
  · next h => exact absurd (List.cons.inj h).1 hb
  · next h =>
    obtain ⟨rfl, rfl⟩ := List.cons.inj h
    exact if_neg hc

theorem unquote_escape (c : Char) (read rest : List Char) :
    unquote read (escape c ++ rest) = unquote (c :: read) rest := by
  unfold escape
  iterate 7
    split
    · next h => subst h; rfl
  split
  · next h =>
    have hunit := unit?_control h
    have htrail : isTrailing c.toNat = false := by
      simp only [isTrailing, Bool.and_eq_false_iff, decide_eq_false_iff_not]
      omega
    have hlead : isLeading c.toNat = false := by
      simp only [isLeading, Bool.and_eq_false_iff, decide_eq_false_iff_not]
      omega
    simp only [List.cons_append, List.nil_append]
    rw [unquote.eq_def]
    simp only [hunit, htrail, hlead, Char.ofNat_toNat]
    rfl
  · next h => exact unquote_plain (by assumption) (by assumption) h read rest

theorem unquote_flatMap_escape (s read rest : List Char) :
    unquote read (s.flatMap escape ++ '"' :: rest) = some (read.reverse ++ s, rest) := by
  induction s generalizing read with
  | nil => simp [unquote]
  | cons c s ih =>
    rw [List.flatMap_cons, List.append_assoc, unquote_escape, ih, List.reverse_cons, List.append_assoc]
    rfl

/-! ## Numbers -/

theorem isDigit_of_mem_toDigits {n : Nat} {c : Char} (h : c ∈ Nat.toDigits 10 n) : isDigit c = true :=
  Nat.isDigit_of_mem_toDigits (by decide) (by decide) h

/-- Only zero is written with a zero first. -/
theorem toDigits_head {n : Nat} {tail : List Char} (h : Nat.toDigits 10 n = '0' :: tail) : n = 0 ∧ tail = [] := by
  induction n using Nat.strongRecOn generalizing tail with
  | _ n ih =>
    by_cases hn : n < 10
    · rw [Nat.toDigits_of_lt_base hn, List.cons.injEq, Nat.digitChar_eq_zero] at h
      exact ⟨h.1, h.2.symm⟩
    · rw [Nat.toDigits_of_base_le (by decide) (by omega)] at h
      obtain ⟨c, cs, hcs⟩ := List.exists_cons_of_ne_nil (Nat.toDigits_ne_nil (n := n / 10) (b := 10))
      rw [hcs, List.cons_append, List.cons.injEq] at h
      have hzero := (ih (n / 10) (by omega) (hcs.trans (by rw [h.1]))).1
      omega

theorem naturalOf_toDigits (n : Nat) : naturalOf (Nat.toDigits 10 n) = n := by
  have h : naturalOf (Nat.toDigits 10 n) = Nat.ofDigitChars 10 (Nat.toDigits 10 n) 0 := by
    rw [Nat.ofDigitChars_eq_foldl, naturalOf]
    simp only [Nat.mul_comm]
    rfl
  rw [h, Nat.ofDigitChars_ten_toDigits]

/-- What does not go on with a number. -/
def EndsNumber (rest : List Char) : Prop := ∀ c ∈ rest.head?, isDigit c = false ∧ c ≠ '.' ∧ c ≠ 'e' ∧ c ≠ 'E'

theorem takeWhile_digits {digits rest : List Char} (hd : ∀ c ∈ digits, isDigit c = true) (hr : EndsNumber rest) :
    (digits ++ rest).takeWhile isDigit = digits ∧ (digits ++ rest).dropWhile isDigit = rest := by
  have hnone : rest.takeWhile isDigit = [] ∧ rest.dropWhile isDigit = rest := by
    cases rest with
    | nil => exact ⟨rfl, rfl⟩
    | cons c cs => simp [(hr c rfl).1]
  rw [List.takeWhile_append_of_pos hd, List.dropWhile_append_of_pos hd, hnone.1, hnone.2, List.append_nil]
  exact ⟨rfl, rfl⟩

theorem whole?_toDigits (n : Nat) {rest : List Char} (hr : EndsNumber rest) :
    whole? (Nat.toDigits 10 n ++ rest) = some (Nat.toDigits 10 n, rest) := by
  obtain ⟨htake, hdrop⟩ := takeWhile_digits (fun c => isDigit_of_mem_toDigits (n := n) (c := c)) hr
  unfold whole?
  split
  · next tail heq =>
    obtain ⟨c, cs, hcs⟩ := List.exists_cons_of_ne_nil (Nat.toDigits_ne_nil (n := n) (b := 10))
    rw [hcs, List.cons_append, List.cons.injEq] at heq
    obtain ⟨rfl, rfl⟩ := heq
    obtain ⟨-, rfl⟩ := toDigits_head hcs
    rw [hcs, List.nil_append]
  · dsimp only
    rw [htake, hdrop, if_neg (by simp)]

theorem fraction?_of_endsNumber {rest : List Char} (hr : EndsNumber rest) : fraction? rest = some ([], rest) := by
  cases rest with
  | nil => rfl
  | cons c cs =>
    rw [fraction?.eq_def]
    split
    · next heq => exact absurd (List.cons.inj heq).1 (hr c rfl).2.1
    · rfl

theorem exponent?_of_endsNumber {rest : List Char} (hr : EndsNumber rest) : exponent? rest = some ([], rest) := by
  cases rest with
  | nil => rfl
  | cons c cs =>
    obtain ⟨-, -, he, hE⟩ := hr c rfl
    simp [exponent?, he, hE]

theorem unsigned?_toDigits {n : Nat} (hn : n < countLimit) {rest : List Char} (hr : EndsNumber rest) :
    unsigned? false (Nat.toDigits 10 n ++ rest) = some (.natural n, rest) := by
  simp only [unsigned?, whole?_toDigits n hr, fraction?_of_endsNumber hr, exponent?_of_endsNumber hr, numberOf,
    naturalOf_toDigits, Option.bind_eq_bind, Option.bind_some, List.append_nil, List.isEmpty_nil, Bool.not_false,
    Bool.and_self, Bool.true_and, decide_eq_true_eq, if_pos hn]
  rfl

/-! ## Tokens -/

/-- A token of a document: a string, a count, one of the words, or punctuation. -/
def Token.Proper : Token → Prop
  | .number (.natural n) => n < countLimit
  | .number _ => False
  | .word w => w ∈ ["null", "true", "false"]
  | _ => True

/-- What may follow a token directly. -/
def Token.EndedBy (t : Token) (rest : List Char) : Prop :=
  match t with
  | .number _ => EndsNumber rest
  | .word _ => ∀ c ∈ rest.head?, isWordChar c = false
  | _ => True

theorem next?_natural {n : Nat} (hn : n < countLimit) {rest : List Char} (hr : EndsNumber rest) :
    Token.next? (Nat.toDigits 10 n ++ rest) = some (.number (.natural n), rest) := by
  obtain ⟨c, cs, hcs⟩ := List.exists_cons_of_ne_nil (Nat.toDigits_ne_nil (n := n) (b := 10))
  have hdigit : isDigit c = true := isDigit_of_mem_toDigits (n := n) (by rw [hcs]; exact List.mem_cons_self)
  have hnumber := unsigned?_toDigits hn hr
  rw [hcs, List.cons_append] at hnumber ⊢
  have hne : ∀ d, isDigit d = false → c ≠ d := by
    rintro d hd rfl
    rw [hdigit] at hd
    cases hd
  have hpunctuation : punctuation? c = none := by
    unfold punctuation?
    split <;> first | rfl | exact absurd rfl (hne _ (by decide))
  have hword : isWordChar c = false := by
    simp only [isDigit, Bool.and_eq_true, decide_eq_true_eq] at hdigit
    simp only [isWordChar, Bool.or_eq_false_iff, Bool.and_eq_false_iff, decide_eq_false_iff_not]
    exact ⟨.inl fun h => absurd (Char.le_trans h hdigit.2) (by decide),
      .inl fun h => absurd (Char.le_trans h hdigit.2) (by decide)⟩
  have hread : number? (c :: (cs ++ rest)) = unsigned? false (c :: (cs ++ rest)) := by
    rw [number?.eq_def]
    split
    · next heq => exact absurd (List.cons.inj heq).1 (hne _ (by decide))
    · rfl
  simp only [Token.next?, hpunctuation, hne '"' (by decide), if_false, hword, Bool.false_eq_true, hread, hnumber]
  rfl

theorem next?_word {w : String} (hw : w ∈ ["null", "true", "false"]) {rest : List Char}
    (hr : ∀ c ∈ rest.head?, isWordChar c = false) :
    Token.next? (w.toList ++ rest) = some (.word w, rest) := by
  have hnone : rest.takeWhile isWordChar = [] ∧ rest.dropWhile isWordChar = rest := by
    cases rest with
    | nil => exact ⟨rfl, rfl⟩
    | cons c cs => simp [hr c rfl]
  have hread : ∀ c cs, punctuation? c = none → c ≠ '"' → (c :: cs).all isWordChar = true →
      Token.next? (c :: cs ++ rest) = some (.word (String.ofList (c :: cs)), rest) := by
    intro c cs hpunctuation hquote hword
    have hall := List.all_eq_true.1 hword
    have hrest : ∀ d ∈ cs, isWordChar d = true := fun d hd => hall d (List.mem_cons_of_mem _ hd)
    simp only [List.cons_append, Token.next?, hpunctuation, hquote, if_false, hall c List.mem_cons_self, if_true,
      List.takeWhile_append_of_pos hrest, List.dropWhile_append_of_pos hrest, hnone.1, hnone.2, List.append_nil]
  simp only [List.mem_cons, List.not_mem_nil, or_false] at hw
  rcases hw with rfl | rfl | rfl
  · exact hread 'n' ['u', 'l', 'l'] rfl (by decide) (by decide)
  · exact hread 't' ['r', 'u', 'e'] rfl (by decide) (by decide)
  · exact hread 'f' ['a', 'l', 's', 'e'] rfl (by decide) (by decide)

/-- A written token is read back. -/
theorem next?_written {t : Token} (ht : t.Proper) {rest : List Char} (hr : t.EndedBy rest) :
    Token.next? (t.written ++ rest) = some (t, rest) := by
  cases t with
  | text s =>
    have h := unquote_flatMap_escape s.toList [] rest
    rw [List.reverse_nil, List.nil_append] at h
    have hhead : ∀ cs text, unquote [] cs = some (text, rest) →
        Token.next? ('"' :: cs) = some (.text (String.ofList text), rest) := by
      intro cs text hcs
      change Option.map _ (unquote [] cs) = _
      rw [hcs, Option.map_some]
    rw [Token.written, quote, List.cons_append, List.append_assoc, List.singleton_append, hhead _ _ h, String.ofList_toList]
  | number n =>
    cases n with
    | natural n => exact next?_natural ht hr
    | _ => exact ht.elim
  | word w => exact next?_word ht hr
  | _ => rfl

theorem written_head {t : Token} (ht : t.Proper) : ∃ c cs, t.written = c :: cs ∧ isSpace c = false := by
  cases t with
  | number n =>
    cases n with
    | natural n =>
      obtain ⟨c, cs, hcs⟩ := List.exists_cons_of_ne_nil (Nat.toDigits_ne_nil (n := n) (b := 10))
      have hdigit : isDigit c = true := isDigit_of_mem_toDigits (n := n) (by rw [hcs]; exact List.mem_cons_self)
      refine ⟨c, cs, hcs, ?_⟩
      rw [Bool.eq_false_iff]
      intro hspace
      simp only [isSpace, Bool.or_eq_true, beq_iff_eq] at hspace
      rcases hspace with ((rfl | rfl) | rfl) | rfl <;> exact absurd hdigit (by decide)
    | _ => exact ht.elim
  | word w =>
    simp only [Token.Proper, List.mem_cons, List.not_mem_nil, or_false] at ht
    rcases ht with rfl | rfl | rfl <;> exact ⟨_, _, rfl, by decide⟩
  | _ => exact ⟨_, _, rfl, by decide⟩

/-- Proper tokens, none of which the next one continues. -/
def Spaced : List Token → Prop
  | [] => True
  | t :: ts => t.Proper ∧ t.EndedBy (ts.flatMap Token.written) ∧ Spaced ts

theorem tokensBy_written {ts : List Token} (h : Spaced ts) {fuel : Nat} (read : List Token)
    (hfuel : (ts.flatMap Token.written).length < fuel) :
    tokensBy (fun text => some (text.dropWhile isSpace)) Token.next? fuel (ts.flatMap Token.written) read =
      some (read.reverse ++ ts) := by
  induction ts generalizing fuel read with
  | nil =>
    obtain ⟨fuel, rfl⟩ := Nat.exists_eq_add_of_lt hfuel
    simp [tokensBy]
  | cons t ts ih =>
    obtain ⟨ht, hended, hts⟩ := h
    obtain ⟨c, cs, hcs, hspace⟩ := written_head ht
    have hnext := next?_written ht hended
    rw [List.flatMap_cons] at hfuel ⊢
    rw [List.length_append, hcs, List.length_cons] at hfuel
    obtain ⟨fuel, rfl⟩ : ∃ k, fuel = k + 1 := ⟨fuel - 1, by omega⟩
    rw [hcs, List.cons_append] at hnext ⊢
    rw [tokensBy, List.dropWhile_cons_of_neg (by simp [hspace])]
    simp only [hnext]
    rw [ih hts (t :: read) (by omega), List.reverse_cons, List.append_assoc]
    rfl

theorem tokens?_written {ts : List Token} (h : Spaced ts) : tokens? (ts.flatMap Token.written) = some ts :=
  tokensBy_written h [] (Nat.lt_succ_self _)

end CodeIndex.Json
