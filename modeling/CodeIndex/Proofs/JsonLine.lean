import CodeIndex.Proofs.CacheText

set_option autoImplicit false

/-!
# Values on one line

Strings are written without control characters, and so are numbers.  A number that is only known by its text was read from
such a text: nothing but digits, signs, a point and the mark of an exponent.  A value that was read is thus written on one
line.
-/

namespace CodeIndex.Json

/-! ## Text without control characters -/

def Printable (cs : List Char) : Prop := ∀ c ∈ cs, 0x20 ≤ c.toNat

@[simp] theorem printable_nil : Printable [] := nofun

@[simp] theorem printable_cons {c : Char} {cs : List Char} : Printable (c :: cs) ↔ 0x20 ≤ c.toNat ∧ Printable cs :=
  List.forall_mem_cons

@[simp] theorem printable_append {xs ys : List Char} : Printable (xs ++ ys) ↔ Printable xs ∧ Printable ys :=
  List.forall_mem_append

theorem Printable.newline_notMem {cs : List Char} (h : Printable cs) : '\n' ∉ cs := fun hmem =>
  absurd (h _ hmem) (by decide)

theorem printable_of_isDigit {cs : List Char} (h : ∀ c ∈ cs, isDigit c = true) : Printable cs := by
  intro c hc
  have hdigit := h c hc
  simp only [isDigit, Bool.and_eq_true, decide_eq_true_eq] at hdigit
  exact le_trans (by decide : 0x20 ≤ '0'.toNat) hdigit.1

theorem printable_takeWhile_isDigit (cs : List Char) : Printable (cs.takeWhile isDigit) :=
  printable_of_isDigit fun _ hc => List.all_eq_true.1 List.all_takeWhile _ hc

theorem printable_hexDigit {n : Nat} (h : n < 16) : 0x20 ≤ (Text.hexDigit n).toNat := by
  have hall : ∀ k : Fin 16, 0x20 ≤ (Text.hexDigit k).toNat := by decide
  exact hall ⟨n, h⟩

theorem printable_escape (c : Char) : Printable (escape c) := by
  unfold escape
  iterate 7
    split
    · simp
  split
  · next h =>
    have hhigh := printable_hexDigit (n := c.toNat / 16) (by omega)
    have hlow := printable_hexDigit (n := c.toNat % 16) (by omega)
    simp [hhigh, hlow]
  · next h => simpa using h

theorem printable_quote (s : String) : Printable (quote s) := by
  have hescaped : Printable (s.toList.flatMap escape) := by
    intro c hc
    obtain ⟨d, -, hd⟩ := List.mem_flatMap.1 hc
    exact printable_escape d c hd
  simp [quote, hescaped]

/-! ## Values -/

/-- The compact text of the value has no control characters. -/
def OneLine (j : Json) : Prop := Printable (j.tokens.flatMap Token.written)

theorem OneLine.newline_notMem {j : Json} (h : j.OneLine) : '\n' ∉ j.render.toList := by
  rw [render, String.toList_ofList]
  exact Printable.newline_notMem h

@[simp] theorem oneLine_null : OneLine .null := by simp [OneLine, tokens, Token.written]

@[simp] theorem oneLine_bool (b : Bool) : (bool b).OneLine := by cases b <;> simp [OneLine, tokens, Token.written]

@[simp] theorem oneLine_natural (n : Nat) : (natural n).OneLine := by
  have hdigits := printable_of_isDigit fun c (hc : c ∈ Nat.toDigits 10 n) => isDigit_of_mem_toDigits hc
  simpa [OneLine, tokens, Token.written, numberText] using hdigits

@[simp] theorem oneLine_negative (n : Nat) : (negative n).OneLine := by
  have hdigits := printable_of_isDigit fun c (hc : c ∈ Nat.toDigits 10 n) => isDigit_of_mem_toDigits hc
  simpa [OneLine, tokens, Token.written, numberText] using hdigits

@[simp] theorem oneLine_decimal {text : String} : (decimal text).OneLine ↔ Printable text.toList := by
  simp [OneLine, tokens, Token.written, numberText]

@[simp] theorem oneLine_string (s : String) : (string s).OneLine := by
  simpa [OneLine, tokens, Token.written] using printable_quote s

theorem printable_tokensOfItems {items : List Json} :
    Printable ((tokensOfItems items).flatMap Token.written) ↔ ∀ j ∈ items, j.OneLine := by
  induction items with
  | nil => simp [tokensOfItems, Token.written]
  | cons item rest ih =>
    cases rest with
    | nil => simp [tokensOfItems, Token.written, OneLine]
    | cons next rest =>
      rw [tokensOfItems_cons, List.flatMap_append, List.flatMap_cons, printable_append, printable_append, ih,
        List.forall_mem_cons (a := item)]
      simp [Token.written, OneLine]

theorem printable_tokensOfMembers {ms : List (String × Json)} :
    Printable ((tokensOfMembers ms).flatMap Token.written) ↔ ∀ m ∈ ms, m.2.OneLine := by
  induction ms with
  | nil => simp [tokensOfMembers, Token.written]
  | cons m rest ih =>
    obtain ⟨key, value⟩ := m
    cases rest with
    | nil => simp [tokensOfMembers, Token.written, OneLine, printable_quote]
    | cons next rest =>
      rw [tokensOfMembers_cons, List.forall_mem_cons (a := (key, value)), ← ih]
      simp [Token.written, OneLine, printable_quote]

@[simp] theorem oneLine_array {items : List Json} : (array items).OneLine ↔ ∀ j ∈ items, j.OneLine := by
  rw [OneLine, tokens, List.flatMap_cons, printable_append, printable_tokensOfItems]
  simp [Token.written]

@[simp] theorem oneLine_object {ms : List (String × Json)} : (object ms).OneLine ↔ ∀ m ∈ ms, m.2.OneLine := by
  rw [OneLine, tokens, List.flatMap_cons, printable_append, printable_tokensOfMembers]
  simp [Token.written]

mutual

theorem oneLine_canonical {j : Json} (h : j.OneLine) : (canonical j).OneLine := by
  cases j with
  | array items =>
    rw [canonical, oneLine_array]
    exact oneLine_canonicalItems (oneLine_array.1 h)
  | object ms =>
    rw [canonical, oneLine_object]
    intro m hm
    exact oneLine_canonicalMembers (oneLine_object.1 h) m (Dict.mem_of_get?_ofList (Dict.mem_toList'.1 hm))
  | _ => simpa only [canonical] using h

theorem oneLine_canonicalItems {items : List Json} (h : ∀ j ∈ items, j.OneLine) : ∀ j ∈ canonicalItems items, j.OneLine := by
  cases items with
  | nil => nofun
  | cons item rest =>
    rw [List.forall_mem_cons] at h
    rw [canonicalItems, List.forall_mem_cons]
    exact ⟨oneLine_canonical h.1, oneLine_canonicalItems h.2⟩

theorem oneLine_canonicalMembers {ms : List (String × Json)} (h : ∀ m ∈ ms, m.2.OneLine) :
    ∀ m ∈ canonicalMembers ms, m.2.OneLine := by
  cases ms with
  | nil => nofun
  | cons m rest =>
    rw [List.forall_mem_cons] at h
    rw [canonicalMembers, List.forall_mem_cons]
    exact ⟨oneLine_canonical h.1, oneLine_canonicalMembers h.2⟩

end

/-! ## Numbers that are read -/

theorem printable_of_whole? {text whole rest : List Char} (h : whole? text = some (whole, rest)) : Printable whole := by
  unfold whole? at h
  split at h
  · cases h
    simp
  · dsimp only at h
    split at h
    · cases h
    · cases h
      exact printable_takeWhile_isDigit _

theorem printable_of_fraction? {text frac rest : List Char} (h : fraction? text = some (frac, rest)) : Printable frac := by
  unfold fraction? at h
  split at h
  · dsimp only at h
    split at h
    · cases h
    · cases h
      exact printable_cons.2 ⟨by decide, printable_takeWhile_isDigit _⟩
  · cases h
    exact printable_nil

theorem printable_of_exponent? {text exp rest : List Char} (h : exponent? text = some (exp, rest)) : Printable exp := by
  unfold exponent? at h
  split at h
  · next e more =>
    split at h
    · next he =>
      have hmark : 0x20 ≤ e.toNat := by rcases he with rfl | rfl <;> decide
      have hsigned : ∀ sign digits : List Char, Printable sign →
          (if (digits.takeWhile isDigit).isEmpty then none
            else some (e :: sign ++ digits.takeWhile isDigit, digits.dropWhile isDigit)) = some (exp, rest) →
          Printable exp := by
        intro sign digits hsign heq
        split at heq
        · cases heq
        · cases heq
          exact printable_cons.2 ⟨hmark, printable_append.2 ⟨hsign, printable_takeWhile_isDigit _⟩⟩
      dsimp only at h
      split at h <;> exact hsigned _ _ (by simp) h
    · cases h
      exact printable_nil
  · cases h
    exact printable_nil

theorem oneLine_numberOf (minus : Bool) {whole tail : List Char} (hwhole : Printable whole) (htail : Printable tail) :
    (numberOf minus whole tail).OneLine := by
  unfold numberOf
  dsimp only
  split
  · exact oneLine_natural _
  · split
    · exact oneLine_negative _
    · rw [oneLine_decimal, String.toList_ofList, printable_append, printable_append]
      refine ⟨⟨?_, hwhole⟩, htail⟩
      cases minus <;> simp

theorem oneLine_of_unsigned? {minus : Bool} {text rest : List Char} {n : Json}
    (h : unsigned? minus text = some (n, rest)) : n.OneLine := by
  simp only [unsigned?, Option.bind_eq_bind, Option.bind_eq_some_iff, Prod.exists] at h
  obtain ⟨whole, more, hwhole, frac, more', hfrac, exp, more'', hexp, heq⟩ := h
  cases heq
  exact oneLine_numberOf minus (printable_of_whole? hwhole)
    (printable_append.2 ⟨printable_of_fraction? hfrac, printable_of_exponent? hexp⟩)

theorem oneLine_of_number? {text rest : List Char} {n : Json} (h : number? text = some (n, rest)) : n.OneLine := by
  unfold number? at h
  split at h <;> exact oneLine_of_unsigned? h

/-! ## Values that are read -/

/-- A number is written on one line. -/
def Token.OneLine (t : Token) : Prop := ∀ n, t = .number n → n.OneLine

theorem oneLine_of_next? {text rest : List Char} {t : Token} (h : Token.next? text = some (t, rest)) : t.OneLine := by
  rintro n rfl
  cases text with
  | nil => cases h
  | cons c cs =>
    rw [Token.next?] at h
    split at h
    · next token hpunctuation =>
      cases h
      unfold punctuation? at hpunctuation
      split at hpunctuation <;> cases hpunctuation
    · split at h
      · obtain ⟨⟨s, more⟩, -, heq⟩ := Option.map_eq_some_iff.1 h
        cases heq
      · split at h
        · cases h
        · obtain ⟨⟨n', more⟩, hnumber, heq⟩ := Option.map_eq_some_iff.1 h
          cases heq
          exact oneLine_of_number? hnumber

theorem oneLine_of_tokensBy {skip : List Char → Option (List Char)} {fuel : Nat} {text : List Char} {read ts : List Token}
    (hread : ∀ t ∈ read, t.OneLine) (h : tokensBy skip Token.next? fuel text read = some ts) : ∀ t ∈ ts, t.OneLine := by
  induction fuel generalizing text read with
  | zero => cases h
  | succ fuel ih =>
    rw [tokensBy] at h
    split at h
    · cases h
    · cases h
      exact fun t ht => hread t (List.mem_reverse.1 ht)
    · split at h
      · cases h
      · next hnext => exact ih (List.forall_mem_cons.2 ⟨oneLine_of_next? hnext, hread⟩) h

namespace Grammar

/-- What was read of a part is written on one line. -/
def Part.OneLine : Part → Prop
  | .value => True
  | .items read _ => ∀ j ∈ read, j.OneLine
  | .members read _ => ∀ m ∈ read, m.2.OneLine

theorem Part.oneLine_value : Part.value.OneLine := trivial

theorem Part.oneLine_items {item : Json} {read : List Json} {after after' : Bool} (hitem : item.OneLine)
    (h : (Part.items read after).OneLine) : (Part.items (item :: read) after').OneLine :=
  List.forall_mem_cons.2 ⟨hitem, h⟩

theorem Part.oneLine_members {key : String} {value : Json} {read : List (String × Json)} {after after' : Bool}
    (hvalue : value.OneLine) (h : (Part.members read after).OneLine) :
    (Part.members ((key, value) :: read) after').OneLine :=
  List.forall_mem_cons.2 ⟨hvalue, h⟩

theorem oneLine_of_word? {w : String} {j : Json} (h : Grammar.plain.word? w = some j) : j.OneLine := by
  unfold word? at h
  split at h
  · cases h
    exact oneLine_null
  · split at h
    · cases h
      exact oneLine_bool true
    · split at h
      · cases h
        exact oneLine_bool false
      · cases h

/-- A value is made of tokens, and what is left are tokens of the same text. -/
theorem oneLine_of_read? {fuel : Nat} {part : Part} {ts rest : List Token} {j : Json} (hts : ∀ t ∈ ts, t.OneLine)
    (hpart : part.OneLine) (h : Grammar.plain.read? fuel part ts = some (j, rest)) :
    j.OneLine ∧ ∀ t ∈ rest, t.OneLine := by
  -- On the fuel, as the reader calls itself; the tokens that are left are carried along, for the next part reads on there.
  induction fuel generalizing part ts j rest with
  | zero => cases h
  | succ fuel ih =>
    cases part with
    | value =>
      rw [read?.eq_def] at h
      dsimp only at h
      split at h
      · cases h
        exact ⟨oneLine_string _, (List.forall_mem_cons.1 hts).2⟩
      · cases h
        exact ⟨(List.forall_mem_cons.1 hts).1 _ rfl, (List.forall_mem_cons.1 hts).2⟩
      · obtain ⟨v, hword, heq⟩ := Option.map_eq_some_iff.1 h
        cases heq
        exact ⟨oneLine_of_word? hword, (List.forall_mem_cons.1 hts).2⟩
      · exact ih (List.forall_mem_cons.1 hts).2 (by exact List.forall_mem_nil _) h
      · exact ih (List.forall_mem_cons.1 hts).2 (by exact List.forall_mem_nil _) h
      · cases h
    | items read after =>
      rw [read?.eq_def] at h
      dsimp only at h
      split at h
      · split at h
        · cases h
        · cases h
          exact ⟨by simpa [Part.OneLine] using hpart, (List.forall_mem_cons.1 hts).2⟩
      · split at h
        · next item more hitem =>
          obtain ⟨hone, hmore⟩ := ih hts Part.oneLine_value hitem
          cases h
          refine ⟨?_, (List.forall_mem_cons.1 hmore).2⟩
          simp only [List.reverse_cons, oneLine_array, List.mem_append, List.mem_reverse, List.mem_singleton]
          rintro j (hj | rfl)
          · exact hpart j hj
          · exact hone
        · next item more hitem =>
          obtain ⟨hone, hmore⟩ := ih hts Part.oneLine_value hitem
          exact ih (List.forall_mem_cons.1 hmore).2 (Part.oneLine_items hone hpart) h
        · cases h
    | members read after =>
      rw [read?.eq_def] at h
      dsimp only at h
      split at h
      · split at h
        · cases h
        · cases h
          exact ⟨by simpa [Part.OneLine] using hpart, (List.forall_mem_cons.1 hts).2⟩
      · split at h
        · cases h
        · have hrest := (List.forall_mem_cons.1 (List.forall_mem_cons.1 hts).2).2
          split at h
          · next value more hvalue =>
            obtain ⟨hone, hmore⟩ := ih hrest Part.oneLine_value hvalue
            cases h
            refine ⟨?_, (List.forall_mem_cons.1 hmore).2⟩
            simp only [List.reverse_cons, oneLine_object, List.mem_append, List.mem_reverse, List.mem_singleton]
            rintro m (hm | rfl)
            · exact hpart m hm
            · exact hone
          · next value more hvalue =>
            obtain ⟨hone, hmore⟩ := ih hrest Part.oneLine_value hvalue
            exact ih (List.forall_mem_cons.1 hmore).2 (Part.oneLine_members hone hpart) h
          · cases h
      · cases h

end Grammar

/-- A value that was read is written on one line. -/
theorem oneLine_of_read? {text : String} {j : Json} (h : read? text = some j) : j.OneLine := by
  obtain ⟨ts, hts, h⟩ := Option.bind_eq_some_iff.1 h
  unfold Grammar.ofTokens? at h
  split at h
  · next hread =>
    cases h
    exact (Grammar.oneLine_of_read? (oneLine_of_tokensBy (List.forall_mem_nil _) hts) Grammar.Part.oneLine_value hread).1
  · cases h

end CodeIndex.Json
