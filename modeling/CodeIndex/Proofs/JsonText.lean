import CodeIndex.Json.Text
import CodeIndex.Proofs.JsonToken

set_option autoImplicit false

/-!
# Reading back a written value

A value whose numbers are counts is read back from its text as it was, the order of members and members given twice
included.  The tokens of the text are those of the value, and the grammar takes them apart as they were put together.
-/

namespace CodeIndex.Json

mutual

/-- Every number in the value is a count. -/
def Counting : Json → Prop
  | .natural n => n < countLimit
  | .negative _ => False
  | .decimal _ => False
  | .array items => CountingItems items
  | .object members => CountingMembers members
  | _ => True

def CountingItems : List Json → Prop
  | [] => True
  | item :: rest => Counting item ∧ CountingItems rest

def CountingMembers : List (String × Json) → Prop
  | [] => True
  | (_, value) :: rest => Counting value ∧ CountingMembers rest

end

theorem countingItems_iff {items : List Json} : CountingItems items ↔ ∀ j ∈ items, j.Counting := by
  induction items with
  | nil => simp [CountingItems]
  | cons item rest ih => simp [CountingItems, ih]

theorem countingMembers_iff {members : List (String × Json)} :
    CountingMembers members ↔ ∀ m ∈ members, m.2.Counting := by
  induction members with
  | nil => simp [CountingMembers]
  | cons m rest ih => simp [CountingMembers, ih]

/-! ## Tokens -/

theorem tokensOfItems_cons (item next : Json) (rest : List Json) :
    tokensOfItems (item :: next :: rest) = tokens item ++ .comma :: tokensOfItems (next :: rest) := by
  rw [tokensOfItems]
  exact fun h => nomatch h

theorem tokensOfMembers_cons (key : String) (value : Json) (next : String × Json) (rest : List (String × Json)) :
    tokensOfMembers ((key, value) :: next :: rest) =
      .text key :: .colon :: tokens value ++ .comma :: tokensOfMembers (next :: rest) := by
  rw [tokensOfMembers]
  exact fun h => nomatch h

/-- A mark after a value: it ends whatever comes before it. -/
def Token.IsMark (t : Token) : Prop := t = .comma ∨ t = .closeArray ∨ t = .closeObject

theorem endedBy_of_isMark {t mark : Token} (h : mark.IsMark) (rest : List Char) :
    t.EndedBy (mark.written ++ rest) := by
  rcases h with rfl | rfl | rfl <;>
    · cases t with
      | number n =>
        intro c hc
        cases hc
        decide
      | word w =>
        intro c hc
        cases hc
        decide
      | _ => trivial

theorem endedBy_nil (t : Token) : t.EndedBy [] := by
  cases t with
  | number n => exact fun c hc => nomatch hc
  | word w => exact fun c hc => nomatch hc
  | _ => trivial

/-- What may follow the tokens of a value: nothing, or a mark. -/
def Follows (ts : List Token) : Prop := ∀ t ∈ ts.head?, t.IsMark

theorem Follows.endedBy {ts : List Token} (h : Follows ts) (t : Token) : t.EndedBy (ts.flatMap Token.written) := by
  cases ts with
  | nil => exact endedBy_nil t
  | cons mark rest => exact endedBy_of_isMark (h mark rfl) _

theorem follows_cons {mark : Token} (h : mark.IsMark) (ts : List Token) : Follows (mark :: ts) := by
  intro t ht
  cases ht
  exact h

/-- Punctuation and strings end by themselves. -/
theorem Spaced.cons {ts : List Token} (h : Spaced ts) (t : Token) (ht : t.Proper) (hended : ∀ rest, t.EndedBy rest) :
    Spaced (t :: ts) :=
  ⟨ht, hended _, h⟩

theorem Spaced.text {ts : List Token} (h : Spaced ts) (s : String) : Spaced (.text s :: ts) :=
  h.cons _ trivial fun _ => trivial

theorem Spaced.mark {ts : List Token} (h : Spaced ts) {mark : Token} (hm : mark.IsMark) : Spaced (mark :: ts) := by
  rcases hm with rfl | rfl | rfl <;> exact h.cons _ trivial fun _ => trivial

mutual

theorem spaced_tokens (j : Json) (hj : j.Counting) (ts : List Token) (hts : Spaced ts) (hf : Follows ts) :
    Spaced (tokens j ++ ts) := by
  cases j with
  | null => exact ⟨by simp [Token.Proper], hf.endedBy _, hts⟩
  | bool b => cases b <;> exact ⟨by simp [Token.Proper], hf.endedBy _, hts⟩
  | natural n => exact ⟨hj, hf.endedBy _, hts⟩
  | negative n => exact hj.elim
  | decimal text => exact hj.elim
  | string s => exact hts.text s
  | array items =>
    rw [tokens, List.cons_append]
    exact (spaced_tokensOfItems items hj ts hts).cons .openArray trivial fun _ => trivial
  | object members =>
    rw [tokens, List.cons_append]
    exact (spaced_tokensOfMembers members hj ts hts).cons .openObject trivial fun _ => trivial

theorem spaced_tokensOfItems (items : List Json) (h : CountingItems items) (ts : List Token) (hts : Spaced ts) :
    Spaced (tokensOfItems items ++ ts) := by
  have hclosed : Spaced (.closeArray :: ts) := hts.mark (.inr (.inl rfl))
  match items with
  | [] => exact hclosed
  | [item] =>
    rw [tokensOfItems, List.append_assoc]
    exact spaced_tokens item h.1 _ hclosed (follows_cons (.inr (.inl rfl)) _)
  | item :: next :: rest =>
    rw [tokensOfItems_cons, List.append_assoc]
    have hrest := spaced_tokensOfItems (next :: rest) h.2 ts hts
    exact spaced_tokens item h.1 _ (hrest.mark (.inl rfl)) (follows_cons (.inl rfl) _)

theorem spaced_tokensOfMembers (members : List (String × Json)) (h : CountingMembers members) (ts : List Token)
    (hts : Spaced ts) : Spaced (tokensOfMembers members ++ ts) := by
  have hclosed : Spaced (.closeObject :: ts) := hts.mark (.inr (.inr rfl))
  match members with
  | [] => exact hclosed
  | [(key, value)] =>
    rw [tokensOfMembers, List.append_assoc]
    have hvalue := spaced_tokens value h.1 _ hclosed (follows_cons (.inr (.inr rfl)) _)
    exact (hvalue.cons .colon trivial fun _ => trivial).text key
  | (key, value) :: next :: rest =>
    rw [tokensOfMembers_cons, List.append_assoc]
    have hrest := spaced_tokensOfMembers (next :: rest) h.2 ts hts
    have hvalue := spaced_tokens value h.1 _ (hrest.mark (.inl rfl)) (follows_cons (.inl rfl) _)
    exact (hvalue.cons .colon trivial fun _ => trivial).text key

end

/-! ## The grammar -/

namespace Grammar

theorem tokens_head (j : Json) : ∃ t ts, j.tokens = t :: ts ∧ t ≠ .closeArray := by
  cases j with
  | bool b => cases b <;> exact ⟨_, _, rfl, fun h => nomatch h⟩
  | _ => exact ⟨_, _, rfl, fun h => nomatch h⟩

theorem read?_items (g : Grammar) (fuel : Nat) (read : List Json) (after : Bool) {ts : List Token}
    (h : ∀ t ∈ ts.head?, t ≠ .closeArray) :
    g.read? (fuel + 1) (.items read after) ts = match g.read? fuel .value ts with
      | some (item, .closeArray :: rest) => some (.array (item :: read).reverse, rest)
      | some (item, .comma :: rest) => g.read? fuel (.items (item :: read) true) rest
      | _ => none := by
  rw [read?.eq_def]
  dsimp only
  split
  · exact absurd rfl (h _ rfl)
  · rfl

theorem read?_members (fuel : Nat) (read : List (String × Json)) (after : Bool) (key : String) (ts : List Token) :
    Grammar.plain.read? (fuel + 1) (.members read after) (.text key :: .colon :: ts) =
      match Grammar.plain.read? fuel .value ts with
      | some (value, .closeObject :: rest) => some (.object ((key, value) :: read).reverse, rest)
      | some (value, .comma :: rest) => Grammar.plain.read? fuel (.members ((key, value) :: read) true) rest
      | _ => none := rfl

mutual

theorem read?_tokens (j : Json) (hj : j.Counting) (fuel : Nat) (ts : List Token)
    (hfuel : 2 * j.tokens.length ≤ fuel + 1) : Grammar.plain.read? fuel .value (j.tokens ++ ts) = some (j, ts) := by
  obtain ⟨fuel, rfl⟩ : ∃ k, fuel = k + 1 := by
    obtain ⟨t, rest, ht, -⟩ := tokens_head j
    rw [ht, List.length_cons] at hfuel
    exact ⟨fuel - 1, by omega⟩
  cases j with
  | null => rfl
  | bool b => cases b <;> rfl
  | natural n => rfl
  | negative n => exact hj.elim
  | decimal text => exact hj.elim
  | string s => rfl
  | array items =>
    rw [tokens, List.length_cons] at hfuel
    exact read?_tokensOfItems items hj fuel [] false ts (fun _ => rfl) (by omega)
  | object members =>
    rw [tokens, List.length_cons] at hfuel
    exact read?_tokensOfMembers members hj fuel [] false ts (fun _ => rfl) (by omega)

theorem read?_tokensOfItems (items : List Json) (h : CountingItems items) (fuel : Nat) (read : List Json)
    (after : Bool) (ts : List Token) (hafter : items = [] → after = false)
    (hfuel : 2 * (tokensOfItems items).length ≤ fuel) :
    Grammar.plain.read? fuel (.items read after) (tokensOfItems items ++ ts) =
      some (.array (read.reverse ++ items), ts) := by
  match items with
  | [] =>
    obtain ⟨fuel, rfl⟩ : ∃ k, fuel = k + 1 := ⟨fuel - 1, by rw [tokensOfItems] at hfuel; simp at hfuel; omega⟩
    rw [hafter rfl, List.append_nil]
    rfl
  | [item] =>
    rw [tokensOfItems, List.length_append, List.length_singleton] at hfuel
    obtain ⟨fuel, rfl⟩ : ∃ k, fuel = k + 1 := ⟨fuel - 1, by omega⟩
    obtain ⟨t, rest, ht, hne⟩ := tokens_head item
    have hitem := read?_tokens item h.1 fuel ([.closeArray] ++ ts) (by omega)
    rw [tokensOfItems, List.append_assoc, read?_items _ _ _ _ (by rw [ht]; simpa using hne), hitem]
    simp
  | item :: next :: rest =>
    rw [tokensOfItems_cons, List.length_append, List.length_cons] at hfuel
    obtain ⟨fuel, rfl⟩ : ∃ k, fuel = k + 1 := ⟨fuel - 1, by omega⟩
    obtain ⟨t, tail, ht, hne⟩ := tokens_head item
    have hitem := read?_tokens item h.1 fuel (.comma :: tokensOfItems (next :: rest) ++ ts) (by omega)
    have hrest := read?_tokensOfItems (next :: rest) h.2 fuel (item :: read) true ts (fun h => nomatch h) (by omega)
    rw [tokensOfItems_cons, List.append_assoc, read?_items _ _ _ _ (by rw [ht]; simpa using hne), hitem]
    simpa using hrest

theorem read?_tokensOfMembers (members : List (String × Json)) (h : CountingMembers members) (fuel : Nat)
    (read : List (String × Json)) (after : Bool) (ts : List Token) (hafter : members = [] → after = false)
    (hfuel : 2 * (tokensOfMembers members).length ≤ fuel) :
    Grammar.plain.read? fuel (.members read after) (tokensOfMembers members ++ ts) =
      some (.object (read.reverse ++ members), ts) := by
  match members with
  | [] =>
    obtain ⟨fuel, rfl⟩ : ∃ k, fuel = k + 1 := ⟨fuel - 1, by rw [tokensOfMembers] at hfuel; simp at hfuel; omega⟩
    rw [hafter rfl, List.append_nil]
    rfl
  | [(key, value)] =>
    rw [tokensOfMembers, List.length_append, List.length_cons, List.length_cons, List.length_singleton] at hfuel
    obtain ⟨fuel, rfl⟩ : ∃ k, fuel = k + 1 := ⟨fuel - 1, by omega⟩
    have hvalue := read?_tokens value h.1 fuel ([.closeObject] ++ ts) (by omega)
    rw [tokensOfMembers, List.append_assoc, List.cons_append, List.cons_append, read?_members, hvalue]
    simp
  | (key, value) :: next :: rest =>
    rw [tokensOfMembers_cons, List.length_append, List.length_cons, List.length_cons, List.length_cons] at hfuel
    obtain ⟨fuel, rfl⟩ : ∃ k, fuel = k + 1 := ⟨fuel - 1, by omega⟩
    have hvalue := read?_tokens value h.1 fuel (.comma :: tokensOfMembers (next :: rest) ++ ts) (by omega)
    have hrest := read?_tokensOfMembers (next :: rest) h.2 fuel ((key, value) :: read) true ts (fun h => nomatch h)
      (by omega)
    rw [tokensOfMembers_cons, List.append_assoc, List.cons_append, List.cons_append, read?_members, hvalue]
    simpa using hrest

end

end Grammar

/-- A written value is read back as it was. -/
theorem read?_render {j : Json} (h : j.Counting) : read? j.render = some j := by
  have hspaced := spaced_tokens j h [] trivial fun t ht => nomatch ht
  rw [List.append_nil] at hspaced
  have htokens : tokens? j.render.toList = some j.tokens := by
    rw [render, String.toList_ofList]
    exact tokens?_written hspaced
  have hread := Grammar.read?_tokens j h (2 * j.tokens.length + 2) [] (by omega)
  rw [List.append_nil] at hread
  rw [read?, htokens]
  simp only [Option.bind_eq_bind, Option.bind_some, Grammar.ofTokens?, hread]

end CodeIndex.Json
