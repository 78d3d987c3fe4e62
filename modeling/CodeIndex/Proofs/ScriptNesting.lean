import CodeIndex.Proofs.ScriptPlaces

set_option autoImplicit false

/-!
# Brackets within brackets

Reading for a closing bracket comes to the brackets in between too.  Where it sees code, a reading that starts there
sees what it sees, with fewer brackets open, and so an inner bracket closes before the outer one does.
-/

namespace CodeIndex.Script

variable {opener closer : Char} {region : Region} {depth close : Nat} {text : List Char}

/-- The region that reading has come to after so many characters of a text. -/
def Region.reach : Region → Nat → List Char → Region
  | region, 0, _ => region
  | region, _ + 1, [] => region
  | region, n + 1, c :: rest => (region.after rest.head? c).reach n rest

/-- The region of a place, for a reading that starts at another one in code. -/
def regionAt (source : List Char) (start place : Nat) : Region := Region.code.reach (place - start) (source.drop start)

/-- How a bracket is found beyond the first character: more are open after an opening one, fewer after a closing one. -/
theorem closingFrom?_cons_eq_some {c : Char} (h : closingFrom? opener closer region depth (c :: text) = some close) :
    (region = .code ∧ c = closer ∧ c ≠ opener ∧ depth ≤ 1 ∧ close = 0) ∨
      ∃ depth' rest, closingFrom? opener closer (region.after text.head? c) depth' text = some rest ∧ close = rest + 1 ∧
        ((region = .code ∧ c = opener ∧ depth' = depth + 1) ∨
          (region = .code ∧ c = closer ∧ c ≠ opener ∧ 1 < depth ∧ depth' + 1 = depth) ∨
          (¬ (region = .code ∧ c = opener) ∧ ¬ (region = .code ∧ c = closer) ∧ depth' = depth)) := by
  simp only [closingFrom?, Bool.and_eq_true, decide_eq_true_eq] at h
  split at h
  · next hopen =>
    obtain ⟨rest, hrest, rfl⟩ := Option.map_eq_some_iff.1 h
    exact .inr ⟨_, rest, hrest, rfl, .inl ⟨hopen.1, hopen.2, rfl⟩⟩
  · next hopen =>
    split at h
    · next hclose =>
      have hne : c ≠ opener := fun heq => hopen ⟨hclose.1, heq⟩
      split at h
      · next hlast =>
        cases h
        exact .inl ⟨hclose.1, hclose.2, hne, hlast, rfl⟩
      · obtain ⟨rest, hrest, rfl⟩ := Option.map_eq_some_iff.1 h
        exact .inr ⟨_, rest, hrest, rfl, .inr (.inl ⟨hclose.1, hclose.2, hne, by omega, by omega⟩)⟩
    · next hclose =>
      obtain ⟨rest, hrest, rfl⟩ := Option.map_eq_some_iff.1 h
      exact .inr ⟨_, rest, hrest, rfl, .inr (.inr ⟨hopen, hclose, rfl⟩)⟩

/-- Up to the closing bracket, at least one stays open. -/
theorem closingFrom?_reach {n : Nat} (h : closingFrom? opener closer region depth text = some close) (hdepth : 1 ≤ depth)
    (hn : n ≤ close) :
    ∃ depth', 1 ≤ depth' ∧ closingFrom? opener closer (region.reach n text) depth' (text.drop n) = some (close - n) := by
  -- by the characters read; `1 ≤ depth` is kept, since the bracket that would leave none open is the one at `close`
  induction n generalizing region depth text close with
  | zero => exact ⟨depth, hdepth, h⟩
  | succ n ih =>
    cases text with
    | nil => cases h
    | cons c text =>
      rcases closingFrom?_cons_eq_some h with ⟨-, -, -, -, rfl⟩ | ⟨depth', rest, hrest, rfl, hcases⟩
      · omega
      · have hopen : 1 ≤ depth' := by rcases hcases with ⟨-, -, h⟩ | ⟨-, -, -, _, h⟩ | ⟨-, -, h⟩ <;> omega
        rw [Nat.add_sub_add_right]
        exact ih hrest hopen (by omega)

/-- With fewer brackets open, the last one closes sooner. -/
theorem closingFrom?_fewer {more : Nat} (h : closingFrom? opener closer region (depth + more) text = some close)
    (hdepth : 1 ≤ depth) (hmore : 1 ≤ more) : ∃ sooner < close, closingFrom? opener closer region depth text = some sooner := by
  -- both readings see the same regions, so `more` brackets stay between them until the one with fewer is done
  induction text generalizing region depth close with
  | nil => cases h
  | cons c text ih =>
    rcases closingFrom?_cons_eq_some h with ⟨-, -, -, hlast, -⟩ | ⟨depth', rest, hrest, rfl, hcases⟩
    · omega
    rcases hcases with ⟨hcode, hc, heq⟩ | ⟨hcode, hc, hne, -, heq⟩ | ⟨hopen, hclose, rfl⟩
    · have hmany : closingFrom? opener closer (region.after text.head? c) (depth + 1 + more) text = some rest := by
        rw [← hrest, heq, Nat.add_right_comm]
      obtain ⟨sooner, hlt, hsooner⟩ := ih hmany (Nat.le_add_left 1 depth)
      exact ⟨sooner + 1, by omega, by simp [closingFrom?, hcode, hc, ← hsooner]⟩
    · by_cases hlast : depth ≤ 1
      · exact ⟨0, by omega, by simp [closingFrom?, hcode, hc, hc ▸ hne, hlast]⟩
      · have hmany : closingFrom? opener closer (region.after text.head? c) (depth - 1 + more) text = some rest := by
          rw [← hrest, show depth - 1 + more = depth' by omega]
        obtain ⟨sooner, hlt, hsooner⟩ := ih hmany (by omega)
        exact ⟨sooner + 1, by omega, by simp [closingFrom?, hcode, hc, hc ▸ hne, hlast, ← hsooner]⟩
    · obtain ⟨sooner, hlt, hsooner⟩ := ih hrest hdepth
      refine ⟨sooner + 1, by omega, ?_⟩
      simp only [closingFrom?, Bool.and_eq_true, decide_eq_true_eq, if_neg hopen, if_neg hclose, hsooner, Option.map_some]

theorem closingAt?_inner {source : List Char} {opened inner : Nat} (hafter : ∀ next, Region.after next opener .code = .code)
    (hopen : source[opened]? = some opener) (hclose : closingAt? opener closer source opened = some close)
    (hlt : opened < inner) (hinner : inner < close) (hbracket : source[inner]? = some opener)
    (hcode : regionAt source opened inner = .code) :
    ∃ sooner < close, closingAt? opener closer source inner = some sooner := by
  obtain ⟨n, hn, rfl⟩ := Option.map_eq_some_iff.1 hclose
  obtain ⟨m, rfl⟩ : ∃ m, inner = opened + 1 + m := ⟨inner - (opened + 1), by omega⟩
  have hhead : source.drop opened = opener :: source.drop (opened + 1) := by
    rw [List.drop_eq_getElem?_toList_append, hopen]
    rfl
  have hinnerHead : (source.drop (opened + 1)).drop m = opener :: source.drop (opened + 1 + m + 1) := by
    rw [List.drop_drop, List.drop_eq_getElem?_toList_append, hbracket]
    rfl
  rw [closing?, hhead] at hn
  rw [regionAt, hhead, show opened + 1 + m - opened = m + 1 by omega, Region.reach, hafter] at hcode
  -- the outer reading, from behind its opening bracket, and then from the inner one on
  have houter : ∃ k, closingFrom? opener closer .code 1 (source.drop (opened + 1)) = some k ∧ n = k + 1 := by
    rw [closingFrom?] at hn
    simp only [decide_true, Bool.and_self, if_true, Nat.zero_add, hafter] at hn
    obtain ⟨k, hk, rfl⟩ := Option.map_eq_some_iff.1 hn
    exact ⟨k, hk, rfl⟩
  obtain ⟨k, hk, rfl⟩ := houter
  obtain ⟨depth', hdepth, hreach⟩ := closingFrom?_reach hk (Nat.le_refl 1) (by omega : m ≤ k)
  rw [hcode, hinnerHead, closingFrom?] at hreach
  simp only [decide_true, Bool.and_self, if_true, hafter] at hreach
  obtain ⟨j, hj, hjk⟩ := Option.map_eq_some_iff.1 hreach
  rw [Nat.add_comm] at hj
  obtain ⟨sooner, hsooner, hfound⟩ := closingFrom?_fewer hj (Nat.le_refl 1) hdepth
  refine ⟨opened + 1 + m + (sooner + 1), by omega, ?_⟩
  rw [closingAt?, closing?, ← List.drop_drop, hinnerHead, closingFrom?]
  simp [hafter, hfound]

/-! ## Texts that are put together -/

/-- What follows a text does not change where a bracket closes in it, if it does not complete an opening of a comment. -/
theorem closingFrom?_append {after : List Char} (hafter : ∀ c region, Region.after after.head? c region = region.after none c)
    (region : Region) (depth : Nat) (text : List Char) :
    (∃ close < text.length, closingFrom? opener closer region depth (text ++ after) = some close ∧
        closingFrom? opener closer region depth text = some close) ∨
      closingFrom? opener closer region depth text = none ∧
        ∀ close, closingFrom? opener closer region depth (text ++ after) = some close → text.length ≤ close := by
  induction text generalizing region depth with
  | nil => exact .inr ⟨rfl, fun close _ => Nat.zero_le _⟩
  | cons c text ih =>
    have hnext : Region.after (text ++ after).head? c region = region.after text.head? c := by
      cases text with
      | nil => exact hafter c region
      | cons d text => rfl
    have hfurther : ∀ depth,
        (∃ close < (c :: text).length,
          (closingFrom? opener closer (region.after text.head? c) depth (text ++ after)).map (· + 1) = some close ∧
            (closingFrom? opener closer (region.after text.head? c) depth text).map (· + 1) = some close) ∨
          (closingFrom? opener closer (region.after text.head? c) depth text).map (· + 1) = none ∧
            ∀ close, (closingFrom? opener closer (region.after text.head? c) depth (text ++ after)).map (· + 1) = some close →
              (c :: text).length ≤ close := by
      intro depth
      rcases ih (region.after text.head? c) depth with ⟨close, hlt, hlong, hshort⟩ | ⟨hnone, hlate⟩
      · exact .inl ⟨close + 1, Nat.succ_lt_succ hlt, by rw [hlong]; rfl, by rw [hshort]; rfl⟩
      · refine .inr ⟨by rw [hnone]; rfl, fun close hclose => ?_⟩
        obtain ⟨n, hn, rfl⟩ := Option.map_eq_some_iff.1 hclose
        exact Nat.succ_le_succ (hlate n hn)
    rw [List.cons_append, closingFrom?, closingFrom?, hnext]
    dsimp only
    split
    · exact hfurther _
    · split
      · split
        · exact .inl ⟨0, Nat.succ_pos _, rfl, rfl⟩
        · exact hfurther _
      · exact hfurther _

theorem after_brace (next : Option Char) : Region.after next '\x7b' .code = .code := by
  simp [Region.after, Region.isQuote]

/-- A block that is read as code within a class body ends before the class does. -/
theorem bodyEnd_le_of_code {source : List Char} {opened closed inner : Nat} (hopen : source[opened]? = some '\x7b')
    (hclosed : closed = (closingAt? '\x7b' '\x7d' source opened).getD source.length) (hlt : opened < inner)
    (hinner : inner < closed) (hbracket : source[inner]? = some '\x7b') (hcode : regionAt source opened inner = .code) :
    bodyEnd source inner ≤ closed := by
  cases hclose : closingAt? '\x7b' '\x7d' source opened with
  | none =>
    rw [hclosed, hclose, Option.getD_none]
    exact (bodyEnd_bounds (lt_length_of_getElem? hbracket)).2
  | some close =>
    rw [hclose, Option.getD_some] at hclosed
    subst hclosed
    obtain ⟨sooner, hsooner, hfound⟩ :=
      closingAt?_inner after_brace hopen hclose hlt hinner hbracket hcode
    rw [bodyEnd, hfound, Option.map_some, Option.getD_some]
    exact hsooner

end CodeIndex.Script
