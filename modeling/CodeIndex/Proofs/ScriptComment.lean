import CodeIndex.Source.Script
import Mathlib.Data.List.Infix

set_option autoImplicit false

/-!
# The documentation comment before a declaration

The comment that ends right before a place is cut out from its last opening on.  That fails in one case alone: the
comment is an opening and a closing that share a star.
-/

namespace CodeIndex

namespace Text

/-! ## Searching -/

theorem find?_isPrefix {needle cs : List Char} {n : Nat} (h : find? needle cs = some n) : needle <+: cs.drop n := by
  induction cs generalizing n with
  | nil =>
    rw [find?] at h
    split at h
    · next hempty =>
      rw [List.isEmpty_iff.1 hempty]
      exact List.nil_prefix
    · cases h
  | cons c cs ih =>
    rw [find?] at h
    split at h
    · next hpre =>
      cases h
      exact List.isPrefixOf_iff_prefix.1 hpre
    · obtain ⟨m, hm, rfl⟩ := Option.map_eq_some_iff.1 h
      exact ih hm

theorem find?_le {needle cs : List Char} {n : Nat} (h : find? needle cs = some n) : n + needle.length ≤ cs.length := by
  induction cs generalizing n with
  | nil =>
    rw [find?] at h
    split at h
    · next hempty =>
      cases h
      simp [List.isEmpty_iff.1 hempty]
    · cases h
  | cons c cs ih =>
    rw [find?] at h
    split at h
    · next hpre =>
      cases h
      rw [Nat.zero_add]
      exact (List.isPrefixOf_iff_prefix.1 hpre).length_le
    · obtain ⟨m, hm, rfl⟩ := Option.map_eq_some_iff.1 h
      have := ih hm
      rw [List.length_cons]
      omega

theorem find?_eq_some {needle cs : List Char} {n : Nat} (h : needle <+: cs.drop n) (hfirst : ∀ m < n, ¬ needle <+: cs.drop m) :
    find? needle cs = some n := by
  induction cs generalizing n with
  | nil =>
    rw [List.drop_nil, List.prefix_nil] at h
    subst h
    cases n with
    | zero => rfl
    | succ n => exact absurd List.nil_prefix (hfirst 0 (Nat.succ_pos n))
  | cons c cs ih =>
    cases n with
    | zero => exact if_pos (List.isPrefixOf_iff_prefix.2 h)
    | succ n =>
      have hnot : ¬ needle.isPrefixOf (c :: cs) = true := mt List.isPrefixOf_iff_prefix.1 (hfirst 0 (Nat.succ_pos n))
      rw [find?, if_neg hnot, ih h fun m hm => hfirst (m + 1) (Nat.succ_lt_succ hm)]
      rfl

/-! ## Trimming the end -/

theorem trimEnd_isPrefix (cs : List Char) : trimEnd cs <+: cs := by
  rw [← List.reverse_suffix, trimEnd, dropEndWhile, List.reverse_reverse]
  exact List.dropWhile_suffix _

/-- Blanks are dropped from the last part, and from the one before only if that is all blank. -/
theorem trimEnd_append (xs ys : List Char) :
    trimEnd (xs ++ ys) = if trimEnd ys = [] then trimEnd xs else xs ++ trimEnd ys := by
  simp only [trimEnd, dropEndWhile, List.reverse_append, List.dropWhile_append, List.reverse_eq_nil_iff, List.isEmpty_iff]
  split
  · rfl
  · simp

end Text

namespace Script

open Text

/-- An opening and a closing that share a star. -/
def emptyComment : List Char := "/**/".toList

theorem findLast?_opening {before : List Char} (h : commentClosing <:+ before) :
    (∃ start, findLast? commentOpening before = some start ∧ before.length < start + 5) ↔ emptyComment <:+ before := by
  -- read from the end: after a slash and a star, the reversed opening is at once or later
  obtain ⟨text, rfl⟩ := h
  have hreverse : (text ++ commentClosing).reverse = '/' :: '*' :: text.reverse := by simp [commentClosing]
  have hneedle : commentOpening.reverse = ['*', '*', '/'] := rfl
  have hfind : findLast? commentOpening (text ++ commentClosing) =
      (if ['*', '/'] <+: text.reverse then some 1 else (find? ['*', '*', '/'] text.reverse).map (· + 2)).map fun n =>
        (text ++ commentClosing).length - n - 3 := by
    rw [findLast?, hreverse, hneedle, find?, if_neg (by simp), find?]
    simp only [← List.isPrefixOf_iff_prefix]
    by_cases hstar : ['*', '/'].isPrefixOf text.reverse = true
    · simp [hstar, commentOpening]
    · simp [hstar, commentOpening, Option.map_map, Function.comp_def, Nat.add_assoc]
  have hsuffix : emptyComment <:+ text ++ commentClosing ↔ ['*', '/'] <+: text.reverse := by
    rw [← List.reverse_prefix, hreverse, show emptyComment.reverse = '/' :: '*' :: ['*', '/'] from rfl]
    simp
  have hlen : (text ++ commentClosing).length = text.length + 2 := by simp [commentClosing]
  rw [hfind, hsuffix, hlen]
  by_cases hstar : ['*', '/'] <+: text.reverse
  · have := hstar.length_le
    rw [List.length_reverse] at this
    simp only [hstar, if_true, Option.map_some, Option.some.injEq, exists_eq_left', iff_true]
    simp only [List.length_cons, List.length_nil] at this
    omega
  · simp only [hstar, if_false, iff_false, not_exists, not_and]
    intro start hstart
    obtain ⟨m, hm, rfl⟩ := Option.map_eq_some_iff.1 hstart
    obtain ⟨n, hn, rfl⟩ := Option.map_eq_some_iff.1 hm
    have := find?_le hn
    rw [List.length_reverse] at this
    simp only [List.length_cons, List.length_nil] at this
    omega

/-- The comment before a place cannot be cut out just if it is the one whose delimiters share a star. -/
theorem docBefore_eq_none_iff (source : List Char) (place : Nat) :
    docBefore source place = none ↔ emptyComment <:+ trimEnd (source.take place) := by
  unfold docBefore
  dsimp only
  by_cases hclosing : commentClosing <:+ trimEnd (source.take place)
  · rw [if_neg (by simpa [List.isSuffixOf_iff_suffix] using hclosing), ← findLast?_opening hclosing]
    cases findLast? commentOpening (trimEnd (source.take place)) with
    | none => simp
    | some start =>
      by_cases hshort : (trimEnd (source.take place)).length < start + 5 <;> simp [hshort]
  · rw [if_pos (by simpa [← Bool.not_eq_true, List.isSuffixOf_iff_suffix] using hclosing)]
    refine iff_of_false nofun fun hempty => hclosing ?_
    exact (show commentClosing <:+ emptyComment from ⟨['/', '*'], rfl⟩).trans hempty

/-- In a text without such a comment, every comment can be cut out. -/
theorem docBefore_isSome {source : List Char} (h : ¬ emptyComment <:+: source) (place : Nat) :
    (docBefore source place).isSome = true := by
  rw [Option.isSome_iff_ne_none, ne_eq, docBefore_eq_none_iff]
  intro hempty
  exact h ((hempty.isInfix.trans (trimEnd_isPrefix _).isInfix).trans (List.take_prefix _ _).isInfix)

end Script

end CodeIndex
