import CodeIndex.Text.Basic
import Mathlib.Data.List.Sort

set_option autoImplicit false

/-!
# Strings in order, each once

`sortedSet` keeps what a list says about membership and forgets the rest: it is the one strictly increasing
list with the members of the given one.
-/

namespace CodeIndex.Text

theorem pairwise_le_mergeSort (names : List String) :
    (names.mergeSort fun a b => decide (a ≤ b)).Pairwise (· ≤ ·) := by
  have h : (names.mergeSort fun a b => decide (a ≤ b)).Pairwise fun a b => decide (a ≤ b) = true :=
    List.pairwise_mergeSort (fun a b c hab hbc => by
        simp only [decide_eq_true_eq] at hab hbc ⊢
        exact String.le_trans hab hbc)
      (fun a b => by simpa only [Bool.or_eq_true, decide_eq_true_eq] using String.le_total a b) names
  exact h.imp fun hab => by simpa using hab

/-- A list in order is what every rearrangement of it is sorted to. -/
theorem mergeSort_eq_of_perm {xs ys : List String} (hperm : xs.Perm ys) (h : ys.Pairwise (· ≤ ·)) :
    (xs.mergeSort fun a b => decide (a ≤ b)) = ys :=
  ((List.mergeSort_perm _ _).trans hperm).eq_of_pairwise (fun _ _ _ _ => String.le_antisymm) (pairwise_le_mergeSort xs) h

theorem mergeSort_congr {xs ys : List String} (h : xs.Perm ys) :
    (xs.mergeSort fun a b => decide (a ≤ b)) = ys.mergeSort fun a b => decide (a ≤ b) :=
  mergeSort_eq_of_perm (h.trans (List.mergeSort_perm _ _).symm) (pairwise_le_mergeSort ys)

theorem mem_dedupe {names : List String} {name : String} : name ∈ sortedSet.dedupe names ↔ name ∈ names := by
  fun_induction sortedSet.dedupe names with
  | case1 => rfl
  | case2 a => rfl
  | case3 a rest ih => simp_all
  | case4 a b rest hne ih => simp_all

theorem pairwise_lt_dedupe {names : List String} (h : names.Pairwise (· ≤ ·)) :
    (sortedSet.dedupe names).Pairwise (· < ·) := by
  fun_induction sortedSet.dedupe names with
  | case1 => exact List.Pairwise.nil
  | case2 a => exact List.pairwise_singleton _ _
  | case3 a rest ih => exact ih (List.pairwise_cons.1 h).2
  | case4 a b rest hne ih =>
    obtain ⟨hhead, hrest⟩ := List.pairwise_cons.1 h
    refine List.pairwise_cons.2 ⟨fun name hname => ?_, ih hrest⟩
    have hab : a < b := Std.lt_of_le_of_ne (hhead b (by simp)) hne
    rcases List.mem_cons.1 (mem_dedupe.1 hname) with rfl | hmem
    · exact hab
    · exact Std.lt_of_lt_of_le hab ((List.pairwise_cons.1 hrest).1 name hmem)

theorem mem_sortedSet {names : List String} {name : String} : name ∈ sortedSet names ↔ name ∈ names := by
  rw [sortedSet, mem_dedupe, List.mem_mergeSort]

theorem pairwise_sortedSet (names : List String) : (sortedSet names).Pairwise (· < ·) :=
  pairwise_lt_dedupe (pairwise_le_mergeSort names)

theorem nodup_of_pairwise_lt {names : List String} (h : names.Pairwise (· < ·)) : names.Nodup :=
  h.imp Std.ne_of_lt

theorem nodup_sortedSet (names : List String) : (sortedSet names).Nodup :=
  nodup_of_pairwise_lt (pairwise_sortedSet names)

/-- A strictly increasing list is known by its members. -/
theorem eq_of_mem_iff {xs ys : List String} (hx : xs.Pairwise (· < ·)) (hy : ys.Pairwise (· < ·))
    (h : ∀ name, name ∈ xs ↔ name ∈ ys) : xs = ys := by
  have hperm : xs.Perm ys := (List.perm_ext_iff_of_nodup (nodup_of_pairwise_lt hx) (nodup_of_pairwise_lt hy)).2 h
  exact hperm.eq_of_pairwise (fun a b _ _ hab hba => absurd hba (String.lt_asymm hab)) hx hy

theorem sortedSet_congr {xs ys : List String} (h : ∀ name, name ∈ xs ↔ name ∈ ys) : sortedSet xs = sortedSet ys :=
  eq_of_mem_iff (pairwise_sortedSet xs) (pairwise_sortedSet ys)
    fun name => by rw [mem_sortedSet, mem_sortedSet, h]

theorem sortedSet_perm {names : List String} (h : names.Nodup) : (sortedSet names).Perm names :=
  (List.perm_ext_iff_of_nodup (nodup_sortedSet names) h).2 fun _ => mem_sortedSet

/-- Sorting what has no repetitions makes it strictly increasing. -/
theorem pairwise_lt_mergeSort {names : List String} (h : names.Nodup) :
    (names.mergeSort fun a b => decide (a ≤ b)).Pairwise (· < ·) := by
  have hnodup : (names.mergeSort fun a b => decide (a ≤ b)).Nodup := (List.mergeSort_perm _ _).nodup_iff.2 h
  exact (pairwise_le_mergeSort names).imp₂ (fun _ _ hle hne => Std.lt_of_le_of_ne hle hne) hnodup

theorem sortedSet_eq_nil {names : List String} : sortedSet names = [] ↔ names = [] := by
  simp only [List.eq_nil_iff_forall_not_mem, mem_sortedSet]

end CodeIndex.Text
