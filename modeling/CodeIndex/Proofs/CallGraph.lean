import CodeIndex.Impact
import Mathlib.Data.List.Nodup

set_option autoImplicit false

/-!
# Numbered names

A graph of calls gives each name one number and notes each caller once, under numbers that there are.  So it says
which name calls which, and nothing about the order in which the calls came.
-/

namespace CodeIndex.CallGraph

/-- Every name has one number, and callers are noted once, under numbers of names. -/
structure Sound (g : CallGraph) : Prop where
  nodup : g.names.Nodup
  length : g.callers.length = g.names.length
  known : ∀ {n c}, c ∈ g.callersOf n → c < g.names.length
  once : ∀ n, (g.callersOf n).Nodup

/-- One name calls another. -/
def Calls (g : CallGraph) (x y : String) : Prop :=
  ∃ c n, g.names[c]? = some x ∧ g.names[n]? = some y ∧ c ∈ g.callersOf n

variable {g : CallGraph} {x y name : String} {c n : Nat}

theorem number?_eq_some (h : g.names.Nodup) : g.number? name = some n ↔ g.names[n]? = some name := by
  rw [number?, List.idxOf?_eq_some_iff, List.getElem?_eq_some_iff]
  constructor
  · rintro ⟨hn, hname, -⟩
    exact ⟨hn, hname⟩
  · rintro ⟨hn, rfl⟩
    refine ⟨hn, rfl, fun j hj heq => ?_⟩
    have := h.getElem_inj_iff.1 heq
    omega

theorem number?_eq_none : g.number? name = none ↔ name ∉ g.names := by
  rw [number?, List.idxOf?_eq_none_iff]

theorem Sound.number_inj (h : g.Sound) {m : Nat} (hn : g.names[n]? = some name) (hm : g.names[m]? = some name) : n = m := by
  rw [← number?_eq_some h.nodup] at hn hm
  exact Option.some.inj (hn.symm.trans hm)

theorem Sound.callee_known (h : g.Sound) (hc : c ∈ g.callersOf n) : n < g.names.length := by
  rw [← h.length]
  by_contra hn
  rw [callersOf, List.getD_eq_getElem?_getD, List.getElem?_eq_none (by omega)] at hc
  cases hc

theorem nodup_concat {α : Type} {items : List α} {a : α} (h : items.Nodup) (ha : a ∉ items) : (items ++ [a]).Nodup :=
  List.nodup_append.2 ⟨h, List.nodup_singleton _, fun b hb b' hb' heq => ha (by simp_all)⟩

theorem sound_empty : empty.Sound :=
  ⟨List.nodup_nil, rfl, fun {n c} hc => by simp [callersOf, empty] at hc, fun n => by simp [callersOf, empty]⟩

theorem not_calls_empty : ¬ empty.Calls x y := by
  rintro ⟨c, n, hc, -⟩
  simp [empty] at hc

/-- A name that is given a number has it then, and names that had one keep it. -/
theorem number_spec (h : g.Sound) (name : String) :
    (g.number name).2.Sound ∧ (g.number name).2.names[(g.number name).1]? = some name ∧
      g.names <+: (g.number name).2.names ∧ ∀ n, (g.number name).2.callersOf n = g.callersOf n := by
  unfold number
  split
  · next n hn => exact ⟨h, (number?_eq_some h.nodup).1 hn, List.prefix_rfl, fun _ => rfl⟩
  · next hnone =>
    have hnew := number?_eq_none.1 hnone
    have hcallers : ∀ n, CallGraph.callersOf ⟨g.names ++ [name], g.callers ++ [[]]⟩ n = g.callersOf n := by
      intro n
      simp only [callersOf, List.getD_eq_getElem?_getD, List.getElem?_append]
      split
      · rfl
      · next hn =>
        rw [List.getElem?_eq_none (by omega : g.callers.length ≤ n)]
        rcases Nat.eq_zero_or_pos (n - g.callers.length) with hzero | hpos
        · simp [hzero]
        · rw [List.getElem?_eq_none (by simp only [List.length_singleton]; omega)]
    refine ⟨⟨?_, ?_, fun {n c} hc => ?_, fun n => ?_⟩, by simp, List.prefix_append _ _, hcallers⟩
    · exact nodup_concat h.nodup hnew
    · simp [h.length]
    · rw [hcallers] at hc
      have := h.known hc
      simp only [List.length_append, List.length_singleton]
      omega
    · rw [hcallers]
      exact h.once n

theorem getElem?_of_le {names names' : List String} (h : names <+: names') (hn : n < names.length) :
    names'[n]? = names[n]? := by
  obtain ⟨more, rfl⟩ := h
  exact List.getElem?_append_left hn

theorem calls_number (h : g.Sound) : (g.number name).2.Calls x y ↔ g.Calls x y := by
  obtain ⟨-, -, hle, hcallers⟩ := number_spec h name
  refine exists_congr fun c => exists_congr fun n => ?_
  rw [hcallers]
  constructor
  · rintro ⟨hx, hy, hc⟩
    rw [getElem?_of_le hle (h.known hc)] at hx
    rw [getElem?_of_le hle (h.callee_known hc)] at hy
    exact ⟨hx, hy, hc⟩
  · rintro ⟨hx, hy, hc⟩
    rw [← getElem?_of_le hle (h.known hc)] at hx
    rw [← getElem?_of_le hle (h.callee_known hc)] at hy
    exact ⟨hx, hy, hc⟩

theorem callersOf_addCaller (h : n < g.callers.length) (m : Nat) :
    (g.addCaller c n).callersOf m =
      if m = n ∧ c ∉ g.callersOf n then g.callersOf n ++ [c] else g.callersOf m := by
  simp only [addCaller, callersOf, List.getD_eq_getElem?_getD, List.getElem?_modify]
  by_cases hm : n = m
  · subst hm
    rw [List.getElem?_eq_getElem h]
    simp only [List.contains_eq_mem, decide_eq_true_eq, if_true, Option.getD_some, true_and]
    split <;> simp_all
  · rw [if_neg (fun heq => hm heq.1.symm)]
    cases g.callers[m]? <;> simp [hm]

theorem mem_callersOf_addCaller (h : n < g.callers.length) {m k : Nat} :
    k ∈ (g.addCaller c n).callersOf m ↔ k ∈ g.callersOf m ∨ m = n ∧ k = c := by
  rw [callersOf_addCaller h]
  split
  · next hnew =>
    obtain ⟨rfl, -⟩ := hnew
    simp
  · next hold =>
    simp only [iff_self_or, and_imp]
    rintro rfl rfl
    by_contra hk
    exact hold ⟨rfl, hk⟩

theorem Sound.addCaller (h : g.Sound) (hc : c < g.names.length) (hn : n < g.names.length) : (g.addCaller c n).Sound := by
  have hlt : n < g.callers.length := h.length ▸ hn
  refine ⟨h.nodup, ?_, fun {m k} hk => ?_, fun m => ?_⟩
  · simp only [CallGraph.addCaller, List.length_modify]
    exact h.length
  · rcases (mem_callersOf_addCaller hlt).1 hk with hk | ⟨-, rfl⟩
    · exact h.known hk
    · exact hc
  · rw [callersOf_addCaller hlt]
    split
    · next hnew =>
      exact nodup_concat (h.once n) hnew.2
    · exact h.once m

/-- Noting a caller adds that its name calls the other, and nothing else. -/
theorem calls_addCaller {caller callee : String} (h : g.Sound) (hc : g.names[c]? = some caller)
    (hn : g.names[n]? = some callee) : (g.addCaller c n).Calls x y ↔ g.Calls x y ∨ (x, y) = (caller, callee) := by
  have hlt : n < g.callers.length := h.length ▸ (List.getElem?_eq_some_iff.1 hn).1
  constructor
  · rintro ⟨k, m, hx, hy, hk⟩
    rcases (mem_callersOf_addCaller hlt).1 hk with hk | ⟨rfl, rfl⟩
    · exact .inl ⟨k, m, hx, hy, hk⟩
    · exact .inr (Prod.ext (Option.some.inj (hx.symm.trans hc)) (Option.some.inj (hy.symm.trans hn)))
  · rintro (⟨k, m, hx, hy, hk⟩ | heq)
    · exact ⟨k, m, hx, hy, (mem_callersOf_addCaller hlt).2 (.inl hk)⟩
    · cases heq
      exact ⟨c, n, hc, hn, (mem_callersOf_addCaller hlt).2 (.inr ⟨rfl, rfl⟩)⟩

/-- An edge adds that its caller calls its callee, and nothing else. -/
theorem addEdge_spec (h : g.Sound) (e : CallEdge) :
    (g.addEdge e).Sound ∧ ∀ {x y}, (g.addEdge e).Calls x y ↔ g.Calls x y ∨ (x, y) = e := by
  obtain ⟨h₁, hcaller, -, -⟩ := number_spec h e.1
  obtain ⟨h₂, hcallee, hle, -⟩ := number_spec h₁ e.2
  have hcaller_lt := (List.getElem?_eq_some_iff.1 hcaller).1
  rw [← getElem?_of_le hle hcaller_lt] at hcaller
  refine ⟨h₂.addCaller (List.getElem?_eq_some_iff.1 hcaller).1 (List.getElem?_eq_some_iff.1 hcallee).1, fun {x y} => ?_⟩
  refine (calls_addCaller h₂ hcaller hcallee).trans ?_
  rw [calls_number h₁, calls_number h]

theorem foldl_addEdge (h : g.Sound) (edges : List CallEdge) :
    (edges.foldl addEdge g).Sound ∧ ∀ {x y}, (edges.foldl addEdge g).Calls x y ↔ g.Calls x y ∨ (x, y) ∈ edges := by
  induction edges generalizing g with
  | nil => simpa using h
  | cons e rest ih =>
    obtain ⟨hsound, hcalls⟩ := addEdge_spec h e
    obtain ⟨hsound', hcalls'⟩ := ih hsound
    refine ⟨hsound', fun {x y} => ?_⟩
    rw [List.foldl_cons, hcalls', hcalls, List.mem_cons, or_assoc]

theorem sound_ofEdges (edges : List CallEdge) : (ofEdges edges).Sound := (foldl_addEdge sound_empty _).1

/-- The graph of some edges says what they say, as far as they have names at both ends. -/
theorem calls_ofEdges {edges : List CallEdge} : (ofEdges edges).Calls x y ↔ (x, y) ∈ edges ∧ x ≠ "" ∧ y ≠ "" := by
  rw [ofEdges, (foldl_addEdge sound_empty _).2, or_iff_right not_calls_empty, List.mem_filter]
  simp

end CodeIndex.CallGraph
