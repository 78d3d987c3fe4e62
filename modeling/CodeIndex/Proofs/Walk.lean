import CodeIndex.Proofs.CallGraph
import CodeIndex.Proofs.SortedSet

set_option autoImplicit false

/-!
# Who is reached, and when

A walk takes what waits in the order of its distance from the target: at any time two distances wait at most, and
everything nearer has been reached.  So each name is reached over a shortest chain of calls, and a report lists the
names at distance one and those at a greater distance.
-/

namespace CodeIndex

/-! ## Chains of calls -/

section Chain

variable {α : Type} {calls : α → α → Prop} {target x y : α} {j k : Nat}

/-- So many calls, one after another, lead to a target. -/
inductive Chain (calls : α → α → Prop) (target : α) : Nat → α → Prop
  | nil : Chain calls target 0 target
  | cons {k : Nat} {x y : α} : calls x y → Chain calls target k y → Chain calls target (k + 1) x

/-- The shortest chain of calls to a target has so many. -/
def Away (calls : α → α → Prop) (target : α) (k : Nat) (x : α) : Prop :=
  Chain calls target k x ∧ ∀ j < k, ¬ Chain calls target j x

theorem away_zero : Away calls target 0 x ↔ x = target := by
  constructor
  · rintro ⟨⟨⟩, -⟩
    rfl
  · rintro rfl
    exact ⟨.nil, fun j hj => absurd hj (Nat.not_lt_zero j)⟩

theorem away_one : Away calls target 1 x ↔ x ≠ target ∧ calls x target := by
  constructor
  · rintro ⟨hchain, hfirst⟩
    cases hchain with
    | cons hcall hrest =>
      cases hrest
      refine ⟨?_, hcall⟩
      rintro rfl
      exact hfirst 0 (Nat.zero_lt_succ 0) .nil
  · rintro ⟨hne, hcall⟩
    refine ⟨.cons hcall .nil, fun j hj hshort => ?_⟩
    obtain rfl : j = 0 := by omega
    cases hshort
    exact hne rfl

theorem Away.unique (h : Away calls target j x) (h' : Away calls target k x) : j = k := by
  rcases Nat.lt_trichotomy j k with hlt | heq | hgt
  · exact absurd h.1 (h'.2 j hlt)
  · exact heq
  · exact absurd h'.1 (h.2 k hgt)

theorem Chain.away (h : Chain calls target k x) : ∃ j ≤ k, Away calls target j x := by
  induction k using Nat.strong_induction_on with
  | h k ih =>
    by_cases hshort : ∃ j < k, Chain calls target j x
    · obtain ⟨j, hj, hchain⟩ := hshort
      obtain ⟨i, hi, haway⟩ := ih j hj hchain
      exact ⟨i, by omega, haway⟩
    · exact ⟨k, Nat.le_refl k, h, fun j hj hchain => hshort ⟨j, hj, hchain⟩⟩

theorem Away.callee (h : Away calls target (k + 1) x) : ∃ y, calls x y ∧ Away calls target k y := by
  obtain ⟨hchain, hfirst⟩ := h
  cases hchain with
  | cons hcall hrest => exact ⟨_, hcall, hrest, fun j hj hshort => hfirst (j + 1) (by omega) (.cons hcall hshort)⟩

end Chain

namespace CallGraph

variable {g : CallGraph} {maxDepth start n c k : Nat} {w : Walk} {names : List String} {reached found : List Nat}

/-- So many calls lead to a number at least. -/
abbrev Distance (g : CallGraph) (start k n : Nat) : Prop := Away (fun c n => c ∈ g.callersOf n) start k n

namespace Walk

/-! ## One step -/

/-- Those of some callers that have not been reached. -/
def fresh (w : Walk) (callers : List Nat) : List Nat := callers.filter fun c => c ∉ w.reached

theorem mem_fresh {callers : List Nat} : c ∈ w.fresh callers ↔ c ∈ callers ∧ c ∉ w.reached := by
  simp [fresh]

def nameOf (g : CallGraph) (n : Nat) : String := g.names.getD n ""

theorem foldl_reach (g : CallGraph) (k : Nat) (callers : List Nat) (h : callers.Nodup) (w : Walk) :
    callers.foldl (reach g k) w =
      { reached := w.reached ++ w.fresh callers
        waiting := w.waiting ++ (w.fresh callers).map fun c => (c, k + 1)
        direct := if k = 0 then w.direct ++ (w.fresh callers).map (nameOf g) else w.direct
        indirect := if k = 0 then w.indirect else w.indirect ++ (w.fresh callers).map (nameOf g) } := by
  unfold fresh
  induction callers generalizing w with
  | nil => simp
  | cons c rest ih =>
    obtain ⟨hnew, hrest⟩ := List.nodup_cons.1 h
    rw [List.foldl_cons, ih hrest]
    by_cases hc : c ∈ w.reached
    · simp [reach, hc]
    · have hfilter : (rest.filter fun a => a ∉ w.reached ++ [c]) = rest.filter fun a => a ∉ w.reached := by
        refine List.filter_congr fun a ha => ?_
        have : a ≠ c := fun heq => hnew (heq ▸ ha)
        simp [this]
      by_cases hk : k = 0 <;> simp [reach, hc, hk, nameOf] <;> simp_all

theorem run_of_over {steps : Nat} (h : w.waiting = []) : w.run g maxDepth steps = w := by
  induction steps with
  | zero => rfl
  | succ steps ih =>
    have hstay : w.step g maxDepth = w := by rw [step, h]
    rw [run, hstay, ih]

end Walk

theorem getElem?_eq_nameOf (h : n < g.names.length) : g.names[n]? = some (Walk.nameOf g n) := by
  rw [Walk.nameOf, List.getD_eq_getElem?_getD, List.getElem?_eq_getElem h]
  rfl

/-- Names of what has been reached at some distances, each once. -/
structure Lists (g : CallGraph) (start : Nat) (far : Nat → Prop) (reached : List Nat) (names : List String) : Prop where
  nodup : names.Nodup
  mem : ∀ {x}, x ∈ names ↔ ∃ n ∈ reached, ∃ k, far k ∧ g.Distance start k n ∧ g.names[n]? = some x

namespace Lists

variable {far : Nat → Prop}

/-- What is reached at one of the distances is listed. -/
theorem append (h : Lists g start far reached names) (hg : g.Sound) (hfar : far k) (hnodup : found.Nodup)
    (hfound : ∀ c ∈ found, c ∉ reached ∧ c < g.names.length ∧ g.Distance start k c) :
    Lists g start far (reached ++ found) (names ++ found.map (Walk.nameOf g)) := by
  have hname : ∀ c ∈ found, g.names[c]? = some (Walk.nameOf g c) := fun c hc => getElem?_eq_nameOf (hfound c hc).2.1
  refine ⟨List.nodup_append.2 ⟨h.nodup, ?_, ?_⟩, fun {x} => ?_⟩
  · refine hnodup.map_on fun c hc c' hc' heq => hg.number_inj (hname c hc) ?_
    rw [heq]
    exact hname c' hc'
  · rintro x hx y hy rfl
    obtain ⟨c, hc, rfl⟩ := List.mem_map.1 hy
    obtain ⟨n, hn, -, -, -, heq⟩ := h.mem.1 hx
    obtain rfl := hg.number_inj heq (hname c hc)
    exact (hfound n hc).1 hn
  · rw [List.mem_append, h.mem, List.mem_map]
    constructor
    · rintro (⟨n, hn, hrest⟩ | ⟨c, hc, rfl⟩)
      · exact ⟨n, List.mem_append_left _ hn, hrest⟩
      · exact ⟨c, List.mem_append_right _ hc, k, hfar, (hfound c hc).2.2, hname c hc⟩
    · rintro ⟨n, hn, hrest⟩
      rcases List.mem_append.1 hn with hn | hn
      · exact .inl ⟨n, hn, hrest⟩
      · obtain ⟨-, -, -, heq⟩ := hrest
        exact .inr ⟨n, hn, Option.some.inj ((hname n hn).symm.trans heq)⟩

/-- What is reached at another distance is not. -/
theorem skip (h : Lists g start far reached names) (hfar : ¬ far k) (hfound : ∀ c ∈ found, g.Distance start k c) :
    Lists g start far (reached ++ found) names := by
  refine ⟨h.nodup, fun {x} => h.mem.trans ⟨?_, ?_⟩⟩
  · rintro ⟨n, hn, hrest⟩
    exact ⟨n, List.mem_append_left _ hn, hrest⟩
  · rintro ⟨n, hn, j, hj, haway, hname⟩
    rcases List.mem_append.1 hn with hn | hn
    · exact ⟨n, hn, j, hj, haway, hname⟩
    · exact absurd (haway.unique (hfound n hn) ▸ hj) hfar

end Lists

/-! ## The invariant of a walk -/

/-- How a walk stands between two steps. -/
structure Underway (g : CallGraph) (maxDepth start : Nat) (w : Walk) : Prop where
  nodup : w.reached.Nodup
  known : ∀ n ∈ w.reached, n < g.names.length
  near : ∀ n ∈ w.reached, ∃ k ≤ maxDepth, g.Distance start k n
  started : start ∈ w.reached
  waiting : ∀ e ∈ w.waiting, e.1 ∈ w.reached ∧ g.Distance start e.2 e.1
  ordered : w.waiting.Pairwise fun a b => a.2 ≤ b.2 ∧ b.2 ≤ a.2 + 1
  closed : ∀ n ∈ w.reached, ∀ k < maxDepth, g.Distance start k n →
    (n, k) ∈ w.waiting ∨ ∀ c ∈ g.callersOf n, c ∈ w.reached
  direct : Lists g start (· = 1) w.reached w.direct
  indirect : Lists g start (2 ≤ ·) w.reached w.indirect

namespace Underway

theorem init (hn : n < g.names.length) : Underway g maxDepth n (Walk.start n) := by
  have hzero : g.Distance n 0 n := away_zero.2 rfl
  have hlists : ∀ {far : Nat → Prop}, ¬ far 0 → Lists g n far [n] [] := by
    intro far hfar
    have hnone : Lists g n far [] [] := ⟨List.nodup_nil, by simp⟩
    exact hnone.skip hfar (by simpa using hzero)
  refine ⟨List.nodup_singleton n, ?_, ?_, List.mem_singleton_self n, ?_, List.pairwise_singleton _ _, ?_,
    hlists (by omega), hlists (by omega)⟩
  · simpa [Walk.start] using hn
  · simpa [Walk.start] using ⟨0, Nat.zero_le _, hzero⟩
  · simpa [Walk.start] using hzero
  · intro m hm k hk haway
    obtain rfl : m = n := by simpa [Walk.start] using hm
    exact .inl (by simp [Walk.start, haway.unique hzero])

/-- What is no further from the target than all that waits has been reached. -/
theorem covers (h : Underway g maxDepth start w) (hfront : ∀ e ∈ w.waiting, k ≤ e.2) (hk : k ≤ maxDepth)
    (haway : g.Distance start k n) : n ∈ w.reached := by
  induction k generalizing n with
  | zero => exact away_zero.1 haway ▸ h.started
  | succ k ih =>
    obtain ⟨callee, hcall, haway'⟩ := haway.callee
    have hreached := ih (fun e he => by have := hfront e he; omega) (by omega) haway'
    rcases h.closed callee hreached k (by omega) haway' with hwaiting | hall
    · have := hfront _ hwaiting
      omega
    · exact hall n hcall

variable {rest : List (Nat × Nat)}

/-- The callers that are new are one call further away. -/
theorem fresh_away (h : Underway g maxDepth start w) (hw : w.waiting = (n, k) :: rest) (hk : k < maxDepth)
    (hc : c ∈ w.fresh (g.callersOf n)) : g.Distance start (k + 1) c := by
  obtain ⟨hcall, hnew⟩ := Walk.mem_fresh.1 hc
  have haway : g.Distance start k n := (h.waiting (n, k) (by simp [hw])).2
  refine ⟨.cons hcall haway.1, fun j hj hshort => hnew ?_⟩
  obtain ⟨i, hi, haway'⟩ := hshort.away
  refine h.covers (fun e he => ?_) (by omega) haway'
  have hordered := h.ordered
  rw [hw] at he hordered
  rcases List.mem_cons.1 he with rfl | he
  · dsimp only
    omega
  · have := (List.pairwise_cons.1 hordered).1 e he
    omega

theorem ordered_reach (hfront : ∀ e ∈ rest, k ≤ e.2 ∧ e.2 ≤ k + 1)
    (hrest : rest.Pairwise fun a b => a.2 ≤ b.2 ∧ b.2 ≤ a.2 + 1) (found : List Nat) :
    (rest ++ found.map fun c => (c, k + 1)).Pairwise fun a b => a.2 ≤ b.2 ∧ b.2 ≤ a.2 + 1 := by
  refine List.pairwise_append.2 ⟨hrest, ?_, fun a ha b hb => ?_⟩
  · exact List.pairwise_map.2 (List.pairwise_of_forall fun _ _ => ⟨Nat.le_refl _, by omega⟩)
  · obtain ⟨c, -, rfl⟩ := List.mem_map.1 hb
    have := hfront a ha
    dsimp only at this ⊢
    omega

/-- With its callers reached, the first of what waits is done, and they wait in its place. -/
theorem closed_reach (h : Underway g maxDepth start w) (hw : w.waiting = (n, k) :: rest)
    (haway : ∀ c ∈ w.fresh (g.callersOf n), g.Distance start (k + 1) c) {m j : Nat}
    (hm : m ∈ w.reached ++ w.fresh (g.callersOf n)) (hj : j < maxDepth) (hdistance : g.Distance start j m) :
    (m, j) ∈ rest ++ (w.fresh (g.callersOf n)).map (fun c => (c, k + 1)) ∨
      ∀ c ∈ g.callersOf m, c ∈ w.reached ++ w.fresh (g.callersOf n) := by
  rcases List.mem_append.1 hm with hm | hm
  · rcases h.closed m hm j hj hdistance with hmem | hall
    · rw [hw, List.mem_cons, Prod.mk.injEq] at hmem
      rcases hmem with ⟨rfl, rfl⟩ | hmem
      · refine .inr fun c hc => ?_
        by_cases hold : c ∈ w.reached
        · exact List.mem_append_left _ hold
        · exact List.mem_append_right _ (Walk.mem_fresh.2 ⟨hc, hold⟩)
      · exact .inl (List.mem_append_left _ hmem)
    · exact .inr fun c hc => List.mem_append_left _ (hall c hc)
  · obtain rfl := hdistance.unique (haway m hm)
    exact .inl (List.mem_append_right _ (List.mem_map_of_mem hm))

/-- A step keeps the invariant. -/
theorem step (hg : g.Sound) (h : Underway g maxDepth start w) : Underway g maxDepth start (w.step g maxDepth) := by
  unfold Walk.step
  split
  · exact h
  next n k rest hw =>
  have hordered := h.ordered
  rw [hw] at hordered
  obtain ⟨hfront, hrest⟩ := List.pairwise_cons.1 hordered
  have hwaiting : ∀ e ∈ rest, e.1 ∈ w.reached ∧ g.Distance start e.2 e.1 := fun e he => h.waiting e (by simp [hw, he])
  dsimp only
  split
  · next hdeep =>
    -- nothing is looked at, and `n` is too far away to be asked for its callers
    refine ⟨h.nodup, h.known, h.near, h.started, hwaiting, hrest, fun m hm j hj haway => ?_, h.direct, h.indirect⟩
    refine (h.closed m hm j hj haway).imp_left fun hmem => ?_
    rw [hw, List.mem_cons, Prod.mk.injEq] at hmem
    exact hmem.resolve_left (by omega)
  · next hdeep =>
    have hk : k < maxDepth := by omega
    have haway : ∀ c ∈ w.fresh (g.callersOf n), g.Distance start (k + 1) c := fun c hc => h.fresh_away hw hk hc
    have hnew : ∀ c ∈ w.fresh (g.callersOf n), c ∉ w.reached ∧ c < g.names.length ∧ g.Distance start (k + 1) c :=
      fun c hc => ⟨(Walk.mem_fresh.1 hc).2, hg.known (Walk.mem_fresh.1 hc).1, haway c hc⟩
    have hnodup : (w.fresh (g.callersOf n)).Nodup := (hg.once n).filter _
    rw [Walk.foldl_reach g k _ (hg.once n)]
    refine ⟨?_, ?_, ?_, List.mem_append_left _ h.started, ?_, ordered_reach hfront hrest _,
      fun m hm j hj hdistance => h.closed_reach hw haway hm hj hdistance, ?_, ?_⟩
    · exact List.nodup_append.2 ⟨h.nodup, hnodup, fun a ha b hb heq => (hnew b hb).1 (heq ▸ ha)⟩
    · exact fun m hm => (List.mem_append.1 hm).elim (h.known m) fun hm => (hnew m hm).2.1
    · exact fun m hm => (List.mem_append.1 hm).elim (h.near m) fun hm => ⟨k + 1, hk, haway m hm⟩
    · intro e he
      rcases List.mem_append.1 he with he | he
      · exact ⟨List.mem_append_left _ (hwaiting e he).1, (hwaiting e he).2⟩
      · obtain ⟨c, hc, rfl⟩ := List.mem_map.1 he
        exact ⟨List.mem_append_right _ hc, haway c hc⟩
    · by_cases hzero : k = 0
      · simp only [if_pos hzero]
        exact h.direct.append hg (by omega) hnodup hnew
      · simp only [if_neg hzero]
        exact h.direct.skip (by omega) haway
    · by_cases hzero : k = 0
      · simp only [if_pos hzero]
        exact h.indirect.skip (by omega) haway
      · simp only [if_neg hzero]
        exact h.indirect.append hg (by omega) hnodup hnew

theorem length_le (h : Underway g maxDepth start w) : w.reached.length ≤ g.names.length := by
  have hsub : w.reached ⊆ List.range g.names.length := fun n hn => List.mem_range.2 (h.known n hn)
  simpa using (List.subperm_of_subset h.nodup hsub).length_le

/-- A step takes one number off the waiting ones, beside those that it reaches. -/
theorem step_length (maxDepth : Nat) (hg : g.Sound) (hw : w.waiting ≠ []) :
    (w.step g maxDepth).waiting.length + 1 + w.reached.length =
      w.waiting.length + (w.step g maxDepth).reached.length := by
  unfold Walk.step
  split
  · next hnil => exact absurd hnil hw
  next n k rest hcons =>
  dsimp only
  split
  · simp [hcons]
  · simp only [Walk.foldl_reach g k _ (hg.once n), hcons, List.length_append, List.length_map, List.length_cons, Walk.fresh]
    omega

/-- What has been reached waits at most once, so after as many steps nothing waits. -/
theorem run (hg : g.Sound) (steps : Nat) (h : Underway g maxDepth start w)
    (henough : g.names.length + w.waiting.length ≤ steps + w.reached.length) :
    Underway g maxDepth start (w.run g maxDepth steps) ∧ (w.run g maxDepth steps).waiting = [] := by
  induction steps generalizing w with
  | zero =>
    have := h.length_le
    have hlength : w.waiting.length = 0 := by omega
    exact ⟨h, List.eq_nil_of_length_eq_zero hlength⟩
  | succ steps ih =>
    by_cases hw : w.waiting = []
    · rw [Walk.run_of_over hw]
      exact ⟨h, hw⟩
    · refine ih (h.step hg) ?_
      have := step_length (w := w) maxDepth hg hw
      omega

end Underway

/-- After as many steps as there are names, a walk is over. -/
theorem walk_over (maxDepth : Nat) (hg : g.Sound) (hn : n < g.names.length) :
    Underway g maxDepth n (g.walk maxDepth n) ∧ (g.walk maxDepth n).waiting = [] :=
  (Underway.init hn).run hg g.names.length (by simp [Walk.start])

/-- A walk that is over has reached all that is near enough. -/
theorem walk_spec (hg : g.Sound) (hn : n < g.names.length) :
    Underway g maxDepth n (g.walk maxDepth n) ∧
      ∀ m k, k ≤ maxDepth → g.Distance n k m → m ∈ (g.walk maxDepth n).reached := by
  obtain ⟨hwalk, hover⟩ := walk_over maxDepth hg hn
  exact ⟨hwalk, fun m k hk => hwalk.covers (by rw [hover]; simp) hk⟩

/-! ## Reports -/

variable {target x : String} {m : Nat}

theorem chain_number (hg : g.Sound) (hn : g.names[n]? = some target) (hm : g.names[m]? = some x) :
    Chain g.Calls target k x ↔ Chain (fun c n => c ∈ g.callersOf n) n k m := by
  constructor
  · intro h
    induction h generalizing m with
    | nil => exact hg.number_inj hn hm ▸ .nil
    | cons hcall _ ih =>
      obtain ⟨c, callee, hc, hcallee, hmem⟩ := hcall
      obtain rfl := hg.number_inj hc hm
      exact .cons hmem (ih hcallee)
  · intro h
    induction h generalizing x with
    | nil => exact Option.some.inj (hn.symm.trans hm) ▸ .nil
    | cons hcall _ ih =>
      have hcallee := getElem?_eq_nameOf (hg.callee_known hcall)
      exact .cons ⟨_, _, hm, hcallee, hcall⟩ (ih hcallee)

theorem away_number (hg : g.Sound) (hn : g.names[n]? = some target) (hm : g.names[m]? = some x) :
    Away g.Calls target k x ↔ g.Distance n k m := by
  simp only [Away, chain_number hg hn hm]

/-- Both ends of a chain of calls have numbers. -/
theorem numbers_of_chain (h : Chain g.Calls target (k + 1) x) :
    (∃ n : Nat, g.names[n]? = some target) ∧ ∃ m : Nat, g.names[m]? = some x := by
  generalize hlength : k + 1 = length at h
  induction h generalizing k with
  | nil => cases hlength
  | @cons k' x y hcall hrest ih =>
    obtain ⟨c, callee, hc, hcallee, -⟩ := hcall
    refine ⟨?_, c, hc⟩
    cases k' with
    | zero =>
      cases hrest
      exact ⟨callee, hcallee⟩
    | succ k' => exact (ih rfl).1

/-- The list of a walk that is over has the names that are near enough. -/
theorem Lists.mem_of_over {far : Nat → Prop} {names : List String} (hg : g.Sound) (hn : g.names[n]? = some target)
    (h : Lists g n far (g.walk maxDepth n).reached names) (hfar : ¬ far 0) :
    x ∈ names ↔ ∃ k, far k ∧ k ≤ maxDepth ∧ Away g.Calls target k x := by
  obtain ⟨hwalk, hall⟩ := walk_spec hg (List.getElem?_eq_some_iff.1 hn).1
  rw [h.mem]
  constructor
  · rintro ⟨m, hm, k, hk, haway, hname⟩
    obtain ⟨j, hj, haway'⟩ := hwalk.near m hm
    exact ⟨k, hk, haway.unique haway' ▸ hj, (away_number hg hn hname).2 haway⟩
  · rintro ⟨k, hk, hle, haway⟩
    obtain ⟨j, rfl⟩ : ∃ j, k = j + 1 := ⟨k - 1, by have : k ≠ 0 := fun h => hfar (h ▸ hk); omega⟩
    obtain ⟨-, m, hm⟩ := numbers_of_chain haway.1
    have hdistance := (away_number hg hn hm).1 haway
    exact ⟨m, hall m _ hle hdistance, j + 1, hk, hdistance, hm⟩

end CallGraph

/-- A report lists what is near enough, each name once and in order. -/
structure ImpactReport.Exact (calls : String → String → Prop) (target : String) (maxDepth : Nat) (r : ImpactReport) :
    Prop where
  named : r.target = target
  direct : r.direct.Pairwise (· < ·)
  indirect : r.indirect.Pairwise (· < ·)
  mem_direct : ∀ {x}, x ∈ r.direct ↔ ∃ k, k = 1 ∧ k ≤ maxDepth ∧ Away calls target k x
  mem_indirect : ∀ {x}, x ∈ r.indirect ↔ ∃ k, 2 ≤ k ∧ k ≤ maxDepth ∧ Away calls target k x

namespace ImpactReport.Exact

variable {calls : String → String → Prop} {target x : String} {maxDepth : Nat} {r r' : ImpactReport}

theorem unique (h : r.Exact calls target maxDepth) (h' : r'.Exact calls target maxDepth) : r = r' := by
  obtain ⟨t, direct, indirect⟩ := r
  obtain ⟨t', direct', indirect'⟩ := r'
  obtain rfl : t = target := h.named
  obtain rfl : t' = t := h'.named
  obtain rfl : direct = direct' := Text.eq_of_mem_iff h.direct h'.direct fun x => h.mem_direct.trans h'.mem_direct.symm
  obtain rfl : indirect = indirect' :=
    Text.eq_of_mem_iff h.indirect h'.indirect fun x => h.mem_indirect.trans h'.mem_indirect.symm
  rfl

theorem mem_affected (h : r.Exact calls target maxDepth) :
    x ∈ r.affected ↔ ∃ k, 1 ≤ k ∧ k ≤ maxDepth ∧ Away calls target k x := by
  rw [affected, List.mem_append, h.mem_direct, h.mem_indirect, ← exists_or]
  refine exists_congr fun k => ?_
  rw [← or_and_right]
  refine and_congr_left fun _ => ?_
  omega

/-- Nobody is affected both directly and indirectly. -/
theorem nodup_affected (h : r.Exact calls target maxDepth) : r.affected.Nodup := by
  refine List.nodup_append.2 ⟨Text.nodup_of_pairwise_lt h.direct, Text.nodup_of_pairwise_lt h.indirect, ?_⟩
  rintro x hdirect y hindirect rfl
  obtain ⟨j, rfl, -, haway⟩ := h.mem_direct.1 hdirect
  obtain ⟨k, hk, -, haway'⟩ := h.mem_indirect.1 hindirect
  have := haway.unique haway'
  omega

end ImpactReport.Exact

/-- A report tells who is how far away from its target. -/
theorem CallGraph.exact_impact {g : CallGraph} (hg : g.Sound) (target : String) (maxDepth : Nat) :
    (g.impact target maxDepth).Exact g.Calls target maxDepth := by
  unfold impact
  split
  · next hunknown =>
    have hnone : ∀ {k x}, k ≠ 0 → ¬ Away g.Calls target k x := by
      intro k x hk haway
      obtain ⟨j, rfl⟩ : ∃ j, k = j + 1 := ⟨k - 1, by omega⟩
      obtain ⟨⟨n, hn⟩, -⟩ := numbers_of_chain haway.1
      exact number?_eq_none.1 hunknown (List.mem_of_getElem? hn)
    refine ⟨rfl, .nil, .nil, fun {x} => ?_, fun {x} => ?_⟩
    · simp only [List.not_mem_nil, false_iff]
      rintro ⟨k, hk, -, haway⟩
      exact hnone (by omega) haway
    · simp only [List.not_mem_nil, false_iff]
      rintro ⟨k, hk, -, haway⟩
      exact hnone (by omega) haway
  · next n hnumber =>
    have hn := (number?_eq_some hg.nodup).1 hnumber
    obtain ⟨hwalk, -⟩ := walk_spec hg (List.getElem?_eq_some_iff.1 hn).1
    refine ⟨rfl, Text.pairwise_lt_mergeSort hwalk.direct.nodup, Text.pairwise_lt_mergeSort hwalk.indirect.nodup,
      fun {x} => ?_, fun {x} => ?_⟩
    · rw [List.mem_mergeSort, hwalk.direct.mem_of_over hg hn (by omega)]
    · rw [List.mem_mergeSort, hwalk.indirect.mem_of_over hg hn (by omega)]

end CodeIndex
