import CodeIndex.Proofs.ScriptSteps
import Mathlib.Logic.Relation
import Mathlib.Order.Bounds.Basic

set_option autoImplicit false

/-!
# Brackets that balance

The bracket that a search finds is the first closing one at which the brackets that are seen balance.  Up to it more are
opened than closed, and the number that the search keeps is their difference at every byte that it comes to.
-/

namespace CodeIndex.Script.ByOffset

open Text

variable {opener closer : UInt8} {seen : List (Option UInt8)} {source : List Char} {start pos : Nat} {state : Nesting}

/-! ## Brackets that are seen -/

/-- How many more brackets are opened than closed. -/
def balance (opener closer : UInt8) (seen : List (Option UInt8)) : Int := seen.count (some opener) - seen.count (some closer)

/-- A closing bracket is seen at a place, and all brackets up to it balance. -/
def Balances (opener closer : UInt8) (seen : List (Option UInt8)) (n : Nat) : Prop :=
  seen[n]? = some (some closer) ∧ balance opener closer (seen.take (n + 1)) = 0

theorem balance_append (xs ys : List (Option UInt8)) :
    balance opener closer (xs ++ ys) = balance opener closer xs + balance opener closer ys := by
  simp only [balance, List.count_append]
  omega

theorem balance_eq_zero (h : ∀ b, some b ∈ seen → b ≠ opener ∧ b ≠ closer) : balance opener closer seen = 0 := by
  have hopener : some opener ∉ seen := fun hmem => (h opener hmem).1 rfl
  have hcloser : some closer ∉ seen := fun hmem => (h closer hmem).2 rfl
  simp [balance, List.count_eq_zero_of_not_mem hopener, List.count_eq_zero_of_not_mem hcloser]

theorem balance_opener (hne : closer ≠ opener) : balance opener closer [some opener] = 1 := by
  simp [balance, hne.symm]

theorem balance_closer (hne : closer ≠ opener) : balance opener closer [some closer] = -1 := by
  simp [balance, hne]

theorem balance_take_add (n k : Nat) : balance opener closer (seen.take (n + k)) =
    balance opener closer (seen.take n) + balance opener closer ((seen.drop n).take k) := by
  rw [List.take_add, balance_append]

theorem take_one_drop (seen : List (Option UInt8)) (n : Nat) : (seen.drop n).take 1 = seen[n]?.toList := by
  rw [List.take_one, List.head?_drop]

/-- After the bracket at the start and before one at which they balance, more are opened than closed. -/
theorem one_le_balance (hhead : seen.head? = some (some opener)) (hne : closer ≠ opener) {n : Nat} (hpos : 0 < n)
    (hsooner : ∀ m < n, ¬ Balances opener closer seen m) : 1 ≤ balance opener closer (seen.take n) := by
  induction n with
  | zero => exact absurd hpos (Nat.lt_irrefl 0)
  | succ n ih =>
    rcases Nat.eq_zero_or_pos n with rfl | hn
    · rw [List.take_one, hhead]
      exact (balance_opener hne).ge
    have hbefore := ih hn fun m hm => hsooner m (Nat.lt_succ_of_lt hm)
    have hlast : ¬ Balances opener closer seen n := hsooner n (Nat.lt_succ_self n)
    rw [Balances, balance_take_add, take_one_drop] at hlast
    rw [balance_take_add, take_one_drop]
    by_cases hcloser : seen[n]? = some (some closer)
    · rw [hcloser, Option.toList_some, balance_closer hne] at hlast ⊢
      have := not_and.1 hlast rfl
      omega
    by_cases hopener : seen[n]? = some (some opener)
    · rw [hopener, Option.toList_some, balance_opener hne]
      omega
    · have hplain : ∀ b, some b ∈ seen[n]?.toList → b ≠ opener ∧ b ≠ closer := fun b hb =>
        ⟨fun heq => hopener (heq ▸ Option.mem_toList.1 hb), fun heq => hcloser (heq ▸ Option.mem_toList.1 hb)⟩
      rw [balance_eq_zero hplain]
      omega

/-! ## The search -/

theorem Ahead.length_eq {quote : Option UInt8} {text : List UInt8} (h : Ahead quote text seen) :
    seen.length = text.length := by
  cases h with
  | code h => exact h.length_eq
  | quoted _ _ h => rw [List.length_append, List.length_replicate, h.length_eq, List.length_append]

/-- A search that started at an offset and has come over so many bytes, without a bracket at which those seen balance. -/
structure Searching (opener closer : UInt8) (source : List Char) (start : Nat) (seen : List (Option UInt8)) (n : Nat)
    (state : Nesting) : Prop where
  ahead : Ahead state.quote ((bytes source).drop (start + n)) (seen.drop n)
  depth : (state.depth : Int) = balance opener closer (seen.take n)
  sooner : ∀ m < n, ¬ Balances opener closer seen m
  found : state.found = none

variable {n : Nat}

theorem searching_zero (h : Sees ((bytes source).drop start) seen) :
    Searching opener closer source start seen 0 ⟨0, none, none⟩ where
  ahead := .code h
  depth := rfl
  sooner := fun m hm => absurd hm (Nat.not_lt_zero m)
  found := rfl

namespace Searching

theorem one_le_depth (h : Searching opener closer source start seen n state) (hhead : seen.head? = some (some opener))
    (hne : closer ≠ opener) (hn : 0 < n) : 1 ≤ state.depth := by
  have hbalance := one_le_balance hhead hne hn h.sooner
  rw [← h.depth] at hbalance
  omega

theorem sooner_add (h : Searching opener closer source start seen n state) {k : Nat}
    (hlater : ∀ i < k, ¬ Balances opener closer seen (n + i)) : ∀ m < n + k, ¬ Balances opener closer seen m := by
  intro m hm
  rcases Nat.lt_or_ge m n with hlt | hge
  · exact h.sooner m hlt
  · obtain ⟨i, rfl⟩ := Nat.exists_eq_add_of_le hge
    exact hlater i (by omega)

theorem sooner_succ (h : Searching opener closer source start seen n state)
    (hnext : balance opener closer (seen.take (n + 1)) ≠ 0) : ∀ m < n + 1, ¬ Balances opener closer seen m :=
  h.sooner_add fun i hi hbalances => hnext (by obtain rfl := Nat.lt_one_iff.1 hi; exact hbalances.2)

/-- A step over a stretch or a bracket, or the end of the search at a bracket at which those seen balance. -/
theorem step (h : Searching opener closer source start seen n state) (hhead : seen.head? = some (some opener))
    (hne : closer ≠ opener) (hpos : start + n < size source) :
    (∃ k state', 0 < k ∧ closingStep source opener closer (start + n) state = .ok (some (start + (n + k)), state') ∧
        Searching opener closer source start seen (n + k) state') ∨
      ∃ state', closingStep source opener closer (start + n) state = .ok (none, state') ∧
        state'.found = some (start + n) ∧ IsLeast {n | Balances opener closer seen n} n := by
  obtain ⟨result, hstep, hleads⟩ := closingStep_leads h.ahead hpos
  generalize hahead : seen.drop n = ahead at hleads
  have hdrop : ∀ k, seen.drop (n + k) = ahead.drop k := fun k => by rw [← hahead, List.drop_drop]
  have hget : ∀ i, seen[n + i]? = ahead[i]? := fun i => by rw [← hahead, List.getElem?_drop]
  have hbalance : ∀ k, balance opener closer (seen.take (n + k)) = state.depth + balance opener closer (ahead.take k) :=
    fun k => by rw [balance_take_add, hahead, h.depth]
  cases hleads with
  | @passes _ k quote hk hplain hnext =>
    rw [Nat.add_assoc] at hstep
    refine .inl ⟨k, _, hk, hstep, ?_, ?_, h.sooner_add fun i hi hbalances => ?_, h.found⟩
    · rw [hdrop, ← Nat.add_assoc]
      exact hnext
    · rw [hbalance, balance_eq_zero hplain, Int.add_zero]
    · have hcloser : (ahead.take k)[i]? = some (some closer) := by rw [List.getElem?_take_of_lt hi, ← hget, hbalances.1]
      exact (hplain closer (List.mem_of_getElem? hcloser)).2 rfl
  | @opens ahead hnext =>
    have hafter : balance opener closer (seen.take (n + 1)) = state.depth + 1 := by
      rw [hbalance]
      exact congrArg (_ + ·) (balance_opener hne)
    refine .inl ⟨1, _, Nat.one_pos, hstep, ?_, hafter.symm, h.sooner_succ (by omega), h.found⟩
    rw [hdrop]
    exact hnext
  | @closes ahead hdepth hnext =>
    have hafter : balance opener closer (seen.take (n + 1)) = state.depth - 1 := by
      rw [hbalance]
      exact congrArg (_ + ·) (balance_closer hne)
    refine .inl ⟨1, _, Nat.one_pos, hstep, ?_, ?_, h.sooner_succ (by omega), h.found⟩
    · rw [hdrop]
      exact hnext
    · rw [hafter]
      dsimp only
      omega
  | @ends ahead hdepth =>
    have hcloser : seen[n]? = some (some closer) := hget 0
    -- the first bracket that is seen is an opening one, so some bracket is open here
    have hpos : 0 < n := by
      rcases Nat.eq_zero_or_pos n with rfl | hn
      · rw [← List.head?_eq_getElem?, hhead] at hcloser
        simp only [Option.some.injEq] at hcloser
        exact absurd hcloser.symm hne
      · exact hn
    have hopen := h.one_le_depth hhead hne hpos
    have hafter : balance opener closer (seen.take (n + 1)) = state.depth - 1 := by
      rw [hbalance]
      exact congrArg (_ + ·) (balance_closer hne)
    refine .inr ⟨_, hstep, rfl, ⟨hcloser, by omega⟩, fun m hm => ?_⟩
    exact Nat.not_lt.1 fun hlt => h.sooner m hlt hm

/-- At the end of the text, there is no bracket at which those seen balance. -/
theorem not_balances (h : Searching opener closer source start seen n state) (hend : size source ≤ start + n) (m : Nat) :
    ¬ Balances opener closer seen m := by
  intro hbalances
  have hlen := h.ahead.length_eq
  rw [List.length_drop, List.length_drop, length_bytes] at hlen
  have hm := (List.getElem?_eq_some_iff.1 hbalances.1).1
  exact h.sooner m (by omega) hbalances

end Searching

/-- A loop whose steps keep a property and move forward comes to its end. -/
theorem loop_of_steps {σ : Type} {limit : Nat} {step : Nat → σ → Read (Option Nat × σ)} (P : Nat → σ → Prop) (Q : σ → Prop)
    (hstep : ∀ {pos state}, pos < limit → P pos state →
      (∃ next state', step pos state = .ok (some next, state') ∧ pos < next ∧ P next state') ∨
        ∃ state', step pos state = .ok (none, state') ∧ Q state')
    (hend : ∀ {pos state}, limit ≤ pos → P pos state → Q state) {pos : Nat} {state : σ} (h : P pos state) :
    ∃ state', loop limit step pos state = .ok state' ∧ Q state' := by
  induction hleft : limit - pos using Nat.strong_induction_on generalizing pos state with
  | _ left ih =>
    by_cases hpos : pos < limit
    · rcases hstep hpos h with ⟨next, state', hnext, hlt, h'⟩ | ⟨state', hdone, hQ⟩
      · rw [loop_next hpos hnext hlt]
        exact ih (limit - next) (by omega) h' rfl
      · exact ⟨state', loop_done hpos hdone, hQ⟩
    · exact ⟨state, loop_of_le (Nat.not_lt.1 hpos), hend (Nat.not_lt.1 hpos) h⟩

/-- The first bracket at which those seen balance, if there is one. -/
def Answers (opener closer : UInt8) (seen : List (Option UInt8)) (start : Nat) : Option Nat → Prop
  | some close => ∃ n, close = start + n ∧ IsLeast {n | Balances opener closer seen n} n
  | none => ∀ n, ¬ Balances opener closer seen n

theorem Answers.eq {found other : Option Nat} (h : Answers opener closer seen start found)
    (h' : Answers opener closer seen start other) : found = other := by
  cases found with
  | none =>
    cases other with
    | none => rfl
    | some close =>
      obtain ⟨n, -, hn⟩ := h'
      exact absurd hn.1 (h n)
  | some close =>
    obtain ⟨n, rfl, hn⟩ := h
    cases other with
    | none => exact absurd hn.1 (h' n)
    | some close' =>
      obtain ⟨m, rfl, hm⟩ := h'
      rw [hn.unique hm]

section Closing

variable {opener closer : Char}

/-- One step of a search leads from one offset and state to others. -/
def Moves (opener closer : Char) (source : List Char) (here there : Nat × Nesting) : Prop :=
  here.1 < size source ∧ closingStep source (byte opener) (byte closer) here.1 here.2 = .ok (some there.1, there.2)

variable (hne : byte closer ≠ byte opener) (h : Sees ((bytes source).drop start) seen)
  (hhead : seen.head? = some (some (byte opener)))
include hne h hhead

theorem closing_answers :
    ∃ found, closing opener closer source start = .ok found ∧ Answers (byte opener) (byte closer) seen start found := by
  obtain ⟨state, hloop, hanswers⟩ := loop_of_steps
    (fun pos state => ∃ n, pos = start + n ∧ Searching (byte opener) (byte closer) source start seen n state)
    (fun state => Answers (byte opener) (byte closer) seen start state.found)
    (by
      rintro _ state hpos ⟨n, rfl, hn⟩
      rcases hn.step hhead hne hpos with ⟨k, state', hk, hstep, hnext⟩ | ⟨state', hstep, hfound, hleast⟩
      · exact .inl ⟨_, state', hstep, by omega, _, rfl, hnext⟩
      · exact .inr ⟨state', hstep, by rw [hfound]; exact ⟨n, rfl, hleast⟩⟩)
    (by
      rintro _ state hpos ⟨n, rfl, hn⟩
      rw [hn.found]
      exact hn.not_balances hpos)
    ⟨0, rfl, searching_zero h⟩
  exact ⟨state.found, congrArg (Nesting.found <$> ·) hloop, hanswers⟩

theorem searching_of_moves
    (hmoves : Relation.ReflTransGen (Moves opener closer source) (start, ⟨0, none, none⟩) (pos, state)) :
    ∃ n, pos = start + n ∧ Searching (byte opener) (byte closer) source start seen n state := by
  generalize hthere : (pos, state) = there at hmoves
  induction hmoves generalizing pos state with
  | refl =>
    cases hthere
    exact ⟨0, rfl, searching_zero h⟩
  | @tail here _ _ hmove ih =>
    subst hthere
    obtain ⟨n, heq, hn⟩ := ih rfl
    obtain ⟨hpos, hstep⟩ := hmove
    rw [heq] at hpos hstep
    rcases hn.step hhead hne hpos with ⟨k, state', -, hstep', hnext⟩ | ⟨state', hstep', -, -⟩
    · rw [hstep] at hstep'
      cases hstep'
      exact ⟨n + k, rfl, hnext⟩
    · rw [hstep] at hstep'
      cases hstep'

end Closing

theorem Sees.head_of_code {b : UInt8} {text : List UInt8} (h : Sees (b :: text) seen) (hcode : ¬ StartsHidden (b :: text)) :
    seen.head? = some (some b) := by
  obtain ⟨rest, hrest⟩ := exists_sees text
  rw [h.eq (.code hcode hrest) rfl]
  rfl

theorem Plain.not_startsHidden {opener : Char} (h : Plain opener) (text : List UInt8) :
    ¬ StartsHidden (byte opener :: text) := by
  have hne : ∀ d : Char, d.toNat < 128 → opener ≠ d → byte opener ≠ byte d :=
    fun d hd => mt (byte_eq_iff h.ascii hd).1
  have hslash := hne '/' (by decide) h.noSlash
  rintro (⟨q, hq, hquote⟩ | hline | hblock)
  · obtain rfl : byte opener = q := Option.some.inj hq
    have hnoQuote := h.noQuote
    simp only [Region.isQuote, Bool.or_eq_false_iff, beq_eq_false_iff_ne] at hnoQuote
    rcases hquote with heq | heq | heq
    · exact hne '"' (by decide) hnoQuote.1.1 heq
    · exact hne '\'' (by decide) hnoQuote.1.2 heq
    · exact hne '\x60' (by decide) hnoQuote.2 heq
  · exact hslash (List.cons_prefix_cons.1 hline).1.symm
  · exact hslash (List.cons_prefix_cons.1 hblock).1.symm

/-- From an opening bracket on, a text can be seen in one way, and the search answers with the first closing bracket at which
    the brackets that are seen balance, or with nothing if there is none; characters and bytes lead to the same one.  Before
    it more brackets are opened than closed.  What the search keeps is that difference, at every byte that it comes to, and
    so it never closes a bracket when none is open. -/
theorem closing_iff_balances {opener closer : Char} (hopener : Plain opener) (hcloser : Plain closer) (hne : closer ≠ opener)
    {source : List Char} {start : Nat} (hstart : (bytes source)[start]? = some (byte opener)) :
    (∃ place, start = offsetOf source place ∧ source[place]? = some opener ∧
      closing opener closer source start = .ok ((closingAt? opener closer source place).map (offsetOf source))) ∧
    ∃ seen, (∀ other, Sees ((bytes source).drop start) other ↔ other = seen) ∧
      (∀ close, closing opener closer source start = .ok (some close) ↔
        ∃ n, close = start + n ∧ IsLeast {n | Balances (byte opener) (byte closer) seen n} n) ∧
      (closing opener closer source start = .ok none ↔ ∀ n, ¬ Balances (byte opener) (byte closer) seen n) ∧
      (∀ n, 0 < n → (∀ m < n, ¬ Balances (byte opener) (byte closer) seen m) →
        1 ≤ balance (byte opener) (byte closer) (seen.take n)) ∧
      ∀ pos state, Relation.ReflTransGen (Moves opener closer source) (start, ⟨0, none, none⟩) (pos, state) →
        ∃ n, pos = start + n ∧ (state.depth : Int) = balance (byte opener) (byte closer) (seen.take n) ∧
          (0 < n → 1 ≤ state.depth) := by
  have hdrop : (bytes source).drop start = byte opener :: (bytes source).drop (start + 1) := by
    rw [List.drop_eq_getElem?_toList_append, hstart]
    rfl
  obtain ⟨seen, hseen⟩ := existsUnique_sees ((bytes source).drop start)
  have hsees := (hseen seen).2 rfl
  have hbytes : byte closer ≠ byte opener := mt (byte_eq_iff hcloser.ascii hopener.ascii).1 hne
  have hhead : seen.head? = some (some (byte opener)) := (hdrop ▸ hsees).head_of_code (hopener.not_startsHidden _)
  obtain ⟨found, hclosing, hanswers⟩ := closing_answers hbytes hsees hhead
  have hiff : ∀ other, closing opener closer source start = .ok other ↔
      Answers (byte opener) (byte closer) seen start other := by
    intro other
    rw [hclosing, Except.ok.injEq]
    exact ⟨fun heq => heq ▸ hanswers, fun h => hanswers.eq h⟩
  obtain ⟨place, hplace, rfl⟩ := exists_place_of_byte hopener.ascii hstart
  refine ⟨⟨place, rfl, hplace, closing_offsetOf hopener hcloser source place⟩, seen, hseen,
    fun close => hiff (some close), hiff none, fun n => one_le_balance hhead hbytes, fun pos state hmoves => ?_⟩
  obtain ⟨n, rfl, hn⟩ := searching_of_moves hbytes hsees hhead hmoves
  exact ⟨n, rfl, hn.depth, hn.one_le_depth hhead hbytes⟩

/-- Closing braces between quotes, one of them before an escaped quote, and in comments. -/
def hiddenBraces : String := "\x7b f(\"\x7d\\\"é\", \x27\x7d\x27) /* \x7d */ // \x7d\n\x7d"

theorem closing_iff_balances_hiddenBraces : Plain '\x7b' ∧ Plain '\x7d' ∧ '\x7d' ≠ '\x7b' ∧
    (bytes hiddenBraces.toList)[0]? = some (byte '\x7b') ∧
    ∃ seen, Sees (bytes hiddenBraces.toList) seen ∧ IsLeast {n | Balances (byte '\x7b') (byte '\x7d') seen n} 31 := by
  have hopener : Plain '\x7b' := ⟨by decide, by decide, by decide, by decide⟩
  have hcloser : Plain '\x7d' := ⟨by decide, by decide, by decide, by decide⟩
  have hstart : (bytes hiddenBraces.toList)[0]? = some (byte '\x7b') := by decide +kernel
  have hfound : (closingAt? '\x7b' '\x7d' hiddenBraces.toList 0).map (offsetOf hiddenBraces.toList) = some 31 := by
    decide +kernel
  have hclosing : closing '\x7b' '\x7d' hiddenBraces.toList 0 = .ok (some 31) :=
    (closing_brace_offsetOf hiddenBraces.toList 0).trans (congrArg Except.ok hfound)
  obtain ⟨-, seen, hseen, hsome, -⟩ := closing_iff_balances hopener hcloser (by decide) hstart
  obtain ⟨n, hn, hleast⟩ := (hsome 31).1 hclosing
  rw [Nat.zero_add] at hn
  exact ⟨hopener, hcloser, by decide, hstart, seen, (hseen seen).2 rfl, hn ▸ hleast⟩

end CodeIndex.Script.ByOffset
