import CodeIndex.Pattern
import Mathlib.Data.List.Basic

set_option autoImplicit false

/-!
# Where a pattern matches

Matching hands over from one part of a pattern to the next, so whatever it answers with was reached through spots
that lie one after another in the text.  Matches and groups are therefore stretches of the text, and the parts of a
sequence can be looked at one by one.
-/

namespace CodeIndex.Pattern

variable {α : Type}

/-- Matching can get from one spot to the other: over some symbols, with more groups that lie in between. -/
structure Spot.Ahead (s s' : Spot α) : Prop where
  le : s.offset ≤ s'.offset
  fits : s'.offset - s.offset ≤ s.rest.length
  rest : s'.rest = s.rest.drop (s'.offset - s.offset)
  groups : ∃ new, s'.groups = new ++ s.groups ∧ ∀ g ∈ new, s.offset ≤ g.2.1 ∧ g.2.1 ≤ g.2.2 ∧ g.2.2 ≤ s'.offset

namespace Spot.Ahead

variable {s s' s'' : Spot α}

theorem refl (s : Spot α) : s.Ahead s := ⟨Nat.le_refl _, by simp, by simp, [], rfl, by simp⟩

theorem trans (h : s.Ahead s') (h' : s'.Ahead s'') : s.Ahead s'' := by
  have := h.le
  have := h'.le
  have hfits := h'.fits
  rw [h.rest, List.length_drop] at hfits
  obtain ⟨new, hnew, hin⟩ := h.groups
  obtain ⟨new', hnew', hin'⟩ := h'.groups
  refine ⟨by omega, by have := h.fits; omega, ?_, new' ++ new, by rw [hnew', hnew, List.append_assoc], ?_⟩
  · rw [h'.rest, h.rest, List.drop_drop]
    congr 1
    omega
  · intro g hg
    rcases List.mem_append.1 hg with hg | hg
    · have := hin' g hg
      omega
    · have := hin g hg
      omega

/-- A group that starts at one spot and ends at the other. -/
theorem group (h : s.Ahead s') (name : String) :
    s.Ahead { s' with groups := (name, s.offset, s'.offset) :: s'.groups } := by
  obtain ⟨new, hnew, hin⟩ := h.groups
  refine ⟨h.le, h.fits, h.rest, (name, s.offset, s'.offset) :: new, by rw [hnew]; rfl, fun g hg => ?_⟩
  rcases List.mem_cons.1 hg with rfl | hg
  · exact ⟨Nat.le_refl _, h.le, Nat.le_refl _⟩
  · exact hin g hg

end Spot.Ahead

/-- One symbol that passes a test, between two spots. -/
def Spot.Takes (test : α → Bool) (s s' : Spot α) : Prop :=
  ∃ a, s.rest.head? = some a ∧ test a = true ∧ s'.offset = s.offset + 1

variable {s r : Spot α} {next : Then α}

theorem run_one {test : α → Bool} (h : (one test).run s next = some r) :
    ∃ s', s.Ahead s' ∧ s.Takes test s' ∧ next s' = some r := by
  rw [run] at h
  split at h
  · cases h
  · next a rest hrest =>
    split at h
    · next htest =>
      refine ⟨⟨some a, s.offset + 1, rest, s.groups⟩, ⟨Nat.le_succ _, ?_, ?_, [], rfl, by simp⟩,
        ⟨a, by rw [hrest]; rfl, htest, rfl⟩, h⟩
      · simp [hrest]
      · simp [hrest]
    · cases h

theorem repeated_ahead {greedy : Bool} {part : Spot α → Then α → Option (Spot α)}
    (hpart : ∀ {s r : Spot α} {next : Then α}, part s next = some r → ∃ s', s.Ahead s' ∧ next s' = some r)
    (count : Nat) (h : repeated greedy part count s next = some r) : ∃ s', s.Ahead s' ∧ next s' = some r := by
  induction count generalizing s with
  | zero => exact ⟨s, .refl s, h⟩
  | succ count ih =>
    have hagain : part s (fun s' => if s.offset < s'.offset then repeated greedy part count s' next else none) = some r →
        ∃ s', s.Ahead s' ∧ next s' = some r := by
      intro h
      obtain ⟨s', hs', h⟩ := hpart h
      split at h
      · obtain ⟨s'', hs'', h⟩ := ih h
        exact ⟨s'', hs'.trans hs'', h⟩
      · cases h
    have hstop : next s = some r → ∃ s', s.Ahead s' ∧ next s' = some r := fun h => ⟨s, .refl s, h⟩
    rw [repeated] at h
    cases greedy <;> simp only [Bool.false_eq_true, if_false, if_true, Option.orElse_eq_or, Option.or_eq_some_iff] at h
    · exact h.elim hstop fun h => hagain h.2
    · exact h.elim hagain fun h => hstop h.2

/-- What matching answers with, it was handed at a spot further on. -/
theorem run_ahead (p : Pattern α) (h : p.run s next = some r) : ∃ s', s.Ahead s' ∧ next s' = some r := by
  induction p generalizing s r next with
  | nothing => exact ⟨s, .refl s, h⟩
  | one test =>
    obtain ⟨s', hs', -, h⟩ := run_one h
    exact ⟨s', hs', h⟩
  | place test =>
    rw [run] at h
    split at h
    · exact ⟨s, .refl s, h⟩
    · cases h
  | seq p q ihp ihq =>
    obtain ⟨s', hs', h⟩ := ihp h
    obtain ⟨s'', hs'', h⟩ := ihq h
    exact ⟨s'', hs'.trans hs'', h⟩
  | alt p q ihp ihq =>
    rw [run, Option.orElse_eq_or, Option.or_eq_some_iff] at h
    exact h.elim (fun h => ihp h) fun h => ihq h.2
  | many greedy p ih => exact repeated_ahead ih _ h
  | group name p ih =>
    obtain ⟨s', hs', h⟩ := ih h
    exact ⟨_, hs'.group name, h⟩

/-! ## The parts of a sequence -/

theorem run_seqs_cons (p : Pattern α) (ps : List (Pattern α)) (s : Spot α) (next : Then α) :
    (seqs (p :: ps)).run s next = p.run s fun s' => (seqs ps).run s' next := by
  cases ps <;> rfl

theorem run_seqs_append (ps qs : List (Pattern α)) (s : Spot α) (next : Then α) :
    (seqs (ps ++ qs)).run s next = (seqs ps).run s fun s' => (seqs qs).run s' next := by
  induction ps generalizing s with
  | nil => rfl
  | cons p ps ih =>
    rw [List.cons_append, run_seqs_cons, run_seqs_cons]
    simp only [ih]

/-- The symbol that a pattern ends with. -/
def EndsWith (test : α → Bool) (p : Pattern α) : Prop :=
  ∀ ⦃s r : Spot α⦄ ⦃next : Then α⦄, p.run s next = some r →
    ∃ s' s'', s.Ahead s' ∧ s'.Ahead s'' ∧ s'.Takes test s'' ∧ next s'' = some r

theorem endsWith_one (test : α → Bool) : (one test).EndsWith test := fun s _ _ h => by
  obtain ⟨s', hs', htakes, h⟩ := run_one h
  exact ⟨s, s', .refl s, hs', htakes, h⟩

theorem EndsWith.seqs {test : α → Bool} {q : Pattern α} (hq : q.EndsWith test) (ps : List (Pattern α)) :
    (Pattern.seqs (ps ++ [q])).EndsWith test := by
  intro s r next h
  rw [run_seqs_append] at h
  obtain ⟨s', hs', h⟩ := run_ahead _ h
  obtain ⟨t, t', ht, htt', htakes, h⟩ := hq h
  exact ⟨t, t', hs'.trans ht, htt', htakes, h⟩

theorem EndsWith.seqs_of_getLast? {test : α → Bool} {q : Pattern α} (hq : q.EndsWith test) {ps : List (Pattern α)}
    (hps : ps.getLast? = some q) : (Pattern.seqs ps).EndsWith test := by
  obtain ⟨init, rfl⟩ := List.getLast?_eq_some_iff.1 hps
  exact hq.seqs init

/-- A pattern that always records a group. -/
def Records (name : String) (p : Pattern α) : Prop :=
  ∀ ⦃s r : Spot α⦄ ⦃next : Then α⦄, p.run s next = some r →
    ∃ s', s.Ahead s' ∧ (s'.groups.lookup name).isSome ∧ next s' = some r

theorem records_group (name : String) (p : Pattern α) : (group name p).Records name := fun _ _ _ h => by
  obtain ⟨s', hs', h⟩ := run_ahead p h
  exact ⟨_, hs'.group name, by simp, h⟩

theorem Spot.Ahead.lookup {s s' : Spot α} (h : s.Ahead s') {name : String} (hsome : (s.groups.lookup name).isSome) :
    (s'.groups.lookup name).isSome := by
  obtain ⟨new, hnew, -⟩ := h.groups
  rw [hnew, List.lookup_append]
  cases new.lookup name with
  | none => simpa using hsome
  | some g => simp

theorem Records.seqs {name : String} {q : Pattern α} (hq : q.Records name) (ps qs : List (Pattern α)) :
    (Pattern.seqs (ps ++ q :: qs)).Records name := by
  intro s r next h
  rw [run_seqs_append] at h
  obtain ⟨s', hs', h⟩ := run_ahead _ h
  rw [run_seqs_cons] at h
  obtain ⟨t, ht, hlookup, h⟩ := hq h
  obtain ⟨t', ht', h⟩ := run_ahead _ h
  exact ⟨t', (hs'.trans ht).trans ht', ht'.lookup hlookup, h⟩

/-! ## Matches -/

theorem findFrom?_eq_some {p : Pattern α} {before : Option α} {offset : Nat} {rest : List α} {found : Found}
    (h : p.findFrom? before offset rest = some found) :
    ∃ n b s', n ≤ rest.length ∧ p.run ⟨b, offset + n, rest.drop n, []⟩ some = some s' ∧
      found = ⟨offset + n, s'.offset, s'.groups⟩ := by
  induction rest generalizing before offset with
  | nil =>
    rw [findFrom?] at h
    split at h
    · next found' hmatch =>
      cases h
      obtain ⟨s', hs', rfl⟩ := Option.map_eq_some_iff.1 hmatch
      exact ⟨0, before, s', Nat.le_refl _, hs', rfl⟩
    · cases h
  | cons a rest ih =>
    rw [findFrom?] at h
    split at h
    · next found' hmatch =>
      cases h
      obtain ⟨s', hs', rfl⟩ := Option.map_eq_some_iff.1 hmatch
      exact ⟨0, before, s', Nat.zero_le _, hs', rfl⟩
    · obtain ⟨n, b, s', hn, hs', rfl⟩ := ih h
      refine ⟨n + 1, b, s', by simpa using hn, ?_, ?_⟩
      · rw [← Nat.add_right_comm, Nat.add_assoc] at hs'
        exact hs'
      · rw [Nat.add_assoc, Nat.add_comm 1]

section Find

variable {p : Pattern α} {text : List α} {found : Found} (h : p.find? text = some found)
include h

theorem find?_eq_some : ∃ b s', found.start ≤ text.length ∧ p.run ⟨b, found.start, text.drop found.start, []⟩ some = some s' ∧
    found.stop = s'.offset ∧ found.groups = s'.groups := by
  obtain ⟨n, b, s', hn, hs', rfl⟩ := findFrom?_eq_some h
  rw [Nat.zero_add] at hs'
  exact ⟨b, s', by simpa using hn, by simpa using hs', rfl, rfl⟩

theorem find?_bounds : found.start ≤ found.stop ∧ found.stop ≤ text.length := by
  obtain ⟨b, s', hn, hs', hstop, -⟩ := find?_eq_some h
  obtain ⟨s, hs, heq⟩ := run_ahead p hs'
  cases heq
  have hle := hs.le
  have hfits := hs.fits
  rw [List.length_drop] at hfits
  dsimp only at hle hfits
  omega

theorem find?_group {name : String} {start stop : Nat} (hgroup : found.group? name = some (start, stop)) :
    found.start ≤ start ∧ start ≤ stop ∧ stop ≤ found.stop := by
  obtain ⟨b, s', -, hs', hstop, hgroups⟩ := find?_eq_some h
  obtain ⟨s, hs, heq⟩ := run_ahead p hs'
  cases heq
  obtain ⟨new, hnew, hin⟩ := hs.groups
  rw [Found.group?, hgroups, hnew, List.append_nil] at hgroup
  obtain ⟨pre, post, hmem⟩ := List.lookup_eq_some_iff.1 hgroup
  have hbounds := hin (name, start, stop) (by rw [hmem.1]; simp)
  rw [hstop]
  exact hbounds

theorem find?_records {name : String} (hp : p.Records name) : ∃ start stop, found.group? name = some (start, stop) := by
  obtain ⟨b, s', -, hs', -, hgroups⟩ := find?_eq_some h
  obtain ⟨s, -, hsome, heq⟩ := hp hs'
  cases heq
  rw [← hgroups] at hsome
  obtain ⟨⟨start, stop⟩, hget⟩ := Option.isSome_iff_exists.1 hsome
  exact ⟨start, stop, hget⟩

/-- The last symbol of a match, for a pattern that ends with a symbol. -/
theorem find?_last {test : α → Bool} (hp : p.EndsWith test) :
    found.start < found.stop ∧ ∃ a, text[found.stop - 1]? = some a ∧ test a = true := by
  obtain ⟨b, s', hn, hs', hstop, -⟩ := find?_eq_some h
  obtain ⟨t, t', ht, -, ⟨a, ha, htest, htaken⟩, heq⟩ := hp hs'
  cases heq
  have hle := ht.le
  rw [ht.rest, List.drop_drop, List.head?_drop] at ha
  dsimp only at hle ha
  refine ⟨by omega, a, ?_, htest⟩
  rw [← ha]
  congr 1
  omega

end Find

end CodeIndex.Pattern
