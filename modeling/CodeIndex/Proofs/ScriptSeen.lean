import CodeIndex.Proofs.ScriptOffsets
import Mathlib.Data.List.Infix
import Mathlib.Data.List.TakeWhile

set_option autoImplicit false

/-!
# What of a script is seen

Read from where code is, a script hides what stands between quotes and in comments, and the rest is seen.  Here this is
said of bytes and without a search: which stretches are hidden, and that a byte is seen where none of them starts.  Every
text can be read in this way, and in one way only.
-/

namespace CodeIndex.Script.ByOffset

open Text

def IsQuote (b : UInt8) : Prop := b = byte '"' ∨ b = byte '\'' ∨ b = byte '\x60'

def lineOpening : List UInt8 := [byte '/', byte '/']

def blockOpening : List UInt8 := [byte '/', byte '*']

def blockClosing : List UInt8 := [byte '*', byte '/']

/-- What is left of a stretch between quotes, and what follows it.  A backslash hides the byte after it; without a closing
    quote everything is hidden. -/
inductive Quoted (q : UInt8) : List UInt8 → List UInt8 → Prop
  | close (rest : List UInt8) : Quoted q [q] rest
  | escaped {stretch rest : List UInt8} (b : UInt8) (h : Quoted q stretch rest) : Quoted q (byte '\\' :: b :: stretch) rest
  | plain {b : UInt8} {stretch rest : List UInt8} (hescape : b ≠ byte '\\') (hquote : b ≠ q) (h : Quoted q stretch rest) :
    Quoted q (b :: stretch) rest
  | unclosed : Quoted q [] []
  | cut : Quoted q [byte '\\'] []

/-- What is left of a comment up to the end of its line, and what follows it. -/
structure Lined (stretch rest : List UInt8) : Prop where
  noFeed : byte '\n' ∉ stretch
  feed : ∀ b ∈ rest.head?, b = byte '\n'

/-- What is left of a comment between delimiters, and what follows it: it ends with the first closing, or never. -/
inductive Enclosed : List UInt8 → List UInt8 → Prop
  | close {text : List UInt8} (rest : List UInt8) (h : ¬ blockClosing <:+: text ++ [byte '*']) :
    Enclosed (text ++ blockClosing) rest
  | unclosed {text : List UInt8} (h : ¬ blockClosing <:+: text) : Enclosed text []

/-- A stretch that is hidden, and what follows it. -/
inductive Hidden : List UInt8 → List UInt8 → Prop
  | quoted {q : UInt8} {stretch rest : List UInt8} (hq : IsQuote q) (h : Quoted q stretch rest) : Hidden (q :: stretch) rest
  | lineComment {stretch rest : List UInt8} (h : Lined stretch rest) : Hidden (lineOpening ++ stretch) rest
  | comment {stretch rest : List UInt8} (h : Enclosed stretch rest) : Hidden (blockOpening ++ stretch) rest

/-- A hidden stretch starts with the text. -/
def StartsHidden (text : List UInt8) : Prop :=
  (∃ q ∈ text.head?, IsQuote q) ∨ lineOpening <+: text ∨ blockOpening <+: text

/-- What is seen of a text that starts in code, with nothing in place of each byte that is hidden. -/
inductive Sees : List UInt8 → List (Option UInt8) → Prop
  | nil : Sees [] []
  | code {b : UInt8} {text : List UInt8} {seen : List (Option UInt8)} (hcode : ¬ StartsHidden (b :: text))
    (h : Sees text seen) : Sees (b :: text) (some b :: seen)
  | hidden {stretch rest : List UInt8} {seen : List (Option UInt8)} (hstretch : Hidden stretch rest) (h : Sees rest seen) :
    Sees (stretch ++ rest) (List.replicate stretch.length none ++ seen)

variable {q : UInt8} {text stretch stretch' rest rest' : List UInt8} {seen seen' : List (Option UInt8)}

theorem Sees.length_eq (h : Sees text seen) : seen.length = text.length := by
  induction h with
  | nil => rfl
  | code _ _ ih => rw [List.length_cons, List.length_cons, ih]
  | hidden _ _ ih => rw [List.length_append, List.length_append, List.length_replicate, ih]

/-! ## First occurrences -/

section Occurrence

variable {α : Type} {needle before before' after after' : List α}

/-- Of two occurrences, the first one ends before the second one does. -/
theorem infix_of_lt (h : before ++ needle ++ after = before' ++ needle ++ after') (hlt : before.length < before'.length) :
    needle <:+: before' ++ needle.dropLast := by
  have hall : before' ++ needle.dropLast <+: before ++ needle ++ after := by
    rw [h]
    exact ((List.prefix_append_right_inj before').2 (List.dropLast_prefix needle)).trans (List.prefix_append _ _)
  have hlen : (before ++ needle).length ≤ (before' ++ needle.dropLast).length := by
    rw [List.length_append, List.length_append, List.length_dropLast]
    omega
  have hpre : before ++ needle <+: before' ++ needle.dropLast :=
    List.prefix_of_prefix_length_le (List.prefix_append _ _) hall hlen
  exact (List.suffix_append before needle).isInfix.trans hpre.isInfix

/-- Before a first occurrence stands the same. -/
theorem eq_of_first (h : before ++ needle ++ after = before' ++ needle ++ after')
    (hfirst : ¬ needle <:+: before ++ needle.dropLast) (hfirst' : ¬ needle <:+: before' ++ needle.dropLast) :
    before = before' := by
  rcases Nat.lt_trichotomy before.length before'.length with hlt | heq | hgt
  · exact absurd (infix_of_lt h hlt) hfirst'
  · rw [List.append_assoc, List.append_assoc] at h
    exact (List.append_inj h heq).1
  · exact absurd (infix_of_lt h.symm hgt) hfirst

/-- What occurs in a text occurs there for a first time. -/
theorem exists_first {text : List α} (hne : needle ≠ []) (h : needle <:+: text) :
    ∃ before after, text = before ++ needle ++ after ∧ ¬ needle <:+: before ++ needle.dropLast := by
  induction text with
  | nil => exact absurd (List.infix_nil.1 h) hne
  | cons c text ih =>
    by_cases hpre : needle <+: c :: text
    · obtain ⟨after, hafter⟩ := hpre
      refine ⟨[], after, hafter.symm, fun hinfix => ?_⟩
      have hlen := hinfix.length_le
      rw [List.nil_append, List.length_dropLast] at hlen
      have := List.length_pos_iff.2 hne
      omega
    · obtain ⟨before, after, rfl, hfirst⟩ := ih ((List.infix_cons_iff.1 h).resolve_left hpre)
      refine ⟨c :: before, after, rfl, fun hinfix => ?_⟩
      rcases List.infix_cons_iff.1 hinfix with hpre' | hinfix'
      · have hall : c :: (before ++ needle.dropLast) <+: c :: (before ++ needle ++ after) :=
          (List.prefix_cons_inj c).2
            (((List.prefix_append_right_inj before).2 (List.dropLast_prefix needle)).trans (List.prefix_append _ _))
        exact hpre (hpre'.trans hall)
      · exact hfirst hinfix'

end Occurrence

/-! ## There is one reading -/

theorem IsQuote.ne_escape (h : IsQuote q) : q ≠ byte '\\' := by
  rcases h with rfl | rfl | rfl <;> decide

theorem exists_quoted (q : UInt8) : ∀ text, ∃ stretch rest, Quoted q stretch rest ∧ text = stretch ++ rest
  | [] => ⟨[], [], .unclosed, rfl⟩
  | [b] => by
    by_cases hescape : b = byte '\\'
    · exact ⟨[b], [], hescape ▸ .cut, rfl⟩
    · by_cases hquote : b = q
      · exact ⟨[b], [], hquote ▸ .close [], rfl⟩
      · exact ⟨[b], [], .plain hescape hquote .unclosed, rfl⟩
  | b :: c :: text => by
    by_cases hescape : b = byte '\\'
    · obtain ⟨stretch, rest, h, rfl⟩ := exists_quoted q text
      exact ⟨b :: c :: stretch, rest, hescape ▸ .escaped c h, rfl⟩
    · by_cases hquote : b = q
      · exact ⟨[b], c :: text, hquote ▸ .close _, rfl⟩
      · obtain ⟨stretch, rest, h, heq⟩ := exists_quoted q (c :: text)
        exact ⟨b :: stretch, rest, .plain hescape hquote h, by rw [heq, List.cons_append]⟩

theorem exists_lined (text : List UInt8) : ∃ stretch rest, Lined stretch rest ∧ text = stretch ++ rest := by
  refine ⟨text.takeWhile (· ≠ byte '\n'), text.dropWhile (· ≠ byte '\n'), ⟨fun hmem => ?_, fun b hb => ?_⟩, ?_⟩
  · simpa using List.mem_takeWhile_imp hmem
  · have hfeed := List.head?_dropWhile_not (· ≠ byte '\n') text
    rw [Option.mem_def.1 hb] at hfeed
    simpa using hfeed
  · exact (List.takeWhile_append_dropWhile).symm

theorem exists_enclosed (text : List UInt8) : ∃ stretch rest, Enclosed stretch rest ∧ text = stretch ++ rest := by
  by_cases hclosing : blockClosing <:+: text
  · obtain ⟨inside, rest, rfl, hfirst⟩ := exists_first (by simp [blockClosing]) hclosing
    exact ⟨_, rest, .close rest hfirst, rfl⟩
  · exact ⟨text, [], .unclosed hclosing, (List.append_nil text).symm⟩

theorem exists_hidden (h : StartsHidden text) : ∃ stretch rest, Hidden stretch rest ∧ text = stretch ++ rest := by
  rcases h with ⟨q, hhead, hq⟩ | ⟨text, rfl⟩ | ⟨text, rfl⟩
  · obtain ⟨text, rfl⟩ := List.head?_eq_some_iff.1 hhead
    obtain ⟨stretch, rest, hquoted, rfl⟩ := exists_quoted q text
    exact ⟨q :: stretch, rest, .quoted hq hquoted, rfl⟩
  · obtain ⟨stretch, rest, hlined, rfl⟩ := exists_lined text
    exact ⟨lineOpening ++ stretch, rest, .lineComment hlined, (List.append_assoc _ _ _).symm⟩
  · obtain ⟨stretch, rest, henclosed, rfl⟩ := exists_enclosed text
    exact ⟨blockOpening ++ stretch, rest, .comment henclosed, (List.append_assoc _ _ _).symm⟩

theorem Hidden.length_pos (h : Hidden stretch rest) : 0 < stretch.length := by
  cases h <;> exact Nat.succ_pos _

theorem exists_sees (text : List UInt8) : ∃ seen, Sees text seen := by
  induction hlen : text.length using Nat.strong_induction_on generalizing text with
  | _ n ih =>
    by_cases hstarts : StartsHidden text
    · obtain ⟨stretch, rest, hstretch, rfl⟩ := exists_hidden hstarts
      have hpos := hstretch.length_pos
      obtain ⟨seen, hseen⟩ := ih rest.length (by rw [← hlen, List.length_append]; omega) rest rfl
      exact ⟨_, .hidden hstretch hseen⟩
    · cases text with
      | nil => exact ⟨[], .nil⟩
      | cons b text =>
        obtain ⟨seen, hseen⟩ := ih text.length (by rw [← hlen, List.length_cons]; omega) text rfl
        exact ⟨some b :: seen, .code hstarts hseen⟩

theorem IsQuote.ne_slash (h : IsQuote q) : q ≠ byte '/' := by
  rcases h with rfl | rfl | rfl <;> decide

theorem Hidden.starts (h : Hidden stretch rest) : StartsHidden (stretch ++ rest) := by
  cases h with
  | quoted hq _ => exact .inl ⟨_, rfl, hq⟩
  | lineComment _ => exact .inr (.inl (by rw [List.append_assoc]; exact List.prefix_append _ _))
  | comment _ => exact .inr (.inr (by rw [List.append_assoc]; exact List.prefix_append _ _))

/-- The text decides where a stretch between quotes ends. -/
theorem Quoted.eq (hq : IsQuote q) (h : Quoted q stretch rest) (h' : Quoted q stretch' rest')
    (heq : stretch ++ rest = stretch' ++ rest') : stretch = stretch' := by
  have hne := hq.ne_escape
  induction h generalizing stretch' with
  | close rest => cases h' <;> simp_all
  | escaped b _ ih =>
    cases h' with
    | escaped b' h' =>
      obtain ⟨hb, htail⟩ := List.cons.inj (List.cons.inj heq).2
      rw [hb, ih h' htail]
    | _ => simp_all
  | plain hescape hquote _ ih =>
    cases h' with
    | plain _ _ h' =>
      obtain ⟨hb, htail⟩ := List.cons.inj heq
      rw [hb, ih h' htail]
    | _ => simp_all
  | unclosed => cases h' <;> simp_all
  | cut => cases h' <;> simp_all

theorem Lined.takeWhile_eq (h : Lined stretch rest) : (stretch ++ rest).takeWhile (· ≠ byte '\n') = stretch := by
  have hall : ∀ b ∈ stretch, decide (b ≠ byte '\n') = true := fun b hb => by
    simpa using fun heq : b = byte '\n' => h.noFeed (heq ▸ hb)
  rw [List.takeWhile_append_of_pos hall]
  cases rest with
  | nil => rw [List.takeWhile_nil, List.append_nil]
  | cons b rest => simp [h.feed b rfl]

theorem Enclosed.eq (h : Enclosed stretch rest) (h' : Enclosed stretch' rest') (heq : stretch ++ rest = stretch' ++ rest') :
    stretch = stretch' := by
  have hclosed : ∀ text rest : List UInt8, blockClosing <:+: text ++ blockClosing ++ rest :=
    fun text rest => ⟨text, rest, rfl⟩
  cases h with
  | close rest hfirst =>
    cases h' with
    | close rest' hfirst' => rw [eq_of_first heq hfirst hfirst']
    | unclosed hnone => exact absurd (by rw [← List.append_nil stretch', ← heq]; exact hclosed _ _) hnone
  | unclosed hnone =>
    cases h' with
    | close rest' _ => exact absurd (by rw [← List.append_nil stretch, heq]; exact hclosed _ _) hnone
    | unclosed _ => rwa [List.append_nil, List.append_nil] at heq

theorem Hidden.eq (h : Hidden stretch rest) (h' : Hidden stretch' rest') (heq : stretch ++ rest = stretch' ++ rest') :
    stretch = stretch' := by
  cases h with
  | quoted hq h =>
    cases h' with
    | quoted hq' h' =>
      obtain ⟨rfl, htail⟩ := List.cons.inj heq
      rw [h.eq hq h' htail]
    | _ => exact absurd (List.cons.inj heq).1 hq.ne_slash
  | lineComment h =>
    cases h' with
    | quoted hq' _ => exact absurd (List.cons.inj heq).1.symm hq'.ne_slash
    | lineComment h' =>
      rw [List.append_assoc, List.append_assoc] at heq
      rw [← h.takeWhile_eq, ← h'.takeWhile_eq, List.append_cancel_left heq]
    | comment _ => exact absurd (List.cons.inj (List.cons.inj heq).2).1 (by decide)
  | comment h =>
    cases h' with
    | quoted hq' _ => exact absurd (List.cons.inj heq).1.symm hq'.ne_slash
    | lineComment _ => exact absurd (List.cons.inj (List.cons.inj heq).2).1 (by decide)
    | comment h' =>
      rw [List.append_assoc, List.append_assoc] at heq
      rw [h.eq h' (List.append_cancel_left heq)]

theorem Sees.eq {text' : List UInt8} (h : Sees text seen) (h' : Sees text' seen') (heq : text = text') : seen = seen' := by
  induction h generalizing text' seen' with
  | nil =>
    cases h' with
    | nil => rfl
    | code _ _ => cases heq
    | hidden hstretch _ => exact absurd hstretch.length_pos (by rw [(List.append_eq_nil_iff.1 heq.symm).1]; decide)
  | code hcode _ ih =>
    cases h' with
    | nil => cases heq
    | code _ h' =>
      obtain ⟨rfl, htail⟩ := List.cons.inj heq
      rw [ih h' htail]
    | hidden hstretch _ => exact absurd (heq ▸ hstretch.starts) hcode
  | hidden hstretch _ ih =>
    cases h' with
    | nil => exact absurd hstretch.length_pos (by rw [(List.append_eq_nil_iff.1 heq).1]; decide)
    | code hcode _ => exact absurd (heq ▸ hstretch.starts) hcode
    | hidden hstretch' h' =>
      obtain rfl := hstretch.eq hstretch' heq
      rw [ih h' (List.append_cancel_left heq)]

theorem existsUnique_sees (text : List UInt8) : ∃ seen, ∀ other, Sees text other ↔ other = seen := by
  obtain ⟨seen, hseen⟩ := exists_sees text
  exact ⟨seen, fun other => ⟨fun h => h.eq hseen rfl, fun h => h ▸ hseen⟩⟩

end CodeIndex.Script.ByOffset
