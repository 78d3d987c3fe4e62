import CodeIndex.Proofs.ScriptBytes
import CodeIndex.Proofs.ScriptSeen

set_option autoImplicit false

/-!
# A search for a bracket and what is seen

One step of the search over bytes leads over a byte, over two or over a whole comment.  Whichever it is, what the step
does to the number of open brackets is decided by what is seen of the stretch that it leads over.
-/

namespace CodeIndex.Script.ByOffset

open Text

variable {source needle : List Char} {pos : Nat}

/-! ## From bytes to characters -/

theorem exists_place_of_byte {c : Char} (hc : c.toNat < 128) (h : (bytes source)[pos]? = some (byte c)) :
    ∃ place, source[place]? = some c ∧ offsetOf source place = pos := by
  have hbyte : (byte c).toNat < 128 := by
    rw [byte, UInt32.toNat_toUInt8]
    exact Nat.lt_of_le_of_lt (Nat.mod_le _ _) hc
  obtain ⟨place, d, hd, hascii, hoffset, heq⟩ := exists_place_of_ascii h hbyte
  exact ⟨place, (byte_eq_iff hascii hc).1 heq ▸ hd, hoffset⟩

theorem isPrefix_of_bytes (hneedle : ∀ c ∈ needle, c.toNat < 128) {cs : List Char} (h : bytes needle <+: bytes cs) :
    needle <+: cs := by
  induction needle generalizing cs with
  | nil => exact List.nil_prefix
  | cons c needle ih =>
    obtain ⟨hc, hneedle⟩ := List.forall_mem_cons.1 hneedle
    rw [bytes_cons_ascii hc] at h
    obtain ⟨rest, hrest⟩ := h
    have hhead : (bytes cs)[offsetOf cs 0]? = some (byte c) := by rw [← hrest]; rfl
    have hget : cs[0]? = some c := (bytes_eq_iff hc).1 hhead
    cases cs with
    | nil => cases hget
    | cons d cs =>
      cases hget
      rw [bytes_cons_ascii hc] at hrest
      exact (List.prefix_cons_inj c).2 (ih hneedle ⟨rest, (List.cons.inj hrest).2⟩)

theorem bytes_eq_append_of_prefix {cs : List Char} {n : Nat} (h : needle <+: cs.drop n) :
    ∃ after, bytes cs = bytes (cs.take n) ++ bytes needle ++ after := by
  obtain ⟨after, hafter⟩ := h
  refine ⟨bytes after, ?_⟩
  rw [← bytes_append, ← bytes_append, List.append_assoc, hafter, List.take_append_drop]

theorem find?_eq_none_of_bytes {cs : List Char} (h : ¬ bytes needle <:+: bytes cs) : find? needle cs = none := by
  cases hfind : find? needle cs with
  | none => rfl
  | some n =>
    obtain ⟨after, hcs⟩ := bytes_eq_append_of_prefix (find?_isPrefix hfind)
    exact absurd ⟨_, after, hcs.symm⟩ h

/-- Where bytes in ASCII occur for the first time, their characters do. -/
theorem find?_of_bytes (hneedle : ∀ c ∈ needle, c.toNat < 128) (hne : needle ≠ []) {cs : List Char}
    {before after : List UInt8} (h : bytes cs = before ++ bytes needle ++ after)
    (hfirst : ¬ bytes needle <:+: before ++ (bytes needle).dropLast) :
    ∃ n, find? needle cs = some n ∧ offsetOf cs n = before.length := by
  obtain ⟨c, rest, rfl⟩ := List.exists_cons_of_ne_nil hne
  have hc : c.toNat < 128 := hneedle c List.mem_cons_self
  have hget : (bytes cs)[before.length]? = some (byte c) := by
    rw [h, bytes_cons_ascii hc, List.append_assoc, List.getElem?_append_right (Nat.le_refl _), Nat.sub_self]
    rfl
  obtain ⟨n, hplace, hoffset⟩ := exists_place_of_byte hc hget
  refine ⟨n, find?_eq_some ?_ fun m hm hpre => ?_, hoffset⟩
  · apply isPrefix_of_bytes hneedle
    rw [← drop_bytes, hoffset, h, List.append_assoc, List.drop_left]
    exact List.prefix_append _ _
  · -- an occurrence before that one would be one in the bytes before it
    obtain ⟨after', hcs⟩ := bytes_eq_append_of_prefix hpre
    have hlt : (bytes (cs.take m)).length < before.length := by
      rw [length_bytes, ← hoffset]
      exact offsetOf_lt hm (hm.trans (lt_length_of_getElem? hplace))
    exact hfirst (infix_of_lt (hcs.symm.trans h) hlt)

/-! ## Over comments -/

section Jump

variable {cs : List Char} {stretch rest : List UInt8}

theorem find?_of_lined (h : Lined stretch rest) (hcs : bytes cs = lineOpening ++ stretch ++ rest) :
    (find? ['\n'] cs).elim (size cs) (offsetOf cs) = (lineOpening ++ stretch).length := by
  have hnone : byte '\n' ∉ lineOpening ++ stretch := by
    rw [List.mem_append, not_or]
    exact ⟨by decide, h.noFeed⟩
  cases rest with
  | nil =>
    have hfind : find? ['\n'] cs = none := by
      refine find?_eq_none_of_bytes fun hinfix => hnone ?_
      rw [hcs, List.append_nil] at hinfix
      exact hinfix.subset List.mem_cons_self
    rw [hfind, Option.elim_none, ← length_bytes, hcs, List.append_nil]
  | cons b rest =>
    obtain rfl : b = byte '\n' := h.feed b rfl
    have hfirst : ¬ bytes ['\n'] <:+: (lineOpening ++ stretch) ++ (bytes ['\n']).dropLast := fun hinfix => by
      have hmem : byte '\n' ∈ (lineOpening ++ stretch) ++ [] := hinfix.subset List.mem_cons_self
      exact hnone (by rwa [List.append_nil] at hmem)
    have hneedle : ∀ c ∈ ['\n'], c.toNat < 128 := by simp
    obtain ⟨n, hn, hoffset⟩ := find?_of_bytes hneedle (by decide) (hcs.trans (List.append_cons _ _ _)) hfirst
    rw [hn, Option.elim_some, hoffset]

theorem find?_of_enclosed (h : Enclosed stretch rest) (hcs : bytes cs = stretch ++ rest) :
    (find? commentClosing cs).elim (size cs) (fun n => offsetOf cs n + 2) = stretch.length := by
  cases h with
  | close rest hfirst =>
    have hneedle : ∀ c ∈ commentClosing, c.toNat < 128 := by simp [commentClosing]
    obtain ⟨n, hn, hoffset⟩ := find?_of_bytes hneedle (by decide) hcs hfirst
    rw [hn, Option.elim_some, hoffset, List.length_append]
    rfl
  | unclosed hnone =>
    rw [List.append_nil] at hcs
    have hfind : find? commentClosing cs = none := find?_eq_none_of_bytes (hcs ▸ hnone)
    rw [hfind, Option.elim_none, ← length_bytes, hcs]

end Jump

/-! ## One step -/

/-- What is ahead of a search, and what of it is seen: a text in code, or what is left of a stretch between quotes and a text
    in code behind it. -/
inductive Ahead : Option UInt8 → List UInt8 → List (Option UInt8) → Prop
  | code {text : List UInt8} {seen : List (Option UInt8)} (h : Sees text seen) : Ahead none text seen
  | quoted {q : UInt8} {stretch rest : List UInt8} {seen : List (Option UInt8)} (hq : IsQuote q)
    (hstretch : Quoted q stretch rest) (h : Sees rest seen) :
    Ahead (some q) (stretch ++ rest) (List.replicate stretch.length none ++ seen)

section Step

variable {opener closer b q : UInt8} {text stretch rest : List UInt8} {state : Nesting}

theorem getElem?_of_drop (h : (bytes source).drop pos = b :: text) : (bytes source)[pos]? = some b := by
  rw [← Nat.add_zero pos, ← List.getElem?_drop, h]
  rfl

theorem getElem?_succ_of_drop (h : (bytes source).drop pos = b :: text) : (bytes source)[pos + 1]? = text.head? := by
  rw [← List.getElem?_drop, h, List.head?_eq_getElem?]
  rfl

theorem drop_succ_of_drop (h : (bytes source).drop pos = b :: text) : (bytes source).drop (pos + 1) = text := by
  rw [← List.drop_drop, h]
  rfl

theorem closingStep_inside (hget : (bytes source)[pos]? = some b) (hquote : state.quote = some q) :
    closingStep source opener closer pos state = .ok (
      if b = byte '\\' then (some (pos + 2), state)
      else (some (pos + 1), if b = q then { state with quote := none } else state)) := by
  rw [closingStep, hget, hquote]
  simp only [orCut_some, ok_bind, pure_eq_ok]
  split <;> rfl

theorem closingStep_opening (hget : (bytes source)[pos]? = some q) (hquote : state.quote = none) (hq : IsQuote q) :
    closingStep source opener closer pos state = .ok (some (pos + 1), { state with quote := some q }) := by
  rw [closingStep, hget, hquote]
  exact if_pos hq

/-- Where no hidden stretch starts, a byte counts as what it is. -/
theorem closingStep_seen (hdrop : (bytes source).drop pos = b :: text) (hquote : state.quote = none)
    (hcode : ¬ StartsHidden (b :: text)) :
    closingStep source opener closer pos state = .ok (
      if b = opener then (some (pos + 1), { state with depth := state.depth + 1 })
      else if b = closer then
        if state.depth - 1 = 0 then (none, { state with found := some pos })
        else (some (pos + 1), { state with depth := state.depth - 1 })
      else (some (pos + 1), state)) := by
  have hopening : ¬ (b = byte '"' ∨ b = byte '\'' ∨ b = byte '\x60') := fun h => hcode (.inl ⟨b, rfl, h⟩)
  have hline : ¬ (b = byte '/' ∧ text.head? = some (byte '/')) := by
    rintro ⟨rfl, hnext⟩
    obtain ⟨rest, rfl⟩ := List.head?_eq_some_iff.1 hnext
    exact hcode (.inr (.inl ⟨rest, rfl⟩))
  have hblock : ¬ (b = byte '/' ∧ text.head? = some (byte '*')) := by
    rintro ⟨rfl, hnext⟩
    obtain ⟨rest, rfl⟩ := List.head?_eq_some_iff.1 hnext
    exact hcode (.inr (.inr ⟨rest, rfl⟩))
  rw [closingStep, getElem?_of_drop hdrop, getElem?_succ_of_drop hdrop, hquote]
  simp only [orCut_some, ok_bind, pure_eq_ok, if_neg hopening, if_neg hline, if_neg hblock]
  split
  · rfl
  split
  · split <;> rfl
  · rfl

theorem size_eq_offsetOf_add (source : List Char) (place : Nat) :
    size source = offsetOf source place + size (source.drop place) := by
  rw [offsetOf, ← size_append, List.take_append_drop]

theorem closingStep_line (hdrop : (bytes source).drop pos = lineOpening ++ stretch ++ rest) (hquote : state.quote = none)
    (h : Lined stretch rest) :
    closingStep source opener closer pos state = .ok (some (pos + (lineOpening ++ stretch).length), state) := by
  have hcons : (bytes source).drop pos = byte '/' :: byte '/' :: (stretch ++ rest) := hdrop
  obtain ⟨place, -, rfl⟩ := exists_place_of_byte (by decide) (getElem?_of_drop hcons)
  have hjump := find?_of_lined h ((drop_bytes source place).symm.trans hdrop)
  have hopening : ¬ (byte '/' = byte '"' ∨ byte '/' = byte '\'' ∨ byte '/' = byte '\x60') := by decide
  rw [closingStep, getElem?_of_drop hcons, getElem?_succ_of_drop hcons, hquote, fromOffset?_offsetOf, ← hjump]
  simp only [orCut_some, ok_bind, pure_eq_ok, if_neg hopening, List.head?_cons, and_self, if_true]
  cases find? ['\n'] (source.drop place) with
  | none => rw [Option.elim_none, Option.elim_none, ← size_eq_offsetOf_add]
  | some n => rfl

theorem closingStep_block (hdrop : (bytes source).drop pos = blockOpening ++ stretch ++ rest) (hquote : state.quote = none)
    (h : Enclosed stretch rest) :
    closingStep source opener closer pos state = .ok (some (pos + (blockOpening ++ stretch).length), state) := by
  have hcons : (bytes source).drop pos = byte '/' :: byte '*' :: (stretch ++ rest) := hdrop
  have hinside : (bytes source).drop (pos + 2) = stretch ++ rest := by rw [← List.drop_drop, hcons]; rfl
  obtain ⟨place, hstar, hplace⟩ := exists_place_of_byte (by decide) (getElem?_of_drop (drop_succ_of_drop hcons))
  have hoffset : offsetOf source (place + 1) = pos + 2 := by rw [offsetOf_succ_ascii hstar (by decide), hplace]
  have hjump := find?_of_enclosed h ((drop_bytes source (place + 1)).symm.trans (hoffset ▸ hinside))
  have hopening : ¬ (byte '/' = byte '"' ∨ byte '/' = byte '\'' ∨ byte '/' = byte '\x60') := by decide
  have hline : ¬ (byte '*' = byte '/') := by decide
  rw [closingStep, getElem?_of_drop hcons, getElem?_succ_of_drop hcons, hquote, ← hoffset, fromOffset?_offsetOf,
    List.length_append, ← hjump]
  simp only [orCut_some, ok_bind, pure_eq_ok, if_neg hopening, List.head?_cons, Option.some.injEq, hline, and_false, and_self,
    if_true, if_false]
  cases find? commentClosing (source.drop (place + 1)) with
  | none =>
    rw [Option.elim_none, Option.elim_none, size_eq_offsetOf_add source (place + 1), hoffset, Nat.add_assoc]
    rfl
  | some n =>
    rw [Option.elim_some, Option.elim_some, hoffset]
    simp only [Nat.add_assoc]
    rfl

end Step

/-- What one step does, by what is seen of the text that is ahead. -/
inductive Leads (opener closer : UInt8) (source : List Char) (pos : Nat) (state : Nesting) :
    List (Option UInt8) → Option Nat × Nesting → Prop
  /-- No bracket is seen in what the step leads over. -/
  | passes {ahead : List (Option UInt8)} {n : Nat} {quote : Option UInt8} (hpos : 0 < n)
    (hplain : ∀ b, some b ∈ ahead.take n → b ≠ opener ∧ b ≠ closer)
    (h : Ahead quote ((bytes source).drop (pos + n)) (ahead.drop n)) :
    Leads opener closer source pos state ahead (some (pos + n), { state with quote := quote })
  | opens {ahead : List (Option UInt8)} (h : Ahead state.quote ((bytes source).drop (pos + 1)) ahead) :
    Leads opener closer source pos state (some opener :: ahead) (some (pos + 1), { state with depth := state.depth + 1 })
  | closes {ahead : List (Option UInt8)} (hdepth : state.depth - 1 ≠ 0)
    (h : Ahead state.quote ((bytes source).drop (pos + 1)) ahead) :
    Leads opener closer source pos state (some closer :: ahead) (some (pos + 1), { state with depth := state.depth - 1 })
  | ends {ahead : List (Option UInt8)} (hdepth : state.depth - 1 = 0) :
    Leads opener closer source pos state (some closer :: ahead) (none, { state with found := some pos })

section Leads

variable {opener closer q : UInt8} {text stretch rest : List UInt8} {seen ahead : List (Option UInt8)} {depth : Nat}
  {found : Option Nat}

theorem Leads.passes_hidden {n left total : Nat} {quote quote' : Option UInt8} (hpos : 0 < n) (htotal : total = n + left)
    (h : Ahead quote' ((bytes source).drop (pos + n)) (List.replicate left none ++ seen)) :
    Leads opener closer source pos ⟨depth, quote, found⟩ (List.replicate total none ++ seen)
      (some (pos + n), ⟨depth, quote', found⟩) := by
  rw [htotal, List.replicate_add, List.append_assoc]
  refine .passes hpos (fun b hb => ?_) ?_
  · rw [List.take_left' List.length_replicate] at hb
    cases List.eq_of_mem_replicate hb
  · rwa [List.drop_left' List.length_replicate]

theorem Leads.passes_stretch {n : Nat} {quote quote' : Option UInt8} (hpos : 0 < n)
    (h : Ahead quote' ((bytes source).drop (pos + n)) seen) :
    Leads opener closer source pos ⟨depth, quote, found⟩ (List.replicate n none ++ seen)
      (some (pos + n), ⟨depth, quote', found⟩) :=
  .passes_hidden hpos (Nat.add_zero n).symm h

theorem drop_ne_nil (hpos : pos < size source) : (bytes source).drop pos ≠ [] := by
  rw [Ne, List.drop_eq_nil_iff, length_bytes]
  exact Nat.not_le.2 hpos

theorem closingStep_leads_quoted (hdrop : (bytes source).drop pos = stretch ++ rest) (hpos : pos < size source)
    (hq : IsQuote q) (hstretch : Quoted q stretch rest) (h : Sees rest seen) :
    ∃ result, closingStep source opener closer pos ⟨depth, some q, found⟩ = .ok result ∧
      Leads opener closer source pos ⟨depth, some q, found⟩ (List.replicate stretch.length none ++ seen) result := by
  cases hstretch with
  | close rest =>
    refine ⟨_, closingStep_inside (getElem?_of_drop hdrop) rfl, ?_⟩
    rw [if_neg hq.ne_escape, if_pos rfl]
    have hbehind : (bytes source).drop (pos + 1) = rest := drop_succ_of_drop hdrop
    exact .passes_stretch Nat.one_pos (.code (hbehind ▸ h))
  | @escaped stretch rest b hstretch =>
    have hbehind : (bytes source).drop (pos + 2) = stretch ++ rest := by rw [← List.drop_drop, hdrop]; rfl
    refine ⟨_, closingStep_inside (getElem?_of_drop hdrop) rfl, ?_⟩
    rw [if_pos rfl]
    exact .passes_hidden Nat.two_pos (Nat.add_comm _ 2) (hbehind ▸ .quoted hq hstretch h)
  | plain hescape hquote hstretch =>
    refine ⟨_, closingStep_inside (getElem?_of_drop hdrop) rfl, ?_⟩
    rw [if_neg hescape, if_neg hquote]
    exact .passes_hidden Nat.one_pos (Nat.add_comm _ 1) (drop_succ_of_drop hdrop ▸ .quoted hq hstretch h)
  | unclosed => exact absurd hdrop (drop_ne_nil hpos)
  | cut =>
    -- the step leads over a byte more than there is
    obtain rfl : seen = [] := h.eq .nil rfl
    have hbehind : (bytes source).drop (pos + 2) = [] ++ [] := by rw [← List.drop_drop, hdrop]; rfl
    refine ⟨_, closingStep_inside (getElem?_of_drop hdrop) rfl, ?_⟩
    rw [if_pos rfl]
    exact .passes Nat.two_pos (fun b hb => by simp at hb) (hbehind ▸ .quoted hq .unclosed .nil)

theorem closingStep_leads_code (hdrop : (bytes source).drop pos = text) (hpos : pos < size source) (h : Sees text seen) :
    ∃ result, closingStep source opener closer pos ⟨depth, none, found⟩ = .ok result ∧
      Leads opener closer source pos ⟨depth, none, found⟩ seen result := by
  have hbehind : ∀ {stretch rest}, (bytes source).drop pos = stretch ++ rest →
      (bytes source).drop (pos + stretch.length) = rest := fun hdrop => by
    rw [← List.drop_drop, hdrop, List.drop_left]
  cases h with
  | nil => exact absurd hdrop (drop_ne_nil hpos)
  | @code b text seen hcode h =>
    have hahead : Ahead none ((bytes source).drop (pos + 1)) seen := .code (drop_succ_of_drop hdrop ▸ h)
    refine ⟨_, closingStep_seen hdrop rfl hcode, ?_⟩
    by_cases hopen : b = opener
    · rw [if_pos hopen, hopen]
      exact .opens hahead
    rw [if_neg hopen]
    by_cases hclose : b = closer
    · subst hclose
      rw [if_pos rfl]
      split
      · next hdepth => exact .ends hdepth
      · next hdepth => exact .closes hdepth hahead
    · rw [if_neg hclose]
      exact .passes Nat.one_pos (fun c hc => by simp_all) hahead
  | hidden hstretch h =>
    cases hstretch with
    | quoted hq hstretch =>
      refine ⟨_, closingStep_opening (getElem?_of_drop hdrop) rfl hq, ?_⟩
      exact .passes_hidden Nat.one_pos (Nat.add_comm _ 1) (drop_succ_of_drop hdrop ▸ .quoted hq hstretch h)
    | lineComment hlined =>
      exact ⟨_, closingStep_line hdrop rfl hlined, .passes_stretch (Nat.succ_pos _) (.code (hbehind hdrop ▸ h))⟩
    | comment henclosed =>
      exact ⟨_, closingStep_block hdrop rfl henclosed, .passes_stretch (Nat.succ_pos _) (.code (hbehind hdrop ▸ h))⟩

theorem closingStep_leads {state : Nesting} (h : Ahead state.quote ((bytes source).drop pos) ahead)
    (hpos : pos < size source) :
    ∃ result, closingStep source opener closer pos state = .ok result ∧
      Leads opener closer source pos state ahead result := by
  obtain ⟨depth, quote, found⟩ := state
  generalize hdrop : (bytes source).drop pos = text at h
  cases h with
  | code h => exact closingStep_leads_code hdrop hpos h
  | quoted hq hstretch h => exact closingStep_leads_quoted hdrop hpos hq hstretch h

end Leads

end CodeIndex.Script.ByOffset
