import CodeIndex.Proofs.ScriptComment
import CodeIndex.Proofs.ScriptOffsets
import CodeIndex.Proofs.ScriptPlaces

set_option autoImplicit false

/-!
# Brackets, byte by byte

The bytes of a character outside ASCII are none that brackets, quotes, comments or backslashes consist of.  So a search
for a bracket that goes over them one by one comes to the same bracket as one that goes over characters, also when a
backslash makes it step into the middle of one.
-/

namespace CodeIndex.Script.ByOffset

open Text

/-! ## What reading answers -/

@[simp] theorem orCut_some {α : Type} (a : α) : orCut (some a) = .ok a := rfl

@[simp] theorem orCut_none {α : Type} : orCut (none : Option α) = .error .cut := rfl

@[simp] theorem ok_bind {α β : Type} (a : α) (f : α → Read β) : ((Except.ok a : Read α) >>= f) = f a := rfl

@[simp] theorem error_bind {α β : Type} (stop : Stop) (f : α → Read β) :
    ((Except.error stop : Read α) >>= f) = .error stop := rfl

@[simp] theorem pure_eq_ok {α : Type} (a : α) : (pure a : Read α) = .ok a := rfl

@[simp] theorem map_ok {α β : Type} (f : α → β) (a : α) : f <$> (Except.ok a : Read α) = .ok (f a) := rfl

@[simp] theorem map_error {α β : Type} (f : α → β) (stop : Stop) : f <$> (Except.error stop : Read α) = .error stop := rfl

/-! ## One round of a loop -/

section Loop

variable {σ : Type} {limit pos next : Nat} {step : Nat → σ → Read (Option Nat × σ)} {state state' : σ}

theorem loop_of_le (h : limit ≤ pos) : loop limit step pos state = .ok state := by
  rw [loop, if_neg (Nat.not_lt.2 h)]

theorem loop_done (h : pos < limit) (hstep : step pos state = .ok (none, state')) : loop limit step pos state = .ok state' := by
  rw [loop, if_pos h, hstep]

theorem loop_next (h : pos < limit) (hstep : step pos state = .ok (some next, state')) (hlt : pos < next) :
    loop limit step pos state = loop limit step next state' := by
  rw [loop, if_pos h, hstep]
  exact if_pos hlt

theorem loop_error {stop : Stop} (h : pos < limit) (hstep : step pos state = .error stop) :
    loop limit step pos state = .error stop := by
  rw [loop, if_pos h, hstep]

end Loop

variable {source : List Char} {place : Nat} {c d : Char}

/-! ## Bytes of characters -/

theorem byte_eq_iff (hc : c.toNat < 128) (hd : d.toNat < 128) : byte c = byte d ↔ c = d := by
  refine ⟨fun h => ?_, fun h => h ▸ rfl⟩
  have hnat := congrArg UInt8.toNat h
  rw [byte, byte, UInt32.toNat_toUInt8, UInt32.toNat_toUInt8] at hnat
  have hc' : c.val.toNat = c.toNat := rfl
  have hd' : d.val.toNat = d.toNat := rfl
  exact Char.ext (UInt32.toNat_inj.1 (by omega))

theorem ne_byte {b : UInt8} (hb : 128 ≤ b.toNat) (hd : d.toNat < 128) : b ≠ byte d := by
  rintro rfl
  rw [byte, UInt32.toNat_toUInt8] at hb
  have hd' : d.val.toNat = d.toNat := rfl
  omega

theorem bytes_ascii (h : source[place]? = some c) (hc : c.toNat < 128) :
    (bytes source)[offsetOf source place]? = some (byte c) := by
  have hbyte := getElem?_bytes h (k := 0) c.utf8Size_pos
  rw [utf8EncodeChar_of_lt hc] at hbyte
  exact hbyte

theorem bytes_wide (h : source[place]? = some c) (hc : 128 ≤ c.toNat) {k : Nat} (hk : k < c.utf8Size) :
    ∃ b, (bytes source)[offsetOf source place + k]? = some b ∧ 128 ≤ b.toNat := by
  have hlt : k < (String.utf8EncodeChar c).length := by rwa [String.length_utf8EncodeChar]
  exact ⟨_, (getElem?_bytes h hk).trans (List.getElem?_eq_getElem hlt), le_of_mem_utf8EncodeChar hc (List.getElem_mem hlt)⟩

theorem bytes_eq_iff (hd : d.toNat < 128) :
    (bytes source)[offsetOf source place]? = some (byte d) ↔ source[place]? = some d := by
  cases hget : source[place]? with
  | none =>
    have hle : source.length ≤ place := List.getElem?_eq_none_iff.1 hget
    simp [offsetOf_of_length_le hle, ← length_bytes]
  | some c =>
    by_cases hc : c.toNat < 128
    · rw [bytes_ascii hget hc, Option.some.injEq, Option.some.injEq, byte_eq_iff hc hd]
    · obtain ⟨b, hb, hwide⟩ := bytes_wide hget (Nat.not_lt.1 hc) c.utf8Size_pos
      rw [Nat.add_zero] at hb
      rw [hb, Option.some.injEq, Option.some.injEq]
      exact iff_of_false (ne_byte hwide hd) fun heq => hc (heq ▸ hd)

theorem offsetOf_succ_ascii (h : source[place]? = some c) (hc : c.toNat < 128) :
    offsetOf source (place + 1) = offsetOf source place + 1 := by
  rw [offsetOf_succ h, utf8Size_eq_one_iff.2 hc]

/-! ## Over comments at once -/

section Comments

variable {opener closer : Char} {depth : Nat} {region : Region}

theorem closingFrom?_over (h : region = .code → c ≠ opener ∧ c ≠ closer) (text : List Char) :
    closingFrom? opener closer region depth (c :: text) =
      (closingFrom? opener closer (region.after text.head? c) depth text).map (· + 1) := by
  have hopener : ¬ ((region = .code) && c = opener : Bool) = true := by simpa using fun hcode => (h hcode).1
  have hcloser : ¬ ((region = .code) && c = closer : Bool) = true := by simpa using fun hcode => (h hcode).2
  rw [closingFrom?, if_neg hopener, if_neg hcloser]

theorem closingFrom?_outside (h : region ≠ .code) (text : List Char) :
    closingFrom? opener closer region depth (c :: text) =
      (closingFrom? opener closer (region.after text.head? c) depth text).map (· + 1) :=
  closingFrom?_over (fun hcode => absurd hcode h) text

/-- In a comment to the end of its line, reading goes on as code at the line feed. -/
theorem closingFrom?_lineComment (hopener : '\n' ≠ opener) (hcloser : '\n' ≠ closer) (text : List Char) :
    closingFrom? opener closer .lineComment depth text =
      (find? ['\n'] text).bind fun n => (closingFrom? opener closer .code depth (text.drop n)).map (n + ·) := by
  induction text with
  | nil => rfl
  | cons c text ih =>
    rw [closingFrom?_outside (show Region.lineComment ≠ .code by simp), find?]
    by_cases hc : c = '\n'
    · subst hc
      have hpre : ['\n'].isPrefixOf ('\n' :: text) = true := by simp
      rw [if_pos hpre, Option.bind_some, List.drop_zero, closingFrom?_over fun _ => ⟨hopener, hcloser⟩]
      simp [Region.after, Region.isQuote, Function.comp_def]
    · have hpre : ¬ ['\n'].isPrefixOf (c :: text) = true := by simpa using Ne.symm hc
      have hafter : Region.after text.head? c .lineComment = .lineComment := if_neg hc
      rw [if_neg hpre, hafter, ih, Option.bind_map, Option.map_bind]
      refine Option.bind_congr fun n _ => ?_
      simp only [Function.comp_def, Option.map_map, List.drop_succ_cons, Nat.add_right_comm]

theorem isPrefixOf_commentClosing {text : List Char} :
    commentClosing.isPrefixOf (c :: text) = true ↔ c = '*' ∧ text.head? = some '/' := by
  have hclosing : commentClosing = ['*', '/'] := rfl
  cases text with
  | nil => simp [hclosing]
  | cons d text => simpa [hclosing] using and_congr (eq_comm (a := '*') (b := c)) (eq_comm (a := '/') (b := d))

/-- In a comment between delimiters, reading goes on as code after the closing one. -/
theorem closingFrom?_comment (text : List Char) :
    closingFrom? opener closer .comment depth text =
      (find? commentClosing text).bind fun n =>
        (closingFrom? opener closer .code depth (text.drop (n + 2))).map (n + 2 + ·) := by
  induction text with
  | nil => rfl
  | cons c text ih =>
    rw [closingFrom?_outside (show Region.comment ≠ .code by simp), find?]
    by_cases hclosing : c = '*' ∧ text.head? = some '/'
    · have hafter : Region.after text.head? c .comment = .closing := if_pos (by simpa using hclosing)
      obtain ⟨rest, rfl⟩ := List.head?_eq_some_iff.1 hclosing.2
      rw [if_pos (isPrefixOf_commentClosing.2 hclosing), hafter, closingFrom?_outside (show Region.closing ≠ .code by simp),
        Option.bind_some]
      simp only [Region.after, Option.map_map, Function.comp_def, Nat.zero_add, List.drop_succ_cons, List.drop_zero]
      congr 1
      funext close
      omega
    · have hafter : Region.after text.head? c .comment = .comment := if_neg (by simpa using hclosing)
      rw [if_neg (mt isPrefixOf_commentClosing.1 hclosing), hafter, ih, Option.bind_map, Option.map_bind]
      refine Option.bind_congr fun n _ => ?_
      simp only [Function.comp_def, Option.map_map, List.drop_succ_cons, Nat.add_right_comm]

end Comments

/-! ## One step of the search -/

/-- What the two readings of brackets need of one: it is in ASCII and starts no comment or quoted stretch. -/
structure Plain (c : Char) : Prop where
  ascii : c.toNat < 128
  noQuote : Region.isQuote c = false
  noSlash : c ≠ '/'
  noFeed : c ≠ '\n'

section Step

variable {opener closer : Char}

theorem offsetOf_comment {n : Nat} (hfind : find? commentClosing (source.drop place) = some n) :
    offsetOf source (place + (n + 2)) = offsetOf source place + offsetOf (source.drop place) n + 2 := by
  have hpre := find?_isPrefix hfind
  rw [List.drop_drop] at hpre
  rw [← Nat.add_assoc, ← offsetOf_add]
  exact offsetOf_add_of_ascii hpre (by simp [commentClosing])

theorem closingStep_code (h : source[place]? = some c) (hc : c.toNat < 128) (hopener : Plain opener) (hcloser : Plain closer)
    (state : Nesting) (hquote : state.quote = none) :
    closingStep source (byte opener) (byte closer) (offsetOf source place) state = .ok (
      if Region.isQuote c then (some (offsetOf source (place + 1)), { state with quote := some (byte c) })
      else if c = '/' ∧ source[place + 1]? = some '/' then
        (some ((find? ['\n'] (source.drop place)).elim (size source) fun n => offsetOf source (place + n)), state)
      else if c = '/' ∧ source[place + 1]? = some '*' then
        (some ((find? commentClosing (source.drop (place + 2))).elim (size source) fun n =>
          offsetOf source (place + 2 + (n + 2))), state)
      else if c = opener then (some (offsetOf source (place + 1)), { state with depth := state.depth + 1 })
      else if c = closer then
        if state.depth ≤ 1 then (none, { state with found := some (offsetOf source place) })
        else (some (offsetOf source (place + 1)), { state with depth := state.depth - 1 })
      else (some (offsetOf source (place + 1)), state)) := by
  have hisQuote : (c = '"' ∨ c = '\'' ∨ c = '\x60') ↔ Region.isQuote c = true := by simp [Region.isQuote, or_assoc]
  have hdepth : state.depth - 1 = 0 ↔ state.depth ≤ 1 := Nat.sub_eq_zero_iff_le
  rw [closingStep, bytes_ascii h hc, hquote]
  simp only [orCut_some, ok_bind, pure_eq_ok, byte_eq_iff hc hopener.ascii, byte_eq_iff hc hcloser.ascii,
    byte_eq_iff hc (show '"'.toNat < 128 by decide), byte_eq_iff hc (show '\''.toNat < 128 by decide),
    byte_eq_iff hc (show '\x60'.toNat < 128 by decide), byte_eq_iff hc (show '/'.toNat < 128 by decide),
    ← offsetOf_succ_ascii h hc, bytes_eq_iff (show '/'.toNat < 128 by decide), bytes_eq_iff (show '*'.toNat < 128 by decide),
    hisQuote, hdepth, fromOffset?_offsetOf]
  split
  · rfl
  split
  · cases find? ['\n'] (source.drop place) with
    | none => rfl
    | some n => rw [Option.elim_some, Option.elim_some, offsetOf_add]
  split
  · next hopening =>
    have hstar : offsetOf source (place + 2) = offsetOf source place + 2 := by
      rw [offsetOf_succ_ascii hopening.2 (by decide), offsetOf_succ_ascii h hc]
    rw [← hstar, fromOffset?_offsetOf, orCut_some, ok_bind]
    cases hfind : find? commentClosing (source.drop (place + 2)) with
    | none => rfl
    | some n => rw [Option.elim_some, Option.elim_some, offsetOf_comment hfind]
  split
  · rfl
  split
  · split <;> rfl
  · rfl

theorem closingStep_quoted {q : Char} (h : source[place]? = some c) (hc : c.toNat < 128) (hq : q.toNat < 128)
    (opener closer : UInt8) (state : Nesting) (hquote : state.quote = some (byte q)) :
    closingStep source opener closer (offsetOf source place) state = .ok (
      if c = '\\' then (some (offsetOf source place + 2), state)
      else (some (offsetOf source (place + 1)), if c = q then { state with quote := none } else state)) := by
  rw [closingStep, bytes_ascii h hc, offsetOf_succ_ascii h hc, hquote]
  simp only [orCut_some, ok_bind, byte_eq_iff hc hq, byte_eq_iff hc (show '\\'.toNat < 128 by decide), pure_eq_ok]
  split <;> rfl

theorem closingStep_wide {pos : Nat} {b : UInt8} (h : (bytes source)[pos]? = some b) (hb : 128 ≤ b.toNat)
    (hopener : opener.toNat < 128) (hcloser : closer.toNat < 128) (state : Nesting)
    (hquote : ∀ quote ∈ state.quote, ∃ q : Char, q.toNat < 128 ∧ quote = byte q) :
    closingStep source (byte opener) (byte closer) pos state = .ok (some (pos + 1), state) := by
  have hne : ∀ d : Char, d.toNat < 128 → ¬ b = byte d := fun d hd => ne_byte hb hd
  rw [closingStep, h]
  cases hstate : state.quote with
  | some quote =>
    obtain ⟨q, hq, rfl⟩ := hquote quote hstate
    simp [hne '\\' (by decide), hne q hq]
  | none =>
    simp [hne '"' (by decide), hne '\'' (by decide), hne '\x60' (by decide), hne '/' (by decide), hne opener hopener,
      hne closer hcloser]

end Step

/-! ## The whole search -/

/-- The offset of the bracket at which a reading over characters from a place on comes to its end. -/
def answer (opener closer : Char) (source : List Char) (region : Region) (depth place : Nat) : Option Nat :=
  (closingFrom? opener closer region depth (source.drop place)).map fun n => offsetOf source (place + n)

/-- The same, over bytes from an offset on. -/
def seek (opener closer : Char) (source : List Char) (quote : Option UInt8) (depth pos : Nat) : Read (Option Nat) :=
  Nesting.found <$> loop (size source) (closingStep source (byte opener) (byte closer)) pos ⟨depth, quote, none⟩

section Search

variable {opener closer : Char} {depth : Nat} {region : Region} {quote : Option UInt8}

theorem answer_of_length_le (h : source.length ≤ place) : answer opener closer source region depth place = none := by
  rw [answer, List.drop_of_length_le h]
  rfl

theorem answer_over (h : source[place]? = some c) (hplain : region = .code → c ≠ opener ∧ c ≠ closer) :
    answer opener closer source region depth place =
      answer opener closer source (region.after source[place + 1]? c) depth (place + 1) := by
  rw [answer, answer, drop_eq_cons h, closingFrom?_over hplain, List.head?_drop, Option.map_map]
  simp only [Function.comp_def, Nat.add_right_comm, ← Nat.add_assoc]

theorem answer_outside (h : source[place]? = some c) (hregion : region ≠ .code) :
    answer opener closer source region depth place =
      answer opener closer source (region.after source[place + 1]? c) depth (place + 1) :=
  answer_over h fun hcode => absurd hcode hregion

theorem seek_of_size_le {pos : Nat} (h : size source ≤ pos) : seek opener closer source quote depth pos = .ok none := by
  rw [seek, loop_of_le h]
  rfl

theorem seek_next {pos next depth' : Nat} {quote' : Option UInt8} (h : pos < size source) (hlt : pos < next)
    (hstep : closingStep source (byte opener) (byte closer) pos ⟨depth, quote, none⟩ =
      .ok (some next, ⟨depth', quote', none⟩)) :
    seek opener closer source quote depth pos = seek opener closer source quote' depth' next := by
  rw [seek, loop_next h hstep hlt, seek]

/-- Over what is left of a character outside ASCII. -/
theorem seek_wide (depth : Nat) (h : source[place]? = some c) (hc : 128 ≤ c.toNat) (hopener : Plain opener) (hcloser : Plain closer)
    (hquote : ∀ b ∈ quote, ∃ q : Char, q.toNat < 128 ∧ b = byte q) {k : Nat} (hk : k ≤ c.utf8Size) :
    seek opener closer source quote depth (offsetOf source place + k) =
      seek opener closer source quote depth (offsetOf source (place + 1)) := by
  obtain ⟨left, hleft⟩ := Nat.exists_eq_add_of_le hk
  -- by how many bytes of the character are left
  induction left generalizing k with
  | zero => rw [offsetOf_succ h, hleft, Nat.add_zero]
  | succ left ih =>
    obtain ⟨b, hb, hwide⟩ := bytes_wide h hc (show k < c.utf8Size by omega)
    have hlt : offsetOf source place + k < size source := by
      rw [← length_bytes]
      exact (List.getElem?_eq_some_iff.1 hb).1
    have hstep := closingStep_wide hb hwide hopener.ascii hcloser.ascii ⟨depth, quote, none⟩ hquote
    rw [seek_next hlt (Nat.lt_succ_self _) hstep]
    exact ih (k := k + 1) (by omega) (by omega)

/-- From a place on, the two readings come to the same bracket, in code and between quotes. -/
def Agrees (opener closer : Char) (source : List Char) (place : Nat) : Prop :=
  (∀ depth, seek opener closer source none depth (offsetOf source place) =
      .ok (answer opener closer source .code depth place)) ∧
    ∀ depth q, Region.isQuote q = true → seek opener closer source (some (byte q)) depth (offsetOf source place) =
      .ok (answer opener closer source (.quoted q) depth place)

theorem agrees_of_length_le (h : source.length ≤ place) : Agrees opener closer source place := by
  have hsize : size source ≤ offsetOf source place := by rw [offsetOf_of_length_le h]
  exact ⟨fun _ => by rw [seek_of_size_le hsize, answer_of_length_le h],
    fun _ _ _ => by rw [seek_of_size_le hsize, answer_of_length_le h]⟩

theorem after_code_of_not (next : Option Char) (hquote : ¬ Region.isQuote c = true) (hline : ¬ (c = '/' ∧ next = some '/'))
    (hblock : ¬ (c = '/' ∧ next = some '*')) : Region.after next c .code = .code := by
  simp only [Region.after, hquote, hline, hblock, Bool.and_eq_true, decide_eq_true_eq, if_false]
  rfl

theorem answer_lineComment (hopener : Plain opener) (hcloser : Plain closer) (depth : Nat) :
    answer opener closer source .lineComment depth place =
      (find? ['\n'] (source.drop place)).bind fun n => answer opener closer source .code depth (place + n) := by
  rw [answer, closingFrom?_lineComment hopener.noFeed.symm hcloser.noFeed.symm, Option.map_bind]
  refine Option.bind_congr fun n _ => ?_
  simp only [answer, Function.comp_def, Option.map_map, List.drop_drop, Nat.add_assoc]

theorem answer_comment (depth : Nat) :
    answer opener closer source .comment depth place =
      (find? commentClosing (source.drop place)).bind fun n => answer opener closer source .code depth (place + (n + 2)) := by
  rw [answer, closingFrom?_comment, Option.map_bind]
  refine Option.bind_congr fun n _ => ?_
  simp only [answer, Function.comp_def, Option.map_map, List.drop_drop, Nat.add_assoc]

theorem answer_opener (h : source[place]? = some opener) (hafter : Region.after source[place + 1]? opener .code = .code)
    (depth : Nat) :
    answer opener closer source .code depth place = answer opener closer source .code (depth + 1) (place + 1) := by
  have hopen : ((Region.code = .code) && opener = opener : Bool) = true := by simp
  rw [answer, answer, drop_eq_cons h, closingFrom?, if_pos hopen, List.head?_drop, hafter, Option.map_map]
  simp only [Function.comp_def, Nat.add_right_comm, ← Nat.add_assoc]

theorem answer_closer (h : source[place]? = some closer) (hne : closer ≠ opener)
    (hafter : Region.after source[place + 1]? closer .code = .code) (depth : Nat) :
    answer opener closer source .code depth place =
      if depth ≤ 1 then some (offsetOf source place) else answer opener closer source .code (depth - 1) (place + 1) := by
  have hopen : ¬ ((Region.code = .code) && closer = opener : Bool) = true := by simpa using hne
  have hclose : ((Region.code = .code) && closer = closer : Bool) = true := by simp
  rw [answer, answer, drop_eq_cons h, closingFrom?, if_neg hopen, if_pos hclose, List.head?_drop, hafter]
  split
  · rfl
  · simp only [Option.map_map, Function.comp_def, Nat.add_right_comm, ← Nat.add_assoc]

theorem ascii_of_isQuote (h : Region.isQuote c = true) : c.toNat < 128 := by
  simp only [Region.isQuote, Bool.or_eq_true, beq_iff_eq] at h
  rcases h with (rfl | rfl) | rfl <;> decide

/-- A step into a character leads over it. -/
theorem seek_second (h : source[place]? = some c) (hopener : Plain opener) (hcloser : Plain closer)
    (hquote : ∀ b ∈ quote, ∃ q : Char, q.toNat < 128 ∧ b = byte q) :
    seek opener closer source quote depth (offsetOf source place + 1) =
      seek opener closer source quote depth (offsetOf source (place + 1)) := by
  by_cases hc : c.toNat < 128
  · rw [offsetOf_succ_ascii h hc]
  · exact seek_wide depth h (Nat.not_lt.1 hc) hopener hcloser hquote c.utf8Size_pos

section Later

variable (hopener : Plain opener) (hcloser : Plain closer)
  (hlater : ∀ there, place < there → Agrees opener closer source there)
include hopener hcloser hlater

theorem agrees_lineComment (h : source[place]? = some '/') (hslash : source[place + 1]? = some '/') (depth : Nat) :
    seek opener closer source none depth (offsetOf source place) = .ok (answer opener closer source .code depth place) := by
  have hlt : offsetOf source place < size source := offsetOf_lt_size_iff.2 (lt_length_of_getElem? h)
  have hstep := closingStep_code h (by decide) hopener hcloser ⟨depth, none, none⟩ rfl
  have hafter : Region.after source[place + 1]? '/' .code = .lineComment := by simp [Region.after, Region.isQuote, hslash]
  -- bytes are searched from the first slash, characters from the second
  have hfind : find? ['\n'] (source.drop place) = (find? ['\n'] (source.drop (place + 1))).map (· + 1) := by
    rw [drop_eq_cons h, find?, if_neg (by simp)]
  rw [if_neg (by decide), if_pos ⟨rfl, hslash⟩, hfind] at hstep
  rw [answer_over h fun _ => ⟨hopener.noSlash.symm, hcloser.noSlash.symm⟩, hafter, answer_lineComment hopener hcloser]
  cases hn : find? ['\n'] (source.drop (place + 1)) with
  | none =>
    rw [hn] at hstep
    rw [seek_next hlt hlt hstep, seek_of_size_le (Nat.le_refl _), Option.bind_none]
  | some n =>
    have hle := find?_le hn
    rw [List.length_drop, List.length_singleton] at hle
    have hjump : offsetOf source place < offsetOf source (place + (n + 1)) := offsetOf_lt (by omega) (by omega)
    rw [hn] at hstep
    rw [seek_next hlt hjump hstep, (hlater _ (by omega)).1, Option.bind_some, Nat.add_right_comm place 1 n, Nat.add_assoc]

theorem agrees_comment (h : source[place]? = some '/') (hstar : source[place + 1]? = some '*') (depth : Nat) :
    seek opener closer source none depth (offsetOf source place) = .ok (answer opener closer source .code depth place) := by
  have hlt : offsetOf source place < size source := offsetOf_lt_size_iff.2 (lt_length_of_getElem? h)
  have hstep := closingStep_code h (by decide) hopener hcloser ⟨depth, none, none⟩ rfl
  have hafter : Region.after source[place + 1]? '/' .code = .opening := by simp [Region.after, Region.isQuote, hstar]
  have hafter' : Region.after source[place + 1 + 1]? '*' .opening = .comment := rfl
  rw [if_neg (by decide), if_neg (by simp [hstar]), if_pos ⟨rfl, hstar⟩] at hstep
  rw [answer_over h fun _ => ⟨hopener.noSlash.symm, hcloser.noSlash.symm⟩, hafter,
    answer_outside hstar (show Region.opening ≠ .code by simp), hafter', answer_comment]
  cases hn : find? commentClosing (source.drop (place + 2)) with
  | none =>
    rw [hn] at hstep
    rw [seek_next hlt hlt hstep, seek_of_size_le (Nat.le_refl _), Option.bind_none]
  | some n =>
    have hle : n + 2 ≤ (source.drop (place + 2)).length := find?_le hn
    rw [List.length_drop] at hle
    have hjump : offsetOf source place < offsetOf source (place + 2 + (n + 2)) := offsetOf_lt (by omega) (by omega)
    rw [hn] at hstep
    rw [seek_next hlt hjump hstep, (hlater _ (by omega)).1, Option.bind_some]

variable (h : source[place]? = some c)
include h

theorem agrees_wide (hc : 128 ≤ c.toNat) (depth : Nat) :
    seek opener closer source none depth (offsetOf source place) = .ok (answer opener closer source .code depth place) := by
  have hne : ∀ d : Char, d.toNat < 128 → c ≠ d := fun d hd heq => absurd (heq ▸ hd) (Nat.not_lt.2 hc)
  have hslash := hne '/' (by decide)
  have hquote : ¬ Region.isQuote c = true := fun h => Nat.not_lt.2 hc (ascii_of_isQuote h)
  have hafter := after_code_of_not source[place + 1]? hquote (mt And.left hslash) (mt And.left hslash)
  have hnone : ∀ b ∈ (none : Option UInt8), ∃ q : Char, q.toNat < 128 ∧ b = byte q := by simp
  have hwide := seek_wide depth h hc hopener hcloser hnone (Nat.zero_le _)
  rw [Nat.add_zero] at hwide
  rw [hwide, (hlater _ (Nat.lt_succ_self _)).1, answer_over h fun _ => ⟨hne _ hopener.ascii, hne _ hcloser.ascii⟩, hafter]

theorem agrees_code (depth : Nat) :
    seek opener closer source none depth (offsetOf source place) = .ok (answer opener closer source .code depth place) := by
  by_cases hc : c.toNat < 128
  swap
  · exact agrees_wide hopener hcloser hlater h (Nat.not_lt.1 hc) depth
  have hlt : offsetOf source place < size source := offsetOf_lt_size_iff.2 (lt_length_of_getElem? h)
  have hnext : offsetOf source place < offsetOf source (place + 1) :=
    offsetOf_lt (Nat.lt_succ_self _) (lt_length_of_getElem? h)
  have hstep := closingStep_code h hc hopener hcloser ⟨depth, none, none⟩ rfl
  by_cases hquote : Region.isQuote c = true
  · have hplain : c ≠ opener ∧ c ≠ closer :=
      ⟨fun heq => by simp [heq, hopener.noQuote] at hquote, fun heq => by simp [heq, hcloser.noQuote] at hquote⟩
    have hafter : Region.after source[place + 1]? c .code = .quoted c := if_pos hquote
    rw [if_pos hquote] at hstep
    rw [seek_next hlt hnext hstep, (hlater _ (Nat.lt_succ_self _)).2 depth c hquote, answer_over h fun _ => hplain, hafter]
  by_cases hline : c = '/' ∧ source[place + 1]? = some '/'
  · exact agrees_lineComment hopener hcloser hlater (hline.1 ▸ h) hline.2 depth
  by_cases hblock : c = '/' ∧ source[place + 1]? = some '*'
  · exact agrees_comment hopener hcloser hlater (hblock.1 ▸ h) hblock.2 depth
  have hafter := after_code_of_not _ hquote hline hblock
  rw [if_neg hquote, if_neg hline, if_neg hblock] at hstep
  by_cases hopen : c = opener
  · rw [if_pos hopen] at hstep
    subst hopen
    rw [seek_next hlt hnext hstep, (hlater _ (Nat.lt_succ_self _)).1, answer_opener h hafter]
  rw [if_neg hopen] at hstep
  by_cases hclose : c = closer
  · rw [if_pos hclose] at hstep
    subst hclose
    rw [answer_closer h hopen hafter]
    by_cases hlast : depth ≤ 1
    · rw [if_pos hlast] at hstep ⊢
      rw [seek, loop_done hlt hstep]
      rfl
    · rw [if_neg hlast] at hstep ⊢
      rw [seek_next hlt hnext hstep, (hlater _ (Nat.lt_succ_self _)).1]
  rw [if_neg hclose] at hstep
  rw [seek_next hlt hnext hstep, (hlater _ (Nat.lt_succ_self _)).1, answer_over h fun _ => ⟨hopen, hclose⟩, hafter]

theorem agrees_quoted (depth : Nat) {q : Char} (hq : Region.isQuote q = true) :
    seek opener closer source (some (byte q)) depth (offsetOf source place) =
      .ok (answer opener closer source (.quoted q) depth place) := by
  have hlt : offsetOf source place < size source := offsetOf_lt_size_iff.2 (lt_length_of_getElem? h)
  have hnext : offsetOf source place < offsetOf source (place + 1) :=
    offsetOf_lt (Nat.lt_succ_self _) (lt_length_of_getElem? h)
  have hqAscii := ascii_of_isQuote hq
  have hquote : ∀ b ∈ some (byte q), ∃ q : Char, q.toNat < 128 ∧ b = byte q := by
    rintro _ ⟨⟩
    exact ⟨q, hqAscii, rfl⟩
  rw [answer_outside h (show Region.quoted q ≠ .code by simp)]
  by_cases hc : c.toNat < 128
  swap
  · have hafter : Region.after source[place + 1]? c (.quoted q) = .quoted q := by
      rw [Region.after, if_neg fun heq => hc (by rw [heq]; decide), if_neg fun heq => hc (by rw [heq]; exact hqAscii)]
    have hwide := seek_wide depth h (Nat.not_lt.1 hc) hopener hcloser hquote (Nat.zero_le _)
    rw [Nat.add_zero] at hwide
    rw [hafter, hwide, (hlater _ (Nat.lt_succ_self _)).2 depth q hq]
  have hstep := closingStep_quoted h hc hqAscii (byte opener) (byte closer) ⟨depth, some (byte q), none⟩ rfl
  by_cases hescape : c = '\\'
  · have hafter : Region.after source[place + 1]? c (.quoted q) = .escaped q := if_pos hescape
    have htwo : offsetOf source place + 2 = offsetOf source (place + 1) + 1 := by rw [offsetOf_succ_ascii h hc]
    rw [if_pos hescape] at hstep
    rw [seek_next hlt (by omega) hstep, hafter, htwo]
    -- the byte after a backslash may start a character of several bytes
    cases hget : source[place + 1]? with
    | none =>
      have hle : source.length ≤ place + 1 := List.getElem?_eq_none_iff.1 hget
      rw [answer_of_length_le hle, offsetOf_of_length_le hle, seek_of_size_le (Nat.le_succ _)]
    | some d =>
      rw [seek_second hget hopener hcloser hquote, (hlater _ (by omega)).2 depth q hq,
        answer_outside hget (show Region.escaped q ≠ .code by simp)]
      rfl
  rw [if_neg hescape] at hstep
  by_cases hend : c = q
  · have hafter : Region.after source[place + 1]? c (.quoted q) = .code := by rw [Region.after, if_neg hescape, if_pos hend]
    rw [if_pos hend] at hstep
    rw [seek_next hlt hnext hstep, hafter, (hlater _ (Nat.lt_succ_self _)).1]
  · have hafter : Region.after source[place + 1]? c (.quoted q) = .quoted q := by rw [Region.after, if_neg hescape, if_neg hend]
    rw [if_neg hend] at hstep
    rw [seek_next hlt hnext hstep, hafter, (hlater _ (Nat.lt_succ_self _)).2 depth q hq]

end Later

theorem agrees (hopener : Plain opener) (hcloser : Plain closer) (place : Nat) : Agrees opener closer source place := by
  -- by the text that is left; the hypothesis has to hold at every later place, since a step may go over a whole comment
  induction hleft : source.length - place using Nat.strong_induction_on generalizing place with
  | _ left ih =>
    by_cases hplace : place < source.length
    · have hlater : ∀ there, place < there → Agrees opener closer source there := fun there hthere =>
        ih (source.length - there) (by omega) there rfl
      have hget := List.getElem?_eq_getElem hplace
      exact ⟨agrees_code hopener hcloser hlater hget, fun depth q hq => agrees_quoted hopener hcloser hlater hget depth hq⟩
    · exact agrees_of_length_le (Nat.not_lt.1 hplace)

end Search

/-- Over bytes, the bracket that closes another is found where it is found over characters. -/
theorem closing_offsetOf {opener closer : Char} (hopener : Plain opener) (hcloser : Plain closer) (source : List Char)
    (place : Nat) :
    closing opener closer source (offsetOf source place) =
      .ok ((closingAt? opener closer source place).map (offsetOf source)) := by
  refine ((agrees hopener hcloser place).1 0).trans ?_
  rw [answer, closingAt?, closing?, Option.map_map]
  rfl

theorem closing_parenthesis_offsetOf (source : List Char) (place : Nat) :
    closing '(' ')' source (offsetOf source place) = .ok ((closingAt? '(' ')' source place).map (offsetOf source)) :=
  closing_offsetOf ⟨by decide, by decide, by decide, by decide⟩ ⟨by decide, by decide, by decide, by decide⟩ source place

theorem closing_brace_offsetOf (source : List Char) (place : Nat) :
    closing '\x7b' '\x7d' source (offsetOf source place) =
      .ok ((closingAt? '\x7b' '\x7d' source place).map (offsetOf source)) :=
  closing_offsetOf ⟨by decide, by decide, by decide, by decide⟩ ⟨by decide, by decide, by decide, by decide⟩ source place

end CodeIndex.Script.ByOffset
