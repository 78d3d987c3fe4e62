import CodeIndex.Proofs.Dict
import CodeIndex.Proofs.ScriptBytes
import CodeIndex.Proofs.ScriptScan
import Mathlib.Data.List.ReduceOption

set_option autoImplicit false

/-!
# Where reading a script cannot go on

Read by byte offsets, a script is cut at offsets of places only, but for one: the offset right before the end of a body
from which reading goes on.  That one lies inside the last character of the body, if that is outside ASCII.  So the
outline of a script is the same by offsets as by places, and both fail at the same scripts.
-/

namespace CodeIndex.Script.ByOffset

open Text

variable {source line : List Char} {place : Nat}

/-! ## Lines -/

theorem lineBounds_offsetOf (h : place ≤ source.length) :
    lineBounds source (offsetOf source place) =
      .ok (offsetOf source (lineEnd source place), offsetOf source (nextLine source place)) := by
  rw [lineBounds, fromOffset?_offsetOf, orCut_some, ok_bind, nextLine, lineEnd]
  cases hn : find? ['\n'] (source.drop place) with
  | none =>
    have hend : place + (source.drop place).length = source.length := by
      rw [List.length_drop]
      omega
    rw [Option.getD_none, hend, Nat.min_eq_right (Nat.le_succ _), offsetOf_length]
    rfl
  | some n =>
    have hle := find?_le hn
    rw [List.length_drop, List.length_singleton] at hle
    have hfeed : source[place + n]? = some '\n' := by
      have hpre := find?_isPrefix hn
      rw [List.drop_drop] at hpre
      exact getElem?_of_prefix (i := 0) hpre rfl
    rw [Option.getD_some, Nat.min_eq_left (by omega), offsetOf_succ_ascii hfeed (by decide), offsetOf_add]
    rfl

theorem nextLineStart_offsetOf (h : place ≤ source.length) :
    nextLineStart source (offsetOf source place) = .ok (offsetOf source (nextLine source place)) := by
  rw [nextLineStart, Nat.min_eq_left (offsetOf_le_size source place), lineBounds_offsetOf h, map_ok]

/-- From the last byte of a stretch, reading goes on if a character starts there. -/
theorem nextLineStart_last {stop : Nat} (hpos : 0 < stop) (h : stop ≤ source.length) :
    nextLineStart source (offsetOf source stop - 1) = orCut ((resumeAfter? source stop).map (offsetOf source)) := by
  obtain ⟨last, rfl⟩ := Nat.exists_eq_succ_of_ne_zero (Nat.ne_of_gt hpos)
  have hget : source[last]? = some source[last] := List.getElem?_eq_getElem h
  rw [Nat.succ_eq_add_one, resumeAfter?, Nat.add_sub_cancel, hget]
  dsimp only
  by_cases hc : source[last].toNat < 128
  · rw [offsetOf_succ_ascii hget hc, Nat.add_sub_cancel, nextLineStart_offsetOf (Nat.le_of_succ_le h), if_pos hc]
    rfl
  · -- the last byte is not the first of its character, so the text cannot be cut there
    have hwide : source[last].utf8Size ≠ 1 := mt utf8Size_eq_one_iff.1 hc
    have hsize := source[last].utf8Size_pos
    have hle := offsetOf_le_size source (last + 1)
    rw [offsetOf_succ hget] at hle ⊢
    rw [nextLineStart, Nat.min_eq_left (by omega), lineBounds, Nat.add_sub_assoc hsize,
      fromOffset?_inside hget (by omega) (by omega), if_neg hc]
    rfl

theorem lineOf_offsetOf (source : List Char) (place : Nat) :
    lineOf source (offsetOf source place) = .ok (lineNumber source place) := by
  rw [lineOf, Nat.min_eq_left (offsetOf_le_size source place), toOffset?_offsetOf]
  rfl

theorem blockEnd_offsetOf (source : List Char) (place : Nat) :
    blockEnd source (offsetOf source place) = .ok (offsetOf source (bodyEnd source place)) := by
  rw [blockEnd, closing_brace_offsetOf, ok_bind, bodyEnd]
  cases hclose : closingAt? '\x7b' '\x7d' source place with
  | none => exact congrArg Except.ok (offsetOf_length source).symm
  | some close => exact congrArg Except.ok (offsetOf_succ_ascii (closingAt?_spec hclose).2 (by decide)).symm

/-! ## Declarations -/

/-- A declaration, by offsets. -/
def found (source : List Char) (d : Declaration) : Found where
  name := d.name
  nameStart := offsetOf source d.nameStart
  signature := String.ofList (collapse (slice d.start d.headEnd source))
  body := d.body.map fun body => (offsetOf source body.1, offsetOf source body.2)
  resume := offsetOf source d.resume

theorem offsetOf_line (hline : line <+: source.drop place) {n : Nat} (hn : n ≤ line.length) :
    offsetOf source place + offsetOf line n = offsetOf source (place + n) := by
  obtain ⟨rest, hrest⟩ := hline
  rw [offsetOf_add, ← hrest, offsetOf, offsetOf, offsetOf, List.take_append_of_le_length hn]

theorem matchOffsets?_offsetOf (hline : line <+: source.drop place) (p : Pattern Char) :
    matchOffsets? p (offsetOf source place) line =
      (matchLine? p place line).map fun (name, nameStart, matched) =>
        (name, offsetOf source nameStart, offsetOf source matched) := by
  unfold matchOffsets? matchLine?
  cases hfound : p.find? line with
  | none => rfl
  | some found =>
    have hstop := (Pattern.find?_bounds hfound).2
    simp only [Option.bind_eq_bind, Option.bind_some]
    cases hgroup : found.group? "name" with
    | none => rfl
    | some name =>
      have hname := Pattern.find?_group hfound hgroup
      simp [offsetOf_line hline hstop, offsetOf_line hline (show name.1 ≤ line.length by omega)]

section Finish

variable {name : List Char} {nameStart headEnd : Nat} (hhead : place ≤ headEnd)
include hhead

theorem finish_none (hle : headEnd ≤ source.length) :
    finish source (offsetOf source place) name (offsetOf source nameStart) (offsetOf source headEnd) none =
      .ok (some (found source ⟨name, nameStart, place, headEnd, none, nextLine source headEnd⟩)) := by
  rw [finish, Option.elim_none, nextLineStart_offsetOf hle, between?_offsetOf hhead]
  rfl

theorem finish_some {start stop : Nat} (hpos : 0 < stop) (hle : stop ≤ source.length) :
    finish source (offsetOf source place) name (offsetOf source nameStart) (offsetOf source headEnd)
        (some (offsetOf source start, offsetOf source stop)) =
      orCut (((resumeAfter? source stop).map fun resume =>
        some ⟨name, nameStart, place, headEnd, some (start, stop), resume⟩).map (Option.map (found source))) := by
  rw [finish, Option.elim_some, nextLineStart_last hpos hle, between?_offsetOf hhead]
  cases resumeAfter? source stop <;> rfl

end Finish

theorem size_sub_trimStart (cs : List Char) : size cs - size (trimStart cs) = offsetOf cs (cs.takeWhile isBlank).length := by
  have hsplit : cs.takeWhile isBlank ++ trimStart cs = cs := List.takeWhile_append_dropWhile
  have hsize := size_append (cs.takeWhile isBlank) (trimStart cs)
  rw [hsplit] at hsize
  rw [hsize, Nat.add_sub_cancel, offsetOf, ← List.prefix_iff_eq_take.1 (List.takeWhile_prefix _)]

section Patterns

variable {p : Pattern Char} (hline : line <+: source.drop place)
include hline

theorem parenCallable_offsetOf (hp : p.EndsWith (· == '(')) :
    parenCallable source (offsetOf source place) line p =
      orCut ((parenthesised source place line p).map (Option.map (found source))) := by
  rw [parenCallable, matchOffsets?_offsetOf hline, parenthesised]
  cases hmatch : matchLine? p place line with
  | none => rfl
  | some matched =>
    obtain ⟨name, nameStart, matched⟩ := matched
    obtain ⟨hplace, c, hc, htest⟩ := matchLine?_last hmatch hp hline
    have hlast : offsetOf source matched = offsetOf source (matched - 1) + 1 := by
      rw [← offsetOf_succ_ascii hc (by rw [beq_iff_eq.1 htest]; decide), Nat.sub_add_cancel (by omega)]
    simp only [Option.map_some, hlast, Nat.add_sub_cancel, closing_parenthesis_offsetOf, ok_bind]
    cases hclose : closingAt? '(' ')' source (matched - 1) with
    | none => rfl
    | some close =>
      obtain ⟨hle, hget⟩ := closingAt?_spec hclose
      have hlt := lt_length_of_getElem? hget
      simp only [Option.map_some, ← offsetOf_succ_ascii hget (by decide), fromOffset?_offsetOf, orCut_some, ok_bind]
      cases hn : findChar? (fun c => c == '\x7b' || c == ';') (source.drop (close + 1)) with
      | none =>
        simp only [finish_none (show place ≤ close + 1 by omega) hlt]
        rfl
      | some n =>
        obtain ⟨c, hstop, htest⟩ := getElem?_findChar? hn
        have hascii : c.toNat < 128 := by
          rcases Bool.or_eq_true_iff.1 htest with heq | heq <;> rw [beq_iff_eq.1 heq] <;> decide
        have hend := lt_length_of_getElem? hstop
        simp only [← offsetOf_add, bytes_ascii hstop hascii, orCut_some, ok_bind, hstop, Option.some.injEq,
          byte_eq_iff hascii (show '\x7b'.toNat < 128 by decide)]
        split
        · obtain ⟨hpos, hle⟩ := bodyEnd_bounds hend
          rw [blockEnd_offsetOf, ok_bind, finish_some (by omega) (by omega) hle]
        · rw [finish_none (by omega) hend.le]
          rfl

theorem arrowCallable_offsetOf (hp : p.EndsWith (· == '>')) :
    arrowCallable source (offsetOf source place) line p =
      orCut ((arrow source place line p).map (Option.map (found source))) := by
  rw [arrowCallable, matchOffsets?_offsetOf hline, arrow]
  cases hmatch : matchLine? p place line with
  | none => rfl
  | some matched =>
    obtain ⟨name, nameStart, matched⟩ := matched
    obtain ⟨hplace, c, hc, -⟩ := matchLine?_last hmatch hp hline
    have hmatched : matched ≤ source.length := by
      have := lt_length_of_getElem? hc
      omega
    have hbody := arrowBody_bounds hmatched
    have hstart := afterBlanks_le hmatched
    simp only [Option.map_some, fromOffset?_offsetOf, orCut_some, ok_bind, size_sub_trimStart, ← offsetOf_add, List.head?_drop]
    rw [arrowBody, afterBlanks] at hbody
    rw [afterBlanks] at hstart
    split
    · next hbrace =>
      rw [if_pos hbrace] at hbody
      rw [blockEnd_offsetOf, ok_bind, finish_some (by omega) (by omega) hbody.2.2]
    · next hbrace =>
      rw [if_neg hbrace] at hbody
      rw [lineBounds_offsetOf hstart, ok_bind, finish_some (by omega) (by omega) hbody.2.2]

end Patterns

/-! ## What is recorded -/

theorem findLast?_isPrefix {needle cs : List Char} {n : Nat} (h : findLast? needle cs = some n) : needle <+: cs.drop n := by
  obtain ⟨m, hm, rfl⟩ := Option.map_eq_some_iff.1 h
  have hpre := find?_isPrefix hm
  have hle := find?_le hm
  rw [List.length_reverse, List.length_reverse] at hle
  rw [List.drop_reverse, List.reverse_prefix] at hpre
  obtain ⟨before, hbefore⟩ := hpre
  have hlen : before.length = cs.length - m - needle.length := by
    have hlength := congrArg List.length hbefore
    rw [List.length_append, List.length_take] at hlength
    omega
  have hdrop : needle = (cs.take (cs.length - m)).drop before.length := by rw [← hbefore, List.drop_left]
  rw [← hlen, hdrop, List.drop_take]
  exact List.take_prefix _ _

theorem between?_comment {before : List Char} {start : Nat} (hopening : commentOpening <+: before.drop start)
    (hclosing : commentClosing <:+ before) :
    between? (offsetOf before start + 3) (size before - 2) before =
      if before.length < start + 5 then none else some (slice (start + 3) (before.length - 2) before) := by
  have hthree : offsetOf before (start + 3) = offsetOf before start + 3 :=
    offsetOf_add_of_ascii hopening (by simp [commentOpening])
  have htwo : size before - 2 = offsetOf before (before.length - 2) := by
    obtain ⟨text, rfl⟩ := hclosing
    have hlen : (text ++ commentClosing).length - 2 = text.length := by simp [commentClosing]
    rw [size_append, hlen, offsetOf, List.take_left]
    rfl
  have hlen : 2 ≤ before.length := hclosing.length_le
  rw [← hthree, htwo]
  split
  · rw [between?, if_neg (Nat.not_le.2 (offsetOf_lt (by omega) (by omega)))]
  · rw [between?_offsetOf (by omega)]

theorem jsdoc_offsetOf (source : List Char) (place : Nat) :
    jsdoc source (offsetOf source place) = orCut (docBefore source place) := by
  rw [jsdoc, toOffset?_offsetOf, docBefore]
  simp only [orCut_some, map_ok, ok_bind]
  split
  · rfl
  · next hclosing =>
    rw [Bool.not_eq_true, Bool.not_eq_false', List.isSuffixOf_iff_suffix] at hclosing
    cases hstart : findLast? commentOpening (trimEnd (source.take place)) with
    | none => rfl
    | some start =>
      dsimp only
      rw [between?_comment (findLast?_isPrefix hstart) hclosing]
      split <;> rfl

theorem calls_offsetOf {body : Option (Nat × Nat)} (h : ∀ stretch ∈ body, stretch.1 ≤ stretch.2) :
    calls source (body.map fun stretch => (offsetOf source stretch.1, offsetOf source stretch.2)) =
      .ok ((body.map fun (start, stop) => callsIn (slice start stop source)).getD []) := by
  cases body with
  | none => rfl
  | some stretch =>
    rw [Option.map_some, calls, between?_offsetOf (h stretch rfl)]
    rfl

theorem callable_offsetOf {d : Declaration} {stop : Nat} (hd : d.Placed source place stop) :
    callable source (offsetOf source place) (found source d) = orCut ((d.callable? source).map Prod.snd) := by
  have hbody : ∀ body ∈ d.body, body.1 ≤ body.2 := fun body hbody => (hd.body body hbody).2.1
  rw [callable, found, calls_offsetOf hbody, ok_bind, lineOf_offsetOf, ok_bind, jsdoc_offsetOf, Declaration.callable?, hd.start]
  cases docBefore source place <;> rfl

theorem skip_offsetOf (hline : line <+: source.drop place) :
    skip source (offsetOf source place) line (offsetOf source (nextLine source place)) =
      .ok (offsetOf source (skipLine source place line)) := by
  rw [skip, skipLine]
  cases hn : findChar? (· == '\x7b') line with
  | none => rfl
  | some n =>
    have hlt := lt_of_findChar? hn
    simp only [offsetOf_line hline hlt.le, closing_brace_offsetOf, ok_bind]
    cases hclose : closingAt? '\x7b' '\x7d' source (place + n) with
    | none => exact congrArg Except.ok (offsetOf_length source).symm
    | some close =>
      have hclosed := lt_length_of_getElem? (closingAt?_spec hclose).2
      simp only [Option.map_some, nextLineStart_offsetOf hclosed.le, ok_bind, offsetOf_max]
      rfl

/-! ## The loops -/

/-- A loop over offsets whose steps lead from place to place, and fail where a loop over places does. -/
theorem loop_offsetOf {β σ : Type} {limit : Nat} (hlimit : limit ≤ source.length) {walk : Nat → Option (β × Nat)}
    (hforward : Forward walk limit) {step : Nat → σ → Read (Option Nat × σ)} {add : σ → β → σ}
    (hstep : ∀ place < limit, ∀ state, step (offsetOf source place) state =
      orCut ((walk place).map fun found => (some (offsetOf source found.2), add state found.1)))
    {fuel place : Nat} (hfuel : limit - place < fuel) (state : σ) :
    loop (offsetOf source limit) step (offsetOf source place) state =
      orCut ((scan walk limit fuel place).map (List.foldl add state)) := by
  -- by the fuel of the loop over places; the one over offsets needs none
  induction fuel generalizing place state with
  | zero => omega
  | succ fuel ih =>
    by_cases hle : limit ≤ place
    · rw [loop_of_le (offsetOf_mono hle), scan_of_le hle]
      rfl
    · have hlt : offsetOf source place < offsetOf source limit := offsetOf_lt (by omega) (by omega)
      have hone := hstep place (by omega) state
      rw [scan, if_neg hle]
      cases hwalk : walk place with
      | none =>
        rw [hwalk] at hone
        rw [loop_error hlt hone]
        rfl
      | some found =>
        have hnext : place < found.2 := hforward ⟨by omega, found.1, hwalk⟩
        rw [hwalk] at hone
        rw [loop_next hlt hone (offsetOf_lt hnext (by omega)), ih (by omega), Option.bind_some, Option.map_map]
        rfl

theorem orElse_found (first second : Option (Option Declaration)) :
    orElse (orCut (first.map (Option.map (found source)))) (orCut (second.map (Option.map (found source)))) =
      orCut ((first.bind fun d => d.elim second fun d => some (some d)).map (Option.map (found source))) := by
  cases first with
  | none => rfl
  | some d => cases d <;> rfl

/-- What is recorded of a declaration, if there is one. -/
def recorded? (source : List Char) (d : Option Declaration) : Option (Option (String × Callable)) :=
  d.elim (some none) fun d => (d.callable? source).map some

def addMethod (methods : Dict Callable) (entry : Option (String × Callable)) : Dict Callable :=
  entry.elim methods fun entry => methods.insert entry.1 entry.2

/-- The method at a place in a class body, and where reading goes on. -/
def methodAt? (source : List Char) (stop place : Nat) : Option (Option (String × Callable) × Nat) :=
  (memberAt? source stop place).bind fun member => (recorded? source member.1).map (·, member.2)

theorem callable?_name {d : Declaration} {e : String × Callable} (h : d.callable? source = some e) :
    e.1 = String.ofList d.name := by
  rw [Declaration.callable?] at h
  obtain ⟨doc, -, heq⟩ := Option.bind_eq_some_iff.1 h
  cases heq
  rfl

theorem member_offsetOf (hline : line <+: source.drop place) :
    orElse (Option.filter (fun found => !isControl found.name) <$> parenCallable source (offsetOf source place) line methodHead)
        (arrowCallable source (offsetOf source place) line arrowField) =
      orCut ((member source place line).map (Option.map (found source))) := by
  have hmethod : Option.filter (fun found => !isControl found.name) <$>
        parenCallable source (offsetOf source place) line methodHead =
      orCut (((parenthesised source place line methodHead).map (Option.filter fun d => !isControl d.name)).map
        (Option.map (found source))) := by
    rw [parenCallable_offsetOf hline methodHead_endsWith]
    cases parenthesised source place line methodHead with
    | none => rfl
    | some d => simp [Option.filter_map, found, Function.comp_def]
  rw [hmethod, arrowCallable_offsetOf hline arrowField_endsWith, orElse_found, member]
  cases parenthesised source place line methodHead with
  | none => rfl
  | some d =>
    dsimp only [Option.map_some, Option.bind_some, Option.bind_eq_bind]
    cases d.filter fun d => !isControl d.name <;> rfl

theorem memberStep_offsetOf {stop : Nat} (hplace : place < stop) (hstop : stop ≤ source.length) (methods : Dict Callable) :
    memberStep source (offsetOf source stop) (offsetOf source place) methods =
      orCut ((methodAt? source stop place).map fun found => (some (offsetOf source found.2), addMethod methods found.1)) := by
  have hpre := lineBefore_isPrefix source stop place
  have hline : place ≤ min (lineEnd source place) stop := le_min (le_lineEnd source place) hplace.le
  rw [memberStep, lineBounds_offsetOf (by omega), ok_bind]
  dsimp only
  rw [← offsetOf_min, between?_offsetOf hline, orCut_some, ok_bind, ← lineBefore, member_offsetOf hpre, methodAt?,
    memberAt?]
  cases hm : member source place (lineBefore source stop place) with
  | none => rfl
  | some d =>
    cases d with
    | none =>
      simp only [Option.map_some, Option.map_none, orCut_some, ok_bind, skip_offsetOf hpre]
      rfl
    | some d =>
      have hcallable := callable_offsetOf (member?_placed hpre (member_eq_some hm).symm)
      simp only [Option.map_some, orCut_some, ok_bind, hcallable, Option.bind_some, recorded?, Option.elim_some]
      cases hread : d.callable? source with
      | none => rfl
      | some e =>
        simp only [Option.map_some, addMethod, Option.elim_some, orCut_some, ok_bind, callable?_name hread]
        rfl

theorem foldl_addMethod (methods : Dict Callable) (entries : List (Option (String × Callable))) :
    entries.foldl addMethod methods = methods.insertAll entries.reduceOption := by
  induction entries generalizing methods with
  | nil => rfl
  | cons entry entries ih =>
    cases entry with
    | none => exact ih methods
    | some entry =>
      rw [List.reduceOption_cons_of_some]
      exact ih _

theorem mapM_recorded? (items : List (Option Declaration)) :
    (items.mapM (recorded? source)).map List.reduceOption = items.reduceOption.mapM (Declaration.callable? source) := by
  induction items with
  | nil => rfl
  | cons d items ih =>
    cases d with
    | none =>
      rw [List.reduceOption_cons_of_none, ← ih, List.mapM_cons]
      cases items.mapM (recorded? source) <;> rfl
    | some d =>
      rw [List.reduceOption_cons_of_some, List.mapM_cons, List.mapM_cons, ← ih, recorded?, Option.elim_some]
      cases d.callable? source with
      | none => rfl
      | some e => cases items.mapM (recorded? source) <;> rfl

theorem members_offsetOf {start stop : Nat} (hstop : stop ≤ source.length) (fuel : Nat) (hfuel : stop - start < fuel) :
    members source (offsetOf source start) (offsetOf source stop) =
      orCut ((membersIn source stop fuel start).bind fun members =>
        (members.mapM (Declaration.callable? source)).map Dict.ofList) := by
  have hforward : Forward (methodAt? source stop) stop := by
    rintro place next ⟨hlt, e, h⟩
    obtain ⟨member, hmember, h⟩ := Option.bind_eq_some_iff.1 h
    obtain ⟨entry, -, heq⟩ := Option.map_eq_some_iff.1 h
    cases heq
    exact forward_memberAt? hstop ⟨hlt, member.1, hmember⟩
  rw [members, loop_offsetOf hstop hforward (fun place hplace => memberStep_offsetOf hplace hstop) hfuel, membersIn_eq_scan]
  have hscan : scan (methodAt? source stop) stop fuel start =
      (scan (memberAt? source stop) stop fuel start).bind (List.mapM (recorded? source)) :=
    scan_bind (recorded? source) fuel start
  rw [hscan]
  cases scan (memberAt? source stop) stop fuel start with
  | none => rfl
  | some items =>
    have hfold : List.foldl addMethod ∅ = Dict.ofList ∘ List.reduceOption := funext (foldl_addMethod ∅)
    rw [Option.bind_some, Option.map_some, Option.bind_some, hfold, ← Option.map_map, mapM_recorded?]

theorem classMembers_offsetOf (hplace : place ≤ source.length) :
    classMembers source (offsetOf source place) (offsetOf source (nextLine source place)) =
      orCut ((members? source place).bind fun members => (members.mapM (Declaration.callable? source)).map fun methods =>
        (Dict.ofList methods, offsetOf source (afterClass source place))) := by
  rw [classMembers, fromOffset?_offsetOf, orCut_some, ok_bind, members?, afterClass]
  cases hbody : classBody? source place with
  | none =>
    rw [classBody?, Option.map_eq_none_iff] at hbody
    rw [hbody]
    rfl
  | some body =>
    obtain ⟨opened, closed⟩ := body
    obtain ⟨-, hbrace, -, hclosed⟩ := classBody?_bounds hbody
    obtain ⟨n, hn, heq⟩ := Option.map_eq_some_iff.1 hbody
    obtain ⟨rfl, rfl⟩ := Prod.mk.inj heq
    have hclose : ((closingAt? '\x7b' '\x7d' source (place + n)).map (offsetOf source)).getD (size source) =
        offsetOf source ((closingAt? '\x7b' '\x7d' source (place + n)).getD source.length) := by
      rw [← offsetOf_length, Option.getD_map]
    rw [hn]
    dsimp only
    rw [← offsetOf_add, closing_brace_offsetOf, ok_bind, hclose,
      ← offsetOf_succ_ascii hbrace (by decide), members_offsetOf hclosed (source.length + 1) (by omega),
      nextLineStart_offsetOf hclosed, Option.elim_some, Option.elim_some]
    dsimp only
    cases membersIn source ((closingAt? '\x7b' '\x7d' source (place + n)).getD source.length) (source.length + 1)
      (place + n + 1) with
    | none => rfl
    | some members =>
      rw [Option.bind_some, Option.bind_some]
      cases members.mapM (Declaration.callable? source) <;> rfl

theorem classHead_records : classHead.Records "name" :=
  (Pattern.records_group "name" name).seqs [indent, maybeKeyword "export", maybeKeyword "default", maybeKeyword "declare",
    maybeKeyword "abstract", keyword "class"] _

theorem topLevel_offsetOf (hline : line <+: source.drop place) :
    orElse (parenCallable source (offsetOf source place) line functionHead)
        (orElse (parenCallable source (offsetOf source place) line functionBinding)
          (arrowCallable source (offsetOf source place) line arrowBinding)) =
      orCut ((topLevel source place line).map (Option.map (found source))) := by
  rw [parenCallable_offsetOf hline functionHead_endsWith, parenCallable_offsetOf hline functionBinding_endsWith,
    arrowCallable_offsetOf hline arrowBinding_endsWith, orElse_found, orElse_found, topLevel]
  cases parenthesised source place line functionHead with
  | none => rfl
  | some d =>
    cases d with
    | some d => rfl
    | none =>
      dsimp only [Option.bind_some, Option.bind_eq_bind, Option.elim_none]
      cases parenthesised source place line functionBinding with
      | none => rfl
      | some d => cases d <;> rfl

theorem step_offsetOf (hplace : place < source.length) (o : Outline) :
    step source (offsetOf source place) o =
      orCut ((entryAt? source place).map fun entry => (some (offsetOf source entry.2), Entry.addTo o entry.1)) := by
  have hpre := lineAt_isPrefix source place
  rw [step, lineBounds_offsetOf hplace.le, ok_bind]
  dsimp only
  rw [between?_offsetOf (le_lineEnd source place), orCut_some, ok_bind, ← lineAt, entryAt?]
  cases hfound : classHead.find? (lineAt source place) with
  | some head =>
    obtain ⟨start, stop, hname⟩ := Pattern.find?_records hfound classHead_records
    have hin := Pattern.find?_group hfound hname
    have hstart : start ≤ (lineAt source place).length := by
      have := (Pattern.find?_bounds hfound).2
      omega
    simp only [hname]
    rw [offsetOf_line hpre hstart, lineOf_offsetOf, ok_bind, jsdoc_offsetOf, classMembers_offsetOf hplace.le, typeOutline?_eq]
    cases docBefore source place with
    | none => rfl
    | some doc =>
      cases members? source place with
      | none => rfl
      | some members =>
        simp only [Option.bind_some, orCut_some, ok_bind]
        cases members.mapM (Declaration.callable? source) with
        | none => rfl
        | some methods =>
          simp only [Option.map_some, orCut_some, ok_bind, hname, typeName, Option.getD_some]
          rfl
  | none =>
    dsimp only
    rw [topLevel_offsetOf hpre]
    cases hd : topLevel source place (lineAt source place) with
    | none => rfl
    | some d =>
      cases d with
      | none =>
        simp only [Option.map_some, Option.map_none, orCut_some, ok_bind, skip_offsetOf hpre]
        rfl
      | some d =>
        rw [topLevel_eq] at hd
        have hcallable := callable_offsetOf (topLevel?_placed hpre (goOn?_eq_some hd).symm)
        simp only [Option.map_some, orCut_some, ok_bind, hcallable, Option.bind_some]
        cases hread : d.callable? source with
        | none => rfl
        | some e =>
          have hname : (found source d).name = d.name := rfl
          simp only [Option.map_some, orCut_some, ok_bind, hname, ← callable?_name hread]
          rfl

/-- By offsets and by places, the same outline is read of the same scripts. -/
theorem outline_eq (source : String) : outline source = orCut (outline? source) := by
  rw [outline, outline?, declarationsFrom_eq_scan]
  dsimp only
  rw [← offsetOf_length]
  have hfuel : source.toList.length - 0 < source.toList.length + 1 := by omega
  exact loop_offsetOf (Nat.le_refl _) (forward_entryAt? _) (fun place hplace o => step_offsetOf hplace o) hfuel _

end CodeIndex.Script.ByOffset
