import CodeIndex.Proofs.ScriptBelow
import CodeIndex.Proofs.ScriptNesting

set_option autoImplicit false

/-!
# A line above a script

A line that declares nothing is skipped, but not always alone: from its first brace on, whether that is code or not,
reading looks for the closing one, and a comment of nothing but its delimiters cannot be cut out for a declaration
below it.  These two are all that such a line can do to what is declared below it.
-/

namespace CodeIndex.Script

open Text

/-- Nothing outside all classes is declared by a line. -/
def DeclaresNothing (line : List Char) : Prop :=
  ∀ p ∈ [classHead, functionHead, functionBinding, arrowBinding], p.find? line = none

/-- The first brace of a line, read as one in code, is closed on it. -/
def ClosesItself (line : List Char) : Prop :=
  ∀ n ∈ findChar? (· == '\x7b') line, (closing? '\x7b' '\x7d' (line.drop n)).isSome = true

instance : DecidablePred DeclaresNothing := fun _ => inferInstanceAs (Decidable (∀ _ ∈ _, _))

instance : DecidablePred ClosesItself := fun _ => inferInstanceAs (Decidable (∀ _ ∈ _, _))

variable {line rest : List Char}

/-! ## The line itself -/

section OneLine

variable (hline : '\n' ∉ line)
include hline

theorem lineAt_first (rest : List Char) : lineAt (line ++ '\n' :: rest) 0 = line := by
  have hall : ∀ c ∈ line, (c != '\n') = true := fun c hc => by
    simpa using fun heq : c = '\n' => hline (heq ▸ hc)
  rw [lineAt_eq, List.drop_zero, List.takeWhile_append_of_pos hall, List.takeWhile_cons_of_neg (by simp), List.append_nil]

theorem nextLine_first {place : Nat} (hplace : place ≤ line.length) (rest : List Char) :
    nextLine (line ++ '\n' :: rest) place = line.length + 1 := by
  have hall : ∀ c ∈ line.drop place, (c != '\n') = true := fun c hc => by
    simpa using fun heq : c = '\n' => hline (heq ▸ List.mem_of_mem_drop hc)
  have hend : lineEnd (line ++ '\n' :: rest) place = line.length := by
    rw [lineEnd_eq, List.drop_append_of_le_length hplace, List.takeWhile_append_of_pos hall,
      List.takeWhile_cons_of_neg (by simp), List.append_nil, List.length_drop]
    omega
  rw [nextLine, hend, List.length_append, List.length_cons]
  omega

end OneLine

theorem closing?_line (n : Nat) (line rest : List Char) :
    (∃ close < (line.drop n).length, closing? '\x7b' '\x7d' (line.drop n ++ '\n' :: rest) = some close ∧
        closing? '\x7b' '\x7d' (line.drop n) = some close) ∨
      closing? '\x7b' '\x7d' (line.drop n) = none ∧
        ∀ close, closing? '\x7b' '\x7d' (line.drop n ++ '\n' :: rest) = some close → (line.drop n).length ≤ close :=
  closingFrom?_append (fun c region => by cases region <;> simp [Region.after]) .code 0 (line.drop n)

theorem skipLine_of_closesItself (hline : '\n' ∉ line) (h : ClosesItself line) (rest : List Char) :
    skipLine (line ++ '\n' :: rest) 0 line = line.length + 1 := by
  rw [skipLine, nextLine_first hline (Nat.zero_le _)]
  cases hn : findChar? (· == '\x7b') line with
  | none => rfl
  | some n =>
    have hlt := lt_of_findChar? hn
    rcases closing?_line n line rest with ⟨close, hclose, hlong, -⟩ | ⟨hnone, -⟩
    · rw [List.length_drop] at hclose
      dsimp only
      rw [closingAt?, Nat.zero_add, List.drop_append_of_le_length hlt.le, hlong, Option.map_some]
      dsimp only
      rw [nextLine_first hline (by omega), Nat.max_self]
    · have hsome := h n hn
      rw [hnone] at hsome
      cases hsome

theorem entryAt?_of_declaresNothing {source : List Char} {place : Nat} (h : DeclaresNothing (lineAt source place)) :
    entryAt? source place = some (.blank, skipLine source place (lineAt source place)) := by
  have hmatch : ∀ p ∈ [classHead, functionHead, functionBinding, arrowBinding],
      matchLine? p place (lineAt source place) = none := fun p hp => by
    rw [matchLine?, h p hp]
    rfl
  have htop : topLevel? source place (lineAt source place) = none := by
    rw [topLevel?, withParameters?, withParameters?, withArrow?, hmatch functionHead (by simp), hmatch functionBinding (by simp),
      hmatch arrowBinding (by simp)]
    rfl
  rw [entryAt?, h classHead (by simp), topLevel_eq, htop]
  rfl

/-- Reading a script below a line that declares nothing starts where skipping that line leads to. -/
theorem outline?_below {above : String} (hline : '\n' ∉ above.toList) (hnone : DeclaresNothing above.toList) (rest : String) :
    outline? (above ++ "\n" ++ rest) =
      declarationsFrom (above.toList ++ '\n' :: rest.toList) ((above.toList ++ '\n' :: rest.toList).length + 1)
        (skipLine (above.toList ++ '\n' :: rest.toList) 0 above.toList)
        { Outline.empty with imports := importsOf (above.toList ++ '\n' :: rest.toList) } := by
  have htext : (above ++ "\n" ++ rest).toList = above.toList ++ '\n' :: rest.toList := by simp
  have hfirst : DeclaresNothing (lineAt (above.toList ++ '\n' :: rest.toList) 0) := by rwa [lineAt_first hline]
  have hlen : 0 < (above.toList ++ '\n' :: rest.toList).length := by
    rw [List.length_append, List.length_cons]
    omega
  have hlt := lt_skipLine hlen above.toList
  rw [outline?, htext, declarationsFrom_eq_scan, declarationsFrom_eq_scan, scan, if_neg (by omega),
    entryAt?_of_declaresNothing hfirst, lineAt_first hline, Option.bind_some, Option.map_map]
  dsimp only
  rw [scan_fuel (forward_entryAt? _) ((above.toList ++ '\n' :: rest.toList).length + 1) (by omega) (by omega)]
  rfl

/-! ## What is below it -/

theorem trimEnd_above (line : List Char) : trimEnd (line ++ ['\n']) = trimEnd line := by
  rw [trimEnd_append, if_pos (by decide)]

/-- Comments below a line can be cut out as without it, unless it ends with one that cannot. -/
theorem docBefore_below (h : ¬ emptyComment <:+ trimEnd line) (rest : List Char) (place : Nat) :
    docBefore (line ++ ['\n'] ++ rest) ((line ++ ['\n']).length + place) = none ↔ docBefore rest place = none := by
  rw [docBefore_eq_none_iff, docBefore_eq_none_iff, List.take_length_add_append, trimEnd_append]
  split
  · next hblank =>
    rw [trimEnd_above, hblank]
    exact iff_of_false h (by decide)
  · -- no line feed is in the comment, so it is all below the one that ends the line
    rw [List.append_assoc]
    refine ⟨fun hsuffix => ?_, fun hsuffix => (hsuffix.trans (List.suffix_cons '\n' _)).trans (List.suffix_append _ _)⟩
    have hfeed : '\n' ∉ emptyComment := by decide
    rcases List.suffix_or_suffix_of_suffix hsuffix (List.suffix_append line _) with hshort | hlong
    · rcases List.suffix_cons_iff.1 hshort with heq | hbelow
      · exact absurd (heq ▸ List.mem_cons_self) hfeed
      · exact hbelow
    · exact absurd (hlong.mem List.mem_cons_self) hfeed

/-- A script with one function. -/
def oneFunction : String := "function f() \x7b\x7d"

theorem oneFunction_outline : (outline? oneFunction).map (fun o => o.functions.keys) = some ["f"] := by decide +kernel

/-- Where a brace does not close on its line, it does not close before the end of the function below. -/
theorem skipLine_of_not_closesItself (h : ¬ ClosesItself line) :
    skipLine (line ++ '\n' :: oneFunction.toList) 0 line = (line ++ '\n' :: oneFunction.toList).length := by
  simp only [ClosesItself, not_forall, Option.not_isSome_iff_eq_none] at h
  obtain ⟨n, hn, hnone⟩ := h
  have hlt := lt_of_findChar? hn
  rw [skipLine, Option.mem_def.1 hn]
  dsimp only
  rw [Nat.zero_add]
  cases hclose : closingAt? '\x7b' '\x7d' (line ++ '\n' :: oneFunction.toList) n with
  | none => rfl
  | some close =>
    have hlate : line.length ≤ close := by
      obtain ⟨m, hm, rfl⟩ := Option.map_eq_some_iff.1 hclose
      rw [List.drop_append_of_le_length hlt.le] at hm
      rcases closing?_line n line oneFunction.toList with ⟨_, -, -, hshort⟩ | ⟨-, hlate⟩
      · rw [hnone] at hshort
        cases hshort
      · have := hlate m hm
        rw [List.length_drop] at this
        omega
    have hget := (closingAt?_spec hclose).2
    rw [List.getElem?_append_right hlate] at hget
    -- the only closing brace below the line is the last character
    have hlast : ∀ i < ('\n' :: oneFunction.toList).length,
        ('\n' :: oneFunction.toList)[i]? = some '\x7d' → i + 1 = ('\n' :: oneFunction.toList).length := by decide
    have := hlast _ (lt_length_of_getElem? hget) hget
    have := le_lineEnd (line ++ '\n' :: oneFunction.toList) close
    have hlen : (line ++ '\n' :: oneFunction.toList).length = line.length + ('\n' :: oneFunction.toList).length :=
      List.length_append
    dsimp only
    rw [nextLine, nextLine, hlen]
    omega

/-- The function cannot be recorded right below text that ends with a comment of nothing but its delimiters. -/
theorem entryAt?_oneFunction {pre : List Char} (h : emptyComment <:+ trimEnd pre) :
    entryAt? (pre ++ oneFunction.toList) pre.length = none := by
  change entryAt? _ (pre.length + 0) = none
  have hclass : classHead.find? (lineAt oneFunction.toList 0) = none := by decide +kernel
  have hsome : ((topLevel oneFunction.toList 0 (lineAt oneFunction.toList 0)).bind id).isSome = true := by decide +kernel
  obtain ⟨d, hd⟩ := Option.isSome_iff_exists.1 hsome
  obtain ⟨_, hd, rfl⟩ := Option.bind_eq_some_iff.1 hd
  have hstart : d.start = 0 := by
    rw [topLevel_eq] at hd
    exact (topLevel?_placed (lineAt_isPrefix _ 0) (goOn?_eq_some hd).symm).start
  have hdoc : docBefore (pre ++ oneFunction.toList) (pre.length + 0) = none := by
    rwa [docBefore_eq_none_iff, List.take_length_add_append, List.take_zero, List.append_nil]
  rw [entryAt?, lineAt_below, hclass]
  dsimp only
  rw [topLevel_below (lineAt_isPrefix _ 0), hd, Option.map_some, Option.bind_some]
  dsimp only [id, Option.map_some]
  rw [Declaration.callable?, Declaration.moved, hstart, hdoc]
  rfl

/-- A line that declares nothing leaves what is declared below it as it is, one line further down, just if its first
    brace is closed on it and it does not end with a comment of nothing but its delimiters. -/
theorem line_above_harmless_iff {above : String} (hline : '\n' ∉ above.toList) (hnone : DeclaresNothing above.toList) :
    (∀ rest, (outline? (above ++ "\n" ++ rest)).map Outline.bare = (outline? rest).map fun o => (o.below 1).bare) ↔
      ClosesItself above.toList ∧ ¬ emptyComment <:+ trimEnd above.toList := by
  have happend : ∀ rest : String, above.toList ++ '\n' :: rest.toList = above.toList ++ ['\n'] ++ rest.toList := by simp
  have hlen : (above.toList ++ ['\n']).length = above.toList.length + 1 := by simp
  constructor
  · -- a single function below the line tells both conditions
    intro h
    have hkeys : (outline? (above ++ "\n" ++ oneFunction)).map (fun o => o.functions.keys) = some ["f"] := by
      have hbare := congrArg (Option.map fun o => o.functions.keys) (h oneFunction)
      simpa only [Option.map_map, Function.comp_def, Outline.bare, Outline.below, Dict.keys_map, oneFunction_outline] using hbare
    rw [outline?_below hline hnone] at hkeys
    have hcloses : ClosesItself above.toList := by
      by_contra hopen
      rw [skipLine_of_not_closesItself hopen, declarationsFrom_eq_scan, scan_of_le (Nat.le_refl _)] at hkeys
      cases hkeys
    refine ⟨hcloses, fun hempty => ?_⟩
    have hbelow : (above.toList ++ ['\n']).length < (above.toList ++ ['\n'] ++ oneFunction.toList).length := by
      have hpos : 0 < oneFunction.toList.length := by decide
      have hsum : (above.toList ++ ['\n'] ++ oneFunction.toList).length =
        (above.toList ++ ['\n']).length + oneFunction.toList.length := List.length_append
      omega
    rw [skipLine_of_closesItself hline hcloses, happend, ← hlen, declarationsFrom_eq_scan, scan, if_neg (Nat.not_le.2 hbelow),
      entryAt?_oneFunction ((trimEnd_above _).symm ▸ hempty)] at hkeys
    cases hkeys
  · rintro ⟨hcloses, hend⟩ rest
    have hcount : (above.toList ++ ['\n']).count '\n' = 1 := by
      rw [List.count_append, List.count_eq_zero_of_not_mem hline]
      rfl
    have hbelow := declarationsFrom_below (docBefore_below hend rest.toList)
      { Outline.empty with imports := importsOf (above.toList ++ ['\n'] ++ rest.toList) }
      { Outline.empty with imports := importsOf rest.toList } rfl
    rw [hcount] at hbelow
    rw [outline?_below hline hnone, skipLine_of_closesItself hline hcloses, happend, ← hlen]
    exact hbelow

/-- An opening brace in a comment takes what is below the comment with it. -/
theorem line_above_harmless_iff_commented :
    '\n' ∉ "// if (debug) \x7b".toList ∧ DeclaresNothing "// if (debug) \x7b".toList ∧
      ¬ ∀ rest, (outline? ("// if (debug) \x7b" ++ "\n" ++ rest)).map Outline.bare =
        (outline? rest).map fun o => (o.below 1).bare := by
  have hline : '\n' ∉ "// if (debug) \x7b".toList := by decide
  have hnone : DeclaresNothing "// if (debug) \x7b".toList := by decide +kernel
  exact ⟨hline, hnone, fun h => absurd ((line_above_harmless_iff hline hnone).1 h).1 (by decide)⟩

end CodeIndex.Script
