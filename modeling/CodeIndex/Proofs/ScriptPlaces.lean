import CodeIndex.Source.Script
import CodeIndex.Proofs.Matching
import Mathlib.Data.List.Infix
import Mathlib.Data.List.TakeDrop

set_option autoImplicit false

/-!
# Places in a script

Reading a script goes from place to place.  Every place that it comes to lies within the text, and further on than
the line that it comes from.  What can go wrong is kept apart from what a line declares: a declaration is found
first, and then reading goes on after it or cannot.
-/

namespace CodeIndex.Script

open Text

variable {source line : List Char} {place : Nat}

/-! ## Lines -/

/-- The rest of the line at a place. -/
def lineAt (source : List Char) (place : Nat) : List Char := slice place (lineEnd source place) source

theorem getD_find?_lineFeed (cs : List Char) :
    (find? ['\n'] cs).getD cs.length = (cs.takeWhile (· != '\n')).length := by
  induction cs with
  | nil => rfl
  | cons c cs ih =>
    by_cases h : c = '\n'
    · subst h
      rfl
    · have hne : ¬ ['\n'].isPrefixOf (c :: cs) = true := by simp [Ne.symm h]
      rw [find?, if_neg hne, List.takeWhile_cons_of_pos (by simpa using h), List.length_cons,
        List.length_cons, ← ih]
      cases find? ['\n'] cs <;> rfl

theorem lt_of_findChar? {test : Char → Bool} {cs : List Char} {n : Nat} (h : findChar? test cs = some n) : n < cs.length :=
  (List.findIdx?_eq_some_iff_findIdx_eq.1 h).1

theorem getElem?_findChar? {test : Char → Bool} {n : Nat} (h : findChar? test (source.drop place) = some n) :
    ∃ c, source[place + n]? = some c ∧ test c = true := by
  obtain ⟨hlt, htest, -⟩ := List.findIdx?_eq_some_iff_getElem.1 h
  exact ⟨_, by rw [← List.getElem?_drop, List.getElem?_eq_getElem hlt], htest⟩

theorem lineEnd_eq (source : List Char) (place : Nat) :
    lineEnd source place = place + ((source.drop place).takeWhile (· != '\n')).length := by
  rw [lineEnd, getD_find?_lineFeed]

theorem lineAt_eq (source : List Char) (place : Nat) : lineAt source place = (source.drop place).takeWhile (· != '\n') := by
  rw [lineAt, slice, lineEnd_eq, Nat.add_sub_cancel_left]
  exact (List.prefix_iff_eq_take.1 (List.takeWhile_prefix _)).symm

theorem lineEnd_eq_length (source : List Char) (place : Nat) : lineEnd source place = place + (lineAt source place).length := by
  rw [lineEnd_eq, lineAt_eq]

theorem lineAt_isPrefix (source : List Char) (place : Nat) : lineAt source place <+: source.drop place := by
  rw [lineAt_eq]
  exact List.takeWhile_prefix _

theorem le_lineEnd (source : List Char) (place : Nat) : place ≤ lineEnd source place := by
  rw [lineEnd]
  exact Nat.le_add_right _ _

theorem lineEnd_le (h : place ≤ source.length) : lineEnd source place ≤ source.length := by
  have hle := (lineAt_isPrefix source place).length_le
  rw [List.length_drop] at hle
  rw [lineEnd_eq_length]
  omega

theorem nextLine_le (source : List Char) (place : Nat) : nextLine source place ≤ source.length := Nat.min_le_right _ _

theorem lt_nextLine (h : place < source.length) {later : Nat} (hle : place ≤ later) : place < nextLine source later := by
  have := le_lineEnd source later
  rw [nextLine]
  omega

/-- A stretch of the text that starts at a place has the characters of the text. -/
theorem getElem?_of_prefix {text : List Char} (h : text <+: source.drop place) {i : Nat} {c : Char} (hc : text[i]? = some c) :
    source[place + i]? = some c := by
  obtain ⟨rest, hrest⟩ := h
  rw [← List.getElem?_drop, ← hrest, List.getElem?_append_left (List.getElem?_eq_some_iff.1 hc).1, hc]

/-! ## Brackets -/

theorem closingFrom?_spec {opener closer : Char} {region : Region} {depth : Nat} {text : List Char} {close : Nat}
    (h : closingFrom? opener closer region depth text = some close) : text[close]? = some closer := by
  induction text generalizing region depth close with
  | nil => cases h
  | cons c rest ih =>
    have hfurther : ∀ {depth}, (closingFrom? opener closer (region.after rest.head? c) depth rest).map (· + 1) = some close →
        (c :: rest)[close]? = some closer := by
      intro depth h
      obtain ⟨n, hn, rfl⟩ := Option.map_eq_some_iff.1 h
      exact ih hn
    simp only [closingFrom?] at h
    split at h
    · exact hfurther h
    · split at h
      · next hcode =>
        split at h
        · cases h
          simpa using (Bool.and_eq_true_iff.1 hcode).2
        · exact hfurther h
      · exact hfurther h

theorem closingAt?_spec {opener closer : Char} {close : Nat} (h : closingAt? opener closer source place = some close) :
    place ≤ close ∧ source[close]? = some closer := by
  obtain ⟨n, hn, rfl⟩ := Option.map_eq_some_iff.1 h
  refine ⟨Nat.le_add_right _ _, ?_⟩
  rw [← closingFrom?_spec hn, List.getElem?_drop]

theorem lt_length_of_getElem? {c : Char} (h : source[place]? = some c) : place < source.length :=
  (List.getElem?_eq_some_iff.1 h).1

theorem bodyEnd_bounds (h : place < source.length) : place < bodyEnd source place ∧ bodyEnd source place ≤ source.length := by
  unfold bodyEnd
  cases hclose : closingAt? '\x7b' '\x7d' source place with
  | none => exact ⟨h, Nat.le_refl _⟩
  | some close =>
    obtain ⟨hle, hget⟩ := closingAt?_spec hclose
    have := lt_length_of_getElem? hget
    exact ⟨by simp only [Option.map_some, Option.getD_some]; omega, by simp only [Option.map_some, Option.getD_some]; omega⟩

/-! ## What a line declares -/

section MatchLine

variable {p : Pattern Char} {name : List Char} {nameStart matched : Nat}
  (h : matchLine? p place line = some (name, nameStart, matched))
include h

theorem matchLine?_eq_some : ∃ found start stop, p.find? line = some found ∧ found.group? "name" = some (start, stop) ∧
    name = slice start stop line ∧ nameStart = place + start ∧ matched = place + found.stop := by
  rw [matchLine?] at h
  obtain ⟨found, hfound, h⟩ := Option.bind_eq_some_iff.1 h
  obtain ⟨⟨start, stop⟩, hgroup, h⟩ := Option.bind_eq_some_iff.1 h
  cases h
  exact ⟨found, start, stop, hfound, hgroup, rfl, rfl, rfl⟩

theorem matchLine?_bounds : place ≤ nameStart ∧ nameStart + name.length ≤ matched ∧ matched ≤ place + line.length := by
  obtain ⟨found, start, stop, hfound, hgroup, rfl, rfl, rfl⟩ := matchLine?_eq_some h
  have hstop := Pattern.find?_bounds hfound
  have hname := Pattern.find?_group hfound hgroup
  rw [slice, List.length_take]
  omega

theorem matchLine?_last {test : Char → Bool} (hp : p.EndsWith test) (hline : line <+: source.drop place) :
    place < matched ∧ ∃ c, source[matched - 1]? = some c ∧ test c = true := by
  obtain ⟨found, start, stop, hfound, hgroup, rfl, rfl, rfl⟩ := matchLine?_eq_some h
  obtain ⟨hlt, c, hc, htest⟩ := Pattern.find?_last hfound hp
  refine ⟨by omega, c, ?_, htest⟩
  rw [← getElem?_of_prefix hline hc, Nat.add_sub_assoc (by omega)]

end MatchLine

/-- A declaration with parameters, up to its body or what ends it; whether reading can go on after it is another
    matter. -/
def withParameters? (source : List Char) (place : Nat) (line : List Char) (p : Pattern Char) : Option Declaration := do
  let (name, nameStart, matched) ← matchLine? p place line
  let close ← closingAt? '(' ')' source (matched - 1)
  match findChar? (fun c => c == '\x7b' || c == ';') (source.drop (close + 1)) with
  | none => some ⟨name, nameStart, place, close + 1, none, nextLine source (close + 1)⟩
  | some n =>
    let stop := close + 1 + n
    if source[stop]? = some '\x7b' then
      some ⟨name, nameStart, place, stop, some (stop, bodyEnd source stop), nextLine source (bodyEnd source stop - 1)⟩
    else some ⟨name, nameStart, place, stop, none, nextLine source stop⟩

/-- Where something follows a place that is no blank. -/
def afterBlanks (source : List Char) (place : Nat) : Nat := place + ((source.drop place).takeWhile isBlank).length

/-- The body that follows an arrow: a block, or what follows up to the end of its line. -/
def arrowBody (source : List Char) (arrow : Nat) : Nat × Nat :=
  let start := afterBlanks source arrow
  if source[start]? = some '\x7b' then (start, bodyEnd source start) else (arrow, lineEnd source start)

def withArrow? (source : List Char) (place : Nat) (line : List Char) (p : Pattern Char) : Option Declaration := do
  let (name, nameStart, matched) ← matchLine? p place line
  let body := arrowBody source matched
  some ⟨name, nameStart, place, matched, some body, nextLine source (body.2 - 1)⟩

/-- The body ends right after a character outside ASCII. -/
def Declaration.endsWide (source : List Char) (d : Declaration) : Bool :=
  d.body.any fun body => source[body.2 - 1]?.any fun c => decide (128 ≤ c.toNat)

/-- Reading goes on after a declaration, unless that ends right after a character outside ASCII. -/
def goOn? (source : List Char) : Option Declaration → Option (Option Declaration)
  | none => some none
  | some d => if d.endsWide source then none else some (some d)

theorem resumeAfter?_map (source : List Char) (start stop : Nat) (declaration : Nat → Declaration)
    (hbody : ∀ resume, (declaration resume).body = some (start, stop)) :
    (resumeAfter? source stop).map (fun resume => some (declaration resume)) =
      goOn? source (some (declaration (nextLine source (stop - 1)))) := by
  rw [goOn?, Declaration.endsWide, hbody, resumeAfter?, Option.any_some]
  cases source[stop - 1]? with
  | none => rfl
  | some c =>
    by_cases h : c.toNat < 128
    · simp [h, Nat.not_le.2 h]
    · simp [h, Nat.not_lt.1 h]

theorem parenthesised_eq (source : List Char) (place : Nat) (line : List Char) (p : Pattern Char) :
    parenthesised source place line p = goOn? source (withParameters? source place line p) := by
  unfold parenthesised withParameters?
  cases matchLine? p place line with
  | none => rfl
  | some matched =>
    obtain ⟨name, nameStart, matched⟩ := matched
    dsimp only [Option.bind_eq_bind, Option.bind_some]
    cases closingAt? '(' ')' source (matched - 1) with
    | none => rfl
    | some close =>
      dsimp only [Option.bind_some]
      cases findChar? (fun c => c == '\x7b' || c == ';') (source.drop (close + 1)) with
      | none => rfl
      | some n =>
        dsimp only
        split
        · exact resumeAfter?_map source _ _ (fun resume => ⟨name, nameStart, place, close + 1 + n, some _, resume⟩) fun _ => rfl
        · rfl

theorem arrow_eq (source : List Char) (place : Nat) (line : List Char) (p : Pattern Char) :
    arrow source place line p = goOn? source (withArrow? source place line p) := by
  unfold arrow withArrow?
  cases matchLine? p place line with
  | none => rfl
  | some matched =>
    obtain ⟨name, nameStart, matched⟩ := matched
    exact resumeAfter?_map source _ _ (fun resume => ⟨name, nameStart, place, matched, some _, resume⟩) fun _ => rfl

/-- The first declaration outside all classes that a line may be read as. -/
def topLevel? (source : List Char) (place : Nat) (line : List Char) : Option Declaration :=
  (withParameters? source place line functionHead).or
    ((withParameters? source place line functionBinding).or (withArrow? source place line arrowBinding))

theorem topLevel_eq (source : List Char) (place : Nat) (line : List Char) :
    topLevel source place line = goOn? source (topLevel? source place line) := by
  rw [topLevel, parenthesised_eq, parenthesised_eq, arrow_eq, topLevel?]
  cases withParameters? source place line functionHead with
  | some d =>
    rw [Option.some_or]
    by_cases h : d.endsWide source <;> simp [goOn?, h]
  | none =>
    rw [Option.none_or]
    cases withParameters? source place line functionBinding with
    | some d =>
      rw [Option.some_or]
      by_cases h : d.endsWide source <;> simp [goOn?, h]
    | none => simp [goOn?]

/-- The declaration that a method's pattern leads to, when its name is that of a member. -/
def method? (source : List Char) (place : Nat) (line : List Char) : Option Declaration :=
  (withParameters? source place line methodHead).filter fun d => !isControl d.name

def member? (source : List Char) (place : Nat) (line : List Char) : Option Declaration :=
  (method? source place line).or (withArrow? source place line arrowField)

/-- A member is read unless the line, read as a method of whatever name, cannot be. -/
theorem member_eq (source : List Char) (place : Nat) (line : List Char) :
    member source place line =
      if (withParameters? source place line methodHead).any (Declaration.endsWide source) then none
      else goOn? source (member? source place line) := by
  rw [member, member?, method?, parenthesised_eq, arrow_eq]
  cases withParameters? source place line methodHead with
  | none => rfl
  | some d =>
    -- whether the body ends wide comes up before the name is looked at
    by_cases h : d.endsWide source
    · simp [goOn?, h]
    · by_cases hname : isControl d.name <;> simp [goOn?, h, hname, Option.filter]

/-! ## The last character and the name of a declaration's pattern -/

theorem functionHead_endsWith : functionHead.EndsWith (· == '(') := (Pattern.endsWith_one _).seqs_of_getLast? rfl

theorem functionBinding_endsWith : functionBinding.EndsWith (· == '(') := (Pattern.endsWith_one _).seqs_of_getLast? rfl

theorem methodHead_endsWith : methodHead.EndsWith (· == '(') := (Pattern.endsWith_one _).seqs_of_getLast? rfl

theorem arrow_endsWith : (text "=>").EndsWith (· == '>') := (Pattern.endsWith_one (· == '>')).seqs [Pattern.one (· == '=')]

theorem arrowBinding_endsWith : arrowBinding.EndsWith (· == '>') := arrow_endsWith.seqs_of_getLast? rfl

theorem arrowField_endsWith : arrowField.EndsWith (· == '>') := arrow_endsWith.seqs_of_getLast? rfl

/-! ## Where a declaration lies -/

namespace Declaration

/-- The places of a declaration that is found at a place, with its name before `stop`. -/
structure Placed (source : List Char) (place stop : Nat) (d : Declaration) : Prop where
  start : d.start = place
  nameStart : place ≤ d.nameStart
  nameEnd : d.nameStart + d.name.length ≤ stop
  head : place < d.headEnd
  headEnd : d.headEnd ≤ source.length
  body : ∀ body ∈ d.body, d.headEnd ≤ body.1 ∧ body.1 ≤ body.2 ∧ body.2 ≤ source.length
  forward : place < d.resume
  resume : d.resume ≤ source.length

end Declaration

variable {p : Pattern Char} {d : Declaration}

/-- Where a declaration with parameters ends: at the brace that opens its body, or else at a semicolon or right after
    its parameters. -/
theorem withParameters?_eq_some (h : withParameters? source place line p = some d) :
    ∃ matched close, matchLine? p place line = some (d.name, d.nameStart, matched) ∧
      closingAt? '(' ')' source (matched - 1) = some close ∧ d.start = place ∧ close < d.headEnd ∧ d.headEnd ≤ source.length ∧
      ((source[d.headEnd]? = some '\x7b' ∧ d.body = some (d.headEnd, bodyEnd source d.headEnd) ∧
          d.resume = nextLine source (bodyEnd source d.headEnd - 1)) ∨
        d.body = none ∧ d.resume = nextLine source d.headEnd) := by
  unfold withParameters? at h
  obtain ⟨⟨name, nameStart, matched⟩, hmatch, h⟩ := Option.bind_eq_some_iff.1 h
  obtain ⟨close, hclose, h⟩ := Option.bind_eq_some_iff.1 h
  have hlt := lt_length_of_getElem? (closingAt?_spec hclose).2
  split at h
  · cases h
    exact ⟨matched, close, hmatch, hclose, rfl, Nat.lt_succ_self _, hlt, .inr ⟨rfl, rfl⟩⟩
  · next n hn =>
    have hstop : close + 1 + n < source.length := by
      obtain ⟨c, hc, -⟩ := getElem?_findChar? hn
      exact lt_length_of_getElem? hc
    have hafter : close < close + 1 + n := by omega
    dsimp only at h
    split at h
    · next hbrace =>
      cases h
      exact ⟨matched, close, hmatch, hclose, rfl, hafter, hstop.le, .inl ⟨hbrace, rfl, rfl⟩⟩
    · cases h
      exact ⟨matched, close, hmatch, hclose, rfl, hafter, hstop.le, .inr ⟨rfl, rfl⟩⟩

theorem withArrow?_eq_some (h : withArrow? source place line p = some d) :
    matchLine? p place line = some (d.name, d.nameStart, d.headEnd) ∧ d.start = place ∧
      d.body = some (arrowBody source d.headEnd) ∧ d.resume = nextLine source ((arrowBody source d.headEnd).2 - 1) := by
  unfold withArrow? at h
  obtain ⟨⟨name, nameStart, matched⟩, hmatch, h⟩ := Option.bind_eq_some_iff.1 h
  cases h
  exact ⟨hmatch, rfl, rfl, rfl⟩

theorem le_afterBlanks (source : List Char) (place : Nat) : place ≤ afterBlanks source place := Nat.le_add_right _ _

theorem afterBlanks_le (h : place ≤ source.length) : afterBlanks source place ≤ source.length := by
  have := (List.takeWhile_prefix isBlank (l := source.drop place)).length_le
  rw [List.length_drop] at this
  rw [afterBlanks]
  omega

theorem arrowBody_bounds {arrow : Nat} (h : arrow ≤ source.length) :
    arrow ≤ (arrowBody source arrow).1 ∧ (arrowBody source arrow).1 ≤ (arrowBody source arrow).2 ∧
      (arrowBody source arrow).2 ≤ source.length := by
  have hle := le_afterBlanks source arrow
  rw [arrowBody]
  split
  · next hbrace =>
    obtain ⟨hlt, hend⟩ := bodyEnd_bounds (lt_length_of_getElem? hbrace)
    exact ⟨hle, hlt.le, hend⟩
  · have := le_lineEnd source (afterBlanks source arrow)
    exact ⟨Nat.le_refl _, by dsimp only; omega, lineEnd_le (afterBlanks_le h)⟩

section Placed

variable {test : Char → Bool} (hp : p.EndsWith test) (hline : line <+: source.drop place)
include hp hline

theorem withParameters?_placed (h : withParameters? source place line p = some d) :
    d.Placed source place (place + line.length) := by
  obtain ⟨matched, close, hmatch, hclose, hstart, hlt, hle, hend⟩ := withParameters?_eq_some h
  obtain ⟨hname, hnameEnd, hmatched⟩ := matchLine?_bounds hmatch
  obtain ⟨hforward, c, hc, -⟩ := matchLine?_last hmatch hp hline
  have hplace : place < source.length := by have := lt_length_of_getElem? hc; omega
  have hopen := (closingAt?_spec hclose).1
  have hhead : place < d.headEnd := by omega
  have hbefore : d.nameStart + d.name.length ≤ place + line.length := hnameEnd.trans hmatched
  rcases hend with ⟨hbrace, hbody, hresume⟩ | ⟨hbody, hresume⟩
  · obtain ⟨hlast, hlastLe⟩ := bodyEnd_bounds (lt_length_of_getElem? hbrace)
    refine ⟨hstart, hname, hbefore, hhead, hle, ?_, ?_, hresume ▸ nextLine_le _ _⟩
    · rw [hbody]
      rintro _ ⟨⟩
      exact ⟨Nat.le_refl _, hlast.le, hlastLe⟩
    · rw [hresume]
      exact lt_nextLine hplace (by omega)
  · refine ⟨hstart, hname, hbefore, hhead, hle, by simp [hbody], ?_, hresume ▸ nextLine_le _ _⟩
    rw [hresume]
    exact lt_nextLine hplace hhead.le

theorem withArrow?_placed (h : withArrow? source place line p = some d) : d.Placed source place (place + line.length) := by
  obtain ⟨hmatch, hstart, hbody, hresume⟩ := withArrow?_eq_some h
  obtain ⟨hname, hnameEnd, hmatched⟩ := matchLine?_bounds hmatch
  obtain ⟨hhead, c, hc, -⟩ := matchLine?_last hmatch hp hline
  have hlast := lt_length_of_getElem? hc
  have hle : d.headEnd ≤ source.length := by omega
  have hbounds := arrowBody_bounds hle
  refine ⟨hstart, hname, hnameEnd.trans hmatched, hhead, by omega, ?_, ?_, hresume ▸ nextLine_le _ _⟩
  · rw [hbody]
    rintro _ ⟨⟩
    exact hbounds
  · rw [hresume]
    exact lt_nextLine (by omega) (by omega)

end Placed

theorem topLevel?_placed (hline : line <+: source.drop place) (h : topLevel? source place line = some d) :
    d.Placed source place (place + line.length) := by
  rw [topLevel?, Option.or_eq_some_iff, Option.or_eq_some_iff] at h
  rcases h with h | ⟨-, h | ⟨-, h⟩⟩
  · exact withParameters?_placed functionHead_endsWith hline h
  · exact withParameters?_placed functionBinding_endsWith hline h
  · exact withArrow?_placed arrowBinding_endsWith hline h

theorem member?_placed (hline : line <+: source.drop place) (h : member? source place line = some d) :
    d.Placed source place (place + line.length) := by
  rw [member?, Option.or_eq_some_iff, method?, Option.filter_eq_some_iff] at h
  rcases h with ⟨h, -⟩ | ⟨-, h⟩
  · exact withParameters?_placed methodHead_endsWith hline h
  · exact withArrow?_placed arrowField_endsWith hline h

theorem lt_skipLine (h : place < source.length) (line : List Char) : place < skipLine source place line := by
  have hnext := lt_nextLine h (Nat.le_refl place)
  unfold skipLine
  split
  · exact hnext
  · split
    · exact hnext.trans_le (Nat.le_max_right _ _)
    · exact h

end CodeIndex.Script
