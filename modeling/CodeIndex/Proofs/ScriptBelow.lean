import CodeIndex.Proofs.Dict
import CodeIndex.Proofs.ScriptComment
import CodeIndex.Proofs.ScriptScan
import Mathlib.Data.List.ReduceOption

set_option autoImplicit false

/-!
# A script below other text

What a script says at a place depends on what follows that place, but for line numbers and for the comment before it.
So reading that starts right below some other text reads the script itself, with every place as much further on as
the other text is long.
-/

namespace CodeIndex

/-! ## Outlines without documentation, and further down -/

namespace Callable

/-- A callable with so many lines more above it. -/
def below (lines : UInt64) (c : Callable) : Callable := { c with line := lines + c.line }

def undocumented (c : Callable) : Callable := { c with doc := none }

end Callable

namespace TypeOutline

def below (lines : UInt64) (t : TypeOutline) : TypeOutline :=
  { t with line := lines + t.line, methods := t.methods.map fun _ => Callable.below lines }

def undocumented (t : TypeOutline) : TypeOutline :=
  { t with methods := t.methods.map fun _ => Callable.undocumented, doc := none }

end TypeOutline

namespace Outline

def below (lines : UInt64) (o : Outline) : Outline :=
  { o with functions := o.functions.map fun _ => Callable.below lines, types := o.types.map fun _ => TypeOutline.below lines }

/-- Functions and types without their documentation, and no imports. -/
def bare (o : Outline) : Outline where
  functions := o.functions.map fun _ => Callable.undocumented
  types := o.types.map fun _ => TypeOutline.undocumented
  imports := []

end Outline

namespace Dict

variable {α β : Type}

theorem map_insert (f : String → α → β) (d : Dict α) (key : String) (value : α) :
    (d.insert key value).map f = (d.map f).insert key (f key value) := by
  refine ext_get? fun other => ?_
  rw [get?_map, get?_insert, get?_insert, get?_map]
  split
  · next h => rw [h, Option.map_some]
  · rfl

theorem map_ofList (f : String → α → β) (entries : List (String × α)) :
    (ofList entries).map f = ofList (entries.map fun e => (e.1, f e.1 e.2)) := by
  induction entries using List.reverseRecOn with
  | nil => rfl
  | append_singleton init last ih =>
    rw [ofList, ofList, insertAll, insertAll, List.map_append, List.foldl_append, List.foldl_append]
    change (Dict.insert (ofList init) last.1 last.2).map f = Dict.insert (ofList _) last.1 (f last.1 last.2)
    rw [map_insert, ih]

end Dict

namespace Script

open Text

variable {pre source line : List Char} {place : Nat}

/-! ## Places -/

theorem getElem?_below (pre source : List Char) (place : Nat) : (pre ++ source)[pre.length + place]? = source[place]? := by
  rw [List.getElem?_append_right (Nat.le_add_right _ _), Nat.add_sub_cancel_left]

theorem slice_below (pre source : List Char) (start stop : Nat) :
    slice (pre.length + start) (pre.length + stop) (pre ++ source) = slice start stop source := by
  rw [slice, slice, List.drop_length_add_append, Nat.add_sub_add_left]

theorem lineEnd_below (pre source : List Char) (place : Nat) :
    lineEnd (pre ++ source) (pre.length + place) = pre.length + lineEnd source place := by
  rw [lineEnd_eq, lineEnd_eq, List.drop_length_add_append, Nat.add_assoc]

theorem lineAt_below (pre source : List Char) (place : Nat) :
    lineAt (pre ++ source) (pre.length + place) = lineAt source place := by
  rw [lineAt_eq, lineAt_eq, List.drop_length_add_append]

theorem lineBefore_below (pre source : List Char) (stop place : Nat) :
    lineBefore (pre ++ source) (pre.length + stop) (pre.length + place) = lineBefore source stop place := by
  rw [lineBefore, lineBefore, lineEnd_below, Nat.add_min_add_left, slice_below]

theorem nextLine_below (pre source : List Char) (place : Nat) :
    nextLine (pre ++ source) (pre.length + place) = pre.length + nextLine source place := by
  rw [nextLine, nextLine, lineEnd_below, List.length_append, Nat.add_assoc, Nat.add_min_add_left]

theorem closingAt?_below (opener closer : Char) (pre source : List Char) (place : Nat) :
    closingAt? opener closer (pre ++ source) (pre.length + place) =
      (closingAt? opener closer source place).map (pre.length + ·) := by
  simp only [closingAt?, List.drop_length_add_append, Option.map_map, Function.comp_def, Nat.add_assoc]

theorem bodyEnd_below (pre source : List Char) (place : Nat) :
    bodyEnd (pre ++ source) (pre.length + place) = pre.length + bodyEnd source place := by
  rw [bodyEnd, bodyEnd, closingAt?_below]
  cases closingAt? '\x7b' '\x7d' source place with
  | none => exact List.length_append
  | some close => exact Nat.add_assoc _ _ _

theorem afterBlanks_below (pre source : List Char) (place : Nat) :
    afterBlanks (pre ++ source) (pre.length + place) = pre.length + afterBlanks source place := by
  rw [afterBlanks, afterBlanks, List.drop_length_add_append, Nat.add_assoc]

theorem arrowBody_below (pre source : List Char) (arrow : Nat) :
    arrowBody (pre ++ source) (pre.length + arrow) =
      (pre.length + (arrowBody source arrow).1, pre.length + (arrowBody source arrow).2) := by
  simp only [arrowBody, afterBlanks_below, getElem?_below, bodyEnd_below, lineEnd_below]
  split <;> rfl

theorem skipLine_below (pre source : List Char) (place : Nat) (line : List Char) :
    skipLine (pre ++ source) (pre.length + place) line = pre.length + skipLine source place line := by
  unfold skipLine
  cases findChar? (· == '\x7b') line with
  | none => exact nextLine_below pre source place
  | some n =>
    dsimp only
    rw [Nat.add_assoc, closingAt?_below]
    cases closingAt? '\x7b' '\x7d' source (place + n) with
    | none => exact List.length_append
    | some close =>
      rw [Option.map_some]
      dsimp only
      rw [nextLine_below, nextLine_below, Nat.add_max_add_left]

theorem lineNumber_below (pre source : List Char) (place : Nat) :
    lineNumber (pre ++ source) (pre.length + place) = (pre.count '\n').toUInt64 + lineNumber source place := by
  rw [lineNumber, lineNumber, List.take_length_add_append, List.count_append, Nat.add_assoc]
  exact UInt64.ofNat_add _ _

/-! ## Declarations -/

namespace Declaration

/-- A declaration with every place so much further on. -/
def moved (shift : Nat) (d : Declaration) : Declaration where
  name := d.name
  nameStart := shift + d.nameStart
  start := shift + d.start
  headEnd := shift + d.headEnd
  body := d.body.map fun body => (shift + body.1, shift + body.2)
  resume := shift + d.resume

@[simp] theorem resume_moved (shift : Nat) (d : Declaration) : (d.moved shift).resume = shift + d.resume := rfl

end Declaration

theorem matchLine?_below (p : Pattern Char) (shift place : Nat) (line : List Char) :
    matchLine? p (shift + place) line =
      (matchLine? p place line).map fun (name, nameStart, matched) => (name, shift + nameStart, shift + matched) := by
  unfold matchLine?
  cases p.find? line with
  | none => rfl
  | some found =>
    simp only [Option.bind_eq_bind, Option.bind_some]
    cases found.group? "name" <;> simp [Nat.add_assoc]

section

variable {p : Pattern Char} {test : Char → Bool} (hp : p.EndsWith test) (hline : line <+: source.drop place)
include hp hline

theorem withParameters?_below (pre : List Char) :
    withParameters? (pre ++ source) (pre.length + place) line p =
      (withParameters? source place line p).map (Declaration.moved pre.length) := by
  unfold withParameters?
  rw [matchLine?_below]
  cases hmatch : matchLine? p place line with
  | none => rfl
  | some matched =>
    obtain ⟨name, nameStart, matched⟩ := matched
    have hpos := (matchLine?_last hmatch hp hline).1
    simp only [Option.map_some, Option.bind_eq_bind, Option.bind_some]
    rw [Nat.add_sub_assoc (by omega), closingAt?_below]
    cases closingAt? '(' ')' source (matched - 1) with
    | none => rfl
    | some close =>
      simp only [Option.map_some, Option.bind_some, Nat.add_assoc, List.drop_length_add_append]
      cases findChar? (fun c => c == '\x7b' || c == ';') (source.drop (close + 1)) with
      | none => simp [Declaration.moved, nextLine_below]
      | some n =>
        simp only [getElem?_below]
        split
        · next hbrace =>
          have hend := (bodyEnd_bounds (lt_length_of_getElem? hbrace)).1
          simp [Declaration.moved, bodyEnd_below, Nat.add_sub_assoc (show 1 ≤ bodyEnd source (close + (1 + n)) by omega),
            nextLine_below]
        · simp [Declaration.moved, nextLine_below]

theorem withArrow?_below (pre : List Char) :
    withArrow? (pre ++ source) (pre.length + place) line p =
      (withArrow? source place line p).map (Declaration.moved pre.length) := by
  unfold withArrow?
  rw [matchLine?_below]
  cases hmatch : matchLine? p place line with
  | none => rfl
  | some matched =>
    obtain ⟨name, nameStart, matched⟩ := matched
    obtain ⟨hpos, c, hc, -⟩ := matchLine?_last hmatch hp hline
    have hlt := lt_length_of_getElem? hc
    have hle : matched ≤ source.length := by omega
    have hbody := arrowBody_bounds hle
    simp [arrowBody_below, Declaration.moved,
      Nat.add_sub_assoc (show 1 ≤ (arrowBody source matched).2 by omega), nextLine_below]

end

theorem topLevel?_below (hline : line <+: source.drop place) (pre : List Char) :
    topLevel? (pre ++ source) (pre.length + place) line = (topLevel? source place line).map (Declaration.moved pre.length) := by
  rw [topLevel?, withParameters?_below functionHead_endsWith hline, withParameters?_below functionBinding_endsWith hline,
    withArrow?_below arrowBinding_endsWith hline, ← Option.map_or, ← Option.map_or, topLevel?]

theorem member?_below (hline : line <+: source.drop place) (pre : List Char) :
    member? (pre ++ source) (pre.length + place) line = (member? source place line).map (Declaration.moved pre.length) := by
  have hmethod : method? (pre ++ source) (pre.length + place) line =
      (method? source place line).map (Declaration.moved pre.length) := by
    rw [method?, method?, withParameters?_below methodHead_endsWith hline, Option.filter_map]
    rfl
  rw [member?, hmethod, withArrow?_below arrowField_endsWith hline, ← Option.map_or, member?]

theorem endsWide_moved {d : Declaration} (h : ∀ body ∈ d.body, 0 < body.2) (pre source : List Char) :
    (d.moved pre.length).endsWide (pre ++ source) = d.endsWide source := by
  rw [Declaration.endsWide, Declaration.endsWide, Declaration.moved]
  cases hbody : d.body with
  | none => rfl
  | some body =>
    -- a body that is read on from its last character has one, so the subtraction moves with it
    have := h body hbody
    simp only [Option.map_some, Option.any_some]
    rw [Nat.add_sub_assoc (by omega), getElem?_below]

theorem Declaration.Placed.body_pos {stop : Nat} {d : Declaration} (h : d.Placed source place stop) :
    ∀ body ∈ d.body, 0 < body.2 := by
  intro body hbody
  have := h.head
  have := h.body body hbody
  omega

theorem goOn?_below {found : Option Declaration} (h : ∀ d ∈ found, ∀ body ∈ d.body, 0 < body.2) (pre source : List Char) :
    goOn? (pre ++ source) (found.map (Declaration.moved pre.length)) =
      (goOn? source found).map (Option.map (Declaration.moved pre.length)) := by
  cases found with
  | none => rfl
  | some d =>
    rw [Option.map_some, goOn?, goOn?, endsWide_moved (h d rfl)]
    split <;> rfl

theorem topLevel_below (hline : line <+: source.drop place) (pre : List Char) :
    topLevel (pre ++ source) (pre.length + place) line =
      (topLevel source place line).map (Option.map (Declaration.moved pre.length)) := by
  rw [topLevel_eq, topLevel_eq, topLevel?_below hline]
  exact goOn?_below (fun d hd => (topLevel?_placed hline hd).body_pos) pre source

theorem member_below (hline : line <+: source.drop place) (pre : List Char) :
    member (pre ++ source) (pre.length + place) line =
      (member source place line).map (Option.map (Declaration.moved pre.length)) := by
  have hany : ((withParameters? source place line methodHead).map (Declaration.moved pre.length)).any
      (Declaration.endsWide (pre ++ source)) =
        (withParameters? source place line methodHead).any (Declaration.endsWide source) := by
    cases hd : withParameters? source place line methodHead with
    | none => rfl
    | some d => exact endsWide_moved (withParameters?_placed methodHead_endsWith hline hd).body_pos pre source
  rw [member_eq, member_eq, withParameters?_below methodHead_endsWith hline, hany, member?_below hline]
  split
  · rfl
  · exact goOn?_below (fun d hd => (member?_placed hline hd).body_pos) pre source

/-! ## Classes -/

theorem memberAt?_below (pre source : List Char) (stop place : Nat) :
    memberAt? (pre ++ source) (pre.length + stop) (pre.length + place) =
      (memberAt? source stop place).map fun found => (found.1.map (Declaration.moved pre.length), pre.length + found.2) := by
  rw [memberAt?, memberAt?, lineBefore_below, member_below (lineBefore_isPrefix source stop place)]
  cases member source place (lineBefore source stop place) with
  | none => rfl
  | some d =>
    cases d with
    | none => simp [skipLine_below]
    | some d => rfl

theorem classBody?_below (pre source : List Char) (place : Nat) :
    classBody? (pre ++ source) (pre.length + place) =
      (classBody? source place).map fun body => (pre.length + body.1, pre.length + body.2) := by
  rw [classBody?, classBody?, List.drop_length_add_append]
  cases findChar? (· == '\x7b') (source.drop place) with
  | none => rfl
  | some n =>
    simp only [Option.map_some, Nat.add_assoc]
    rw [closingAt?_below]
    cases closingAt? '\x7b' '\x7d' source (place + n) with
    | none => simp
    | some close => rfl

theorem members?_below (pre source : List Char) (place : Nat) :
    members? (pre ++ source) (pre.length + place) =
      (members? source place).map (List.map (Declaration.moved pre.length)) := by
  rw [members?, members?, classBody?_below]
  cases hbody : classBody? source place with
  | none => rfl
  | some body =>
    obtain ⟨opened, closed⟩ := body
    have hclosed := (classBody?_bounds hbody).2.2.2
    have hlen : (pre ++ source).length = pre.length + source.length := List.length_append
    simp only [Option.map_some, Option.elim_some]
    -- fuel is counted by the whole text, so first the longer text gets that of the shorter one
    rw [membersIn_eq_scan, membersIn_eq_scan, Nat.add_assoc pre.length opened 1,
      scan_fuel (forward_memberAt? (by omega)) (source.length + 1) (by omega) (by omega)]
    have hscan : (scan (memberAt? (pre ++ source) (pre.length + closed)) (pre.length + closed) (source.length + 1)
        (pre.length + (opened + 1))).map (List.map id) =
          (scan (memberAt? source closed) closed (source.length + 1) (opened + 1)).map
            (List.map (Option.map (Declaration.moved pre.length))) :=
      scan_shift (fun place _ => by
        rw [memberAt?_below, Option.map_map]
        rfl) _ _
    rw [List.map_id_fun, Option.map_id] at hscan
    rw [id] at hscan
    rw [hscan, Option.map_map, Option.map_map]
    congr 1
    funext items
    exact List.reduceOption_map

theorem afterClass_below (pre source : List Char) (place : Nat) :
    afterClass (pre ++ source) (pre.length + place) = pre.length + afterClass source place := by
  rw [afterClass, afterClass, classBody?_below]
  cases classBody? source place with
  | none => exact nextLine_below pre source place
  | some body => exact nextLine_below pre source body.2

/-! ## What is recorded -/

/-- Readings of corresponding things that agree one by one, as far as `f` and `g` show, agree together. -/
theorem mapM_moved {α β γ δ ε : Type} {read : β → Option γ} {read' : α → Option δ} {move : α → β} {f : γ → ε}
    {g : δ → ε} {xs : List α} (h : ∀ x ∈ xs, (read (move x)).map f = (read' x).map g) :
    ((xs.map move).mapM read).map (List.map f) = (xs.mapM read').map (List.map g) := by
  induction xs with
  | nil => rfl
  | cons x xs ih =>
    have hx := h x List.mem_cons_self
    have hxs := ih fun y hy => h y (List.mem_cons_of_mem _ hy)
    rw [List.map_cons, List.mapM_cons, List.mapM_cons]
    cases hread : read (move x) <;> cases hread' : read' x <;> rw [hread, hread'] at hx
    · rfl
    · cases hx
    · cases hx
    · cases hrest : (xs.map move).mapM read <;> cases hrest' : xs.mapM read' <;> rw [hrest, hrest'] at hxs
      · rfl
      · cases hxs
      · cases hxs
      · simpa using And.intro (Option.some.inj hx) (Option.some.inj hxs)

section Recorded

variable (hdoc : ∀ place, docBefore (pre ++ source) (pre.length + place) = none ↔ docBefore source place = none)
include hdoc

theorem callable?_moved (d : Declaration) :
    ((d.moved pre.length).callable? (pre ++ source)).map (fun e => (e.1, e.2.undocumented)) =
      (d.callable? source).map fun e => (e.1, (e.2.below (pre.count '\n').toUInt64).undocumented) := by
  have hiff := hdoc d.start
  rw [Declaration.callable?, Declaration.callable?]
  simp only [Declaration.moved, Option.map_map, Function.comp_def, slice_below, lineNumber_below]
  cases hread : docBefore (pre ++ source) (pre.length + d.start) <;> cases hread' : docBefore source d.start <;>
    simp_all [Callable.below, Callable.undocumented]

theorem typeOutline?_below (place : Nat) (line : List Char) (found : Pattern.Found) :
    (typeOutline? (pre ++ source) (pre.length + place) line found).map (fun e => (e.1.undocumented, e.2)) =
      (typeOutline? source place line found).map fun e =>
        ((e.1.below (pre.count '\n').toUInt64).undocumented, pre.length + e.2) := by
  have hiff := hdoc place
  rw [typeOutline?_eq, typeOutline?_eq, members?_below, afterClass_below]
  cases hread : docBefore (pre ++ source) (pre.length + place) <;> cases hread' : docBefore source place <;>
    rw [hread, hread'] at hiff
  · rfl
  · cases hiff.1 rfl
  · cases hiff.2 rfl
  · cases members? source place with
    | none => rfl
    | some members =>
      have hmethods := mapM_moved fun d (_ : d ∈ members) => callable?_moved hdoc d
      rw [Option.map_some, Option.bind_some, Option.bind_some, Option.bind_some, Option.bind_some]
      cases hm : (members.map (Declaration.moved pre.length)).mapM (Declaration.callable? (pre ++ source)) <;>
        cases hm' : members.mapM (Declaration.callable? source) <;> rw [hm, hm'] at hmethods
      · rfl
      · cases hmethods
      · cases hmethods
      · next methods methods' =>
        have heq : (Dict.ofList methods).map (fun _ => Callable.undocumented) =
            ((Dict.ofList methods').map fun _ => Callable.below (pre.count '\n').toUInt64).map
              fun _ => Callable.undocumented := by
          rw [Dict.map_ofList, Dict.map_ofList, Dict.map_ofList, List.map_map, Option.some.inj hmethods]
          rfl
        simp [TypeOutline.undocumented, TypeOutline.below, heq, Nat.add_assoc, lineNumber_below]

end Recorded

/-! ## The whole outline -/

namespace Entry

def below (lines : UInt64) : Entry → Entry
  | type name outline => type name (outline.below lines)
  | function name callable => function name (callable.below lines)
  | blank => blank

def bare : Entry → Entry
  | type name outline => type name outline.undocumented
  | function name callable => function name callable.undocumented
  | blank => blank

theorem bare_addTo (o : Outline) (e : Entry) : (e.addTo o).bare = e.bare.addTo o.bare := by
  cases e with
  | type name outline => simp only [addTo, bare, Outline.bare, Dict.map_insert]
  | function name callable => simp only [addTo, bare, Outline.bare, Dict.map_insert]
  | blank => rfl

theorem below_addTo (lines : UInt64) (o : Outline) (e : Entry) :
    (e.addTo o).below lines = (e.below lines).addTo (o.below lines) := by
  cases e with
  | type name outline => simp only [addTo, below, Outline.below, Dict.map_insert]
  | function name callable => simp only [addTo, below, Outline.below, Dict.map_insert]
  | blank => rfl

end Entry

theorem bare_foldl (entries : List Entry) (o : Outline) :
    (entries.foldl Entry.addTo o).bare = (entries.map Entry.bare).foldl Entry.addTo o.bare := by
  rw [List.foldl_map]
  exact (List.foldl_hom Outline.bare fun o e => (Entry.bare_addTo o e).symm).symm

theorem below_foldl (lines : UInt64) (entries : List Entry) (o : Outline) :
    (entries.foldl Entry.addTo o).below lines = (entries.map (Entry.below lines)).foldl Entry.addTo (o.below lines) := by
  rw [List.foldl_map]
  exact (List.foldl_hom (Outline.below lines) fun o e => (Entry.below_addTo lines o e).symm).symm

section Whole

variable (hdoc : ∀ place, docBefore (pre ++ source) (pre.length + place) = none ↔ docBefore source place = none)
include hdoc

theorem entryAt?_below (place : Nat) :
    (entryAt? (pre ++ source) (pre.length + place)).map (fun e => (e.1.bare, e.2)) =
      (entryAt? source place).map fun e => ((e.1.below (pre.count '\n').toUInt64).bare, pre.length + e.2) := by
  rw [entryAt?, entryAt?, lineAt_below]
  cases classHead.find? (lineAt source place) with
  | some found =>
    have htype := typeOutline?_below hdoc place (lineAt source place) found
    have hentry := congrArg (Option.map fun e => (Entry.type (typeName (lineAt source place) found) e.1, e.2)) htype
    simpa only [Option.map_map, Function.comp_def, Entry.bare, Entry.below] using hentry
  | none =>
    dsimp only
    rw [topLevel_below (lineAt_isPrefix source place)]
    cases topLevel source place (lineAt source place) with
    | none => rfl
    | some d =>
      cases d with
      | none => simp [skipLine_below, Entry.below, Entry.bare]
      | some d =>
        have hcallable := callable?_moved hdoc d
        have hentry := congrArg (Option.map fun e => (Entry.function e.1 e.2, pre.length + d.resume)) hcallable
        simpa only [Option.map_some, Option.bind_some, Option.map_map, Function.comp_def, Entry.bare, Entry.below,
          Declaration.resume_moved] using hentry

/-- What is read from the end of `pre` on is what the text below it declares. -/
theorem declarationsFrom_below (o o' : Outline) (h : o.bare = (o'.below (pre.count '\n').toUInt64).bare) :
    (declarationsFrom (pre ++ source) ((pre ++ source).length + 1) pre.length o).map Outline.bare =
      (declarationsFrom source (source.length + 1) 0 o').map fun o => (o.below (pre.count '\n').toUInt64).bare := by
  have hlen : (pre ++ source).length = pre.length + source.length := List.length_append
  have hscan : (scan (entryAt? (pre ++ source)) (pre.length + source.length) (source.length + 1) (pre.length + 0)).map
      (List.map Entry.bare) =
        (scan (entryAt? source) source.length (source.length + 1) 0).map
          (List.map fun e => (e.below (pre.count '\n').toUInt64).bare) :=
    scan_shift (fun place _ => entryAt?_below hdoc place) _ _
  have hfold := congrArg (Option.map (List.foldl Entry.addTo o.bare)) hscan
  rw [← hlen] at hfold
  rw [declarationsFrom_eq_scan, declarationsFrom_eq_scan,
    scan_fuel (forward_entryAt? _) (source.length + 1) (by omega) (by omega)]
  simpa only [Option.map_map, Function.comp_def, bare_foldl, below_foldl, List.map_map, h, Nat.add_zero] using hfold

end Whole

end Script

end CodeIndex
