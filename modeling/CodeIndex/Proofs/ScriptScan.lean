import CodeIndex.Proofs.ScriptPlaces
import Mathlib.Logic.Relation

set_option autoImplicit false

/-!
# Reading a script, step by step

A script is read by two loops, one over its lines and one over those of each class body.  Both are the same loop over
a step: what stands at a place, and the place where reading goes on, unless reading cannot go on.  Since each step
moves forward, a loop comes to its end, and it fails just if it comes to a place at which its step does.
-/

namespace CodeIndex.Script

open Text

/-! ## A loop over places -/

section Scan

variable {β : Type} {step : Nat → Option (β × Nat)} {limit : Nat}

/-- What a step says at each place before `limit`, in turn. -/
def scan (step : Nat → Option (β × Nat)) (limit : Nat) : Nat → Nat → Option (List β)
  | 0, _ => some []
  | fuel + 1, place =>
    if limit ≤ place then some []
    else (step place).bind fun found => (scan step limit fuel found.2).map (found.1 :: ·)

/-- One step from a place before `limit`. -/
def Steps (step : Nat → Option (β × Nat)) (limit : Nat) (place next : Nat) : Prop :=
  place < limit ∧ ∃ item, step place = some (item, next)

/-- Every step moves forward. -/
def Forward (step : Nat → Option (β × Nat)) (limit : Nat) : Prop := ∀ {place next}, Steps step limit place next → place < next

theorem scan_of_le {place : Nat} (h : limit ≤ place) (fuel : Nat) : scan step limit fuel place = some [] := by
  cases fuel with
  | zero => rfl
  | succ fuel => rw [scan, if_pos h]

theorem scan_fuel (hf : Forward step limit) {fuel place : Nat} (fuel' : Nat) (h : limit - place < fuel)
    (h' : limit - place < fuel') :
    scan step limit fuel place = scan step limit fuel' place := by
  induction fuel generalizing fuel' place with
  | zero => omega
  | succ fuel ih =>
    obtain ⟨fuel', rfl⟩ : ∃ n, fuel' = n + 1 := ⟨fuel' - 1, by omega⟩
    -- a step takes one of fuel and moves on by at least one, so what is left suffices again
    by_cases hle : limit ≤ place
    · rw [scan_of_le hle, scan_of_le hle]
    · rw [scan, scan, if_neg hle, if_neg hle]
      cases hstep : step place with
      | none => rfl
      | some found =>
        have hlt := hf ⟨by omega, found.1, hstep⟩
        rw [Option.bind_some, Option.bind_some, ih fuel' (by omega : limit - found.2 < fuel) (by omega)]

/-- A loop fails just if it comes to a place at which its step does. -/
theorem scan_eq_none_iff (hf : Forward step limit) {fuel place : Nat} (h : limit - place < fuel) :
    scan step limit fuel place = none ↔
      ∃ last, Relation.ReflTransGen (Steps step limit) place last ∧ last < limit ∧ step last = none := by
  induction fuel generalizing place with
  | zero => omega
  | succ fuel ih =>
    by_cases hle : limit ≤ place
    · rw [scan_of_le hle]
      refine ⟨nofun, ?_⟩
      rintro ⟨last, hreach, hlast, -⟩
      rcases hreach.cases_head with rfl | ⟨next, ⟨hlt, -⟩, -⟩ <;> omega
    · rw [scan, if_neg hle]
      cases hstep : step place with
      | none => exact ⟨fun _ => ⟨place, .refl, by omega, hstep⟩, fun _ => rfl⟩
      | some found =>
        have hone : Steps step limit place found.2 := ⟨by omega, found.1, hstep⟩
        have hlt := hf hone
        rw [Option.bind_some, Option.map_eq_none_iff, ih (by omega)]
        -- the failing place is not this one, and every way there begins with the one step from here
        refine exists_congr fun last => and_congr_left fun ⟨_, hnone⟩ => ⟨fun hreach => .head hone hreach, fun hreach => ?_⟩
        rcases hreach.cases_head with rfl | ⟨next, ⟨-, item, hitem⟩, hreach⟩
        · rw [hstep] at hnone
          cases hnone
        · rw [hstep] at hitem
          cases hitem
          exact hreach

theorem exists_of_mem_scan {fuel place : Nat} {items : List β} (h : scan step limit fuel place = some items) {item : β}
    (hitem : item ∈ items) (hf : Forward step limit) :
    ∃ there next, place ≤ there ∧ there < limit ∧ step there = some (item, next) := by
  induction fuel generalizing place items with
  | zero =>
    cases h
    cases hitem
  | succ fuel ih =>
    rw [scan] at h
    split at h
    · cases h
      cases hitem
    · next hlt =>
      obtain ⟨found, hstep, h⟩ := Option.bind_eq_some_iff.1 h
      obtain ⟨rest, hrest, rfl⟩ := Option.map_eq_some_iff.1 h
      rcases List.mem_cons.1 hitem with rfl | hmem
      · exact ⟨place, found.2, Nat.le_refl _, by omega, hstep⟩
      · have hforward := hf ⟨by omega, found.1, hstep⟩
        obtain ⟨there, next, hle, hlt, hthere⟩ := ih hrest hmem
        exact ⟨there, next, by omega, hlt, hthere⟩

/-- Loops over places that correspond, whose steps say the same but for what `f` and `g` take away. -/
theorem scan_shift {γ δ : Type} {step' : Nat → Option (γ × Nat)} {shift : Nat} {f : γ → δ} {g : β → δ}
    (h : ∀ place < limit,
      (step' (shift + place)).map (fun found => (f found.1, found.2)) =
        (step place).map fun found => (g found.1, shift + found.2))
    (fuel place : Nat) :
    (scan step' (shift + limit) fuel (shift + place)).map (List.map f) = (scan step limit fuel place).map (List.map g) := by
  induction fuel generalizing place with
  | zero => rfl
  | succ fuel ih =>
    rw [scan, scan]
    by_cases hle : limit ≤ place
    · rw [if_pos hle, if_pos (by omega)]
      rfl
    · rw [if_neg hle, if_neg (by omega)]
      have hstep := h place (by omega)
      cases hs : step place with
      | none =>
        rw [hs, Option.map_none, Option.map_eq_none_iff] at hstep
        rw [hstep]
        rfl
      | some found =>
        rw [hs] at hstep
        obtain ⟨found', hfound', heq⟩ := Option.map_eq_some_iff.1 hstep
        obtain ⟨hitem, hnext⟩ := Prod.mk.inj heq
        have hrest := ih found.2
        rw [← hnext] at hrest
        rw [hfound', Option.bind_some, Option.bind_some, Option.map_map, Option.map_map]
        simp only [Function.comp_def, List.map_cons, hitem]
        have hcons := congrArg (Option.map (g found.1 :: ·)) hrest
        simpa only [Option.map_map, Function.comp_def] using hcons

theorem scan_bind {γ : Type} (f : β → Option γ) (fuel place : Nat) :
    scan (fun place => (step place).bind fun found => (f found.1).map (·, found.2)) limit fuel place =
      (scan step limit fuel place).bind (List.mapM f) := by
  induction fuel generalizing place with
  | zero => rfl
  | succ fuel ih =>
    rw [scan, scan]
    split
    · rfl
    · cases step place with
      | none => rfl
      | some found =>
        simp only [Option.bind_some, Option.bind_map, Function.comp_def, List.mapM_cons, ih]
        cases f found.1 with
        | none => simp
        | some item => simp [Option.map_eq_bind, Option.bind_assoc, Function.comp_def]

end Scan

/-! ## The lines of a class body -/

variable {source : List Char} {place : Nat}

/-- The rest of the line at a place, as far as it stands before the end of a class body. -/
def lineBefore (source : List Char) (stop place : Nat) : List Char := slice place (min (lineEnd source place) stop) source

/-- The member that a line of a class body declares, and where reading goes on. -/
def memberAt? (source : List Char) (stop place : Nat) : Option (Option Declaration × Nat) :=
  let line := lineBefore source stop place
  (member source place line).map fun d => (d, d.elim (skipLine source place line) Declaration.resume)

theorem lineBefore_isPrefix (source : List Char) (stop place : Nat) : lineBefore source stop place <+: source.drop place :=
  List.take_prefix _ _

theorem length_lineBefore_le (source : List Char) {stop : Nat} (h : place ≤ stop) : place + (lineBefore source stop place).length ≤ stop := by
  rw [lineBefore, slice, List.length_take]
  omega

theorem goOn?_eq_some {found d : Option Declaration} (h : goOn? source found = some d) : d = found := by
  cases found with
  | none => exact (Option.some.inj h).symm
  | some e =>
    rw [goOn?] at h
    split at h
    · cases h
    · exact (Option.some.inj h).symm

theorem member_eq_some {line : List Char} {d : Option Declaration} (h : member source place line = some d) :
    d = member? source place line := by
  rw [member_eq] at h
  split at h
  · cases h
  · exact goOn?_eq_some h

theorem forward_memberAt? {stop : Nat} (hstop : stop ≤ source.length) : Forward (memberAt? source stop) stop := by
  rintro place next ⟨hlt, d, h⟩
  obtain ⟨d, hd, heq⟩ := Option.map_eq_some_iff.1 h
  cases heq
  cases d with
  | none => exact lt_skipLine (by omega) _
  | some d => exact (member?_placed (lineBefore_isPrefix source stop place) (member_eq_some hd).symm).forward

theorem membersIn_eq_scan (source : List Char) (stop fuel place : Nat) :
    membersIn source stop fuel place = (scan (memberAt? source stop) stop fuel place).map List.reduceOption := by
  induction fuel generalizing place with
  | zero => rfl
  | succ fuel ih =>
    rw [membersIn, scan]
    split
    · rfl
    · dsimp only [memberAt?]
      rw [lineBefore]
      cases member source place (slice place (min (lineEnd source place) stop) source) with
      | none => rfl
      | some d =>
        cases d with
        | none =>
          simp only [Option.bind_eq_bind, Option.bind_some, Option.map_some, Option.elim_none, ih, Option.map_map]
          rfl
        | some d =>
          simp only [Option.bind_eq_bind, Option.bind_some, Option.map_some, Option.elim_some, ih]
          cases scan (memberAt? source stop) stop fuel d.resume <;> rfl

/-! ## The lines outside all classes -/

/-- What the line at a place declares outside all classes. -/
inductive Entry where
  | type (name : String) (outline : TypeOutline)
  | function (name : String) (callable : Callable)
  | blank

def Entry.addTo (o : Outline) : Entry → Outline
  | type name outline => { o with types := o.types.insert name outline }
  | function name callable => { o with functions := o.functions.insert name callable }
  | blank => o

def typeName (line : List Char) (found : Pattern.Found) : String :=
  let (start, stop) := (found.group? "name").getD (0, 0)
  String.ofList (slice start stop line)

/-- What the line at a place declares, and where reading goes on. -/
def entryAt? (source : List Char) (place : Nat) : Option (Entry × Nat) :=
  let line := lineAt source place
  match classHead.find? line with
  | some found => (typeOutline? source place line found).map fun (type, next) => (.type (typeName line found) type, next)
  | none =>
    (topLevel source place line).bind fun
      | some d => (d.callable? source).map fun (name, callable) => (.function name callable, d.resume)
      | none => some (.blank, skipLine source place line)

theorem declarationsFrom_eq_scan (source : List Char) (fuel place : Nat) (o : Outline) :
    declarationsFrom source fuel place o = (scan (entryAt? source) source.length fuel place).map (·.foldl Entry.addTo o) := by
  induction fuel generalizing place o with
  | zero => rfl
  | succ fuel ih =>
    -- the same equation whatever the line declares, `o` being generalised for the outline that it adds to
    have hnext : ∀ (e : Entry) next, declarationsFrom source fuel next (Entry.addTo o e) =
        ((scan (entryAt? source) source.length fuel next).map (e :: ·)).map (·.foldl Entry.addTo o) := by
      intro e next
      rw [ih, Option.map_map]
      rfl
    rw [declarationsFrom, scan]
    split
    · rfl
    · dsimp only [entryAt?]
      rw [← lineAt]
      cases classHead.find? (lineAt source place) with
      | some found =>
        dsimp only
        cases typeOutline? source place (lineAt source place) found with
        | none => rfl
        | some type => exact hnext (.type _ _) _
      | none =>
        dsimp only
        cases topLevel source place (lineAt source place) with
        | none => rfl
        | some d =>
          cases d with
          | none => exact hnext .blank _
          | some d =>
            cases hd : d.callable? source with
            | none => simp [hd]
            | some callable =>
              simp only [Option.bind_eq_bind, Option.bind_some, hd, Option.map_some]
              exact hnext (.function _ _) _

/-- The braces of a class whose head stands at a place; without a closing one its body reaches to the end. -/
def classBody? (source : List Char) (place : Nat) : Option (Nat × Nat) :=
  (findChar? (· == '\x7b') (source.drop place)).map fun n =>
    (place + n, (closingAt? '\x7b' '\x7d' source (place + n)).getD source.length)

theorem classBody?_bounds {opened closed : Nat} (h : classBody? source place = some (opened, closed)) :
    place ≤ opened ∧ source[opened]? = some '\x7b' ∧ opened ≤ closed ∧ closed ≤ source.length := by
  obtain ⟨n, hn, heq⟩ := Option.map_eq_some_iff.1 h
  cases heq
  obtain ⟨c, hget, hbrace⟩ := getElem?_findChar? hn
  obtain rfl := beq_iff_eq.1 hbrace
  refine ⟨Nat.le_add_right _ _, hget, ?_⟩
  have := lt_length_of_getElem? hget
  cases hclose : closingAt? '\x7b' '\x7d' source (place + n) with
  | none => exact ⟨this.le, Nat.le_refl _⟩
  | some close =>
    obtain ⟨hle, hgetClose⟩ := closingAt?_spec hclose
    exact ⟨hle, (lt_length_of_getElem? hgetClose).le⟩

def members? (source : List Char) (place : Nat) : Option (List Declaration) :=
  (classBody? source place).elim (some []) fun (opened, closed) => membersIn source closed (source.length + 1) (opened + 1)

def afterClass (source : List Char) (place : Nat) : Nat :=
  nextLine source ((classBody? source place).elim place Prod.snd)

theorem typeOutline?_eq (source : List Char) (place : Nat) (line : List Char) (found : Pattern.Found) :
    typeOutline? source place line found =
      (docBefore source place).bind fun doc => (members? source place).bind fun members =>
        (members.mapM (Declaration.callable? source)).map fun methods =>
          (⟨lineNumber source (place + ((found.group? "name").getD (0, 0)).1),
            (found.group? "base").toList.map fun (start, stop) => String.ofList (slice start stop line),
            Dict.ofList methods, doc⟩, afterClass source place) := by
  unfold typeOutline? members? afterClass classBody?
  cases docBefore source place with
  | none => rfl
  | some doc =>
    cases findChar? (· == '\x7b') (source.drop place) with
    | none =>
      simp
    | some n =>
      simp only [Option.bind_eq_bind, Option.bind_some, Option.map_some, Option.elim_some, Option.bind_map]
      cases membersIn source ((closingAt? '\x7b' '\x7d' source (place + n)).getD source.length) (source.length + 1)
        (place + n + 1) with
      | none => rfl
      | some members =>
        cases hm : members.mapM (Declaration.callable? source) <;> simp [hm]

theorem lt_afterClass (h : place < source.length) : place < afterClass source place := by
  refine lt_nextLine h ?_
  cases hbody : classBody? source place with
  | none => exact Nat.le_refl _
  | some body =>
    obtain ⟨hle, -, hle', -⟩ := classBody?_bounds hbody
    exact hle.trans hle'

theorem forward_entryAt? (source : List Char) : Forward (entryAt? source) source.length := by
  rintro place next ⟨hlt, e, h⟩
  rw [entryAt?] at h
  split at h
  · next found _ =>
    obtain ⟨⟨type, resume⟩, htype, heq⟩ := Option.map_eq_some_iff.1 h
    cases heq
    rw [typeOutline?_eq] at htype
    obtain ⟨doc, -, htype⟩ := Option.bind_eq_some_iff.1 htype
    obtain ⟨members, -, htype⟩ := Option.bind_eq_some_iff.1 htype
    obtain ⟨methods, -, heq⟩ := Option.map_eq_some_iff.1 htype
    cases heq
    exact lt_afterClass hlt
  · obtain ⟨d, hd, h⟩ := Option.bind_eq_some_iff.1 h
    cases d with
    | none =>
      cases h
      exact lt_skipLine hlt _
    | some d =>
      obtain ⟨callable, -, heq⟩ := Option.map_eq_some_iff.1 h
      cases heq
      rw [topLevel_eq] at hd
      exact (topLevel?_placed (lineAt_isPrefix source place) (goOn?_eq_some hd).symm).forward

end CodeIndex.Script
