import CodeIndex.Proofs.ScriptByOffsets

set_option autoImplicit false

/-!
# The scripts that cannot be read

A script whose comments are more than their delimiters is read to its end, line by line and each time further on, unless
reading comes to a declaration whose body ends right after a character outside ASCII.  Then it looks for the end of a
line from inside that character.
-/

namespace CodeIndex.Script

open Text

variable {source : List Char} {place : Nat}

/-- Reading cannot go on from a line of a class body: what its declaration, or the start of a method of any name, takes
    for its body ends wide. -/
def MemberStops (source : List Char) (closed place : Nat) : Prop :=
  (withParameters? source place (lineBefore source closed place) methodHead).any (Declaration.endsWide source) = true ∨
    (member? source place (lineBefore source closed place)).any (Declaration.endsWide source) = true

/-- Some line that reading comes to in the class body between two braces is one that it cannot go on from. -/
def BodyStops (source : List Char) (opened closed : Nat) : Prop :=
  ∃ place, Relation.ReflTransGen (Steps (memberAt? source closed) closed) (opened + 1) place ∧ place < closed ∧
    MemberStops source closed place

/-- Reading cannot go on from a line outside all classes: its declaration ends wide, or it starts a class whose body
    cannot be read. -/
def Stops (source : List Char) (place : Nat) : Prop :=
  if (classHead.find? (lineAt source place)).isSome = true then
    ∃ body, classBody? source place = some body ∧ BodyStops source body.1 body.2
  else (topLevel? source place (lineAt source place)).any (Declaration.endsWide source) = true

theorem goOn?_eq_none_iff {found : Option Declaration} :
    goOn? source found = none ↔ found.any (Declaration.endsWide source) = true := by
  cases found with
  | none => simp [goOn?]
  | some d => by_cases h : d.endsWide source <;> simp [goOn?, h]

theorem memberAt?_eq_none_iff {closed : Nat} : memberAt? source closed place = none ↔ MemberStops source closed place := by
  rw [memberAt?, Option.map_eq_none_iff, member_eq, MemberStops]
  split
  · next hwide => simp [hwide]
  · next hwide => simp [hwide, goOn?_eq_none_iff]

theorem membersIn_eq_none_iff {opened closed : Nat} (hclosed : closed ≤ source.length) :
    membersIn source closed (source.length + 1) (opened + 1) = none ↔ BodyStops source opened closed := by
  rw [membersIn_eq_scan, Option.map_eq_none_iff, scan_eq_none_iff (forward_memberAt? hclosed) (by omega)]
  simp only [memberAt?_eq_none_iff]
  rfl

section Documented

variable (h : ¬ emptyComment <:+: source)
include h

theorem callable?_isSome (d : Declaration) : (d.callable? source).isSome = true := by
  obtain ⟨doc, hdoc⟩ := Option.isSome_iff_exists.1 (docBefore_isSome h d.start)
  rw [Declaration.callable?, hdoc]
  rfl

theorem mapM_callable?_isSome (members : List Declaration) : (members.mapM (Declaration.callable? source)).isSome = true := by
  induction members with
  | nil => rfl
  | cons d members ih =>
    obtain ⟨e, he⟩ := Option.isSome_iff_exists.1 (callable?_isSome h d)
    obtain ⟨rest, hrest⟩ := Option.isSome_iff_exists.1 ih
    rw [List.mapM_cons, he, hrest]
    rfl

theorem typeOutline?_eq_none_iff {line : List Char} {found : Pattern.Found} :
    typeOutline? source place line found = none ↔
      ∃ body, classBody? source place = some body ∧ BodyStops source body.1 body.2 := by
  obtain ⟨doc, hdoc⟩ := Option.isSome_iff_exists.1 (docBefore_isSome h place)
  have hmethods : typeOutline? source place line found = none ↔ members? source place = none := by
    rw [typeOutline?_eq, hdoc, Option.bind_some]
    cases members? source place with
    | none => simp
    | some members =>
      obtain ⟨methods, hmethods⟩ := Option.isSome_iff_exists.1 (mapM_callable?_isSome h members)
      simp [hmethods]
  rw [hmethods, members?]
  cases hbody : classBody? source place with
  | none => simp
  | some body =>
    obtain ⟨opened, closed⟩ := body
    simpa using membersIn_eq_none_iff (classBody?_bounds hbody).2.2.2

theorem entryAt?_eq_none_iff : entryAt? source place = none ↔ Stops source place := by
  rw [entryAt?, Stops]
  cases classHead.find? (lineAt source place) with
  | some found => simpa using typeOutline?_eq_none_iff h
  | none =>
    rw [← goOn?_eq_none_iff, ← topLevel_eq]
    cases topLevel source place (lineAt source place) with
    | none => simp
    | some d =>
      cases d with
      | none => simp
      | some d => simpa using Option.isSome_iff_ne_none.1 (callable?_isSome h d)

end Documented

/-- Without a comment that is nothing but its delimiters, reading by offsets never gets stuck; it reads the outline, or
    it is cut off just if it comes to a line that it cannot go on from. -/
theorem reading_stops_iff {source : String} (h : ¬ emptyComment <:+: source.toList) :
    (∀ o, ByOffset.outline source = .ok o ↔ outline? source = some o) ∧ ByOffset.outline source ≠ .error .stuck ∧
      (ByOffset.outline source = .error .cut ↔
        ∃ place, Relation.ReflTransGen (Steps (entryAt? source.toList) source.toList.length) 0 place ∧
          place < source.toList.length ∧ Stops source.toList place) := by
  have hnone : outline? source = none ↔ ∃ place,
      Relation.ReflTransGen (Steps (entryAt? source.toList) source.toList.length) 0 place ∧
        place < source.toList.length ∧ Stops source.toList place := by
    rw [outline?, declarationsFrom_eq_scan]
    dsimp only
    rw [Option.map_eq_none_iff, scan_eq_none_iff (forward_entryAt? _) (by omega)]
    simp only [entryAt?_eq_none_iff h]
  rw [← hnone, ByOffset.outline_eq]
  cases outline? source with
  | none => simp
  | some o => simp

/-- A comment in which a line ends that binds an arrow function. -/
theorem reading_stops_iff_accented :
    ¬ emptyComment <:+: "const f = x => g(x); // café\n".toList ∧
      ByOffset.outline "const f = x => g(x); // café\n" = .error .cut := by
  have h : ¬ emptyComment <:+: "const f = x => g(x); // café\n".toList := by decide +kernel
  have hclass : classHead.find? (lineAt "const f = x => g(x); // café\n".toList 0) = none := by decide +kernel
  have hwide : (topLevel? "const f = x => g(x); // café\n".toList 0 (lineAt "const f = x => g(x); // café\n".toList 0)).any
      (Declaration.endsWide "const f = x => g(x); // café\n".toList) = true := by decide +kernel
  refine ⟨h, (reading_stops_iff h).2.2.2 ⟨0, .refl, by decide, ?_⟩⟩
  rw [Stops, hclass]
  exact hwide

end CodeIndex.Script
