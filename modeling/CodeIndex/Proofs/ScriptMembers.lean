import CodeIndex.Proofs.Dict
import CodeIndex.Proofs.ScriptNesting
import CodeIndex.Proofs.ScriptScan
import Mathlib.Data.List.ReduceOption

set_option autoImplicit false

/-!
# Methods and the braces of their class

A class body is read line by line up to its closing brace, but a method's head ends at the first brace or semicolon
after its parameters, wherever in the text that stands.  So each method starts within the braces of its class, and
whether it also ends there depends on what ends its head.
-/

namespace CodeIndex.Script

open Text

/-! ## What an outline's types come from -/

theorem get?_types_foldl {entries : List Entry} {o : Outline} {name : String} {type : TypeOutline}
    (h : (entries.foldl Entry.addTo o).types.get? name = some type) :
    Entry.type name type ∈ entries ∨ o.types.get? name = some type := by
  induction entries generalizing o with
  | nil => exact .inr h
  | cons e entries ih =>
    rcases ih h with hmem | hget
    · exact .inl (List.mem_cons_of_mem _ hmem)
    · cases e with
      | type other outline =>
        change Dict.get? (o.types.insert other outline) name = some type at hget
        rw [Dict.get?_insert] at hget
        split at hget
        · next heq =>
          cases heq
          cases hget
          exact .inl List.mem_cons_self
        · exact .inr hget
      | function other callable => exact .inr hget
      | blank => exact .inr hget

theorem exists_of_mem_mapM {α β : Type} {f : α → Option β} {xs : List α} {ys : List β} (h : xs.mapM f = some ys) {y : β}
    (hy : y ∈ ys) : ∃ x ∈ xs, f x = some y := by
  induction xs generalizing ys with
  | nil =>
    cases h
    cases hy
  | cons x xs ih =>
    rw [List.mapM_cons] at h
    obtain ⟨z, hz, h⟩ := Option.bind_eq_some_iff.1 h
    obtain ⟨zs, hzs, h⟩ := Option.bind_eq_some_iff.1 h
    cases h
    rcases List.mem_cons.1 hy with rfl | hmem
    · exact ⟨x, List.mem_cons_self, hz⟩
    · obtain ⟨x', hx', hfx'⟩ := ih hzs hmem
      exact ⟨x', List.mem_cons_of_mem _ hx', hfx'⟩

/-- A class of an outline is declared by some line. -/
theorem exists_head_of_type {source : String} {o : Outline} (h : outline? source = some o) {name : String} {type : TypeOutline}
    (htype : o.types.get? name = some type) :
    ∃ place found next, classHead.find? (lineAt source.toList place) = some found ∧
      typeName (lineAt source.toList place) found = name ∧
      typeOutline? source.toList place (lineAt source.toList place) found = some (type, next) := by
  rw [outline?, declarationsFrom_eq_scan] at h
  obtain ⟨entries, hentries, rfl⟩ := Option.map_eq_some_iff.1 h
  rcases get?_types_foldl htype with hmem | hget
  · obtain ⟨place, next, -, -, hentry⟩ := exists_of_mem_scan hentries hmem (forward_entryAt? _)
    rw [entryAt?] at hentry
    split at hentry
    · next found hfound =>
      obtain ⟨⟨type', next'⟩, htype', heq⟩ := Option.map_eq_some_iff.1 hentry
      cases heq
      exact ⟨place, found, _, hfound, rfl, htype'⟩
    · obtain ⟨d, -, hentry⟩ := Option.bind_eq_some_iff.1 hentry
      cases d with
      | none => cases hentry
      | some d =>
        obtain ⟨callable, -, heq⟩ := Option.map_eq_some_iff.1 hentry
        cases heq
  · cases hget

/-- A method of a class is declared by some line of its body. -/
theorem exists_member_of_method {source line : List Char} {place next : Nat} {found : Pattern.Found} {type : TypeOutline}
    (h : typeOutline? source place line found = some (type, next)) {name : String} {method : Callable}
    (hmethod : type.methods.get? name = some method) :
    ∃ opened closed d, classBody? source place = some (opened, closed) ∧ opened < d.start ∧ d.start < closed ∧
      member? source d.start (lineBefore source closed d.start) = some d ∧ d.callable? source = some (name, method) := by
  rw [typeOutline?_eq] at h
  obtain ⟨doc, -, h⟩ := Option.bind_eq_some_iff.1 h
  obtain ⟨members, hmembers, h⟩ := Option.bind_eq_some_iff.1 h
  obtain ⟨methods, hmethods, heq⟩ := Option.map_eq_some_iff.1 h
  cases heq
  obtain ⟨d, hd, hcallable⟩ := exists_of_mem_mapM hmethods (Dict.mem_of_get?_ofList hmethod)
  rw [members?] at hmembers
  cases hbody : classBody? source place with
  | none =>
    rw [hbody] at hmembers
    cases hmembers
    cases hd
  | some body =>
    obtain ⟨opened, closed⟩ := body
    rw [hbody, Option.elim_some] at hmembers
    dsimp only at hmembers
    rw [membersIn_eq_scan] at hmembers
    obtain ⟨items, hitems, rfl⟩ := Option.map_eq_some_iff.1 hmembers
    have hclosed := (classBody?_bounds hbody).2.2.2
    obtain ⟨start, resume, hle, hlt, hstep⟩ :=
      exists_of_mem_scan hitems (List.reduceOption_mem_iff.1 hd) (forward_memberAt? hclosed)
    obtain ⟨found, hfound, heq⟩ := Option.map_eq_some_iff.1 hstep
    cases heq
    have hmember := (member_eq_some hfound).symm
    obtain rfl := (member?_placed (lineBefore_isPrefix source closed start) hmember).start
    exact ⟨opened, closed, d, rfl, by omega, hlt, hmember, hcallable⟩

/-! ## Where a method ends -/

namespace Declaration

/-- What is shown as the signature and the body both end before a class does. -/
def Within (closed : Nat) (d : Declaration) : Prop := d.headEnd ≤ closed ∧ ∀ body ∈ d.body, body.2 ≤ closed

/-- The head ends before the class does, and if a block is the body that the class reads as code, it need only start
    there; any other body ends there. -/
def Confined (source : List Char) (opened closed : Nat) (d : Declaration) : Prop :=
  d.headEnd ≤ closed ∧ ∀ body ∈ d.body,
    if source[body.1]? = some '\x7b' ∧ regionAt source opened body.1 = .code then body.1 < closed else body.2 ≤ closed

instance (closed : Nat) (d : Declaration) : Decidable (d.Within closed) := inferInstanceAs (Decidable (_ ∧ _))

instance (source : List Char) (opened closed : Nat) (d : Declaration) : Decidable (d.Confined source opened closed) :=
  inferInstanceAs (Decidable (_ ∧ _))

end Declaration

/-- A body that starts with a brace ends with the block that the brace opens. -/
theorem body_of_brace {source line : List Char} {place : Nat} {d : Declaration} (h : member? source place line = some d)
    {body : Nat × Nat} (hbody : d.body = some body) (hbrace : source[body.1]? = some '\x7b') :
    body.2 = bodyEnd source body.1 := by
  rw [member?, Option.or_eq_some_iff, method?, Option.filter_eq_some_iff] at h
  rcases h with ⟨h, -⟩ | ⟨-, h⟩
  · obtain ⟨matched, close, -, -, -, -, -, ⟨-, hblock, -⟩ | ⟨hnone, -⟩⟩ := withParameters?_eq_some h
    · rw [hbody] at hblock
      cases hblock
      rfl
    · rw [hnone] at hbody
      cases hbody
  · obtain ⟨-, -, harrow, -⟩ := withArrow?_eq_some h
    rw [hbody] at harrow
    cases harrow
    rw [arrowBody] at hbrace ⊢
    split at hbrace
    · next hblock => rw [if_pos hblock]
    · next hblock =>
      -- a brace right after the arrow is where what follows the arrow starts
      obtain ⟨hlt, hget⟩ := List.getElem?_eq_some_iff.1 hbrace
      have hstart : afterBlanks source d.headEnd = d.headEnd := by
        rw [afterBlanks, List.drop_eq_getElem_cons hlt]
        simp only at hget
        simp [hget, isBlank]
      rw [hstart] at hblock
      exact absurd hbrace hblock

theorem within_iff_confined {source line : List Char} {place opened closed : Nat} {d : Declaration}
    (h : member? source place line = some d) (hopen : source[opened]? = some '\x7b')
    (hclosed : closed = (closingAt? '\x7b' '\x7d' source opened).getD source.length) (hlt : opened < d.headEnd)
    (hbounds : ∀ body ∈ d.body, d.headEnd ≤ body.1 ∧ body.1 ≤ body.2 ∧ body.2 ≤ source.length) :
    d.Within closed ↔ d.Confined source opened closed := by
  refine and_congr_right fun _ => forall₂_congr fun body hbody => ?_
  have hle := hbounds body hbody
  split
  · next hcode =>
    have hend := body_of_brace h hbody hcode.1
    have hstart := (bodyEnd_bounds (lt_length_of_getElem? hcode.1)).1
    constructor
    · omega
    · intro hinner
      rw [hend]
      exact bodyEnd_le_of_code hopen hclosed (by omega) hinner hcode.1 hcode.2
  · exact Iff.rfl

/-- Every method is declared between the braces of its class.  What is recorded of it ends there just if its head does,
    and its body starts there as a block in code or ends there. -/
theorem methods_start_within_type {source : String} {o : Outline} (h : outline? source = some o) {type : String}
    {outline : TypeOutline} (htype : o.types.get? type = some outline) {name : String} {method : Callable}
    (hmethod : outline.methods.get? name = some method) :
    ∃ place found opened closed d,
      (classHead.find? (lineAt source.toList place) = some found ∧ typeName (lineAt source.toList place) found = type ∧
        classBody? source.toList place = some (opened, closed)) ∧
      (member? source.toList d.start (lineBefore source.toList closed d.start) = some d ∧
        d.callable? source.toList = some (name, method)) ∧
      (opened < d.start ∧ d.start ≤ d.nameStart ∧ d.nameStart + d.name.length ≤ closed) ∧
      (d.Within closed ↔ d.Confined source.toList opened closed) := by
  obtain ⟨place, found, next, hfound, hname, houtline⟩ := exists_head_of_type h htype
  obtain ⟨opened, closed, d, hbody, hstart, hend, hmember, hcallable⟩ := exists_member_of_method houtline hmethod
  have hplaced := member?_placed (lineBefore_isPrefix _ _ _) hmember
  have hline := length_lineBefore_le source.toList hend.le
  have hbrace := (classBody?_bounds hbody).2.1
  have hclosed : closed = (closingAt? '\x7b' '\x7d' source.toList opened).getD source.toList.length := by
    obtain ⟨n, -, heq⟩ := Option.map_eq_some_iff.1 hbody
    cases heq
    rfl
  exact ⟨place, found, opened, closed, d, ⟨hfound, hname, hbody⟩, ⟨hmember, hcallable⟩,
    ⟨hstart, hplaced.nameStart, hplaced.nameEnd.trans hline⟩,
    within_iff_confined hmember hbrace hclosed (hstart.trans hplaced.head) hplaced.body⟩

/-- A class whose last method has neither a body nor a semicolon, and a function after it. -/
def unterminated : String :=
  "abstract class Shape \x7b\n  abstract area(): number\n\x7d\nfunction draw() \x7b\n  paint();\n\x7d\n"

/-- The method's head ends at the function's brace, so the function's call is the method's. -/
theorem methods_start_within_type_unterminated :
    ∃ o outline method, outline? unterminated = some o ∧ o.types.get? "Shape" = some outline ∧
      outline.methods.get? "area" = some method ∧ method.signature = "abstract area(): number \x7d function draw()" ∧
      method.calls = ["paint"] ∧
      ∃ place found opened closed d,
        (classHead.find? (lineAt unterminated.toList place) = some found ∧
          typeName (lineAt unterminated.toList place) found = "Shape" ∧
          classBody? unterminated.toList place = some (opened, closed)) ∧
        (member? unterminated.toList d.start (lineBefore unterminated.toList closed d.start) = some d ∧
          d.callable? unterminated.toList = some ("area", method)) ∧
        (opened < d.start ∧ d.start ≤ d.nameStart ∧ d.nameStart + d.name.length ≤ closed) ∧
        (d.Within closed ↔ d.Confined unterminated.toList opened closed) := by
  have hread : ((outline? unterminated).bind fun o => (o.types.get? "Shape").bind fun outline =>
      (outline.methods.get? "area").map fun method => (method.signature, method.calls)) =
        some ("abstract area(): number \x7d function draw()", ["paint"]) := by
    decide +kernel
  obtain ⟨o, ho, hread⟩ := Option.bind_eq_some_iff.1 hread
  obtain ⟨outline, houtline, hread⟩ := Option.bind_eq_some_iff.1 hread
  obtain ⟨method, hmethod, hread⟩ := Option.map_eq_some_iff.1 hread
  obtain ⟨hsignature, hcalls⟩ := Prod.mk.inj hread
  exact ⟨o, outline, method, ho, houtline, hmethod, hsignature, hcalls,
    methods_start_within_type ho houtline hmethod⟩

end CodeIndex.Script
