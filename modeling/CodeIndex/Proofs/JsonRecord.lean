import CodeIndex.Json.Record
import CodeIndex.Proofs.Dict
import CodeIndex.Proofs.JsonText

set_option autoImplicit false

/-!
# Reading back records

A record is written as an object with some of its fields, each once and in their order, so every field is found again.
A field that is left out is one whose value is the one for an absent field.
-/

namespace CodeIndex.Json

/-! ## Fields -/

theorem lookup_append (key : String) (ms ms' : List (String × Json)) :
    lookup key (ms ++ ms') = (lookup key ms').or (lookup key ms) := by
  simp [lookup, List.find?_append, Option.map_or]

theorem lookup_cons (key : String) (m : String × Json) (ms : List (String × Json)) :
    lookup key (m :: ms) = (lookup key ms).or (if m.1 = key then some m.2 else none) := by
  rw [← List.singleton_append, lookup_append]
  congr 1
  by_cases h : m.1 = key <;> simp [lookup, h]

theorem lookup_nil (key : String) : lookup key [] = none := rfl

theorem lookup_memberIf (key name : String) (given : Bool) (value : Json) :
    lookup key (memberIf given name value) = if name = key then (if given then some value else none) else none := by
  cases given <;> by_cases h : name = key <;> simp [memberIf, lookup, h]

theorem lookup_memberOf {α : Type} (key name : String) (write : α → Json) (o : Option α) :
    lookup key (memberOf name write o) = if name = key then o.map write else none := by
  cases o <;> by_cases h : name = key <;> simp [memberOf, lookup, h]

theorem timesGiven_le_one {ms : List (String × Json)} (h : (ms.map Prod.fst).Nodup) (key : String) :
    timesGiven key ms ≤ 1 := by
  have hcount : timesGiven key ms = (ms.map Prod.fst).count key := by
    rw [timesGiven, List.count, List.countP_map, List.countP_eq_length_filter]
    congr 1
  rw [hcount]
  exact List.nodup_iff_count_le_one.1 h key

/-- The keys of members are some of the given ones, in their order. -/
def KeysIn (names : List String) (ms : List (String × Json)) : Prop := (ms.map Prod.fst).Sublist names

theorem keysIn_self (ms : List (String × Json)) : KeysIn (ms.map Prod.fst) ms := List.Sublist.refl _

theorem keysIn_memberIf (name : String) (given : Bool) (value : Json) : KeysIn [name] (memberIf given name value) := by
  cases given <;> simp [KeysIn, memberIf]

theorem keysIn_memberOf {α : Type} (name : String) (write : α → Json) (o : Option α) :
    KeysIn [name] (memberOf name write o) := by
  cases o <;> simp [KeysIn, memberOf]

theorem KeysIn.append {names names' : List String} {ms ms' : List (String × Json)} (h : KeysIn names ms)
    (h' : KeysIn names' ms') : KeysIn (names ++ names') (ms ++ ms') := by
  rw [KeysIn, List.map_append]
  exact List.Sublist.append h h'

/-- No field is written twice, so each is found. -/
theorem namedFields?_object {names : List String} {ms : List (String × Json)} (h : KeysIn names ms) (hn : names.Nodup) :
    namedFields? names (.object ms) = some (names.map fun name => lookup name ms) := by
  have hall : (names.all fun name => timesGiven name ms ≤ 1) = true := by simp [timesGiven_le_one (hn.sublist h)]
  exact if_pos hall

theorem fields?_object {names : List String} {ms : List (String × Json)} (h : KeysIn names ms) (hn : names.Nodup) :
    fields? names (.object ms) = some (names.map fun name => lookup name ms) :=
  namedFields?_object h hn

theorem countingMembers_of_forall {ms : List (String × Json)} (h : ∀ m ∈ ms, m.2.Counting) : CountingMembers ms :=
  countingMembers_iff.2 h

theorem CountingMembers.append {ms ms' : List (String × Json)} (h : CountingMembers ms) (h' : CountingMembers ms') :
    CountingMembers (ms ++ ms') := by
  rw [countingMembers_iff, List.forall_mem_append]
  exact ⟨countingMembers_iff.1 h, countingMembers_iff.1 h'⟩

theorem countingMembers_memberIf (name : String) (given : Bool) {value : Json} (h : value.Counting) :
    CountingMembers (memberIf given name value) := by
  cases given with
  | true => exact ⟨h, trivial⟩
  | false => trivial

theorem countingMembers_memberOf {α : Type} (name : String) {write : α → Json} (h : ∀ a, (write a).Counting)
    (o : Option α) : CountingMembers (memberOf name write o) := by
  cases o with
  | some a => exact ⟨h a, trivial⟩
  | none => trivial

/-! ## Values that are read back -/

/-- What is written is read back, and there is something written. -/
structure ReadsBack {α : Type} (write : α → Json) (read : Json → Option α) : Prop where
  back : ∀ a, read (write a) = some a
  given : ∀ a, write a ≠ .null
  counting : ∀ a, (write a).Counting

theorem readsBack_string : ReadsBack .string asString? := ⟨fun _ => rfl, fun _ h => (nomatch h), fun _ => trivial⟩

theorem readsBack_count : ReadsBack ofCount asCount? := by
  have hlt : ∀ n : UInt64, n.toNat < countLimit := fun n => n.toNat_lt
  refine ⟨fun n => ?_, fun _ h => (nomatch h), fun n => hlt n⟩
  rw [asCount?, ofCount, asNatural?, if_pos (hlt n), Option.map_some, UInt64.ofNat_toNat]

theorem readsBack_list {α : Type} {write : α → Json} {read : Json → Option α} (h : ReadsBack write read) :
    ReadsBack (fun as => .array (as.map write)) (listOf? read) := by
  refine ⟨fun as => ?_, fun _ h => (nomatch h), fun as => ?_⟩
  · rw [listOf?]
    induction as with
    | nil => rfl
    | cons a as ih =>
      rw [List.map_cons, List.mapM_cons, h.back, ih]
      rfl
  · exact countingItems_iff.2 fun j hj => by
      obtain ⟨a, -, rfl⟩ := List.mem_map.1 hj
      exact h.counting a

theorem readsBack_names : ReadsBack ofNames names? := readsBack_list readsBack_string

theorem readsBack_dict {α : Type} {write : α → Json} {read : Json → Option α} (h : ReadsBack write read) :
    ReadsBack (ofDict write) (dictOf? read) := by
  refine ⟨fun d => ?_, fun _ h => (nomatch h), fun d => ?_⟩
  · have hmap : ∀ es : List (String × α), ((es.map fun e => (e.1, write e.2)).mapM
        fun m : String × Json => (read m.2).map fun v => (m.1, v)) = some es := by
      intro es
      induction es with
      | nil => rfl
      | cons e es ih =>
        rw [List.map_cons, List.mapM_cons, h.back, ih]
        rfl
    change Option.map Dict.ofList ((d.toList.map fun e => (e.1, write e.2)).mapM _) = some d
    rw [hmap, Option.map_some, Dict.ofList_toList]
  · exact countingMembers_iff.2 fun m hm => by
      obtain ⟨e, -, rfl⟩ := List.mem_map.1 hm
      exact h.counting e.2

theorem readsBack_pair :
    ReadsBack (fun e : String × String => .array [.string e.1, .string e.2]) pair? :=
  ⟨fun _ => rfl, fun _ h => (nomatch h), fun _ => ⟨trivial, trivial, trivial⟩⟩

/-! Fields that are not always written -/

theorem orElse_given {α : Type} {write : α → Json} {read : Json → Option α} (h : ReadsBack write read) {absent a : α}
    {given : Bool} (ha : given = false → a = absent) :
    orElse absent read (if given then some (write a) else none) = some a := by
  cases given with
  | true => exact h.back a
  | false => exact congrArg some (ha rfl).symm

theorem orElse_list {α : Type} {write : List α → Json} {read : Json → Option (List α)} (h : ReadsBack write read)
    (as : List α) : orElse [] read (if !as.isEmpty then some (write as) else none) = some as :=
  orElse_given h fun he => by simpa using he

theorem orElse_dict {α : Type} {write : Dict α → Json} {read : Json → Option (Dict α)} (h : ReadsBack write read)
    (d : Dict α) : orElse {} read (if !d.isEmpty then some (write d) else none) = some d :=
  orElse_given h fun he => Dict.ext (List.isEmpty_iff.1 (by simpa [Dict.isEmpty] using he))

theorem optional_map {α : Type} {write : α → Json} {read : Json → Option α} (h : ReadsBack write read) (o : Option α) :
    optional read (o.map write) = some o := by
  cases o with
  | none => rfl
  | some a =>
    have hnull := h.given a
    rw [Option.map_some, optional]
    · rw [h.back, Option.map_some]
    · exact hnull

end CodeIndex.Json
