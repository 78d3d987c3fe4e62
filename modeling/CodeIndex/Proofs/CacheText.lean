import CodeIndex.OutlineCache
import CodeIndex.Proofs.DocumentText

set_option autoImplicit false

/-!
# Reading back the cache

The cache is written with the members of every object in the order of their keys.  No reader of a record minds that
order, so the entries are read back as they were.
-/

namespace CodeIndex

namespace Json

/-! ## Canonical values -/

theorem canonicalItems_eq_map (items : List Json) : canonicalItems items = items.map canonical := by
  induction items with
  | nil => rw [canonicalItems, List.map_nil]
  | cons item rest ih => rw [canonicalItems, ih, List.map_cons]

theorem canonicalMembers_eq_map (ms : List (String × Json)) :
    canonicalMembers ms = ms.map fun m => (m.1, canonical m.2) := by
  induction ms with
  | nil => rw [canonicalMembers, List.map_nil]
  | cons m rest ih => rw [canonicalMembers, ih, List.map_cons]

theorem canonical_object (ms : List (String × Json)) :
    canonical (.object ms) = .object (Dict.ofList (ms.map fun m => (m.1, canonical m.2))).toList := by
  rw [canonical, canonicalMembers_eq_map]

theorem canonical_string (s : String) : canonical (.string s) = .string s := by
  simp only [canonical]

theorem canonical_ofCount (n : UInt64) : canonical (ofCount n) = ofCount n := by
  simp only [ofCount, canonical]

theorem canonical_ofNames (names : List String) : canonical (ofNames names) = ofNames names := by
  rw [ofNames, canonical, canonicalItems_eq_map, List.map_map]
  exact congrArg Json.array (List.map_congr_left fun name _ => canonical_string name)

/-- A map is in order already. -/
theorem canonical_ofDict {α : Type} (write : α → Json) (d : Dict α) :
    canonical (ofDict write d) = ofDict (fun a => canonical (write a)) d := by
  have hmap : d.toList.map (fun e => (e.1, canonical (write e.2))) = (d.map fun _ a => canonical (write a)).toList := rfl
  rw [ofDict, canonical_object, List.map_map]
  change Json.object (Dict.ofList (d.toList.map fun e => (e.1, canonical (write e.2)))).toList = _
  rw [hmap, Dict.ofList_toList]
  rfl

mutual

theorem counting_canonical {j : Json} (h : j.Counting) : (canonical j).Counting := by
  cases j with
  | array items =>
    rw [canonical]
    exact countingItems_canonical h
  | object ms =>
    rw [canonical]
    refine countingMembers_iff.2 fun m hm => ?_
    have hmem := Dict.mem_of_get?_ofList (Dict.mem_toList'.1 hm)
    exact countingMembers_iff.1 (countingMembers_canonical h) _ hmem
  | _ => simpa only [canonical] using h

theorem countingItems_canonical {items : List Json} (h : CountingItems items) : CountingItems (canonicalItems items) := by
  cases items with
  | nil => trivial
  | cons item rest =>
    rw [canonicalItems]
    exact ⟨counting_canonical h.1, countingItems_canonical h.2⟩

theorem countingMembers_canonical {ms : List (String × Json)} (h : CountingMembers ms) :
    CountingMembers (canonicalMembers ms) := by
  cases ms with
  | nil => trivial
  | cons m rest =>
    rw [canonicalMembers]
    exact ⟨counting_canonical h.1, countingMembers_canonical h.2⟩

end

theorem lookup_eq_find? (key : String) (ms : List (String × Json)) : lookup key ms = Dict.find? key ms.reverse := by
  rw [lookup]
  induction ms.reverse with
  | nil => rfl
  | cons m rest ih =>
    by_cases h : m.1 = key
    · simp [Dict.find?, h]
    · simpa [Dict.find?, h] using ih

theorem lookup_map_canonical (key : String) (ms : List (String × Json)) :
    lookup key (ms.map fun m => (m.1, canonical m.2)) = (lookup key ms).map canonical := by
  induction ms with
  | nil => rfl
  | cons m rest ih =>
    rw [List.map_cons, lookup_cons, lookup_cons, ih]
    by_cases h : m.1 = key <;> cases lookup key rest <;> simp [h]

theorem get?_canonical (key : String) (ms : List (String × Json)) :
    (canonical (.object ms)).get? key = (lookup key ms).map canonical := by
  rw [canonical_object]
  change lookup key (Dict.ofList (ms.map fun m => (m.1, canonical m.2))).toList = _
  rw [← lookup_map_canonical, lookup_eq_find?, ← Dict.get?_ofList, Dict.ofList_toList, Dict.get?_ofList,
    ← lookup_eq_find?]

/-- The fields of a canonical object are those that count in the object, made canonical. -/
theorem fields?_canonical (names : List String) (ms : List (String × Json)) :
    fields? names (canonical (.object ms)) = some (names.map fun name => (lookup name ms).map canonical) := by
  have hall : (names.all fun name => timesGiven name (Dict.ofList (ms.map fun m => (m.1, canonical m.2))).toList ≤ 1) =
      true := by
    rw [List.all_eq_true]
    exact fun name _ => decide_eq_true (timesGiven_le_one (Dict.nodup_keys _) name)
  have hget := fun name => get?_canonical name ms
  rw [canonical_object] at hget ⊢
  exact (if_pos hall).trans (congrArg some (List.map_congr_left fun name _ => hget name))

/-- Values that are read back from their canonical forms. -/
abbrev ReadsBackCanonical {α : Type} (write : α → Json) (read : Json → Option α) : Prop :=
  ReadsBack (fun a => canonical (write a)) read

theorem readsBackCanonical_string : ReadsBackCanonical .string asString? := by
  have heq : (fun s => canonical (.string s)) = Json.string := funext canonical_string
  rw [ReadsBackCanonical, heq]
  exact readsBack_string

theorem readsBackCanonical_dict {α : Type} {write : α → Json} {read : Json → Option α}
    (h : ReadsBackCanonical write read) : ReadsBackCanonical (ofDict write) (dictOf? read) := by
  rw [ReadsBackCanonical, show (fun d => canonical (ofDict write d)) = ofDict (fun a => canonical (write a)) from
    funext (canonical_ofDict write)]
  exact readsBack_dict h

theorem canonical_object_ne_null (ms : List (String × Json)) : canonical (.object ms) ≠ .null := by
  rw [canonical_object]
  exact fun h => nomatch h

end Json

open Json

theorem Callable.readsBackCanonical : ReadsBackCanonical Callable.toJson Callable.ofJson? := by
  refine ⟨fun c => ?_, fun _ => canonical_object_ne_null _, fun c => counting_canonical (Callable.readsBack.counting c)⟩
  rw [ofJson?, toJson, fields?_canonical]
  simp only [List.map_cons, List.map_nil, lookup_append, lookup_cons, lookup_nil, lookup_memberIf, lookup_memberOf,
    String.reduceEq, reduceIte, Option.or_none, Option.none_or, Option.map_some, apply_ite (Option.map canonical),
    Option.map_none, Option.map_map, canonical_ofCount, canonical_string, canonical_ofNames, required, Option.bind_some,
    readsBack_count.back, readsBack_string.back, orElse_list readsBack_names, Option.bind_eq_bind]
  have hdoc : optional asString? (c.doc.map (canonical ∘ .string)) = some c.doc := optional_map readsBackCanonical_string c.doc
  rw [hdoc]
  rfl

theorem TypeOutline.readsBackCanonical : ReadsBackCanonical TypeOutline.toJson TypeOutline.ofJson? := by
  have hmethods := readsBackCanonical_dict Callable.readsBackCanonical
  refine ⟨fun t => ?_, fun _ => canonical_object_ne_null _,
    fun t => counting_canonical (TypeOutline.readsBack.counting t)⟩
  rw [ofJson?, toJson, fields?_canonical]
  simp only [List.map_cons, List.map_nil, lookup_append, lookup_cons, lookup_nil, lookup_memberIf, lookup_memberOf,
    String.reduceEq, reduceIte, Option.or_none, Option.none_or, Option.map_some, apply_ite (Option.map canonical),
    Option.map_none, Option.map_map, canonical_ofCount, canonical_ofNames, required, Option.bind_some,
    readsBack_count.back, orElse_list readsBack_names, orElse_dict hmethods, Option.bind_eq_bind]
  have hdoc : optional asString? (t.doc.map (canonical ∘ .string)) = some t.doc := optional_map readsBackCanonical_string t.doc
  rw [hdoc]
  rfl

theorem Outline.readsBackCanonical : ReadsBackCanonical Outline.toJson Outline.ofJson? := by
  refine ⟨fun o => ?_, fun _ => canonical_object_ne_null _, fun o => counting_canonical (Outline.readsBack.counting o)⟩
  rw [ofJson?, toJson, fields?_canonical]
  simp only [List.map_cons, List.map_nil, toMembers, lookup_append, lookup_memberIf, String.reduceEq, reduceIte,
    Option.or_none, Option.none_or, apply_ite (Option.map canonical), Option.map_some, Option.map_none, canonical_ofNames,
    Option.bind_eq_bind, Option.bind_some, ofFields?, orElse_dict (readsBackCanonical_dict Callable.readsBackCanonical),
    orElse_dict (readsBackCanonical_dict TypeOutline.readsBackCanonical), orElse_list readsBack_names]
  rfl

namespace OutlineCache

/-- The entries of a cache that was written are read back. -/
theorem entries?_toJson (entries : Dict Outline) : entries? (toJson entries) = some entries := by
  have hversion : asNatural? (canonical (.natural version)) = some version := by
    simp only [canonical]
    rfl
  rw [entries?, toJson, fields?_canonical]
  simp only [List.map_cons, List.map_nil, lookup_cons, lookup_nil, String.reduceEq, reduceIte, Option.or_none,
    Option.none_or, Option.map_some, required, Option.bind_some, Option.bind_eq_bind, hversion,
    readsBackCanonical_string.back, (readsBackCanonical_dict Outline.readsBackCanonical).back, and_self]

theorem counting_toJson (entries : Dict Outline) : (toJson entries).Counting := by
  refine counting_canonical ⟨?_, trivial, (readsBack_dict Outline.readsBack).counting entries, trivial⟩
  change version < countLimit
  decide

end OutlineCache

end CodeIndex
