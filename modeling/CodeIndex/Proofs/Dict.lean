import CodeIndex.Dict
import Mathlib.Data.List.Induction
import Mathlib.Data.List.Sort

set_option autoImplicit false

/-!
# Looking up in maps

A map is known by what it holds under each key (`ext_get?`), and every operation by what it does to the
values under keys.  Nothing further on looks at the list of entries itself, except that entries come in
the order of their keys.
-/

namespace CodeIndex.Dict

variable {α β : Type}

@[ext] theorem ext_entries {d e : Dict α} (h : d.toList = e.toList) : d = e := ext h

theorem pairwise_keys (d : Dict α) : d.keys.Pairwise (· < ·) := List.pairwise_map.2 d.ascending

theorem nodup_keys (d : Dict α) : d.keys.Nodup := by
  refine d.pairwise_keys.imp ?_
  rintro a _ h rfl
  exact String.lt_irrefl a h

theorem mem_of_find? {key : String} {value : α} {entries : List (String × α)}
    (h : find? key entries = some value) : (key, value) ∈ entries := by
  induction entries with
  | nil => simp [find?] at h
  | cons head rest ih =>
    obtain ⟨k, v⟩ := head
    simp only [find?] at h
    split at h
    · next hk => simp_all
    · exact List.mem_cons_of_mem _ (ih h)

theorem find?_of_mem {key : String} {value : α} {entries : List (String × α)} (hs : Ascending entries)
    (h : (key, value) ∈ entries) : find? key entries = some value := by
  induction entries with
  | nil => simp at h
  | cons head rest ih =>
    obtain ⟨hhead, hrest⟩ := List.pairwise_cons.1 hs
    rcases List.mem_cons.1 h with h | h
    · simp [find?, ← h]
    · have hne : ¬ head.1 = key := fun he => String.lt_irrefl _ (he ▸ hhead _ h)
      simp [find?, hne, ih hrest h]

theorem mem_toList {d : Dict α} {key : String} {value : α} :
    (key, value) ∈ d.toList ↔ d.get? key = some value :=
  ⟨find?_of_mem d.ascending, mem_of_find?⟩

theorem mem_toList' {d : Dict α} {e : String × α} : e ∈ d.toList ↔ d.get? e.1 = some e.2 := mem_toList

theorem mem_keys {d : Dict α} {key : String} : key ∈ d.keys ↔ ∃ value, d.get? key = some value := by
  simp only [keys, List.mem_map, Prod.exists, exists_and_right, exists_eq_right]
  exact exists_congr fun _ => mem_toList

theorem mem_values {d : Dict α} {value : α} : value ∈ d.values ↔ ∃ key, d.get? key = some value := by
  simp only [values, List.mem_map, Prod.exists, exists_eq_right]
  exact exists_congr fun _ => mem_toList

theorem contains_iff {d : Dict α} {key : String} : d.contains key = true ↔ ∃ value, d.get? key = some value :=
  Option.isSome_iff_exists

theorem contains_iff_mem {d : Dict α} {key : String} : d.contains key = true ↔ key ∈ d.keys :=
  contains_iff.trans mem_keys.symm

theorem get?_eq_none {d : Dict α} {key : String} : d.get? key = none ↔ key ∉ d.keys := by
  rw [mem_keys, ← Option.isSome_iff_exists, Option.not_isSome_iff_eq_none]

/-- A map is what it holds under each key. -/
theorem ext_get? {d e : Dict α} (h : ∀ key, d.get? key = e.get? key) : d = e := by
  apply ext_entries
  have hmem : ∀ x : String × α, x ∈ d.toList ↔ x ∈ e.toList := fun x => by rw [mem_toList', mem_toList', h]
  have hd : d.toList.Nodup := List.Nodup.of_map _ d.nodup_keys
  have he : e.toList.Nodup := List.Nodup.of_map _ e.nodup_keys
  refine ((List.perm_ext_iff_of_nodup hd he).2 hmem).eq_of_pairwise (fun a b _ _ hab hba => ?_) d.ascending e.ascending
  exact absurd (String.lt_trans hab hba) (String.lt_irrefl _)

theorem insert_of_get? {d : Dict α} {key : String} {value : α} (h : d.get? key = some value) : d.insert key value = d := by
  refine ext_get? fun other => ?_
  rw [get?_insert]
  split
  · next heq => rw [← heq, h]
  · rfl

theorem isEmpty_iff {d : Dict α} : d.isEmpty = true ↔ ∀ key, d.get? key = none := by
  constructor
  · intro h key
    have hnil : d.entries = [] := List.isEmpty_iff.1 h
    simp [get?, hnil, find?]
  · intro h
    have hd : d = empty := ext_get? h
    rw [hd]; rfl

@[simp] theorem isEmpty_empty : (empty : Dict α).isEmpty = true := rfl

theorem isEmpty_iff_eq {d : Dict α} : d.isEmpty = true ↔ d = ∅ :=
  isEmpty_iff.trans ⟨fun h => ext_get? h, fun h _ => h ▸ rfl⟩

@[simp] theorem get?_emptyCollection (key : String) : (∅ : Dict α).get? key = none := rfl

@[simp] theorem toList_emptyCollection : (∅ : Dict α).toList = [] := rfl

theorem get?_filter (keep : String → α → Bool) (d : Dict α) (key : String) :
    (d.filter keep).get? key = (d.get? key).filter (keep key) := by
  refine Option.ext fun value => ?_
  rw [← mem_toList, Option.filter_eq_some_iff, ← mem_toList]
  exact List.mem_filter

theorem get?_erase (d : Dict α) (key other : String) :
    (d.erase key).get? other = if key = other then none else d.get? other := by
  rw [erase, get?_filter]
  by_cases h : key = other
  · subst h; simp
  · have hne : other ≠ key := Ne.symm h
    cases d.get? other <;> simp [h, hne]

theorem get?_map (f : String → α → β) (d : Dict α) (key : String) :
    (d.map f).get? key = (d.get? key).map (f key) := by
  refine Option.ext fun value => ?_
  rw [← mem_toList, Option.map_eq_some_iff]
  simp only [toList, map, List.mem_map, Prod.exists, Prod.mk.injEq]
  constructor
  · rintro ⟨k, v, hmem, rfl, rfl⟩
    exact ⟨v, mem_toList.1 hmem, rfl⟩
  · rintro ⟨v, hv, rfl⟩
    exact ⟨key, v, mem_toList.2 hv, rfl, rfl⟩

@[simp] theorem keys_map (f : String → α → β) (d : Dict α) : (d.map f).keys = d.keys := by
  simp [keys, map, Function.comp_def]

@[simp] theorem toList_map (f : String → α → β) (d : Dict α) :
    (d.map f).toList = d.toList.map fun e => (e.1, f e.1 e.2) := rfl

@[simp] theorem isEmpty_map (f : String → α → β) (d : Dict α) : (d.map f).isEmpty = d.isEmpty := by
  simp [isEmpty, map]

theorem get?_update (d : Dict α) (key other : String) (absent : α) (f : α → α) :
    (d.update key absent f).get? other =
      if key = other then some (f ((d.get? other).getD absent)) else d.get? other := by
  rw [update, get?_insert]
  split
  · next h => rw [h]
  · rfl

/-- The last entry under a key counts. -/
theorem get?_insertAll (d : Dict α) (entries : List (String × α)) (key : String) :
    (d.insertAll entries).get? key = (find? key entries.reverse).or (d.get? key) := by
  induction entries using List.reverseRecOn with
  | nil => simp [insertAll, find?]
  | append_singleton init last ih =>
    rw [insertAll, List.foldl_append, List.foldl_cons, List.foldl_nil, get?_insert, List.reverse_append,
      List.reverse_singleton, List.singleton_append, find?]
    split
    · rfl
    · exact ih

theorem find?_append (key : String) (xs ys : List (String × α)) :
    find? key (xs ++ ys) = (find? key xs).or (find? key ys) := by
  induction xs with
  | nil => simp [find?]
  | cons head rest ih =>
    obtain ⟨k, v⟩ := head
    simp only [List.cons_append, find?]
    split
    · rfl
    · exact ih

theorem find?_eq_none {key : String} {entries : List (String × α)} :
    find? key entries = none ↔ ∀ e ∈ entries, e.1 ≠ key := by
  induction entries with
  | nil => simp [find?]
  | cons head rest ih =>
    obtain ⟨k, v⟩ := head
    by_cases hk : k = key <;> simp [find?, hk, ih]

/-- In a list that never gives a key two values, the order does not matter. -/
theorem find?_eq_some {key : String} {value : α} {entries : List (String × α)}
    (hu : ∀ v, (key, v) ∈ entries → v = value) (h : (key, value) ∈ entries) :
    find? key entries = some value := by
  cases hf : find? key entries with
  | none => exact absurd rfl (find?_eq_none.1 hf _ h)
  | some v => rw [hu v (mem_of_find? hf)]

theorem get?_ofList (entries : List (String × α)) (key : String) :
    (ofList entries).get? key = find? key entries.reverse := by
  rw [ofList, get?_insertAll]
  simp

/-- The first entry under a key counts. -/
theorem get?_ofListFirst (entries : List (String × α)) (key : String) : (ofListFirst entries).get? key = find? key entries := by
  induction entries using List.reverseRecOn with
  | nil => rfl
  | append_singleton init last ih =>
    rw [find?_append, ← ih, ofListFirst, List.foldl_append, List.foldl_cons, List.foldl_nil, ← ofListFirst]
    split
    · next h =>
      obtain ⟨value, hvalue⟩ := contains_iff.1 h
      by_cases hk : last.1 = key
      · rw [← hk, hvalue, Option.some_or]
      · simp [find?, hk]
    · next h =>
      rw [get?_insert]
      by_cases hk : last.1 = key
      · have hnone : (ofListFirst init).get? key = none := by
          rw [← hk]
          exact Option.not_isSome_iff_eq_none.1 h
        rw [if_pos hk, hnone, Option.none_or, find?, if_pos hk]
      · simp [find?, hk]

theorem get?_insertAll_toList (d e : Dict α) (key : String) :
    (d.insertAll e.toList).get? key = (e.get? key).or (d.get? key) := by
  rw [get?_insertAll]
  congr 1
  cases h : e.get? key with
  | none =>
    exact find?_eq_none.2 fun x hx he =>
      get?_eq_none.1 h (mem_keys.2 ⟨x.2, he ▸ mem_toList'.1 (List.mem_reverse.1 hx)⟩)
  | some v =>
    refine find?_eq_some (fun w hw => ?_) (List.mem_reverse.2 (mem_toList.2 h))
    have := (mem_toList.1 (List.mem_reverse.1 hw)).symm.trans h
    exact Option.some.inj this

@[simp] theorem ofList_toList (d : Dict α) : ofList d.toList = d :=
  ext_get? fun key => by rw [ofList, get?_insertAll_toList]; simp

/-- A list of entries that gives each of some keys one value, and no other key any. -/
theorem get?_ofList_eq_some {entries : List (String × α)} {key : String} {value : α}
    (hu : ∀ v, (key, v) ∈ entries → v = value) (h : (key, value) ∈ entries) :
    (ofList entries).get? key = some value := by
  rw [get?_ofList]
  exact find?_eq_some (fun v hv => hu v (List.mem_reverse.1 hv)) (List.mem_reverse.2 h)

theorem mem_of_get?_ofList {entries : List (String × α)} {key : String} {value : α}
    (h : (ofList entries).get? key = some value) : (key, value) ∈ entries := by
  rw [get?_ofList] at h
  exact List.mem_reverse.1 (mem_of_find? h)

/-! ## Sets of strings -/

theorem get?_add (s : Names) (name other : String) :
    (Names.add s name).get? other = if name = other then some () else Dict.get? s other :=
  get?_insert s name other ()

theorem mem_keys_add {s : Names} {name other : String} :
    other ∈ Dict.keys (Names.add s name) ↔ other = name ∨ other ∈ Dict.keys s := by
  simp only [mem_keys, get?_add]
  by_cases h : name = other
  · simp [h]
  · simp [h, Ne.symm h]

theorem mem_keys_erase {d : Dict α} {name other : String} :
    other ∈ (d.erase name).keys ↔ other ≠ name ∧ other ∈ d.keys := by
  simp only [mem_keys, get?_erase]
  by_cases h : name = other
  · simp [h]
  · simp [h, Ne.symm h]

end CodeIndex.Dict
