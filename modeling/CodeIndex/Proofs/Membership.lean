import CodeIndex.Proofs.Consistency
import CodeIndex.Proofs.Division
import CodeIndex.Update

set_option autoImplicit false

/-!
# Modules after a change

Removed files leave their modules, and new ones are put into modules one after another; files that were there
and are still there stay where they were.  Every module whose files are not the same afterwards is among the
affected ones.
-/

namespace CodeIndex.ModuleMap

theorem isValid_of_mem_pieces {dir id : String} (h : id ∈ (Text.pieces '/' dir).map ModuleId.sanitize) :
    ModuleId.isValid id = true := by
  obtain ⟨name, -, rfl⟩ := List.mem_map.1 h
  exact ModuleId.isValid_sanitize name

theorem contains_of_existing? {m : ModuleMap} {dirs : List String} {id : String} (h : m.existing? dirs = some id) :
    m.contains id = true := by
  unfold existing? at h
  dsimp only at h
  split at h
  · next hc => cases h; exact hc
  · split at h
    · next hc => cases h; exact hc
    · cases h

theorem contains_of_placeFrom {m : ModuleMap} {dirs : List String} {depth : Nat} {id : String}
    (h : m.placeFrom dirs depth = some id) : m.contains id = true := by
  induction depth with
  | zero => cases h
  | succ depth ih =>
    rw [placeFrom] at h
    cases he : m.existing? (dirs.take (depth + 1)) with
    | some found =>
      rw [he] at h
      cases h
      exact contains_of_existing? he
    | none =>
      rw [he] at h
      exact ih h

/-- A new file goes into a module that is there, or into one with a valid id. -/
theorem placementOf_known (m : ModuleMap) (path : String) :
    m.contains (m.placementOf path) = true ∨ ModuleId.isValid (m.placementOf path) = true := by
  unfold placementOf
  split
  · exact .inr ModuleId.isValid_rootId
  · next dir file hcut =>
    dsimp only
    cases hp : m.placeFrom ((Text.pieces '/' dir).map ModuleId.sanitize)
        ((Text.pieces '/' dir).map ModuleId.sanitize).length with
    | some id => exact .inl (contains_of_placeFrom hp)
    | none =>
      right
      cases hd : (Text.pieces '/' dir).map ModuleId.sanitize with
      | nil => exact ModuleId.isValid_rootId
      | cons id rest => exact isValid_of_mem_pieces (hd ▸ List.mem_cons_self)

end CodeIndex.ModuleMap

namespace CodeIndex.Update.Membership

open ModuleMap

/-- The modules of an index. -/
def modulesOf (core : CoreIndex) : ModuleMap := core.modules.map fun _ entry => entry.files

theorem get?_modulesOf {core : CoreIndex} {id : String} {group : List String} :
    (modulesOf core).get? id = some group ↔ ∃ m, core.modules.get? id = some m ∧ m.files = group := by
  rw [modulesOf, Dict.get?_map, Option.map_eq_some_iff]

theorem holds_modulesOf {core : CoreIndex} (hc : core.Consistent) {id file : String} :
    (modulesOf core).Holds id file ↔ core.moduleFor? file = some id := by
  rw [hc.moduleFor?_eq_some]
  unfold Holds
  simp only [get?_modulesOf]
  constructor
  · rintro ⟨_, ⟨m, hm, rfl⟩, hf⟩
    exact ⟨m, hm, hf⟩
  · rintro ⟨m, hm, hf⟩
    exact ⟨_, ⟨m, hm, rfl⟩, hf⟩

theorem isSome_moduleFor? {core : CoreIndex} (hc : core.Consistent) {file : String} :
    (core.moduleFor? file).isSome = true ↔ ∃ id, (modulesOf core).Holds id file := by
  rw [Option.isSome_iff_exists]
  exact exists_congr fun id => (holds_modulesOf hc).symm

variable {core : CoreIndex}

/-! ## Ids that come up -/

/-- An id of the index, or a valid one. -/
def Known (core : CoreIndex) (id : String) : Prop := core.modules.contains id = true ∨ ModuleId.isValid id = true

/-- All modules and all affected ids are known. -/
structure AllKnown (core : CoreIndex) (m : Membership) : Prop where
  modules : ∀ id ∈ m.modules.keys, Known core id
  affected : ∀ id ∈ m.affected.keys, Known core id

theorem known_of_moduleFor? (hc : core.Consistent) {file id : String} (h : core.moduleFor? file = some id) :
    Known core id := by
  obtain ⟨m, hm, -⟩ := hc.moduleFor?_eq_some.1 h
  exact .inl (Dict.contains_iff.2 ⟨m, hm⟩)

theorem mem_keys_insert {α : Type} {d : Dict α} {key other : String} {value : α} :
    other ∈ (d.insert key value).keys ↔ other = key ∨ other ∈ d.keys := by
  simp only [Dict.mem_keys, Dict.get?_insert]
  by_cases h : key = other
  · simp [h]
  · simp [h, Ne.symm h]

theorem AllKnown.affect {m : Membership} (h : AllKnown core m) {id : String} (hid : Known core id) :
    AllKnown core { m with affected := m.affected.add id } := by
  refine ⟨h.modules, fun other ho => ?_⟩
  rcases Dict.mem_keys_add.1 ho with rfl | ho
  · exact hid
  · exact h.affected other ho

theorem AllKnown.put {m : Membership} (h : AllKnown core m) {id : String} (hid : Known core id) (group : List String) :
    AllKnown core { m with modules := m.modules.insert id group } := by
  refine ⟨fun other ho => ?_, h.affected⟩
  rcases mem_keys_insert.1 ho with rfl | ho
  · exact hid
  · exact h.modules other ho

theorem allKnown_remove (hc : core.Consistent) {m : Membership} (h : AllKnown core m) (path : String) :
    AllKnown core (m.remove core path) := by
  unfold remove
  split
  · exact h
  · next id hid =>
    have hknown := known_of_moduleFor? hc hid
    split
    · exact (h.put hknown _).affect hknown
    · exact h.affect hknown

theorem allKnown_add (hc : core.Consistent) {m : Membership} (h : AllKnown core m) (path : String) :
    AllKnown core (m.add core path) := by
  unfold add
  split
  · next id hid => exact h.affect (known_of_moduleFor? hc hid)
  · have hknown : Known core (m.modules.placementOf path) := by
      rcases m.modules.placementOf_known path with hp | hp
      · exact h.modules _ (Dict.contains_iff_mem.1 hp)
      · exact .inr hp
    exact (h.put hknown _).affect hknown

theorem allKnown_touch (hc : core.Consistent) {m : Membership} (h : AllKnown core m) (path : String) :
    AllKnown core (m.touch core path) := by
  unfold touch
  split
  · next id hid => exact h.affect (known_of_moduleFor? hc hid)
  · exact h

theorem foldl_allKnown {step : Membership → String → Membership}
    (hstep : ∀ m path, AllKnown core m → AllKnown core (step m path)) (paths : List String) {m : Membership}
    (h : AllKnown core m) : AllKnown core (paths.foldl step m) := by
  induction paths generalizing m with
  | nil => exact h
  | cons path rest ih => exact ih (hstep m path h)

/-- After a change there are only modules of the index and such with valid ids, and only these are affected. -/
theorem allKnown_after (hc : core.Consistent) (c : ChangeSet) (importers : List String) :
    AllKnown core (after core c importers) := by
  have hstart : AllKnown core ⟨modulesOf core, {}⟩ := by
    refine ⟨fun id hid => ?_, fun id hid => absurd hid (by simp [Dict.mem_keys])⟩
    rw [modulesOf, Dict.keys_map] at hid
    exact .inl (Dict.contains_iff_mem.2 hid)
  have hremoved := foldl_allKnown (fun m path hm => allKnown_remove hc hm path) c.removed.keys hstart
  have hadded := foldl_allKnown (fun m path hm => allKnown_add hc hm path) c.modified.keys hremoved
  have htouched := foldl_allKnown (fun m path hm => allKnown_touch hc hm path) importers hadded
  refine ⟨fun id hid => ?_, htouched.affected⟩
  obtain ⟨files, hget⟩ := Dict.mem_keys.1 hid
  rw [after, Dict.get?_filter, Option.filter_eq_some_iff] at hget
  exact htouched.modules id (Dict.mem_keys.2 ⟨files, hget.1⟩)

theorem known_of_affected (hc : core.Consistent) (c : ChangeSet) (importers : List String) {id : String}
    (h : id ∈ (after core c importers).affected.keys) : Known core id :=
  (allKnown_after hc c importers).affected id h

end CodeIndex.Update.Membership
