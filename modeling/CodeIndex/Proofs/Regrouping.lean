import CodeIndex.Proofs.Membership

set_option autoImplicit false

/-!
# Files and modules after a change

Removing takes the removed files out of their modules and nothing else.  Adding puts each new file into one module,
into which of them does not matter here: no other file moves.  What is left after dropping empty modules divides the
files that were there and were not removed, together with the new ones.
-/

namespace CodeIndex.Update.Membership

open ModuleMap

variable {core : CoreIndex}

/-- Modules with valid ids that share no file; they may be empty. -/
structure Tidy (m : ModuleMap) : Prop where
  valid : ∀ {id group}, m.get? id = some group → ModuleId.isValid id = true
  increasing : ∀ {id group}, m.get? id = some group → group.Pairwise (· < ·)
  unique : ∀ {file id id'}, m.Holds id file → m.Holds id' file → id = id'

/-! ## Removing -/

/-- Modules without some files. -/
def without (m : ModuleMap) (files : List String) : ModuleMap := m.map fun _ group => group.filter (· ∉ files)

theorem get?_without {m : ModuleMap} {files : List String} {id : String} :
    (without m files).get? id = (m.get? id).map fun group => group.filter (· ∉ files) :=
  Dict.get?_map _ m id

theorem holds_without {m : ModuleMap} {files : List String} {id file : String} :
    (without m files).Holds id file ↔ m.Holds id file ∧ file ∉ files := by
  unfold Holds
  rw [get?_without]
  cases m.get? id <;> simp

theorem without_cons (m : ModuleMap) (path : String) (rest : List String) :
    without (without m [path]) rest = without m (path :: rest) := by
  refine Dict.ext_get? fun id => ?_
  rw [get?_without, get?_without, get?_without, Option.map_map]
  congr 1
  funext group
  simp only [Function.comp, List.filter_filter]
  congr 1
  funext file
  simp [Bool.and_comm]

theorem without_of_notMem {m : ModuleMap} {files : List String} (h : ∀ id file, m.Holds id file → file ∉ files) :
    without m files = m := by
  refine Dict.ext_get? fun id => ?_
  rw [get?_without]
  cases hg : m.get? id with
  | none => rfl
  | some group =>
    rw [Option.map_some, List.filter_eq_self.2 fun file hfile => by simpa using h id file ⟨group, hg, hfile⟩]

/-- Every file is in the module that the index says. -/
def Settled (core : CoreIndex) (m : ModuleMap) : Prop := ∀ {id file}, m.Holds id file → core.moduleFor? file = some id

theorem modules_remove {m : Membership} (hm : Settled core m.modules) (path : String) :
    (m.remove core path).modules = without m.modules [path] := by
  unfold remove
  cases hid : core.moduleFor? path with
  | none =>
    refine (without_of_notMem fun id file hfile => ?_).symm
    rw [List.mem_singleton]
    rintro rfl
    cases hid.symm.trans (hm hfile)
  | some id =>
    have hother : ∀ {other group}, other ≠ id → m.modules.get? other = some group → group.filter (· ∉ [path]) = group := by
      intro other group hne hg
      refine List.filter_eq_self.2 fun file hfile => ?_
      simp only [List.mem_singleton, decide_eq_true_eq]
      rintro rfl
      exact hne (Option.some.inj ((hm ⟨group, hg, hfile⟩).symm.trans hid))
    refine Dict.ext_get? fun other => ?_
    rw [get?_without]
    dsimp only
    cases hg : m.modules.get? id with
    | none =>
      dsimp only
      by_cases hne : other = id
      · rw [hne, hg]
        rfl
      · cases ho : m.modules.get? other with
        | none => rfl
        | some group => rw [Option.map_some, hother hne ho]
    | some files =>
      dsimp only
      rw [Dict.get?_insert]
      split
      · next heq =>
        rw [← heq, hg]
        simp
      · next hne =>
        cases ho : m.modules.get? other with
        | none => rfl
        | some group => rw [Option.map_some, hother (Ne.symm hne) ho]

theorem mem_affected_remove {m : Membership} {path id : String} :
    id ∈ (m.remove core path).affected.keys ↔ id ∈ m.affected.keys ∨ core.moduleFor? path = some id := by
  unfold remove
  cases core.moduleFor? path with
  | none => simp
  | some found =>
    rw [Dict.mem_keys_add, or_comm, Option.some.injEq, eq_comm]

theorem Settled.without {m : ModuleMap} (h : Settled core m) (files : List String) : Settled core (without m files) :=
  fun hf => h (holds_without.1 hf).1

theorem foldl_remove (paths : List String) {m : Membership} (hm : Settled core m.modules) :
    (paths.foldl (remove core) m).modules = without m.modules paths ∧
      ∀ id, id ∈ (paths.foldl (remove core) m).affected.keys ↔
        id ∈ m.affected.keys ∨ ∃ path ∈ paths, core.moduleFor? path = some id := by
  induction paths generalizing m with
  | nil => exact ⟨(without_of_notMem fun _ _ _ => by simp).symm, fun id => by simp⟩
  | cons path rest ih =>
    have hmodules := modules_remove hm path
    obtain ⟨hrest, haffected⟩ := ih (m := m.remove core path) (hmodules ▸ hm.without [path])
    refine ⟨?_, fun id => ?_⟩
    · rw [List.foldl_cons, hrest, hmodules, without_cons]
    · rw [List.foldl_cons, haffected, mem_affected_remove]
      simp [or_assoc]

/-! ## Adding -/

/-- A file that the index does not have. -/
def IsNew (core : CoreIndex) (file : String) : Prop := core.moduleFor? file = none

/-- From one membership to another the new ones of some files were put into modules, and nothing else happened. -/
structure Grown (core : CoreIndex) (paths : List String) (m m' : Membership) : Prop where
  keeps : ∀ {id file}, m.modules.Holds id file → m'.modules.Holds id file
  only : ∀ {id file}, m'.modules.Holds id file → m.modules.Holds id file ∨ file ∈ paths ∧ IsNew core file
  placed : ∀ {file}, file ∈ paths → IsNew core file → ∃ id, m'.modules.Holds id file
  same : ∀ id, m'.modules.get? id = m.modules.get? id ∨ ∃ file ∈ paths, IsNew core file ∧ m'.modules.Holds id file
  affected : ∀ id, id ∈ m'.affected.keys ↔ id ∈ m.affected.keys ∨ (∃ file ∈ paths, core.moduleFor? file = some id) ∨
    ∃ file ∈ paths, IsNew core file ∧ m'.modules.Holds id file

theorem Grown.refl (core : CoreIndex) (m : Membership) : Grown core [] m m :=
  ⟨id, .inl, fun h => (nomatch h), fun _ => .inl rfl, fun id => by simp⟩

theorem Grown.trans {paths paths' : List String} {m m' m'' : Membership} (h : Grown core paths m m')
    (h' : Grown core paths' m' m'') (hu : Tidy m''.modules) : Grown core (paths ++ paths') m m'' := by
  refine ⟨fun hf => h'.keeps (h.keeps hf), fun hf => ?_, fun hf hnew => ?_, fun id => ?_, fun id => ?_⟩
  · rcases h'.only hf with hf | ⟨hmem, hnew⟩
    · exact (h.only hf).imp_right fun ⟨hmem, hnew⟩ => ⟨List.mem_append_left _ hmem, hnew⟩
    · exact .inr ⟨List.mem_append_right _ hmem, hnew⟩
  · rcases List.mem_append.1 hf with hf | hf
    · obtain ⟨id, hid⟩ := h.placed hf hnew
      exact ⟨id, h'.keeps hid⟩
    · exact h'.placed hf hnew
  · rcases h'.same id with heq | ⟨file, hmem, hnew, hf⟩
    · rw [heq]
      exact (h.same id).imp_right fun ⟨file, hmem, hnew, hf⟩ => ⟨file, List.mem_append_left _ hmem, hnew, h'.keeps hf⟩
    · exact .inr ⟨file, List.mem_append_right _ hmem, hnew, hf⟩
  · rw [h'.affected, h.affected]
    constructor
    · rintro ((hid | ⟨file, hmem, hid⟩ | ⟨file, hmem, hnew, hf⟩) | ⟨file, hmem, hid⟩ | ⟨file, hmem, hnew, hf⟩)
      · exact .inl hid
      · exact .inr (.inl ⟨file, List.mem_append_left _ hmem, hid⟩)
      · exact .inr (.inr ⟨file, List.mem_append_left _ hmem, hnew, h'.keeps hf⟩)
      · exact .inr (.inl ⟨file, List.mem_append_right _ hmem, hid⟩)
      · exact .inr (.inr ⟨file, List.mem_append_right _ hmem, hnew, hf⟩)
    · rintro (hid | ⟨file, hmem, hid⟩ | ⟨file, hmem, hnew, hf⟩)
      · exact .inl (.inl hid)
      · rcases List.mem_append.1 hmem with hmem | hmem
        · exact .inl (.inr (.inl ⟨file, hmem, hid⟩))
        · exact .inr (.inl ⟨file, hmem, hid⟩)
      · rcases List.mem_append.1 hmem with hmem | hmem
        · obtain ⟨id', hid'⟩ := h.placed hmem hnew
          obtain rfl := hu.unique hf (h'.keeps hid')
          exact .inl (.inr (.inr ⟨file, hmem, hnew, hid'⟩))
        · exact .inr (.inr ⟨file, hmem, hnew, hf⟩)

/-- A new file is put into a module, into which it sorts. -/
theorem put_spec {m : ModuleMap} (hm : Tidy m) {id path : String} (hid : ModuleId.isValid id = true)
    (hnot : ∀ i, ¬ m.Holds i path) {m' : ModuleMap}
    (hm' : m' = m.insert id (((m.get? id).getD [] ++ [path]).mergeSort fun a b => decide (a ≤ b))) :
    Tidy m' ∧ ∀ i file, m'.Holds i file ↔ m.Holds i file ∨ i = id ∧ file = path := by
  subst hm'
  have hgroup : ∀ {g}, m.get? id = some g → g.Nodup ∧ path ∉ g := fun {g} hg =>
    ⟨Text.nodup_of_pairwise_lt (hm.increasing hg), fun hmem => hnot id ⟨g, hg, hmem⟩⟩
  have hnodup : ((m.get? id).getD [] ++ [path]).Nodup := by
    cases hg : m.get? id with
    | none => simp
    | some g =>
      obtain ⟨hn, hp⟩ := hgroup hg
      refine List.nodup_append.2 ⟨hn, by simp, ?_⟩
      rintro file hfile _ hlast rfl
      rw [List.mem_singleton] at hlast
      exact hp (hlast ▸ hfile)
  have hholds : ∀ i file, Holds (m.insert id (((m.get? id).getD [] ++ [path]).mergeSort fun a b => decide (a ≤ b))) i file ↔
      m.Holds i file ∨ i = id ∧ file = path := by
    intro i file
    unfold Holds
    rw [Dict.get?_insert]
    by_cases hi : id = i
    · subst hi
      cases hg : m.get? id <;> simp
    · simp [hi, Ne.symm hi]
  refine ⟨⟨fun {i g} hg => ?_, fun {i g} hg => ?_, fun {file i i'} hf hf' => ?_⟩, hholds⟩
  · rw [Dict.get?_insert] at hg
    split at hg
    · next heq => exact heq ▸ hid
    · exact hm.valid hg
  · rw [Dict.get?_insert] at hg
    split at hg
    · cases hg
      exact Text.pairwise_lt_mergeSort hnodup
    · exact hm.increasing hg
  · rcases (hholds _ _).1 hf with hold | ⟨hi, hfile⟩ <;> rcases (hholds _ _).1 hf' with hold' | ⟨hi', hfile'⟩
    · exact hm.unique hold hold'
    · exact absurd (hfile' ▸ hold) (hnot i)
    · exact absurd (hfile ▸ hold') (hnot i')
    · exact hi.trans hi'.symm

theorem add_grown {m : Membership} (hm : Tidy m.modules) {path : String} (hnot : IsNew core path → ∀ id, ¬ m.modules.Holds id path) :
    Grown core [path] m (m.add core path) ∧ Tidy (m.add core path).modules := by
  unfold add
  cases hid : core.moduleFor? path with
  | some id =>
    have hold : ¬ IsNew core path := by simp [IsNew, hid]
    refine ⟨⟨fun h => h, .inl, ?_, fun _ => .inl rfl, fun other => ?_⟩, hm⟩
    · rintro file hfile hnew
      rw [List.mem_singleton.1 hfile] at hnew
      exact absurd hnew hold
    · rw [Dict.mem_keys_add]
      simp [hid, hold, or_comm, eq_comm]
  | none =>
    have hplace : ModuleId.isValid (m.modules.placementOf path) = true := by
      rcases m.modules.placementOf_known path with hp | hp
      · obtain ⟨group, hg⟩ := Dict.contains_iff.1 hp
        exact hm.valid hg
      · exact hp
    obtain ⟨htidy, hholds⟩ := put_spec hm hplace (hnot hid) rfl
    refine ⟨⟨fun hf => (hholds _ _).2 (.inl hf), fun hf => ?_, fun hfile _ => ?_, fun id => ?_, fun id => ?_⟩, htidy⟩
    · rcases (hholds _ _).1 hf with hf | ⟨-, rfl⟩
      · exact .inl hf
      · exact .inr ⟨by simp, hid⟩
    · exact ⟨_, (hholds _ _).2 (.inr ⟨rfl, List.mem_singleton.1 hfile⟩)⟩
    · by_cases heq : m.modules.placementOf path = id
      · exact .inr ⟨path, by simp, hid, (hholds _ _).2 (.inr ⟨heq.symm, rfl⟩)⟩
      · exact .inl (by dsimp only; rw [Dict.get?_insert, if_neg heq])
    · rw [Dict.mem_keys_add]
      have hpath : Holds (m.modules.insert (m.modules.placementOf path)
          (((m.modules.get? (m.modules.placementOf path)).getD [] ++ [path]).mergeSort fun a b => decide (a ≤ b))) id path ↔
            id = m.modules.placementOf path := by
        rw [hholds]
        exact ⟨fun h => (h.resolve_left (hnot hid id)).1, fun h => .inr ⟨h, rfl⟩⟩
      simp [hid, IsNew, hpath, or_comm]

theorem foldl_add {paths : List String} (hn : paths.Nodup) {m : Membership} (hm : Tidy m.modules)
    (hnot : ∀ file ∈ paths, IsNew core file → ∀ id, ¬ m.modules.Holds id file) :
    Grown core paths m (paths.foldl (add core) m) ∧ Tidy (paths.foldl (add core) m).modules := by
  induction paths generalizing m with
  | nil => exact ⟨Grown.refl core m, hm⟩
  | cons path rest ih =>
    obtain ⟨hhead, htail⟩ := List.nodup_cons.1 hn
    obtain ⟨hgrown, htidy⟩ := add_grown hm (hnot path (by simp))
    obtain ⟨hgrown', htidy'⟩ := ih htail htidy fun file hfile hnew id hf => by
      rcases hgrown.only hf with hf | ⟨hmem, -⟩
      · exact hnot file (List.mem_cons_of_mem _ hfile) hnew id hf
      · exact hhead (List.mem_singleton.1 hmem ▸ hfile)
    exact ⟨hgrown.trans hgrown' htidy', htidy'⟩

/-! ## Importers -/

theorem modules_touch (m : Membership) (path : String) : (m.touch core path).modules = m.modules := by
  unfold touch
  split <;> rfl

theorem foldl_touch (paths : List String) (m : Membership) :
    (paths.foldl (touch core) m).modules = m.modules ∧ m.affected.keys ⊆ (paths.foldl (touch core) m).affected.keys := by
  induction paths generalizing m with
  | nil => exact ⟨rfl, List.Subset.refl _⟩
  | cons path rest ih =>
    obtain ⟨hmodules, hsub⟩ := ih (m.touch core path)
    refine ⟨hmodules.trans (modules_touch m path), List.Subset.trans (fun id hid => ?_) hsub⟩
    unfold touch
    split
    · exact Dict.mem_keys_add.2 (.inr hid)
    · exact hid

/-! ## Moving files -/

theorem settled_modulesOf (hc : core.Consistent) : Settled core (modulesOf core) := fun hf => (holds_modulesOf hc).1 hf

theorem Tidy.of_divides {m : ModuleMap} {files : List String} (h : m.Divides files) : Tidy m := ⟨h.valid, h.increasing, h.unique⟩

theorem Tidy.without {m : ModuleMap} (h : Tidy m) (files : List String) : Tidy (without m files) := by
  refine ⟨fun {id group} hg => ?_, fun {id group} hg => ?_, fun hf hf' => h.unique (holds_without.1 hf).1 (holds_without.1 hf').1⟩
  · rw [get?_without, Option.map_eq_some_iff] at hg
    obtain ⟨all, hall, -⟩ := hg
    exact h.valid hall
  · rw [get?_without, Option.map_eq_some_iff] at hg
    obtain ⟨all, hall, rfl⟩ := hg
    exact (h.increasing hall).filter _

/-- The files of a change were taken out of their modules and put into them, and modules without files are still there. -/
structure Moved (core : CoreIndex) (c : ChangeSet) (m : Membership) : Prop where
  tidy : Tidy m.modules
  stays : ∀ {id file}, (modulesOf core).Holds id file → file ∉ c.removed.keys → m.modules.Holds id file
  only : ∀ {id file}, m.modules.Holds id file →
    (modulesOf core).Holds id file ∧ file ∉ c.removed.keys ∨ file ∈ c.modified.keys
  placed : ∀ {file}, file ∈ c.modified.keys → IsNew core file → ∃ id, m.modules.Holds id file
  same : ∀ {id}, (∀ file ∈ c.removed.keys, ¬ (modulesOf core).Holds id file) →
    (∀ file ∈ c.modified.keys, IsNew core file → ¬ m.modules.Holds id file) →
    m.modules.get? id = (modulesOf core).get? id
  removed : ∀ {id file}, file ∈ c.removed.keys → (modulesOf core).Holds id file → id ∈ m.affected.keys
  added : ∀ {id file}, file ∈ c.modified.keys → IsNew core file → m.modules.Holds id file → id ∈ m.affected.keys
  kept : ∀ {id file}, file ∈ c.modified.keys → core.moduleFor? file = some id → id ∈ m.affected.keys

theorem moved_of_grown (hc : core.Consistent) {c : ChangeSet} {m m' : Membership}
    (hmodules : m.modules = without (modulesOf core) c.removed.keys)
    (haffected : ∀ {path id}, path ∈ c.removed.keys → core.moduleFor? path = some id → id ∈ m.affected.keys)
    (h : Grown core c.modified.keys m m') (htidy : Tidy m'.modules) : Moved core c m' where
  tidy := htidy
  stays := fun hf hnot => h.keeps (hmodules ▸ holds_without.2 ⟨hf, hnot⟩)
  only := by
    intro id file hf
    refine (h.only hf).imp (fun hf => ?_) And.left
    rw [hmodules] at hf
    exact holds_without.1 hf
  placed := h.placed
  same := by
    intro id hremoves hadds
    refine ((h.same id).resolve_right ?_).trans ?_
    · rintro ⟨file, hmem, hnew, hf⟩
      exact hadds file hmem hnew hf
    · rw [hmodules, get?_without]
      cases hg : (modulesOf core).get? id with
      | none => rfl
      | some group =>
        rw [Option.map_some, List.filter_eq_self.2]
        intro file hfile
        simpa using fun hmem => hremoves file hmem ⟨group, hg, hfile⟩
  removed := fun hmem hf => (h.affected _).2 (.inl (haffected hmem (settled_modulesOf hc hf)))
  added := fun hmem hnew hf => (h.affected _).2 (.inr (.inr ⟨_, hmem, hnew, hf⟩))
  kept := fun hmem hid => (h.affected _).2 (.inr (.inl ⟨_, hmem, hid⟩))

theorem moved_foldl (hc : core.Consistent) {files : List String} (hd : (modulesOf core).Divides files) (c : ChangeSet) :
    Moved core c (c.modified.keys.foldl (add core) (c.removed.keys.foldl (remove core) ⟨modulesOf core, {}⟩)) := by
  obtain ⟨hmodules, haffected⟩ := foldl_remove c.removed.keys (m := ⟨modulesOf core, {}⟩) (settled_modulesOf hc)
  have htidy : Tidy (c.removed.keys.foldl (remove core) ⟨modulesOf core, {}⟩).modules := by
    rw [hmodules]
    exact (Tidy.of_divides hd).without _
  have hnot : ∀ file ∈ c.modified.keys, IsNew core file →
      ∀ id, ¬ (c.removed.keys.foldl (remove core) ⟨modulesOf core, {}⟩).modules.Holds id file := by
    intro file _ hnew id hf
    rw [hmodules] at hf
    cases hnew.symm.trans (settled_modulesOf hc (holds_without.1 hf).1)
  obtain ⟨hgrown, htidy'⟩ := foldl_add c.modified.nodup_keys htidy hnot
  exact moved_of_grown hc hmodules (fun hmem hid => (haffected _).2 (.inr ⟨_, hmem, hid⟩)) hgrown htidy'

/-- Importers only add to the modules that are affected. -/
theorem Moved.foldl_touch {c : ChangeSet} {m : Membership} (h : Moved core c m) (importers : List String) :
    Moved core c (importers.foldl (touch core) m) := by
  obtain ⟨hmodules, hsub⟩ := @Membership.foldl_touch core importers m
  generalize importers.foldl (touch core) m = m' at hmodules hsub ⊢
  obtain ⟨modules, affected⟩ := m'
  subst hmodules
  exact { h with
    removed := fun hmem hf => hsub (h.removed hmem hf)
    added := fun hmem hnew hf => hsub (h.added hmem hnew hf)
    kept := fun hmem hid => hsub (h.kept hmem hid) }

/-! ## Altogether -/

/-- The modules with files in them. -/
def inhabited (m : ModuleMap) : ModuleMap := m.filter fun _ group => !group.isEmpty

theorem get?_inhabited {m : ModuleMap} {id : String} {group : List String} :
    (inhabited m).get? id = some group ↔ m.get? id = some group ∧ group ≠ [] := by
  rw [inhabited, Dict.get?_filter, Option.filter_eq_some_iff]
  simp

theorem holds_inhabited {m : ModuleMap} {id file : String} : (inhabited m).Holds id file ↔ m.Holds id file := by
  constructor
  · rintro ⟨group, hg, hf⟩
    exact ⟨group, (get?_inhabited.1 hg).1, hf⟩
  · rintro ⟨group, hg, hf⟩
    exact ⟨group, get?_inhabited.2 ⟨hg, List.ne_nil_of_mem hf⟩, hf⟩

/-- A module that is what it was in a division of files has some, so it is not dropped. -/
theorem get?_inhabited_eq {m m' : ModuleMap} {files : List String} (hd : m.Divides files) {id : String}
    (h : m'.get? id = m.get? id) : (inhabited m').get? id = m.get? id := by
  rw [inhabited, Dict.get?_filter, h]
  cases hg : m.get? id with
  | none => rfl
  | some group => simpa using hd.inhabited hg

/-- What the modules of an index are after a change. -/
structure Regrouped (core : CoreIndex) (c : ChangeSet) (m : Membership) : Prop where
  divides : ∀ files : List String, (∀ file, file ∈ files ↔
    file ∈ (modulesOf core).files ∧ file ∉ c.removed.keys ∨ file ∈ c.modified.keys) → m.modules.Divides files
  /-- Files stay where they are. -/
  stays : ∀ {id file}, (modulesOf core).Holds id file → file ∉ c.removed.keys → m.modules.Holds id file
  /-- A module without removed and without new files is as it was. -/
  same : ∀ {id}, (∀ file ∈ c.removed.keys, ¬ (modulesOf core).Holds id file) →
    (∀ file ∈ c.modified.keys, IsNew core file → ¬ m.modules.Holds id file) →
    m.modules.get? id = (modulesOf core).get? id
  /-- So is a module that is not affected. -/
  unaffected : ∀ {id}, id ∉ m.affected.keys → m.modules.get? id = (modulesOf core).get? id
  /-- The module of a removed or touched file is affected. -/
  removed : ∀ {id file}, file ∈ c.removed.keys → (modulesOf core).Holds id file → id ∈ m.affected.keys
  modified : ∀ {id file}, file ∈ c.modified.keys → m.modules.Holds id file → id ∈ m.affected.keys

theorem Moved.regrouped (hc : core.Consistent) {files : List String} (hd : (modulesOf core).Divides files) {c : ChangeSet}
    (hdisjoint : ∀ file ∈ c.modified.keys, file ∉ c.removed.keys) {m : Membership} (h : Moved core c m) :
    Regrouped core c { m with modules := inhabited m.modules } where
  divides := by
    intro files' hfiles'
    refine { valid := fun hg => h.tidy.valid (get?_inhabited.1 hg).1, inhabited := fun hg => (get?_inhabited.1 hg).2,
             increasing := fun hg => h.tidy.increasing (get?_inhabited.1 hg).1, mem_iff := fun {file} => ?_,
             unique := fun hf hf' => h.tidy.unique (holds_inhabited.1 hf) (holds_inhabited.1 hf') }
    rw [hfiles', mem_files]
    simp only [holds_inhabited]
    constructor
    · rintro (⟨⟨id, hf⟩, hnot⟩ | hmem)
      · exact ⟨id, h.stays hf hnot⟩
      · cases hid : core.moduleFor? file with
        | none => exact h.placed hmem hid
        | some id => exact ⟨id, h.stays ((holds_modulesOf hc).2 hid) (hdisjoint file hmem)⟩
    · rintro ⟨id, hf⟩
      exact (h.only hf).imp_left fun ⟨hf, hnot⟩ => ⟨⟨id, hf⟩, hnot⟩
  stays := fun hf hnot => holds_inhabited.2 (h.stays hf hnot)
  same := fun hremoves hadds => get?_inhabited_eq hd (h.same hremoves fun file hmem hnew hf =>
    hadds file hmem hnew (holds_inhabited.2 hf))
  unaffected := fun hid => get?_inhabited_eq hd (h.same (fun _ hmem hf => hid (h.removed hmem hf))
    fun _ hmem hnew hf => hid (h.added hmem hnew hf))
  removed := h.removed
  modified := by
    intro id file hmem hf
    have hfile := holds_inhabited.1 hf
    cases hid : core.moduleFor? file with
    | none => exact h.added hmem hid hfile
    | some id' =>
      -- the file is still in the module that it was in
      obtain rfl := h.tidy.unique hfile (h.stays ((holds_modulesOf hc).2 hid) (hdisjoint file hmem))
      exact h.kept hmem hid

theorem regrouped_after (hc : core.Consistent) {files : List String} (hd : (modulesOf core).Divides files)
    (c : ChangeSet) (hdisjoint : ∀ file ∈ c.modified.keys, file ∉ c.removed.keys) (importers : List String) :
    Regrouped core c (after core c importers) :=
  ((moved_foldl hc hd c).foldl_touch importers).regrouped hc hd hdisjoint

/-- Where no file comes or goes the modules stay as they are. -/
theorem Regrouped.modules_eq (hc : core.Consistent) {c : ChangeSet} {m : Membership} (h : Regrouped core c m)
    (hmodified : ∀ file ∈ c.modified.keys, file ∈ (modulesOf core).files) (hremoved : ∀ file, file ∉ c.removed.keys) :
    m.modules = modulesOf core := by
  apply Dict.ext_get?
  intro id
  apply h.same
  · intro file hfile
    exact absurd hfile (hremoved file)
  · intro file hfile hnew
    obtain ⟨id', hholds⟩ := mem_files.1 (hmodified file hfile)
    cases hnew.symm.trans ((holds_modulesOf hc).1 hholds)

end CodeIndex.Update.Membership
