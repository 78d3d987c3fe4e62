import CodeIndex.Proofs.Dict
import CodeIndex.Proofs.ModuleId
import CodeIndex.Proofs.SortedSet
import Mathlib.Data.List.Nodup
import Mathlib.Data.List.Perm.Basic

set_option autoImplicit false

/-!
# Modules divide the files

Grouping, splitting and merging move files between modules and lose none.  What carries this through all of
them is the list of all files, module by module: up to order, every step leaves it as it was.  Ids may collide
at will; files of modules whose ids collide just come together.
-/

namespace CodeIndex.ModuleMap

open scoped List

/-- The module of this id has the file. -/
def Holds (m : ModuleMap) (id file : String) : Prop := ∃ group, m.get? id = some group ∧ file ∈ group

/-- Modules have valid ids, and files in order and each once. -/
structure Proper (m : ModuleMap) : Prop where
  valid : ∀ {id group}, m.get? id = some group → ModuleId.isValid id = true
  inhabited : ∀ {id group}, m.get? id = some group → group ≠ []
  increasing : ∀ {id group}, m.get? id = some group → group.Pairwise (· < ·)

/-- Proper modules, every file of which is one of `files`, and every one of `files` is in one of them alone. -/
structure Divides (m : ModuleMap) (files : List String) : Prop extends Proper m where
  mem_iff : ∀ {file}, file ∈ files ↔ ∃ id, m.Holds id file
  unique : ∀ {file id id'}, m.Holds id file → m.Holds id' file → id = id'

theorem mem_files {m : ModuleMap} {file : String} : file ∈ m.files ↔ ∃ id, m.Holds id file := by
  simp only [files, List.mem_flatten, Dict.mem_values, Holds]
  tauto

/-! ## All files, module by module -/

theorem files_eq_flatMap (m : ModuleMap) : m.files = m.toList.flatMap Prod.snd :=
  List.flatMap_def.symm

theorem files_empty : ModuleMap.files ∅ = [] := rfl

/-- The entry under a key beside all others. -/
theorem toList_perm_erase {α : Type} {d : Dict α} {key : String} {value : α} (h : d.get? key = some value) :
    d.toList.Perm ((key, value) :: (d.erase key).toList) := by
  have hd : d.toList.Nodup := List.Nodup.of_map _ d.nodup_keys
  have he : (d.erase key).toList.Nodup := List.Nodup.of_map _ (d.erase key).nodup_keys
  have hnot : (key, value) ∉ (d.erase key).toList := by
    rw [Dict.mem_toList, Dict.get?_erase]
    simp
  refine (List.perm_ext_iff_of_nodup hd (List.nodup_cons.2 ⟨hnot, he⟩)).2 fun ⟨k, v⟩ => ?_
  rw [List.mem_cons, Dict.mem_toList, Dict.mem_toList, Dict.get?_erase, Prod.mk.injEq]
  by_cases hk : key = k
  · subst hk; simp [h, eq_comm]
  · simp [hk, Ne.symm hk]

theorem files_perm_erase {m : ModuleMap} {id : String} {group : List String} (h : m.get? id = some group) :
    m.files.Perm (group ++ ModuleMap.files (m.erase id)) := by
  rw [files_eq_flatMap, files_eq_flatMap]
  exact (toList_perm_erase h).flatMap_right Prod.snd

theorem erase_insert {α : Type} (d : Dict α) (key : String) (value : α) :
    (d.insert key value).erase key = d.erase key :=
  Dict.ext_get? fun k => by
    simp only [Dict.get?_erase, Dict.get?_insert]
    split <;> rfl

theorem erase_of_get?_eq_none {α : Type} {d : Dict α} {key : String} (h : d.get? key = none) : d.erase key = d :=
  Dict.ext_get? fun k => by
    rw [Dict.get?_erase]
    split
    · next hk => rw [← hk, h]
    · rfl

theorem files_insert (m : ModuleMap) (id : String) (group : List String) :
    (ModuleMap.files (m.insert id group)).Perm (group ++ ModuleMap.files (m.erase id)) := by
  have h : (m.insert id group).get? id = some group := by rw [Dict.get?_insert, if_pos rfl]
  simpa only [erase_insert] using files_perm_erase h

theorem files_merge {m : ModuleMap} (id : String) {group : List String} (h : (m.files ++ group).Nodup) :
    (m.merge id group).files.Perm (m.files ++ group) := by
  unfold merge
  split
  · next present hp =>
    have hold := files_perm_erase hp
    have hboth : (present ++ group).Nodup := by
      have hall : (present ++ ModuleMap.files (m.erase id) ++ group).Nodup := (hold.append_right group).nodup_iff.1 h
      exact hall.sublist ((List.sublist_append_left _ _).append_right group)
    calc
      _ ~ Text.sortedSet (present ++ group) ++ ModuleMap.files (m.erase id) := files_insert m id _
      _ ~ present ++ group ++ ModuleMap.files (m.erase id) := (Text.sortedSet_perm hboth).append_right _
      _ ~ present ++ ModuleMap.files (m.erase id) ++ group := by
        rw [List.append_assoc, List.append_assoc]
        exact List.perm_append_comm.append_left present
      _ ~ m.files ++ group := (hold.append_right group).symm
  · next hp =>
    have := files_insert m id group
    rw [erase_of_get?_eq_none hp] at this
    exact this.trans List.perm_append_comm

theorem files_mergeAll {m : ModuleMap} {parts : List (String × List String)}
    (h : (m.files ++ parts.flatMap Prod.snd).Nodup) :
    (m.mergeAll parts).files.Perm (m.files ++ parts.flatMap Prod.snd) := by
  induction parts generalizing m with
  | nil => simp [mergeAll]
  | cons part rest ih =>
    rw [List.flatMap_cons, ← List.append_assoc] at h ⊢
    have hpart := files_merge part.1 (h.sublist (List.sublist_append_left _ _))
    exact (ih ((hpart.append_right _).nodup_iff.2 h)).trans (hpart.append_right _)

/-! ## Proper modules -/

theorem Proper.empty : Proper ∅ := ⟨by simp, by simp, by simp⟩

theorem Proper.insert {m : ModuleMap} (hm : m.Proper) {id : String} {group : List String}
    (hid : ModuleId.isValid id = true) (hne : group ≠ []) (hinc : group.Pairwise (· < ·)) :
    Proper (m.insert id group) := by
  have hcases : ∀ {i g}, (m.insert id group).get? i = some g → (i = id ∧ g = group) ∨ m.get? i = some g := by
    intro i g hg
    rw [Dict.get?_insert] at hg
    split at hg
    · next he => exact .inl ⟨he.symm, (Option.some.inj hg).symm⟩
    · exact .inr hg
  refine ⟨fun hg => ?_, fun hg => ?_, fun hg => ?_⟩
  · exact (hcases hg).elim (fun h => h.1 ▸ hid) hm.valid
  · exact (hcases hg).elim (fun h => h.2 ▸ hne) hm.inhabited
  · exact (hcases hg).elim (fun h => h.2 ▸ hinc) hm.increasing

theorem Proper.erase {m : ModuleMap} (hm : m.Proper) (id : String) : Proper (m.erase id) := by
  have hget : ∀ {i g}, (m.erase id).get? i = some g → m.get? i = some g := by
    intro i g hg
    rw [Dict.get?_erase] at hg
    split at hg
    · cases hg
    · exact hg
  exact ⟨fun hg => hm.valid (hget hg), fun hg => hm.inhabited (hget hg), fun hg => hm.increasing (hget hg)⟩

theorem Proper.merge {m : ModuleMap} (hm : m.Proper) {id : String} {group : List String}
    (hid : ModuleId.isValid id = true) (hne : group ≠ []) (hinc : group.Pairwise (· < ·)) :
    (m.merge id group).Proper := by
  unfold ModuleMap.merge
  split
  · exact hm.insert hid (by simp [Text.sortedSet_eq_nil, hne]) (Text.pairwise_sortedSet _)
  · exact hm.insert hid hne hinc

theorem Proper.mergeAll {m parts : ModuleMap} (hm : m.Proper) (hparts : parts.Proper) :
    (m.mergeAll parts.toList).Proper := by
  have hfold : ∀ (entries : List (String × List String)) (m : ModuleMap), m.Proper →
      (∀ e ∈ entries, e ∈ parts.toList) → (m.mergeAll entries).Proper := by
    intro entries
    induction entries with
    | nil => exact fun m hm _ => hm
    | cons e rest ih =>
      intro m hm hmem
      have he := Dict.mem_toList'.1 (hmem e (by simp))
      exact ih _ (hm.merge (hparts.valid he) (hparts.inhabited he) (hparts.increasing he))
        fun e' he' => hmem e' (List.mem_cons_of_mem _ he')
  exact hfold parts.toList m hm fun _ h => h

/-- In modules that share no file, all files together have no repetition. -/
theorem nodup_files {m : ModuleMap} (hg : ∀ {id group}, m.get? id = some group → group.Nodup)
    (hu : ∀ {file id id'}, m.Holds id file → m.Holds id' file → id = id') : m.files.Nodup := by
  rw [files_eq_flatMap, List.nodup_flatMap]
  refine ⟨fun e he => hg (Dict.mem_toList'.1 he), ?_⟩
  refine List.Pairwise.imp_of_mem ?_ m.ascending
  intro e e' he he' hlt file hfile hfile'
  have hsame := hu ⟨e.2, Dict.mem_toList'.1 he, hfile⟩ ⟨e'.2, Dict.mem_toList'.1 he', hfile'⟩
  exact String.ne_of_lt hlt hsame

/-- Where all files together have no repetition, no file is in two modules. -/
theorem holds_unique {m : ModuleMap} (h : m.files.Nodup) {file id id' : String} (hi : m.Holds id file)
    (hi' : m.Holds id' file) : id = id' := by
  by_contra hne
  obtain ⟨group, hg, hmem⟩ := hi
  obtain ⟨group', hg', hmem'⟩ := hi'
  have hnodup := (files_perm_erase hg).nodup_iff.1 h
  have hother : file ∈ ModuleMap.files (m.erase id) :=
    mem_files.2 ⟨id', group', by rw [Dict.get?_erase, if_neg hne, hg'], hmem'⟩
  exact (List.nodup_append.1 hnodup).2.2 file hmem file hother rfl

/-- Proper modules whose files are, up to order, those of a list without repetition. -/
theorem Proper.divides {m : ModuleMap} (hm : m.Proper) {files : List String} (hp : m.files.Perm files)
    (hn : files.Nodup) : m.Divides files :=
  { hm with
    mem_iff := hp.mem_iff.symm.trans mem_files
    unique := holds_unique (hp.nodup_iff.2 hn) }

theorem Divides.nodup {m : ModuleMap} {files : List String} (h : m.Divides files) : m.files.Nodup :=
  nodup_files (fun hg => Text.nodup_of_pairwise_lt (h.increasing hg)) h.unique

/-- The map from files to modules is the inverse of modules that share no file. -/
theorem get?_moduleOfFile {m : ModuleMap} (h : m.files.Nodup) {file id : String} :
    m.moduleOfFile.get? file = some id ↔ m.Holds id file := by
  have hentry : ∀ i, (file, i) ∈ m.toList.flatMap (fun e => e.2.map fun f => (f, e.1)) ↔ m.Holds i file := by
    intro i
    simp only [List.mem_flatMap, List.mem_map, Prod.mk.injEq, Prod.exists, Holds]
    constructor
    · rintro ⟨k, group, he, f, hf, rfl, rfl⟩
      exact ⟨group, Dict.mem_toList.1 he, hf⟩
    · rintro ⟨group, hg, hf⟩
      exact ⟨i, group, Dict.mem_toList.2 hg, file, hf, rfl, rfl⟩
  constructor
  · intro hf
    exact (hentry id).1 (Dict.mem_of_get?_ofList hf)
  · intro hf
    exact Dict.get?_ofList_eq_some (fun i hi => holds_unique h ((hentry i).1 hi) hf) ((hentry id).2 hf)

end CodeIndex.ModuleMap

namespace CodeIndex.Splitting

open ModuleMap

/-! ## Grouping -/

/-- What grouping by a key that some files do not have comes to. -/
theorem get?_foldl_group (key : String → Option String) (files : List String) (m : ModuleMap) (id : String) :
    (files.foldl (fun m file =>
      match key file with
      | some k => Dict.update m k [] (· ++ [file])
      | none => m) m).get? id =
      if files.filter (fun file => key file = some id) = [] then m.get? id
      else some ((m.get? id).getD [] ++ files.filter fun file => key file = some id) := by
  induction files generalizing m with
  | nil => simp
  | cons file rest ih =>
    rw [List.foldl_cons, ih]
    cases hk : key file with
    | none => simp [hk]
    | some k =>
      rw [Dict.get?_update]
      by_cases he : k = id
      · subst he
        by_cases hr : rest.filter (fun file => key file = some k) = [] <;> simp [hk, hr]
      · simp [hk, he]

theorem get?_buckets (shared : Nat) (files : List String) (child : String) :
    (buckets shared files).get? child =
      if files.filter (fun file => childOf? shared file = some child) = [] then none
      else some (files.filter fun file => childOf? shared file = some child) := by
  have h := get?_foldl_group (childOf? shared) files ∅ child
  rw [Dict.get?_emptyCollection, Option.getD_none, List.nil_append] at h
  exact h

theorem get?_byTop (files : List String) (id : String) :
    (byTop files).get? id =
      if files.filter (fun file => topId file = id) = [] then none
      else some (Text.sortedSet (files.filter fun file => topId file = id)) := by
  have h := get?_foldl_group (fun file => some (topId file)) files ∅ id
  simp only [Option.some.injEq] at h
  rw [byTop, Dict.get?_map, h]
  split <;> simp

theorem holds_byTop {files : List String} {id file : String} :
    (byTop files).Holds id file ↔ file ∈ files ∧ topId file = id := by
  unfold Holds
  rw [get?_byTop]
  split
  · next h =>
    rw [List.filter_eq_nil_iff] at h
    simpa using h file
  · simp [Text.mem_sortedSet]

theorem proper_byTop (files : List String) : (byTop files).Proper := by
  have hget : ∀ {id group}, (byTop files).get? id = some group →
      group = Text.sortedSet (files.filter fun file => topId file = id) ∧ group ≠ [] := by
    intro id group hg
    rw [get?_byTop] at hg
    split at hg
    · cases hg
    · next hne =>
      cases hg
      exact ⟨rfl, by rwa [ne_eq, Text.sortedSet_eq_nil]⟩
  refine ⟨fun hg => ?_, fun hg => (hget hg).2, fun hg => (hget hg).1 ▸ Text.pairwise_sortedSet _⟩
  obtain ⟨file, hfile⟩ := List.exists_mem_of_ne_nil _ (hget hg).2
  obtain ⟨-, rfl⟩ := holds_byTop.1 ⟨_, hg, hfile⟩
  exact ModuleId.isValid_topId file

theorem divides_byTop (files : List String) : (byTop files).Divides files :=
  { proper_byTop files with
    mem_iff := by simp [holds_byTop]
    unique := fun h h' => (holds_byTop.1 h).2.symm.trans (holds_byTop.1 h').2 }

/-- Only which files there are counts for the grouping. -/
theorem byTop_congr {xs ys : List String} (h : ∀ file, file ∈ xs ↔ file ∈ ys) : byTop xs = byTop ys := by
  refine Dict.ext_get? fun id => ?_
  have hmem : ∀ file, file ∈ xs.filter (fun file => topId file = id) ↔ file ∈ ys.filter fun file => topId file = id := by
    simp [h]
  rw [get?_byTop, get?_byTop, Text.sortedSet_congr hmem]
  simp only [List.eq_nil_iff_forall_not_mem, hmem]

theorem buckets_group {shared : Nat} {files : List String} {child : String} {group : List String}
    (h : (buckets shared files).get? child = some group) :
    group = files.filter (fun file => childOf? shared file = some child) ∧ group ≠ [] := by
  rw [get?_buckets] at h
  split at h
  · cases h
  · next hne => cases h; exact ⟨rfl, hne⟩

theorem holds_buckets {shared : Nat} {files : List String} {child file : String} :
    (buckets shared files).Holds child file ↔ file ∈ files ∧ childOf? shared file = some child := by
  unfold Holds
  rw [get?_buckets]
  split
  · next hnil =>
    rw [List.filter_eq_nil_iff] at hnil
    simpa using hnil file
  · simp

theorem mem_own_append_buckets {shared : Nat} {files : List String} {file : String} :
    file ∈ ownFiles shared files ++ ModuleMap.files (buckets shared files) ↔ file ∈ files := by
  rw [List.mem_append, mem_files]
  simp only [holds_buckets, ownFiles, List.mem_filter, Option.isNone_iff_eq_none]
  cases childOf? shared file <;> simp

/-- Files by their directories, and those that lie in none, are all files. -/
theorem own_append_buckets (shared : Nat) {files : List String} (h : files.Nodup) :
    (ownFiles shared files ++ ModuleMap.files (buckets shared files)).Perm files := by
  have hb : (ModuleMap.files (buckets shared files)).Nodup :=
    nodup_files (fun hg => (buckets_group hg).1 ▸ h.filter _) fun hf hf' =>
      Option.some.inj ((holds_buckets.1 hf).2.symm.trans (holds_buckets.1 hf').2)
  have hall : (ownFiles shared files ++ ModuleMap.files (buckets shared files)).Nodup := by
    refine List.nodup_append.2 ⟨h.filter _, hb, ?_⟩
    rintro file hown _ hbelow rfl
    obtain ⟨child, hchild⟩ := mem_files.1 hbelow
    have hnone : childOf? shared file = none := by simpa using (List.mem_filter.1 hown).2
    rw [(holds_buckets.1 hchild).2] at hnone
    cases hnone
  exact (List.perm_ext_iff_of_nodup hall h).2 fun file => mem_own_append_buckets

/-! ## Splitting -/

/-- Parts of a module: proper, and with its files. -/
structure PartsOf (parts : ModuleMap) (files : List String) : Prop extends Proper parts where
  perm : parts.files.Perm files

theorem partsOf_single {id : String} {files : List String} (hid : ModuleId.isValid id = true) (hne : files ≠ [])
    (hinc : files.Pairwise (· < ·)) : PartsOf ((∅ : ModuleMap).insert id files) files :=
  { Proper.empty.insert hid hne hinc with
    perm := by
      have h := files_insert ∅ id files
      rwa [erase_of_get?_eq_none (Dict.get?_emptyCollection id), files_empty, List.append_nil] at h }

/-- Parts of the buckets, or the buckets themselves, are added to what is there. -/
theorem foldl_buckets {step : ModuleMap → String × List String → ModuleMap} {entries : List (String × List String)}
    (hstep : ∀ (m : ModuleMap) (e), e ∈ entries → m.Proper → (m.files ++ e.2).Nodup →
      (step m e).Proper ∧ (step m e).files.Perm (m.files ++ e.2))
    {m : ModuleMap} (hm : m.Proper) {files : List String} (hn : files.Nodup)
    (hp : (m.files ++ entries.flatMap Prod.snd).Perm files) : PartsOf (entries.foldl step m) files := by
  induction entries generalizing m with
  | nil => exact { hm with perm := by simpa using hp }
  | cons e rest ih =>
    rw [List.flatMap_cons, ← List.append_assoc] at hp
    obtain ⟨hproper, hperm⟩ := hstep m e (by simp) hm
      ((hp.nodup_iff.2 hn).sublist (List.sublist_append_left _ _))
    exact ih (fun m' e' he' => hstep m' e' (List.mem_cons_of_mem _ he')) hproper
      ((hperm.append_right _).trans hp)

/-- The files of a directory itself make a module of their own, if there are any. -/
theorem ownModule_spec {id : String} {own : List String} (hid : ModuleId.isValid id = true)
    (hinc : own.Pairwise (· < ·)) {start : ModuleMap}
    (hstart : start = if own.isEmpty then (∅ : ModuleMap) else ModuleMap.merge ∅ (ownId id) own) :
    start.Proper ∧ start.files.Perm own := by
  subst hstart
  split
  · next hempty =>
    rw [List.isEmpty_iff.1 hempty, files_empty]
    exact ⟨Proper.empty, .refl _⟩
  · next hempty =>
    have hne : own ≠ [] := fun hnil => hempty (List.isEmpty_iff.2 hnil)
    have hown : (ModuleMap.files ∅ ++ own).Nodup := Text.nodup_of_pairwise_lt hinc
    have hfiles := files_merge (ownId id) hown
    rw [files_empty, List.nil_append] at hfiles
    exact ⟨Proper.empty.merge (ModuleId.isValid_ownId hid) hne hinc, hfiles⟩

/-- The parts of a bucket, added to what is there. -/
theorem mergeAll_parts {m parts : ModuleMap} {files : List String} (hm : m.Proper) (hparts : PartsOf parts files)
    (hn : (m.files ++ files).Nodup) :
    (m.mergeAll parts.toList).Proper ∧ (m.mergeAll parts.toList).files.Perm (m.files ++ files) := by
  have hflat := hparts.perm
  rw [files_eq_flatMap] at hflat
  have hfiles := files_mergeAll ((hflat.append_left m.files).nodup_iff.2 hn)
  exact ⟨hm.mergeAll hparts.toProper, hfiles.trans (hflat.append_left _)⟩

theorem split_partsOf (s : Splitting) (levels : Nat) (id : String) (shared : Nat) (files : List String)
    (hid : ModuleId.isValid id = true) (hne : files ≠ []) (hinc : files.Pairwise (· < ·)) :
    PartsOf (s.split levels id shared files) files := by
  induction levels generalizing id shared files with
  | zero => exact partsOf_single hid hne hinc
  | succ levels ih =>
    have hnodup := Text.nodup_of_pairwise_lt hinc
    have hperm := own_append_buckets shared hnodup
    unfold split
    split
    · exact partsOf_single hid hne hinc
    · dsimp only
      split
      · -- the directory is not organised: its files are put together again
        have hsorted := (List.mergeSort_perm (ownFiles shared files ++ ModuleMap.files (buckets shared files))
          (fun a b => decide (a ≤ b))).trans hperm
        have hnil : (ownFiles shared files ++ ModuleMap.files (buckets shared files)).mergeSort
            (fun a b => decide (a ≤ b)) ≠ [] := by
          intro h
          rw [h] at hsorted
          exact hne (List.nil_perm.1 hsorted)
        have hparts := partsOf_single hid hnil (Text.pairwise_lt_mergeSort (hperm.nodup_iff.2 hnodup))
        exact { hparts with perm := hparts.perm.trans hsorted }
      · obtain ⟨hproper, hown⟩ := ownModule_spec hid (hinc.filter fun file => (childOf? shared file).isNone) rfl
        have hall := (hown.append_right (ModuleMap.files (buckets shared files))).trans hperm
        rw [files_eq_flatMap (buckets shared files)] at hall
        refine foldl_buckets (fun m e he hm hn => ?_) hproper hnodup hall
        obtain ⟨hgroup, hgne⟩ := buckets_group (Dict.mem_toList'.1 he)
        have hginc : e.2.Pairwise (· < ·) := hgroup ▸ hinc.filter _
        have hchild := ModuleId.isValid_childId hid e.1
        split
        · exact mergeAll_parts hm (ih (childId id e.1) (shared + 1) e.2 hchild hgne hginc) hn
        · exact ⟨hm.merge hchild hgne hginc, files_merge _ hn⟩

/-- Splitting large modules one after another leaves the files as they were. -/
theorem foldl_split (s : Splitting) (ids : List String) (m : ModuleMap) (hm : m.Proper) (hn : m.files.Nodup) :
    let split := ids.foldl (fun m id =>
      match m.get? id with
      | some group => ModuleMap.mergeAll (m.erase id) (s.split s.maxDepth id 1 group).toList
      | none => m) m
    split.Proper ∧ split.files.Perm m.files := by
  induction ids generalizing m with
  | nil => exact ⟨hm, .refl _⟩
  | cons id rest ih =>
    rw [List.foldl_cons]
    cases hg : m.get? id with
    | none => exact ih m hm hn
    | some group =>
      have hparts := s.split_partsOf s.maxDepth id 1 group (hm.valid hg) (hm.inhabited hg) (hm.increasing hg)
      have hall : (ModuleMap.files (m.erase id) ++ group).Perm m.files :=
        List.perm_append_comm.trans (files_perm_erase hg).symm
      obtain ⟨hproper, hfiles⟩ := mergeAll_parts (hm.erase id) hparts (hall.nodup_iff.2 hn)
      obtain ⟨hrest, hperm⟩ := ih _ hproper ((hfiles.trans hall).nodup_iff.2 hn)
      exact ⟨hrest, hperm.trans (hfiles.trans hall)⟩

theorem divides_modules (s : Splitting) (files : List String) : (s.modules files).Divides files := by
  have htop := divides_byTop files
  unfold modules
  dsimp only
  split
  · obtain ⟨hproper, hperm⟩ := s.foldl_split (largeIds (byTop files) s.threshold) _ htop.toProper htop.nodup
    have hdiv := hproper.divides hperm htop.nodup
    exact { hdiv with mem_iff := htop.mem_iff.trans (mem_files.symm.trans hdiv.mem_iff) }
  · exact htop

theorem modules_congr (s : Splitting) {xs ys : List String} (h : ∀ file, file ∈ xs ↔ file ∈ ys) :
    s.modules xs = s.modules ys := by
  unfold modules
  rw [byTop_congr h]

/-- Whatever the ids collide in, the modules of a project divide its files: each distinct path is once in one
    module, and no other path is in any.  The modules depend on the set of the paths alone, and the map from
    files to modules is their inverse. -/
theorem modules_partition (s : Splitting) (files : List String) :
    (∀ file, file ∈ files → ∃! id, (s.modules files).Holds id file) ∧
      (∀ id group, (s.modules files).get? id = some group →
        ModuleId.isValid id = true ∧ group ≠ [] ∧ group.Pairwise (· < ·) ∧
          ∀ file ∈ group, file ∈ files ∧ group.count file = 1) ∧
      (∀ other : List String, (∀ file, file ∈ other ↔ file ∈ files) → s.modules other = s.modules files) ∧
      ∀ file id, (s.modules files).moduleOfFile.get? file = some id ↔ (s.modules files).Holds id file := by
  have hdiv := s.divides_modules files
  refine ⟨fun file hfile => ?_, fun id group hg => ?_, fun other h => s.modules_congr h, fun file id => ?_⟩
  · obtain ⟨id, hid⟩ := hdiv.mem_iff.1 hfile
    exact ⟨id, hid, fun id' hid' => hdiv.unique hid' hid⟩
  · refine ⟨hdiv.valid hg, hdiv.inhabited hg, hdiv.increasing hg, fun file hfile => ⟨hdiv.mem_iff.2 ⟨id, group, hg, hfile⟩, ?_⟩⟩
    exact List.count_eq_one_of_mem (Text.nodup_of_pairwise_lt (hdiv.increasing hg)) hfile
  · exact get?_moduleOfFile hdiv.nodup

end CodeIndex.Splitting
