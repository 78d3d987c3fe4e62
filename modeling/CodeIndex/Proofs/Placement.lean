import CodeIndex.Proofs.Folders

set_option autoImplicit false

/-!
# Where a file is placed is where a build puts it

A build divides files from the top down, while the module for a new file is looked for from its directory up.  The
two meet when no directory below the one that a file's module is named for has a module, and the directory of a file
that is among its directory's own has none.  Splitting keeps to this, as long as the ids tell places apart.
-/

namespace CodeIndex

open Path ModuleId

namespace ModuleMap

/-! ## Files of modules that are put together -/

theorem holds_single {id group file} {other : String} :
    Holds ((∅ : ModuleMap).insert id group) other file ↔ other = id ∧ file ∈ group := by
  unfold Holds
  rw [Dict.get?_insert]
  by_cases h : id = other <;> simp [h, eq_comm]

theorem holds_erase {m : ModuleMap} {id other file : String} :
    Holds (m.erase id) other file ↔ other ≠ id ∧ m.Holds other file := by
  unfold Holds
  rw [Dict.get?_erase]
  by_cases h : id = other <;> simp [h, eq_comm]

theorem holds_merge {m : ModuleMap} {id other file : String} {group : List String} :
    (m.merge id group).Holds other file ↔ m.Holds other file ∨ other = id ∧ file ∈ group := by
  unfold merge Holds
  split
  · next present hp =>
    by_cases h : id = other
    · subst h
      simp [Dict.get?_insert, hp, Text.mem_sortedSet]
    · simp [Dict.get?_insert, h, Ne.symm h]
  · next hp =>
    by_cases h : id = other
    · subst h
      simp [Dict.get?_insert, hp]
    · simp [Dict.get?_insert, h, Ne.symm h]

/-- Where every step adds some modules, all of them are there in the end. -/
theorem holds_foldl {α : Type} {step : ModuleMap → α → ModuleMap} (part : α → ModuleMap)
    (hstep : ∀ m a {id file}, (step m a).Holds id file ↔ m.Holds id file ∨ (part a).Holds id file)
    (entries : List α) (m : ModuleMap) {id file : String} :
    (entries.foldl step m).Holds id file ↔ m.Holds id file ∨ ∃ a ∈ entries, (part a).Holds id file := by
  induction entries generalizing m with
  | nil => simp
  | cons a rest ih =>
    rw [List.foldl_cons, ih, hstep]
    simp [or_assoc]

theorem holds_mergeAll {m parts : ModuleMap} {id file : String} :
    (m.mergeAll parts.toList).Holds id file ↔ m.Holds id file ∨ parts.Holds id file := by
  have hstep : ∀ (m : ModuleMap) (e : String × List String) {id file},
      (m.merge e.1 e.2).Holds id file ↔ m.Holds id file ∨ Holds ((∅ : ModuleMap).insert e.1 e.2) id file := by
    simp only [holds_merge, holds_single, implies_true]
  rw [mergeAll, holds_foldl _ hstep]
  refine or_congr_right ⟨?_, ?_⟩
  · rintro ⟨e, he, hfile⟩
    obtain ⟨rfl, hmem⟩ := holds_single.1 hfile
    exact ⟨e.2, Dict.mem_toList'.1 he, hmem⟩
  · rintro ⟨group, hget, hmem⟩
    exact ⟨(id, group), Dict.mem_toList.2 hget, holds_single.2 ⟨rfl, hmem⟩⟩

theorem Proper.contains_iff {m : ModuleMap} (h : m.Proper) {id : String} :
    m.contains id = true ↔ ∃ file, m.Holds id file := by
  rw [Dict.contains_iff]
  constructor
  · rintro ⟨group, hget⟩
    obtain ⟨file, hfile⟩ := List.exists_mem_of_ne_nil _ (h.inhabited hget)
    exact ⟨file, group, hget, hfile⟩
  · rintro ⟨file, group, hget, -⟩
    exact ⟨group, hget⟩

/-! ## Modules that are found from below -/

/-- There is a module with the id of a place. -/
def Held (m : ModuleMap) (path : List String) : Prop := ∃ file, m.Holds (joined path) file

/-- The module of a file has the id of one of its directories, at least so many levels down, and nothing below that
    is held; or the file is one of its directory's own, others lie below, and the directory is not held. -/
inductive Found (m : ModuleMap) (files : List String) (shared : Nat) (id file : String) : Prop
  | above (depth : Nat) (hge : shared ≤ depth) (hle : depth ≤ (folders file).length)
      (hid : id = joined ((folders file).take depth))
      (deeper : ∀ k, depth < k → k ≤ (folders file).length → ∀ path ∈ lookups file k, ¬ m.Held path)
  | own (hge : shared ≤ (folders file).length) (hid : id = joined (folders file ++ [rootId]))
      (below : HasBelow files file) (alone : ¬ m.Held (folders file))

variable {m m' : ModuleMap} {files : List String} {shared : Nat} {id file : String}

theorem Found.le_length (h : m.Found files shared id file) : shared ≤ (folders file).length := by
  cases h with
  | above depth hge hle => exact hge.trans hle
  | own hge => exact hge

/-- The id is that of a place as far down, which shares its first directories with the file. -/
theorem Found.place (h : m.Found files shared id file) (hfile : file ∈ files) (hpos : 0 < shared) :
    ∃ path ∈ places files, id = joined path ∧ shared ≤ path.length ∧
      ∀ i < shared, path[i]? = (folders file)[i]? := by
  obtain ⟨depth, path, hge, hle, hlookup, hid⟩ : ∃ depth path, shared ≤ depth ∧ depth ≤ (folders file).length ∧
      path ∈ lookups file depth ∧ id = joined path := by
    cases h with
    | above depth hge hle hid => exact ⟨depth, _, hge, hle, by simp [lookups], hid⟩
    | own hge hid => exact ⟨_, _, hge, le_rfl, by simp [lookups], hid⟩
  obtain ⟨hpath, hlen, hagree⟩ := lookups_spec hfile (by omega) hle hlookup
  exact ⟨path, hpath, hid, hge.trans hlen, fun i hi => hagree i (by omega)⟩

/-- A file is found among other modules too, if these hold no more of what is looked for before its own. -/
theorem Found.widen {shared' : Nat} (h : m.Found files shared id file) (hfile : file ∈ files) (hpos : 0 < shared)
    (hge : shared' ≤ shared)
    (hdeep : ∀ path ∈ places files, shared < path.length → (∀ i < shared, path[i]? = (folders file)[i]?) →
      m'.Held path → m.Held path)
    (hown : HasBelow files file → m'.Held (folders file) → m.Held (folders file)) :
    m'.Found files shared' id file := by
  cases h with
  | above depth hd hle hid deeper =>
    refine .above depth (hge.trans hd) hle hid fun k hk hkle path hlookup hheld => deeper k hk hkle path hlookup ?_
    obtain ⟨hpath, hlen, hagree⟩ := lookups_spec hfile (by omega) hkle hlookup
    exact hdeep path hpath (by omega) (fun i hi => hagree i (by omega)) hheld
  | own hd hid below alone => exact .own (hge.trans hd) hid below fun hheld => alone (hown below hheld)

/-- A file is found among other modules, if these hold no more in its top directory. -/
theorem Found.congr_top (h : m.Found files 1 id file) (hfile : file ∈ files)
    (hsame : ∀ path ∈ places files, path[0]? = (folders file)[0]? → m'.Held path → m.Held path) :
    m'.Found files 1 id file :=
  have hdir := folders_mem_directories hfile (List.length_pos_iff.1 h.le_length)
  h.widen hfile one_pos le_rfl (fun path hpath _ hagree => hsame path hpath (hagree 0 one_pos))
    fun _ => hsame _ (List.mem_append_left _ hdir) rfl

/-- A file is found at a depth below which nothing is held. -/
theorem Found.of_depth (hfile : file ∈ files) (hpos : 0 < shared) (hle : shared ≤ (folders file).length)
    (hid : id = joined ((folders file).take shared)) (hno : ∀ path ∈ places files, shared < path.length → ¬ m.Held path) :
    m.Found files shared id file := by
  refine .above shared le_rfl hle hid fun k hk hkle path hlookup => ?_
  obtain ⟨hpath, hlen, -⟩ := lookups_spec hfile (by omega) hkle hlookup
  exact hno path hpath (by omega)

end ModuleMap

namespace Splitting

open ModuleMap

/-! ## Splitting -/

theorem split_of_small {s : Splitting} {files : List String} (h : files.length < s.threshold) (levels : Nat)
    (id : String) (shared : Nat) : s.split levels id shared files = (∅ : ModuleMap).insert id files := by
  cases levels with
  | zero => rfl
  | succ levels => rw [split, if_pos h]

theorem holds_start {id : String} {own : List String} {other file : String} :
    Holds (if own.isEmpty then (∅ : ModuleMap) else ModuleMap.merge ∅ (ownId id) own) other file ↔
      other = ownId id ∧ file ∈ own := by
  have hempty : ¬ Holds ∅ other file := by
    rintro ⟨group, hget, -⟩
    cases hget
  split
  · next h => simp [List.isEmpty_iff.1 h, hempty]
  · rw [holds_merge]
    simp [hempty]

theorem exists_of_buckets {shared : Nat} {files : List String} (h : (buckets shared files).isEmpty ≠ true) :
    ∃ file ∈ files, shared < (folders file).length := by
  rw [ne_eq, Dict.isEmpty_iff] at h
  push Not at h
  obtain ⟨child, hchild⟩ := h
  obtain ⟨group, hget⟩ := Option.ne_none_iff_exists'.1 hchild
  obtain ⟨file, hfile⟩ := List.exists_mem_of_ne_nil _ (buckets_group hget).2
  obtain ⟨hmem, hsome⟩ := holds_buckets.1 ⟨group, hget, hfile⟩
  rw [childOf?_eq] at hsome
  exact ⟨file, hmem, (List.getElem?_eq_some_iff.1 hsome).1⟩

theorem mem_ownFiles {shared : Nat} {files : List String} {file : String} :
    file ∈ ownFiles shared files ↔ file ∈ files ∧ (folders file).length ≤ shared := by
  rw [ownFiles, List.mem_filter, childOf?_eq, Option.isNone_iff_eq_none, List.getElem?_eq_none_iff]

/-- What makes a module be divided: levels are left, it has enough files, some of them lie in directories, and these look
    organised or need not. -/
def IsDivided (s : Splitting) (levels shared : Nat) (files : List String) : Prop :=
  0 < levels ∧ s.threshold ≤ files.length ∧ (buckets shared files).isEmpty = false ∧
    (s.looksOrganised (buckets shared files) = true ∨ s.force = true)

/-- A module that is not divided stays as it is. -/
theorem holds_split_whole {s : Splitting} {levels shared : Nat} {files : List String} (h : ¬ s.IsDivided levels shared files)
    (id : String) {other file : String} : (s.split levels id shared files).Holds other file ↔ other = id ∧ file ∈ files := by
  cases levels with
  | zero => exact holds_single
  | succ rest =>
    rw [split]
    split
    · exact holds_single
    · next hlarge =>
      have hwhole : (buckets shared files).isEmpty || !(s.looksOrganised (buckets shared files) || s.force) := by
        by_contra hdivide
        rw [Bool.or_eq_true, not_or, Bool.not_eq_true, Bool.not_eq_true, Bool.not_eq_false'] at hdivide
        exact h ⟨Nat.succ_pos rest, by omega, hdivide.1, Bool.or_eq_true_iff.1 hdivide.2⟩
      dsimp only
      rw [if_pos hwhole, holds_single, List.mem_mergeSort, mem_own_append_buckets]

/-- When a module is divided, its own files become a module and each of its directories is split in turn. -/
theorem holds_split_divided {s : Splitting} {rest shared : Nat} {files : List String}
    (h : s.IsDivided (rest + 1) shared files) (id : String) {other file : String} :
    (s.split (rest + 1) id shared files).Holds other file ↔
      (other = ownId id ∧ file ∈ files ∧ (folders file).length ≤ shared) ∨
        ∃ child group, (buckets shared files).get? child = some group ∧
          (s.split rest (childId id child) (shared + 1) group).Holds other file := by
  obtain ⟨-, hlarge, hsome, horganised⟩ := h
  have hstep : ∀ (m : ModuleMap) (e : String × List String) {other file},
      Holds (if s.threshold ≤ e.2.length then
        m.mergeAll (s.split rest (childId id e.1) (shared + 1) e.2).toList else m.merge (childId id e.1) e.2) other file ↔
        m.Holds other file ∨ (s.split rest (childId id e.1) (shared + 1) e.2).Holds other file := by
    intro m e other file
    split
    · exact holds_mergeAll
    · next hsmall => rw [split_of_small (by omega), holds_merge, holds_single]
  rw [split, if_neg (by omega)]
  dsimp only
  have horganised := Bool.or_eq_true_iff.2 horganised
  rw [if_neg (by rw [hsome, horganised]; decide), holds_foldl _ hstep, holds_start, mem_ownFiles]
  refine or_congr_right ⟨?_, ?_⟩
  · rintro ⟨e, he, hfile⟩
    exact ⟨e.1, e.2, Dict.mem_toList'.1 he, hfile⟩
  · rintro ⟨child, group, hget, hfile⟩
    exact ⟨(child, group), Dict.mem_toList.2 hget, hfile⟩

/-- A module stays as it is, or its own files become a module and each of its directories is split in turn. -/
theorem split_cases (s : Splitting) (levels : Nat) (id : String) (shared : Nat) (files : List String) :
    (∀ {other file}, (s.split levels id shared files).Holds other file ↔ other = id ∧ file ∈ files) ∨
      ∃ rest, levels = rest + 1 ∧ (∃ file ∈ files, shared < (folders file).length) ∧
        ∀ {other file}, (s.split levels id shared files).Holds other file ↔
          (other = ownId id ∧ file ∈ files ∧ (folders file).length ≤ shared) ∨
            ∃ child group, (buckets shared files).get? child = some group ∧
              (s.split rest (childId id child) (shared + 1) group).Holds other file := by
  by_cases hdivided : s.IsDivided levels shared files
  · obtain ⟨rest, rfl⟩ : ∃ rest, levels = rest + 1 := ⟨levels - 1, by have := hdivided.1; omega⟩
    exact .inr ⟨rest, rfl, exists_of_buckets (by simp [hdivided.2.2.1]), holds_split_divided hdivided id⟩
  · exact .inl (holds_split_whole hdivided id)

/-! ## What splitting keeps -/

variable {all : List String}

/-- Where an id is that of a directory, no other place has it but as far down. -/
theorem length_of_joined (h : Unambiguous all) {path : List String} (hpath : path ∈ places all) {file : String}
    (hfile : file ∈ all) {depth : Nat} (hpos : 0 < depth) (hdepth : depth ≤ (folders file).length)
    (heq : joined path = joined ((folders file).take depth)) : path.length = depth := by
  have hlen := h.length_eq hpath (List.mem_append_left _ (take_mem_directories hfile hpos hdepth)) heq
  rw [hlen, List.length_take]
  omega

/-- The files share so many directories, and these have the id. -/
def Share (all : List String) (shared : Nat) (id : String) (files : List String) : Prop :=
  ∀ file ∈ files, file ∈ all ∧ shared ≤ (folders file).length ∧ joined ((folders file).take shared) = id

variable {shared : Nat} {id : String} {files : List String}

theorem found_single (h : Unambiguous all) (hpos : 0 < shared) (hshare : Share all shared id files) {m : ModuleMap}
    (hm : ∀ {other file}, m.Holds other file → other = id) {file : String} (hfile : file ∈ files) :
    m.Found all shared id file := by
  obtain ⟨hall, hle, hid⟩ := hshare file hfile
  refine .of_depth hall hpos hle hid.symm ?_
  rintro path hpath hlen ⟨other, hother⟩
  have := length_of_joined h hpath hall hpos hle ((hm hother).trans hid.symm)
  omega

theorem share_bucket (hpos : 0 < shared) (hshare : Share all shared id files) {child : String} {group : List String}
    (hget : (buckets shared files).get? child = some group) : Share all (shared + 1) (childId id child) group := by
  intro file hfile
  obtain ⟨hmem, hchild⟩ := holds_buckets.1 ⟨group, hget, hfile⟩
  obtain ⟨hall, hle, rfl⟩ := hshare file hmem
  rw [childOf?_eq] at hchild
  obtain ⟨hlt, -⟩ := List.getElem?_eq_some_iff.1 hchild
  refine ⟨hall, hlt, ?_⟩
  rw [List.take_add_one, hchild, Option.toList_some, joined_append_singleton (take_ne_nil hpos hle)]

section Divided

/-! A module that is divided: into its own files, and the parts of each of its directories. -/

variable {m : ModuleMap} {part : String → List String → ModuleMap} (h : Unambiguous all) (hpos : 0 < shared)
  (hshare : Share all shared id files)
  (hparts : ∀ {other file}, m.Holds other file ↔
    (other = ownId id ∧ file ∈ files ∧ (folders file).length ≤ shared) ∨
      ∃ child group, (buckets shared files).get? child = some group ∧ (part child group).Holds other file)
  (hfound : ∀ {child group other file}, (buckets shared files).get? child = some group →
    (part child group).Holds other file → file ∈ group ∧ (part child group).Found all (shared + 1) other file)
include h hpos hshare hparts hfound

/-- A place in one of the directories is held by no other part than that directory's. -/
theorem held_divided {path : List String} (hpath : path ∈ places all) (hheld : m.Held path) :
    (joined path = ownId id ∧ ∃ file ∈ files, (folders file).length ≤ shared) ∨
      shared < path.length ∧ ∀ child group, path[shared]? = some child →
        (buckets shared files).get? child = some group → (part child group).Held path := by
  obtain ⟨file, hfile⟩ := hheld
  rcases hparts.1 hfile with ⟨hown, hmem, hle⟩ | ⟨child, group, hget, hpart⟩
  · exact .inl ⟨hown, file, hmem, hle⟩
  · obtain ⟨hgroup, hf⟩ := hfound hget hpart
    obtain ⟨hmem, hchild⟩ := holds_buckets.1 ⟨group, hget, hgroup⟩
    -- the file's module is named for a place in its own directory, and places of one id lie in one directory
    obtain ⟨path', hpath', heq, hlen, hagree⟩ := hf.place (hshare file hmem).1 (by omega)
    rw [childOf?_eq, ← hagree shared (by omega), ← h.getElem?_eq hpath hpath' heq hpos] at hchild
    refine .inr ⟨?_, fun child' group' hchild' hget' => ?_⟩
    · rw [h.length_eq hpath hpath' heq]
      exact hlen
    · rw [hchild] at hchild'
      cases hchild'
      rw [hget] at hget'
      cases hget'
      exact ⟨file, hpart⟩

theorem found_own (hbelow : ∃ file ∈ files, shared < (folders file).length) {file : String} (hfile : file ∈ files)
    (hle : (folders file).length ≤ shared) : m.Found all shared (ownId id) file := by
  obtain ⟨hall, hge, hid⟩ := hshare file hfile
  obtain ⟨deeper, hdeeper, hlt⟩ := hbelow
  obtain ⟨hall', -, hid'⟩ := hshare deeper hdeeper
  have hlen : (folders file).length = shared := by omega
  have hdir := take_mem_directories hall (by omega : 0 < shared) hge
  rw [← hlen, List.take_length] at hid hdir
  have hne : folders file ≠ [] := List.length_pos_iff.1 (by omega)
  refine .own hge (by rw [← hid, ownId_joined hne]) ⟨(folders deeper).take (shared + 1), ?_, ?_, ?_⟩ fun hheld => ?_
  · exact take_mem_directories hall' (by omega) hlt
  · rw [List.length_take]
    omega
  · rw [hid, hlen, List.take_take, Nat.min_eq_left (by omega), hid']
  · rcases held_divided h hpos hshare hparts hfound (List.mem_append_left _ hdir) hheld with ⟨hown, -⟩ | ⟨hlt, -⟩
    · have := congrArg String.length (hid.symm.trans hown)
      rw [ownId, String.length_append, show "-root".length = 5 from rfl] at this
      omega
    · omega

theorem found_part {child : String} {group : List String} (hget : (buckets shared files).get? child = some group)
    {other file : String} (hheld : (part child group).Holds other file) :
    file ∈ files ∧ m.Found all shared other file := by
  obtain ⟨hgroup, hf⟩ := hfound hget hheld
  obtain ⟨hmem, hchild⟩ := holds_buckets.1 ⟨group, hget, hgroup⟩
  obtain ⟨hall, hge, hid⟩ := hshare file hmem
  rw [childOf?_eq] at hchild
  have hdir := take_mem_directories hall hpos hge
  have hfolders := folders_mem_directories hall (List.length_pos_iff.1 (hpos.trans_le hge))
  refine ⟨hmem, hf.widen hall (Nat.succ_pos _) (Nat.le_succ _) (fun path hpath hlen hagree hpathHeld => ?_)
    fun hbelow hfolderHeld => ?_⟩
  · rcases held_divided h hpos hshare hparts hfound hpath hpathHeld with ⟨hown, -⟩ | ⟨-, hpart⟩
    · -- the module of the own files has an id that is one level down only
      rw [← hid, ownId_joined (take_ne_nil hpos hge)] at hown
      have := h.length_eq hpath (List.mem_append_right _ (List.mem_map_of_mem hdir)) hown
      rw [List.length_append, List.length_take, List.length_singleton] at this
      omega
    · exact hpart child group ((hagree shared (by omega)).trans hchild) hget
  · rcases held_divided h hpos hshare hparts hfound (List.mem_append_left _ hfolders) hfolderHeld with
      ⟨hown, owner, howner, hle⟩ | ⟨-, hpart⟩
    · -- the file's directory would be the one called `root`, and has directories in it
      obtain ⟨hall', hge', hid'⟩ := hshare owner howner
      have hlen' : (folders owner).length = shared := by omega
      rw [← hlen', List.take_length] at hid'
      have hne' : folders owner ≠ [] := List.length_pos_iff.1 (by omega)
      rw [← hid', ownId_joined hne'] at hown
      obtain ⟨path, hpath, hlong, hsame⟩ := hbelow
      have := h.own _ (List.mem_map_of_mem hall) _ (List.mem_map_of_mem hall') hne' hown path hpath hsame
      omega
    · exact hpart child group hchild hget

end Divided

/-- After splitting, files are found as before. -/
theorem split_found (h : Unambiguous all) (s : Splitting) (levels : Nat) (hpos : 0 < shared)
    (hshare : Share all shared id files) {other file : String} (hheld : (s.split levels id shared files).Holds other file) :
    file ∈ files ∧ (s.split levels id shared files).Found all shared other file := by
  -- by induction on the levels: the parts of each directory are found one level further down
  induction levels generalizing id shared files other file with
  | zero =>
    obtain ⟨rfl, hfile⟩ := holds_single.1 hheld
    exact ⟨hfile, found_single h hpos hshare (fun hh => (holds_single.1 hh).1) hfile⟩
  | succ levels ih =>
    rcases s.split_cases (levels + 1) id shared files with hwhole | ⟨rest, heq, hbelow, hparts⟩
    · obtain ⟨rfl, hfile⟩ := hwhole.1 hheld
      exact ⟨hfile, found_single h hpos hshare (fun hh => (hwhole.1 hh).1) hfile⟩
    · obtain rfl : levels = rest := by omega
      have hfound : ∀ {child group other file}, (buckets shared files).get? child = some group →
          (s.split levels (childId id child) (shared + 1) group).Holds other file →
            file ∈ group ∧ (s.split levels (childId id child) (shared + 1) group).Found all (shared + 1) other file :=
        fun hget hh => ih (by omega) (share_bucket hpos hshare hget) hh
      rcases hparts.1 hheld with ⟨rfl, hmem, hle⟩ | ⟨child, group, hget, hpart⟩
      · exact ⟨hmem, found_own h hpos hshare hparts hfound hbelow hmem hle⟩
      · exact found_part h hpos hshare hparts hfound hget hpart

/-! ## What dividing a project keeps -/

theorem take_one_eq {path other : List String} (h : path[0]? = other[0]?) : path.take 1 = other.take 1 := by
  rw [List.take_one, List.take_one, List.head?_eq_getElem?, List.head?_eq_getElem?, h]

theorem topId_ne_joined (h : Unambiguous all) {path : List String} (hpath : path ∈ places all) (hlong : 1 < path.length)
    {file : String} (hfile : file ∈ all) : topId file ≠ joined path := by
  by_cases hnone : folders file = []
  · rw [topId_of_noFolders hnone]
    exact (joined_ne_rootId hlong).symm
  · intro heq
    rw [topId_of_folders hnone] at heq
    have := length_of_joined h hpath hfile one_pos (List.length_pos_iff.2 hnone) heq.symm
    omega

/-- Files that are found under a place lie in a top directory of the place's id. -/
theorem topId_eq_of_found (h : Unambiguous all) {m : ModuleMap} {path : List String} (hpath : path ∈ places all)
    {file other : String} (hother : other ∈ all) (hfound : m.Found all 1 (joined path) other)
    (hfirst : path[0]? = (folders file)[0]?) (hfile : folders file ≠ []) : topId other = topId file := by
  obtain ⟨path', hpath', heq, hlen, hagree⟩ := hfound.place hother one_pos
  have hpos : 0 < path.length := by
    rw [h.length_eq hpath hpath' heq]
    exact hlen
  have hne : folders other ≠ [] := List.length_pos_iff.1 hfound.le_length
  have hfirst' := joined_take_one heq (h.told _ hpath _ hpath' heq) (List.length_pos_iff.1 hpos) (List.length_pos_iff.1 hlen)
  rw [topId_of_folders hne, topId_of_folders hfile, ← take_one_eq (hagree 0 one_pos), ← take_one_eq hfirst, hfirst']

/-- Files are found, those in no directory in the module for them, and those of a top directory that is still to be
    split are all in one module. -/
structure Underway (all : List String) (m : ModuleMap) (rest : List String) : Prop where
  found : ∀ {id file}, m.Holds id file → file ∈ all ∧ (folders file = [] ∧ id = rootId ∨ m.Found all 1 id file)
  whole : ∀ {top}, top ∈ rest → ∀ {file}, file ∈ all → topId file = top → ∀ id, m.Holds id file ↔ id = top
  named : ∀ {top}, top ∈ rest → ∃ file ∈ all, topId file = top

theorem underway_byTop (h : Unambiguous all) {rest : List String} (hrest : ∀ top ∈ rest, ∃ file ∈ all, topId file = top) :
    Underway all (byTop all) rest := by
  refine ⟨fun {id file} hheld => ?_, fun {top} _ {file} hfile htop id => ?_, fun htop => hrest _ htop⟩
  · obtain ⟨hall, rfl⟩ := holds_byTop.1 hheld
    refine ⟨hall, ?_⟩
    by_cases hnone : folders file = []
    · exact .inl ⟨hnone, topId_of_noFolders hnone⟩
    · refine .inr (.of_depth hall one_pos (List.length_pos_iff.2 hnone) (topId_of_folders hnone) ?_)
      rintro path hpath hlong ⟨other, hother⟩
      obtain ⟨hmem, heq⟩ := holds_byTop.1 hother
      exact topId_ne_joined h hpath hlong hmem heq
  · rw [holds_byTop, htop]
    exact ⟨fun hh => hh.2.symm, fun hh => ⟨hfile, hh.symm⟩⟩

theorem Underway.tail {m : ModuleMap} {top : String} {rest : List String} (hu : Underway all m (top :: rest)) :
    Underway all m rest :=
  ⟨hu.found, fun ht => hu.whole (List.mem_cons_of_mem _ ht), fun ht => hu.named (List.mem_cons_of_mem _ ht)⟩

theorem Underway.congr {m m' : ModuleMap} {rest : List String} (hu : Underway all m rest)
    (heq : ∀ {id file}, m'.Holds id file ↔ m.Holds id file) : Underway all m' rest := by
  have hheld : ∀ {path}, m'.Held path → m.Held path := fun ⟨file, hfile⟩ => ⟨file, heq.1 hfile⟩
  refine ⟨fun hh => ?_, fun {_} htop {_} hfile hfirst id =>
    heq.trans (hu.whole htop hfile hfirst id), hu.named⟩
  obtain ⟨hall, hnone | hfound⟩ := hu.found (heq.1 hh)
  · exact ⟨hall, .inl hnone⟩
  · exact ⟨hall, .inr (hfound.congr_top hall fun _ _ _ => hheld)⟩

section Step

variable {m : ModuleMap} {top : String} {rest group : List String} (h : Unambiguous all)
  (hu : Underway all m (top :: rest)) (hget : m.get? top = some group)
include h hu hget

/-- With files in no directory, the top directory `root` has no directories, and there is nothing to split. -/
theorem split_root (s : Splitting) (htop : top = rootId) (hnone : [] ∈ all.map folders) {id file : String} :
    (s.split s.maxDepth top 1 group).Holds id file ↔ id = top ∧ file ∈ group := by
  rcases s.split_cases s.maxDepth top 1 group with hwhole | ⟨-, -, ⟨deeper, hdeeper, hlong⟩, -⟩
  · exact hwhole
  · obtain ⟨hall, ⟨hnil, -⟩ | hfound⟩ := hu.found ⟨group, hget, hdeeper⟩
    · rw [hnil] at hlong
      cases hlong
    · obtain ⟨path, hpath, heq, hlen, hagree⟩ := hfound.place hall one_pos
      have hshort : path.length = 1 := by
        by_contra hne
        exact joined_ne_rootId (by omega) (heq.symm.trans htop)
      have hdir := folders_mem_directories hall (List.length_pos_iff.1 hfound.le_length)
      have hroot : joined ((folders deeper).take 1) = rootId := by
        rw [← take_one_eq (hagree 0 one_pos), ← hshort, List.take_length, ← heq, htop]
      have := h.top hnone _ hdir hroot
      omega

theorem share_top (hnone : ¬ (top = rootId ∧ [] ∈ all.map folders)) : Share all 1 top group := by
  intro file hfile
  obtain ⟨named, hnamed, hid⟩ := hu.named List.mem_cons_self
  have hfolders : folders named ≠ [] := fun hnil =>
    hnone ⟨hid.symm.trans (topId_of_noFolders hnil), hnil ▸ List.mem_map_of_mem hnamed⟩
  obtain ⟨hall, ⟨hnil, hroot⟩ | hfound⟩ := hu.found ⟨group, hget, hfile⟩
  · exact absurd ⟨hroot, hnil ▸ List.mem_map_of_mem hall⟩ hnone
  · obtain ⟨path, hpath, heq, hlen, hagree⟩ := hfound.place hall one_pos
    have hjoined : joined path = joined ((folders named).take 1) := by
      rw [← heq, ← hid, topId_of_folders hfolders]
    have hshort := length_of_joined h hpath hnamed one_pos (List.length_pos_iff.2 hfolders) hjoined
    refine ⟨hall, hfound.le_length, ?_⟩
    rw [← take_one_eq (hagree 0 one_pos), heq, ← hshort, List.take_length]

end Step

theorem Underway.topId_ne {m : ModuleMap} {top : String} {rest : List String} (hu : Underway all m (top :: rest))
    {id file : String} (hne : id ≠ top) (hheld : m.Holds id file) : topId file ≠ top :=
  fun heq => hne ((hu.whole List.mem_cons_self (hu.found hheld).1 heq _).1 hheld)

theorem topId_of_share {top : String} {group : List String} (hshare : Share all 1 top group) {file : String}
    (hfile : file ∈ group) : folders file ≠ [] ∧ topId file = top :=
  have hne := List.length_pos_iff.1 (hshare file hfile).2.1
  ⟨hne, (topId_of_folders hne).trans (hshare file hfile).2.2⟩

section Replaced

/-! One module is replaced by its parts: these lie in its top directory, and all other modules elsewhere. -/

variable {m m' parts : ModuleMap} {top : String} {rest group : List String} (h : Unambiguous all)
  (hu : Underway all m (top :: rest)) (hshare : Share all 1 top group)
  (hall : ∀ {id file}, m'.Holds id file ↔ (id ≠ top ∧ m.Holds id file) ∨ parts.Holds id file)
  (hparts : ∀ {id file}, parts.Holds id file → file ∈ group ∧ parts.Found all 1 id file)
include h hu hshare hall hparts

theorem found_elsewhere {id file : String} (hne : id ≠ top) (hheld : m.Holds id file) :
    file ∈ all ∧ (folders file = [] ∧ id = rootId ∨ m'.Found all 1 id file) := by
  obtain ⟨hfile, hroot | hfound⟩ := hu.found hheld
  · exact ⟨hfile, .inl hroot⟩
  · refine ⟨hfile, .inr (hfound.congr_top hfile ?_)⟩
    rintro path hpath hfirst ⟨other, hother⟩
    rcases hall.1 hother with ⟨-, hother⟩ | hother
    · exact ⟨other, hother⟩
    · obtain ⟨hgroup, hf⟩ := hparts hother
      have hsame := topId_eq_of_found h hpath (hshare other hgroup).1 hf hfirst (List.length_pos_iff.1 hfound.le_length)
      exact absurd (hsame.symm.trans (topId_of_share hshare hgroup).2) (hu.topId_ne hne hheld)

theorem found_inside {id file : String} (hheld : parts.Holds id file) : file ∈ all ∧ m'.Found all 1 id file := by
  obtain ⟨hgroup, hf⟩ := hparts hheld
  obtain ⟨hfolders, htop⟩ := topId_of_share hshare hgroup
  have hfile := (hshare file hgroup).1
  refine ⟨hfile, hf.congr_top hfile ?_⟩
  rintro path hpath hfirst ⟨other, hother⟩
  rcases hall.1 hother with ⟨hne, hother⟩ | hother
  · obtain ⟨hmem, ⟨-, hroot⟩ | hfound⟩ := hu.found hother
    · have hshort : path.length ≤ 1 := by
        by_contra hlong
        exact joined_ne_rootId (by omega) hroot
      rw [← List.take_of_length_le hshort, take_one_eq hfirst, ← topId_of_folders hfolders] at hne
      exact absurd htop hne
    · have hsame := topId_eq_of_found h hpath hmem hfound hfirst hfolders
      exact absurd (hsame.trans htop) (hu.topId_ne hne hother)
  · exact ⟨other, hother⟩

theorem underway_replaced (hnot : top ∉ rest) : Underway all m' rest := by
  refine ⟨fun {id file} hheld => ?_, fun {next} hnext {file} hfile hid id => ?_, fun ht => hu.named (List.mem_cons_of_mem _ ht)⟩
  · rcases hall.1 hheld with ⟨hne, hold⟩ | hpart
    · exact found_elsewhere h hu hshare hall hparts hne hold
    · obtain ⟨hfile, hfound⟩ := found_inside h hu hshare hall hparts hpart
      exact ⟨hfile, .inr hfound⟩
  · have hne : next ≠ top := fun heq => hnot (heq ▸ hnext)
    rw [hall, hu.whole (List.mem_cons_of_mem _ hnext) hfile hid]
    constructor
    · rintro (⟨-, rfl⟩ | hpart)
      · rfl
      · exact absurd (hid.symm.trans (topId_of_share hshare (hparts hpart).1).2) hne
    · rintro rfl
      exact .inl ⟨hne, rfl⟩

end Replaced

/-- Splitting one top directory keeps what the others hold. -/
theorem underway_split (h : Unambiguous all) {m : ModuleMap} {top : String} {rest group : List String}
    (hu : Underway all m (top :: rest)) (hget : m.get? top = some group) (s : Splitting) (hnot : top ∉ rest) :
    Underway all (ModuleMap.mergeAll (m.erase top) (s.split s.maxDepth top 1 group).toList) rest := by
  have hall : ∀ {id file}, Holds (ModuleMap.mergeAll (m.erase top) (s.split s.maxDepth top 1 group).toList) id file ↔
      (id ≠ top ∧ m.Holds id file) ∨ (s.split s.maxDepth top 1 group).Holds id file := by
    simp only [holds_mergeAll, holds_erase, implies_true]
  -- the module for files in no directory cannot be split, since its id is no directory's that has directories
  by_cases hnone : top = rootId ∧ [] ∈ all.map folders
  · refine hu.tail.congr fun {id file} => ?_
    have hmem : file ∈ group ↔ m.Holds top file := by simp [Holds, hget]
    rw [hall, split_root h hu hget s hnone.1 hnone.2, hmem]
    by_cases htop : id = top <;> simp [htop]
  · have hshare := share_top h hu hget hnone
    exact underway_replaced h hu hshare hall (split_found h s _ one_pos hshare) hnot

theorem underway_foldl (h : Unambiguous all) (s : Splitting) {ids : List String} (hn : ids.Nodup) {m : ModuleMap}
    (hu : Underway all m ids) :
    Underway all (ids.foldl (fun m id =>
      match m.get? id with
      | some group => ModuleMap.mergeAll (m.erase id) (s.split s.maxDepth id 1 group).toList
      | none => m) m) [] := by
  induction ids generalizing m with
  | nil => exact hu
  | cons top rest ih =>
    obtain ⟨hnot, hn⟩ := List.nodup_cons.1 hn
    rw [List.foldl_cons]
    cases hget : m.get? top with
    | some group => exact ih hn (underway_split h hu hget s hnot)
    | none => exact ih hn hu.tail

theorem underway_modules (h : Unambiguous all) (s : Splitting) : Underway all (s.modules all) [] := by
  unfold modules
  dsimp only
  split
  · have hsub : (largeIds (byTop all) s.threshold).Sublist (byTop all).keys := (List.filter_sublist).map _
    refine underway_foldl h s (hsub.nodup (byTop all).nodup_keys) (underway_byTop h fun top htop => ?_)
    obtain ⟨group, hget⟩ := Dict.mem_keys.1 (hsub.subset htop)
    obtain ⟨file, hfile⟩ := List.exists_mem_of_ne_nil _ ((proper_byTop all).inhabited hget)
    exact ⟨file, holds_byTop.1 ⟨group, hget, hfile⟩⟩
  · exact underway_byTop h fun top htop => absurd htop List.not_mem_nil

end Splitting

namespace ModuleMap

/-! ## Looking from below -/

variable {m : ModuleMap} {files : List String} {id file : String}

theorem existing?_sanitize (path : List String) :
    m.existing? (path.map sanitize) =
      if m.contains (joined path) then some (joined path)
      else if m.contains (Splitting.ownId (joined path)) then some (Splitting.ownId (joined path)) else none := rfl

/-- Nothing is there on the levels below, so the level is come to. -/
theorem placeFrom_of_existing {dirs : List String} {depth start : Nat} (hpos : 0 < depth) (hle : depth ≤ start)
    (hhere : m.existing? (dirs.take depth) = some id)
    (hbelow : ∀ k, depth < k → k ≤ start → m.existing? (dirs.take k) = none) : m.placeFrom dirs start = some id := by
  induction start with
  | zero => omega
  | succ start ih =>
    rw [placeFrom]
    by_cases heq : depth = start + 1
    · rw [← heq, hhere, Option.orElse_some]
    · rw [hbelow _ (by omega) le_rfl, Option.orElse_none]
      exact ih (by omega) fun k hk hkle => hbelow k hk (by omega)

theorem placementOf_of_noFolders (m : ModuleMap) (h : folders file = []) : m.placementOf file = rootId := by
  rcases slash_cases file with hno | ⟨⟨top, rest, htop, rfl⟩, -⟩
  · rw [placementOf, cutLastIn_of_noSlash hno]
  · simp [folders_top_slash htop] at h

theorem placementOf_of_folders (h : folders file ≠ []) (hplace : m.placeFrom ((folders file).map sanitize) (folders file).length = some id) :
    m.placementOf file = id := by
  rcases slash_cases file with hno | ⟨-, dir, name, hname, rfl⟩
  · exact absurd (folders_of_noSlash hno) h
  · rw [folders_slash_name dir hname] at hplace
    rw [placementOf, cutLastIn_slash dir hname]
    dsimp only
    rw [List.length_map, hplace, Option.getD_some]

/-- A file that is found is placed in its module, as long as this exists and no others than those it is found among. -/
theorem placementOf_of_found {m' : ModuleMap} (h : m.Found files 1 id file)
    (hsub : ∀ {path}, m'.contains (joined path) = true → m.Held path) (hid : m'.contains id = true) :
    m'.placementOf file = id := by
  have hno : ∀ {path}, ¬ m.Held path → m'.contains (joined path) = false := fun hheld =>
    Bool.eq_false_iff.2 fun hcontains => hheld (hsub hcontains)
  refine placementOf_of_folders (List.length_pos_iff.1 h.le_length) ?_
  cases h with
  | above depth hge hle hjoined deeper =>
    refine placeFrom_of_existing hge hle ?_ fun k hk hkle => ?_
    · rw [← List.map_take, existing?_sanitize, ← hjoined, if_pos hid]
    · have hnone := deeper k hk hkle
      rw [← List.map_take, existing?_sanitize, ownId_joined (take_ne_nil (by omega) hkle),
        hno (hnone _ (by simp [lookups])), hno (hnone _ (by simp [lookups]))]
      rfl
  | own hge hjoined below alone =>
    refine placeFrom_of_existing hge le_rfl ?_ fun k hk hkle => by omega
    have hne : folders file ≠ [] := List.length_pos_iff.1 hge
    rw [← List.map_take, List.take_length, existing?_sanitize, ownId_joined hne, hno alone, ← hjoined, hid]
    rfl

end ModuleMap

namespace Splitting

open ModuleMap

/-- Where ids tell the places of a listing apart, a file is placed in the module that a build puts it in, and still is
    when some of the build's other modules are gone. -/
theorem placement_matches_build (s : Splitting) {files : List String} (h : Unambiguous files) {file : String}
    (hfile : file ∈ files) :
    (∀ id, (s.modules files).Holds id file ↔ id = (s.modules files).placementOf file) ∧
      ∀ m : ModuleMap, (∀ id, m.contains id = true → (s.modules files).contains id = true) →
        ∀ id, (s.modules files).Holds id file → m.contains id = true → m.placementOf file = id := by
  have hdiv := s.divides_modules files
  have hplaced : ∀ m : ModuleMap, (∀ id, m.contains id = true → (s.modules files).contains id = true) →
      ∀ id, (s.modules files).Holds id file → m.contains id = true → m.placementOf file = id := by
    intro m hsub id hid hcontains
    obtain ⟨-, ⟨hnone, rfl⟩ | hfound⟩ := (underway_modules h s).found hid
    · exact m.placementOf_of_noFolders hnone
    · exact placementOf_of_found hfound (fun hpath => hdiv.toProper.contains_iff.1 (hsub _ hpath)) hcontains
  refine ⟨fun id => ?_, hplaced⟩
  obtain ⟨home, hhome⟩ := hdiv.mem_iff.1 hfile
  rw [hplaced _ (fun _ hh => hh) home hhome (hdiv.toProper.contains_iff.2 ⟨file, hhome⟩)]
  exact ⟨fun hid => hdiv.unique hid hhome, fun heq => heq ▸ hhome⟩

/-- A project with files at the top, a directory called `root` and one that is large enough to be split. -/
def nested : List String :=
  ["setup.py", "root/a.py", "src/app.py", "src/root/b.py", "src/ui/c.py", "src/ui/forms/d.py", "docs/guide.md"]

/-- Splits from two files on. -/
def eager : Splitting := ⟨true, 2, 3, true⟩

theorem placement_matches_build_nested :
    Unambiguous nested ∧ "src/ui/c.py" ∈ nested ∧
      (eager.modules nested).Holds ((eager.modules nested).placementOf "src/ui/c.py") "src/ui/c.py" ∧
      placementOf ((∅ : ModuleMap).insert ((eager.modules nested).placementOf "src/ui/c.py") []) "src/ui/c.py" =
        (eager.modules nested).placementOf "src/ui/c.py" := by
  have h : Unambiguous nested := by decide +kernel
  have hmem : "src/ui/c.py" ∈ nested := by decide
  obtain ⟨hholds, hplaced⟩ := placement_matches_build eager h hmem
  have hhome := (hholds _).2 rfl
  refine ⟨h, hmem, hhome, hplaced _ (fun id hid => ?_) _ hhome (by simp [Dict.contains_iff, Dict.get?_insert])⟩
  -- the file's module is the only one that is left
  obtain ⟨group, hget⟩ := Dict.contains_iff.1 hid
  rw [Dict.get?_insert] at hget
  split at hget
  · next heq => exact heq ▸ (eager.divides_modules nested).toProper.contains_iff.2 ⟨_, hhome⟩
  · cases hget

/-- The module `a-b` takes files of `a/b` that belong to `a`. -/
example : ¬ Unambiguous ["a/b/x.py", "a/z.py", "a-b/y.py"] ∧
    placementOf (Dict.ofList [("a", ["a/b/x.py", "a/z.py"]), ("a-b", ["a-b/y.py"])]) "a/b/x.py" = "a-b" := by
  decide +kernel

end Splitting

end CodeIndex
