import CodeIndex.Consistency
import CodeIndex.Proofs.Dict
import Mathlib.Data.List.Lattice
import Mathlib.Data.List.Nodup
import Mathlib.Data.List.Pairwise

set_option autoImplicit false

/-!
# What the consistency check accepts

The check goes through the modules with a record of the files seen so far.  It finds nothing exactly where counts
are right, no file is listed twice, and the map, if there is one, is the inverse of the lists.
-/

namespace CodeIndex.CoreIndex

/-- Modules list each file once, and the map agrees with them. -/
structure Consistent (core : CoreIndex) : Prop where
  counts : ∀ {id m}, core.modules.get? id = some m → m.fileCount = m.files.length.toUInt64
  nodup : (core.modules.values.flatMap ModuleEntry.files).Nodup
  mapped : ∀ {id m file}, core.modules.get? id = some m → file ∈ m.files →
    core.moduleOfFile.isEmpty = true ∨ core.moduleOfFile.get? file = some id
  listed : ∀ {file id}, core.moduleOfFile.get? file = some id → ∃ m, core.modules.get? id = some m ∧ file ∈ m.files

theorem repetitionProblems_eq_nil {seen : Dict String} {id file : String} :
    repetitionProblems seen id file = [] ↔ seen.get? file = none := by
  unfold repetitionProblems
  cases seen.get? file <;> simp

theorem mapProblems_eq_nil {core : CoreIndex} {id file : String} :
    core.mapProblems id file = [] ↔ core.moduleOfFile.isEmpty = true ∨ core.moduleOfFile.get? file = some id := by
  unfold mapProblems
  by_cases he : core.moduleOfFile.isEmpty = true
  · simp [he]
  · cases hg : core.moduleOfFile.get? file with
    | none => simp [he]
    | some mapped => by_cases hm : mapped = id <;> simp [he, hm]

theorem countProblems_eq_nil {id : String} {m : ModuleEntry} :
    countProblems id m = [] ↔ m.fileCount = m.files.length.toUInt64 := by
  unfold countProblems
  split
  · next h => simp [h]
  · next h => simp [h]

theorem get?_fileProblems (core : CoreIndex) (id : String) (seen : Dict String) (files : List String) (file : String) :
    (core.fileProblems id seen files).2.get? file = if file ∈ files then some id else seen.get? file := by
  induction files generalizing seen with
  | nil => simp [fileProblems]
  | cons head rest ih =>
    simp only [fileProblems]
    rw [ih, Dict.get?_insert]
    by_cases hr : file ∈ rest
    · simp [hr]
    · by_cases hh : head = file
      · simp [hh]
      · simp [hr, hh, Ne.symm hh]

theorem fileProblems_eq_nil (core : CoreIndex) (id : String) (seen : Dict String) (files : List String) :
    (core.fileProblems id seen files).1 = [] ↔
      files.Nodup ∧ ∀ file ∈ files, seen.get? file = none ∧ core.mapProblems id file = [] := by
  induction files generalizing seen with
  | nil => simp [fileProblems]
  | cons head rest ih =>
    simp only [fileProblems]
    rw [List.append_eq_nil_iff, List.append_eq_nil_iff, repetitionProblems_eq_nil, ih, List.nodup_cons,
      List.forall_mem_cons]
    constructor
    · rintro ⟨hhead, hnodup, hrest⟩
      refine ⟨⟨fun hmem => ?_, hnodup⟩, hhead, fun file hfile => ⟨?_, (hrest file hfile).2⟩⟩
      · have hseen := (hrest head hmem).1
        rw [Dict.get?_insert, if_pos rfl] at hseen
        cases hseen
      · have hseen := (hrest file hfile).1
        rw [Dict.get?_insert] at hseen
        split at hseen
        · cases hseen
        · exact hseen
    · rintro ⟨⟨hnot, hnodup⟩, hhead, hrest⟩
      refine ⟨hhead, hnodup, fun file hfile => ⟨?_, (hrest file hfile).2⟩⟩
      have hne : ¬ head = file := by
        rintro rfl
        exact hnot hfile
      rw [Dict.get?_insert, if_neg hne]
      exact (hrest file hfile).1

theorem moduleProblems_spec (core : CoreIndex) (seen : Dict String) (ms : List (String × ModuleEntry)) :
    ((core.moduleProblems seen ms).1 = [] ↔
      (∀ m ∈ ms, countProblems m.1 m.2 = []) ∧ (ms.flatMap fun m => m.2.files).Nodup ∧
        ∀ m ∈ ms, ∀ file ∈ m.2.files, seen.get? file = none ∧ core.mapProblems m.1 file = []) ∧
      ∀ file, (core.moduleProblems seen ms).2.contains file = true ↔
        seen.contains file = true ∨ ∃ m ∈ ms, file ∈ m.2.files := by
  induction ms generalizing seen with
  | nil => simp [moduleProblems]
  | cons head rest ih =>
    obtain ⟨id, m⟩ := head
    simp only [moduleProblems]
    obtain ⟨hnil, hseen⟩ := ih (core.fileProblems id seen m.files).2
    have hget := get?_fileProblems core id seen m.files
    constructor
    · rw [List.append_eq_nil_iff, List.append_eq_nil_iff, hnil, fileProblems_eq_nil, List.flatMap_cons,
        List.nodup_append, List.forall_mem_cons, List.forall_mem_cons]
      constructor
      · rintro ⟨⟨hcount, hnodup, hfiles⟩, hcounts, hnodups, hrest⟩
        have hnot : ∀ m' ∈ rest, ∀ file ∈ m'.2.files, file ∉ m.files := by
          intro m' hm' file hfile hmem
          have hnone := (hrest m' hm' file hfile).1
          rw [hget, if_pos hmem] at hnone
          cases hnone
        refine ⟨⟨hcount, hcounts⟩, ⟨hnodup, hnodups, ?_⟩, hfiles, fun m' hm' file hfile => ?_⟩
        · rintro a ha b hb rfl
          obtain ⟨m', hm', hb'⟩ := List.mem_flatMap.1 hb
          exact hnot m' hm' a hb' ha
        · have hnone := (hrest m' hm' file hfile).1
          rw [hget, if_neg (hnot m' hm' file hfile)] at hnone
          exact ⟨hnone, (hrest m' hm' file hfile).2⟩
      · rintro ⟨⟨hcount, hcounts⟩, ⟨hnodup, hnodups, hdisjoint⟩, hfiles, hrest⟩
        refine ⟨⟨hcount, hnodup, hfiles⟩, hcounts, hnodups, fun m' hm' file hfile => ⟨?_, (hrest m' hm' file hfile).2⟩⟩
        have hnot : file ∉ m.files := fun hmem => hdisjoint file hmem file (List.mem_flatMap.2 ⟨m', hm', hfile⟩) rfl
        rw [hget, if_neg hnot]
        exact (hrest m' hm' file hfile).1
    · intro file
      rw [hseen]
      have hcontains : (core.fileProblems id seen m.files).2.contains file = true ↔
          file ∈ m.files ∨ seen.contains file = true := by
        unfold Dict.contains
        rw [hget]
        by_cases hf : file ∈ m.files <;> simp [hf]
      rw [hcontains]
      simp only [List.mem_cons, exists_eq_or_imp]
      tauto

/-- The check finds nothing exactly in a consistent core. -/
theorem partitionProblems_eq_nil {core : CoreIndex} : core.partitionProblems = [] ↔ core.Consistent := by
  obtain ⟨hnil, hseen⟩ := core.moduleProblems_spec {} core.modules.toList
  have hstray : core.strayProblems (core.moduleProblems {} core.modules.toList).2 = [] ↔
      ∀ file id, core.moduleOfFile.get? file = some id → ∃ m ∈ core.modules.toList, file ∈ m.2.files := by
    simp only [strayProblems, List.map_eq_nil_iff, List.filter_eq_nil_iff, Prod.forall, Dict.mem_toList,
      Bool.not_eq_true', Bool.not_eq_false, hseen]
    exact forall_congr' fun file => forall_congr' fun id => imp_congr_right fun _ => by simp [Dict.contains]
  have hflat : core.modules.values.flatMap ModuleEntry.files = core.modules.toList.flatMap fun m => m.2.files := by
    rw [Dict.values, List.flatMap_map]
    rfl
  unfold partitionProblems
  simp only [List.append_eq_nil_iff, hnil, hstray]
  constructor
  · rintro ⟨⟨hcounts, hnodup, hfiles⟩, hlisted⟩
    have hmapped : ∀ {id m file}, core.modules.get? id = some m → file ∈ m.files →
        core.moduleOfFile.isEmpty = true ∨ core.moduleOfFile.get? file = some id := by
      intro id m file hm hfile
      exact mapProblems_eq_nil.1 (hfiles (id, m) (Dict.mem_toList.2 hm) file hfile).2
    refine ⟨fun hm => countProblems_eq_nil.1 (hcounts _ (Dict.mem_toList.2 hm)), hflat ▸ hnodup, hmapped, ?_⟩
    intro file id hget
    obtain ⟨⟨id', m⟩, hm, hfile⟩ := hlisted file id hget
    have hm' := Dict.mem_toList.1 hm
    rcases hmapped hm' hfile with hempty | hget'
    · rw [Dict.isEmpty_iff.1 hempty file] at hget
      cases hget
    · rw [hget] at hget'
      cases hget'
      exact ⟨m, hm', hfile⟩
  · intro h
    refine ⟨⟨fun m hm => countProblems_eq_nil.2 (h.counts (Dict.mem_toList'.1 hm)), hflat ▸ h.nodup, ?_⟩, ?_⟩
    · intro m hm file hfile
      exact ⟨rfl, mapProblems_eq_nil.2 (h.mapped (Dict.mem_toList'.1 hm) hfile)⟩
    · intro file id hget
      obtain ⟨m, hm, hfile⟩ := h.listed hget
      exact ⟨(id, m), Dict.mem_toList.2 hm, hfile⟩

/-- Only the modules and the map are checked. -/
theorem partitionProblems_congr {core core' : CoreIndex} (hmodules : core'.modules = core.modules)
    (hmap : core'.moduleOfFile = core.moduleOfFile) : core'.partitionProblems = core.partitionProblems := by
  have hfiles : ∀ id seen files, core'.fileProblems id seen files = core.fileProblems id seen files := by
    intro id seen files
    induction files generalizing seen with
    | nil => rfl
    | cons file rest ih => simp only [fileProblems, mapProblems, hmap, ih]
  have hall : ∀ seen ms, core'.moduleProblems seen ms = core.moduleProblems seen ms := by
    intro seen ms
    induction ms generalizing seen with
    | nil => rfl
    | cons m rest ih => simp only [moduleProblems, hfiles, ih]
  simp only [partitionProblems, strayProblems, hall, hmodules, hmap]

namespace Consistent

variable {core : CoreIndex}

/-- No file is in two modules. -/
theorem unique (h : core.Consistent) {id id' file : String} {m m' : ModuleEntry} (hm : core.modules.get? id = some m)
    (hm' : core.modules.get? id' = some m') (hf : file ∈ m.files) (hf' : file ∈ m'.files) : id = id' := by
  have hnodup := h.nodup
  rw [Dict.values, List.flatMap_map, List.nodup_flatMap] at hnodup
  by_contra hne
  have hsymm : Std.Symm (Function.onFun List.Disjoint fun e : String × ModuleEntry => e.2.files) :=
    ⟨fun _ _ hd => List.Disjoint.symm hd⟩
  have hpairs : (id, m) ≠ (id', m') := fun heq => hne (congrArg Prod.fst heq)
  have hdisjoint : List.Disjoint m.files m'.files :=
    hnodup.2.forall (Dict.mem_toList.2 hm) (Dict.mem_toList.2 hm') hpairs
  exact hdisjoint hf hf'

/-- The module of a file is the one that lists it. -/
theorem moduleFor?_eq_some (h : core.Consistent) {file id : String} :
    core.moduleFor? file = some id ↔ ∃ m, core.modules.get? id = some m ∧ file ∈ m.files := by
  unfold moduleFor?
  split
  · next hempty =>
    rw [Option.map_eq_some_iff]
    constructor
    · rintro ⟨e, he, rfl⟩
      have hmem := List.mem_of_find?_eq_some he
      have hfile := List.find?_some he
      exact ⟨e.2, Dict.mem_toList'.1 hmem, by simpa using hfile⟩
    · rintro ⟨m, hm, hfile⟩
      cases hf : core.modules.toList.find? fun m => m.2.files.contains file with
      | none =>
        have hnot := List.find?_eq_none.1 hf (id, m) (Dict.mem_toList.2 hm)
        simp [hfile] at hnot
      | some e =>
        refine ⟨e, rfl, ?_⟩
        have he := Dict.mem_toList'.1 (List.mem_of_find?_eq_some hf)
        have hfile' := List.find?_some hf
        exact h.unique he hm (by simpa using hfile') hfile
  · next hempty =>
    constructor
    · exact h.listed
    · rintro ⟨m, hm, hfile⟩
      exact (h.mapped hm hfile).resolve_left hempty

end Consistent

end CodeIndex.CoreIndex
