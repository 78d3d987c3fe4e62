import CodeIndex.Modules

set_option autoImplicit false

/-!
# Valid module ids

A sanitised name is a valid id, and ids that are put together from valid ones are valid.  A valid id has no
slash, so it names one file in one directory.
-/

namespace CodeIndex.ModuleId

theorem isValid_iff {id : String} :
    isValid id = true ↔ id.toList ≠ [] ∧ id.toList.head? ≠ some '.' ∧ ∀ c ∈ id.toList, isAllowed c = true := by
  simp [isValid, and_assoc]

theorem isAllowed_underscore : isAllowed '_' = true := by decide

theorem isValid_sanitize (name : String) : isValid (sanitize name) = true := by
  have hall : ∀ c ∈ (name.toList.map fun c => if isAllowed c then c else '_').dropWhile (· == '.'),
      isAllowed c = true := by
    intro c hc
    obtain ⟨a, -, rfl⟩ := List.mem_map.1 ((List.dropWhile_sublist _).subset hc)
    split
    · assumption
    · exact isAllowed_underscore
  have hhead := List.head?_dropWhile_not (· == '.') (name.toList.map fun c => if isAllowed c then c else '_')
  unfold sanitize
  generalize (name.toList.map fun c => if isAllowed c then c else '_').dropWhile (· == '.') = cleaned at hall hhead ⊢
  cases cleaned with
  | nil => decide
  | cons c cs =>
    refine isValid_iff.2 ⟨by simp, ?_, by simpa using hall⟩
    simpa using hhead

/-- What is put behind a valid id keeps it valid, as far as its characters are allowed. -/
theorem isValid_append {id tail : String} (h : isValid id = true) (ht : ∀ c ∈ tail.toList, isAllowed c = true) :
    isValid (id ++ tail) = true := by
  obtain ⟨hne, hhead, hall⟩ := isValid_iff.1 h
  refine isValid_iff.2 ⟨by simp [hne], ?_, fun c hc => ?_⟩
  · obtain ⟨c, cs, hcs⟩ := List.exists_cons_of_ne_nil hne
    simpa [hcs] using hhead
  · rw [String.toList_append, List.mem_append] at hc
    exact hc.elim (hall c) (ht c)

theorem isValid_ownId {id : String} (h : isValid id = true) : isValid (Splitting.ownId id) = true :=
  isValid_append h (List.all_eq_true.1 (by decide))

theorem isValid_childId {id : String} (h : isValid id = true) (child : String) :
    isValid (Splitting.childId id child) = true :=
  isValid_append (isValid_append h (List.all_eq_true.1 (by decide))) (isValid_iff.1 (isValid_sanitize child)).2.2

theorem isValid_rootId : isValid ModuleMap.rootId = true := by decide

theorem isValid_topId (file : String) : isValid (ModuleMap.topId file) = true := by
  unfold ModuleMap.topId
  split
  · exact isValid_sanitize _
  · exact isValid_rootId

theorem slash_notMem {id : String} (h : isValid id = true) : '/' ∉ id.toList := fun hmem => by
  have := (isValid_iff.1 h).2.2 _ hmem
  exact absurd this (by decide)

end CodeIndex.ModuleId
