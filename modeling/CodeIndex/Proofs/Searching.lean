import CodeIndex.Answers
import CodeIndex.Proofs.Consistency
import CodeIndex.Proofs.SortedSet

set_option autoImplicit false

/-!
# Search by path

Modules are searched in the order of their ids, which is not that of the paths as soon as modules lie between each other.
In a consistent index the answer is still cut from all matching paths in order, so that it does not show how the files
are divided.
-/

namespace CodeIndex.Answers

variable {core core' : CoreIndex}

/-- The indexed paths that a pattern matches, in order. -/
def hits (core : CoreIndex) (pattern : String) : List String :=
  core.allFiles.filter fun path => (Matcher.ofPattern pattern).accepts path

/-- The matching paths with their modules, module by module. -/
def candidates (core : CoreIndex) (pattern : String) : List (String × String) :=
  core.modules.toList.flatMap fun (id, entry) =>
    (entry.files.filter fun path => (Matcher.ofPattern pattern).accepts path).map fun path => (path, id)

/-- The matching paths with their modules, in the order of the paths. -/
def inOrder (core : CoreIndex) (pattern : String) : List (String × String) :=
  (candidates core pattern).mergeSort fun a b => decide (a.1 ≤ b.1)

theorem search_eq (core : CoreIndex) (pattern : String) (limit : Nat) :
    search core pattern limit = ⟨pattern, (inOrder core pattern).take limit, (inOrder core pattern).length⟩ := rfl

theorem mem_candidates {pattern path id : String} : (path, id) ∈ candidates core pattern ↔
    (∃ m, core.modules.get? id = some m ∧ path ∈ m.files) ∧ (Matcher.ofPattern pattern).accepts path = true := by
  simp only [candidates, List.mem_flatMap, List.mem_map, List.mem_filter, Prod.mk.injEq]
  constructor
  · rintro ⟨⟨id', m⟩, hm, path', ⟨hfile, haccepts⟩, rfl, rfl⟩
    exact ⟨⟨m, Dict.mem_toList.1 hm, hfile⟩, haccepts⟩
  · rintro ⟨⟨m, hm, hfile⟩, haccepts⟩
    exact ⟨(id, m), Dict.mem_toList.2 hm, path, ⟨hfile, haccepts⟩, rfl, rfl⟩

theorem mem_hits {pattern path : String} : path ∈ hits core pattern ↔
    (∃ id m, core.modules.get? id = some m ∧ path ∈ m.files) ∧ (Matcher.ofPattern pattern).accepts path = true := by
  simp only [hits, CoreIndex.allFiles, List.mem_filter, List.mem_mergeSort, List.mem_flatMap, Dict.mem_values]
  refine and_congr_left fun _ => ⟨?_, ?_⟩
  · rintro ⟨m, ⟨id, hm⟩, hfile⟩
    exact ⟨id, m, hm, hfile⟩
  · rintro ⟨id, m, hm, hfile⟩
    exact ⟨m, ⟨id, hm⟩, hfile⟩

theorem paths_candidates (core : CoreIndex) (pattern : String) : (candidates core pattern).map Prod.fst =
    (core.modules.values.flatMap ModuleEntry.files).filter fun path => (Matcher.ofPattern pattern).accepts path := by
  rw [candidates, List.map_flatMap, Dict.values, List.flatMap_map, List.filter_flatMap]
  refine List.flatMap_congr fun e _ => ?_
  rw [List.map_map]
  exact List.map_id' _

theorem pairwise_hits (h : core.Consistent) (pattern : String) : (hits core pattern).Pairwise (· < ·) :=
  (Text.pairwise_lt_mergeSort h.nodup).filter _

/-- Sorting the candidates by their paths leaves the matching paths in order. -/
theorem paths_inOrder (core : CoreIndex) (pattern : String) : (inOrder core pattern).map Prod.fst = hits core pattern := by
  have hsort : (inOrder core pattern).map Prod.fst =
      ((candidates core pattern).map Prod.fst).mergeSort fun a b => decide (a ≤ b) :=
    List.map_mergeSort fun _ _ _ _ => rfl
  have hperm : (hits core pattern).Perm ((candidates core pattern).map Prod.fst) := by
    rw [paths_candidates]
    exact (List.mergeSort_perm _ _).filter _
  rw [hsort, Text.mergeSort_eq_of_perm hperm.symm ((Text.pairwise_le_mergeSort _).filter _)]

theorem hits_congr (h : core.Consistent) (h' : core'.Consistent)
    (hsame : ∀ path, path ∈ core'.allFiles ↔ path ∈ core.allFiles) (pattern : String) :
    hits core' pattern = hits core pattern := by
  refine Text.eq_of_mem_iff (pairwise_hits h' pattern) (pairwise_hits h pattern) fun path => ?_
  rw [hits, hits, List.mem_filter, List.mem_filter, hsame]

/-- What an answer to a search shows of the matching paths, of which so many may be shown. -/
structure SearchResult.Shows (r : SearchResult) (hits : List String) (limit : Nat) : Prop where
  paths : r.found.map Prod.fst = hits.take limit
  total : r.toJson.get? "total" = some (.natural hits.length)
  truncated : r.toJson.get? "truncated" = some (.bool (decide (limit < hits.length)))

theorem shows_search (core : CoreIndex) (pattern : String) (limit : Nat) :
    (search core pattern limit).Shows (hits core pattern) limit := by
  have hlength : (inOrder core pattern).length = (hits core pattern).length := by
    rw [← paths_inOrder, List.length_map]
  refine ⟨?_, ?_, ?_⟩
  · rw [search_eq, List.map_take, paths_inOrder]
  · rw [search_eq, hlength]
    rfl
  · have hcut : ((inOrder core pattern).take limit).length < (inOrder core pattern).length ↔ limit < (hits core pattern).length := by
      rw [List.length_take, hlength]
      omega
    rw [search_eq]
    exact congrArg (fun b => some (Json.bool b)) (decide_eq_decide.2 hcut)

/-- A search of a consistent index shows the first of all the indexed paths that the pattern matches, in order and each
    with the module that lists it, counts them all, and says whether some are left out.  Another consistent index of the
    same files shows the same paths and the same numbers, whatever its modules are. -/
theorem search_independent_of_modules (h : core.partitionProblems = []) (pattern : String) (limit : Nat) :
    ((hits core pattern).Pairwise (· < ·) ∧ ∀ path, path ∈ hits core pattern ↔
      (∃ id m, core.modules.get? id = some m ∧ path ∈ m.files) ∧ (Matcher.ofPattern pattern).accepts path = true) ∧
    (search core pattern limit).Shows (hits core pattern) limit ∧
    (∀ e ∈ (search core pattern limit).found,
      core.moduleFor? e.1 = some e.2 ∧ ∃ m, core.modules.get? e.2 = some m ∧ e.1 ∈ m.files) ∧
    ∀ {core' : CoreIndex}, core'.partitionProblems = [] → (∀ path, path ∈ core'.allFiles ↔ path ∈ core.allFiles) →
      (search core' pattern limit).Shows (hits core pattern) limit := by
  have hc := CoreIndex.partitionProblems_eq_nil.1 h
  refine ⟨⟨pairwise_hits hc pattern, fun path => mem_hits⟩, shows_search core pattern limit, fun e he => ?_, ?_⟩
  · have hmem : e ∈ candidates core pattern := List.mem_mergeSort.1 (List.mem_of_mem_take he)
    have hlists := (mem_candidates.1 hmem).1
    exact ⟨hc.moduleFor?_eq_some.2 hlists, hlists⟩
  · intro core' h' hsame
    have hc' := CoreIndex.partitionProblems_eq_nil.1 h'
    rw [← hits_congr hc hc' hsame]
    exact shows_search core' pattern limit

/-- The index of some modules, with nothing known about their files. -/
def indexOf (modules : ModuleMap) : CoreIndex :=
  Analysis.core .empty "demo" "2026-01-01T00:00:00Z" modules {} .walk none .default

/-- A module whose file comes after a file of a later module. -/
def crossed : CoreIndex := indexOf (Dict.ofList [("b", ["b/x.py"]), ("root", ["a.py"])])

def together : CoreIndex := indexOf (Dict.ofList [("all", ["a.py", "b/x.py"])])

theorem search_independent_of_modules_crossed : crossed.partitionProblems = [] ∧ together.partitionProblems = [] ∧
    (search crossed ".py" 1).Shows ["a.py", "b/x.py"] 1 ∧ (search together ".py" 1).Shows ["a.py", "b/x.py"] 1 ∧
    (search crossed ".py" 1).found = [("a.py", "root")] := by
  have hcrossed : crossed.partitionProblems = [] := by decide +kernel
  have htogether : together.partitionProblems = [] := by decide +kernel
  have hfiles : crossed.modules.values.flatMap ModuleEntry.files = ["b/x.py", "a.py"] := by decide +kernel
  have hall : crossed.allFiles = ["a.py", "b/x.py"] := by
    rw [CoreIndex.allFiles, hfiles]
    exact Text.mergeSort_eq_of_perm (List.Perm.swap _ _ _) (by decide +kernel)
  have hfiles' : together.modules.values.flatMap ModuleEntry.files = ["a.py", "b/x.py"] := by decide +kernel
  have hall' : together.allFiles = ["a.py", "b/x.py"] := by
    rw [CoreIndex.allFiles, hfiles']
    exact Text.mergeSort_eq_of_perm (List.Perm.refl _) (by decide +kernel)
  have hhits : hits crossed ".py" = ["a.py", "b/x.py"] := by
    rw [hits, hall]
    decide +kernel
  obtain ⟨-, hshows, howners, hother⟩ := search_independent_of_modules hcrossed ".py" 1
  rw [hhits] at hshows hother
  refine ⟨hcrossed, htogether, hshows, hother htogether fun path => by rw [hall, hall'], ?_⟩
  obtain ⟨e, hfound, hpath⟩ := List.map_eq_singleton_iff.1 hshows.paths
  have howner : crossed.moduleFor? e.1 = some e.2 := (howners e (by rw [hfound]; exact List.mem_singleton_self e)).1
  have hroot : crossed.moduleFor? "a.py" = some "root" := by decide +kernel
  rw [hpath, hroot] at howner
  rw [hfound, ← hpath, Option.some.inj howner]

end CodeIndex.Answers
