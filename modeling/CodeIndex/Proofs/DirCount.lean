import CodeIndex.Proofs.DisplayTree
import Mathlib.Data.Set.Card

set_option autoImplicit false

/-!
# Counting directories

The directories of a path are what stands before its slashes.  Counted from the deepest up to the first that is known, or
as the nodes of the tree that is cut from the top down, they are as many; each is counted once, also where components are
empty.
-/

namespace CodeIndex

namespace Path

open Text

/-- A directory stands before one of the slashes of a path. -/
def IsAbove (dir path : String) : Prop := ∃ rest, path = dir ++ "/" ++ rest

variable {dir path top name rest : String}

theorem isAbove_slash (dir rest : String) : IsAbove dir (dir ++ "/" ++ rest) := ⟨rest, rfl⟩

theorem IsAbove.trans {a b c : String} (h : IsAbove a b) (h' : IsAbove b c) : IsAbove a c := by
  obtain ⟨rest, rfl⟩ := h
  obtain ⟨rest', rfl⟩ := h'
  exact ⟨rest ++ "/" ++ rest', by simp only [String.append_assoc]⟩

theorem IsAbove.length_lt (h : IsAbove dir path) : dir.length < path.length := by
  obtain ⟨rest, rfl⟩ := h
  have hslash : "/".length = 1 := rfl
  rw [String.length_append, String.length_append]
  omega

theorem not_isAbove_of_noSlash (h : '/' ∉ path.toList) : ¬ IsAbove dir path := by
  rintro ⟨rest, rfl⟩
  simp at h

theorem cutFirstIn_eq_some_iff :
    cutFirstIn '/' path = some (top, rest) ↔ '/' ∉ top.toList ∧ path = top ++ "/" ++ rest := by
  constructor
  · intro h
    obtain hno | ⟨⟨first, inner, hfirst, rfl⟩, -⟩ := slash_cases path
    · rw [cutFirstIn_of_noSlash hno] at h
      cases h
    · rw [cutFirstIn_slash hfirst] at h
      cases h
      exact ⟨hfirst, rfl⟩
  · rintro ⟨htop, rfl⟩
    exact cutFirstIn_slash htop rest

/-- The deepest directory of a path, and those above that one. -/
theorem isAbove_slash_name_iff (hname : '/' ∉ name.toList) :
    IsAbove path (dir ++ "/" ++ name) ↔ path = dir ∨ IsAbove path dir := by
  constructor
  · rintro ⟨rest, heq⟩
    obtain hrest | ⟨-, lower, last, hlast, rfl⟩ := slash_cases rest
    · have hcut := cutLastIn_slash dir hname
      rw [heq, cutLastIn_slash path hrest] at hcut
      exact .inl (Prod.mk.inj (Option.some.inj hcut)).1
    · rw [← String.append_assoc, ← String.append_assoc] at heq
      have hcut := cutLastIn_slash dir hname
      rw [heq, cutLastIn_slash _ hlast] at hcut
      exact .inr ⟨lower, (Prod.mk.inj (Option.some.inj hcut)).1.symm⟩
  · rintro (rfl | h)
    · exact isAbove_slash _ _
    · exact h.trans (isAbove_slash _ _)

/-- The topmost directory of a path, and those inside it. -/
theorem isAbove_top_slash_iff (htop : '/' ∉ top.toList) :
    IsAbove path (top ++ "/" ++ rest) ↔ path = top ∨ ∃ inner, IsAbove inner rest ∧ path = top ++ "/" ++ inner := by
  constructor
  · rintro ⟨tail, heq⟩
    have hcut := cutFirstIn_slash htop rest
    rw [heq] at hcut
    obtain hpath | ⟨⟨first, inner, hfirst, rfl⟩, -⟩ := slash_cases path
    · rw [cutFirstIn_slash hpath] at hcut
      exact .inl (Prod.mk.inj (Option.some.inj hcut)).1
    · have hassoc : first ++ "/" ++ inner ++ "/" ++ tail = first ++ "/" ++ (inner ++ "/" ++ tail) := by
        simp only [String.append_assoc]
      rw [hassoc, cutFirstIn_slash hfirst] at hcut
      obtain ⟨rfl, rfl⟩ := Prod.mk.inj (Option.some.inj hcut)
      exact .inr ⟨inner, isAbove_slash _ _, rfl⟩
  · rintro (rfl | ⟨inner, ⟨tail, rfl⟩, rfl⟩)
    · exact isAbove_slash _ _
    · exact ⟨tail, by simp only [String.append_assoc]⟩

end Path

namespace DirTree

open Text Path

variable {dir path name : String} {seen : Names} {fuel : Nat}

/-! ## From the deepest directory up -/

theorem addParents_of_noSlash (h : '/' ∉ path.toList) (fuel : Nat) (seen : Names) :
    addParents fuel path.toList seen = seen := by
  have hcut : cutLast '/' path.toList = none := by
    have := cutLastIn_of_noSlash h
    rwa [cutLastIn, Option.map_eq_none_iff] at this
  cases fuel with
  | zero => rfl
  | succ fuel => rw [addParents, hcut]

theorem addParents_slash_name (hname : '/' ∉ name.toList) (fuel : Nat) (seen : Names) :
    addParents (fuel + 1) (dir ++ "/" ++ name).toList seen =
      if seen.contains dir then seen else addParents fuel dir.toList (seen.add dir) := by
  have hchars : (dir ++ "/" ++ name).toList = dir.toList ++ '/' :: name.toList := by simp
  rw [addParents, hchars, cutLast_append hname]
  simp only [String.ofList_toList]

/-- If what is known of the shorter directories is closed under going up, it suffices to go up to the first known one. -/
theorem mem_addParents (hfuel : path.length ≤ fuel)
    (hclosed : ∀ dir ∈ seen.keys, dir.length < path.length → ∀ above, IsAbove above dir → above ∈ seen.keys) :
    name ∈ (addParents fuel path.toList seen).keys ↔ name ∈ seen.keys ∨ IsAbove name path := by
  induction fuel generalizing path seen with
  | zero =>
    obtain rfl : path = "" := by simpa using hfuel
    have hnone : ¬ IsAbove name "" := not_isAbove_of_noSlash (by decide)
    rw [addParents, or_iff_left hnone]
  | succ fuel ih =>
    obtain hno | ⟨-, dir, last, hlast, rfl⟩ := slash_cases path
    · rw [addParents_of_noSlash hno, or_iff_left (not_isAbove_of_noSlash hno)]
    have hlt : dir.length < (dir ++ "/" ++ last).length := (isAbove_slash dir last).length_lt
    rw [addParents_slash_name hlast, isAbove_slash_name_iff hlast]
    split
    · next hknown =>
      -- this directory is known, and so are those above it
      have hmem := Dict.contains_iff_mem.1 hknown
      refine ⟨.inl, ?_⟩
      rintro (h | rfl | h)
      · exact h
      · exact hmem
      · exact hclosed dir hmem hlt name h
    · next hnew =>
      have hclosed' : ∀ other ∈ (seen.add dir).keys, other.length < dir.length →
          ∀ above, IsAbove above other → above ∈ (seen.add dir).keys := by
        intro other hother hshort above habove
        rcases Dict.mem_keys_add.1 hother with rfl | hold
        · exact absurd hshort (Nat.lt_irrefl _)
        · exact Dict.mem_keys_add.2 (.inr (hclosed other hold (hshort.trans hlt) above habove))
      rw [ih (by omega) hclosed', Dict.mem_keys_add]
      tauto

/-- The directories that hold some path are those before one of its slashes. -/
theorem mem_keys_foldl_addParents (files : List String) :
    name ∈ (files.foldl (fun seen path => addParents path.length path.toList seen) (∅ : Names)).keys ↔
      ∃ path ∈ files, IsAbove name path := by
  induction files using List.reverseRecOn generalizing name with
  | nil => simp [Dict.keys, EmptyCollection.emptyCollection, Dict.empty]
  | append_singleton files path ih =>
    rw [List.foldl_append, List.foldl_cons, List.foldl_nil, mem_addParents (Nat.le_refl _), ih]
    · simp [or_and_right, exists_or]
    · intro dir hdir _ above habove
      obtain ⟨path, hpath, hbelow⟩ := ih.1 hdir
      exact ih.2 ⟨path, hpath, habove.trans hbelow⟩

theorem length_eq_encard {α : Type} {xs : List α} (h : xs.Nodup) : {x | x ∈ xs}.encard = xs.length := by
  classical
  rw [← List.coe_toFinset, Set.encard_coe_eq_coe_finsetCard, List.toFinset_card_of_nodup h]

theorem encard_dirs (files : List String) : {dir | ∃ path ∈ files, IsAbove dir path}.encard = countDirs files := by
  simp only [← mem_keys_foldl_addParents]
  rw [length_eq_encard (Dict.nodup_keys _), Dict.keys, List.length_map]
  rfl

/-! ## From the top down -/

mutual

/-- The directories below one, as paths from there. -/
def nodes : DirTree → List String
  | .node dirs _ => nodesIn dirs

def nodesIn : List (String × DirTree) → List String
  | [] => []
  | (name, t) :: rest => name :: (nodes t).map (name ++ "/" ++ ·) ++ nodesIn rest

end

mutual

theorem length_nodes : ∀ t : DirTree, t.nodes.length = t.dirCount
  | .node dirs _ => length_nodesIn dirs

theorem length_nodesIn : ∀ dirs : List (String × DirTree), (nodesIn dirs).length = dirCountIn dirs
  | [] => rfl
  | (name, t) :: rest => by
    rw [nodesIn, dirCountIn, List.length_append, List.length_cons, List.length_map, length_nodes t, length_nodesIn rest,
      Nat.add_comm 1]

end

theorem nodesIn_map (f : String → DirTree) (names : List String) :
    nodesIn (names.map fun name => (name, f name)) =
      names.flatMap fun name => name :: (f name).nodes.map (name ++ "/" ++ ·) := by
  induction names with
  | nil => rfl
  | cons name rest ih => rw [List.map_cons, nodesIn, ih, List.flatMap_cons]

theorem nodes_ofFiles (paths : List String) : (ofFiles paths).nodes =
    (tops paths).flatMap fun name => name :: (ofFiles (within name paths)).nodes.map (name ++ "/" ++ ·) := by
  rw [ofFiles_eq, nodes, nodesIn_map]

theorem mem_tops {paths : List String} :
    name ∈ tops paths ↔ '/' ∉ name.toList ∧ ∃ rest, name ++ "/" ++ rest ∈ paths := by
  simp only [tops, mem_sortedSet, List.mem_filterMap, top?, Option.map_eq_some_iff, Prod.exists, exists_and_right,
    exists_eq_right, cutFirstIn_eq_some_iff]
  constructor
  · rintro ⟨path, hpath, rest, hname, rfl⟩
    exact ⟨hname, rest, hpath⟩
  · rintro ⟨hname, rest, hpath⟩
    exact ⟨_, hpath, rest, hname, rfl⟩

theorem mem_within {paths : List String} {rest : String} :
    rest ∈ within name paths ↔ '/' ∉ name.toList ∧ name ++ "/" ++ rest ∈ paths := by
  simp only [within, List.mem_filterMap, below?, Option.bind_eq_some_iff, Prod.exists, cutFirstIn_eq_some_iff]
  constructor
  · rintro ⟨path, hpath, top, inner, ⟨htop, rfl⟩, heq⟩
    split at heq
    · next h =>
      cases h
      cases heq
      exact ⟨htop, hpath⟩
    · cases heq
  · rintro ⟨hname, hpath⟩
    exact ⟨_, hpath, name, rest, ⟨hname, rfl⟩, if_pos rfl⟩

theorem mem_nodes_ofFiles {paths : List String} : dir ∈ (ofFiles paths).nodes ↔ ∃ path ∈ paths, IsAbove dir path := by
  induction hlen : dir.length using Nat.strong_induction_on generalizing dir paths with
  | _ n ih =>
    have hshorter : ∀ {top inner : String}, dir = top ++ "/" ++ inner → inner.length < n := by
      rintro top inner rfl
      have hslash : "/".length = 1 := rfl
      rw [String.length_append, String.length_append] at hlen
      omega
    rw [nodes_ofFiles]
    simp only [List.mem_flatMap, List.mem_cons, List.mem_map]
    constructor
    · rintro ⟨top, htop, rfl | ⟨inner, hinner, rfl⟩⟩
      · obtain ⟨-, rest, hpath⟩ := mem_tops.1 htop
        exact ⟨_, hpath, isAbove_slash _ _⟩
      · obtain ⟨rest, hrest, habove⟩ := (ih _ (hshorter rfl) rfl).1 hinner
        obtain ⟨hno, hpath⟩ := mem_within.1 hrest
        exact ⟨_, hpath, (isAbove_top_slash_iff hno).2 (.inr ⟨inner, habove, rfl⟩)⟩
    · rintro ⟨path, hpath, habove⟩
      obtain hno | ⟨⟨top, rest, htop, rfl⟩, -⟩ := slash_cases path
      · exact absurd habove (not_isAbove_of_noSlash hno)
      refine ⟨top, mem_tops.2 ⟨htop, rest, hpath⟩, ?_⟩
      rcases (isAbove_top_slash_iff htop).1 habove with rfl | ⟨inner, hinner, rfl⟩
      · exact .inl rfl
      · exact .inr ⟨inner, (ih _ (hshorter rfl) rfl).2 ⟨rest, mem_within.2 ⟨htop, hpath⟩, hinner⟩, rfl⟩

theorem head?_pieces_of_mem {names : List String} (hno : '/' ∉ name.toList)
    (h : dir ∈ name :: names.map (name ++ "/" ++ ·)) :
    (pieces '/' dir).head? = some name := by
  rcases List.mem_cons.1 h with rfl | h
  · rw [pieces_of_noSlash hno]
    rfl
  · obtain ⟨inner, -, rfl⟩ := List.mem_map.1 h
    rw [pieces_append_slash, pieces_of_noSlash hno]
    rfl

/-- A node is known by the path to it. -/
theorem nodup_nodes_ofFiles (paths : List String) : (ofFiles paths).nodes.Nodup := by
  obtain ⟨bound, hbound⟩ : ∃ bound, ∀ path ∈ paths, path.length < bound :=
    ⟨(paths.map String.length).max?.getD 0 + 1, fun path hpath =>
      Nat.lt_succ_of_le (List.le_max?_getD_of_mem (List.mem_map_of_mem hpath))⟩
  induction bound generalizing paths with
  | zero =>
    obtain rfl : paths = [] := List.eq_nil_iff_forall_not_mem.2 fun path hpath => Nat.not_lt_zero _ (hbound path hpath)
    exact List.nodup_nil
  | succ bound ih =>
    rw [nodes_ofFiles, List.nodup_flatMap]
    constructor
    · intro top htop
      have hinside : ∀ path ∈ within top paths, path.length < bound := by
        intro path hpath
        have hlong := hbound _ (mem_within.1 hpath).2
        have hslash : "/".length = 1 := rfl
        rw [String.length_append, String.length_append] at hlong
        omega
      refine List.nodup_cons.2 ⟨fun hmem => ?_, (ih _ hinside).map fun a b heq => String.append_right_inj _ |>.1 heq⟩
      obtain ⟨inner, -, heq⟩ := List.mem_map.1 hmem
      have hlt := (isAbove_slash top inner).length_lt
      rw [heq] at hlt
      exact Nat.lt_irrefl _ hlt
    · refine (nodup_sortedSet _).imp_of_mem ?_
      intro top other htop hother hne dir hdir hdir'
      have htops := head?_pieces_of_mem (mem_tops.1 htop).1 hdir
      rw [head?_pieces_of_mem (mem_tops.1 hother).1 hdir'] at htops
      exact hne (Option.some.inj htops).symm

theorem encard_nodes (files : List String) : {dir | ∃ path ∈ files, IsAbove dir path}.encard = (ofFiles files).dirCount := by
  simp only [← mem_nodes_ofFiles]
  rw [length_eq_encard (nodup_nodes_ofFiles files), length_nodes]

/-- Every directory that stands before a slash of some path is counted once, as one node of the tree, whatever the order of
    the paths and however often each is listed. -/
theorem directories_counted_once (files : List String) :
    {dir | ∃ path ∈ files, IsAbove dir path}.encard = countDirs files ∧ (ofFiles files).dirCount = countDirs files ∧
      ∀ {files' : List String}, files'.toFinset = files.toFinset → countDirs files' = countDirs files := by
  have hcount : ∀ {n : Nat}, {dir | ∃ path ∈ files, IsAbove dir path}.encard = n → n = countDirs files := fun h =>
    Nat.cast_injective (h.symm.trans (encard_dirs files))
  refine ⟨encard_dirs files, hcount (encard_nodes files), fun {files'} hsame => hcount ?_⟩
  have hmem : ∀ path, path ∈ files' ↔ path ∈ files := fun path => by rw [← List.mem_toFinset, hsame, List.mem_toFinset]
  simp only [← hmem, encard_dirs]

/-- Paths with repeated slashes and one at the start, and a path that is a directory of another. -/
def slashed : List String := ["/etc//hosts", "a/b", "a/b/c.rs", "/etc//hosts", "g.rs"]

theorem directories_counted_once_slashed :
    ["g.rs", "a/b/c.rs", "/etc//hosts", "a/b"].toFinset = slashed.toFinset ∧
      countDirs ["g.rs", "a/b/c.rs", "/etc//hosts", "a/b"] = countDirs slashed ∧ (ofFiles slashed).dirCount = 5 := by
  have hsame : ["g.rs", "a/b/c.rs", "/etc//hosts", "a/b"].toFinset = slashed.toFinset := by decide
  exact ⟨hsame, (directories_counted_once slashed).2.2 hsame, by decide +kernel⟩

end DirTree

end CodeIndex
