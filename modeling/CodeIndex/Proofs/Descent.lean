import CodeIndex.Proofs.Placement

set_option autoImplicit false

/-!
# Where splitting takes a file

Splitting moves whole lists of files from module to module, level by level.  Where a file comes out can be told of
the file alone, given how many of the listed files lie below each directory: it goes down its own directories, as
long as these are divided, and adds their names to the id.
-/

namespace CodeIndex.ModuleMap

/-- Every module has files, in order and each once. -/
structure Orderly (m : ModuleMap) : Prop where
  inhabited : ∀ {id group}, m.get? id = some group → group ≠ []
  increasing : ∀ {id group}, m.get? id = some group → group.Pairwise (· < ·)

namespace Orderly

variable {m : ModuleMap} {id : String} {group : List String}

theorem empty : Orderly ∅ := ⟨by simp, by simp⟩

theorem insert (hm : m.Orderly) (hne : group ≠ []) (hinc : group.Pairwise (· < ·)) : Orderly (m.insert id group) := by
  have hcases : ∀ {i g}, (m.insert id group).get? i = some g → g = group ∨ m.get? i = some g := by
    intro i g hg
    rw [Dict.get?_insert] at hg
    split at hg
    · exact .inl (Option.some.inj hg).symm
    · exact .inr hg
  exact ⟨fun hg => (hcases hg).elim (fun h => h ▸ hne) hm.inhabited,
    fun hg => (hcases hg).elim (fun h => h ▸ hinc) hm.increasing⟩

theorem merge (hm : m.Orderly) (hne : group ≠ []) (hinc : group.Pairwise (· < ·)) : (m.merge id group).Orderly := by
  unfold ModuleMap.merge
  split
  · exact hm.insert (by simp [Text.sortedSet_eq_nil, hne]) (Text.pairwise_sortedSet _)
  · exact hm.insert hne hinc

/-- A fold of steps that each keep to order, for entries in order. -/
theorem foldl {step : ModuleMap → String × List String → ModuleMap} {entries : List (String × List String)}
    (hstep : ∀ (m : ModuleMap), ∀ e ∈ entries, m.Orderly → (step m e).Orderly) (hm : m.Orderly) :
    (entries.foldl step m).Orderly := by
  induction entries generalizing m with
  | nil => exact hm
  | cons e rest ih =>
    exact ih (fun m' e' he' => hstep m' e' (List.mem_cons_of_mem _ he')) (hstep m e List.mem_cons_self hm)

theorem mergeAll {parts : ModuleMap} (hm : m.Orderly) (hparts : parts.Orderly) : (m.mergeAll parts.toList).Orderly :=
  foldl (fun _ _ he hm => hm.merge (hparts.inhabited (Dict.mem_toList'.1 he)) (hparts.increasing (Dict.mem_toList'.1 he))) hm

/-- Such modules are known by which files they hold: each is a part of any list in order that has all the files. -/
theorem get?_eq_filter {files : List String} {key : String → String} (hm : m.Orderly) (hinc : files.Pairwise (· < ·))
    (hholds : ∀ {id file}, m.Holds id file ↔ file ∈ files ∧ key file = id) (id : String) :
    m.get? id = if files.filter (key · = id) = [] then none else some (files.filter (key · = id)) := by
  have hmem : ∀ {group}, m.get? id = some group → ∀ file, file ∈ group ↔ file ∈ files.filter (key · = id) := by
    intro group hget file
    rw [List.mem_filter, decide_eq_true_eq, ← hholds]
    exact ⟨fun hfile => ⟨group, hget, hfile⟩, fun ⟨_, hget', hfile⟩ => by cases hget.symm.trans hget'; exact hfile⟩
  cases hget : m.get? id with
  | none =>
    rw [if_pos]
    refine List.filter_eq_nil_iff.2 fun file hfile hkey => ?_
    obtain ⟨group, hgroup, -⟩ := hholds.2 ⟨hfile, of_decide_eq_true hkey⟩
    cases hget.symm.trans hgroup
  | some group =>
    have hgroup := Text.eq_of_mem_iff (hm.increasing hget) (hinc.filter _) (hmem hget)
    rw [← hgroup, if_neg (hm.inhabited hget)]

end Orderly

end CodeIndex.ModuleMap

namespace CodeIndex.Splitting

open Path ModuleMap

theorem orderly_split (s : Splitting) (levels : Nat) (id : String) (shared : Nat) {files : List String}
    (hne : files ≠ []) (hinc : files.Pairwise (· < ·)) : (s.split levels id shared files).Orderly := by
  induction levels generalizing id shared files with
  | zero => exact Orderly.empty.insert hne hinc
  | succ levels ih =>
    have hall := own_append_buckets shared (Text.nodup_of_pairwise_lt hinc)
    unfold split
    split
    · exact Orderly.empty.insert hne hinc
    dsimp only
    split
    · have hsorted := (List.mergeSort_perm _ fun a b => decide (a ≤ b)).trans hall
      refine Orderly.empty.insert (fun hnil => hne ?_)
        (Text.pairwise_lt_mergeSort (hall.nodup_iff.2 (Text.nodup_of_pairwise_lt hinc)))
      rw [hnil] at hsorted
      exact List.nil_perm.1 hsorted
    · have hown : Orderly (if (ownFiles shared files).isEmpty then (∅ : ModuleMap)
          else ModuleMap.merge ∅ (ownId id) (ownFiles shared files)) := by
        split
        · exact Orderly.empty
        · next hempty => exact Orderly.empty.merge (by simpa using hempty) (hinc.filter _)
      refine Orderly.foldl (fun m e he hm => ?_) hown
      obtain ⟨hgroup, hgne⟩ := buckets_group (Dict.mem_toList'.1 he)
      have hginc : e.2.Pairwise (· < ·) := hgroup ▸ hinc.filter _
      split
      · exact hm.mergeAll (ih (childId id e.1) (shared + 1) hgne hginc)
      · exact hm.merge hgne hginc

/-! ## Directories and the files below them -/

/-- How many of the files lie below a directory. -/
def countBelow (files dir : List String) : Nat := files.countP fun file => dir.isPrefixOf (folders file)

/-- The directories right in a directory that files lie below. -/
def children (files dir : List String) : List String :=
  (files.filter fun file => dir.isPrefixOf (folders file)).filterMap fun file => (folders file)[dir.length]?

/-- A directory is divided at a depth that is still allowed, if enough files lie below it, some of them in its
    directories, and one of these has a fifth of that many below it or none needs to. -/
def Divided (s : Splitting) (files dir : List String) (depth : Nat) : Prop :=
  depth < s.maxDepth ∧ s.threshold ≤ countBelow files dir ∧ children files dir ≠ [] ∧
    (s.force = true ∨ ∃ child ∈ children files dir, s.threshold ≤ 5 * countBelow files (dir ++ [child]))

instance (s : Splitting) (files dir : List String) (depth : Nat) : Decidable (s.Divided files dir depth) :=
  inferInstanceAs (Decidable (_ ∧ _ ∧ _ ∧ _))

/-- The module of a file that lies below a directory: its walk from there on, through the directories that are left. -/
def descend (s : Splitting) (files : List String) : List String → Nat → String → List String → String
  | dir, depth, id, [] => if s.Divided files dir depth then ownId id else id
  | dir, depth, id, child :: rest =>
    if s.Divided files dir depth then descend s files (dir ++ [child]) (depth + 1) (childId id child) rest else id

theorem isPrefixOf_append_singleton {dir path : List String} {child : String} :
    (dir ++ [child]).isPrefixOf path = true ↔ dir.isPrefixOf path = true ∧ path[dir.length]? = some child := by
  simp only [List.isPrefixOf_iff_prefix]
  constructor
  · rintro ⟨rest, rfl⟩
    simp
  · rintro ⟨⟨rest, rfl⟩, hchild⟩
    rw [List.getElem?_append_right le_rfl, Nat.sub_self, ← List.head?_eq_getElem?] at hchild
    obtain ⟨tail, rfl⟩ := List.head?_eq_some_iff.1 hchild
    simp

section

variable {files : List String} (dir : List String)

theorem bucket_below {child : String} :
    (files.filter fun file => dir.isPrefixOf (folders file)).filter (fun file => childOf? dir.length file = some child) =
      files.filter fun file => (dir ++ [child]).isPrefixOf (folders file) := by
  rw [List.filter_filter]
  refine List.filter_congr fun file _ => ?_
  rw [childOf?_eq, Bool.eq_iff_iff, isPrefixOf_append_singleton, Bool.and_eq_true, decide_eq_true_eq, and_comm]

theorem mem_children {child : String} :
    child ∈ children files dir ↔ ∃ file ∈ files, (dir ++ [child]).isPrefixOf (folders file) = true := by
  simp only [children, List.mem_filterMap, List.mem_filter, isPrefixOf_append_singleton, and_assoc]

theorem get?_buckets_below {child : String} :
    (buckets dir.length (files.filter fun file => dir.isPrefixOf (folders file))).get? child =
      if child ∈ children files dir then some (files.filter fun file => (dir ++ [child]).isPrefixOf (folders file))
      else none := by
  have hmem : child ∈ children files dir ↔ files.filter (fun file => (dir ++ [child]).isPrefixOf (folders file)) ≠ [] := by
    simp [mem_children, List.filter_eq_nil_iff]
  rw [get?_buckets, bucket_below]
  simp only [hmem, ne_eq, ite_not]

/-- What is asked of the buckets when a module is split, said of its directory. -/
theorem divided_iff (s : Splitting) (depth : Nat) :
    s.IsDivided (s.maxDepth - depth) dir.length (files.filter fun file => dir.isPrefixOf (folders file)) ↔
      s.Divided files dir depth := by
  have hcount : ∀ dir, (files.filter fun file => dir.isPrefixOf (folders file)).length = countBelow files dir :=
    fun dir => List.countP_eq_length_filter.symm
  have hsome : (buckets dir.length (files.filter fun file => dir.isPrefixOf (folders file))).isEmpty = false ↔
      children files dir ≠ [] := by
    rw [← Bool.not_eq_true, Dict.isEmpty_iff, not_iff_not, List.eq_nil_iff_forall_not_mem]
    simp only [get?_buckets_below, ite_eq_right_iff, reduceCtorEq, imp_false]
  have hlooks : s.looksOrganised (buckets dir.length (files.filter fun file => dir.isPrefixOf (folders file))) = true ↔
      ∃ child ∈ children files dir, s.threshold ≤ 5 * countBelow files (dir ++ [child]) := by
    rw [looksOrganised, List.any_eq_true]
    simp only [Dict.mem_values, get?_buckets_below, decide_eq_true_eq, ← hcount, Nat.mul_comm 5]
    constructor
    · rintro ⟨group, ⟨child, hget⟩, hlarge⟩
      split at hget
      · next hchild => cases hget; exact ⟨child, hchild, hlarge⟩
      · cases hget
    · rintro ⟨child, hchild, hlarge⟩
      exact ⟨_, ⟨child, if_pos hchild⟩, hlarge⟩
  rw [IsDivided, Divided, hcount, hsome, hlooks, Nat.sub_pos_iff_lt, or_comm (b := s.force = true)]

end

/-! ## The walk of a file -/

theorem descend_of_not {s : Splitting} {files dir : List String} {depth : Nat} (h : ¬ s.Divided files dir depth)
    (id : String) (rest : List String) : s.descend files dir depth id rest = id := by
  cases rest <;> rw [descend, if_neg h]

theorem descend_own {s : Splitting} {files dir : List String} {depth : Nat} (h : s.Divided files dir depth)
    (id : String) {path : List String} (hlen : path.length ≤ dir.length) :
    s.descend files dir depth id (path.drop dir.length) = ownId id := by
  rw [List.drop_eq_nil_iff.2 hlen, descend, if_pos h]

theorem descend_child {s : Splitting} {files dir : List String} {depth : Nat} (h : s.Divided files dir depth)
    (id : String) {path : List String} {child : String} (hchild : path[dir.length]? = some child) :
    s.descend files dir depth id (path.drop dir.length) =
      s.descend files (dir ++ [child]) (depth + 1) (childId id child) (path.drop (dir ++ [child]).length) := by
  obtain ⟨hlt, rfl⟩ := List.getElem?_eq_some_iff.1 hchild
  simp only [List.drop_eq_getElem_cons hlt, descend, if_pos h, List.length_append, List.length_singleton]

/-- Which module holds a file that lies below a directory, when the files below it are split. -/
theorem holds_split (s : Splitting) (files dir : List String) (depth : Nat) (id : String) {other file : String} :
    (s.split (s.maxDepth - depth) id dir.length (files.filter fun file => dir.isPrefixOf (folders file))).Holds other file ↔
      file ∈ files.filter (fun file => dir.isPrefixOf (folders file)) ∧
        s.descend files dir depth id ((folders file).drop dir.length) = other := by
  -- by induction on the levels: below a divided directory the walk goes on in the bucket that has the file
  generalize hlevels : s.maxDepth - depth = levels
  induction levels generalizing dir depth id with
  | zero =>
    have hdiv : ¬ s.Divided files dir depth := fun h => by have := h.1; omega
    rw [holds_split_whole (by rw [← hlevels, divided_iff]; exact hdiv), descend_of_not hdiv, and_comm, eq_comm]
  | succ levels ih =>
    by_cases hdiv : s.Divided files dir depth
    · have hpart : ∀ child, (s.split levels (childId id child) (dir.length + 1)
          (files.filter fun file => (dir ++ [child]).isPrefixOf (folders file))).Holds other file ↔
            file ∈ files.filter (fun file => (dir ++ [child]).isPrefixOf (folders file)) ∧
              s.descend files (dir ++ [child]) (depth + 1) (childId id child)
                ((folders file).drop (dir ++ [child]).length) = other := fun child => by
        simpa only [List.length_append, List.length_singleton] using
          ih (dir ++ [child]) (depth + 1) (childId id child) (by omega)
      rw [holds_split_divided (by rw [← hlevels, divided_iff]; exact hdiv)]
      simp only [get?_buckets_below]
      constructor
      · rintro (⟨rfl, hfile, hlen⟩ | ⟨child, group, hget, hheld⟩)
        · exact ⟨hfile, descend_own hdiv id hlen⟩
        · split at hget
          · cases hget
            obtain ⟨hfile, hwalk⟩ := (hpart child).1 hheld
            obtain ⟨hmem, hbelow⟩ := List.mem_filter.1 hfile
            obtain ⟨hdir, hnext⟩ := isPrefixOf_append_singleton.1 hbelow
            exact ⟨List.mem_filter.2 ⟨hmem, hdir⟩, (descend_child hdiv id hnext).trans hwalk⟩
          · cases hget
      · rintro ⟨hfile, hwalk⟩
        obtain ⟨hmem, hdir⟩ := List.mem_filter.1 hfile
        cases hnext : (folders file)[dir.length]? with
        | none =>
          have hlen := List.getElem?_eq_none_iff.1 hnext
          exact .inl ⟨hwalk.symm.trans (descend_own hdiv id hlen), hfile, hlen⟩
        | some child =>
          have hbelow := isPrefixOf_append_singleton.2 ⟨hdir, hnext⟩
          exact .inr ⟨child, _, if_pos ((mem_children dir).2 ⟨file, hmem, hbelow⟩),
            (hpart child).2 ⟨List.mem_filter.2 ⟨hmem, hbelow⟩, (descend_child hdiv id hnext).symm.trans hwalk⟩⟩
    · rw [holds_split_whole (by rw [← hlevels, divided_iff]; exact hdiv), descend_of_not hdiv, and_comm, eq_comm]

/-- Splitting the files of a directory, from any depth on, groups them by the modules that their walks lead to, and
    keeps their order. -/
theorem split_groups_by_descent (s : Splitting) (id : String) (dir : List String) (depth : Nat) (files : List String)
    (hne : files ≠ []) (hinc : files.Pairwise (· < ·)) (hbelow : ∀ file ∈ files, dir <+: folders file) (other : String) :
    let group := files.filter fun file => s.descend files dir depth id ((folders file).drop dir.length) = other
    (s.split (s.maxDepth - depth) id dir.length files).get? other = if group = [] then none else some group := by
  refine (s.orderly_split _ id dir.length hne hinc).get?_eq_filter hinc (fun {other file} => ?_) other
  have hall : files.filter (fun file => dir.isPrefixOf (folders file)) = files :=
    List.filter_eq_self.2 fun file hfile => List.isPrefixOf_iff_prefix.2 (hbelow file hfile)
  have hheld : (s.split (s.maxDepth - depth) id dir.length (files.filter fun file => dir.isPrefixOf (folders file))).Holds
      other file ↔ _ := s.holds_split files dir depth id
  rwa [hall] at hheld

/-- Two places of one id: what lies in `src/a` itself, and the directory `root` in it. -/
def homonyms : List String := ["src/a/m.py", "src/a/root/p.py", "src/b.py"]

theorem split_groups_by_descent_homonyms :
    homonyms ≠ [] ∧ homonyms.Pairwise (· < ·) ∧ (∀ file ∈ homonyms, ["src"] <+: folders file) ∧
      (Splitting.split ⟨true, 2, 2, false⟩ 2 "src" 1 homonyms).get? "src-a-root" = some ["src/a/m.py", "src/a/root/p.py"] := by
  have hne : homonyms ≠ [] := by decide
  have hinc : homonyms.Pairwise (· < ·) := by decide +kernel
  have hbelow : ∀ file ∈ homonyms, ["src"] <+: folders file := by decide +kernel
  have h := split_groups_by_descent ⟨true, 2, 2, false⟩ "src" ["src"] 0 homonyms hne hinc hbelow "src-a-root"
  have hgroup : (homonyms.filter fun file =>
      descend ⟨true, 2, 2, false⟩ homonyms ["src"] 0 "src" ((folders file).drop 1) = "src-a-root") =
        ["src/a/m.py", "src/a/root/p.py"] := by decide +kernel
  exact ⟨hne, hinc, hbelow, h.trans (by rw [show ["src"].length = 1 from rfl, hgroup]; rfl)⟩

end CodeIndex.Splitting
