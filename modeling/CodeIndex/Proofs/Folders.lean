import CodeIndex.Proofs.Division
import CodeIndex.Proofs.Place
import Mathlib.Data.List.Infix

set_option autoImplicit false

/-!
# Directories and the ids made of their names

A file lies in the directories that its path runs through.  Module ids are the names of such directories, sanitised
and joined by dashes, so different directories may come to one id: `a/b` and `a-b` do, and `a/root` comes to the id
for the files that lie in `a` itself.
-/

namespace CodeIndex

namespace Path

open Text

/-- The directories that a path runs through, from the top down. -/
def folders (file : String) : List String := (pieces '/' file).dropLast

theorem pieces_ne_nil (path : String) : pieces '/' path ≠ [] := by
  simp [pieces, split_ne_nil]

theorem folders_of_noSlash {file : String} (h : '/' ∉ file.toList) : folders file = [] := by
  rw [folders, pieces_of_noSlash h, List.dropLast_singleton]

theorem folders_slash_name (dir : String) {name : String} (h : '/' ∉ name.toList) :
    folders (dir ++ "/" ++ name) = pieces '/' dir := by
  rw [folders, pieces_append_slash, pieces_of_noSlash h, List.dropLast_concat]

theorem folders_top_slash {top : String} (h : '/' ∉ top.toList) (rest : String) :
    folders (top ++ "/" ++ rest) = top :: folders rest := by
  rw [folders, pieces_append_slash, pieces_of_noSlash h, List.singleton_append,
    List.dropLast_cons_of_ne_nil (pieces_ne_nil rest), folders]

theorem cutFirstIn_slash {top : String} (h : '/' ∉ top.toList) (rest : String) :
    cutFirstIn '/' (top ++ "/" ++ rest) = some (top, rest) := by
  have hchars : (top ++ "/" ++ rest).toList = top.toList ++ '/' :: rest.toList := by simp
  rw [cutFirstIn, hchars, cutFirst_append h]
  simp

theorem cutLastIn_slash (dir : String) {name : String} (h : '/' ∉ name.toList) :
    cutLastIn '/' (dir ++ "/" ++ name) = some (dir, name) :=
  cutLastIn_append dir h

/-- A path is one name, or a name comes first and one last in it. -/
theorem slash_cases (file : String) :
    '/' ∉ file.toList ∨
      (∃ top rest, '/' ∉ top.toList ∧ file = top ++ "/" ++ rest) ∧ ∃ dir name, '/' ∉ name.toList ∧ file = dir ++ "/" ++ name := by
  by_cases h : '/' ∈ file.toList
  · right
    constructor
    · obtain ⟨top, rest, heq, hno⟩ := List.eq_append_cons_of_mem h
      refine ⟨String.ofList top, String.ofList rest, by simpa using hno, ?_⟩
      rw [← String.toList_inj, heq]
      simp
    · obtain ⟨-, hno⟩ | ⟨dir, name, -, hno, hfile⟩ := cutLastIn_cases '/' file
      · exact absurd h hno
      · exact ⟨dir, name, hno, hfile⟩
  · exact .inl h

theorem cutLastIn_of_noSlash {file : String} (h : '/' ∉ file.toList) : cutLastIn '/' file = none := cutLastIn_of_notMem h

theorem cutFirstIn_of_noSlash {file : String} (h : '/' ∉ file.toList) : cutFirstIn '/' file = none := by
  rw [cutFirstIn, Option.map_eq_none_iff]
  cases hcut : cutFirst '/' file.toList with
  | none => rfl
  | some sides =>
    rw [cutFirst_eq_some hcut] at h
    simp at h

end Path

namespace ModuleId

/-- The id for a directory, from the names of its path. -/
def joined (path : List String) : String := "-".intercalate (path.map sanitize)

@[simp] theorem joined_singleton (name : String) : joined [name] = sanitize name := by
  simp [joined]

theorem joined_cons (name : String) {rest : List String} (h : rest ≠ []) :
    joined (name :: rest) = sanitize name ++ "-" ++ joined rest := by
  obtain ⟨next, tail, rfl⟩ := List.exists_cons_of_ne_nil h
  simp [joined, String.intercalate_cons_cons]

theorem joined_append_singleton {path : List String} (h : path ≠ []) (name : String) :
    joined (path ++ [name]) = Splitting.childId (joined path) name := by
  induction path with
  | nil => exact absurd rfl h
  | cons top rest ih =>
    by_cases hrest : rest = []
    · subst hrest
      simp [joined_cons, Splitting.childId]
    · rw [List.cons_append, joined_cons top (by simp), ih hrest, joined_cons top hrest]
      simp [Splitting.childId, String.append_assoc]

/-- The files of a directory itself are named like a directory `root` in it. -/
theorem ownId_joined {path : List String} (h : path ≠ []) :
    Splitting.ownId (joined path) = joined (path ++ [ModuleMap.rootId]) := by
  have hroot : sanitize ModuleMap.rootId = "root" := by decide
  rw [joined_append_singleton h, Splitting.childId, hroot, String.append_assoc]
  rfl

theorem dash_mem_joined {path : List String} (h : 2 ≤ path.length) : '-' ∈ (joined path).toList := by
  obtain ⟨name, rest, rfl⟩ := List.exists_cons_of_length_pos (by omega : 0 < path.length)
  have hrest : rest ≠ [] := by
    rintro rfl
    simp at h
  rw [joined_cons name hrest]
  simp

theorem joined_ne_rootId {path : List String} (h : 2 ≤ path.length) : joined path ≠ ModuleMap.rootId := by
  intro heq
  have hdash := dash_mem_joined h
  rw [heq] at hdash
  exact absurd hdash (by decide)

/-- Paths that have one id and differ at the top only have tops of one id. -/
theorem joined_take_one {path other : List String} (h : joined path = joined other) (htail : path.tail = other.tail)
    (hne : path ≠ []) (hne' : other ≠ []) : joined (path.take 1) = joined (other.take 1) := by
  obtain ⟨top, rest, rfl⟩ := List.exists_cons_of_ne_nil hne
  obtain ⟨top', rest', rfl⟩ := List.exists_cons_of_ne_nil hne'
  obtain rfl : rest = rest' := htail
  by_cases hrest : rest = []
  · subst hrest
    exact h
  · rw [joined_cons top hrest, joined_cons top' hrest, String.append_left_inj, String.append_left_inj] at h
    simpa using h

end ModuleId

open Path ModuleId

theorem ModuleMap.topId_of_folders {file : String} (h : folders file ≠ []) :
    topId file = joined ((folders file).take 1) := by
  rcases slash_cases file with hno | ⟨⟨top, rest, htop, rfl⟩, -⟩
  · exact absurd (folders_of_noSlash hno) h
  · rw [topId, cutFirstIn_slash htop, folders_top_slash htop]
    simp

theorem ModuleMap.topId_of_noFolders {file : String} (h : folders file = []) : topId file = rootId := by
  rcases slash_cases file with hno | ⟨⟨top, rest, htop, rfl⟩, -⟩
  · rw [topId, cutFirstIn_of_noSlash hno]
  · simp [folders_top_slash htop] at h

theorem Splitting.childOf?_eq (shared : Nat) (file : String) : childOf? shared file = (folders file)[shared]? := by
  rw [childOf?, folders, List.getElem?_dropLast]
  simp only [Nat.lt_sub_iff_add_lt]

/-! ## Listings whose directories are told apart by their ids -/

/-- Every directory that some file lies in, at whatever depth. -/
def directories (files : List String) : List (List String) :=
  files.flatMap fun file => (folders file).inits.filter (· ≠ [])

theorem mem_directories {files : List String} {path : List String} :
    path ∈ directories files ↔ ∃ file ∈ files, path <+: folders file ∧ path ≠ [] := by
  simp [directories]

theorem take_ne_nil {path : List String} {depth : Nat} (hpos : 0 < depth) (hdepth : depth ≤ path.length) :
    path.take depth ≠ [] := by
  have hne : path ≠ [] := List.length_pos_iff.1 (by omega)
  simp [hne, Nat.ne_of_gt hpos]

theorem take_mem_directories {files : List String} {file : String} (h : file ∈ files) {depth : Nat} (hpos : 0 < depth)
    (hdepth : depth ≤ (folders file).length) : (folders file).take depth ∈ directories files :=
  mem_directories.2 ⟨file, h, List.take_prefix _ _, take_ne_nil hpos hdepth⟩

theorem folders_mem_directories {files : List String} {file : String} (h : file ∈ files) (hne : folders file ≠ []) :
    folders file ∈ directories files :=
  mem_directories.2 ⟨file, h, List.prefix_rfl, hne⟩

/-- The directories, and where the files of each of them itself go. -/
def places (files : List String) : List (List String) :=
  directories files ++ (directories files).map (· ++ [ModuleMap.rootId])

/-- A directory of a file, so many levels down, and where its own files go. -/
def lookups (file : String) (depth : Nat) : List (List String) :=
  [(folders file).take depth, (folders file).take depth ++ [ModuleMap.rootId]]

theorem lookups_spec {files : List String} {file : String} (h : file ∈ files) {depth : Nat} (hpos : 0 < depth)
    (hdepth : depth ≤ (folders file).length) {path : List String} (hpath : path ∈ lookups file depth) :
    path ∈ places files ∧ depth ≤ path.length ∧ ∀ i < depth, path[i]? = (folders file)[i]? := by
  have hdir := take_mem_directories h hpos hdepth
  have hlen : ((folders file).take depth).length = depth := by rw [List.length_take, Nat.min_eq_left hdepth]
  have hagree : ∀ i < depth, ((folders file).take depth)[i]? = (folders file)[i]? := fun i hi =>
    List.getElem?_take_of_lt hi
  rcases List.mem_pair.1 hpath with rfl | rfl
  · exact ⟨List.mem_append_left _ hdir, hlen.ge, hagree⟩
  · refine ⟨List.mem_append_right _ (List.mem_map_of_mem hdir), ?_, fun i hi => ?_⟩
    · rw [List.length_append]
      omega
    · rw [List.getElem?_append_left (by omega), hagree i hi]

/-- Directories lie below the one that a file lies in. -/
def HasBelow (files : List String) (file : String) : Prop :=
  ∃ path ∈ directories files, (folders file).length < path.length ∧
    joined (path.take (folders file).length) = joined (folders file)

/-- Ids tell the places of a listing apart. -/
structure Unambiguous (files : List String) : Prop where
  /-- Places of one id are the same but for the name of the top directory. -/
  told : ∀ path ∈ places files, ∀ other ∈ places files, joined path = joined other → path.tail = other.tail
  /-- If a directory and the one called `root` in it both have files, there are no directories in the latter. -/
  own : ∀ path ∈ files.map folders, ∀ other ∈ files.map folders, other ≠ [] →
    joined path = joined (other ++ [ModuleMap.rootId]) →
      ∀ below ∈ directories files, joined (below.take path.length) = joined path → below.length ≤ path.length
  /-- If there are files in no directory, there are no directories in the one called `root`. -/
  top : [] ∈ files.map folders → ∀ path ∈ directories files, joined (path.take 1) = ModuleMap.rootId → path.length ≤ 1

instance (files : List String) : Decidable (Unambiguous files) :=
  decidable_of_iff (_ ∧ _ ∧ _) ⟨fun h => ⟨h.1, h.2.1, h.2.2⟩, fun h => ⟨h.told, h.own, h.top⟩⟩

namespace Unambiguous

variable {files : List String} (h : Unambiguous files) {path other : List String}
include h

theorem length_eq (hp : path ∈ places files) (ho : other ∈ places files) (heq : joined path = joined other) :
    path.length = other.length := by
  have hne : ∀ p ∈ places files, 0 < p.length := by
    intro p hp
    rcases List.mem_append.1 hp with hp | hp
    · obtain ⟨file, -, -, hne⟩ := mem_directories.1 hp
      exact List.length_pos_iff.2 hne
    · obtain ⟨p, -, rfl⟩ := List.mem_map.1 hp
      simp
  have htail := congrArg List.length (h.told path hp other ho heq)
  have := hne path hp
  have := hne other ho
  simp only [List.length_tail] at htail
  omega

/-- Below the top, the names are the same. -/
theorem getElem?_eq (hp : path ∈ places files) (ho : other ∈ places files) (heq : joined path = joined other)
    {i : Nat} (hi : 0 < i) : path[i]? = other[i]? := by
  obtain ⟨i, rfl⟩ : ∃ j, i = j + 1 := ⟨i - 1, by omega⟩
  rw [← List.getElem?_tail, ← List.getElem?_tail, h.told path hp other ho heq]

end Unambiguous

end CodeIndex
