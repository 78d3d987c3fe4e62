import CodeIndex.DisplayTree
import CodeIndex.Proofs.Folders
import Mathlib.Algebra.Ring.Nat

set_option autoImplicit false

/-!
# The tree that paths make

The tree of some paths has a directory for each name that comes first in one of them, and what is in the directory is
the tree of what is left of those paths; so it counts as many files as there are paths.
-/

namespace CodeIndex.DirTree

open Text

/-- The directory in which a path starts, if it starts in one. -/
def top? (path : String) : Option String := (cutFirstIn '/' path).map Prod.fst

/-- What is left of a path inside a directory. -/
def below? (dir path : String) : Option String :=
  (cutFirstIn '/' path).bind fun sides => if sides.1 = dir then some sides.2 else none

/-- The names of the directories in which paths start. -/
def tops (paths : List String) : List String := sortedSet (paths.filterMap top?)

/-- The paths that start in a directory, seen from there. -/
def within (dir : String) (paths : List String) : List String := paths.filterMap (below? dir)

/-- The paths that are no more than a name. -/
def loose (paths : List String) : List String := paths.filter fun path => (cutFirstIn '/' path).isNone

variable {name dir rest path : String} {paths : List String} {t : DirTree}

theorem within_of_notMem (h : dir ∉ paths.filterMap top?) : within dir paths = [] := by
  refine List.filterMap_eq_nil_iff.2 fun path hpath => ?_
  cases hcut : cutFirstIn '/' path with
  | none => rw [below?, hcut, Option.bind_none]
  | some sides =>
    rw [below?, hcut, Option.bind_some, if_neg]
    rintro rfl
    exact h (List.mem_filterMap.2 ⟨path, hpath, by rw [top?, hcut, Option.map_some]⟩)

/-! ## Adding one path -/

/-- A path that starts in a directory is added to that directory, and any other to the files. -/
theorem insert_eq (path : String) (t : DirTree) : t.insert path =
    match cutFirstIn '/' path with
    | some (dir, rest) => .node (change dir (insert rest) t.dirs) t.files
    | none => .node t.dirs (t.files ++ [path]) := by
  cases t with
  | node dirs files =>
    obtain hname | ⟨⟨dir, rest, hdir, rfl⟩, -⟩ := Path.slash_cases path
    · rw [Path.cutFirstIn_of_noSlash hname, insert, splitPath, Path.pieces_of_noSlash hname]
      rfl
    · rw [Path.cutFirstIn_slash hdir, insert, splitPath, Path.pieces_append_slash, Path.pieces_of_noSlash hdir,
        List.singleton_append, List.dropLast_cons_of_ne_nil (Path.pieces_ne_nil rest),
        List.getLast?_cons_of_ne_nil (Path.pieces_ne_nil rest)]
      rfl

theorem change_eq_place (f : DirTree → DirTree) {dirs : List (String × DirTree)} (h : Ascending dirs) :
    change name f dirs = Dict.place name (f ((Dict.find? name dirs).getD empty)) dirs := by
  induction dirs with
  | nil => rfl
  | cons head rest ih =>
    obtain ⟨other, t⟩ := head
    obtain ⟨hhead, hrest⟩ := List.pairwise_cons.1 h
    rw [change, Dict.place]
    split
    · next hlt =>
      have hnone : Dict.find? name ((other, t) :: rest) = none := by
        refine Dict.find?_eq_none.2 fun e he => ?_
        rcases List.mem_cons.1 he with rfl | he
        · exact (Std.ne_of_lt hlt).symm
        · exact (Std.ne_of_lt (String.lt_trans hlt (hhead e he))).symm
      rw [hnone]
      rfl
    · split
      · next hlt => rw [ih hrest, Dict.find?, if_neg (Std.ne_of_lt hlt)]
      · next hge hle =>
        have heq : other = name := String.le_antisymm (String.not_lt.1 hge) (String.not_lt.1 hle)
        rw [Dict.find?, if_pos heq, heq]
        rfl

theorem fileCountIn_change {f : DirTree → DirTree} (hf : ∀ t, (f t).fileCount = t.fileCount + 1)
    (dirs : List (String × DirTree)) : fileCountIn (change name f dirs) = fileCountIn dirs + 1 := by
  have hempty : (f empty).fileCount = 1 := hf empty
  induction dirs with
  | nil => simp [change, fileCountIn, hempty]
  | cons head rest ih =>
    obtain ⟨other, t⟩ := head
    rw [change]
    split
    · simp only [fileCountIn, hempty]
      omega
    · split
      · simp only [fileCountIn, ih]
        omega
      · simp only [fileCountIn, hf]
        omega

theorem fileCount_addAt (dirs : List String) (file : String) (t : DirTree) :
    (addAt dirs file t).fileCount = t.fileCount + 1 := by
  induction dirs generalizing t with
  | nil =>
    cases t
    simp only [addAt, fileCount, List.length_append, List.length_singleton]
    omega
  | cons dir rest ih =>
    cases t
    simp only [addAt, fileCount, fileCountIn_change ih]
    omega

/-! ## All paths -/

theorem ofFiles_append_singleton (paths : List String) (path : String) :
    ofFiles (paths ++ [path]) = (ofFiles paths).insert path := by
  rw [ofFiles, List.foldl_append]
  rfl

/-- As many files are counted as there are paths. -/
theorem fileCount_ofFiles (paths : List String) : (ofFiles paths).fileCount = paths.length := by
  induction paths using List.reverseRecOn with
  | nil => rfl
  | append_singleton init last ih =>
    rw [ofFiles_append_singleton, insert, fileCount_addAt, ih, List.length_append, List.length_singleton]

/-- A tree whose directories are in order, each with the tree of the paths in it. -/
structure Shows (paths : List String) (t : DirTree) : Prop where
  ascending : Ascending t.dirs
  dirs : ∀ name, Dict.find? name t.dirs = if name ∈ paths.filterMap top? then some (ofFiles (within name paths)) else none
  files : t.files = loose paths

theorem Shows.insert (h : Shows paths t) (path : String) : Shows (paths ++ [path]) (t.insert path) := by
  rw [insert_eq]
  cases hcut : cutFirstIn '/' path with
  | none =>
    have hwithin : ∀ name, within name (paths ++ [path]) = within name paths := fun name => by
      simp [within, below?, hcut]
    have htops : (paths ++ [path]).filterMap top? = paths.filterMap top? := by simp [top?, hcut]
    refine ⟨h.ascending, fun name => ?_, ?_⟩
    · rw [hwithin, htops]
      exact h.dirs name
    · have hloose : loose (paths ++ [path]) = loose paths ++ [path] := by simp [loose, hcut]
      rw [hloose, ← h.files]
      rfl
  | some sides =>
    obtain ⟨dir, rest⟩ := sides
    have htop : top? path = some dir := by rw [top?, hcut, Option.map_some]
    have hloose : loose (paths ++ [path]) = loose paths := by simp [loose, hcut]
    have hfound : (Dict.find? dir t.dirs).getD empty = ofFiles (within dir paths) := by
      rw [h.dirs]
      split
      · rfl
      · next hnot => rw [within_of_notMem hnot]; rfl
    have hplace : change dir (DirTree.insert rest) t.dirs =
        Dict.place dir ((ofFiles (within dir paths)).insert rest) t.dirs := by
      rw [change_eq_place _ h.ascending, hfound]
    dsimp only
    rw [hplace]
    refine ⟨Dict.ascending_place dir _ h.ascending, fun name => ?_, h.files.trans hloose.symm⟩
    change Dict.find? name (Dict.place dir _ t.dirs) = _
    rw [Dict.find?_place dir name _ h.ascending]
    by_cases hname : dir = name
    · have hwithin : within name (paths ++ [path]) = within name paths ++ [rest] := by simp [within, below?, hcut, hname]
      rw [if_pos hname, if_pos (by simp [htop, hname]), hwithin, ofFiles_append_singleton, hname]
    · have hwithin : within name (paths ++ [path]) = within name paths := by simp [within, below?, hcut, hname]
      rw [if_neg hname, h.dirs, hwithin]
      simp [htop, Ne.symm hname]

theorem shows_ofFiles (paths : List String) : Shows paths (ofFiles paths) := by
  induction paths using List.reverseRecOn with
  | nil => exact ⟨List.Pairwise.nil, fun _ => rfl, rfl⟩
  | append_singleton init last ih =>
    rw [ofFiles_append_singleton]
    exact ih.insert last

theorem find?_map_names {α : Type} (f : String → α) (names : List String) (name : String) :
    Dict.find? name (names.map fun n => (n, f n)) = if name ∈ names then some (f name) else none := by
  split
  · next h =>
    refine Dict.find?_eq_some (fun v hv => ?_) (List.mem_map.2 ⟨name, h, rfl⟩)
    obtain ⟨n, -, heq⟩ := List.mem_map.1 hv
    cases heq
    rfl
  · next h =>
    refine Dict.find?_eq_none.2 fun e he heq => h ?_
    obtain ⟨n, hn, rfl⟩ := List.mem_map.1 he
    exact heq ▸ hn

theorem dirs_ofFiles (paths : List String) :
    (ofFiles paths).dirs = (tops paths).map fun dir => (dir, ofFiles (within dir paths)) := by
  have hshows := shows_ofFiles paths
  have hascending : Ascending ((tops paths).map fun dir => (dir, ofFiles (within dir paths))) :=
    List.pairwise_map.2 (pairwise_sortedSet _)
  have hsame : (⟨(ofFiles paths).dirs, hshows.ascending⟩ : Dict DirTree) = ⟨_, hascending⟩ := by
    refine Dict.ext_get? fun name => ?_
    rw [Dict.get?, Dict.get?, hshows.dirs, find?_map_names]
    simp only [tops, mem_sortedSet]
  exact congrArg Dict.entries hsame

theorem ofFiles_eq (paths : List String) :
    ofFiles paths = .node ((tops paths).map fun dir => (dir, ofFiles (within dir paths))) (loose paths) := by
  rw [← dirs_ofFiles, ← (shows_ofFiles paths).files]
  cases ofFiles paths
  rfl

theorem fileCountIn_map (f : String → DirTree) (names : List String) :
    fileCountIn (names.map fun name => (name, f name)) = (names.map fun name => (f name).fileCount).sum := by
  induction names with
  | nil => rfl
  | cons name rest ih => rw [List.map_cons, fileCountIn, ih, List.map_cons, List.sum_cons]

/-- Every path is no more than a name, or starts in one of the directories. -/
theorem length_eq (paths : List String) :
    paths.length = (loose paths).length + ((tops paths).map fun dir => (within dir paths).length).sum := by
  rw [← fileCount_ofFiles, ofFiles_eq, fileCount, fileCountIn_map]
  simp only [fileCount_ofFiles]

end CodeIndex.DirTree
