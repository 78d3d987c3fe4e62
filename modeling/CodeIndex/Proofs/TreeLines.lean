import CodeIndex.Proofs.DisplayTree

set_option autoImplicit false

/-!
# The lines of the display tree

What a directory lists is said from its paths alone: the directories in which they start, each with the number of paths
in it, and the first of the files.  The lines are these entries drawn one below the other, where only the last one of a
directory closes it.
-/

namespace CodeIndex.DirTree

open Text

/-- An entry in the listing of a directory. -/
inductive Entry where
  /-- A directory with the number of files that it announces and what is listed below it. -/
  | directory (name : String) (count : Nat) (below : List Entry)
  | file (name : String)
  /-- So many files are not listed. -/
  | more (count : Nat)

mutual

/-- The lines of an entry; what is below it is set off by its indentation. -/
def Entry.lines (indent : String) (isLast : Bool) : Entry → List String
  | .directory name count below =>
    (indent ++ connector isLast ++ " " ++ name ++ "/ " ++ countText count) :: draw (indent ++ indentation isLast) below
  | .file name => [indent ++ connector isLast ++ " " ++ name]
  | .more count => [indent ++ connector isLast ++ " " ++ ("... " ++ toString count ++ " more files")]

/-- The lines of the entries of a directory. -/
def draw (indent : String) : List Entry → List String
  | [] => []
  | e :: rest => e.lines indent rest.isEmpty ++ draw indent rest

end

/-- A directory in a listing: its name, the number that it announces, and the entries below it. -/
abbrev Folder := String × Nat × List Entry

/-- Files, and the number of those that are hidden. -/
def fileEntries (files : List String) (hidden : Nat) : List Entry :=
  files.map .file ++ if hidden = 0 then [] else [.more hidden]

/-- Directories come before files. -/
def entries (folders : List Folder) (files : List String) (hidden : Nat) : List Entry :=
  folders.map (fun f => .directory f.1 f.2.1 f.2.2) ++ fileEntries files hidden

/-- The first files in order. -/
def shown (files : List String) : List String := (files.mergeSort fun a b => decide (a ≤ b)).take 10

/-- What is listed of some paths, so many levels deep. -/
def listing : Nat → List String → List Entry
  | 0, _ => []
  | levels + 1, paths =>
    entries ((tops paths).map fun dir => (dir, (within dir paths).length, listing levels (within dir paths)))
      (shown (loose paths)) ((loose paths).length - 10)

/-- Entries that account for a number of files: what the directories announce, the files that are listed and those that
    are hidden come to it, and every directory that is listed in turn accounts for what it announces. -/
inductive Accounts : Nat → Nat → List Entry → Prop
  | collapsed {count : Nat} : Accounts 0 count []
  | listed {levels count hidden : Nat} {folders : List Folder} {files : List String}
      (total : (folders.map fun f => f.2.1).sum + files.length + hidden = count)
      (folders_ordered : folders.Pairwise fun f g => f.1 < g.1) (files_ordered : files.Pairwise (· ≤ ·))
      (limit : files.length ≤ 10) (full : 0 < hidden → files.length = 10)
      (below : ∀ f ∈ folders, Accounts levels f.2.1 f.2.2) : Accounts (levels + 1) count (entries folders files hidden)

theorem draw_cons (indent : String) (e : Entry) (rest : List Entry) :
    draw indent (e :: rest) = e.lines indent rest.isEmpty ++ draw indent rest := by
  rw [draw]

variable {paths paths' : List String}

theorem length_shown (files : List String) : (shown files).length = min 10 files.length := by
  rw [shown, List.length_take, List.length_mergeSort]

theorem accounts_listing (levels : Nat) (paths : List String) : Accounts levels paths.length (listing levels paths) := by
  induction levels generalizing paths with
  | zero => exact .collapsed
  | succ levels ih =>
    have hshown := length_shown (loose paths)
    refine .listed ?_ ?_ ?_ ?_ ?_ ?_
    · rw [List.map_map, length_eq paths, hshown]
      simp only [Function.comp_def]
      omega
    · exact List.pairwise_map.2 (pairwise_sortedSet _)
    · exact (pairwise_le_mergeSort _).take
    · omega
    · omega
    · intro f hf
      obtain ⟨dir, -, rfl⟩ := List.mem_map.1 hf
      exact ih (within dir paths)

/-! ## Drawing -/

/-- Lines that are no directories, of which the last is told apart. -/
def closing (line : Bool → String → String) : List String → List String
  | [] => []
  | text :: rest => line rest.isEmpty text :: closing line rest

theorem map_zipIdx_eq_closing (line : Bool → String → String) (texts : List String) (start : Nat) :
    (texts.zipIdx start).map (fun x => line (x.2 + 1 == start + texts.length) x.1) = closing line texts := by
  induction texts generalizing start with
  | nil => rfl
  | cons text rest ih =>
    have hlength : start + (text :: rest).length = start + 1 + rest.length := by
      rw [List.length_cons]
      omega
    have hlast : (start + 1 == start + 1 + rest.length) = rest.isEmpty := by
      cases rest with
      | nil => simp
      | cons _ _ => simp
    rw [List.zipIdx_cons, List.map_cons, hlength, ih, closing, hlast]

theorem closing_files (indent : String) (files : List String) (hidden : Nat) :
    closing (fun isLast text => indent ++ connector isLast ++ " " ++ text)
        (files ++ if 0 < hidden then ["... " ++ toString hidden ++ " more files"] else []) =
      draw indent (fileEntries files hidden) := by
  induction files with
  | nil =>
    by_cases h : hidden = 0
    · simp [h, closing, fileEntries, draw]
    · simp [h, Nat.pos_of_ne_zero h, closing, fileEntries, draw, Entry.lines]
  | cons file rest ih =>
    have hempty : (rest ++ if 0 < hidden then ["... " ++ toString hidden ++ " more files"] else []).isEmpty =
        (fileEntries rest hidden).isEmpty := by
      cases rest with
      | nil => by_cases h : hidden = 0 <;> simp [h, fileEntries, Nat.pos_iff_ne_zero]
      | cons _ _ => rfl
    rw [List.cons_append, closing, ih, hempty]
    rfl

theorem fileLines_eq (indent : String) (files : List String) :
    fileLines indent files = draw indent (fileEntries (shown files) (files.length - 10)) := by
  have hhidden : (files.mergeSort fun a b => decide (a ≤ b)).length - (shown files).length = files.length - 10 := by
    rw [length_shown, List.length_mergeSort]
    omega
  rw [← closing_files, ← map_zipIdx_eq_closing _ _ 0, ← hhidden, fileLines]
  simp only [Nat.zero_add, gt_iff_lt]
  rfl

/-- Some file is listed if there are files. -/
theorem isEmpty_shown (files : List String) : files.isEmpty = (fileEntries (shown files) (files.length - 10)).isEmpty := by
  cases files with
  | nil => simp [fileEntries, shown]
  | cons file rest =>
    obtain ⟨first, others, hshown⟩ : ∃ first others, shown (file :: rest) = first :: others :=
      List.exists_cons_of_length_pos (by rw [length_shown, List.length_cons]; omega)
    rw [hshown]
    rfl

theorem dirLines_eq {levels : Nat}
    (hbelow : ∀ indent paths, linesOf levels indent (ofFiles paths) = draw indent (listing levels paths)) (indent : String)
    (inside : String → List String) (names : List String) (after : List Entry) :
    dirLines (levels + 1) indent after.isEmpty (names.map fun dir => (dir, ofFiles (inside dir))) ++ draw indent after =
      draw indent (names.map (fun dir => .directory dir (inside dir).length (listing levels (inside dir))) ++ after) := by
  induction names with
  | nil => rfl
  | cons dir rest ih =>
    have hempty : (after.isEmpty && (rest.map fun dir => (dir, ofFiles (inside dir))).isEmpty) =
        (rest.map (fun dir => Entry.directory dir (inside dir).length (listing levels (inside dir))) ++ after).isEmpty := by
      cases rest with
      | nil => exact Bool.and_true _
      | cons _ _ => exact Bool.and_false _
    rw [List.map_cons, List.map_cons, List.cons_append, draw_cons, ← ih, dirLines, Entry.lines, hempty, fileCount_ofFiles,
      Nat.add_sub_cancel, hbelow, List.append_assoc]

theorem linesOf_ofFiles (levels : Nat) (indent : String) (paths : List String) :
    linesOf levels indent (ofFiles paths) = draw indent (listing levels paths) := by
  induction levels generalizing indent paths with
  | zero => rw [ofFiles_eq, linesOf, if_pos rfl, listing, draw]
  | succ levels ih =>
    rw [ofFiles_eq, linesOf, if_neg (Nat.succ_ne_zero levels), fileLines_eq, isEmpty_shown, listing, entries, List.map_map]
    exact dirLines_eq ih indent (fun dir => within dir paths) (tops paths) _

/-! ## The order of the paths -/

theorem listing_congr (levels : Nat) (h : paths.Perm paths') : listing levels paths = listing levels paths' := by
  induction levels generalizing paths paths' with
  | zero => rfl
  | succ levels ih =>
    have htops : tops paths = tops paths' := sortedSet_congr fun name => (h.filterMap top?).mem_iff
    have hloose : (loose paths).Perm (loose paths') := h.filter _
    have hwithin : ∀ dir, (within dir paths).Perm (within dir paths') := fun dir => h.filterMap (below? dir)
    have hfolders : (fun dir => ((dir, (within dir paths).length, listing levels (within dir paths)) : Folder)) =
        fun dir => (dir, (within dir paths').length, listing levels (within dir paths')) :=
      funext fun dir => by rw [(hwithin dir).length_eq, ih (hwithin dir)]
    rw [listing, listing, htops, hfolders, shown, shown, mergeSort_congr hloose, hloose.length_eq]

/-- The tree of some paths is the drawing of what they list, this accounts for every path in every directory, and only
    what the paths are matters, not their order. -/
theorem tree_accounts_for_files (root : String) (files : List String) (levels : Nat) :
    render root files levels = (root ++ "/") :: draw "" (listing levels files) ∧
      Accounts levels files.length (listing levels files) ∧
      ∀ {files' : List String}, files.Perm files' → render root files' levels = render root files levels := by
  have hrender : ∀ files, render root files levels = (root ++ "/") :: draw "" (listing levels files) := fun files => by
    rw [render, linesOf_ofFiles]
  refine ⟨hrender files, accounts_listing levels files, fun hperm => ?_⟩
  rw [hrender, hrender, listing_congr levels hperm]

/-- Files of a directory, of one inside it, and beside it. -/
def spread : List String := ["src/main.rs", "README.md", "src/util/io.rs"]

theorem tree_accounts_for_files_spread : spread.Perm ["README.md", "src/util/io.rs", "src/main.rs"] ∧
    render "demo" ["README.md", "src/util/io.rs", "src/main.rs"] 2 = render "demo" spread 2 ∧
    render "demo" spread 2 =
      ["demo/", "├── src/ (2 files)", "│   ├── util/ (1 file)", "│   └── main.rs", "└── README.md"] := by
  have hperm : spread.Perm ["README.md", "src/util/io.rs", "src/main.rs"] := by decide
  exact ⟨hperm, (tree_accounts_for_files "demo" spread 2).2.2 hperm, by decide +kernel⟩

end CodeIndex.DirTree
