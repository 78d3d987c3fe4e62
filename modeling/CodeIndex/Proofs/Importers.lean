import CodeIndex.Imports
import CodeIndex.Proofs.Folders
import Mathlib.Data.List.TakeWhile

set_option autoImplicit false

/-!
# Which files import which

An import and a path match when some beginning of the import's words ends as the path does, or the path ends as the
beginning does (`Imports.Matches`).  Here words, paths and their stems are told by what they are, not by how they are
found.  The files one import away from changed ones are exactly those with a matching import (`importers_exact`).
-/

namespace CodeIndex

namespace Text

/-! ## Runs of characters -/

/-- The maximal runs of characters of a class in a text, in order. -/
inductive Stretches (p : Char → Bool) : List Char → List (List Char) → Prop where
  | nil : Stretches p [] []
  | skip {c : Char} {rest : List Char} {found : List (List Char)} : p c = false → Stretches p rest found →
      Stretches p (c :: rest) found
  | run {word rest : List Char} {found : List (List Char)} : word ≠ [] → (∀ c ∈ word, p c = true) →
      (∀ c ∈ rest.head?, p c = false) → Stretches p rest found → Stretches p (word ++ rest) (word :: found)

section Runs

variable {p : Char → Bool}

theorem runs_nil (sep : Char → Bool) : runs sep [] = [] := rfl

theorem runs_cons_of_sep (sep : Char → Bool) {c : Char} (h : sep c = true) (cs : List Char) :
    runs sep (c :: cs) = runs sep cs := by
  simp [runs, split_cons, splitStep, h]

/-- A run up to a separator or the end comes first. -/
theorem runs_append (sep : Char → Bool) {word rest : List Char} (hne : word ≠ []) (hword : ∀ c ∈ word, sep c = false)
    (hrest : ∀ c ∈ rest.head?, sep c = true) : runs sep (word ++ rest) = word :: runs sep rest := by
  have hkept : ∀ more, (word :: more).filter (fun piece => !piece.isEmpty) =
      word :: more.filter fun piece => !piece.isEmpty := fun more => List.filter_cons_of_pos (by simpa using hne)
  cases rest with
  | nil => rw [List.append_nil, runs, split_of_noSep hword, hkept, runs_nil, List.filter_nil]
  | cons c rest =>
    have hc : sep c = true := hrest c rfl
    rw [runs_cons_of_sep sep hc, runs, split_append_sep sep _ _ _ hc, split_of_noSep hword, List.singleton_append, hkept, runs]

theorem stretches_runs (p : Char → Bool) (cs : List Char) : Stretches p cs (runs (fun c => !p c) cs) := by
  induction hn : cs.length using Nat.strong_induction_on generalizing cs with
  | _ n ih =>
    cases cs with
    | nil => exact .nil
    | cons c rest =>
      by_cases hc : p c = true
      · -- the run that starts here, and what is behind it
        have hhead : (c :: rest).takeWhile p = c :: rest.takeWhile p := List.takeWhile_cons_of_pos hc
        have hparts : c :: rest = (c :: rest).takeWhile p ++ (c :: rest).dropWhile p := List.takeWhile_append_dropWhile.symm
        have hne : (c :: rest).takeWhile p ≠ [] := by simp [hhead]
        have hword : ∀ x ∈ (c :: rest).takeWhile p, p x = true := fun x hx => List.mem_takeWhile_imp hx
        have hbehind : ∀ x ∈ ((c :: rest).dropWhile p).head?, p x = false := by
          intro x hx
          have hnot := List.head?_dropWhile_not p (c :: rest)
          rw [Option.mem_def.1 hx] at hnot
          simpa using hnot
        have hshorter : ((c :: rest).dropWhile p).length < n := by
          rw [← hn, List.dropWhile_cons_of_pos hc, List.length_cons]
          exact Nat.lt_succ_of_le (List.dropWhile_sublist p).length_le
        have hruns := runs_append (fun c => !p c) hne (by simpa using hword) (by simpa using hbehind)
        rw [hparts, hruns]
        exact .run hne hword hbehind (ih _ hshorter _ rfl)
      · have hc : p c = false := by simpa using hc
        rw [runs_cons_of_sep (fun c => !p c) (by simpa using hc)]
        exact .skip hc (ih rest.length (by simp [← hn]) rest rfl)

theorem Stretches.eq_runs {cs : List Char} {found : List (List Char)} (h : Stretches p cs found) :
    found = runs (fun c => !p c) cs := by
  induction h with
  | nil => rfl
  | skip hc _ ih => rw [ih, runs_cons_of_sep _ (by simpa using hc)]
  | run hne hword hrest _ ih => rw [ih, runs_append _ hne (by simpa using hword) (by simpa using hrest)]

theorem stretches_iff {cs : List Char} {found : List (List Char)} : Stretches p cs found ↔ found = runs (fun c => !p c) cs :=
  ⟨Stretches.eq_runs, fun h => h ▸ stretches_runs p cs⟩

end Runs

end Text

namespace Imports

open Text Path

/-! ## Paths -/

/-- The stem of a file's name: what is before the last dot, unless that is nothing or there is no dot. -/
def IsStem (name stem : String) : Prop :=
  (stem ≠ "" ∧ ∃ ext, '.' ∉ ext.toList ∧ name = stem ++ "." ++ ext) ∨
    (stem = name ∧ ∀ before ext, before ≠ "" → '.' ∉ ext.toList → name ≠ before ++ "." ++ ext)

/-- The names of a path: its directories and the file's stem, which is left out where the directory says it. -/
def Spells (path : String) (names : List String) : Prop :=
  ∃ stem, IsStem (lastPiece path) stem ∧
    names = (folders path).filter (· ≠ "") ++
      if (folders path).filter (· ≠ "") ≠ [] ∧ stem ∈ directoryStems then [] else [stem]

/-- The stem as the program finds it. -/
def stemOf (name : String) : String :=
  match cutLastIn '.' name with
  | some (stem, _) => if stem = "" then name else stem
  | none => name

theorem isStem_stemOf (name : String) : IsStem name (stemOf name) := by
  rw [stemOf]
  rcases cutLastIn_cases '.' name with ⟨hcut, hno⟩ | ⟨before, ext, hcut, hext, hname⟩
  · rw [hcut]
    refine .inr ⟨rfl, fun before ext _ _ heq => hno ?_⟩
    simp [heq]
  · rw [hcut]
    dsimp only
    split
    · next hempty =>
      -- the only dot after which there is none comes first
      refine .inr ⟨rfl, fun before' ext' hne hext' heq => hne ?_⟩
      rw [heq, cutLastIn_dot before' hext'] at hcut
      cases hcut
      exact hempty
    · next hne => exact .inl ⟨hne, ext, hext, hname⟩

theorem IsStem.unique {name stem stem' : String} (h : IsStem name stem) (h' : IsStem name stem') : stem = stem' := by
  rcases h with ⟨hne, ext, hext, hname⟩ | ⟨rfl, hnone⟩ <;> rcases h' with ⟨hne', ext', hext', hname'⟩ | ⟨rfl, hnone'⟩
  · have hcut := cutLastIn_dot stem hext
    rw [← hname, hname', cutLastIn_dot stem' hext'] at hcut
    cases hcut
    rfl
  · exact absurd hname (hnone' stem ext hne hext)
  · exact absurd hname' (hnone stem' ext' hne' hext')
  · rfl

theorem pathSegments_eq (path : String) : pathSegments path = (folders path).filter (· ≠ "") ++
    if (folders path).filter (· ≠ "") ≠ [] ∧ stemOf (lastPiece path) ∈ directoryStems then []
    else [stemOf (lastPiece path)] := by
  have hchoice : ∀ (dirs : List String) (stem : String), (if (!dirs.isEmpty && directoryStems.contains stem) = true then dirs
      else dirs ++ [stem]) = dirs ++ if dirs ≠ [] ∧ stem ∈ directoryStems then [] else [stem] := by
    intro dirs stem
    by_cases h : dirs ≠ [] ∧ stem ∈ directoryStems
    · simp [h]
    · have hnot : ¬ (!dirs.isEmpty && directoryStems.contains stem) = true := by simpa using h
      rw [if_neg hnot, if_neg h]
  rw [pathSegments, ← hchoice]
  rcases slash_cases path with hno | ⟨-, dir, name, hname, rfl⟩
  · rw [cutLastIn_of_noSlash hno, folders_of_noSlash hno, lastPiece, pieces_of_noSlash hno]
    rfl
  · rw [cutLastIn_slash dir hname, folders_slash_name dir hname, lastPiece, pieces_append_slash, pieces_of_noSlash hname,
      List.getLastD_concat]
    rfl

theorem spells_iff {path : String} {names : List String} : Spells path names ↔ names = pathSegments path := by
  rw [pathSegments_eq]
  constructor
  · rintro ⟨stem, hstem, rfl⟩
    rw [hstem.unique (isStem_stemOf (lastPiece path))]
  · rintro rfl
    exact ⟨_, isStem_stemOf (lastPiece path), rfl⟩

/-! ## Matching -/

/-- The words of an import, without those that only say where it starts. -/
def Words (target : String) (words : List String) : Prop :=
  ∃ found, Stretches isSegmentChar target.toList found ∧ words = (found.map String.ofList).filter (· ∉ anchors)

/-- Some beginning of the import's words ends as the path does, or the path ends as it does. -/
def Matches (target path : String) : Prop :=
  ∃ names words, Spells path names ∧ Words target words ∧
    ∃ beginning, beginning ≠ [] ∧ beginning <+: words ∧ (beginning <:+ names ∨ names <:+ beginning)

theorem words_iff {target : String} {words : List String} : Words target words ↔ words = importSegments target := by
  have hfilter : ∀ found : List (List Char), (found.map String.ofList).filter (fun s => decide (s ∉ anchors)) =
      (found.map String.ofList).filter fun s => !anchors.contains s := by
    intro found
    simp
  simp only [Words, stretches_iff, exists_eq_left, hfilter]
  rfl

theorem concat_suffix_concat {xs ys : List String} {x y : String} : xs ++ [x] <:+ ys ++ [y] ↔ x = y ∧ xs <:+ ys := by
  rw [← List.reverse_prefix, List.reverse_concat, List.reverse_concat, List.cons_prefix_cons, List.reverse_prefix]

theorem agreeAtEnd_reverse (xs ys : List String) : agreeAtEnd xs.reverse ys.reverse = true ↔ xs <+: ys ∨ ys <+: xs := by
  unfold agreeAtEnd
  rw [List.reverse_reverse, List.reverse_reverse]
  induction xs generalizing ys with
  | nil => simp
  | cons x xs ih =>
    cases ys with
    | nil => simp
    | cons y ys =>
      rw [List.zip_cons_cons, List.all_cons, Bool.and_eq_true, ih, List.cons_prefix_cons, List.cons_prefix_cons,
        beq_iff_eq]
      tauto

theorem agreeAtEnd_iff {a b : List String} : agreeAtEnd a b = true ↔ a <:+ b ∨ b <:+ a := by
  rw [← List.reverse_reverse a, ← List.reverse_reverse b, agreeAtEnd_reverse, List.reverse_suffix, List.reverse_suffix]

/-- Every place where the last name occurs among the words is the end of a beginning. -/
theorem any_zipIdx_iff {words parents : List String} {last : String} :
    (words.zipIdx.any fun (segment, i) => segment == last && agreeAtEnd (words.take i) parents) = true ↔
      ∃ beginning, beginning ≠ [] ∧ beginning <+: words ∧
        (beginning <:+ parents ++ [last] ∨ parents ++ [last] <:+ beginning) := by
  simp only [List.any_eq_true, Prod.exists, List.mk_mem_zipIdx_iff_getElem?, Bool.and_eq_true, beq_iff_eq, agreeAtEnd_iff]
  constructor
  · rintro ⟨segment, i, hget, rfl, hends⟩
    have hbeginning : words.take (i + 1) = words.take i ++ [segment] := by rw [List.take_add_one, hget, Option.toList_some]
    refine ⟨words.take i ++ [segment], by simp, hbeginning ▸ List.take_prefix _ _, ?_⟩
    simpa only [concat_suffix_concat, true_and] using hends
  · rintro ⟨beginning, hne, ⟨rest, rfl⟩, hends⟩
    obtain ⟨front, segment, rfl⟩ := (List.eq_nil_or_concat beginning).resolve_left hne
    simp only [List.concat_eq_append, concat_suffix_concat] at hends
    refine ⟨segment, front.length, by simp, ?_, ?_⟩
    · exact hends.elim And.left fun h => h.1.symm
    · simpa using hends.imp And.right And.right

theorem isMatch_iff {target path : String} : isMatch target path = true ↔ Matches target path := by
  simp only [Matches, spells_iff, words_iff, exists_and_left, exists_eq_left]
  have hne : pathSegments path ≠ [] := by
    rw [pathSegments_eq]
    split
    · next h => simpa using h.1
    · simp
  obtain ⟨parents, last, hnames⟩ := (List.eq_nil_or_concat (pathSegments path)).resolve_left hne
  rw [isMatch, hnames, List.concat_eq_append, List.reverse_concat]
  simp only [List.reverse_reverse]
  exact any_zipIdx_iff

/-! ## Files by what they import -/

/-- The map has the file under the import. -/
def Lists (g : Dict Names) (target file : String) : Prop := ∃ files, g.get? target = some files ∧ file ∈ files.keys

variable {target file : String}

theorem lists_update (g : Dict Names) (target' path : String) :
    Lists (g.update target' {} fun s => Names.add s path) target file ↔
      Lists g target file ∨ target = target' ∧ file = path := by
  rw [Lists, Dict.get?_update]
  by_cases htarget : target' = target
  · subst htarget
    simp only [if_true, Option.some.injEq, exists_eq_left', Dict.mem_keys_add, Lists, true_and]
    cases g.get? target' with
    | none => simp [Dict.mem_keys]
    | some files => simp [or_comm]
  · simp only [if_neg htarget, Lists, Ne.symm htarget, false_and, or_false]

/-- A loop every step of which adds some entries adds the entries of all steps. -/
theorem lists_foldl {α : Type} {step : Dict Names → α → Dict Names} {adds : α → Prop}
    (h : ∀ g x, Lists (step g x) target file ↔ Lists g target file ∨ adds x) (xs : List α) (g : Dict Names) :
    Lists (xs.foldl step g) target file ↔ Lists g target file ∨ ∃ x ∈ xs, adds x := by
  induction xs generalizing g with
  | nil => simp
  | cons x rest ih =>
    rw [List.foldl_cons, ih, h]
    simp [or_assoc]

theorem lists_graph {shards : List Shard} : Lists (graph shards) target file ↔
    ∃ shard ∈ shards, ∃ entry, shard.files.get? file = some entry ∧ target ∈ entry.outline.imports := by
  have hfile : ∀ (g : Dict Names) (path : String) (imports : List String),
      Lists (imports.foldl (fun g target => g.update target {} fun s => Names.add s path) g) target file ↔
        Lists g target file ∨ ∃ target' ∈ imports, target = target' ∧ file = path :=
    fun g path imports => lists_foldl (fun g target' => lists_update g target' path) imports g
  have hnone : ¬ Lists {} target file := by simp [Lists]
  rw [graph, lists_foldl (fun g shard => lists_foldl (fun g e => hfile g e.1 e.2.outline.imports) shard.files.toList g)]
  simp only [hnone, false_or, Prod.exists, Dict.mem_toList]
  refine exists_congr fun shard => and_congr_right fun _ => ?_
  constructor
  · rintro ⟨path, entry, hentry, target', hmem, rfl, rfl⟩
    exact ⟨entry, hentry, hmem⟩
  · rintro ⟨entry, hentry, hmem⟩
    exact ⟨file, entry, hentry, target, hmem, rfl, rfl⟩

/-- The importers of changed files are exactly the unchanged files with an import that matches a changed file. -/
theorem importers_exact (shards : List Shard) (changed : List String) :
    (importers (graph shards) changed).Pairwise (· < ·) ∧ ∀ file, file ∈ importers (graph shards) changed ↔
      file ∉ changed ∧ ∃ shard ∈ shards, ∃ entry, shard.files.get? file = some entry ∧
        ∃ target ∈ entry.outline.imports, ∃ path ∈ changed, Matches target path := by
  refine ⟨pairwise_sortedSet _, fun file => ?_⟩
  have hlisted : file ∈ importers (graph shards) changed ↔
      file ∉ changed ∧ ∃ target, Lists (graph shards) target file ∧ ∃ path ∈ changed, Matches target path := by
    simp only [importers, mem_sortedSet, List.mem_flatMap, List.mem_filter, Prod.exists, Dict.mem_toList, List.any_eq_true,
      isMatch_iff, Lists, Bool.not_eq_true', List.contains_eq_mem, decide_eq_false_iff_not]
    tauto
  simp only [hlisted, lists_graph]
  refine and_congr_right fun _ => ⟨?_, ?_⟩
  · rintro ⟨target, ⟨shard, hshard, entry, hentry, hmem⟩, hmatch⟩
    exact ⟨shard, hshard, entry, hentry, target, hmem, hmatch⟩
  · rintro ⟨shard, hshard, entry, hentry, target, hmem, hmatch⟩
    exact ⟨target, ⟨shard, hshard, entry, hentry, hmem⟩, hmatch⟩

end Imports

end CodeIndex
