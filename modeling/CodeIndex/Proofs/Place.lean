import CodeIndex.Disk
import CodeIndex.Proofs.ModuleId
import CodeIndex.Store
import Mathlib.Data.List.Induction

set_option autoImplicit false

/-!
# Where paths lead

A path that is absolute leads to the same place from everywhere, and joined paths are followed one after
the other.  What is put behind a path without a slash in it only lengthens the last name, so a document and
the file beside it, in which it is prepared, lie in one directory.
-/

namespace CodeIndex.Text

theorem split_append_sep (sep : Char → Bool) (xs ys : List Char) (c : Char) (hc : sep c = true) :
    split sep (xs ++ c :: ys) = split sep xs ++ split sep ys := by
  induction xs with
  | nil => simp [split_cons, splitStep, hc, split_nil]
  | cons x xs ih =>
    rw [List.cons_append, split_cons, split_cons, ih]
    cases h : split sep xs with
    | nil => exact absurd h (split_ne_nil sep xs)
    | cons piece rest => by_cases hx : sep x = true <;> simp [splitStep, hx]

/-- Without a separator in it, what comes behind only lengthens the last piece. -/
theorem split_append (sep : Char → Bool) (xs ys : List Char) (hy : ∀ c ∈ ys, sep c = false) :
    split sep (xs ++ ys) = (split sep xs).dropLast ++ [(split sep xs).getLastD [] ++ ys] := by
  induction xs with
  | nil =>
    rw [List.nil_append, split_nil]
    induction ys with
    | nil => rfl
    | cons y ys ih =>
      rw [split_cons, ih fun c hc => hy c (List.mem_cons_of_mem _ hc)]
      simp [splitStep, hy y (by simp)]
  | cons x xs ih =>
    rw [List.cons_append, split_cons, split_cons, ih]
    cases h : split sep xs with
    | nil => exact absurd h (split_ne_nil sep xs)
    | cons piece rest =>
      by_cases hx : sep x = true
      · simp [splitStep, hx, List.getLastD]
      · cases rest <;> simp [splitStep, hx, List.getLastD]

theorem split_of_noSep {sep : Char → Bool} {cs : List Char} (h : ∀ c ∈ cs, sep c = false) : split sep cs = [cs] := by
  have hsplit := split_append sep [] cs h
  simpa [split_nil] using hsplit

theorem beq_of_notMem {c : Char} {cs : List Char} (h : c ∉ cs) : ∀ x ∈ cs, (x == c) = false := by
  intro x hx
  rw [beq_eq_false_iff_ne]
  rintro rfl
  exact h hx

/-- Pieces with a separator before each but the first. -/
theorem split_flatMap {c : Char} (first : List Char) (rest : List (List Char)) (h : ∀ piece ∈ first :: rest, c ∉ piece) :
    split (· == c) (first ++ rest.flatMap (c :: ·)) = first :: rest := by
  induction rest generalizing first with
  | nil => rw [List.flatMap_nil, List.append_nil, split_of_noSep (beq_of_notMem (h first List.mem_cons_self))]
  | cons next rest ih =>
    rw [List.flatMap_cons, List.cons_append, split_append_sep (· == c) _ _ c (beq_self_eq_true c),
      split_of_noSep (beq_of_notMem (h first List.mem_cons_self)), List.singleton_append,
      ih next fun piece hpiece => h piece (List.mem_cons_of_mem _ hpiece)]

/-! ## Cutting -/

theorem cutFirst_append {sep : Char} {before : List Char} (h : sep ∉ before) (after : List Char) :
    cutFirst sep (before ++ sep :: after) = some (before, after) := by
  induction before with
  | nil => simp [cutFirst]
  | cons c rest ih =>
    have hc : c ≠ sep := fun heq => h (heq ▸ List.mem_cons_self)
    have hrest : sep ∉ rest := fun hmem => h (List.mem_cons_of_mem _ hmem)
    simp [cutFirst, hc, ih hrest]

theorem cutLast_append {sep : Char} {after : List Char} (h : sep ∉ after) (before : List Char) :
    cutLast sep (before ++ sep :: after) = some (before, after) := by
  have hrev : (before ++ sep :: after).reverse = after.reverse ++ sep :: before.reverse := by simp
  rw [cutLast, hrev, cutFirst_append (by simpa using h)]
  simp

theorem cutFirst_eq_some {sep : Char} {cs before after : List Char} (h : cutFirst sep cs = some (before, after)) :
    cs = before ++ sep :: after := by
  induction cs generalizing before with
  | nil => cases h
  | cons c rest ih =>
    unfold cutFirst at h
    by_cases hc : c = sep
    · rw [if_pos hc] at h
      cases h
      rw [hc, List.nil_append]
    · rw [if_neg hc, Option.map_eq_some_iff] at h
      obtain ⟨⟨before', after'⟩, hrest, heq⟩ := h
      cases heq
      rw [ih hrest, List.cons_append]

theorem cutLastIn_eq_some {sep : Char} {text before after : String}
    (h : cutLastIn sep text = some (before, after)) : text = before ++ String.ofList [sep] ++ after := by
  rw [cutLastIn, Option.map_eq_some_iff] at h
  obtain ⟨⟨front, back⟩, hcut, heq⟩ := h
  cases heq
  rw [cutLast, Option.map_eq_some_iff] at hcut
  obtain ⟨⟨back', front'⟩, hfirst, heq⟩ := hcut
  cases heq
  have hrev := cutFirst_eq_some hfirst
  have htext : text.toList = front'.reverse ++ sep :: back'.reverse := by
    rw [← List.reverse_reverse text.toList, hrev]
    simp
  rw [← String.toList_inj]
  simp [htext]

theorem cutLastIn_of_notMem {sep : Char} {text : String} (h : sep ∉ text.toList) : cutLastIn sep text = none := by
  cases hcut : cutLastIn sep text with
  | none => rfl
  | some sides =>
    rw [cutLastIn_eq_some hcut] at h
    simp at h

theorem cutLastIn_append {sep : Char} (before : String) {after : String} (h : sep ∉ after.toList) :
    cutLastIn sep (before ++ String.ofList [sep] ++ after) = some (before, after) := by
  have hchars : (before ++ String.ofList [sep] ++ after).toList = before.toList ++ sep :: after.toList := by simp
  rw [cutLastIn, hchars, cutLast_append h]
  simp

theorem cutLastIn_dot (stem : String) {ext : String} (h : '.' ∉ ext.toList) :
    cutLastIn '.' (stem ++ "." ++ ext) = some (stem, ext) :=
  cutLastIn_append stem h

/-- A text without the character is not cut, and any other behind the last one. -/
theorem cutLastIn_cases (sep : Char) (text : String) : (cutLastIn sep text = none ∧ sep ∉ text.toList) ∨
    ∃ before after, cutLastIn sep text = some (before, after) ∧ sep ∉ after.toList ∧
      text = before ++ String.ofList [sep] ++ after := by
  by_cases h : sep ∈ text.toList
  · right
    obtain ⟨after, before, heq, hno⟩ := List.eq_append_cons_of_mem (List.mem_reverse.2 h)
    have hafter : sep ∉ (String.ofList after.reverse).toList := by simpa using hno
    have htext : text = String.ofList before.reverse ++ String.ofList [sep] ++ String.ofList after.reverse := by
      rw [← String.toList_inj, ← List.reverse_reverse text.toList, heq]
      simp
    exact ⟨_, _, by rw [htext, cutLastIn_append _ hafter], hafter, htext⟩
  · exact .inl ⟨cutLastIn_of_notMem h, h⟩

end CodeIndex.Text

namespace CodeIndex.Path

open Text

theorem pieces_append_slash (a b : String) : pieces '/' (a ++ "/" ++ b) = pieces '/' a ++ pieces '/' b := by
  have hslash : "/".toList = ['/'] := rfl
  rw [pieces, String.toList_append, String.toList_append, hslash, List.append_assoc, List.singleton_append,
    split_append_sep _ _ _ _ (by decide), List.map_append]
  rfl

theorem components_append_slash (a b : String) : components (a ++ "/" ++ b) = components a ++ components b := by
  rw [components, pieces_append_slash, List.filter_append]
  rfl

/-- A text that is one name. -/
structure IsName (name : String) : Prop where
  noSlash : '/' ∉ name.toList
  ne_empty : name ≠ ""
  ne_dot : name ≠ "."
  ne_up : name ≠ ".."

theorem pieces_of_noSlash {name : String} (h : '/' ∉ name.toList) : pieces '/' name = [name] := by
  simp [pieces, split_of_noSep (beq_of_notMem h)]

theorem components_of_isName {name : String} (h : IsName name) : components name = [name] := by
  rw [components, pieces_of_noSlash h.noSlash]
  simp [h.ne_empty, h.ne_dot]

/-- The components before the last piece. -/
def headComponents (path : String) : List String := (pieces '/' path).dropLast.filter fun c => c ≠ "" && c ≠ "."

def lastPiece (path : String) : String := (pieces '/' path).getLastD ""

theorem components_append {path tail : String} (ht : '/' ∉ tail.toList) (hne : lastPiece path ++ tail ≠ "")
    (hdot : lastPiece path ++ tail ≠ ".") :
    components (path ++ tail) = headComponents path ++ [lastPiece path ++ tail] := by
  have hpieces : pieces '/' (path ++ tail) = (pieces '/' path).dropLast ++ [lastPiece path ++ tail] := by
    rw [pieces, String.toList_append, split_append _ _ _ (beq_of_notMem ht), List.map_append, List.map_dropLast]
    congr 1
    unfold lastPiece pieces
    cases h : split (· == '/') path.toList using List.reverseRecOn with
    | nil => exact absurd h (split_ne_nil _ _)
    | append_singleton init last => simp [String.ofList_append]
  rw [components, hpieces, List.filter_append]
  simp [headComponents, hne, hdot]

theorem isAbsolute_append (path : String) {tail : String} (ht : '/' ∉ tail.toList) :
    isAbsolute (path ++ tail) = isAbsolute path := by
  unfold isAbsolute startsWith
  rw [String.toList_append]
  cases hp : path.toList with
  | nil =>
    cases htl : tail.toList with
    | nil => rfl
    | cons c cs =>
      have hc : '/' ≠ c := fun h => ht (by rw [htl, h]; exact List.mem_cons_self)
      simp [List.isPrefixOf, hc]
  | cons c cs => simp [List.isPrefixOf]

theorem IsName.isAbsolute {name : String} (h : IsName name) : isAbsolute name = false := by
  rw [← String.empty_append (s := name), isAbsolute_append "" h.noSlash]
  decide

theorem isAbsolute_slash (path : String) : isAbsolute ("/" ++ path) = true := by
  unfold isAbsolute startsWith
  rw [String.toList_append]
  simp [List.isPrefixOf]

theorem ne_empty_of_isAbsolute {path : String} (h : isAbsolute path = true) : path ≠ "" := by
  rintro rfl
  exact absurd h (by decide)

theorem isAbsolute_of_append {a b : String} (h : isAbsolute a = true) : isAbsolute (a ++ b) = true := by
  unfold isAbsolute startsWith at h ⊢
  rw [List.isPrefixOf_iff_prefix] at h ⊢
  rw [String.toList_append]
  exact h.trans (List.prefix_append _ _)

theorem isAbsolute_join {base path : String} (h : isAbsolute base = true) : isAbsolute (join base path) = true := by
  unfold join
  split
  · next hor =>
    rcases Bool.or_eq_true_iff.1 hor with hp | hb
    · exact hp
    · exact absurd (by simpa using hb) (ne_empty_of_isAbsolute h)
  · split
    · exact isAbsolute_of_append h
    · rw [String.append_assoc]
      exact isAbsolute_of_append h

theorem join_ne_empty (base : String) {path : String} (hp : path ≠ "") : join base path ≠ "" := by
  unfold join
  split
  · exact hp
  · split <;> simp [hp]

theorem isAbsolute_join_of_ne {base path : String} (hb : base ≠ "") (hp : isAbsolute path = false) :
    isAbsolute (join base path) = isAbsolute base := by
  have happend : ∀ tail : String, isAbsolute (base ++ tail) = isAbsolute base := by
    intro tail
    unfold isAbsolute Text.startsWith
    rw [String.toList_append]
    cases hlist : base.toList with
    | nil => exact absurd (String.toList_eq_nil_iff.1 hlist) hb
    | cons c cs => simp [List.isPrefixOf]
  unfold join
  rw [if_neg (by simp [hp, hb])]
  split
  · exact happend path
  · rw [String.append_assoc]
    exact happend ("/" ++ path)

theorem components_join {base path : String} (hb : base ≠ "") (hp : isAbsolute path = false) :
    components (join base path) = components base ++ components path := by
  unfold join
  simp only [hp, hb, Bool.false_or, decide_false, Bool.false_eq_true, if_false]
  split
  · next hend =>
    -- the base ends with a slash of its own
    obtain ⟨init, hinit⟩ := List.isSuffixOf_iff_suffix.1 hend
    have hbase : base = String.ofList init ++ "/" := by
      apply String.toList_injective
      rw [String.toList_append, String.toList_ofList, hinit]
    have hempty : components (String.ofList init ++ "/" ++ "") = components (String.ofList init) := by
      rw [components_append_slash, show components "" = [] from rfl, List.append_nil]
    rw [String.append_empty] at hempty
    rw [hbase, components_append_slash, hempty]
  · exact components_append_slash base path

end CodeIndex.Path

namespace CodeIndex.Location

open Path

theorem resolve_of_isAbsolute {path : String} (h : isAbsolute path = true) (base base' : Location) :
    base.resolve path = base'.resolve path := by
  simp only [resolve, h, if_true]

/-- Joined paths are followed one after the other. -/
theorem resolve_join {base path : String} (hb : isAbsolute base = true) (here : Location) :
    here.resolve (join base path) = (here.resolve base).resolve path := by
  by_cases hp : isAbsolute path = true
  · have hjoin : join base path = path := by simp [join, hp]
    rw [hjoin]
    exact resolve_of_isAbsolute hp _ _
  · rw [Bool.not_eq_true] at hp
    unfold resolve
    rw [components_join (ne_empty_of_isAbsolute hb) hp, List.foldl_append, isAbsolute_join hb, hb, hp]
    rfl

/-- Joined paths are followed one after the other, wherever the first one starts. -/
theorem resolve_join_any (here : Location) {base path : String} (hp : isAbsolute path = false) :
    here.resolve (join base path) = (here.resolve base).resolve path := by
  by_cases hb : base = ""
  · subst hb
    have hjoin : join "" path = path := by simp [join]
    rw [hjoin]
    rfl
  · unfold resolve
    rw [components_join hb hp, List.foldl_append, isAbsolute_join_of_ne hb hp, hp]
    rfl

theorem resolve_of_isName {name : String} (h : IsName name) (here : Location) :
    here.resolve name = here ++ [name] := by
  simp [resolve, components_of_isName h, h.isAbsolute, step, h.ne_up]

/-- Endings of one path lead into one directory. -/
theorem resolve_append (here : Location) (path : String) :
    ∃ directory name, ∀ tail : String, '/' ∉ tail.toList → 2 < tail.length →
      here.resolve (path ++ tail) = directory ++ [name ++ tail] := by
  refine ⟨(headComponents path).foldl step (if isAbsolute path then [] else here), lastPiece path, ?_⟩
  intro tail ht hlen
  have hlong : 2 < (lastPiece path ++ tail).length := by
    rw [String.length_append]
    omega
  have hne : ∀ s : String, s.length ≤ 2 → lastPiece path ++ tail ≠ s := by
    rintro s hs rfl
    omega
  rw [resolve, components_append ht (hne "" (by decide)) (hne "." (by decide)), List.foldl_append,
    isAbsolute_append path ht]
  simp [step, hne ".." (by decide)]

end CodeIndex.Location
