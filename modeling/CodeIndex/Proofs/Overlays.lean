import CodeIndex.Proofs.Examined
import CodeIndex.Proofs.Recovered

set_option autoImplicit false

/-!
# Overlays one after another

An overlay tells of each file by itself: what is laid over comes first, and what was known counts only where nothing is
removed and nothing laid over.  So overlays can be put together before they meet an analysis (`overlay_overlay`), any
number of them (`overlays_eq_overlay`), and none of them lets documentation stand without its file (`Grounded.overlays`).
-/

namespace CodeIndex.Analysis

/-- Overlays in order, each with the files that it removes. -/
def overlays (a : Analysis) (steps : List (Analysis × List String)) : Analysis :=
  steps.foldl (fun a step => a.overlay step.1 step.2) a

variable {a b c : Analysis} {removed removed' : List String} {steps : List (Analysis × List String)} {path : String}

/-! ## Two overlays -/

/-- It does not matter how often and in what order files are removed. -/
theorem overlay_congr (h : ∀ path, path ∈ removed ↔ path ∈ removed') : a.overlay b removed = a.overlay b removed' := by
  apply ext_get?
  · intro path
    simp only [get?_details_overlay, h]
  · intro path
    simp only [get?_docs_overlay, h]
  · rfl

theorem contains_details_overlay : (b.overlay c removed).details.contains path = true ↔
    c.details.contains path = true ∨ path ∉ removed ∧ b.details.contains path = true := by
  rw [Dict.contains, get?_details_overlay, Option.isSome_or, Bool.or_eq_true, Dict.contains, Dict.contains]
  by_cases hremoved : path ∈ removed <;> simp [hremoved]

/-- What two overlays leave of the documentation of a file. -/
theorem docs_overlay_overlay : ((a.overlay b removed).overlay c removed').docs.get? path =
    (a.overlay (b.overlay c removed') (removed ++ removed')).docs.get? path := by
  simp only [get?_docs_overlay, List.mem_append, contains_details_overlay]
  by_cases hagain : path ∈ removed' ∨ c.details.contains path = true
  · -- the second overlay leaves nothing of what was there before
    have hgone : (path ∈ removed ∨ path ∈ removed') ∨ c.details.contains path = true ∨
        path ∉ removed' ∧ b.details.contains path = true := by tauto
    simp only [if_pos hagain, if_pos hgone, Option.or_none]
  · have hgone : ((path ∈ removed ∨ path ∈ removed') ∨ c.details.contains path = true ∨
        path ∉ removed' ∧ b.details.contains path = true) ↔ (path ∈ removed ∨ b.details.contains path = true) := by tauto
    simp only [if_neg hagain, hgone, Option.or_assoc]

theorem details_overlay_overlay : ((a.overlay b removed).overlay c removed').details.get? path =
    (a.overlay (b.overlay c removed') (removed ++ removed')).details.get? path := by
  simp only [get?_details_overlay, List.mem_append]
  by_cases hagain : path ∈ removed'
  · simp only [hagain, or_true, if_true, Option.or_none]
  · simp only [hagain, or_false, if_false, Option.or_assoc]

/-- Two overlays are one. -/
theorem overlay_overlay :
    (a.overlay b removed).overlay c removed' = a.overlay (b.overlay c removed') (removed ++ removed') :=
  ext_get? (fun _ => details_overlay_overlay) (fun _ => docs_overlay_overlay) (Nat.add_assoc _ _ _)

/-! ## Any number of overlays -/

theorem overlay_empty (a : Analysis) : a.overlay empty [] = a := by
  apply ext_get?
  · intro path
    rw [get?_details_overlay]
    exact Option.none_or
  · intro path
    rw [get?_docs_overlay]
    exact Option.none_or
  · rfl

/-- Overlays can be put together first, and laid over in one step. -/
theorem overlays_eq_overlay (a : Analysis) (steps : List (Analysis × List String)) :
    a.overlays steps = a.overlay (empty.overlays steps) (steps.flatMap Prod.snd) := by
  induction steps using List.reverseRecOn with
  | nil => exact a.overlay_empty.symm
  | append_singleton init last ih =>
    simp only [overlays, List.foldl_append, List.foldl_cons, List.foldl_nil] at ih ⊢
    rw [ih, overlay_overlay, List.flatMap_append, List.flatMap_singleton]

/-! ## Documentation and its files -/

theorem grounded_empty : empty.Grounded := fun _ h => nomatch h

theorem grounded_iff : a.Grounded ↔ ∀ path, (a.docs.get? path).isSome → (a.details.get? path).isSome := by
  simp only [Grounded, Dict.mem_keys, mem_files, Option.isSome_iff_exists]

theorem Grounded.overlay (ha : a.Grounded) (hb : b.Grounded) (removed : List String) : (a.overlay b removed).Grounded := by
  rw [grounded_iff] at ha hb ⊢
  intro path hdocs
  rw [get?_docs_overlay, Option.isSome_or, Bool.or_eq_true] at hdocs
  rw [get?_details_overlay, Option.isSome_or, Bool.or_eq_true]
  rcases hdocs with hdocs | hdocs
  · exact .inl (hb path hdocs)
  · split at hdocs
    · cases hdocs
    · next hkept =>
      rw [if_neg fun hremoved => hkept (.inl hremoved)]
      exact .inr (ha path hdocs)

theorem Grounded.overlays (ha : a.Grounded) (hsteps : ∀ step ∈ steps, step.1.Grounded) : (a.overlays steps).Grounded := by
  induction steps generalizing a with
  | nil => exact ha
  | cons step rest ih =>
    obtain ⟨hstep, hrest⟩ := List.forall_mem_cons.1 hsteps
    exact ih (ha.overlay hstep step.2) hrest

theorem Grounded.record (ha : a.Grounded) (file : String) (language : Language) (commit : Option Commit)
    (e : Maker.Examined) : (Maker.record a file language commit e).Grounded := by
  rw [grounded_iff] at ha ⊢
  intro path hdocs
  by_cases hpath : file = path
  · cases e <;> simp [Maker.record, Dict.get?_insert, hpath]
  · cases e <;> simp_all [Maker.record, Dict.get?_insert]

/-- What is found of files documents none but these. -/
theorem grounded_recordAll (commits : Dict Commit) (found : List Maker.Finding) :
    (Maker.recordAll commits empty found).Grounded := by
  have hall : ∀ a : Analysis, a.Grounded → (Maker.recordAll commits a found).Grounded := by
    induction found with
    | nil => exact fun a ha => ha
    | cons e rest ih => exact fun a ha => ih _ (ha.record _ _ _ _)
  exact hall empty grounded_empty

/-- A file that is removed and told of again is known as it is told, with its documentation or without. -/
theorem overlay_removed (h : path ∈ removed) : (a.overlay b removed).details.get? path = b.details.get? path ∧
    (a.overlay b removed).docs.get? path = b.docs.get? path := by
  rw [get?_details_overlay, get?_docs_overlay, if_pos h, if_pos (.inl h), Option.or_none, Option.or_none]
  exact ⟨rfl, rfl⟩

/-! ## Together -/

/-- Two overlays in a row are one, in which both sets of files are removed and the second is laid over the first; so is
    any sequence of them.  None leaves documentation without its file when none brings any, and what an overlay removes
    and tells of again is as it tells. -/
theorem overlays_compose (a : Analysis) :
    (∀ (b c : Analysis) (removed removed' both : List String), (∀ path, path ∈ both ↔ path ∈ removed ∨ path ∈ removed') →
      (a.overlay b removed).overlay c removed' = a.overlay (b.overlay c removed') both) ∧
    (∀ steps, a.overlays steps = a.overlay (empty.overlays steps) (steps.flatMap Prod.snd)) ∧
    (∀ steps, a.Grounded → (∀ step ∈ steps, step.1.Grounded) → (a.overlays steps).Grounded) ∧
    ∀ (b : Analysis) (removed : List String), ∀ path ∈ removed,
      (a.overlay b removed).details.get? path = b.details.get? path ∧
        (a.overlay b removed).docs.get? path = b.docs.get? path := by
  refine ⟨?_, a.overlays_eq_overlay, fun steps ha hsteps => ha.overlays hsteps, fun b removed path h => overlay_removed h⟩
  intro b c removed removed' both hboth
  rw [overlay_overlay]
  apply overlay_congr
  intro path
  rw [List.mem_append, hboth]

def regraded : Analysis where
  details := Dict.ofList [("docs/old.md", ⟨.markdown, {}, false, none⟩)]
  docs := Dict.ofList [("docs/old.md", .standard, ⟨some "New", []⟩)]
  skipped := 1

def recoded : Analysis where
  details := Dict.ofList [("docs/old.md", .listed .shell)]
  docs := {}
  skipped := 2

/-- A document gets another tier, and then its file is code. -/
theorem overlays_compose_tiered :
    (tiered.overlay regraded ["docs/guide.md"]).overlay recoded ["docs/old.md", "docs/guide.md"] =
        tiered.overlay (regraded.overlay recoded ["docs/old.md", "docs/guide.md"]) ["docs/guide.md", "docs/old.md"] ∧
      (tiered.overlays [(regraded, ["docs/guide.md"]), (recoded, ["docs/old.md"])]).Grounded ∧
      (tiered.overlay recoded ["docs/old.md"]).docs.get? "docs/old.md" = none := by
  obtain ⟨htwo, -, hgrounded, hremoved⟩ := overlays_compose tiered
  have hboth : ∀ path, path ∈ ["docs/guide.md", "docs/old.md"] ↔
      path ∈ ["docs/guide.md"] ∨ path ∈ ["docs/old.md", "docs/guide.md"] := by
    intro path
    simp only [List.mem_cons, List.not_mem_nil, or_false]
    tauto
  refine ⟨htwo regraded recoded _ _ _ hboth, hgrounded _ (by decide +kernel) (by decide +kernel), ?_⟩
  have hdocs := (hremoved recoded ["docs/old.md"] "docs/old.md" (by simp)).2
  rw [hdocs]
  rfl

end CodeIndex.Analysis
