import CodeIndex.Analysis
import CodeIndex.Proofs.Dict
import CodeIndex.Proofs.Place
import CodeIndex.Proofs.SortedSet
import CodeIndex.Relevance
import Mathlib.Algebra.Order.BigOperators.Group.List
import Mathlib.Algebra.Order.Ring.Nat

set_option autoImplicit false

/-!
# What more words do to a ranking

The words of a query are read one by one, so those of a longer query are all words of the shorter one and some more.
Each word can only add to the files that the query names or has a keyword of, and so no module loses anything.
-/

namespace CodeIndex

namespace Text

theorem mem_distinct {names : List String} {name : String} : name ∈ distinct names ↔ name ∈ names := by
  rw [distinct]
  induction names using List.reverseRecOn with
  | nil => rfl
  | append_singleton init last ih =>
    rw [List.foldl_append, List.foldl_cons, List.foldl_nil, List.mem_append, List.mem_singleton, ← ih]
    split
    · next h =>
      constructor
      · exact .inl
      · rintro (h' | rfl)
        · exact h'
        · simpa using h
    · rw [List.mem_append, List.mem_singleton]

theorem words_append_blank (xs ys : List Char) {c : Char} (hc : isBlank c = true) :
    words (xs ++ c :: ys) = words xs ++ words ys := by
  rw [words, runs, split_append_sep isBlank xs ys c hc, List.filter_append]
  rfl

end Text

namespace RelevanceQuery

open Text

variable {q w : String} {path : String}

theorem wordsOf_append (q w : String) : wordsOf (q ++ " " ++ w) = wordsOf q ++ wordsOf w := by
  have htext : (q ++ " " ++ w).toList = q.toList ++ ' ' :: w.toList := by simp
  rw [wordsOf, htext, words_append_blank _ _ (by decide), List.map_append, List.filter_append]
  rfl

theorem mem_terms {text term : String} : term ∈ (ofText text).terms ↔
    2 ≤ term.utf8ByteSize ∧ ∃ word ∈ wordsOf text, String.ofList (lower word) = term := by
  rw [ofText, mem_distinct, List.mem_filter, List.mem_map, decide_eq_true_eq, and_comm]

theorem references_append (q w : String) :
    (ofText (q ++ " " ++ w)).references = (ofText q).references ++ (ofText w).references := by
  simp only [ofText, wordsOf_append, List.filter_append, List.map_append]

theorem isNamed_append (h : (ofText q).isNamed path = true) : (ofText (q ++ " " ++ w)).isNamed path = true := by
  rw [isNamed, references_append, List.any_append, Bool.or_eq_true]
  exact .inl h

theorem hasKeyword_append (h : (ofText q).hasKeyword path = true) : (ofText (q ++ " " ++ w)).hasKeyword path = true := by
  rw [hasKeyword, List.any_eq_true] at h ⊢
  obtain ⟨term, hterm, hcontains⟩ := h
  obtain ⟨hlong, word, hword, hlower⟩ := mem_terms.1 hterm
  refine ⟨term, mem_terms.2 ⟨hlong, word, ?_, hlower⟩, hcontains⟩
  rw [wordsOf_append]
  exact List.mem_append_left _ hword

end RelevanceQuery

namespace Scoring

variable {s : Scoring} {core : CoreIndex}

/-- The sum of the scores of files. -/
def total (s : Scoring) (files : List String) : Nat := (files.map s.fileScore).sum

theorem score_moduleScore (s : Scoring) (id : String) (files : List String) : (s.moduleScore id files).score = s.total files := by
  rw [moduleScore, total, ← List.sum_eq_foldl]
  induction files with
  | nil => rfl
  | cons file rest ih =>
    rw [List.filter_cons, List.map_cons, List.sum_cons, ← ih]
    split
    · rfl
    · next h =>
      have hzero : s.fileScore file = 0 := by simpa using h
      rw [hzero, Nat.zero_add]

/-! ## The order of a ranking -/

theorem precedes_iff {a b : ModuleScore} :
    precedes a b = true ↔ b.score < a.score ∨ a.score = b.score ∧ a.moduleId ≤ b.moduleId := by
  simp [precedes]

theorem precedes_trans {a b c : ModuleScore} (hab : precedes a b = true) (hbc : precedes b c = true) :
    precedes a c = true := by
  rw [precedes_iff] at *
  rcases hab with hab | ⟨hab, hid⟩
  · left
    omega
  · rcases hbc with hbc | ⟨hbc, hid'⟩
    · left
      omega
    · exact .inr ⟨hab.trans hbc, String.le_trans hid hid'⟩

theorem precedes_total (a b : ModuleScore) : (precedes a b || precedes b a) = true := by
  rw [Bool.or_eq_true, precedes_iff, precedes_iff]
  rcases Nat.lt_trichotomy a.score b.score with h | h | h
  · exact .inr (.inl h)
  · rcases String.le_total a.moduleId b.moduleId with hid | hid
    · exact .inl (.inr ⟨h, hid⟩)
    · exact .inr (.inr ⟨h.symm, hid⟩)
  · exact .inl (.inl h)

/-- A ranking has exactly the modules with a score, each with the files that have one, the higher scores first and, of
    equal ones, the smaller ids. -/
structure Exact (s : Scoring) (core : CoreIndex) (found : List ModuleScore) : Prop where
  listed : ∀ m, m ∈ found ↔ ∃ e, core.modules.get? m.moduleId = some e ∧ m.score = s.total e.files ∧ 0 < m.score ∧
    m.files.Pairwise (· < ·) ∧ ∀ file, file ∈ m.files ↔ file ∈ e.files ∧ 0 < s.fileScore file
  once : (found.map ModuleScore.moduleId).Nodup
  ordered : found.Pairwise fun a b => b.score < a.score ∨ a.score = b.score ∧ a.moduleId < b.moduleId

theorem mem_ranking {m : ModuleScore} :
    m ∈ s.ranking core ↔ ∃ e, core.modules.get? m.moduleId = some e ∧ m = s.moduleScore m.moduleId e.files ∧ 0 < m.score := by
  rw [ranking, List.mem_mergeSort, List.mem_filter, List.mem_map, decide_eq_true_eq]
  constructor
  · rintro ⟨⟨⟨id, e⟩, he, rfl⟩, hpos⟩
    exact ⟨e, Dict.mem_toList.1 he, rfl, hpos⟩
  · rintro ⟨e, he, hm, hpos⟩
    exact ⟨⟨(m.moduleId, e), Dict.mem_toList.2 he, hm.symm⟩, hpos⟩

theorem nodup_ids (s : Scoring) (core : CoreIndex) : ((s.ranking core).map ModuleScore.moduleId).Nodup := by
  have hperm := List.mergeSort_perm
    ((core.modules.toList.map fun e => s.moduleScore e.1 e.2.files).filter fun m => 0 < m.score) precedes
  refine ((hperm.map ModuleScore.moduleId).nodup_iff).2 (List.Nodup.sublist (List.filter_sublist.map _) ?_)
  rw [List.map_map]
  exact core.modules.nodup_keys

theorem exact_ranking (s : Scoring) (core : CoreIndex) : s.Exact core (s.ranking core) where
  listed := by
    intro m
    rw [mem_ranking]
    refine exists_congr fun e => and_congr_right fun _ => ?_
    have hmem : ∀ file, file ∈ (s.moduleScore m.moduleId e.files).files ↔ file ∈ e.files ∧ 0 < s.fileScore file := fun file => by
      rw [moduleScore, Text.mem_sortedSet, List.mem_filter, decide_eq_true_eq]
    constructor
    · rintro ⟨hm, hpos⟩
      rw [hm] at hpos ⊢
      exact ⟨score_moduleScore s _ _, hpos, Text.pairwise_sortedSet _, hmem⟩
    · rintro ⟨hscore, hpos, hsorted, hfiles⟩
      refine ⟨?_, hpos⟩
      have hsame : m.files = (s.moduleScore m.moduleId e.files).files :=
        Text.eq_of_mem_iff hsorted (Text.pairwise_sortedSet _) fun file => (hfiles file).trans (hmem file).symm
      obtain ⟨id, score, files⟩ := m
      rw [ModuleScore.mk.injEq]
      exact ⟨rfl, hscore.trans (score_moduleScore s id e.files).symm, hsame⟩
  once := nodup_ids s core
  ordered := by
    have hsorted : (s.ranking core).Pairwise fun a b => precedes a b = true :=
      @List.pairwise_mergeSort _ precedes (fun _ _ _ => precedes_trans) precedes_total _
    refine hsorted.imp₂ (fun a b hprec hne => ?_) (List.pairwise_map.1 (nodup_ids s core))
    rcases precedes_iff.1 hprec with h | ⟨h, hid⟩
    · exact .inl h
    · exact .inr ⟨h, Std.lt_of_le_of_ne hid hne⟩

/-! ## Longer queries -/

/-- How a text scores files. -/
def ofText (weights : RelevanceWeights) (now : Moment) (changedAt : Dict Moment) (text : String) : Scoring :=
  ⟨weights, .ofText text, now, changedAt⟩

variable (weights : RelevanceWeights) (now : Moment) (changedAt : Dict Moment) (q w : String)

theorem fileScore_append (path : String) :
    (ofText weights now changedAt q).fileScore path ≤ (ofText weights now changedAt (q ++ " " ++ w)).fileScore path := by
  have hnamed : (if (RelevanceQuery.ofText q).isNamed path then weights.named else 0) ≤
      if (RelevanceQuery.ofText (q ++ " " ++ w)).isNamed path then weights.named else 0 := by
    split
    · next h => rw [if_pos (RelevanceQuery.isNamed_append h)]
    · exact Nat.zero_le _
  have hkeyword : (if (RelevanceQuery.ofText q).hasKeyword path then weights.keyword else 0) ≤
      if (RelevanceQuery.ofText (q ++ " " ++ w)).hasKeyword path then weights.keyword else 0 := by
    split
    · next h => rw [if_pos (RelevanceQuery.hasKeyword_append h)]
    · exact Nat.zero_le _
  exact Nat.add_le_add (Nat.add_le_add_right hnamed _) hkeyword

theorem total_append (files : List String) :
    (ofText weights now changedAt q).total files ≤ (ofText weights now changedAt (q ++ " " ++ w)).total files :=
  List.sum_le_sum fun path _ => fileScore_append weights now changedAt q w path

/-- The ranking for a query is exact, and with more words behind the query no module scores less, so every module that was
    found still is. -/
theorem more_words_never_demote (core : CoreIndex) :
    (ofText weights now changedAt q).Exact core ((ofText weights now changedAt q).ranking core) ∧
      (∀ files, (ofText weights now changedAt q).total files ≤ (ofText weights now changedAt (q ++ " " ++ w)).total files) ∧
      ∀ m ∈ (ofText weights now changedAt q).ranking core,
        ∃ m' ∈ (ofText weights now changedAt (q ++ " " ++ w)).ranking core, m'.moduleId = m.moduleId ∧ m.score ≤ m'.score := by
  refine ⟨exact_ranking _ core, total_append weights now changedAt q w, fun m hm => ?_⟩
  obtain ⟨e, he, hmade, hpos⟩ := mem_ranking.1 hm
  have hle : m.score ≤ ((ofText weights now changedAt (q ++ " " ++ w)).moduleScore m.moduleId e.files).score := by
    rw [hmade, score_moduleScore, score_moduleScore]
    exact total_append weights now changedAt q w e.files
  refine ⟨(ofText weights now changedAt (q ++ " " ++ w)).moduleScore m.moduleId e.files, ?_, rfl, hle⟩
  exact mem_ranking.2 ⟨e, he, rfl, Nat.lt_of_lt_of_le hpos hle⟩

/-- The files of the first module in an index of two. -/
def authFiles : List String := ["auth/login.py", "auth/session.py"]

def twoModules : CoreIndex :=
  Analysis.core .empty "demo" "2026-01-01T00:00:00Z" (Dict.ofList [("auth", authFiles), ("billing", ["billing/invoice.py"])])
    {} .walk none .default

theorem more_words_never_demote_session :
    ∃ m ∈ (ofText .default ⟨0, 0⟩ {} "login.py").ranking twoModules,
      ∃ m' ∈ (ofText .default ⟨0, 0⟩ {} ("login.py" ++ " " ++ "Session,")).ranking twoModules,
        m.moduleId = "auth" ∧ m'.moduleId = "auth" ∧ m.score = 11 ∧ 11 ≤ m'.score := by
  have hentry : twoModules.modules.get? "auth" = some (Analysis.empty.moduleEntry "auth" authFiles) := by decide +kernel
  have hscore : ((ofText .default ⟨0, 0⟩ {} "login.py").moduleScore "auth" authFiles).score = 11 := by decide +kernel
  have hm : (ofText .default ⟨0, 0⟩ {} "login.py").moduleScore "auth" authFiles ∈
      (ofText .default ⟨0, 0⟩ {} "login.py").ranking twoModules :=
    mem_ranking.2 ⟨_, hentry, rfl, by rw [hscore]; decide⟩
  obtain ⟨-, -, hkept⟩ := more_words_never_demote .default ⟨0, 0⟩ {} "login.py" "Session," twoModules
  obtain ⟨m', hm', hid, hle⟩ := hkept _ hm
  rw [hscore] at hle
  exact ⟨_, hm, m', hm', rfl, hid, hscore, hle⟩

end Scoring

end CodeIndex
