import CodeIndex.Proofs.Analysis
import CodeIndex.Proofs.Walk

set_option autoImplicit false

/-!
# Impact over free edges and over the shards of a project

Of free values only pairs of names that are not empty count as calls, and a report lists who is how many of them away.
Whether a call is local to its module or not, and how often its edge stands in shards, depends on the modules.  Who
calls whom does not, and a report depends on nothing else.
-/

namespace CodeIndex

open CallGraph

/-! ## Free edges -/

theorem Json.pair?_eq_some {j : Json} {x y : String} : j.pair? = some (x, y) ↔ j = .array [.string x, .string y] := by
  constructor
  · intro h
    unfold pair? at h
    split at h
    · cases h
      rfl
    · cases h
  · rintro rfl
    rfl

namespace CallGraph

variable {edges edges' : List Json} {x y : String}

/-- Reports only depend on which names the edges have at both ends. -/
theorem impact_congr {edges edges' : List CallEdge} (h : ∀ e, e ∈ edges ↔ e ∈ edges') (target : String) (maxDepth : Nat) :
    (ofEdges edges).impact target maxDepth = (ofEdges edges').impact target maxDepth := by
  have hcalls : (ofEdges edges).Calls = (ofEdges edges').Calls := by
    funext x y
    rw [calls_ofEdges, calls_ofEdges, h]
  refine (exact_impact (sound_ofEdges edges) target maxDepth).unique ?_
  rw [hcalls]
  exact exact_impact (sound_ofEdges edges') target maxDepth

/-- Free values tell of a call by a pair of names, neither of them empty. -/
def Told (edges : List Json) (x y : String) : Prop := .array [.string x, .string y] ∈ edges ∧ x ≠ "" ∧ y ≠ ""

theorem calls_ofJson : (ofJson edges).Calls x y ↔ Told edges x y := by
  rw [ofJson, calls_ofEdges, List.mem_filterMap]
  simp only [Json.pair?_eq_some, exists_eq_right]
  rfl

theorem impact_ofJson_perm (h : edges'.Perm edges) (target : String) (maxDepth : Nat) :
    (ofJson edges').impact target maxDepth = (ofJson edges).impact target maxDepth :=
  impact_congr (fun _ => (h.filterMap _).mem_iff) target maxDepth

/-- The walk of a report comes to its end, and the report is exact: it lists in order, each name once, those that call the
    target and those whose shortest chain of calls to it is longer, up to the number of steps.  The order of the edges
    does not matter. -/
theorem impact_exact (edges : List Json) (target : String) (maxDepth : Nat) :
    let r := (ofJson edges).impact target maxDepth
    (∀ n, (ofJson edges).number? target = some n → ((ofJson edges).walk maxDepth n).waiting = []) ∧
    r.target = target ∧ r.direct.Pairwise (· < ·) ∧ r.indirect.Pairwise (· < ·) ∧
    (∀ x, x ∈ r.direct ↔ 1 ≤ maxDepth ∧ x ≠ target ∧ Told edges x target) ∧
    (∀ x, x ∈ r.indirect ↔ ∃ k, 2 ≤ k ∧ k ≤ maxDepth ∧ Away (Told edges) target k x) ∧
    r.totalAffected = r.direct.length + r.indirect.length ∧ r.affected.Nodup ∧
    ∀ edges', edges'.Perm edges → (ofJson edges').impact target maxDepth = r := by
  have hsound : (ofJson edges).Sound := sound_ofEdges _
  have hcalls : (ofJson edges).Calls = Told edges := by
    funext x y
    exact propext calls_ofJson
  have hexact := exact_impact hsound target maxDepth
  rw [hcalls] at hexact
  refine ⟨fun n hn => ?_, hexact.named, hexact.direct, hexact.indirect, fun x => ?_, fun x => hexact.mem_indirect, rfl,
    hexact.nodup_affected, fun edges' h => impact_ofJson_perm h target maxDepth⟩
  · have hname := (number?_eq_some hsound.nodup).1 hn
    exact (walk_over _ hsound (List.getElem?_eq_some_iff.1 hname).1).2
  · rw [hexact.mem_direct]
    constructor
    · rintro ⟨k, rfl, hk, haway⟩
      exact ⟨hk, away_one.1 haway⟩
    · rintro ⟨hk, hcall⟩
      exact ⟨1, rfl, hk, away_one.2 hcall⟩

/-- Two functions that call each other, one of them also itself, a chain of callers, an edge given twice, and values that
    are no calls. -/
def tangled : List Json := [.array [.string "b", .string "a"], .array [.string "a", .string "b"],
  .array [.string "a", .string "a"], .array [.string "c", .string "b"], .array [.string "b", .string "a"],
  .array [.string "x"], .string "c->d", .array [.string "", .string "a"], .array [.string "d", .string "c"]]

theorem impact_exact_tangled : (ofJson tangled).number? "a" = some 1 ∧ ((ofJson tangled).walk 2 1).waiting = [] ∧
    tangled.reverse.Perm tangled ∧ (ofJson tangled.reverse).impact "a" 2 = ⟨"a", ["b"], ["c"]⟩ := by
  have hnumber : (ofJson tangled).number? "a" = some 1 := by decide +kernel
  have hperm : tangled.reverse.Perm tangled := List.reverse_perm tangled
  have hreport : (ofJson tangled).impact "a" 2 = ⟨"a", ["b"], ["c"]⟩ := by decide +kernel
  obtain ⟨hover, -, -, -, -, -, -, -, hreorder⟩ := impact_exact tangled "a" 2
  exact ⟨hnumber, hover 1 hnumber, hperm, (hreorder _ hperm).trans hreport⟩

end CallGraph

/-! ## Shards -/

namespace Outline

theorem mem_dedupe {edges : List CallEdge} {e : CallEdge} : e ∈ sortEdges.dedupe edges ↔ e ∈ edges := by
  fun_induction sortEdges.dedupe edges with
  | case1 => rfl
  | case2 a => rfl
  | case3 a rest ih => simp_all
  | case4 a b rest hne ih => simp_all

theorem mem_sortEdges {edges : List CallEdge} {e : CallEdge} : e ∈ sortEdges edges ↔ e ∈ edges := by
  rw [sortEdges, mem_dedupe, List.mem_mergeSort]

theorem mem_callEdges {o : Outline} {x y : String} :
    (x, y) ∈ o.callEdges ↔ ∃ c, (x, c) ∈ o.callables ∧ y ∈ c.calls := by
  simp only [callEdges, List.mem_flatMap, List.mem_map, Prod.mk.injEq, Prod.exists]
  constructor
  · rintro ⟨x', c, hc, y', hy, rfl, rfl⟩
    exact ⟨c, hc, hy⟩
  · rintro ⟨c, hc, hy⟩
    exact ⟨x, c, hc, y, hy, rfl, rfl⟩

end Outline

namespace Analysis

variable {a : Analysis} {modules : ModuleMap} {e : CallEdge} {id : String} {files : List String}

theorem mem_calls : e ∈ a.calls ↔ ∃ f ∈ a.details.values, e ∈ f.outline.callEdges := by
  rw [calls, Outline.mem_sortEdges, List.mem_flatMap]

/-- Local or not, the calls of a shard are those of its files. -/
theorem mem_calls_shard :
    e ∈ (a.shard id files).calls ↔ ∃ path ∈ files, ∃ f, a.details.get? path = some f ∧ e ∈ f.outline.callEdges := by
  simp only [Shard.calls, shard, List.mem_append, Outline.mem_sortEdges, List.partition_eq_filter_filter, List.mem_filter,
    List.mem_flatMap, Dict.mem_values, get?_detailsOf]
  constructor
  · rintro (⟨⟨f, ⟨path, hget⟩, he⟩, -⟩ | ⟨⟨f, ⟨path, hget⟩, he⟩, -⟩)
    all_goals
      split at hget
      · next hpath => exact ⟨path, hpath, f, hget, he⟩
      · cases hget
  · rintro ⟨path, hpath, f, hget, he⟩
    rw [← and_or_left]
    exact ⟨⟨f, ⟨path, by rw [if_pos hpath, hget]⟩, he⟩, by simp⟩

/-- Modules that hold every file have all calls in their shards, and no others. -/
theorem mem_calls_shards (h : ∀ path ∈ a.files, path ∈ modules.files) :
    e ∈ (a.shards modules).flatMap Shard.calls ↔ e ∈ a.calls := by
  rw [mem_calls, shards, List.flatMap_map, List.mem_flatMap]
  constructor
  · rintro ⟨m, -, he⟩
    obtain ⟨path, -, f, hget, he⟩ := mem_calls_shard.1 he
    exact ⟨f, Dict.mem_values.2 ⟨path, hget⟩, he⟩
  · rintro ⟨f, hf, he⟩
    obtain ⟨path, hget⟩ := Dict.mem_values.1 hf
    have hpath := h path (Dict.mem_keys.2 ⟨f, hget⟩)
    rw [ModuleMap.files_eq_flatMap, List.mem_flatMap] at hpath
    obtain ⟨m, hm, hmem⟩ := hpath
    exact ⟨m, hm, mem_calls_shard.2 ⟨path, hmem, f, hget, he⟩⟩

end Analysis

namespace CallGraph

variable {a : Analysis} {modules : ModuleMap} {x y : String}

theorem sound_ofShards (shards : List Shard) : (ofShards shards).Sound := sound_ofEdges _

theorem impact_ofShards (h : ∀ path ∈ a.files, path ∈ modules.files) (target : String) (maxDepth : Nat) :
    (ofShards (a.shards modules)).impact target maxDepth = (ofEdges a.calls).impact target maxDepth :=
  impact_congr (fun _ => Analysis.mem_calls_shards h) target maxDepth

/-- However the files are divided, the shards give the report that the single document gives. -/
theorem impact_of_division (a : Analysis) (modules modules' : ModuleMap)
    (h : ∀ path ∈ a.files, path ∈ modules.files) (h' : ∀ path ∈ a.files, path ∈ modules'.files)
    (root madeAt : String) (files : List String) (source : FileSource) (layout : Option Layout) (settings : Settings)
    (target : String) (maxDepth : Nat) :
    (ofShards (a.shards modules)).impact target maxDepth =
        (ofEdges (a.single root madeAt files source layout settings).calls).impact target maxDepth ∧
      (ofShards (a.shards modules)).impact target maxDepth = (ofShards (a.shards modules')).impact target maxDepth := by
  have hsingle : (a.single root madeAt files source layout settings).calls = a.calls := rfl
  rw [hsingle, impact_ofShards h, impact_ofShards h']
  exact ⟨rfl, rfl⟩

/-- A function `f` that calls a method `m` of `C`, which calls a function `t`. -/
def throughMethod : Analysis where
  details := Dict.ofList
    [("a.py", ⟨.python, ⟨{}, Dict.ofList [("C", ⟨1, [], Dict.ofList [("m", ⟨2, "def m(self)", ["t"], none⟩)], none⟩)], []⟩,
        false, none⟩),
      ("b.py", ⟨.python, ⟨Dict.ofList [("f", ⟨1, "def f(c)", ["m"], none⟩), ("t", ⟨4, "def t()", [], none⟩)], {}, []⟩,
        false, none⟩)]
  docs := {}
  skipped := 0

theorem impact_of_division_throughMethod :
    (∀ path ∈ throughMethod.files, path ∈ ModuleMap.files (Dict.ofList [("root", ["a.py", "b.py"])])) ∧
    (∀ path ∈ throughMethod.files, path ∈ ModuleMap.files (Dict.ofList [("a", ["a.py"]), ("b", ["b.py"])])) ∧
    (ofShards (throughMethod.shards (Dict.ofList [("root", ["a.py", "b.py"])]))).impact "t" 10 =
      (ofShards (throughMethod.shards (Dict.ofList [("a", ["a.py"]), ("b", ["b.py"])]))).impact "t" 10 := by
  have hwhole : ∀ path ∈ throughMethod.files, path ∈ ModuleMap.files (Dict.ofList [("root", ["a.py", "b.py"])]) := by
    decide +kernel
  have hapart : ∀ path ∈ throughMethod.files, path ∈ ModuleMap.files (Dict.ofList [("a", ["a.py"]), ("b", ["b.py"])]) := by
    decide +kernel
  exact ⟨hwhole, hapart,
    (impact_of_division _ _ _ hwhole hapart "demo" "" [] .walk none .default "t" 10).2⟩

/-! ## One call further -/

theorem calls_ofShards (h : ∀ path ∈ a.files, path ∈ modules.files) :
    (ofShards (a.shards modules)).Calls x y ↔
      x ≠ "" ∧ y ≠ "" ∧ ∃ f ∈ a.details.values, ∃ c, (x, c) ∈ f.outline.callables ∧ y ∈ c.calls := by
  rw [ofShards, calls_ofEdges, Analysis.mem_calls_shards h, Analysis.mem_calls]
  simp only [Outline.mem_callEdges]
  tauto

/-- With one more step, the callers of the target and of what was affected before are affected. -/
theorem mem_affected_succ {g : CallGraph} (hg : g.Sound) (target : String) (maxDepth : Nat) :
    x ∈ (g.impact target (maxDepth + 1)).affected ↔
      x ≠ target ∧ ∃ y, g.Calls x y ∧ (y = target ∨ y ∈ (g.impact target maxDepth).affected) := by
  simp only [(exact_impact hg target _).mem_affected]
  constructor
  · rintro ⟨k, hpos, hk, haway⟩
    obtain ⟨j, rfl⟩ : ∃ j, k = j + 1 := ⟨k - 1, by omega⟩
    obtain ⟨y, hcall, haway'⟩ := haway.callee
    refine ⟨fun heq => ?_, y, hcall, ?_⟩
    · have := haway.unique (away_zero.2 heq)
      omega
    · rcases Nat.eq_zero_or_pos j with rfl | hpos
      · exact .inl (away_zero.1 haway')
      · exact .inr ⟨j, hpos, by omega, haway'⟩
  · rintro ⟨hne, y, hcall, hy⟩
    have hchain : ∃ k ≤ maxDepth, Chain g.Calls target k y := by
      rcases hy with rfl | ⟨k, -, hk, haway⟩
      · exact ⟨0, Nat.zero_le _, .nil⟩
      · exact ⟨k, hk, haway.1⟩
    obtain ⟨k, hk, hchain⟩ := hchain
    obtain ⟨j, hj, haway⟩ := (Chain.cons hcall hchain).away
    refine ⟨j, Nat.pos_of_ne_zero ?_, by omega, haway⟩
    rintro rfl
    exact hne (away_zero.1 haway)

/-- A callable is affected, within one step more, just if one of the names that it calls is the target or was affected
    under that very name.  A method is affected under its qualified name, which is not the name that callers call. -/
theorem affected_iff_calls (a : Analysis) (modules : ModuleMap) (h : ∀ path ∈ a.files, path ∈ modules.files)
    (target : String) (maxDepth : Nat) (caller : String) :
    caller ∈ ((ofShards (a.shards modules)).impact target (maxDepth + 1)).affected ↔
      caller ≠ target ∧ caller ≠ "" ∧ ∃ f ∈ a.details.values, ∃ c, (caller, c) ∈ f.outline.callables ∧
        ∃ callee ∈ c.calls, callee ≠ "" ∧
          (callee = target ∨ callee ∈ ((ofShards (a.shards modules)).impact target maxDepth).affected) := by
  rw [mem_affected_succ (sound_ofShards _)]
  simp only [calls_ofShards h]
  constructor
  · rintro ⟨hne, callee, ⟨hcaller, hcallee, f, hf, c, hc, hcalls⟩, hreached⟩
    exact ⟨hne, hcaller, f, hf, c, hc, callee, hcalls, hcallee, hreached⟩
  · rintro ⟨hne, hcaller, f, hf, c, hc, callee, hcalls, hcallee, hreached⟩
    exact ⟨hne, callee, ⟨hcaller, hcallee, f, hf, c, hc, hcalls⟩, hreached⟩

theorem affected_iff_calls_throughMethod :
    (∀ path ∈ throughMethod.files, path ∈ ModuleMap.files (Dict.ofList [("root", ["a.py", "b.py"])])) ∧
    "f" ∉ ((ofShards (throughMethod.shards (Dict.ofList [("root", ["a.py", "b.py"])]))).impact "t" 2).affected := by
  have hwhole : ∀ path ∈ throughMethod.files, path ∈ ModuleMap.files (Dict.ofList [("root", ["a.py", "b.py"])]) := by
    decide +kernel
  have hcalls : ∀ f ∈ throughMethod.details.values, ∀ e ∈ f.outline.callables, e.1 ≠ "m" ∧ (e.1 = "f" → e.2.calls = ["m"]) := by
    decide +kernel
  refine ⟨hwhole, fun h => ?_⟩
  obtain ⟨-, -, f, hf, c, hc, callee, hcallee, -, hreached⟩ := (affected_iff_calls _ _ hwhole "t" 1 "f").1 h
  rw [(hcalls f hf _ hc).2 rfl, List.mem_singleton] at hcallee
  subst hcallee
  rcases hreached with heq | hreached
  · exact absurd heq (by decide)
  · obtain ⟨-, -, f', hf', c', hc', -⟩ := (affected_iff_calls _ _ hwhole "t" 0 "m").1 hreached
    exact (hcalls f' hf' _ hc').1 rfl

end CallGraph

end CodeIndex
