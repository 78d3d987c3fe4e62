import CodeIndex.Proofs.Analysis

set_option autoImplicit false

/-!
# An analysis read back from its index

Details are only in the shards.  Documentation is in three places: critical documentation in the core index, and the
two other tiers in the shards.  So an index loses of an analysis just what it knows of files in no module, apart from
critical documentation (`ofIndex_eq_iff`), and nothing when the modules divide its files (`ofIndex_of_partition`).
-/

namespace CodeIndex.Analysis

/-- Documentation is only known of files that the analysis has. -/
def Grounded (a : Analysis) : Prop := ∀ path ∈ a.docs.keys, path ∈ a.files

instance (a : Analysis) : Decidable a.Grounded := inferInstanceAs (Decidable (∀ path ∈ a.docs.keys, path ∈ a.files))

theorem mem_files {a : Analysis} {path : String} : path ∈ a.files ↔ ∃ entry, a.details.get? path = some entry :=
  Dict.mem_keys

theorem ext_get? {a b : Analysis} (hdetails : ∀ path, a.details.get? path = b.details.get? path)
    (hdocs : ∀ path, a.docs.get? path = b.docs.get? path) (hskipped : a.skipped = b.skipped) : a = b := by
  obtain ⟨details, docs, skipped⟩ := a
  obtain ⟨details', docs', skipped'⟩ := b
  obtain rfl : details = details' := Dict.ext_get? hdetails
  obtain rfl : docs = docs' := Dict.ext_get? hdocs
  obtain rfl : skipped = skipped' := hskipped
  rfl

theorem skipped_foldl_addShard (shards : List Shard) (a : Analysis) : (shards.foldl addShard a).skipped = a.skipped := by
  induction shards generalizing a with
  | nil => rfl
  | cons shard rest ih => exact ih (a.addShard shard)

variable (a : Analysis) (modules : ModuleMap) (root madeAt : String) (hashes : Dict String) (source : FileSource)
  (layout : Option Layout) (settings : Settings)

theorem skipped_ofIndex (core : CoreIndex) : (ofIndex core (a.shards modules)).skipped = 0 :=
  skipped_foldl_addShard _ _

theorem details_ofIndex_core (path : String) :
    (ofIndex (a.core root madeAt modules hashes source layout settings) (a.shards modules)).details.get? path =
      if path ∈ modules.files then a.details.get? path else none := by
  rw [shards, get?_details_ofIndex, ModuleMap.files_eq_flatMap]

/-- Critical documentation comes back wherever it lies. -/
theorem docs_ofIndex_core (path : String) :
    (ofIndex (a.core root madeAt modules hashes source layout settings) (a.shards modules)).docs.get? path =
      if path ∈ modules.files then a.docs.get? path else (a.docs.get? path).filter fun d => d.1 == .critical := by
  have hcritical : (a.core root madeAt modules hashes source layout settings).critical = a.docsOf .critical := rfl
  rw [shards, get?_docs_ofIndex hcritical, ModuleMap.files_eq_flatMap]

/-- Where only the core index speaks, documentation is missed that shards tell. -/
theorem filter_critical_eq_iff (path : String) :
    ((a.docs.get? path).filter fun d => d.1 == .critical) = a.docs.get? path ↔ a.shown? path = none := by
  rw [shown?]
  rcases a.docs.get? path with _ | ⟨tier, synopsis⟩
  · simp
  · by_cases htier : tier = .critical <;> simp [Option.filter, htier]

/-- All is known again just when every file, and every file with documentation that is not critical, is in a module. -/
theorem ofIndex_eq_iff :
    ofIndex (a.core root madeAt modules hashes source layout settings) (a.shards modules) = { a with skipped := 0 } ↔
      ∀ path, path ∈ a.files ∨ a.shown? path ≠ none → path ∈ modules.files := by
  constructor
  · intro heq path hpath
    by_contra hnot
    have hdetails := a.details_ofIndex_core modules root madeAt hashes source layout settings path
    have hdocs := a.docs_ofIndex_core modules root madeAt hashes source layout settings path
    rw [heq, if_neg hnot] at hdetails hdocs
    rcases hpath with hfile | hshown
    · obtain ⟨entry, hentry⟩ := mem_files.1 hfile
      cases hentry.symm.trans hdetails
    · exact hshown ((a.filter_critical_eq_iff path).1 hdocs.symm)
  · intro h
    apply ext_get?
    · intro path
      rw [details_ofIndex_core]
      split
      · rfl
      · next hnot =>
        have hfile : path ∉ a.files := fun hfile => hnot (h path (.inl hfile))
        exact (Dict.get?_eq_none.2 hfile).symm
    · intro path
      rw [docs_ofIndex_core]
      split
      · rfl
      · next hnot => exact (a.filter_critical_eq_iff path).2 (not_not.1 fun hshown => hnot (h path (.inr hshown)))
    · exact a.skipped_ofIndex modules _

variable {a modules}

/-- Where modules divide the files, the index tells everything but how many files could not be read. -/
theorem ofIndex_of_partition (h : a.Grounded) (hm : modules.files.Perm a.files) :
    ofIndex (a.core root madeAt modules hashes source layout settings) (a.shards modules) = { a with skipped := 0 } := by
  apply (a.ofIndex_eq_iff modules root madeAt hashes source layout settings).2
  intro path hpath
  apply hm.mem_iff.2
  rcases hpath with hfile | hshown
  · exact hfile
  · refine h path (Dict.mem_keys.2 (Option.ne_none_iff_exists'.1 fun hnone => hshown ?_))
    rw [shown?, hnone]
    rfl

/-! A project with code in two modules and documentation of every tier. -/

def tiered : Analysis where
  details := Dict.ofList [("README.md", ⟨.markdown, {}, false, none⟩), ("docs/guide.md", ⟨.markdown, {}, false, none⟩),
    ("docs/old.md", ⟨.markdown, {}, false, none⟩), ("lib/text.rs", ⟨.rust, ⟨{}, {}, ["crate::base"]⟩, false, none⟩),
    ("src/main.py", .listed .python)]
  docs := Dict.ofList [("README.md", .critical, ⟨some "Demo", ["Use"]⟩), ("docs/guide.md", .standard, ⟨some "Guide", []⟩),
    ("docs/old.md", .archive, ⟨none, []⟩)]
  skipped := 1

def tieredModules : ModuleMap :=
  Dict.ofList [("docs", ["docs/guide.md", "docs/old.md"]), ("lib", ["lib/text.rs"]), ("root", ["README.md"]),
    ("src", ["src/main.py"])]

theorem ofIndex_tiered : tiered.Grounded ∧ tieredModules.files.Perm tiered.files ∧
    ofIndex (tiered.core "demo" "2024-05-01T00:00:00Z" tieredModules {} .walk none .default) (tiered.shards tieredModules) =
      { tiered with skipped := 0 } := by
  have hgrounded : tiered.Grounded := by decide +kernel
  have hpartition : tieredModules.files.Perm tiered.files := by decide +kernel
  exact ⟨hgrounded, hpartition,
    ofIndex_of_partition "demo" "2024-05-01T00:00:00Z" {} .walk none .default hgrounded hpartition⟩

end CodeIndex.Analysis
