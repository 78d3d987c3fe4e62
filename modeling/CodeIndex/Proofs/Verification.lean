import CodeIndex.Proofs.Consistency
import CodeIndex.Proofs.Documents
import CodeIndex.Proofs.SortedSet

set_option autoImplicit false

/-!
# What verification accepts

Verification goes through the modules, the map of files and the records of shards, and says what it finds wrong.  It finds
nothing exactly in an index that is all that it says it is: nothing wrong is passed over, and nothing right is reported.
-/

namespace CodeIndex.Store

open CoreIndex

/-- An index is all that its core says: the modules divide the files, the map is the inverse of the modules, and the shards
    have the digests that were recorded.  An older index may be without the map, and an index without shards has no
    records. -/
structure Verified (s : Store) (core : CoreIndex) (w : Workspace) : Prop where
  /-- Lengths of lists are numbers of 64 bits, as counts are. -/
  counted : ∀ id m, core.modules.get? id = some m → m.fileCount = m.files.length.toUInt64
  /-- No file is listed twice, be it within a module or by two modules. -/
  once : (core.modules.values.flatMap ModuleEntry.files).Nodup
  inverse : core.moduleOfFile = ∅ ∨ ∀ file id,
    core.moduleOfFile.get? file = some id ↔ ∃ m, core.modules.get? id = some m ∧ file ∈ m.files
  recorded : core.hashes = ∅ ∨ core.hashes.keys = core.modules.keys ∧ ∀ id expected, core.hashes.get? id = some expected →
    ∃ bytes, w.disk.read (w.here.resolve (s.shardPath id)) = .ok bytes ∧ digest bytes = expected

variable {core : CoreIndex}

/-- A map without entries has no stray ones, and is the inverse of the modules only if no module lists a file. -/
theorem consistent_iff : core.Consistent ↔
    (∀ id m, core.modules.get? id = some m → m.fileCount = m.files.length.toUInt64) ∧
    (core.modules.values.flatMap ModuleEntry.files).Nodup ∧
    (core.moduleOfFile = ∅ ∨ ∀ file id,
      core.moduleOfFile.get? file = some id ↔ ∃ m, core.modules.get? id = some m ∧ file ∈ m.files) := by
  constructor
  · intro h
    refine ⟨fun id m hm => h.counts hm, h.nodup, ?_⟩
    by_cases hempty : core.moduleOfFile.isEmpty = true
    · exact .inl (Dict.isEmpty_iff_eq.1 hempty)
    · refine .inr fun file id => ⟨h.listed, ?_⟩
      rintro ⟨m, hm, hfile⟩
      exact (h.mapped hm hfile).resolve_left hempty
  · rintro ⟨hcounts, hnodup, hempty | hinverse⟩
    · refine ⟨fun hm => hcounts _ _ hm, hnodup, fun _ _ => .inl (Dict.isEmpty_iff_eq.2 hempty), fun hget => ?_⟩
      rw [hempty] at hget
      cases hget
    · exact ⟨fun hm => hcounts _ _ hm, hnodup, fun hm hfile => .inr ((hinverse _ _).2 ⟨_, hm, hfile⟩),
        fun hget => (hinverse _ _).1 hget⟩

/-- Where every module has a record and every record a module, the two maps have the same keys. -/
theorem keys_hashes_eq_iff : core.hashes.keys = core.modules.keys ↔
    (∀ id ∈ core.modules.keys, core.hashes.contains id = true) ∧
      ∀ id expected, core.hashes.get? id = some expected → core.modules.contains id = true := by
  constructor
  · intro hkeys
    refine ⟨fun id hid => Dict.contains_iff_mem.2 (hkeys ▸ hid), fun id expected hget => ?_⟩
    exact Dict.contains_iff_mem.2 (hkeys ▸ Dict.mem_keys.2 ⟨expected, hget⟩)
  · rintro ⟨hrecords, hmodules⟩
    refine Text.eq_of_mem_iff core.hashes.pairwise_keys core.modules.pairwise_keys fun id => ⟨fun hid => ?_, fun hid => ?_⟩
    · obtain ⟨expected, hget⟩ := Dict.mem_keys.1 hid
      exact Dict.contains_iff_mem.1 (hmodules id expected hget)
    · exact Dict.contains_iff_mem.1 (hrecords id hid)

/-- Verification comes to an answer, changes nothing, and finds nothing just if the index is all that its core says. -/
theorem problems_eq_nil_iff (s : Store) (core : CoreIndex) (w : Workspace) :
    ∃ found, (s.problems core).exec w = (.ok found, w) ∧ (found = [] ↔ s.Verified core w) := by
  obtain ⟨found, hfound, hnone⟩ := exec_problems_here s core w
  refine ⟨found, hfound, hnone.trans ?_⟩
  rw [partitionProblems_eq_nil, consistent_iff]
  constructor
  · rintro ⟨⟨hcounts, hnodup, hinverse⟩, hrecords, hshards⟩
    refine ⟨hcounts, hnodup, hinverse, ?_⟩
    rcases hrecords with hempty | hrecords
    · exact .inl (Dict.isEmpty_iff_eq.1 hempty)
    · exact .inr ⟨keys_hashes_eq_iff.2 ⟨hrecords, fun id expected hget => (hshards id expected hget).1⟩,
        fun id expected hget => (hshards id expected hget).2⟩
  · intro h
    refine ⟨⟨h.counted, h.once, h.inverse⟩, ?_⟩
    rcases h.recorded with hempty | ⟨hkeys, hshards⟩
    · refine ⟨.inl (Dict.isEmpty_iff_eq.2 hempty), fun id expected hget => ?_⟩
      rw [hempty] at hget
      cases hget
    · obtain ⟨hrecords, hmodules⟩ := keys_hashes_eq_iff.1 hkeys
      exact ⟨.inr hrecords, fun id expected hget => ⟨hmodules id expected hget, hshards id expected hget⟩⟩

end CodeIndex.Store
