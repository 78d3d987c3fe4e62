import CodeIndex.Proofs.Tracked
import Mathlib.Algebra.BigOperators.Group.List.Basic
import Mathlib.Data.List.Perm.Basic
import Mathlib.Data.UInt

set_option autoImplicit false

/-!
# Numbers in the core index and what is in the shards

The core index counts files by modules, by languages and by tiers, and the callables of every module.  After whatever runs,
these are the numbers of what the shards hold: the files of the modules are, in another order, the files that the analysis
behind the index tells of, and its documentation is divided between the core index and the shards.
-/

namespace CodeIndex

open Action Update.Membership

/-! ## Lists of the entries of maps -/

namespace Dict

variable {α : Type} {names : List String}

/-- The keys of a map, picked out of names in order that include them. -/
theorem keys_eq_filter (d : Dict α) (hn : names.Pairwise (· < ·)) (h : ∀ key ∈ d.keys, key ∈ names) :
    d.keys = names.filter fun name => (d.get? name).isSome := by
  apply Text.eq_of_mem_iff d.pairwise_keys (hn.filter _)
  intro key
  rw [List.mem_filter, mem_keys, Option.isSome_iff_exists]
  exact ⟨fun hkey => ⟨h key (mem_keys.2 hkey), hkey⟩, And.right⟩

theorem values_eq_filterMap_keys (d : Dict α) : d.values = d.keys.filterMap d.get? := by
  have hget : ∀ e ∈ d.toList, (d.get? ∘ Prod.fst) e = some e.2 := fun e he => mem_toList'.1 he
  change d.values = (d.toList.map Prod.fst).filterMap d.get?
  rw [List.filterMap_map, List.filterMap_congr hget, List.filterMap_eq_map']
  rfl

theorem values_eq_filterMap (d : Dict α) (hn : names.Pairwise (· < ·)) (h : ∀ key ∈ d.keys, key ∈ names) :
    d.values = names.filterMap d.get? := by
  rw [values_eq_filterMap_keys, keys_eq_filter d hn h, List.filterMap_filter]
  apply List.filterMap_congr
  intro name _
  cases hget : d.get? name <;> simp

theorem length_values (d : Dict α) : d.values.length = d.keys.length := by
  rw [values, keys, List.length_map, List.length_map]

theorem size_eq (d : Dict α) : d.size = d.keys.length := by
  rw [size, keys, List.length_map]

/-- Changing the value under one key changes the sum by as much. -/
theorem sum_values_update (d : Dict UInt64) (key : String) (n : UInt64) :
    (d.update key 0 (· + n)).values.sum = d.values.sum + n := by
  have hsum : ∀ e : Dict UInt64, e.values.sum = (e.toList.map Prod.snd).sum := fun _ => rfl
  have hnew := ModuleMap.toList_perm_erase (d.get?_insert key key ((d.get? key).getD 0 + n) |>.trans (if_pos rfl))
  rw [update, hsum, hsum, (hnew.map Prod.snd).sum_eq, ModuleMap.erase_insert]
  cases hget : d.get? key with
  | none =>
    rw [ModuleMap.erase_of_get?_eq_none hget]
    simp [add_comm]
  | some old =>
    rw [((ModuleMap.toList_perm_erase hget).map Prod.snd).sum_eq]
    simp [add_comm, add_assoc]

end Dict

/-- Numbers of machine size add up like others. -/
theorem sum_map_toUInt64 (ns : List Nat) : (ns.map Nat.toUInt64).sum = ns.sum.toUInt64 := by
  induction ns with
  | nil => rfl
  | cons n rest ih =>
    rw [List.map_cons, List.sum_cons, List.sum_cons, ih]
    exact (UInt64.ofNat_add n rest.sum).symm

namespace Analysis

/-- Each name adds one. -/
theorem sum_tally (names : List String) : (tally names).values.sum = names.length.toUInt64 := by
  have hfold : ∀ counts : Dict UInt64, (names.foldl (fun counts name => counts.update name 0 (· + 1)) counts).values.sum =
      counts.values.sum + names.length.toUInt64 := by
    induction names with
    | nil => intro counts; exact (add_zero _).symm
    | cons name rest ih =>
      intro counts
      rw [List.foldl_cons, ih, Dict.sum_values_update, List.length_cons, add_assoc, add_comm 1]
      exact congrArg (counts.values.sum + ·) (UInt64.ofNat_add rest.length 1).symm
  exact (hfold {}).trans (zero_add _)

end Analysis

/-! ## Modules and the analysis -/

/-- Functions and methods of the files of a shard. -/
def Shard.callableCount (shard : Shard) : Nat :=
  (shard.files.values.map fun f => f.outline.functions.size + (f.outline.types.values.map fun t => t.methods.size).sum).sum

theorem Outline.length_callables (o : Outline) :
    o.callables.length = o.functions.size + (o.types.values.map fun t => t.methods.size).sum := by
  have hmethods : o.methods.length = (o.types.values.map fun t => t.methods.size).sum := by
    rw [methods, List.length_flatMap, Dict.values, List.map_map]
    refine congrArg List.sum (List.map_congr_left fun e _ => ?_)
    exact List.length_map _
  rw [callables, List.length_append, hmethods]
  rfl

namespace Analysis

variable {a : Analysis} {group files : List String} {modules : ModuleMap}

theorem values_detailsOf (a : Analysis) (hgroup : group.Pairwise (· < ·)) :
    (a.detailsOf group).values = group.filterMap a.details.get? := by
  have hkeys : ∀ key ∈ (a.detailsOf group).keys, key ∈ group := by
    intro key hkey
    obtain ⟨entry, hget⟩ := Dict.mem_keys.1 hkey
    rw [get?_detailsOf] at hget
    by_contra hnot
    rw [if_neg hnot] at hget
    cases hget
  rw [Dict.values_eq_filterMap _ hgroup hkeys]
  apply List.filterMap_congr
  intro file hfile
  rw [get?_detailsOf, if_pos hfile]

/-- A shard of files that the analysis tells of has just these files. -/
theorem keys_detailsOf (hgroup : group.Pairwise (· < ·)) (hknown : ∀ file ∈ group, (a.details.get? file).isSome = true) :
    (a.detailsOf group).keys = group := by
  apply Text.eq_of_mem_iff (a.detailsOf group).pairwise_keys hgroup
  intro file
  rw [Dict.mem_keys, get?_detailsOf]
  constructor
  · rintro ⟨entry, hget⟩
    by_contra hnot
    rw [if_neg hnot] at hget
    cases hget
  · intro hfile
    rw [if_pos hfile]
    exact Option.isSome_iff_exists.1 (hknown file hfile)

theorem keys_docsAmong (a : Analysis) (tier : DocTier) (hgroup : group.Pairwise (· < ·)) :
    (a.docsAmong tier group).keys = group.filter fun file => (a.synopsis? tier file).isSome := by
  have hkeys : ∀ key ∈ (a.docsAmong tier group).keys, key ∈ group := by
    intro key hkey
    obtain ⟨found, hget⟩ := Dict.mem_keys.1 hkey
    rw [get?_docsAmong] at hget
    by_contra hnot
    rw [if_neg hnot] at hget
    cases hget
  rw [Dict.keys_eq_filter _ hgroup hkeys]
  apply List.filter_congr
  intro file hfile
  rw [get?_docsAmong, if_pos hfile]

/-- A module's entry counts the callables of its shard. -/
theorem callableCount_moduleEntry (a : Analysis) (id : String) (hgroup : group.Pairwise (· < ·)) :
    (a.moduleEntry id group).callableCount = (a.shard id group).callableCount.toUInt64 := by
  have hvalues : (a.shard id group).files.values = group.filterMap a.details.get? := a.values_detailsOf hgroup
  have hfold : ∀ ns : List UInt64, ns.foldl (· + ·) 0 = ns.sum := fun ns => List.sum_eq_foldl.symm
  rw [Shard.callableCount, hvalues, ← sum_map_toUInt64, List.map_map, moduleEntry, hfold]
  refine congrArg List.sum (List.map_congr_left fun entry _ => ?_)
  exact congrArg Nat.toUInt64 entry.outline.length_callables

/-- The files of modules are, in another order, those that an analysis tells of. -/
theorem Covers.perm_keys (h : a.Covers files) (hn : files.Nodup) : files.Perm a.details.keys :=
  (List.perm_ext_iff_of_nodup hn a.details.nodup_keys).2 fun file => (h.known file).symm.trans Dict.contains_iff_mem

/-- The shards tell together what the analysis tells of all files. -/
theorem Covers.perm_values (hm : modules.Divides modules.files) (h : a.Covers modules.files) :
    ((modules.toList.map fun e => a.shard e.1 e.2).flatMap fun shard => shard.files.values).Perm a.details.values := by
  have hparts : (modules.toList.map fun e => a.shard e.1 e.2).flatMap (fun shard => shard.files.values) =
      modules.files.filterMap a.details.get? := by
    rw [ModuleMap.files_eq_flatMap, List.filterMap_flatMap, List.flatMap_map]
    apply List.flatMap_congr
    intro e he
    exact a.values_detailsOf (hm.increasing (Dict.mem_toList'.1 he))
  rw [hparts, Dict.values_eq_filterMap_keys]
  exact (h.perm_keys hm.nodup).filterMap _

/-- The documentation of one tier is, module by module, that of all files. -/
theorem Covers.perm_docs (hm : modules.Divides modules.files) (h : a.Covers modules.files) (tier : DocTier) :
    (modules.toList.flatMap fun e => (a.docsAmong tier e.2).keys).Perm (a.docsOf tier).keys := by
  have hparts : (modules.toList.flatMap fun e => (a.docsAmong tier e.2).keys) =
      modules.files.filter fun file => (a.synopsis? tier file).isSome := by
    rw [ModuleMap.files_eq_flatMap, List.filter_flatMap]
    apply List.flatMap_congr
    intro e he
    exact a.keys_docsAmong tier (hm.increasing (Dict.mem_toList'.1 he))
  rw [hparts, List.perm_ext_iff_of_nodup (hm.nodup.filter _) (a.docsOf tier).nodup_keys]
  intro file
  rw [List.mem_filter, Dict.mem_keys, get?_docsOf, Option.isSome_iff_exists]
  refine ⟨And.right, fun hfile => ⟨?_, hfile⟩⟩
  obtain ⟨found, hfound⟩ := hfile
  by_contra hnot
  rw [synopsis?, h.docs_eq_none hnot] at hfound
  cases hfound

theorem mem_keys_docsOf {tier : DocTier} {file : String} :
    file ∈ (a.docsOf tier).keys ↔ ∃ found, a.docs.get? file = some (tier, found) := by
  rw [Dict.mem_keys, get?_docsOf, synopsis?]
  rcases a.docs.get? file with _ | ⟨t, found⟩
  · simp
  · by_cases ht : t = tier <;> simp [ht]

/-- Documentation is divided by its tiers. -/
theorem perm_keys_docs (a : Analysis) :
    ((a.docsOf .critical).keys ++ ((a.docsOf .standard).keys ++ (a.docsOf .archive).keys)).Perm a.docs.keys := by
  have hapart : ∀ {tier tier' : DocTier} {file file' : String}, tier ≠ tier' → file ∈ (a.docsOf tier).keys →
      file' ∈ (a.docsOf tier').keys → file ≠ file' := by
    intro tier tier' file file' hne hfile hfile' heq
    obtain ⟨found, hfound⟩ := mem_keys_docsOf.1 hfile
    obtain ⟨found', hfound'⟩ := mem_keys_docsOf.1 hfile'
    rw [heq, hfound'] at hfound
    cases hfound
    exact hne rfl
  have hnodup : ((a.docsOf .critical).keys ++ ((a.docsOf .standard).keys ++ (a.docsOf .archive).keys)).Nodup := by
    refine List.nodup_append.2 ⟨Dict.nodup_keys _, List.nodup_append.2 ⟨Dict.nodup_keys _, Dict.nodup_keys _, ?_⟩, ?_⟩
    · intro file hfile file' hfile'
      exact hapart (by decide) hfile hfile'
    · intro file hfile file' hfile'
      rcases List.mem_append.1 hfile' with hfile' | hfile'
      · exact hapart (by decide) hfile hfile'
      · exact hapart (by decide) hfile hfile'
  apply (List.perm_ext_iff_of_nodup hnodup a.docs.nodup_keys).2
  intro file
  rw [List.mem_append, List.mem_append, mem_keys_docsOf, mem_keys_docsOf, mem_keys_docsOf, Dict.mem_keys]
  constructor
  · rintro (⟨found, hfound⟩ | ⟨found, hfound⟩ | ⟨found, hfound⟩)
    · exact ⟨_, hfound⟩
    · exact ⟨_, hfound⟩
    · exact ⟨_, hfound⟩
  · rintro ⟨⟨tier, found⟩, hfound⟩
    cases tier with
    | critical => exact .inl ⟨found, hfound⟩
    | standard => exact .inr (.inl ⟨found, hfound⟩)
    | archive => exact .inr (.inr ⟨found, hfound⟩)

end Analysis

/-! ## Indices -/

/-- The numbers in a core index are those of its shards, and every shard has just the files of its module. -/
structure CoreIndex.Agrees (core : CoreIndex) (shards : List Shard) : Prop where
  modules : shards.map Shard.moduleId = core.modules.keys
  files : ∀ shard ∈ shards, ∃ entry, core.modules.get? shard.moduleId = some entry ∧ shard.files.keys = entry.files ∧
    entry.callableCount = shard.callableCount.toUInt64
  byModule : (core.modules.values.map ModuleEntry.fileCount).sum = core.stats.totalFiles
  byMap : core.moduleOfFile.size.toUInt64 = core.stats.totalFiles
  byLanguage : core.stats.filesByLanguage.values.sum = core.stats.totalFiles
  listedOnly : core.stats.listedOnly =
    ((shards.flatMap fun shard => shard.files.values).filter FileEntry.listedOnly).length.toUInt64
  byTier : core.stats.docTiers.values.sum =
    (core.critical.size + (shards.map fun shard => shard.standard.size + shard.archive.size).sum).toUInt64
  /-- No documentation is at two places. -/
  once : (core.critical.keys ++ shards.flatMap fun shard => shard.standard.keys ++ shard.archive.keys).Nodup

namespace Standing

variable {s : Store} {m : Maker} {d : Disk} {core : CoreIndex} {a : Analysis}

/-- What the core index and the shards tell of documentation is what the analysis knows. -/
theorem perm_docs (h : Standing s m d core a) :
    (core.critical.keys ++ ((modulesOf core).toList.map fun e => a.shard e.1 e.2).flatMap fun shard =>
      shard.standard.keys ++ shard.archive.keys).Perm a.docs.keys := by
  have hparts := (List.flatMap_append_perm (modulesOf core).toList (fun e => (a.docsAmong .standard e.2).keys)
    fun e => (a.docsAmong .archive e.2).keys).symm.trans
      ((h.covers.perm_docs h.divides .standard).append (h.covers.perm_docs h.divides .archive))
  rw [h.critical, List.flatMap_map]
  exact (hparts.append_left _).trans a.perm_keys_docs

theorem stats_eq (h : Standing s m d core a) :
    core.stats = a.stats core.stats.fileSource (Layout.detect? (modulesOf core).files) :=
  congrArg CoreIndex.stats h.made

theorem modules_eq (h : Standing s m d core a) :
    core.modules = Dict.map (fun id files => a.moduleEntry id files) (modulesOf core) :=
  congrArg CoreIndex.modules h.made

theorem totalFiles_eq (h : Standing s m d core a) : core.stats.totalFiles = (modulesOf core).files.length.toUInt64 := by
  rw [h.stats_eq, (h.covers.perm_keys h.divides.nodup).length_eq]
  rfl

/-- The map from files to modules has just the files of the modules. -/
theorem size_moduleOfFile (h : Standing s m d core a) : core.moduleOfFile.size = (modulesOf core).files.length := by
  have hmap : core.moduleOfFile = (modulesOf core).moduleOfFile := congrArg CoreIndex.moduleOfFile h.made
  rw [hmap, Dict.size_eq]
  apply List.Perm.length_eq
  apply (List.perm_ext_iff_of_nodup (Dict.nodup_keys _) h.divides.nodup).2
  intro file
  rw [Dict.mem_keys, ModuleMap.mem_files]
  exact exists_congr fun id => ModuleMap.get?_moduleOfFile h.divides.nodup

theorem agrees (h : Standing s m d core a) : core.Agrees ((modulesOf core).toList.map fun e => a.shard e.1 e.2) := by
  constructor
  · rw [List.map_map]
    exact Dict.keys_map _ core.modules
  · intro shard hshard
    obtain ⟨⟨id, group⟩, he, rfl⟩ := List.mem_map.1 hshard
    have hget : (modulesOf core).get? id = some group := Dict.mem_toList'.1 he
    have hgroup := h.divides.increasing hget
    refine ⟨a.moduleEntry id group, ?_, ?_, a.callableCount_moduleEntry id hgroup⟩
    · change core.modules.get? id = _
      rw [h.modules_eq, Dict.get?_map, hget]
      rfl
    · apply Analysis.keys_detailsOf hgroup
      intro file hfile
      exact (h.covers.known file).2 (ModuleMap.mem_files.2 ⟨id, group, hget, hfile⟩)
  · have hvalues : core.modules.values.map ModuleEntry.fileCount =
        ((modulesOf core).toList.map fun e => e.2.length).map Nat.toUInt64 := by
      rw [h.modules_eq, Dict.values, List.map_map, List.map_map]
      change (Dict.toList _).map _ = _
      rw [Dict.toList_map, List.map_map]
      rfl
    rw [hvalues, sum_map_toUInt64, h.totalFiles_eq, ModuleMap.files_eq_flatMap, List.length_flatMap]
  · rw [h.size_moduleOfFile, h.totalFiles_eq]
  · rw [h.stats_eq]
    change (Analysis.tally _).values.sum = a.files.length.toUInt64
    rw [Analysis.sum_tally, List.length_map, Dict.length_values]
    rfl
  · rw [((Analysis.Covers.perm_values h.divides h.covers).filter _).length_eq, h.stats_eq]
    rfl
  · have hsizes : core.critical.size + (((modulesOf core).toList.map fun e => a.shard e.1 e.2).map fun shard =>
        shard.standard.size + shard.archive.size).sum = a.docs.keys.length := by
      rw [← h.perm_docs.length_eq, List.length_append, List.length_flatMap, Dict.size_eq]
      simp only [List.length_append, Dict.size_eq]
    rw [hsizes, h.stats_eq]
    change (Analysis.tally _).values.sum = _
    rw [Analysis.sum_tally, List.length_map, Dict.length_values]
  · exact h.perm_docs.nodup_iff.2 a.docs.nodup_keys

end Standing

/-- After whatever runs, with whatever edits in between, an index that has shards can be read with all of them, and its
    numbers are those of what the shards hold. -/
theorem totals_agree_with_shards {s : Store} {m : Maker} {w : Workspace} {a : Analysis} {core : CoreIndex}
    (h : Tracked s m w a) (hcore : s.coreOn? w.disk = some core) (hshards : core.HasShards) :
    ∃ shards, (Update.readShards s core).exec w = (.ok shards, w) ∧ core.Agrees shards :=
  have hstanding := h.standing hcore hshards
  ⟨_, hstanding.exec_readShards h.isAbsolute, hstanding.agrees⟩

theorem totals_agree_with_shards_documented : ∃ core n w a shards,
    ((Maker.ofSettings .default).build ".").exec Migration.documented = (.ok (core, n), w) ∧
    Tracked ⟨"/demo"⟩ (Maker.ofSettings .default) w a ∧ Store.coreOn? ⟨"/demo"⟩ w.disk = some core ∧ core.HasShards ∧
    "README.md" ∈ core.allFiles ∧ (Update.readShards ⟨"/demo"⟩ core).exec w = (.ok shards, w) ∧ core.Agrees shards := by
  obtain ⟨core, n, w, a, hbuild, htracked, hstanding, -, hfiles, -⟩ := tracked_documented
  obtain ⟨shards, hread, hagrees⟩ := totals_agree_with_shards htracked hstanding.coreOn? hstanding.hasShards
  exact ⟨core, n, w, a, shards, hbuild, htracked, hstanding.coreOn?, hstanding.hasShards, by simp [hfiles], hread, hagrees⟩

end CodeIndex
