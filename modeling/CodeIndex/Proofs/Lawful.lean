import CodeIndex.Proofs.Contents
import CodeIndex.Proofs.Plan

set_option autoImplicit false

/-!
# What plans keep to

Time passes between the making of a plan and each of its steps, and all but the documents may have changed by then.  The
plan of a build holds whatever the disk is like, and that of an update as long as the index is as it was.
-/

namespace CodeIndex

open Action Store Update Update.Membership

variable {s : Store} {m : Maker} {core : CoreIndex} {a fresh : Analysis} {c : ChangeSet} {w w' : Workspace} {d d' : Disk}
  {p : Plan} {hashes : Dict String} {backups : Backups} {source : String → Option ByteArray} {ready : Disk → Prop}

/-- All documents are as they were. -/
def Store.SameDocuments (s : Store) (d d' : Disk) : Prop := ∀ l, IsDocument s l → d'.access l = d.access l

namespace Standing

theorem of_sameDocuments (h : Standing s m d core a) (hsame : s.SameDocuments d d') : Standing s m d' core a :=
  h.congr (Disk.read_congr (hsame _ .core)) fun _ hid =>
    Disk.read_congr (hsame _ (.shard (h.isValid (mem_keys_modulesOf.2 hid))))

end Standing

namespace Plan

/-- The shards of the planned modules are on the disk, and these are their digests. -/
structure Stored (s : Store) (p : Plan) (a : Analysis) (hashes : Dict String) (d : Disk) : Prop where
  hashes_eq : hashes = a.hashes p.modules
  saved : ∀ id ∈ p.modules.keys, Saved d (s.shardPlace id) (a.bytesOf? p.modules id)

/-- A plan that can be carried out at any time while the disk is ready for it.  `source` tells what was read last of every
    file that an index has. -/
structure Lawful (s : Store) (m : Maker) (p : Plan) (source : String → Option ByteArray) (ready : Disk → Prop) : Prop where
  nodup : p.files.Nodup
  plain : ∀ file ∈ p.files, Plain file
  divides : p.modules.Divides p.modules.files
  path : p.cache.path = some (OutlineCache.pathIn s.root)
  /-- What it comes to know tells of the files of the planned modules. -/
  covers : ∀ {fresh}, fresh.Covers p.files → (p.known.overlay fresh p.removed).Covers p.modules.files
  /-- Files that it does not take up are known as they were read last. -/
  kept : ∀ file ∈ p.modules.files, file ∉ p.files → file ∉ p.removed ∧
    ∀ bytes, source file = some bytes → m.Records p.known file bytes
  shards : ∀ {fresh hashes backups w w'}, OnlyKnows fresh p.files → ready w.disk → w.disk.IsOpen s.place →
    (p.writeShards (p.known.overlay fresh p.removed)).exec w = (.ok (hashes, backups), w') →
    p.Stored s (p.known.overlay fresh p.removed) hashes w'.disk ∧ Changed s.IsOutputPlace (· <+: s.shardsPlace) w w'
  core : ∀ {core a backups u w w'}, Sharded s w.disk core a → core.version = CoreIndex.splitVersion →
    w.disk.IsOpen s.place → (p.writeCore core backups).exec w = (.ok u, w') →
    Holding s w'.disk core a ∧ Changed s.IsOutputPlace (· <+: s.shardsPlace) w w'

/-- Whatever plan this action comes to, the plan is lawful then, and has the cache that is there. -/
structure Planning (s : Store) (m : Maker) (source : String → Option ByteArray) (ready : Disk → Prop)
    (x : Action (Option Plan)) : Prop where
  stays : ∀ {d d'}, ready d → s.SameDocuments d d' → ready d'
  lawful : ∀ {p w w'}, ready w.disk → x.exec w = (.ok (some p), w') →
    w.Alike w' ∧ p.cache = OutlineCache.loaded w.disk s.root s.cachePlace ∧ p.Lawful s m source ready

theorem Stored.of_sameDocuments (h : p.Stored s a hashes d) (hdivides : p.modules.Proper) (hsame : s.SameDocuments d d') :
    p.Stored s a hashes d' :=
  ⟨h.hashes_eq, fun id hid => (h.saved id hid).congr (hsame _ (.shard (isValid_keys hdivides id hid)))⟩

/-- The core index of a plan goes with the shards that it wrote. -/
theorem Stored.sharded (h : p.Stored s a hashes d) (hdivides : p.modules.Divides p.modules.files) (now : String) :
    Sharded s d (p.core m s.root a hashes now) a := by
  have hsharded := Sharded.of_core hdivides h.saved (Path.displayName s.root) now p.source (Layout.detect? p.modules.files)
    m.settings
  rw [← h.hashes_eq] at hsharded
  exact hsharded

/-- With it the index is there. -/
theorem standing_of_holding {now : String} (h : Holding s d (p.core m s.root a hashes now) a) (hhashes : hashes = a.hashes p.modules)
    (hcovers : a.Covers p.modules.files) : Standing s m d (p.core m s.root a hashes now) a := by
  subst hhashes
  exact Standing.of_core h rfl hcovers

end Plan

section Absolute

variable (hs : Path.isAbsolute s.root = true)

include hs

/-! ## Builds -/

/-- A build takes up all files, and finds nothing of use on the disk. -/
theorem Maker.lawful_plan (hskip : m.settings.skipDetails = false) (h : (m.plan s.root).exec w = (.ok p, w')) :
    w.Alike w' ∧ p.cache = OutlineCache.loaded w.disk s.root s.cachePlace ∧ p.Lawful s m (fun _ => none) fun _ => True := by
  unfold plan at h
  obtain ⟨⟨files, source⟩, w₁, hfiles, ha₁, h⟩ := (Listing.looks_files m.settings s.root).bind_ok h
  dsimp only at h
  rw [exec_bind_of_ok (exec_loadCache hs _), ha₁.disk_eq] at h
  obtain ⟨commits, w₂, -, ha₂, h⟩ := (Listing.looks_commits m.settings source).bind_ok h
  cases h
  refine ⟨ha₁.trans ha₂, rfl, ?_⟩
  obtain ⟨hindexable, hsorted⟩ := Listing.files_ok (congrArg Prod.fst hfiles)
  have hdivides := m.divides_division files
  have hproper := hdivides.toProper
  constructor
  · exact hsorted.nodup
  · exact fun file hfile => Listing.plain_of_indexable (hindexable file hfile)
  · exact ⟨hproper, fun {file} => ModuleMap.mem_files, hdivides.unique⟩
  · rfl
  · intro fresh hfresh
    dsimp only
    rw [Analysis.overlay_nothing]
    exact hfresh.congr (m.mem_files_division files)
  · intro file hfile hnot
    exact absurd ((m.mem_files_division files file).1 hfile) hnot
  · intro fresh hashes backups w w' _ _ hopen hx
    dsimp only at hx ⊢
    rw [hskip] at hx
    obtain ⟨written, w₁, hwritten, hx⟩ := ok_of_exec_bind hx
    obtain ⟨cleared, w₂, hcleared, hx⟩ := ok_of_exec_bind hx
    cases hx
    obtain ⟨hredone, rfl⟩ := writeShards_ok hs hproper hwritten
    have hstale := clearShards_changed hs (ok_of_exec_during hcleared)
    refine ⟨⟨rfl, fun id hid => ?_⟩, ?_⟩
    · exact saved_of_clearShards (hredone.changed.frame.isOpen hopen) hstale (isValid_keys hproper id hid) hid
        (hredone.saved id hid)
    · exact (hredone.changed.mono (fun _ => isOutputPlace_of_shardFiles (isValid_keys hproper)) fun _ h => h).trans
        (hstale.mono (fun _ => isOutputPlace_of_isStale) fun _ => False.elim)
  · intro core a backups u w w' hsharded hversion hopen hx
    obtain ⟨hread, hchanged⟩ := writeCore_ok hs (ok_of_exec_during hx)
    refine ⟨⟨hsharded.congr fun id hid => ?_, hread, hversion⟩, ?_⟩
    · exact Disk.read_congr (access_of_writeCore hs hopen hchanged (hsharded.isValid hid))
    · exact hchanged.mono (fun _ => isOutputPlace_corePlace) fun _ => False.elim

theorem Maker.planning (hskip : m.settings.skipDetails = false) :
    Plan.Planning s m (fun _ => none) (fun _ => True) (some <$> m.plan s.root) := by
  refine ⟨fun _ _ => trivial, fun {p w w'} _ hx => ?_⟩
  rw [map_eq_pure_bind] at hx
  obtain ⟨q, w₁, hplan, hx⟩ := ok_of_exec_bind hx
  cases hx
  exact m.lawful_plan hs hskip hplan

/-! ## Updates -/

namespace Update

theorem exec_accept (h : Holding s w.disk core a) : (accept s.root core).exec w = (.ok (), w) := by
  obtain ⟨found, hfound, hintact⟩ := exec_problems hs core w
  obtain rfl : found = [] := hintact.2 h.intact
  have hshards : (core.hashes.isEmpty && !core.modules.isEmpty) = false := by
    rw [h.hashes, Analysis.hashes, Dict.isEmpty_map, modulesOf, Dict.isEmpty_map]
    simp
  unfold accept
  rw [hshards]
  simp only [Bool.false_eq_true, if_false]
  rw [exec_bind_of_ok hfound]
  rfl

/-- The steps that lead to the plan of an update. -/
theorem plan_ok {o : UpdateOutcome} (h : Holding s w.disk core a) (hx : (plan m s.root).exec w = (.ok (some p, o), w')) :
    ∃ c w₁ ids, (changes m s.root core).exec w = (.ok c, w₁) ∧ w.Alike w₁ ∧
      (planChanges m s.root core c).exec w₁ = (.ok (p, ids), w') := by
  unfold plan at hx
  rw [exec_bind_of_ok (h.exec_readCore hs), exec_bind_of_ok (exec_accept hs h)] at hx
  obtain ⟨c, w₁, hchanges, halike, hx⟩ := (looks_changes m s.root core).bind_ok hx
  split at hx
  · cases hx
  · obtain ⟨⟨p', ids⟩, w₂, hplan, hx⟩ := ok_of_exec_bind hx
    cases hx
    exact ⟨c, w₁, ids, hchanges, halike, hplan⟩

/-- The plan of an update is about the modified files, and about the modules that it comes to. -/
theorem planChanges_ok {ids : List String} (h : Holding s w.disk core a)
    (hx : (planChanges m s.root core c).exec w = (.ok (p, ids), w')) :
    w.Alike w' ∧ ∃ importers commits, p = {
      files := c.modified.keys
      cache := OutlineCache.loaded w.disk s.root s.cachePlace
      commits
      known := Analysis.ofIndex core ((modulesOf core).toList.map fun e => a.shard e.1 e.2)
      removed := c.removed.keys
      modules := (after core c importers).modules
      source := core.stats.fileSource
      writeShards := fun a =>
        regenerateAll s a (after core c importers).modules (after core c importers).affected.keys core.hashes {}
      writeCore := commit s } := by
  unfold planChanges at hx
  rw [exec_bind_of_ok (h.exec_readShards hs), exec_bind_of_ok (exec_loadCache hs _)] at hx
  obtain ⟨commits, w₁, -, halike, hx⟩ := (Listing.looks_commits m.settings .versionControl).bind_ok hx
  cases hx
  exact ⟨halike, _, commits, rfl⟩

/-- An update takes up what changed in an index that is as it should be. -/
theorem lawful_plan {o : UpdateOutcome} (h : Standing s m w.disk core a)
    (hrecorded : ∀ file ∈ (modulesOf core).files, ∀ bytes, source file = some bytes → m.Records a file bytes)
    (hx : (plan m s.root).exec w = (.ok (some p, o), w')) :
    w.Alike w' ∧ p.cache = OutlineCache.loaded w.disk s.root s.cachePlace ∧
      p.Lawful s m source fun d => Standing s m d core a := by
  obtain ⟨c, w₁, ids, hchanges, ha₁, hplan⟩ := plan_ok hs h.toHolding hx
  rcases changes_spec m s.root core w with ⟨⟨reason, hnone⟩, -⟩ | ⟨touched, c', -, hfound, hsorted⟩
  · rw [hchanges] at hnone
    cases hnone
  obtain rfl : c = c' := Except.ok.inj ((congrArg Prod.fst hchanges).symm.trans hfound)
  obtain ⟨ha₂, importers, commits, rfl⟩ := planChanges_ok hs (ha₁.disk_eq ▸ h.toHolding) hplan
  have hregrouped : Regrouped core c (after core c importers) :=
    regrouped_after h.consistent h.divides c hsorted.disjoint importers
  have hdivides := hregrouped.divides_files
  refine ⟨ha₁.trans ha₂, by rw [ha₁.disk_eq], ?_⟩
  constructor
  · exact c.modified.nodup_keys
  · exact fun file hfile => Listing.plain_of_indexable ((hsorted.modified file).1 hfile).2
  · exact ⟨hdivides.toProper, fun {file} => ModuleMap.mem_files, hdivides.unique⟩
  · rfl
  · exact fun hfresh => covers_renewed h hregrouped hfresh
  · intro file hfile hnot
    have hmem := hdivides.mem_iff.2 (ModuleMap.mem_files.1 hfile)
    rw [List.mem_append, List.mem_filter] at hmem
    obtain ⟨hold, hkept⟩ := hmem.resolve_right hnot
    refine ⟨by simpa using hkept, fun bytes hbytes => (hrecorded file hold bytes hbytes).congr ?_ ?_⟩
    · rw [Analysis.get?_details_ofIndex, ← ModuleMap.files_eq_flatMap, if_pos hold]
    · rw [Analysis.get?_docs_ofIndex h.critical, ← ModuleMap.files_eq_flatMap, if_pos hold]
  · intro fresh hashes backups w w' hfresh hready hopen hx
    obtain ⟨hhashes, hsaved, hredone⟩ := shards_of_regenerateAll hs hready.toSharded hopen hfresh hregrouped hx
    refine ⟨⟨hhashes, hsaved⟩, ?_⟩
    exact hredone.changed.mono (fun _ => isOutputPlace_of_shardFiles (isValid_affected hready.toSharded importers))
      fun _ h => h
  · intro core a backups u w w' hsharded hversion hopen hx
    obtain ⟨hholding, hchanged⟩ := commit_ok hs hsharded hopen hversion hx
    exact ⟨hholding, hchanged.mono (fun _ => isOutputPlace_corePlace) fun _ => False.elim⟩

theorem planning
    (hrecorded : ∀ file ∈ (modulesOf core).files, ∀ bytes, source file = some bytes → m.Records a file bytes) :
    Plan.Planning s m source (fun d => Standing s m d core a) (Prod.fst <$> plan m s.root) := by
  refine ⟨fun h hsame => h.of_sameDocuments hsame, fun {p w w'} h hx => ?_⟩
  rw [map_eq_pure_bind] at hx
  obtain ⟨⟨q, o⟩, w₁, hplan, hx⟩ := ok_of_exec_bind hx
  cases hx
  exact lawful_plan hs h hrecorded hplan

end Update

end Absolute

end CodeIndex
