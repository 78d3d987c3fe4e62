import CodeIndex.Proofs.Examined
import CodeIndex.Proofs.Holding
import CodeIndex.Proofs.Touched

set_option autoImplicit false

/-!
# What an update makes of an index

The update of an index that an analysis made is again an index that an analysis makes: the old one without what is
removed, and with what is new laid over it.  Modules without changed files keep their shards.
-/

namespace CodeIndex

open Action Store Update.Membership

namespace Update

variable {s : Store} {d : Disk} {core : CoreIndex} {a : Analysis} {m : Maker} {c : ChangeSet} {w w' : Workspace}

/-- The analysis that an update makes its documents from. -/
def renewed (core : CoreIndex) (a fresh : Analysis) (c : ChangeSet) : Analysis :=
  (Analysis.ofIndex core ((modulesOf core).toList.map fun e => a.shard e.1 e.2)).overlay fresh c.removed.keys

/-- The core index that an update writes. -/
def renewedCore (m : Maker) (s : Store) (core : CoreIndex) (a : Analysis) (modules : ModuleMap) (now : String) : CoreIndex :=
  a.core (Path.displayName s.root) now modules (a.hashes modules) core.stats.fileSource (Layout.detect? modules.files)
    m.settings

/-- Nothing is known of files that were not analysed. -/
def OnlyKnows (fresh : Analysis) (files : List String) : Prop :=
  ∀ path ∉ files, fresh.details.get? path = none ∧ fresh.docs.get? path = none

theorem renewed_agreeOn {fresh : Analysis} (hcritical : core.critical = a.docsOf .critical)
    (hfresh : OnlyKnows fresh c.modified.keys) {id : String} {files : List String}
    (hget : (modulesOf core).get? id = some files)
    (hnot : ∀ path ∈ files, path ∉ c.removed.keys ∧ path ∉ c.modified.keys) : (renewed core a fresh c).AgreeOn a files := by
  have hfiles : files ⊆ (modulesOf core).toList.flatMap Prod.snd := by
    intro path hpath
    exact List.mem_flatMap.2 ⟨(id, files), Dict.mem_toList.2 hget, hpath⟩
  have hindex := (Analysis.ofIndex_agreeOn hcritical (modulesOf core).toList).mono hfiles
  have hover : (renewed core a fresh c).AgreeOn
      (Analysis.ofIndex core ((modulesOf core).toList.map fun e => a.shard e.1 e.2)) files := by
    refine Analysis.overlay_agreeOn fun path hpath => ?_
    obtain ⟨hremoved, hmodified⟩ := hnot path hpath
    exact ⟨hremoved, (hfresh path hmodified).1, (hfresh path hmodified).2⟩
  exact hover.trans hindex

/-- A module that keeps its files, none of them changed, keeps its shard. -/
theorem bytesOf?_renewed {fresh : Analysis} (hcritical : core.critical = a.docsOf .critical)
    (hfresh : OnlyKnows fresh c.modified.keys) {modules : ModuleMap} {id : String}
    (hsame : modules.get? id = (modulesOf core).get? id)
    (hnot : ∀ path, (modulesOf core).Holds id path → path ∉ c.removed.keys ∧ path ∉ c.modified.keys) :
    (renewed core a fresh c).bytesOf? modules id = a.bytesOf? (modulesOf core) id := by
  rw [Analysis.bytesOf?, Analysis.bytesOf?, hsame]
  cases hget : (modulesOf core).get? id with
  | none => rw [Option.map_none, Option.map_none]
  | some files =>
    have hagree := renewed_agreeOn hcritical hfresh hget fun path hpath => hnot path ⟨files, hget, hpath⟩
    rw [Option.map_some, Option.map_some, Analysis.shard_congr hagree]

/-- What an update is made of, and what it leaves behind. -/
structure Renewed (s : Store) (m : Maker) (core : CoreIndex) (a : Analysis) (c : ChangeSet) (w w' : Workspace)
    (importers : List String) (fresh : Analysis) : Prop where
  regrouped : Regrouped core c (after core c importers)
  analysed : m.Analysed (OutlineCache.loaded w.disk s.root s.cachePlace) w s.root
    (Listing.known m.settings w.history .versionControl) c.modified.keys fresh
  holding : Holding s w'.disk (renewedCore m s core (renewed core a fresh c) (after core c importers).modules w.now)
    (renewed core a fresh c)
  gone : ∀ id ∈ (after core c importers).affected.keys, id ∉ (after core c importers).modules.keys →
    w'.disk.read (s.shardPlace id) = .error .absent

/-- Files of a module that is not affected are not changed. -/
theorem unchanged_of_unaffected {importers : List String} (hr : Regrouped core c (after core c importers)) {id : String}
    (hid : id ∉ (after core c importers).affected.keys) {path : String} (h : (modulesOf core).Holds id path) :
    path ∉ c.removed.keys ∧ path ∉ c.modified.keys := by
  refine ⟨fun hremoved => hid (hr.removed hremoved h), fun hmodified => hid (hr.modified hmodified ?_)⟩
  obtain ⟨files, hget, hpath⟩ := h
  exact ⟨files, (hr.unaffected hid).trans hget, hpath⟩

theorem Membership.Regrouped.divides_files {membership : Membership} (hr : Regrouped core c membership) :
    membership.modules.Divides ((modulesOf core).files.filter (· ∉ c.removed.keys) ++ c.modified.keys) := by
  refine hr.divides _ fun file => ?_
  simp [List.mem_append, List.mem_filter]

theorem isValid_affected (h : Sharded s d core a) (importers : List String) :
    ∀ id ∈ (after core c importers).affected.keys, ModuleId.isValid id = true := by
  intro id hid
  rcases known_of_affected h.consistent c importers hid with hcore | hvalid
  · exact h.isValid (mem_keys_modulesOf.2 (Dict.contains_iff_mem.1 hcore))
  · exact hvalid

/-- The digests that an update arrives at are those of the new shards. -/
theorem hashes_of_redone (h : Sharded s d core a) {importers : List String} {fresh : Analysis}
    (hfresh : OnlyKnows fresh c.modified.keys) (hr : Regrouped core c (after core c importers)) {hashes : Dict String}
    (hget : ∀ id, hashes.get? id = if id ∈ (after core c importers).affected.keys
      then ((renewed core a fresh c).bytesOf? (after core c importers).modules id).map digest else core.hashes.get? id) :
    hashes = (renewed core a fresh c).hashes (after core c importers).modules := by
  refine Dict.ext_get? fun id => ?_
  rw [hget, Analysis.get?_hashes]
  split
  · rfl
  · next hid =>
    rw [h.hashes, Analysis.get?_hashes, bytesOf?_renewed h.critical hfresh (hr.unaffected hid) fun path hpath =>
      unchanged_of_unaffected hr hid hpath]

section Absolute

variable (hs : Path.isAbsolute s.root = true)

include hs

/-- The shards that an update wrote, with those that it let be, are as the new analysis tells. -/
theorem saved_of_redone (h : Sharded s w.disk core a) (hopen : w.disk.IsOpen s.place) {importers : List String}
    {fresh : Analysis} (hfresh : OnlyKnows fresh c.modified.keys) (hr : Regrouped core c (after core c importers))
    (hredone : Redone s (renewed core a fresh c) (after core c importers).modules
      (after core c importers).affected.keys w w') {id : String} (hid : id ∈ (after core c importers).modules.keys) :
    Saved w'.disk (s.shardPlace id) ((renewed core a fresh c).bytesOf? (after core c importers).modules id) := by
  by_cases haffected : id ∈ (after core c importers).affected.keys
  · exact hredone.saved id haffected
  · have hsame := hr.unaffected haffected
    obtain ⟨files, hget⟩ := Dict.mem_keys.1 hid
    have hold : id ∈ (modulesOf core).keys := Dict.mem_keys.2 ⟨files, hsame.symm.trans hget⟩
    have hvalid := h.isValid hold
    rw [bytesOf?_renewed h.critical hfresh hsame fun path hpath => unchanged_of_unaffected hr haffected hpath]
    refine (h.shards id hold).congr ?_
    exact (sheltered_of_isValid hopen hvalid).access_eq hredone.changed.frame
      (not_shardFiles hs hvalid (isValid_affected h importers) haffected) (not_shardFiles_shardsPlace hs _)

/-- An update arrives at the digests of the new shards, which are on the disk then. -/
theorem shards_of_regenerateAll (h : Sharded s w.disk core a) (hopen : w.disk.IsOpen s.place) {importers : List String}
    {fresh : Analysis} (hfresh : OnlyKnows fresh c.modified.keys) (hr : Regrouped core c (after core c importers))
    {hashes : Dict String} {backups : Backups}
    (hx : (regenerateAll s (renewed core a fresh c) (after core c importers).modules (after core c importers).affected.keys
      core.hashes {}).exec w = (.ok (hashes, backups), w')) :
    hashes = (renewed core a fresh c).hashes (after core c importers).modules ∧
      (∀ id ∈ (after core c importers).modules.keys,
        Saved w'.disk (s.shardPlace id) ((renewed core a fresh c).bytesOf? (after core c importers).modules id)) ∧
      Redone s (renewed core a fresh c) (after core c importers).modules (after core c importers).affected.keys w w' := by
  have hvalid := isValid_affected h importers (c := c)
  obtain ⟨hredone, hget⟩ := regenerateAll_ok hs _ hvalid (after core c importers).affected.nodup_keys hopen hx
  exact ⟨hashes_of_redone h hfresh hr hget, fun id => saved_of_redone hs h hopen hfresh hr hredone, hredone⟩

theorem commit_ok {backups : Backups} {u : Unit} (h : Sharded s w.disk core a) (hopen : w.disk.IsOpen s.place)
    (hversion : core.version = CoreIndex.splitVersion) (hx : (commit s core backups).exec w = (.ok u, w')) :
    Holding s w'.disk core a ∧ Changed (fun l => l = s.corePlace ∨ l = s.corePlace.aside) (fun _ => False) w w' := by
  rcases commit_cases hs hx with ⟨-, -, hw⟩ | ⟨f, -, hback⟩ | ⟨path, reason, w₁, -, hback⟩
  · obtain ⟨hread, hchanged⟩ := writeCore_ok hs hw
    refine ⟨⟨h.congr fun id hid => ?_, hread, hversion⟩, hchanged⟩
    obtain ⟨files, hget⟩ := Dict.mem_keys.1 hid
    have hsaved : Saved w.disk (s.shardPlace id) (some (encode (a.shard id files))) := h.read_shard hget
    exact hsaved.read_eq (saved_of_writeCore hs hopen hchanged (h.isValid hid) hsaved)
  · cases rollBack_throw hs hback
  · cases rollBack_throw hs hback

theorem commit_fails {backups : Backups} {f : Failure} (h : Sharded s w.disk core a)
    (hx : (commit s core backups).exec w = (.error f, w')) : f.IsStorage := by
  rcases commit_cases hs hx with ⟨hok, -⟩ | ⟨f, hnot, -⟩ | ⟨path, reason, w₁, -, hback⟩
  · cases hok
  · exact absurd h.intact hnot
  · cases rollBack_throw hs hback
    exact ⟨path, reason, rfl⟩

variable {shards : List Shard} {found : List Maker.Finding} {fresh : Analysis} {hashes : Dict String} {backups : Backups}
  {w₁ w₂ w₃ : Workspace}

/-- An update reads the shards that the analysis made. -/
theorem Prepared.shards_eq (h : Holding s w.disk core a) (hp : Prepared m s.root core c w shards found fresh w₁) :
    shards = (modulesOf core).toList.map fun e => a.shard e.1 e.2 := by
  obtain ⟨w', hshards⟩ := hp.shards
  cases (h.exec_readShards hs).symm.trans hshards
  rfl

/-- What an update has written when it comes to commit are the shards of the new analysis. -/
theorem Prepared.sharded (h : Holding s w.disk core a) (hdisjoint : ∀ file ∈ c.modified.keys, file ∉ c.removed.keys)
    (hp : Prepared m s.root core c w shards found fresh w₁)
    (hx : (writeAffected s.root core c shards fresh).exec w₁ = (.ok (hashes, backups), w₂)) :
    coreAfter m s.root core c shards fresh hashes w₂.now =
        renewedCore m s core (renewed core a fresh c) (membershipAfter core c shards).modules w₂.now ∧
      Sharded s w₂.disk (coreAfter m s.root core c shards fresh hashes w₂.now) (renewed core a fresh c) ∧
      Redone s (renewed core a fresh c) (membershipAfter core c shards).modules (membershipAfter core c shards).affected.keys
        w₁ w₂ := by
  have hregrouped : Regrouped core c (membershipAfter core c shards) := regrouped_after h.consistent h.divides c hdisjoint _
  obtain rfl := hp.shards_eq hs h
  have hopen := h.isOpen
  rw [← hp.alike.disk_eq] at h hopen
  obtain ⟨rfl, hsaved, hredone⟩ := shards_of_regenerateAll hs h.toSharded hopen hp.analysed.outside hregrouped hx
  exact ⟨rfl, Sharded.of_core hregrouped.divides_files hsaved _ _ _ _ _, hredone⟩

/-- An update that comes to its end leaves the renewed index. -/
theorem renewed_of_prepared (h : Holding s w.disk core a) (hdisjoint : ∀ file ∈ c.modified.keys, file ∉ c.removed.keys)
    (hp : Prepared m s.root core c w shards found fresh w₁)
    (hwrite : (writeAffected s.root core c shards fresh).exec w₁ = (.ok (hashes, backups), w₂))
    (hcommit : (commit s (coreAfter m s.root core c shards fresh hashes w₂.now) backups).exec w₂ = (.ok (), w₃))
    (hsave : (Maker.rememberAll (cacheBefore s.root w) found).saveQuietly.exec w₃ = (.ok (), w')) :
    Renewed s m core a c w w' (Imports.importers (Imports.graph shards) c.all) fresh := by
  obtain ⟨hcore, hsharded, hredone⟩ := hp.sharded hs h hdisjoint hwrite
  have hanalysed := hp.analysed
  rw [cacheBefore_eq hs] at hanalysed hsave
  have hpath : (Maker.rememberAll (OutlineCache.loaded w.disk s.root s.cachePlace) found).path =
      some (Path.join (Path.join s.root OutlineCache.directory) OutlineCache.fileName) := Maker.path_rememberAll _ _
  have hopen : w₂.disk.IsOpen s.place := hredone.changed.frame.isOpen (hp.alike.disk_eq ▸ h.isOpen)
  obtain ⟨hholding, hchanged⟩ := commit_ok hs hsharded hopen rfl hcommit
  have hnow : w₂.now = w.now := hredone.changed.now_eq.trans hp.alike.now_eq
  refine ⟨regrouped_after h.consistent h.divides c hdisjoint _, hanalysed, ?_, ?_⟩
  · rw [hcore, hnow] at hholding
    exact hholding.of_saveQuietly hs hpath hsave
  · intro id hid hnone
    have hvalid := isValid_affected h.toSharded _ id hid
    have hsaved := hredone.saved id hid
    have hgone : (membershipAfter core c shards).modules.get? id = none := Dict.get?_eq_none.2 hnone
    rw [Analysis.bytesOf?, hgone, Option.map_none] at hsaved
    have habsent : Saved w₃.disk (s.shardPlace id) none := saved_of_writeCore hs hopen hchanged hvalid hsaved
    exact (Disk.read_congr (access_of_saveQuietly hs hpath hholding.isOpen hsave (.shard hvalid))).trans habsent

theorem apply_spec (h : Holding s w.disk core a) (hdisjoint : ∀ file ∈ c.modified.keys, file ∉ c.removed.keys)
    {r : Except Failure UpdateOutcome} (hx : (apply m s.root core c).exec w = (r, w')) :
    (∀ f, r = .error f → f.IsStorage ∨ ∃ file ∈ c.modified.keys,
      m.finding? (OutlineCache.loaded w.disk s.root s.cachePlace) w s.root file = .error f) ∧
      ∀ o, r = .ok o → ∃ importers fresh, Renewed s m core a c w w' importers fresh ∧
        o = .updated (after core c importers).affected.keys c.all := by
  cases course hx with
  | unread _ reading => cases (h.exec_readShards hs).symm.trans reading
  | unexamined _ mem finding =>
    rw [cacheBefore_eq hs] at finding
    refine ⟨?_, nofun⟩
    rintro f ⟨⟩
    exact .inr ⟨_, mem, finding⟩
  | unwritten _ writing =>
    refine ⟨?_, nofun⟩
    rintro f ⟨⟩
    exact .inl (regenerateAll_error hs _ writing)
  | uncommitted prepared writing committing =>
    obtain ⟨-, hsharded, -⟩ := prepared.sharded hs h hdisjoint writing
    refine ⟨?_, nofun⟩
    rintro f ⟨⟩
    exact .inl (commit_fails hs hsharded committing)
  | done prepared writing committing saving =>
    refine ⟨nofun, ?_⟩
    rintro o ⟨⟩
    exact ⟨_, _, renewed_of_prepared hs h hdisjoint prepared writing committing saving, rfl⟩

end Absolute

end Update

end CodeIndex
