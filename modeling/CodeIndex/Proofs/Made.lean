import CodeIndex.Proofs.Migrating
import CodeIndex.Proofs.Renewal

set_option autoImplicit false

/-!
# Indices that the program made

Whatever sequence of builds, migrations and updates made an index, some analysis makes it.  So an update finds nothing
wrong with it, and changes only what it has to.
-/

namespace CodeIndex

open Action Store Update Update.Membership

variable {s : Store} {m : Maker} {core core' : CoreIndex} {a : Analysis} {c : ChangeSet} {w w' : Workspace}

namespace Update

theorem Renewed.of_alike {w₁ : Workspace} {importers : List String} {fresh : Analysis} (hw : w.Alike w₁)
    (h : Renewed s m core a c w₁ w' importers fresh) : Renewed s m core a c w w' importers fresh := by
  have hanalysed := h.analysed
  rw [hw.disk_eq, hw.history_eq] at hanalysed
  have hholding := h.holding
  rw [hw.now_eq] at hholding
  exact ⟨h.regrouped, hanalysed.of_alike hw, hholding, h.gone⟩

/-- A failure that says nothing against the index. -/
def Harmless (f : Failure) : Prop :=
  f.IsStorage ∨ f.cause = .unscannable ∨ (∃ message, f.cause = .other message) ∨
    ∃ reason, f.cause = .fault (.noVersionControl reason)

theorem Harmless.not_inconsistent {f : Failure} (h : Harmless f) (problems : List String) :
    f.cause ≠ .fault (.inconsistent problems) := by
  rcases h with ⟨path, reason, heq⟩ | heq | ⟨message, heq⟩ | ⟨reason, heq⟩ <;> rw [heq] <;> simp

theorem resolveRoot_error {root : String} {f : Failure} (h : (Maker.resolveRoot root).exec w = (.error f, w')) :
    ∃ message, f.cause = .other message := by
  unfold Maker.resolveRoot at h
  rw [exec_bind_of_ok (exec_locate _ _), exec_bind_of_ok (exec_look _ _)] at h
  split at h
  · cases h
    exact ⟨_, rfl⟩
  · cases h
    exact ⟨_, rfl⟩
  · cases h

/-- What goes on once it is known what changed. -/
theorem proceed_of_changes (hs : Path.isAbsolute s.root = true) (h : Holding s w.disk core a)
    (hdisjoint : ∀ file ∈ c.modified.keys, file ∉ c.removed.keys) (hchanges : ((changes m s.root core).exec w).1 = .ok c)
    {r : Except Failure UpdateOutcome} (hx : (proceed m s.root core).exec w = (r, w')) :
    (∀ f, r = .error f → f.IsStorage ∨ ∃ file ∈ c.modified.keys,
      m.finding? (OutlineCache.loaded w.disk s.root s.cachePlace) w s.root file = .error f) ∧
      (r = .ok .unchanged → c.isEmpty = true ∧ w.Alike w') ∧
      ∀ ids changed, r = .ok (.updated ids changed) → ∃ importers fresh, Renewed s m core a c w w' importers fresh := by
  have hkeeps := (looks_changes m s.root core).keeps w
  unfold proceed at hx
  rw [exec_bind] at hx
  rcases hc : (changes m s.root core).exec w with ⟨result, w₁⟩
  rw [hc] at hx hchanges hkeeps
  obtain rfl : result = .ok c := hchanges
  dsimp only at hx hkeeps
  split at hx
  · next hempty =>
    cases hx
    exact ⟨by simp, fun _ => ⟨hempty, hkeeps⟩, by simp⟩
  · rw [← hkeeps.disk_eq] at h
    obtain ⟨hfails, hok⟩ := apply_spec hs h hdisjoint hx
    rw [hkeeps.disk_eq, Maker.finding?_of_alike hkeeps] at hfails
    refine ⟨hfails, ?_, ?_⟩
    · rintro rfl
      obtain ⟨importers, fresh, -, hbad⟩ := hok _ rfl
      cases hbad
    · rintro ids changed rfl
      obtain ⟨importers, fresh, hrenewed, -⟩ := hok _ rfl
      exact ⟨importers, fresh, hrenewed.of_alike hkeeps⟩

theorem proceed_spec (hs : Path.isAbsolute s.root = true) (h : Holding s w.disk core a) {r : Except Failure UpdateOutcome}
    (hx : (proceed m s.root core).exec w = (r, w')) :
    (∀ f, r = .error f → Harmless f) ∧ (r = .ok .unchanged → w.Alike w') ∧
      ∀ ids changed, r = .ok (.updated ids changed) → ∃ touched c,
        ((History.touchedSince (Listing.timeout m.settings) core.madeAt).exec w).1 = .ok touched ∧
        ((changes m s.root core).exec w).1 = .ok c ∧ Sorted m s.root core w touched c ∧
        ∃ importers fresh, Renewed s m core a c w w' importers fresh := by
  rcases changes_spec m s.root core w with ⟨⟨reason, hchanges⟩, -⟩ | ⟨touched, c, htouched, hchanges, hsorted⟩
  · unfold proceed at hx
    rw [exec_bind] at hx
    rcases hc : (changes m s.root core).exec w with ⟨result, w₁⟩
    rw [hc] at hx hchanges
    cases hchanges
    cases hx
    refine ⟨?_, by simp, by simp⟩
    rintro f ⟨⟩
    exact .inr (.inr (.inr ⟨reason, rfl⟩))
  · obtain ⟨hfails, hunchanged, hupdated⟩ := proceed_of_changes hs h hsorted.disjoint hchanges hx
    refine ⟨fun f hf => ?_, fun hr => (hunchanged hr).2, fun ids changed hr => ?_⟩
    · rcases hfails f hf with hstorage | ⟨file, -, hfinding⟩
      · exact .inl hstorage
      · exact .inr (.inl (Maker.finding?_error hfinding))
    · exact ⟨touched, c, htouched, hchanges, hsorted, hupdated ids changed hr⟩

theorem exec_run {root : String} (h : Holding (w.store root) w.disk core a)
    (hroot : (Maker.resolveRoot root).exec w = (.ok (w.store root).root, w)) :
    (run m root).exec w = (proceed m (w.store root).root core).exec w := by
  have hs := w.isAbsolute_store root
  unfold run
  rw [exec_bind_of_ok hroot, exec_bind_of_ok (h.exec_readCore hs), h.exec_check hs]

/-- An update of an index that an analysis makes fails only for reasons outside the index, changes nothing, or
    renews the index. -/
theorem run_spec {root : String} (h : Holding (w.store root) w.disk core a) {r : Except Failure UpdateOutcome}
    (hx : (run m root).exec w = (r, w')) :
    (∀ f, r = .error f → Harmless f) ∧ (r = .ok .unchanged → w.Alike w') ∧
      ∀ ids changed, r = .ok (.updated ids changed) → ∃ touched c,
        ((History.touchedSince (Listing.timeout m.settings) core.madeAt).exec w).1 = .ok touched ∧
        ((changes m (w.store root).root core).exec w).1 = .ok c ∧ Sorted m (w.store root).root core w touched c ∧
        ∃ importers fresh, Renewed (w.store root) m core a c w w' importers fresh := by
  rcases hroot : (Maker.resolveRoot root).exec w with ⟨f | resolved, w₁⟩
  · unfold run at hx
    rw [exec_bind, hroot] at hx
    cases hx
    refine ⟨?_, by simp, by simp⟩
    rintro f ⟨⟩
    exact .inr (.inr (.inl (resolveRoot_error hroot)))
  · obtain ⟨rfl, -, rfl⟩ := Maker.resolveRoot_ok hroot
    rw [exec_run h hroot] at hx
    exact proceed_spec (w₁.isAbsolute_store root) h hx

/-- What an update is to keep of an index: files come and go as they changed, and nothing else is done. -/
structure Preserves (s : Store) (core core' : CoreIndex) (c : ChangeSet) (d d' : Disk) : Prop where
  files : ∀ file, file ∈ core'.allFiles ↔ file ∈ core.allFiles ∧ file ∉ c.removed.keys ∨ file ∈ c.modified.keys
  once : core'.allFiles.Nodup ∧ ∀ file ∈ core'.allFiles, ∃! id, (modulesOf core').Holds id file
  inverse : ∀ file id, core'.moduleOfFile.get? file = some id ↔ (modulesOf core').Holds id file
  stays : ∀ id file, (modulesOf core).Holds id file → file ∉ c.removed.keys → (modulesOf core').Holds id file
  inhabited : ∀ id entry, core'.modules.get? id = some entry → entry.files ≠ []
  gone : ∀ id ∈ core.modules.keys, id ∉ core'.modules.keys →
    d'.read (s.shardPlace id) = .error .absent ∧ core'.hashes.get? id = none
  /-- A module that holds no touched file and lost none keeps its shard and the digest that is recorded of it. -/
  kept : ∀ id entry, core'.modules.get? id = some entry → (∀ file ∈ entry.files, file ∉ c.modified.keys) →
    (∀ file, (modulesOf core).Holds id file → file ∉ c.removed.keys) →
    d'.read (s.shardPlace id) = d.read (s.shardPlace id) ∧ (∃ bytes, d'.read (s.shardPlace id) = .ok bytes) ∧
      core'.hashes.get? id = core.hashes.get? id ∧ ∃ hash, core'.hashes.get? id = some hash

theorem mem_allFiles {core : CoreIndex} {file : String} : file ∈ core.allFiles ↔ ∃ id, (modulesOf core).Holds id file := by
  rw [CoreIndex.allFiles, List.mem_mergeSort, List.mem_flatMap]
  constructor
  · rintro ⟨entry, hentry, hfile⟩
    obtain ⟨id, hget⟩ := Dict.mem_values.1 hentry
    exact ⟨id, entry.files, get?_modulesOf.2 ⟨entry, hget, rfl⟩, hfile⟩
  · rintro ⟨id, group, hget, hfile⟩
    obtain ⟨entry, hentry, rfl⟩ := get?_modulesOf.1 hget
    exact ⟨entry, Dict.mem_values.2 ⟨id, hentry⟩, hfile⟩

theorem nodup_allFiles (h : core.Consistent) : core.allFiles.Nodup :=
  (List.mergeSort_perm _ _).nodup_iff.2 h.nodup

theorem modulesOf_renewedCore (m : Maker) (s : Store) (core : CoreIndex) (a : Analysis) (modules : ModuleMap) (now : String) :
    modulesOf (renewedCore m s core a modules now) = modules :=
  Analysis.modulesOf_core _ _ _ _ _ _ _ _

section Renewed

variable {importers : List String} {fresh : Analysis} {id : String}

/-- A module that became empty has neither shard nor digest. -/
theorem Renewed.gone_of_emptied (hr : Renewed s m core a c w w' importers fresh) (hid : id ∈ core.modules.keys)
    (hempty : id ∉ (after core c importers).modules.keys) :
    w'.disk.read (s.shardPlace id) = .error .absent ∧
      ((renewed core a fresh c).hashes (after core c importers).modules).get? id = none := by
  have haffected : id ∈ (after core c importers).affected.keys := by
    by_contra hnot
    have hsame := hr.regrouped.unaffected hnot
    obtain ⟨files, hold⟩ := Dict.mem_keys.1 (mem_keys_modulesOf.2 hid)
    exact hempty (Dict.mem_keys.2 ⟨files, hsame.trans hold⟩)
  refine ⟨hr.gone id haffected hempty, ?_⟩
  rw [Analysis.get?_hashes, Analysis.bytesOf?, Dict.get?_eq_none.2 hempty, Option.map_none, Option.map_none]

/-- A module without touched and without removed files has the shard and the digest that it had. -/
theorem Renewed.kept_of_untouched (h : Holding s w.disk core a) (hr : Renewed s m core a c w w' importers fresh)
    {files : List String} (hnew : (after core c importers).modules.get? id = some files)
    (hmodified : ∀ file ∈ files, file ∉ c.modified.keys)
    (hremoved : ∀ file, (modulesOf core).Holds id file → file ∉ c.removed.keys) :
    w'.disk.read (s.shardPlace id) = w.disk.read (s.shardPlace id) ∧ (∃ bytes, w'.disk.read (s.shardPlace id) = .ok bytes) ∧
      ((renewed core a fresh c).hashes (after core c importers).modules).get? id = core.hashes.get? id ∧
      ∃ hash, ((renewed core a fresh c).hashes (after core c importers).modules).get? id = some hash := by
  have hanalysed := hr.analysed
  have hsame : (after core c importers).modules.get? id = (modulesOf core).get? id := by
    refine hr.regrouped.same (fun file hfile hholds => hremoved file hholds hfile) fun file hfile _ hholds => ?_
    obtain ⟨group, hgroup, hin⟩ := hholds
    rw [hnew] at hgroup
    cases hgroup
    exact hmodified file hin hfile
  have hold := hsame.symm.trans hnew
  have hbytes := bytesOf?_renewed h.critical hanalysed.outside hsame fun path hpath => by
    obtain ⟨group, hgroup, hin⟩ := hpath
    refine ⟨hremoved path ⟨group, hgroup, hin⟩, ?_⟩
    rw [hold] at hgroup
    cases hgroup
    exact hmodified path hin
  have hread := h.shards id (Dict.mem_keys.2 ⟨files, hold⟩)
  have hread' := hr.holding.shards id (Dict.mem_keys.2 ⟨files, by rw [modulesOf_renewedCore]; exact hnew⟩)
  rw [modulesOf_renewedCore, hbytes] at hread'
  have hhash : ((renewed core a fresh c).hashes (after core c importers).modules).get? id = core.hashes.get? id := by
    rw [h.hashes, Analysis.get?_hashes, Analysis.get?_hashes, hbytes]
  refine ⟨hread.read_eq hread', ?_, hhash, ?_⟩
  · rw [Analysis.bytesOf?, hold] at hread'
    exact ⟨_, hread'⟩
  · rw [Analysis.get?_hashes, Analysis.bytesOf?, hnew]
    exact ⟨_, rfl⟩

theorem Renewed.preserves (h : Holding s w.disk core a) (hr : Renewed s m core a c w w' importers fresh) :
    Preserves s core (renewedCore m s core (renewed core a fresh c) (after core c importers).modules w.now) c
      w.disk w'.disk := by
  have hmodules := modulesOf_renewedCore m s core (renewed core a fresh c) (after core c importers).modules w.now
  have hdivides := hr.regrouped.divides_files
  have hget : ∀ {id entry}, (renewedCore m s core (renewed core a fresh c) (after core c importers).modules w.now).modules.get?
      id = some entry → (after core c importers).modules.get? id = some entry.files := by
    intro id entry hentry
    rw [← hmodules]
    exact get?_modulesOf.2 ⟨entry, hentry, rfl⟩
  refine ⟨fun file => ?_, ⟨nodup_allFiles hr.holding.consistent, fun file hfile => ?_⟩, fun file id => ?_,
    fun id file hfile hnot => ?_, fun id entry hentry => hdivides.inhabited (hget hentry), fun id hid hnone => ?_,
    fun id entry hentry hmodified hremoved => hr.kept_of_untouched h (hget hentry) hmodified hremoved⟩
  · have hmem := @hdivides.mem_iff file
    rw [mem_allFiles, hmodules, ← hmem, List.mem_append, List.mem_filter, mem_allFiles, ModuleMap.mem_files]
    simp
  · obtain ⟨id, hid⟩ := mem_allFiles.1 hfile
    refine ⟨id, hid, fun other hother => ?_⟩
    rw [hmodules] at hid hother
    exact hdivides.unique hother hid
  · rw [hmodules]
    exact ModuleMap.get?_moduleOfFile hdivides.nodup
  · rw [hmodules]
    exact hr.regrouped.stays hfile hnot
  · refine hr.gone_of_emptied hid fun hmem => hnone ?_
    rw [← mem_keys_modulesOf, hmodules]
    exact hmem

end Renewed

/-- The index on the disk was made by some sequence of builds, migrations and updates, and nothing else touched its
    documents. -/
inductive Made (s : Store) : Workspace → Prop
  | built {m : Maker} {root : String} {w w' : Workspace} {r : CoreIndex × Nat} (hroot : w.store root = s)
      (hshards : m.settings.skipDetails = false) (h : (m.build root).exec w = (.ok r, w')) : Made s w'
  | migrated {m : Maker} {root : String} {w w' : Workspace} {core : CoreIndex} (hroot : w.store root = s)
      (h : (Migration.run m root).exec w = (.ok (.migrated core), w')) : Made s w'
  | updated {m : Maker} {root : String} {w w' : Workspace} {o : UpdateOutcome} (hw : Made s w) (hroot : w.store root = s)
      (h : (run m root).exec w = (.ok o, w')) : Made s w'
  | later {w w' : Workspace} (hw : Made s w) (hcore : w'.disk.read s.corePlace = w.disk.read s.corePlace)
      (hshards : ∀ core, s.coreOn? w.disk = some core → ∀ id ∈ core.modules.keys,
        w'.disk.read (s.shardPlace id) = w.disk.read (s.shardPlace id)) : Made s w'

theorem holding_of_made (h : Made s w) : ∃ core a, Holding s w.disk core a := by
  induction h with
  | @built m root w w' r hroot hshards h =>
    subst hroot
    obtain ⟨files, source, commits, found, w₁, w₂, -, -, hholding, -⟩ := Maker.build_ok hshards h
    exact ⟨_, _, hholding⟩
  | @migrated m root w w' core hroot h =>
    subst hroot
    obtain ⟨a, hholding⟩ := Migration.run_migrated h
    exact ⟨_, a, hholding⟩
  | @updated m root w w' o hw hroot h ih =>
    subst hroot
    obtain ⟨core, a, hholding⟩ := ih
    obtain ⟨-, hunchanged, hupdated⟩ := run_spec hholding h
    cases o with
    | unchanged =>
      have halike := hunchanged rfl
      rw [← halike.disk_eq] at hholding
      exact ⟨core, a, hholding⟩
    | updated ids changed =>
      obtain ⟨touched, c, -, -, -, importers, fresh, hrenewed⟩ := hupdated ids changed rfl
      exact ⟨_, _, hrenewed.holding⟩
  | @later w w' hw hcore hshards ih =>
    obtain ⟨core, a, hholding⟩ := ih
    refine ⟨core, a, hholding.toSharded.congr fun id hid => ?_, hcore.trans hholding.read, hholding.version⟩
    exact hshards core hholding.coreOn? id (mem_keys_modulesOf.1 hid)

/-- In an index that the program made no two modules have one place for their shards. -/
theorem apart_of_holding (h : Holding s w.disk core a) : Apart s core := by
  have hvalid : ∀ id, Known core id → ModuleId.isValid id = true := by
    rintro id (hcore | hvalid)
    · exact h.isValid (mem_keys_modulesOf.2 (Dict.contains_iff_mem.1 hcore))
    · exact hvalid
  exact fun id id' hid hid' => shardPlace_inj (hvalid id hid) (hvalid id' hid')

/-- An update of an index that the program made never finds it inconsistent, be it before it starts or before it
    commits, and what it commits preserves the division of the files into modules. -/
theorem update_preserves_division {s : Store} {w : Workspace} (h : Made s w) (m : Maker) (root : String)
    (hroot : w.store root = s) :
    (∀ f w', (run m root).exec w = (.error f, w') → ∀ problems, f.cause ≠ .fault (.inconsistent problems)) ∧
    ∀ ids changed w', (run m root).exec w = (.ok (.updated ids changed), w') →
      ∃ core core' touched c, s.coreOn? w.disk = some core ∧ s.coreOn? w'.disk = some core' ∧
        ((History.touchedSince (Listing.timeout m.settings) core.madeAt).exec w).1 = .ok touched ∧
        ((changes m s.root core).exec w).1 = .ok c ∧ Sorted m s.root core w touched c ∧
        Preserves s core core' c w.disk w'.disk := by
  subst hroot
  obtain ⟨core, a, hholding⟩ := holding_of_made h
  refine ⟨fun f w' hx => ?_, fun ids changed w' hx => ?_⟩
  · exact ((run_spec hholding hx).1 f rfl).not_inconsistent
  · obtain ⟨touched, c, htouched, hchanges, hsorted, importers, fresh, hrenewed⟩ :=
      (run_spec hholding hx).2.2 ids changed rfl
    exact ⟨core, _, touched, c, hholding.coreOn?, hrenewed.holding.coreOn?, htouched, hchanges, hsorted,
      hrenewed.preserves hholding⟩

/-- A project with one file, which version control does not list yet.  In the blocked one a directory stands where the
    file's shard is to be prepared. -/
def unlisted (blocked : Bool) : Workspace where
  disk := { entries := [(["demo"], .directory), (["demo", "x"], .directory),
      (["demo", "x", "new.md"], .file "# New".toUTF8 1)] ++
      if blocked then [(["demo", "PROJECT_INDEX.d"], .directory), (["demo", "PROJECT_INDEX.d", "x.json.tmp"], .directory)]
      else [], clock := 2, changes := 0, refusals := [] }
  here := ["demo"]
  history := fun q => .output (if q = .isWorkTree then "true" else "").toUTF8
  asked := []
  now := "2026-01-01T00:00:00Z"
  unrestored := []

/-- The project after a build, once version control reports the file as new. -/
def listed (blocked : Bool) : Workspace :=
  { (((Maker.ofSettings .default).build ".").exec (unlisted blocked)).2 with
    history := fun q => .output (if q = .isWorkTree then "true" else if q = .newFiles then "x/new.md" else "").toUTF8 }

theorem store_listed (blocked : Bool) : (listed blocked).store "." = ⟨"/demo"⟩ := by
  cases blocked <;> decide +kernel

theorem holding_listed (blocked : Bool) : ∃ core n a,
    (((Maker.ofSettings .default).build ".").exec (unlisted blocked)).1 = .ok (core, n) ∧
      Made ⟨"/demo"⟩ (listed blocked) ∧ Holding ((listed blocked).store ".") (listed blocked).disk core a := by
  rcases hbuild : ((Maker.ofSettings .default).build ".").exec (unlisted blocked) with ⟨f | ⟨core, n⟩, w⟩
  · have hok : (((Maker.ofSettings .default).build ".").exec (unlisted blocked)).1.isOk = true := by
      cases blocked <;> decide +kernel
    rw [hbuild] at hok
    cases hok
  · have hroot : (unlisted blocked).store "." = ⟨"/demo"⟩ := by
      cases blocked <;> decide +kernel
    have hmade : Made ⟨"/demo"⟩ w := .built hroot (by decide) hbuild
    obtain ⟨files, source, commits, found, w₁, w₂, -, -, hholding, -⟩ := Maker.build_ok (by decide) hbuild
    have hdisk : (listed blocked).disk = w.disk := by rw [listed, hbuild]
    rw [hroot, ← hdisk] at hholding
    rw [store_listed]
    refine ⟨core, n, _, rfl, hmade.later (by rw [hdisk]) ?_, hholding⟩
    rw [hdisk]
    exact fun _ _ _ _ => rfl

/-- The update of the project is what follows once its index was read and checked. -/
theorem exec_run_listed {blocked : Bool} {core : CoreIndex} {a : Analysis}
    (h : Holding ((listed blocked).store ".") (listed blocked).disk core a) :
    (run (Maker.ofSettings .default) ".").exec (listed blocked) =
      (proceed (Maker.ofSettings .default) "/demo" core).exec (listed blocked) := by
  have hresolves : ((Maker.resolveRoot ".").exec (listed blocked)).1.isOk = true := by
    cases blocked <;> decide +kernel
  rcases hresolved : (Maker.resolveRoot ".").exec (listed blocked) with ⟨f | resolved, w⟩
  · rw [hresolved] at hresolves
    cases hresolves
  · obtain ⟨rfl, -, rfl⟩ := Maker.resolveRoot_ok hresolved
    rw [exec_run h hresolved, store_listed]

theorem update_preserves_division_listed :
    ∃ w', (run (Maker.ofSettings .default) ".").exec (listed false) = (.ok (.updated ["x"] ["x/new.md"]), w') ∧
      ∃ core core' touched c, Store.coreOn? ⟨"/demo"⟩ (listed false).disk = some core ∧
        Store.coreOn? ⟨"/demo"⟩ w'.disk = some core' ∧
        ((History.touchedSince (Listing.timeout Settings.default) core.madeAt).exec (listed false)).1 = .ok touched ∧
        ((changes (Maker.ofSettings .default) "/demo" core).exec (listed false)).1 = .ok c ∧
        Sorted (Maker.ofSettings .default) "/demo" core (listed false) touched c ∧
        Preserves ⟨"/demo"⟩ core core' c (listed false).disk w'.disk := by
  obtain ⟨core, n, a, hbuild, hmade, hholding⟩ := holding_listed false
  have hproceed : (match (((Maker.ofSettings .default).build ".").exec (unlisted false)).1 with
      | .ok r => ((proceed (Maker.ofSettings .default) "/demo" r.1).exec (listed false)).1
      | .error f => .error f) = .ok (.updated ["x"] ["x/new.md"]) := by decide +kernel
  have hrun := exec_run_listed hholding
  rw [hbuild] at hproceed
  rw [hrun]
  rcases hexec : (proceed (Maker.ofSettings .default) "/demo" core).exec (listed false) with ⟨r, w'⟩
  dsimp only at hproceed
  rw [hexec] at hproceed hrun
  obtain rfl : r = .ok (.updated ["x"] ["x/new.md"]) := hproceed
  exact ⟨w', rfl, (update_preserves_division hmade (Maker.ofSettings .default) "." (store_listed false)).2 _ _ _ hrun⟩

end Update

end CodeIndex
