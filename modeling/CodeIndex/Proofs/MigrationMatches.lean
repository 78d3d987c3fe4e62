import CodeIndex.Proofs.Migrating
import CodeIndex.Proofs.Rebuilt

set_option autoImplicit false

/-!
# Migrations come to what builds come to

A build of one document, and a migration of that document, leave the index with shards that a build of the same project
leaves, but for the time.
-/

namespace CodeIndex

open Action Store Update

variable {s : Store} {m : Maker} {w w' v : Workspace} {root : String}

/-! ## What a survey knows -/

namespace Surveyed

variable {files : List String} {source : FileSource} {commits : Dict Commit} {found : List Maker.Finding}
  (h : Surveyed m s w files source commits found)

include h

theorem analysed : m.Analysed (OutlineCache.loaded w.disk s.root s.cachePlace) w s.root commits files
    (Maker.recordAll commits Analysis.empty found) := Maker.analysed_of_findings h.findings

theorem isSome_details {path : String} :
    ((Maker.recordAll commits Analysis.empty found).details.get? path).isSome = true ↔ path ∈ files := by
  have hanalysed := h.analysed
  constructor
  · intro hsome
    by_contra hnot
    rw [(hanalysed.outside path hnot).1] at hsome
    cases hsome
  · intro hpath
    obtain ⟨language, hlanguage⟩ := Listing.language_of_indexable ((Listing.files_ok h.listed).1 path hpath)
    obtain ⟨e, -, hentry, -⟩ := hanalysed.inside path hpath language hlanguage
    rw [hentry]
    rfl

/-- The files of the analysis are those that were listed, in their order. -/
theorem files_eq : (Maker.recordAll commits Analysis.empty found).files = files := by
  refine Text.eq_of_mem_iff (Dict.pairwise_keys _) (Listing.files_ok h.listed).2 fun path => ?_
  rw [← h.isSome_details]
  exact Dict.contains_iff_mem.symm

/-- There is no documentation but of files. -/
theorem contains_of_docs {path : String} (hdocs : ((Maker.recordAll commits Analysis.empty found).docs.get? path).isSome = true) :
    (Maker.recordAll commits Analysis.empty found).details.contains path = true := by
  refine h.isSome_details.2 ?_
  by_contra hnot
  have hanalysed := h.analysed
  rw [(hanalysed.outside path hnot).2] at hdocs
  cases hdocs

end Surveyed

/-! ## Migrations of documents that the program wrote -/

theorem Store.exec_isSplit_of_single (hs : Path.isAbsolute s.root = true) {single : SingleIndex}
    (hread : w.disk.read s.corePlace = .ok (encode single)) (hversion : single.version ≠ CoreIndex.splitVersion) :
    s.isSplit.exec w = (.ok false, w) := by
  have hvalue : ∀ j, Json.value? single.toJson.render = some j → j = single.toJson.canonical := by
    intro j hj
    rw [Json.value?, Json.read?_render (SingleIndex.readsBack.counting single), Option.bind_eq_bind, Option.bind_some] at hj
    split at hj
    · exact (Option.some.inj hj).symm
    · cases hj
  have hget : (single.toJson.canonical.get? "version").bind Json.asString? = some single.version := by
    rw [SingleIndex.toJson, Json.get?_canonical]
    simp only [Json.lookup_cons, Json.lookup_nil, String.reduceEq, reduceIte, Option.none_or, Option.map_some,
      Json.canonical_string]
    rfl
  have hfound : s.version?.exec w = (.ok ((Json.value? single.toJson.render).bind fun j =>
      (j.get? "version").bind Json.asString?), w) := by
    unfold version?
    rw [exec_bind_of_ok (exec_contents _ _), resolve_corePath hs, hread]
    dsimp only
    rw [encode, fromUTF8?_toUTF8, Option.bind_some]
    rfl
  unfold isSplit
  rw [exec_bind_of_ok hfound]
  cases hj : Json.value? single.toJson.render with
  | none => rfl
  | some j =>
    rw [hvalue j hj, Option.bind_some, hget]
    have hne : (some single.version == some CoreIndex.splitVersion) = false := by simpa using hversion
    rw [hne]
    rfl

/-- A build of one document leaves it with all that was surveyed, and no shards. -/
theorem Maker.document_of_buildSingle (hw : w.Leads root s) (hopen : w.disk.IsOpen s.place) {index : SingleIndex} {n : Nat}
    (h : (m.buildSingle root).exec w = (.ok (index, n), w')) :
    w'.disk.read s.corePlace = .ok (encode index) ∧ s.OnlyShards w'.disk [] ∧ index.version ≠ CoreIndex.splitVersion ∧
      w'.here = w.here ∧ ∃ files source commits found, Surveyed m s w files source commits found ∧
        (Analysis.ofSingle index).Same (recordAll commits Analysis.empty found) ∧
        (Analysis.ofSingle index).files = files ∧ index.stats.fileSource = source ∧
        n = (recordAll commits Analysis.empty found).skipped := by
  have hs := hw.isAbsolute
  have hstore := hw.store_eq
  subst hstore
  have hkept := kept_of_buildSingle hopen h
  obtain ⟨files, source, commits, found, w₁, w₂, hsurveyed, rfl, rfl, hread, honly, halike, hproduced, hsave⟩ :=
    buildSingle_ok hopen h
  have hpath := path_rememberAll (OutlineCache.loaded w.disk (w.store root).root (w.store root).cachePlace) found
  have hopen₂ : w₂.disk.IsOpen (w.store root).place := hproduced.isOpen (halike.disk_eq ▸ hopen)
  have hsame := Analysis.ofSingle_single (fun path => hsurveyed.contains_of_docs) (Path.displayName (w.store root).root) w.now
    files source (Layout.detect? files) m.settings
  refine ⟨?_, honly.of_saveQuietly hs hpath hsave, (by decide : SingleIndex.currentVersion ≠ CoreIndex.splitVersion),
    hkept.here_eq, files, source, commits, found, hsurveyed, hsame, ?_, rfl, rfl⟩
  · rw [Disk.read_congr (access_of_saveQuietly hs hpath hopen₂ hsave .core)]
    exact hread
  · rw [Analysis.files, hsame.details]
    exact hsurveyed.files_eq

namespace Migration

variable {single : SingleIndex} {core : CoreIndex}

/-- A document that the program wrote is read back, kept as a backup, and converted. -/
theorem exec_run (hw : w.Leads root s) (hread : w.disk.read s.corePlace = .ok (encode single))
    (hversion : single.version ≠ CoreIndex.splitVersion) :
    (run m root).exec w = (do
      during "Failed to write migration backup" (Store.replaceFile s.backupPath (encode single))
      return .migrated (← convert m s single (encode single)) : Action MigrationOutcome).exec w := by
  obtain ⟨time, haccess⟩ := Disk.access_of_read hread
  have hdecode : (Store.decode coreFile (encode single) : Action SingleIndex).exec w = (.ok single, w) := by
    rw [decode, decode?_encode SingleIndex.readsBack]
    rfl
  unfold run
  rw [exec_bind_of_ok (hw.exec_resolveRoot (Disk.isOpen_of_access_concat haccess)), exec_bind_of_ok (exec_contents _ _),
    resolve_corePath hw.isAbsolute, hread]
  dsimp only
  rw [exec_bind_of_ok (exec_isSplit_of_single hw.isAbsolute hread hversion)]
  simp only [Bool.false_eq_true, if_false]
  rw [exec_bind_of_ok hdecode]

/-- A migration succeeds where all can be written. -/
theorem run_of_writes (hw : w.Leads root s) (hread : w.disk.read s.corePlace = .ok (encode single))
    (hversion : single.version ≠ CoreIndex.splitVersion) {hashes : Dict String} {w₁ w₂ w₃ : Workspace}
    (hbackup : (replaceFile s.backupPath (encode single)).exec w = (.ok (), w₁))
    (hshards : (writeShards s (.ofSingle single) (m.division (Analysis.ofSingle single).files).toList {}).exec w₁ =
      (.ok (hashes, none), w₂))
    (hwrite : (s.writeCore (converted m s single)).exec w₂ = (.ok (), w₃)) :
    (run m root).exec w = (.ok (.migrated (converted m s single)), w₃) := by
  have hkept : (during "Failed to write migration backup" (replaceFile s.backupPath (encode single))).exec w = (.ok (), w₁) := by
    rw [exec_during, hbackup]
  rw [exec_run hw hread hversion, exec_bind_of_ok hkept,
    exec_bind_of_ok ((convert_ok hw.isAbsolute).2 ⟨rfl, hashes, w₂, hshards, hwrite⟩)]
  rfl

/-- Where there are no shards yet, a migration leaves those of the document's analysis and no others. -/
theorem wrote_of_run (hskip : m.settings.skipDetails = false) (hw : w.Leads root s)
    (hread : w.disk.read s.corePlace = .ok (encode single)) (hversion : single.version ≠ CoreIndex.splitVersion)
    (honly : s.OnlyShards w.disk []) (h : (run m root).exec w = (.ok (.migrated core), w')) :
    core = converted m s single ∧ Wrote m s (.ofSingle single) (Analysis.ofSingle single).files core w'.disk := by
  have hs := hw.isAbsolute
  have hsharded : m.sharded (Analysis.ofSingle single).files = (m.division (Analysis.ofSingle single).files).keys := by
    rw [Maker.sharded, hskip]
    rfl
  rw [exec_run hw hread hversion, exec_bind, exec_during] at h
  rcases hbackup : (replaceFile s.backupPath (encode single)).exec w with ⟨f | u, w₁⟩
  · rw [hbackup] at h
    cases h
  rw [hbackup] at h
  dsimp only at h
  rw [exec_bind] at h
  rcases hconvert : (convert m s single (encode single)).exec w₁ with ⟨f | core', w₂⟩
  · rw [hconvert] at h
    cases h
  rw [hconvert] at h
  cases h
  have hholding := holding_of_convert hs hconvert
  obtain ⟨rfl, hashes, w₂, hshards, hwrite⟩ := (convert_ok hs).1 hconvert
  obtain ⟨hredone, -, -⟩ := writeShards_converted hs hshards
  have hbeside : Beside w.here s.backupPath s.place backupFile :=
    beside_of_isName hs w.here ⟨by decide, by decide, by decide, by decide⟩ ⟨by decide, by decide, by decide, by decide⟩
  have honly₁ := honly.of_beside (by decide) (replaceFile_ok hbeside hbackup).2.2
  have honly₂ := (honly₁.mono (List.nil_subset _)).of_shardFiles (isValid_keys (m.divides_division _).toProper)
    hredone.changed fun file => Disk.not_concat_le _ _
  refine ⟨rfl, hholding.read, fun id hid => ?_, ?_⟩
  · rw [hsharded] at hid
    have hshards := hholding.shards
    rw [converted, builtCore, Analysis.modulesOf_core] at hshards
    exact hshards id hid
  · rw [hsharded]
    exact honly₂.of_writeCore (writeCore_ok hs hwrite).2

/-- A build of one document and a migration of it leave what a build of the same project leaves: the same shards, and the
    same core index but for the time, which is that of the document.  The build can only fail because of the disk. -/
theorem migration_matches_build {w₁ w₂ w₃ : Workspace} {index : SingleIndex} {n : Nat}
    (hskip : m.settings.skipDetails = false) (hw : w.Leads root s)
    (hsingle : (m.buildSingle root).exec w = (.ok (index, n), w₁)) (hdisk : w₂.disk = w₁.disk) (hhere : w₂.here = w₁.here)
    (hmigrate : (run m root).exec w₂ = (.ok (.migrated core), w₃)) (hv : v.Leads root s) (hproject : SameProject s w v)
    (hcaches : CachesAgree s w v) :
    core.madeAt = index.madeAt ∧
      ((∃ v', (m.build root).exec v = (.ok ({ core with madeAt := v.now }, n), v') ∧
        s.SameIndex w₃.disk v'.disk core { core with madeAt := v.now } ∧ s.SameShards w₃.disk v'.disk) ∨
      ∃ f v', (m.build root).exec v = (.error f, v') ∧ f.IsStorage) := by
  have hs := hw.isAbsolute
  obtain ⟨hread, honly, hversion, hstays, files, source, commits, found, hsurveyed, hsame, hfiles, hsource, rfl⟩ :=
    Maker.document_of_buildSingle hw hproject.isOpen hsingle
  rw [← hdisk] at hread honly
  obtain ⟨rfl, hwrote⟩ := wrote_of_run hskip (hw.congr (hhere.trans hstays)) hread hversion honly hmigrate
  have hconverted : converted m s index = builtCore m s (.ofSingle index) files source index.madeAt := by
    rw [converted, hfiles, hsource]
  rw [hfiles, hconverted] at hwrote
  refine ⟨rfl, ?_⟩
  obtain ⟨found', hsurveyed', hagain⟩ := hproject.surveyed hs hcaches hsurveyed
  have hbuilds := Maker.build_of_surveyed hv hproject.isOpen' hsurveyed'
  rw [hagain, Maker.builtCore_recorded hskip] at hbuilds
  have hcore : { converted m s index with madeAt := v.now } =
      builtCore m s (Maker.recordAll commits Analysis.empty found) files source v.now := by
    rw [hconverted, builtCore_of_same hsame]
    rfl
  rw [hcore]
  refine hbuilds.imp_left fun ⟨v', hbuild, hwrote'⟩ => ⟨v', hbuild, ?_, hwrote.sameShards hwrote' hsame⟩
  rw [hconverted]
  refine .of_holding (hwrote.holding hskip) (hwrote'.holding hskip) hsame ?_
  rw [builtCore_of_same hsame]
  rfl

/-! ### A project with one document -/

def documented : Workspace where
  disk := ⟨[(["demo"], .directory), (["demo", "README.md"], .file "# Demo".toUTF8 1)], 2, 0, []⟩
  here := ["demo"]
  history := fun q => .output (if q = .isWorkTree then "true" else if q = .files then "README.md" else "").toUTF8
  asked := []
  now := "2026-01-01T00:00:00Z"
  unrestored := []

theorem sound_documented : documented.disk.Sound := by
  intro e he
  simp only [documented, List.mem_cons, List.not_mem_nil, or_false] at he
  rcases he with rfl | rfl <;> rfl

theorem migration_matches_build_documented : ∃ w₁ w₂ v index core n,
    ((Maker.ofSettings .default).buildSingle ".").exec documented = (.ok (index, n), w₁) ∧
    (run (Maker.ofSettings .default) ".").exec w₁ = (.ok (.migrated core), w₂) ∧ core.madeAt = index.madeAt ∧
    ((Maker.ofSettings .default).build ".").exec documented = (.ok ({ core with madeAt := documented.now }, n), v) ∧
    SameIndex ⟨"/demo"⟩ w₂.disk v.disk core { core with madeAt := documented.now } ∧
    SameShards ⟨"/demo"⟩ w₂.disk v.disk := by
  have hdemo : place ⟨"/demo"⟩ = ["demo"] := by decide +kernel
  have hleads : documented.Leads "." ⟨"/demo"⟩ := ⟨by decide +kernel, by decide +kernel⟩
  have hopen : documented.disk.IsOpen (place ⟨"/demo"⟩) := by
    rw [hdemo]
    rfl
  have hbuilds : (((Maker.ofSettings .default).build ".").exec documented).1.isOk = true := by decide +kernel
  have hwrites : endsOk (fun single w₁ => endsOk (fun _ w₂ => endsOk (fun shards w₃ => shards.2.isNone &&
      ((writeCore ⟨"/demo"⟩ (converted (Maker.ofSettings .default) ⟨"/demo"⟩ single.1)).exec w₃).1.isOk)
        ((writeShards ⟨"/demo"⟩ (.ofSingle single.1)
          ((Maker.ofSettings .default).division (Analysis.ofSingle single.1).files).toList {}).exec w₂))
        ((replaceFile (backupPath ⟨"/demo"⟩) (encode single.1)).exec w₁))
      (((Maker.ofSettings .default).buildSingle ".").exec documented) = true := by decide +kernel
  obtain ⟨⟨index, n⟩, w₁, hsingle, hwrites⟩ := endsOk_iff.1 hwrites
  obtain ⟨u, w₂, hbackup, hwrites⟩ := endsOk_iff.1 hwrites
  obtain ⟨⟨hashes, problem⟩, w₃, hshards, hwrites⟩ := endsOk_iff.1 hwrites
  obtain ⟨hnone, hwritten⟩ := Bool.and_eq_true_iff.1 hwrites
  obtain rfl := Option.isNone_iff_eq_none.1 hnone
  obtain ⟨hread, -, hversion, hstays, -⟩ := Maker.document_of_buildSingle hleads hopen hsingle
  rcases hwrite : (writeCore ⟨"/demo"⟩ (converted (Maker.ofSettings .default) ⟨"/demo"⟩ index)).exec w₃ with ⟨f | u, w₄⟩
  · rw [hwrite] at hwritten
    cases hwritten
  have hmigrate := run_of_writes (hleads.congr hstays) hread hversion hbackup hshards hwrite
  obtain ⟨hmade, ⟨v, hbuild, hindex, hshards⟩ | ⟨f, v, hbuild, -⟩⟩ := migration_matches_build rfl hleads hsingle rfl rfl
    hmigrate hleads ⟨.refl _ _, sound_documented, sound_documented, hopen, rfl⟩ (.inl rfl)
  · exact ⟨w₁, w₄, v, index, _, n, hsingle, hmigrate, hmade, hbuild, hindex, hshards⟩
  · rw [hbuild] at hbuilds
    cases hbuilds

end Migration

end CodeIndex
