import CodeIndex.Answers
import CodeIndex.Proofs.Loading
import CodeIndex.Proofs.ShardText
import CodeIndex.Proofs.Tracked

set_option autoImplicit false

/-!
# Answers about an index

Who asks about a project that has an index is told what was analysed: of a file what the analysis behind the index knows of
it, be it in the core index or in a shard, and of a module its shard.  Other files are not found.
-/

namespace CodeIndex

open Action Update.Membership

/-! ## Places -/

namespace Workspace.Leads

variable {s : Store} {w : Workspace} {root : String}

theorem resolve_corePath (h : w.Leads root s) : w.here.resolve (Store.corePath ⟨root⟩) = s.corePlace := by
  rw [Store.corePath, Location.resolve_join_any w.here (by decide), h.resolve_eq,
    Location.resolve_of_isName Store.isName_coreFile]
  rfl

theorem resolve_shardPath (h : w.Leads root s) {id : String} (hid : Path.isAbsolute (id ++ ".json") = false) :
    w.here.resolve (Store.shardPath ⟨root⟩ id) = s.shardPlace id := by
  rw [Store.shardPath, Location.resolve_join_any w.here hid, Store.shardDirectory,
    Location.resolve_join_any w.here (by decide), h.resolve_eq, Location.resolve_of_isName Store.isName_shards]
  rfl

end Workspace.Leads

theorem ModuleId.isAbsolute_json {id : String} (h : isValid id = true) : Path.isAbsolute (id ++ ".json") = false := by
  rw [Path.isAbsolute_append id (by decide), Path.isAbsolute, Text.startsWith, Bool.eq_false_iff]
  intro hprefix
  obtain ⟨rest, hrest⟩ := List.isPrefixOf_iff_prefix.1 hprefix
  exact slash_notMem h (hrest ▸ List.mem_append_left rest (by decide))

/-! ## Loaders -/

section Loader

variable {s : Store} {w : Workspace} {root : String} {m : Maker} {core : CoreIndex} {a : Analysis}

namespace Loader

/-- The bytes of a shard that the program wrote are read as the value that it wrote. -/
theorem value_encode (id : String) (shard : Shard) : value id (Store.encode shard) = .ok shard.toJson.canonical := by
  have hvalue : (String.fromUTF8? (Store.encode shard)).bind Json.value? = some shard.toJson.canonical := by
    rw [Store.encode, fromUTF8?_toUTF8, Option.bind_some]
    apply Json.value?_render (Shard.readsBack.counting shard)
    exact lt_of_le_of_lt shard.depth_le (by decide)
  have hfields : requiredFields.filter (fun field => (shard.toJson.canonical.get? field).isNone) = [] := by
    apply List.filter_eq_nil_iff.2
    intro field hfield
    rw [Shard.toJson, Json.get?_canonical]
    simp only [requiredFields, List.mem_cons, List.not_mem_nil, or_false] at hfield
    rcases hfield with rfl | rfl | rfl <;>
      simp [Json.lookup_append, Json.lookup_cons, Json.lookup_memberIf]
  rw [value, hvalue]
  dsimp only
  rw [hfields]

variable (hw : w.Leads root s) (h : Holding s w.disk core a) {known : Option CoreIndex}
  (hknown : known = none ∨ known = some core)

include hw h

theorem exec_readCore_of_holding : (Store.readCore ⟨root⟩).exec w = (.ok core, w) := by
  obtain ⟨time, haccess⟩ := Disk.access_of_read h.read
  have hpresent : (Store.isPresent (Store.corePath ⟨root⟩)).exec w = (.ok true, w) := by
    rw [Store.exec_isPresent, hw.resolve_corePath, Disk.holds_of_access haccess]
  have hdocument : (Store.readDocument (Store.corePath ⟨root⟩) Store.coreFile).exec w = (.ok core, w) :=
    Store.exec_readDocument _ _ (by rw [hw.resolve_corePath, h.read]) (Store.decode?_encode CoreIndex.readsBack core)
  unfold Store.readCore
  rw [exec_bind_of_ok hpresent]
  change (Store.readDocument (Store.corePath ⟨root⟩) Store.coreFile >>= fun core : CoreIndex => _ :
    Action CoreIndex).exec w = _
  rw [exec_bind_of_ok hdocument, if_pos h.version]
  rfl

include hknown

theorem coreFrom_of_holding (kept : Dict Shard) : coreFrom ⟨⟨root⟩, known, kept⟩ w = .ok core := by
  rcases hknown with rfl | rfl
  · exact congrArg Prod.fst (exec_readCore_of_holding hw h)
  · rfl

theorem exec_core_of_holding (kept : Dict Shard) :
    Loader.core.exec ⟨⟨root⟩, known, kept⟩ w = ((.ok core, ⟨⟨root⟩, some core, kept⟩), w) := by
  rw [exec_core, informed, coreFrom_of_holding hw h hknown kept]
  rfl

/-- A shard is handed out as the analysis makes it. -/
theorem exec_shard_of_holding {id : String} {files : List String} (hget : (modulesOf core).get? id = some files) :
    ∃ l, (Loader.shard id).exec ⟨⟨root⟩, known, {}⟩ w = ((.ok (a.shard id files), l), w) := by
  have hvalid : ModuleId.isValid id = true := h.isValid (Dict.mem_keys.2 ⟨files, hget⟩)
  have hbytes : ((Store.shardBytes? ⟨root⟩ id).exec w).1 = .ok (some (Store.encode (a.shard id files))) := by
    unfold Store.shardBytes?
    rw [exec_bind_of_ok (Store.exec_contents _ _), hw.resolve_shardPath (ModuleId.isAbsolute_json hvalid),
      h.read_shard hget]
    rfl
  have hcheck : check core id (Store.encode (a.shard id files)) = .ok () := by
    have hhash : core.hashes.get? id = some (Store.digest (Store.encode (a.shard id files))) := by
      rw [h.hashes, Analysis.get?_hashes, Analysis.bytesOf?, hget]
      rfl
    rw [check, hhash]
    exact if_pos rfl
  have hverdict : verdict (.ok core) id (Store.encode (a.shard id files)) = .ok () := by
    rw [verdict, hcheck]
    rfl
  have hof : shardOf (.ok core) id (Store.encode (a.shard id files)) = .ok (a.shard id files) := by
    rw [shardOf, value_encode]
    dsimp only
    rw [hverdict]
    dsimp only
    rw [Shard.readsBackCanonical.back]
  have hfrom : shardFrom (.ok core) ⟨root⟩ id w = .ok (a.shard id files) := (shardFrom_of_bytes hbytes _).trans hof
  obtain ⟨l, hrun, -⟩ := exec_shard ⟨⟨root⟩, known, {}⟩ id w
  have hfor : shardFor ⟨⟨root⟩, known, {}⟩ id w = .ok (a.shard id files) := by
    rw [shardFor_of_not_kept hvalid (Dict.get?_emptyCollection id), coreFrom_of_holding hw h hknown, hfrom]
  exact ⟨l, by rw [hrun, hfor]⟩

end Loader

end Loader

/-! ## Answers -/

namespace Answers

/-- A path as the index has it, without a dot and a slash before it. -/
def plainPath (path : String) : String := String.ofList (Text.dropHeads "./".toList path.toList)

/-- An answer tells of a file its module and all that an analysis knows of it, and of documentation its synopsis and tier. -/
structure Tells (a : Analysis) (id file : String) (entry : FileEntry) (j : Json) : Prop where
  path : j.get? "path" = some (.string file)
  module : j.get? "module" = some (.string id)
  fields : ∀ field ∈ FileEntry.fields, j.get? field = entry.toJson.canonical.get? field
  details : FileEntry.ofJson? j = some entry
  doc : j.get? "doc" = (a.docs.get? file).map fun d => d.2.toJson.canonical
  tier : j.get? "doc_tier" = (a.docs.get? file).map fun d => .string d.1.name
  documented : (a.docs.get? file).isSome = entry.language.isDocumentation

/-- The members that tell of a synopsis. -/
def docMembers (tier : DocTier) : Option Synopsis → List (String × Json)
  | some s => [("doc", s.toJson), ("doc_tier", .string tier.name)]
  | none => []

theorem lookup_docMembers (key : String) (tier : DocTier) (o : Option Synopsis) :
    Json.lookup key (docMembers tier o) = if key = "doc" then o.map Synopsis.toJson
      else if key = "doc_tier" then o.map fun _ => .string tier.name else none := by
  cases o with
  | none => simp [docMembers, Json.lookup_nil]
  | some s =>
    by_cases hdoc : key = "doc"
    · subst hdoc
      simp [docMembers, Json.lookup_cons, Json.lookup_nil]
    · by_cases htier : key = "doc_tier"
      · subst htier
        simp [docMembers, Json.lookup_cons, Json.lookup_nil]
      · simp [docMembers, Json.lookup_cons, Json.lookup_nil, hdoc, htier, Ne.symm hdoc, Ne.symm htier]

variable {s : Store} {w : Workspace} {root : String} {m : Maker} {core : CoreIndex} {a : Analysis}

/-- The members of an answer about a file. -/
def told (a : Analysis) (id file : String) (entry : FileEntry) : List (String × Json) :=
  [("path", .string file), ("module", .string id)] ++ docMembers .critical (a.synopsis? .critical file) ++ entry.members
    ++ docMembers .standard (a.synopsis? .standard file) ++ docMembers .archive (a.synopsis? .archive file)

theorem describe_eq (hcritical : core.critical = a.docsOf .critical) {id file : String} {files : List String}
    {entry : FileEntry} (hfile : file ∈ files) (hentry : a.details.get? file = some entry) :
    describe core id (a.shard id files) file = Json.canonical (.object (told a id file entry)) := by
  have hdetails : (a.shard id files).files.get? file = some entry := by
    change (a.detailsOf files).get? file = _
    rw [Analysis.get?_detailsOf, if_pos hfile, hentry]
  have hdocs : ∀ tier, (a.docsAmong tier files).get? file = a.synopsis? tier file := by
    intro tier
    rw [Analysis.get?_docsAmong, if_pos hfile]
  unfold describe
  dsimp only
  rw [hdetails, hcritical, Analysis.get?_docsOf]
  change Json.canonical (.object ([("path", .string file), ("module", .string id)]
    ++ docMembers .critical (a.synopsis? .critical file) ++ entry.members
    ++ docMembers .standard ((a.docsAmong .standard files).get? file)
    ++ docMembers .archive ((a.docsAmong .archive files).get? file))) = _
  rw [hdocs, hdocs]
  rfl

theorem lookup_told (a : Analysis) (id file : String) (entry : FileEntry) (key : String) :
    Json.lookup key (told a id file entry) =
      if key = "path" then some (.string file) else if key = "module" then some (.string id)
      else if key = "doc" then (a.docs.get? file).map fun d => d.2.toJson
      else if key = "doc_tier" then (a.docs.get? file).map fun d => .string d.1.name
      else Json.lookup key entry.members := by
  have hfields : ∀ key ∈ ["path", "module", "doc", "doc_tier"], Json.lookup key entry.members = none := by
    intro key hkey
    apply entry.lookup_members_of_notMem
    simp only [List.mem_cons, List.not_mem_nil, or_false] at hkey
    rcases hkey with rfl | rfl | rfl | rfl <;> decide
  rw [told, Json.lookup_append, Json.lookup_append, Json.lookup_append, Json.lookup_append, lookup_docMembers,
    lookup_docMembers, lookup_docMembers, Json.lookup_cons, Json.lookup_cons, Json.lookup_nil]
  by_cases hpath : key = "path"
  · simp [hpath, hfields "path" (by decide)]
  by_cases hmodule : key = "module"
  · simp [hmodule, hfields "module" (by decide)]
  by_cases hdoc : key = "doc"
  · subst hdoc
    rcases hget : a.docs.get? file with _ | ⟨tier, s⟩
    · simp [Analysis.synopsis?, hget, hfields "doc" (by decide)]
    · cases tier <;> simp [Analysis.synopsis?, hget, hfields "doc" (by decide), Option.filter]
  by_cases htier : key = "doc_tier"
  · subst htier
    rcases hget : a.docs.get? file with _ | ⟨tier, s⟩
    · simp [Analysis.synopsis?, hget, hfields "doc_tier" (by decide)]
    · cases tier <;> simp [Analysis.synopsis?, hget, hfields "doc_tier" (by decide), Option.filter]
  · simp [hpath, hmodule, hdoc, htier, Ne.symm hpath, Ne.symm hmodule]

theorem describe_tells {d : Disk} (h : Standing s m d core a) {id file : String} {files : List String} {entry : FileEntry}
    (hfile : file ∈ files) (hentry : a.details.get? file = some entry) :
    Tells a id file entry (describe core id (a.shard id files) file) := by
  have hget : ∀ key, (describe core id (a.shard id files) file).get? key =
      (Json.lookup key (told a id file entry)).map Json.canonical := by
    intro key
    rw [describe_eq h.critical hfile hentry, Json.get?_canonical]
  have hfields : ∀ field ∈ FileEntry.fields, Json.lookup field (told a id file entry) = Json.lookup field entry.members := by
    intro field hfield
    simp only [FileEntry.fields, List.mem_cons, List.not_mem_nil, or_false] at hfield
    rw [lookup_told]
    rcases hfield with rfl | rfl | rfl | rfl | rfl | rfl <;> rfl
  constructor
  · rw [hget, lookup_told, if_pos rfl, Option.map_some, Json.canonical_string]
  · rw [hget, lookup_told, if_neg (by decide), if_pos rfl, Option.map_some, Json.canonical_string]
  · intro field hfield
    rw [hget, hfields field hfield, FileEntry.toJson_eq, Json.get?_canonical]
  · rw [describe_eq h.critical hfile hentry]
    exact FileEntry.ofJson?_of_lookup hfields
  · rw [hget, lookup_told, if_neg (by decide), if_neg (by decide), if_pos rfl, Option.map_map]
    rfl
  · rw [hget, lookup_told, if_neg (by decide), if_neg (by decide), if_neg (by decide), if_pos rfl, Option.map_map]
    refine congrArg (Option.map · _) (funext fun d => ?_)
    exact Json.canonical_string _
  · rw [h.covers.documented, hentry]
    rfl

/-- Questions about an index are answered from what an analysis knows. -/
structure Agree (root : String) (w : Workspace) (core : CoreIndex) (a : Analysis) : Prop where
  file : ∀ file ∈ core.allFiles, ∃ id entry j, a.details.get? file = some entry ∧
    (∀ id', (modulesOf core).Holds id' file ↔ id' = id) ∧ Tells a id file entry j ∧ ∀ path, plainPath path = file →
      ((fileInfo path).fresh root).exec w = (.ok j, w) ∧ ((answer (.fileInfo path)).fresh root).exec w = (.ok j, w)
  shard : ∀ id entry, core.modules.get? id = some entry →
    ((Loader.shard id).fresh root).exec w = (.ok (a.shard id entry.files), w) ∧
    ((answer (.detail id)).fresh root).exec w = (.ok (a.shard id entry.files).toJson.canonical, w)
  other : ∀ path, plainPath path ∉ core.allFiles →
    ((fileInfo path).fresh root).exec w = (.error (Failure.ofFault (.notFound "file" (plainPath path))), w) ∧
    ((answer (.fileInfo path)).fresh root).exec w =
      (.ok (.object [("error", .string (Failure.ofFault (.notFound "file" (plainPath path))).headline)]), w)

theorem exec_answer_of_ok {q : Question} {j : Json} {l l' : Loader} {w' : Workspace}
    (h : (value q).exec l w = ((.ok j, l'), w')) : (answer q).exec l w = ((.ok j, l'), w') := by
  rw [answer, Loading.exec_bind_of_ok (Loading.exec_attempt h)]
  rfl

theorem exec_answer_of_error {q : Question} {f : Failure} {l l' : Loader} {w' : Workspace}
    (h : (value q).exec l w = ((.error f, l'), w')) :
    (answer q).exec l w = ((.ok (.object [("error", .string f.headline)]), l'), w') := by
  rw [answer, Loading.exec_bind_of_ok (Loading.exec_attempt h)]
  rfl

theorem exec_fileInfo {l l' : Loader} {w' : Workspace} (h : Loader.core.exec l w = ((.ok core, l'), w')) (path : String) :
    (fileInfo path).exec l w = (match core.moduleFor? (plainPath path) with
      | none => Loading.failWith (.notFound "file" (plainPath path))
      | some id => do return describe core id (← Loader.shard id) (plainPath path) : Loading Json).exec l' w' :=
  Loading.exec_bind_of_ok h

theorem agree (hw : w.Leads root s) (h : Standing s m w.disk core a) : Agree root w core a := by
  have hcore : Loader.core.exec (Loader.ofRoot root) w = ((.ok core, ⟨⟨root⟩, some core, {}⟩), w) :=
    Loader.exec_core_of_holding hw h.toHolding (.inl rfl) {}
  constructor
  · intro file hindexed
    obtain ⟨id, files, hget, hfile⟩ := Update.mem_allFiles.1 hindexed
    have hholds : (modulesOf core).Holds id file := ⟨files, hget, hfile⟩
    obtain ⟨entry, hentry⟩ := Option.isSome_iff_exists.1 ((h.covers.known file).2 (ModuleMap.mem_files.2 ⟨id, hholds⟩))
    have hmodule : core.moduleFor? file = some id := (holds_modulesOf h.consistent).1 hholds
    refine ⟨id, entry, _, hentry, fun id' => ⟨fun hid' => h.divides.unique hid' hholds, ?_⟩, describe_tells h hfile hentry, ?_⟩
    · rintro rfl
      exact hholds
    · rintro path rfl
      obtain ⟨l, hshard⟩ := Loader.exec_shard_of_holding hw h.toHolding (.inr rfl) hget
      have hinfo : (fileInfo path).exec (Loader.ofRoot root) w =
          ((.ok (describe core id (a.shard id files) (plainPath path)), l), w) := by
        rw [exec_fileInfo hcore, hmodule]
        dsimp only
        rw [Loading.exec_bind_of_ok hshard]
        rfl
      exact ⟨Loading.exec_fresh hinfo, Loading.exec_fresh (exec_answer_of_ok hinfo)⟩
  · intro id entry hentry
    obtain ⟨l, hshard⟩ := Loader.exec_shard_of_holding hw h.toHolding (.inl rfl) (get?_modulesOf.2 ⟨entry, hentry, rfl⟩)
    have hvalue : (value (.detail id)).exec (Loader.ofRoot root) w =
        ((.ok (a.shard id entry.files).toJson.canonical, l), w) := by
      change (Loader.shard id >>= fun shard => pure shard.toJson.canonical).exec (Loader.ofRoot root) w = _
      exact Loading.exec_bind_of_ok hshard
    exact ⟨Loading.exec_fresh hshard, Loading.exec_fresh (exec_answer_of_ok hvalue)⟩
  · intro path hpath
    have hmodule : core.moduleFor? (plainPath path) = none := by
      rw [Option.eq_none_iff_forall_ne_some]
      intro id hid
      exact hpath (Update.mem_allFiles.2 ⟨id, (holds_modulesOf h.consistent).2 hid⟩)
    have hinfo : (fileInfo path).exec (Loader.ofRoot root) w =
        ((.error (Failure.ofFault (.notFound "file" (plainPath path))), ⟨⟨root⟩, some core, {}⟩), w) := by
      rw [exec_fileInfo hcore, hmodule]
      rfl
    exact ⟨Loading.exec_fresh hinfo, Loading.exec_fresh (exec_answer_of_error hinfo)⟩

/-- After a build, an update or a migration with shards, a reader of the index is told what was analysed: of every file of
    the index, by its path with or without a dot and a slash before it, what is known of it, and of every module the shard
    that was made for it.  Any other file is not found. -/
theorem answers_agree_with_analysis (h : Tracked s m w a) (hskip : m.settings.skipDetails = false) (hw : w.Leads root s) :
    ∃ core, s.coreOn? w.disk = some core ∧ Agree root w core a := by
  obtain ⟨core, hstanding⟩ := h.standing_of_shards hskip
  exact ⟨core, hstanding.coreOn?, agree hw hstanding⟩

theorem answers_agree_with_analysis_documented : ∃ core n w a,
    ((Maker.ofSettings .default).build ".").exec Migration.documented = (.ok (core, n), w) ∧
    Tracked ⟨"/demo"⟩ (Maker.ofSettings .default) w a ∧ Settings.default.skipDetails = false ∧ w.Leads "." ⟨"/demo"⟩ ∧
    "README.md" ∈ core.allFiles ∧ plainPath "./README.md" = "README.md" ∧ Agree "." w core a := by
  obtain ⟨core, n, w, a, hbuild, htracked, hstanding, hleads, hfiles, -⟩ := tracked_documented
  obtain ⟨core', hcore', hagree⟩ := answers_agree_with_analysis htracked rfl hleads
  obtain rfl := Option.some.inj (hstanding.coreOn?.symm.trans hcore')
  exact ⟨core, n, w, a, hbuild, htracked, rfl, hleads, by simp [hfiles], by decide, hagree⟩

end Answers

end CodeIndex
