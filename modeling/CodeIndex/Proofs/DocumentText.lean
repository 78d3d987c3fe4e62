import CodeIndex.Proofs.JsonRecord
import CodeIndex.Store

set_option autoImplicit false

/-!
# Reading back documents

Documents of every kind are read back from their bytes as they were, empty maps that are written and maps that are
left out included.  So what is read and written again has the same bytes and the same digest.
-/

namespace CodeIndex

open Json

namespace Callable

theorem readsBack : ReadsBack toJson ofJson? := by
  refine ⟨fun c => ?_, fun _ h => (nomatch h), fun c => ?_⟩
  · have hkeys : KeysIn ["line", "signature", "calls", "doc"] _ :=
      ((keysIn_self [("line", ofCount c.line), ("signature", .string c.signature)]).append
        (keysIn_memberIf "calls" (!c.calls.isEmpty) (ofNames c.calls))).append (keysIn_memberOf "doc" .string c.doc)
    rw [ofJson?, toJson, fields?_object hkeys (by decide)]
    simp only [List.map_cons, List.map_nil, lookup_append, lookup_cons, lookup_nil, lookup_memberIf, lookup_memberOf,
      String.reduceEq, reduceIte, Option.or_none, Option.none_or, required, Option.bind_some, readsBack_count.back,
      readsBack_string.back, orElse_list readsBack_names, optional_map readsBack_string, Option.bind_eq_bind]
    rfl
  · have hmust : CountingMembers [("line", ofCount c.line), ("signature", .string c.signature)] :=
      ⟨readsBack_count.counting _, trivial, trivial⟩
    exact (hmust.append (countingMembers_memberIf _ _ (readsBack_names.counting _))).append
      (countingMembers_memberOf _ readsBack_string.counting _)

end Callable

namespace TypeOutline

theorem readsBack : ReadsBack toJson ofJson? := by
  have hmethods := readsBack_dict Callable.readsBack
  refine ⟨fun t => ?_, fun _ h => (nomatch h), fun t => ?_⟩
  · have hkeys : KeysIn ["line", "bases", "methods", "doc"] _ :=
      (((keysIn_self [("line", ofCount t.line)]).append (keysIn_memberIf "bases" (!t.bases.isEmpty) (ofNames t.bases))).append
        (keysIn_memberIf "methods" (!t.methods.isEmpty) (ofDict Callable.toJson t.methods))).append
          (keysIn_memberOf "doc" .string t.doc)
    rw [ofJson?, toJson, fields?_object hkeys (by decide)]
    simp only [List.map_cons, List.map_nil, lookup_append, lookup_cons, lookup_nil, lookup_memberIf, lookup_memberOf,
      String.reduceEq, reduceIte, Option.or_none, Option.none_or, required, Option.bind_some, readsBack_count.back,
      orElse_list readsBack_names, orElse_dict hmethods, optional_map readsBack_string, Option.bind_eq_bind]
    rfl
  · have hmust : CountingMembers [("line", ofCount t.line)] := ⟨readsBack_count.counting _, trivial⟩
    exact ((hmust.append (countingMembers_memberIf _ _ (readsBack_names.counting _))).append
      (countingMembers_memberIf _ _ (hmethods.counting _))).append
        (countingMembers_memberOf _ readsBack_string.counting _)

end TypeOutline

namespace Outline

theorem keysIn_toMembers (o : Outline) : KeysIn ["functions", "classes", "imports"] o.toMembers :=
  ((keysIn_memberIf _ _ _).append (keysIn_memberIf _ _ _)).append (keysIn_memberIf _ _ _)

theorem counting_toMembers (o : Outline) : CountingMembers o.toMembers :=
  ((countingMembers_memberIf _ _ ((readsBack_dict Callable.readsBack).counting _)).append
    (countingMembers_memberIf _ _ ((readsBack_dict TypeOutline.readsBack).counting _))).append
      (countingMembers_memberIf _ _ (readsBack_names.counting _))

theorem ofFields?_lookup (o : Outline) :
    ofFields? (lookup "functions" o.toMembers) (lookup "classes" o.toMembers) (lookup "imports" o.toMembers) = some o := by
  simp only [ofFields?, toMembers, lookup_append, lookup_memberIf, String.reduceEq, reduceIte, Option.or_none,
    Option.none_or, orElse_dict (readsBack_dict Callable.readsBack), orElse_dict (readsBack_dict TypeOutline.readsBack),
    orElse_list readsBack_names, Option.bind_eq_bind, Option.bind_some]
  rfl

theorem readsBack : ReadsBack toJson ofJson? := by
  refine ⟨fun o => ?_, fun _ h => (nomatch h), counting_toMembers⟩
  rw [ofJson?, toJson, fields?_object o.keysIn_toMembers (by decide)]
  exact o.ofFields?_lookup

end Outline

namespace Commit

theorem readsBack : ReadsBack toJson ofJson? :=
  ⟨fun _ => rfl, fun _ h => (nomatch h), fun _ => ⟨trivial, trivial, trivial, trivial⟩⟩

end Commit

theorem Language.readsBack : ReadsBack (fun l : Language => .string l.name) Language.ofJson? :=
  ⟨Language.ofName?_name, fun _ h => (nomatch h), fun _ => trivial⟩

theorem FileSource.readsBack : ReadsBack (fun s : FileSource => .string s.name) FileSource.ofJson? :=
  ⟨fun s => by cases s <;> rfl, fun _ h => (nomatch h), fun _ => trivial⟩

namespace FileEntry

theorem readsBack : ReadsBack toJson ofJson? := by
  refine ⟨fun f => ?_, fun _ h => (nomatch h), fun f => ?_⟩
  · have hkeys : KeysIn ["lang", "functions", "classes", "imports", "listed_only", "git"] _ :=
      (((keysIn_self [("lang", .string f.language.name)]).append f.outline.keysIn_toMembers).append
        (keysIn_memberIf "listed_only" f.listedOnly (.bool true))).append (keysIn_memberOf "git" Commit.toJson f.commit)
    have hother : ∀ key, key ∉ ["functions", "classes", "imports"] → lookup key f.outline.toMembers = none := by
      intro key hkey
      rw [lookup, Option.map_eq_none_iff, List.find?_eq_none]
      intro m hm heq
      have hmem := f.outline.keysIn_toMembers.subset (List.mem_map_of_mem (List.mem_reverse.1 hm))
      exact hkey (of_decide_eq_true heq ▸ hmem)
    have hlisted : orElse false asBool? (if f.listedOnly then some (.bool true) else none) = some f.listedOnly := by
      cases f.listedOnly <;> rfl
    have houtline := f.outline.ofFields?_lookup
    rw [ofJson?, toJson, namedFields?_object hkeys (by decide)]
    simp only [List.map_cons, List.map_nil, lookup_append, lookup_cons, lookup_nil, lookup_memberIf, lookup_memberOf,
      hother "lang" (by decide), hother "listed_only" (by decide), hother "git" (by decide), String.reduceEq, reduceIte,
      Option.or_none, Option.none_or, required, Option.bind_some, Language.readsBack.back, houtline, hlisted,
      optional_map Commit.readsBack, Option.bind_eq_bind]
    rfl
  · have hmust : CountingMembers [("lang", .string f.language.name)] := ⟨trivial, trivial⟩
    have hlisted : (Json.bool true).Counting := trivial
    exact ((hmust.append f.outline.counting_toMembers).append (countingMembers_memberIf _ _ hlisted)).append
      (countingMembers_memberOf _ Commit.readsBack.counting _)

end FileEntry

namespace Synopsis

theorem readsBack : ReadsBack toJson ofJson? := by
  refine ⟨fun s => ?_, fun _ h => (nomatch h), fun s => ?_⟩
  · have hkeys : KeysIn ["title", "headings"] _ :=
      (keysIn_memberOf "title" .string s.title).append
        (keysIn_memberIf "headings" (!s.headings.isEmpty) (ofNames s.headings))
    rw [ofJson?, toJson, fields?_object hkeys (by decide)]
    simp only [List.map_cons, List.map_nil, lookup_append, lookup_memberIf, lookup_memberOf, String.reduceEq, reduceIte,
      Option.or_none, Option.none_or, orElse_list readsBack_names, optional_map readsBack_string, Option.bind_eq_bind,
      Option.bind_some]
    rfl
  · exact (countingMembers_memberOf _ readsBack_string.counting _).append
      (countingMembers_memberIf _ _ (readsBack_names.counting _))

end Synopsis

theorem readsBack_synopses : ReadsBack synopsesToJson synopses? := readsBack_dict Synopsis.readsBack

theorem readsBack_edges : ReadsBack edgesToJson edges? := readsBack_list readsBack_pair

namespace Stats

theorem readsBack : ReadsBack toJson ofJson? := by
  have hcounts := readsBack_dict readsBack_count
  refine ⟨fun s => ?_, fun _ h => (nomatch h), fun s => ?_⟩
  · have hkeys : KeysIn ["total_files", "total_dirs", "files_by_language", "doc_tiers", "file_source", "listed_only",
        "framework"] _ :=
      (keysIn_self [("total_files", ofCount s.totalFiles), ("total_dirs", ofCount s.totalDirs),
        ("files_by_language", ofDict ofCount s.filesByLanguage), ("doc_tiers", ofDict ofCount s.docTiers),
        ("file_source", .string s.fileSource.name), ("listed_only", ofCount s.listedOnly)]).append
          (keysIn_memberOf "framework" .string s.framework)
    have hlisted : ∀ n, orElse 0 asCount? (some (ofCount n)) = some n := readsBack_count.back
    rw [ofJson?, toJson, fields?_object hkeys (by decide)]
    simp only [List.map_cons, List.map_nil, lookup_append, lookup_cons, lookup_nil, lookup_memberOf, String.reduceEq,
      reduceIte, Option.or_none, Option.none_or, required, Option.bind_some, readsBack_count.back, hcounts.back,
      FileSource.readsBack.back, hlisted, optional_map readsBack_string, Option.bind_eq_bind]
    rfl
  · have hmust : CountingMembers [("total_files", ofCount s.totalFiles), ("total_dirs", ofCount s.totalDirs),
        ("files_by_language", ofDict ofCount s.filesByLanguage), ("doc_tiers", ofDict ofCount s.docTiers),
        ("file_source", .string s.fileSource.name), ("listed_only", ofCount s.listedOnly)] :=
      ⟨readsBack_count.counting _, readsBack_count.counting _, hcounts.counting _, hcounts.counting _, trivial,
        readsBack_count.counting _, trivial⟩
    exact hmust.append (countingMembers_memberOf _ readsBack_string.counting _)

end Stats

namespace ModuleEntry

theorem readsBack : ReadsBack toJson ofJson? := by
  refine ⟨fun m => ?_, fun _ h => (nomatch h), fun m => ?_⟩
  · have hkeys : KeysIn ["file_count", "function_count", "detail_path", "files"] _ :=
      keysIn_self [("file_count", ofCount m.fileCount), ("function_count", ofCount m.callableCount),
        ("detail_path", .string m.detailPath), ("files", ofNames m.files)]
    rw [ofJson?, toJson, fields?_object hkeys (by decide)]
    simp only [List.map_cons, List.map_nil, lookup_cons, lookup_nil, String.reduceEq, reduceIte, Option.or_none,
      Option.none_or, required, Option.bind_some, readsBack_count.back, readsBack_string.back, readsBack_names.back,
      Option.bind_eq_bind]
    rfl
  · exact ⟨readsBack_count.counting _, readsBack_count.counting _, trivial, readsBack_names.counting _, trivial⟩

end ModuleEntry

namespace CoreIndex

theorem readsBack : ReadsBack toJson ofJson? := by
  have hmodules := readsBack_dict ModuleEntry.readsBack
  have hstrings := readsBack_dict readsBack_string
  refine ⟨fun c => ?_, fun _ h => (nomatch h), fun c => ?_⟩
  · have hkeys : KeysIn ["version", "at", "root", "tree", "stats", "modules", "file_to_module_map", "module_hashes",
        "d_critical", "d_standard", "d_archive", "priority_modules"] _ :=
      (((keysIn_self [("version", .string c.version), ("at", .string c.madeAt), ("root", .string c.root),
        ("tree", ofNames c.tree), ("stats", c.stats.toJson), ("modules", ofDict ModuleEntry.toJson c.modules),
        ("file_to_module_map", ofDict .string c.moduleOfFile), ("module_hashes", ofDict .string c.hashes),
        ("d_critical", synopsesToJson c.critical)]).append (keysIn_memberOf "d_standard" synopsesToJson c.standard)).append
          (keysIn_memberOf "d_archive" synopsesToJson c.archive)).append
            (keysIn_memberIf "priority_modules" (!c.priorityModules.isEmpty) (ofNames c.priorityModules))
    have hfields : fields? ["version", "at", "root", "tree", "stats", "modules", "file_to_module_map", "module_hashes",
        "d_critical", "d_standard", "d_archive", "priority_modules"] c.toJson =
        some [some (.string c.version), some (.string c.madeAt), some (.string c.root), some (ofNames c.tree),
          some c.stats.toJson, some (ofDict ModuleEntry.toJson c.modules), some (ofDict .string c.moduleOfFile),
          some (ofDict .string c.hashes), some (synopsesToJson c.critical), c.standard.map synopsesToJson,
          c.archive.map synopsesToJson, if !c.priorityModules.isEmpty then some (ofNames c.priorityModules) else none] := by
      rw [toJson, fields?_object hkeys (by decide)]
      simp only [List.map_cons, List.map_nil, lookup_append, lookup_cons, lookup_nil, lookup_memberIf, lookup_memberOf,
        String.reduceEq, reduceIte, Option.or_none, Option.none_or]
    have hmap : ∀ d, orElse {} (dictOf? asString?) (some (ofDict .string d)) = some d := hstrings.back
    have hdocs : ∀ d, orElse {} synopses? (some (synopsesToJson d)) = some d := readsBack_synopses.back
    rw [ofJson?, hfields]
    change (required asString? (some (.string c.version)) >>= fun _ => _) = _
    simp only [required, Option.bind_some, readsBack_string.back, readsBack_names.back, Stats.readsBack.back,
      hmodules.back, hmap, hdocs, optional_map readsBack_synopses, orElse_list readsBack_names, Option.bind_eq_bind]
    rfl
  · have hmust : CountingMembers [("version", .string c.version), ("at", .string c.madeAt), ("root", .string c.root),
        ("tree", ofNames c.tree), ("stats", c.stats.toJson), ("modules", ofDict ModuleEntry.toJson c.modules),
        ("file_to_module_map", ofDict .string c.moduleOfFile), ("module_hashes", ofDict .string c.hashes),
        ("d_critical", synopsesToJson c.critical)] :=
      ⟨trivial, trivial, trivial, readsBack_names.counting _, Stats.readsBack.counting _, hmodules.counting _,
        hstrings.counting _, hstrings.counting _, readsBack_synopses.counting _, trivial⟩
    exact ((hmust.append (countingMembers_memberOf _ readsBack_synopses.counting _)).append
      (countingMembers_memberOf _ readsBack_synopses.counting _)).append
        (countingMembers_memberIf _ _ (readsBack_names.counting _))

end CoreIndex

namespace Shard

theorem readsBack : ReadsBack toJson ofJson? := by
  have hfiles := readsBack_dict FileEntry.readsBack
  refine ⟨fun s => ?_, fun _ h => (nomatch h), fun s => ?_⟩
  · have hkeys : KeysIn ["module_id", "version", "files", "call_graph_local", "call_graph_external", "doc_standard",
        "doc_archive"] _ :=
      (((keysIn_self [("module_id", .string s.moduleId), ("version", .string s.version),
        ("files", ofDict FileEntry.toJson s.files), ("call_graph_local", edgesToJson s.localCalls)]).append
          (keysIn_memberIf "call_graph_external" (!s.externalCalls.isEmpty) (edgesToJson s.externalCalls))).append
            (keysIn_memberIf "doc_standard" (!s.standard.isEmpty) (synopsesToJson s.standard))).append
              (keysIn_memberIf "doc_archive" (!s.archive.isEmpty) (synopsesToJson s.archive))
    have hlocal : ∀ es, orElse [] edges? (some (edgesToJson es)) = some es := readsBack_edges.back
    rw [ofJson?, toJson, fields?_object hkeys (by decide)]
    simp only [List.map_cons, List.map_nil, lookup_append, lookup_cons, lookup_nil, lookup_memberIf, String.reduceEq,
      reduceIte, Option.or_none, Option.none_or, required, Option.bind_some, readsBack_string.back, hfiles.back, hlocal,
      orElse_list readsBack_edges, orElse_dict readsBack_synopses, Option.bind_eq_bind]
    rfl
  · have hmust : CountingMembers [("module_id", .string s.moduleId), ("version", .string s.version),
        ("files", ofDict FileEntry.toJson s.files), ("call_graph_local", edgesToJson s.localCalls)] :=
      ⟨trivial, trivial, hfiles.counting _, readsBack_edges.counting _, trivial⟩
    exact ((hmust.append (countingMembers_memberIf _ _ (readsBack_edges.counting _))).append
      (countingMembers_memberIf _ _ (readsBack_synopses.counting _))).append
        (countingMembers_memberIf _ _ (readsBack_synopses.counting _))

end Shard

namespace SingleIndex

/-- A tier that is left out stays apart from one without documentation. -/
theorem readsBack_docs : ReadsBack docsToJson docs? := by
  have hback : ∀ d, synopses? (synopsesToJson d) = some d := readsBack_synopses.back
  have htier : ∀ tier : DocTier, DocTier.ofName? tier.name = some tier := DocTier.ofName?_name
  refine ⟨fun docs => ?_, fun _ h => (nomatch h), fun docs => ?_⟩
  · obtain ⟨critical, standard, archive⟩ := docs
    rw [docsToJson, docs?]
    cases critical <;> cases standard <;> cases archive <;>
      simp [PerTier.toList, DocTier.all, PerTier.get, PerTier.all, PerTier.set, memberOf, hback, htier]
  · refine countingMembers_of_forall fun member hmember => ?_
    obtain ⟨⟨tier, found⟩, -, hin⟩ := List.mem_flatMap.1 hmember
    exact countingMembers_iff.1 (countingMembers_memberOf tier.name readsBack_synopses.counting found) member hin

theorem readsBack : ReadsBack toJson ofJson? := by
  have hfiles := readsBack_dict FileEntry.readsBack
  refine ⟨fun s => ?_, fun _ h => (nomatch h), fun s => ?_⟩
  · have hkeys : KeysIn ["version", "at", "root", "tree", "stats", "files", "call_graph", "docs"] _ :=
      keysIn_self [("version", .string s.version), ("at", .string s.madeAt), ("root", .string s.root),
        ("tree", ofNames s.tree), ("stats", s.stats.toJson), ("files", ofDict FileEntry.toJson s.files),
        ("call_graph", edgesToJson s.calls), ("docs", docsToJson s.docs)]
    have hcalls : ∀ es, orElse [] edges? (some (edgesToJson es)) = some es := readsBack_edges.back
    have hdocs : ∀ d, orElse (PerTier.all none) docs? (some (docsToJson d)) = some d := readsBack_docs.back
    rw [ofJson?, toJson, fields?_object hkeys (by decide)]
    simp only [List.map_cons, List.map_nil, lookup_cons, lookup_nil, String.reduceEq, reduceIte, Option.or_none,
      Option.none_or, required, Option.bind_some, readsBack_string.back, readsBack_names.back, Stats.readsBack.back,
      hfiles.back, hcalls, hdocs, Option.bind_eq_bind]
    rfl
  · exact ⟨trivial, trivial, trivial, readsBack_names.counting _, Stats.readsBack.counting _, hfiles.counting _,
      readsBack_edges.counting _, readsBack_docs.counting _, trivial⟩

end SingleIndex

/-- The bytes of a text are that text. -/
theorem fromUTF8?_toUTF8 (s : String) : String.fromUTF8? s.toUTF8 = some s := dif_pos s.isValidUTF8

/-- A document is read back from its bytes. -/
theorem Store.decode?_encode {α : Type} [Document α] (h : ReadsBack (Document.toJson (α := α)) Document.ofJson?) (a : α) :
    Store.decode? (Store.encode a) = some a := by
  rw [Store.decode?, Store.encode, fromUTF8?_toUTF8, Option.bind_some, Document.read?, Document.write,
    read?_render (h.counting a), Option.bind_some, h.back]

/-- Without modules an object is no core index. -/
theorem CoreIndex.ofJson?_of_lookup {ms : List (String × Json)} (h : lookup "modules" ms = none) :
    ofJson? (.object ms) = none := by
  have hmodules : required (dictOf? ModuleEntry.ofJson?) (lookup "modules" ms) = none := by rw [h]; rfl
  unfold ofJson? fields? namedFields?
  dsimp only
  split
  · -- The modules are read after five others.
    change (required asString? (lookup "version" ms) >>= fun _ => _) = none
    iterate 5 refine Option.bind_eq_none_iff.2 fun _ _ => ?_
    exact congrArg (· >>= _) hmodules
  · rfl

/-- An index that is one document is not taken for a core index. -/
theorem SingleIndex.decode?_core (index : SingleIndex) : (Store.decode? (Store.encode index) : Option CoreIndex) = none := by
  have hread : Json.read? (toJson index).render = some (toJson index) := Json.read?_render (readsBack.counting index)
  rw [Store.decode?, Store.encode, fromUTF8?_toUTF8, Option.bind_some]
  change (Json.read? (toJson index).render).bind CoreIndex.ofJson? = none
  rw [hread, Option.bind_some]
  exact CoreIndex.ofJson?_of_lookup rfl

namespace Store

/-- The bytes of a document of some kind tell the document, and so they are the only ones that the program writes for
    it. -/
structure Faithful (α : Type) [Document α] : Prop where
  back : ∀ a : α, decode? (encode a) = some a
  rewritten : ∀ (bytes : ByteArray) (a b : α), bytes = encode a → decode? bytes = some b →
    encode b = bytes ∧ digest (encode b) = digest bytes
  injective : ∀ a b : α, encode a = encode b → a = b

theorem faithful_of_readsBack {α : Type} [Document α] (h : ReadsBack (Document.toJson (α := α)) Document.ofJson?) :
    Faithful α := by
  have hback : ∀ a : α, decode? (encode a) = some a := decode?_encode h
  refine ⟨hback, ?_, ?_⟩
  · rintro bytes a b rfl hread
    obtain rfl : a = b := Option.some.inj ((hback a).symm.trans hread)
    exact ⟨rfl, rfl⟩
  · intro a b heq
    have hread := congrArg (decode? (α := α)) heq
    rw [hback, hback] at hread
    exact Option.some.inj hread

/-- Every kind of document is read back from its bytes as it was, whatever texts and counts are in it. -/
theorem documents_faithful :
    Faithful CoreIndex ∧ Faithful Shard ∧ Faithful SingleIndex ∧ Faithful FileEntry ∧ Faithful Outline ∧
      Faithful Synopsis :=
  ⟨faithful_of_readsBack CoreIndex.readsBack, faithful_of_readsBack Shard.readsBack,
    faithful_of_readsBack SingleIndex.readsBack, faithful_of_readsBack FileEntry.readsBack,
    faithful_of_readsBack Outline.readsBack, faithful_of_readsBack Synopsis.readsBack⟩

end Store

end CodeIndex
