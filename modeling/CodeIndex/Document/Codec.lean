import CodeIndex.Document
import CodeIndex.Json.Record

set_option autoImplicit false

/-!
# Documents as JSON

Every document has a writer and a reader.  Empty optional fields are not written and read back as empty;
an absent map and an empty one stay apart where the document keeps them apart.
-/

namespace CodeIndex

open Json

namespace Callable

def toJson (c : Callable) : Json := .object <|
  [("line", ofCount c.line), ("signature", .string c.signature)]
    ++ memberIf (!c.calls.isEmpty) "calls" (ofNames c.calls)
    ++ memberOf "doc" .string c.doc

def ofJson? (j : Json) : Option Callable := do
  let [line, signature, calls, doc] ← fields? ["line", "signature", "calls", "doc"] j | none
  return {
    line := ← required asCount? line
    signature := ← required asString? signature
    calls := ← orElse [] names? calls
    doc := ← optional asString? doc }

end Callable

namespace TypeOutline

def toJson (t : TypeOutline) : Json := .object <|
  [("line", ofCount t.line)]
    ++ memberIf (!t.bases.isEmpty) "bases" (ofNames t.bases)
    ++ memberIf (!t.methods.isEmpty) "methods" (ofDict Callable.toJson t.methods)
    ++ memberOf "doc" .string t.doc

def ofJson? (j : Json) : Option TypeOutline := do
  let [line, bases, methods, doc] ← fields? ["line", "bases", "methods", "doc"] j | none
  return {
    line := ← required asCount? line
    bases := ← orElse [] names? bases
    methods := ← orElse {} (dictOf? Callable.ofJson?) methods
    doc := ← optional asString? doc }

end TypeOutline

namespace Outline

def toMembers (o : Outline) : List (String × Json) :=
  memberIf (!o.functions.isEmpty) "functions" (ofDict Callable.toJson o.functions)
    ++ memberIf (!o.types.isEmpty) "classes" (ofDict TypeOutline.toJson o.types)
    ++ memberIf (!o.imports.isEmpty) "imports" (ofNames o.imports)

def toJson (o : Outline) : Json := .object o.toMembers

def ofFields? (functions types imports : Option Json) : Option Outline := do
  return {
    functions := ← orElse {} (dictOf? Callable.ofJson?) functions
    types := ← orElse {} (dictOf? TypeOutline.ofJson?) types
    imports := ← orElse [] names? imports }

def ofJson? (j : Json) : Option Outline := do
  let [functions, types, imports] ← fields? ["functions", "classes", "imports"] j | none
  ofFields? functions types imports

end Outline

namespace Commit

def toJson (c : Commit) : Json := .object
  [("commit", .string c.id), ("author", .string c.author), ("date", .string c.date)]

def ofJson? (j : Json) : Option Commit := do
  let [id, author, date] ← fields? ["commit", "author", "date"] j | none
  return {
    id := ← required asString? id
    author := ← required asString? author
    date := ← required asString? date }

end Commit

def Language.ofJson? : Json → Option Language := choice? Language.ofName?

def FileSource.ofJson? : Json → Option FileSource := choice? FileSource.ofName?

namespace FileEntry

/-- The outline's members stand beside the entry's own. -/
def toJson (f : FileEntry) : Json := .object <|
  [("lang", .string f.language.name)]
    ++ f.outline.toMembers
    ++ memberIf f.listedOnly "listed_only" (.bool true)
    ++ memberOf "git" Commit.toJson f.commit

def ofJson? (j : Json) : Option FileEntry := do
  let [lang, functions, types, imports, listedOnly, commit] ←
    namedFields? ["lang", "functions", "classes", "imports", "listed_only", "git"] j | none
  return {
    language := ← required Language.ofJson? lang
    outline := ← Outline.ofFields? functions types imports
    listedOnly := ← orElse false asBool? listedOnly
    commit := ← optional Commit.ofJson? commit }

end FileEntry

namespace Synopsis

def toJson (s : Synopsis) : Json := .object <|
  memberOf "title" .string s.title ++ memberIf (!s.headings.isEmpty) "headings" (ofNames s.headings)

def ofJson? (j : Json) : Option Synopsis := do
  let [title, headings] ← fields? ["title", "headings"] j | none
  return {
    title := ← optional asString? title
    headings := ← orElse [] names? headings }

end Synopsis

namespace Stats

def toJson (s : Stats) : Json := .object <|
  [("total_files", ofCount s.totalFiles), ("total_dirs", ofCount s.totalDirs),
    ("files_by_language", ofDict ofCount s.filesByLanguage),
    ("doc_tiers", ofDict ofCount s.docTiers),
    ("file_source", .string s.fileSource.name), ("listed_only", ofCount s.listedOnly)]
    ++ memberOf "framework" .string s.framework

def ofJson? (j : Json) : Option Stats := do
  let [totalFiles, totalDirs, byLanguage, docTiers, source, listedOnly, framework] ←
    fields? ["total_files", "total_dirs", "files_by_language", "doc_tiers", "file_source",
      "listed_only", "framework"] j | none
  return {
    totalFiles := ← required asCount? totalFiles
    totalDirs := ← required asCount? totalDirs
    filesByLanguage := ← required (dictOf? asCount?) byLanguage
    docTiers := ← required (dictOf? asCount?) docTiers
    fileSource := ← required FileSource.ofJson? source
    listedOnly := ← orElse 0 asCount? listedOnly
    framework := ← optional asString? framework }

end Stats

namespace ModuleEntry

def toJson (m : ModuleEntry) : Json := .object
  [("file_count", ofCount m.fileCount), ("function_count", ofCount m.callableCount),
    ("detail_path", .string m.detailPath), ("files", ofNames m.files)]

def ofJson? (j : Json) : Option ModuleEntry := do
  let [fileCount, callableCount, detailPath, files] ←
    fields? ["file_count", "function_count", "detail_path", "files"] j | none
  return {
    fileCount := ← required asCount? fileCount
    callableCount := ← required asCount? callableCount
    detailPath := ← required asString? detailPath
    files := ← required names? files }

end ModuleEntry

def synopsesToJson (docs : Dict Synopsis) : Json := ofDict Synopsis.toJson docs

def synopses? : Json → Option (Dict Synopsis) := dictOf? Synopsis.ofJson?

def edgesToJson (edges : List CallEdge) : Json :=
  .array (edges.map fun (caller, callee) => .array [.string caller, .string callee])

def edges? : Json → Option (List CallEdge) := listOf? pair?

namespace CoreIndex

def toJson (c : CoreIndex) : Json := .object <|
  [("version", .string c.version), ("at", .string c.madeAt), ("root", .string c.root),
    ("tree", ofNames c.tree), ("stats", c.stats.toJson),
    ("modules", ofDict ModuleEntry.toJson c.modules),
    ("file_to_module_map", ofDict .string c.moduleOfFile),
    ("module_hashes", ofDict .string c.hashes), ("d_critical", synopsesToJson c.critical)]
    ++ memberOf "d_standard" synopsesToJson c.standard
    ++ memberOf "d_archive" synopsesToJson c.archive
    ++ memberIf (!c.priorityModules.isEmpty) "priority_modules" (ofNames c.priorityModules)

def ofJson? (j : Json) : Option CoreIndex := do
  let [version, madeAt, root, tree, stats, modules, moduleOfFile, hashes, critical, standard,
      archive, priority] ←
    fields? ["version", "at", "root", "tree", "stats", "modules", "file_to_module_map",
      "module_hashes", "d_critical", "d_standard", "d_archive", "priority_modules"] j | none
  return {
    version := ← required asString? version
    madeAt := ← required asString? madeAt
    root := ← required asString? root
    tree := ← required names? tree
    stats := ← required Stats.ofJson? stats
    modules := ← required (dictOf? ModuleEntry.ofJson?) modules
    moduleOfFile := ← orElse {} (dictOf? asString?) moduleOfFile
    hashes := ← orElse {} (dictOf? asString?) hashes
    critical := ← orElse {} synopses? critical
    standard := ← optional synopses? standard
    archive := ← optional synopses? archive
    priorityModules := ← orElse [] names? priority }

end CoreIndex

namespace Shard

def toJson (s : Shard) : Json := .object <|
  [("module_id", .string s.moduleId), ("version", .string s.version),
    ("files", ofDict FileEntry.toJson s.files), ("call_graph_local", edgesToJson s.localCalls)]
    ++ memberIf (!s.externalCalls.isEmpty) "call_graph_external" (edgesToJson s.externalCalls)
    ++ memberIf (!s.standard.isEmpty) "doc_standard" (synopsesToJson s.standard)
    ++ memberIf (!s.archive.isEmpty) "doc_archive" (synopsesToJson s.archive)

def ofJson? (j : Json) : Option Shard := do
  let [moduleId, version, files, localCalls, externalCalls, standard, archive] ←
    fields? ["module_id", "version", "files", "call_graph_local", "call_graph_external",
      "doc_standard", "doc_archive"] j | none
  return {
    moduleId := ← required asString? moduleId
    version := ← required asString? version
    files := ← required (dictOf? FileEntry.ofJson?) files
    localCalls := ← orElse [] edges? localCalls
    externalCalls := ← orElse [] edges? externalCalls
    standard := ← orElse {} synopses? standard
    archive := ← orElse {} synopses? archive }

end Shard

namespace SingleIndex

def docsToJson (docs : PerTier (Option (Dict Synopsis))) : Json :=
  .object (docs.toList.flatMap fun (tier, found) => memberOf tier.name synopsesToJson found)

/-- Every key must be the name of a tier; a later equal one replaces an earlier one. -/
def docs? : Json → Option (PerTier (Option (Dict Synopsis)))
  | .object members => members.foldlM (fun docs m => do
      let tier ← DocTier.ofName? m.1
      let found ← synopses? m.2
      return docs.set (some found) tier) (PerTier.all none)
  | _ => none

def toJson (s : SingleIndex) : Json := .object
  [("version", .string s.version), ("at", .string s.madeAt), ("root", .string s.root),
    ("tree", ofNames s.tree), ("stats", s.stats.toJson),
    ("files", ofDict FileEntry.toJson s.files), ("call_graph", edgesToJson s.calls),
    ("docs", docsToJson s.docs)]

def ofJson? (j : Json) : Option SingleIndex := do
  let [version, madeAt, root, tree, stats, files, calls, docs] ←
    fields? ["version", "at", "root", "tree", "stats", "files", "call_graph", "docs"] j | none
  return {
    version := ← required asString? version
    madeAt := ← required asString? madeAt
    root := ← required asString? root
    tree := ← required names? tree
    stats := ← required Stats.ofJson? stats
    files := ← required (dictOf? FileEntry.ofJson?) files
    calls := ← orElse [] edges? calls
    docs := ← orElse (PerTier.all none) docs? docs }

end SingleIndex

/-- What a kind of document needs: a writer and a reader. -/
class Document (α : Type) where
  toJson : α → Json
  ofJson? : Json → Option α

namespace Document

instance : Document Outline := ⟨Outline.toJson, Outline.ofJson?⟩
instance : Document FileEntry := ⟨FileEntry.toJson, FileEntry.ofJson?⟩
instance : Document Synopsis := ⟨Synopsis.toJson, Synopsis.ofJson?⟩
instance : Document CoreIndex := ⟨CoreIndex.toJson, CoreIndex.ofJson?⟩
instance : Document Shard := ⟨Shard.toJson, Shard.ofJson?⟩
instance : Document SingleIndex := ⟨SingleIndex.toJson, SingleIndex.ofJson?⟩

variable {α : Type} [Document α]

/-- The compact text of a document. -/
def write (a : α) : String := (toJson a).render

def read? (text : String) : Option α := (Json.read? text).bind ofJson?

end Document

end CodeIndex
