import CodeIndex.Listing
import CodeIndex.Reading
import CodeIndex.Synopsis

set_option autoImplicit false

/-!
# Builds

A build analyses every file of a project and writes the index anew: shards first, then the core index, which
alone says what belongs to the index.  An outline that the cache holds for a file in its present state is not
read again.
-/

namespace CodeIndex

/-- What decides how an index is made. -/
structure Maker where
  settings : Settings
  /-- Outlines are read; without that every source file is only listed. -/
  readsOutlines : Bool

namespace Maker

open Action

def ofSettings (settings : Settings) : Maker := ⟨settings, true⟩

/-- The tiers as they are set, or the built-in ones when the settings hold no proper patterns. -/
def tiers (m : Maker) : TierRules :=
  match TierRules.ofPatterns m.settings.tierPatterns with
  | .ok rules => rules
  | .error _ => .builtin

/-- What became of one file. -/
inductive Examined where
  | documentation (tier : DocTier) (synopsis : Synopsis)
  | outline (outline : Outline) (key : Option String)
  /-- It can be listed only. -/
  | listed
  /-- It can be listed only, because it could not be read. -/
  | unreadable

/-- Reads a source file and its outline. -/
def examineSource (path : String) (language : Language) (key : Option String) : Action Examined := do
  let place ← locate path
  match ← look fun d => d.readText place with
  | none => return .unreadable
  | some text =>
    match Reading.ofText language text with
    | .outline o => return .outline o key
    | .unsupported => return .listed
    | .unscannable => throw ⟨[], .unscannable⟩

/-- Examines one file of a project. -/
def examine (m : Maker) (cache : OutlineCache) (root file : String) (language : Language) : Action Examined := do
  let path := Path.join root file
  if language.isDocumentation then
    let place ← locate path
    let text ← look fun d => d.readText place
    return .documentation (m.tiers.tierOf file) ((text.map Synopsis.ofText).getD .empty)
  else if !m.readsOutlines then return .listed
  else
    let key ← OutlineCache.key? path
    match key.bind cache.entries.get? with
    | some o => return .outline o none
    | none => examineSource path language key

/-- Adds what is known about a file. -/
def record (a : Analysis) (file : String) (language : Language) (commit : Option Commit) : Examined → Analysis
  | .documentation tier synopsis =>
    { a with
      docs := a.docs.insert file (tier, synopsis)
      details := a.details.insert file ⟨language, {}, false, commit⟩ }
  | .outline o _ => { a with details := a.details.insert file ⟨language, o, false, commit⟩ }
  | .listed => { a with details := a.details.insert file { FileEntry.listed language with commit := commit } }
  | .unreadable =>
    { a with
      skipped := a.skipped + 1
      details := a.details.insert file { FileEntry.listed language with commit := commit } }

/-- Keeps an outline that was read just now. -/
def remember (cache : OutlineCache) : Examined → OutlineCache
  | .outline o (some key) => cache.put key o
  | _ => cache

/-- Analyses some files, and adds to the cache what had to be read. -/
def analyse (m : Maker) (root : String) (files : List String) (cache : OutlineCache) (commits : Dict Commit) :
    Action (Analysis × OutlineCache) := do
  let examined ← files.filterMapM fun file =>
    match Language.ofPath? file with
    | none => return none
    | some language => return some (file, language, ← m.examine cache root file language)
  return examined.foldl
    (fun (a, c) (file, language, e) => (record a file language (commits.get? file) e, remember c e))
    (Analysis.empty, cache)

/-- The directory of a project from the top; it must be there. -/
def resolveRoot (root : String) : Action String := do
  let place ← locate root
  match ← look fun d => d.access place with
  | .error e => throw ⟨["Cannot access project root " ++ root], .other e.reason⟩
  | .ok (.file _ _) =>
    throw ⟨["Cannot read project root " ++ place.toPath], .other DiskError.notDirectory.reason⟩
  | .ok .directory => return place.toPath

/-- Writes one shard for each module, and answers with their digests. -/
def writeShards (store : Store) (modules : ModuleMap) (a : Analysis) : Action (Dict String) := do
  let hashes ← modules.toList.mapM fun (id, files) => do
    let hash ← during ("Failed to write shard '" ++ id ++ "'") (store.writeShard (a.shard id files))
    return (id, hash)
  return Dict.ofList hashes

/-- What a build works from: the files, where their list came from, and their analysis. -/
def survey (m : Maker) (root : String) :
    Action (List String × FileSource × Analysis × OutlineCache) := do
  let (files, source) ← Listing.files m.settings root
  let cache ← OutlineCache.load root
  let commits ← Listing.commits m.settings source
  let (a, cache) ← m.analyse root files cache commits
  return (files, source, a, cache)

/-- Builds an index with shards, or with none if the settings say so. -/
def build (m : Maker) (root : String) : Action (CoreIndex × Nat) := do
  let root ← resolveRoot root
  let (files, source, a, cache) ← m.survey root
  let layout := Layout.detect? files
  let modules := (m.settings.splitting layout).modules files
  let store : Store := ⟨root⟩
  let hashes ←
    if m.settings.skipDetails then do
      let _ ← during "Failed to remove old detail shards" (store.clearShards [])
      pure {}
    else do
      let hashes ← writeShards store modules a
      let _ ← during "Failed to remove stale shards" (store.clearShards modules.keys)
      pure hashes
  let core := a.core (Path.displayName root) (← get).now modules hashes source layout m.settings
  during "Failed to write core index" (store.writeCore core)
  cache.saveQuietly
  return (core, a.skipped)

/-- Builds the index as one document, and removes shards that are left from before. -/
def buildSingle (m : Maker) (root : String) : Action (SingleIndex × Nat) := do
  let root ← resolveRoot root
  let (files, source, a, cache) ← m.survey root
  let index := a.single (Path.displayName root) (← get).now files source (Layout.detect? files) m.settings
  let store : Store := ⟨root⟩
  during "Failed to write legacy index" (store.writeSingle index)
  if ← Store.isPresent store.shardDirectory then
    let _ ← store.clearShards []
    let directory ← locate store.shardDirectory
    let _ ← tryChange (Disk.removeDirectory directory)
  cache.saveQuietly
  return (index, a.skipped)

end Maker

end CodeIndex
