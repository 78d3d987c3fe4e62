import CodeIndex.Proofs.Analysis
import CodeIndex.Proofs.DocumentText
import CodeIndex.Proofs.Regrouping
import CodeIndex.Proofs.Untouched

set_option autoImplicit false

/-!
# An index on the disk

The index of a project is as an analysis makes it: the core index is there, and every module's shard is the one that
the analysis makes of its files.
-/

namespace CodeIndex

open Action Store Update Membership

theorem Analysis.modulesOf_core (a : Analysis) (root madeAt : String) (modules : ModuleMap) (hashes : Dict String)
    (source : FileSource) (layout : Option Layout) (settings : Settings) :
    modulesOf (a.core root madeAt modules hashes source layout settings) = modules := by
  refine Dict.ext_get? fun id => ?_
  rw [modulesOf, core, Dict.get?_map, Dict.get?_map]
  cases modules.get? id <;> rfl

/-- The shards are those that an analysis makes of the modules of a core index. -/
structure Sharded (s : Store) (d : Disk) (core : CoreIndex) (a : Analysis) : Prop where
  consistent : core.Consistent
  divides : (modulesOf core).Divides (modulesOf core).files
  critical : core.critical = a.docsOf .critical
  hashes : core.hashes = a.hashes (modulesOf core)
  shards : ∀ id ∈ (modulesOf core).keys, Saved d (s.shardPlace id) (a.bytesOf? (modulesOf core) id)

structure Holding (s : Store) (d : Disk) (core : CoreIndex) (a : Analysis) : Prop extends Sharded s d core a where
  read : d.read s.corePlace = .ok (encode core)
  version : core.version = CoreIndex.splitVersion

theorem mem_keys_modulesOf {core : CoreIndex} {id : String} : id ∈ (modulesOf core).keys ↔ id ∈ core.modules.keys := by
  rw [modulesOf, Dict.keys_map]

namespace Sharded

variable {s : Store} {d d' : Disk} {core : CoreIndex} {a : Analysis}

theorem of_core {modules : ModuleMap} {files : List String} (hm : modules.Divides files)
    (hshards : ∀ id ∈ modules.keys, Saved d (s.shardPlace id) (a.bytesOf? modules id)) (root madeAt : String)
    (source : FileSource) (layout : Option Layout) (settings : Settings) :
    Sharded s d (a.core root madeAt modules (a.hashes modules) source layout settings) a := by
  have hmodules := a.modulesOf_core root madeAt modules (a.hashes modules) source layout settings
  have hfiles : modules.Divides modules.files :=
    ⟨hm.toProper, fun {file} => ModuleMap.mem_files, hm.unique⟩
  refine ⟨Analysis.consistent_core hm a _ _ _ _ _ _, ?_, rfl, ?_, ?_⟩
  · rw [hmodules]
    exact hfiles
  · rw [hmodules]
    rfl
  · rw [hmodules]
    exact hshards

theorem isValid (h : Sharded s d core a) {id : String} (hid : id ∈ (modulesOf core).keys) :
    ModuleId.isValid id = true := by
  obtain ⟨group, hget⟩ := Dict.mem_keys.1 hid
  exact h.divides.valid hget

theorem read_shard (h : Sharded s d core a) {id : String} {files : List String}
    (hget : (modulesOf core).get? id = some files) : d.read (s.shardPlace id) = .ok (encode (a.shard id files)) := by
  have hsaved := h.shards id (Dict.mem_keys.2 ⟨files, hget⟩)
  rwa [Analysis.bytesOf?, hget] at hsaved

theorem intact (h : Sharded s d core a) : s.Intact core d := by
  refine ⟨CoreIndex.partitionProblems_eq_nil.2 h.consistent, .inr fun id hid => ?_, fun id expected hget => ?_⟩
  · rw [Dict.contains_iff_mem, h.hashes, Analysis.hashes, Dict.keys_map]
    exact mem_keys_modulesOf.2 hid
  · rw [h.hashes, Analysis.get?_hashes, Analysis.bytesOf?, Option.map_map, Option.map_eq_some_iff] at hget
    obtain ⟨files, hfiles, rfl⟩ := hget
    have hid : id ∈ (modulesOf core).keys := Dict.mem_keys.2 ⟨files, hfiles⟩
    exact ⟨Dict.contains_iff_mem.2 (mem_keys_modulesOf.1 hid), _, h.read_shard hfiles, rfl⟩

theorem congr (h : Sharded s d core a) (hshards : ∀ id ∈ (modulesOf core).keys,
    d'.read (s.shardPlace id) = d.read (s.shardPlace id)) : Sharded s d' core a := by
  refine ⟨h.consistent, h.divides, h.critical, h.hashes, fun id hid => ?_⟩
  obtain ⟨files, hget⟩ := Dict.mem_keys.1 hid
  rw [Analysis.bytesOf?, hget]
  exact (hshards id hid).trans (h.read_shard hget)

end Sharded

namespace Holding

variable {s : Store} {d d' : Disk} {core : CoreIndex} {a : Analysis} {w w' : Workspace}

theorem coreOn? (h : Holding s d core a) : s.coreOn? d = some core := by
  rw [Store.coreOn?, h.read]
  exact decode?_encode CoreIndex.readsBack core

theorem isOpen (h : Holding s d core a) : d.IsOpen s.place := by
  obtain ⟨time, haccess⟩ := Disk.access_of_read h.read
  exact Disk.isOpen_of_access_concat haccess

section Absolute

variable (hs : Path.isAbsolute s.root = true)

include hs

theorem of_saveQuietly (h : Holding s w.disk core a) {c : OutlineCache}
    (hpath : c.path = some (Path.join (Path.join s.root OutlineCache.directory) OutlineCache.fileName))
    {r : Except Failure Unit} (hsave : c.saveQuietly.exec w = (r, w')) : Holding s w'.disk core a := by
  have hkeeps : ∀ {l}, IsDocument s l → w'.disk.access l = w.disk.access l := fun hl =>
    access_of_saveQuietly hs hpath h.isOpen hsave hl
  exact ⟨h.toSharded.congr fun id hid => Disk.read_congr (hkeeps (.shard (h.isValid hid))),
    (Disk.read_congr (hkeeps .core)).trans h.read, h.version⟩

theorem exec_readCore (h : Holding s w.disk core a) : s.readCore.exec w = (.ok core, w) :=
  Store.exec_readCore hs h.read (decode?_encode CoreIndex.readsBack core) h.version

theorem exec_readShards (h : Holding s w.disk core a) :
    (readShards s core).exec w = (.ok ((modulesOf core).toList.map fun e => a.shard e.1 e.2), w) := by
  have hone : ∀ id ∈ core.modules.keys,
      (during ("Failed to load shard '" ++ id ++ "'") (s.readShard id)).exec w =
        (.ok (a.shard id (((modulesOf core).get? id).getD [])), w) := by
    intro id hid
    obtain ⟨files, hget⟩ := Dict.mem_keys.1 (mem_keys_modulesOf.2 hid)
    have hread := exec_readShard hs (h.read_shard hget) (decode?_encode Shard.readsBack (a.shard id files))
    rw [exec_during, hread, hget]
    rfl
  have hlist : core.modules.keys.map (fun id => a.shard id (((modulesOf core).get? id).getD [])) =
      (modulesOf core).toList.map fun e => a.shard e.1 e.2 := by
    have hkeys : core.modules.keys = (modulesOf core).toList.map Prod.fst := (Dict.keys_map _ core.modules).symm
    rw [hkeys, List.map_map]
    refine List.map_congr_left fun e he => ?_
    have hget := Dict.mem_toList'.1 he
    simp [hget]
  rw [readShards, exec_mapM hone, ← hlist]
  have hpure : ∀ ids : List String, ids.mapM (fun id =>
      (.ok (a.shard id (((modulesOf core).get? id).getD [])) : Except Failure Shard)) =
        .ok (ids.map fun id => a.shard id (((modulesOf core).get? id).getD [])) := by
    intro ids
    induction ids with
    | nil => rfl
    | cons id rest ih =>
      rw [List.mapM_cons, ih]
      rfl
  rw [hpure]

/-- An index as an analysis makes it is updated. -/
theorem exec_check (h : Holding s w.disk core a) (m : Maker) :
    (check m s.root core).exec w = (proceed m s.root core).exec w := by
  rcases Update.exec_check hs m core w with ⟨-, hbad⟩ | ⟨heq, -⟩
  · rcases hbad with hempty | hnot
    · rw [h.hashes, Analysis.hashes, Dict.isEmpty_map, modulesOf, Dict.isEmpty_map] at hempty
      simp at hempty
    · exact absurd h.intact hnot
  · exact heq

end Absolute

end Holding

end CodeIndex
