import CodeIndex.Migration
import CodeIndex.Proofs.Rollback

set_option autoImplicit false

/-!
# What is on the disk after documents were written

Builds, migrations and updates write shards one after another.  What each wrote is still there when all are written,
since shards with proper ids are at different places.
-/

namespace CodeIndex

open Action Store

namespace Analysis

/-- The bytes of a module's shard; there are none for a module that is not there. -/
def bytesOf? (a : Analysis) (modules : ModuleMap) (id : String) : Option ByteArray :=
  (modules.get? id).map fun files => encode (a.shard id files)

def hashes (a : Analysis) (modules : ModuleMap) : Dict String :=
  Dict.map (fun id files => digest (encode (a.shard id files))) modules

theorem get?_hashes (a : Analysis) (modules : ModuleMap) (id : String) :
    (a.hashes modules).get? id = (a.bytesOf? modules id).map digest := by
  rw [hashes, Dict.get?_map, bytesOf?, Option.map_map]
  rfl

end Analysis

namespace Update

variable {s : Store} {d d' : Disk} {l : Location} {w w₁ w' : Workspace} {id : String} {a : Analysis}
  {modules : ModuleMap} {ids : List String}

/-! ## Places of shards with proper ids -/

theorem shardPlace_inj {id id' : String} (h : ModuleId.isValid id = true) (h' : ModuleId.isValid id' = true)
    (heq : s.shardPlace id = s.shardPlace id') : id = id' := by
  rw [shardPlace_of_isValid s h, shardPlace_of_isValid s h'] at heq
  have hname : id ++ ".json" = id' ++ ".json" := by simpa using (List.append_inj' heq rfl).2
  have hchars := congrArg String.toList hname
  rw [String.toList_append, String.toList_append] at hchars
  exact String.toList_inj.1 (List.append_cancel_right hchars)

/-- Where a shard is there is the project's directory. -/
theorem isOpen_of_shard (h : ModuleId.isValid id = true) {bytes : ByteArray} (hr : d.read (s.shardPlace id) = .ok bytes) :
    d.IsOpen s.place := by
  obtain ⟨time, haccess⟩ := Disk.access_of_read hr
  rw [shardPlace_of_isValid s h] at haccess
  exact Disk.isOpen_above (Disk.isOpen_of_access_concat haccess) (List.prefix_append _ _) (by simp [shardsPlace])

/-! ## Shards as an analysis tells -/

/-- The shards of some modules were written, or removed, as an analysis and the modules tell. -/
structure Redone (s : Store) (a : Analysis) (modules : ModuleMap) (ids : List String) (w w' : Workspace) : Prop where
  changed : Changed (ShardFiles s ids) (· <+: s.shardsPlace) w w'
  saved : ∀ id ∈ ids, Saved w'.disk (s.shardPlace id) (a.bytesOf? modules id)

theorem Redone.nil (s : Store) (a : Analysis) (modules : ModuleMap) (w : Workspace) : Redone s a modules [] w w :=
  ⟨Changed.refl _ _ w, by simp⟩

section Absolute

variable (hs : Path.isAbsolute s.root = true)

include hs

theorem not_shardFiles_shardsPlace (ids : List String) : ¬ ShardFiles s ids s.shardsPlace :=
  fun h => not_writtenFor_shardsPlace hs ids h.writtenFor

/-- The shard of another module is not among the files of some. -/
theorem not_shardFiles (hid : ModuleId.isValid id = true) (hv : ∀ i ∈ ids, ModuleId.isValid i = true) (hnew : id ∉ ids) :
    ¬ ShardFiles s ids (s.shardPlace id) := by
  rintro ⟨i, hi, heq | haside⟩
  · exact hnew (shardPlace_inj hid (hv i hi) heq ▸ hi)
  · exact not_isAside_shardPlace hs id (haside ▸ isAside_aside _)

theorem Redone.cons (hv : ∀ i ∈ id :: ids, ModuleId.isValid i = true) (hnew : id ∉ ids) (hopen : w₁.disk.IsOpen s.place)
    (hchanged : Changed (ShardFiles s [id]) (· <+: s.shardsPlace) w w₁)
    (hsaved : Saved w₁.disk (s.shardPlace id) (a.bytesOf? modules id)) (h : Redone s a modules ids w₁ w') :
    Redone s a modules (id :: ids) w w' := by
  refine ⟨?_, fun i hi => ?_⟩
  · exact (hchanged.mono (fun l => ShardFiles.mono (by simp)) fun _ h => h).trans
      (h.changed.mono (fun l => ShardFiles.mono (by simp)) fun _ h => h)
  · rcases List.mem_cons.1 hi with rfl | hi
    · refine hsaved.congr ?_
      refine (sheltered_of_isValid hopen (hv i (by simp))).access_eq h.changed.frame ?_ (not_shardFiles_shardsPlace hs _)
      exact not_shardFiles hs (hv i (by simp)) (fun j hj => hv j (by simp [hj])) hnew
    · exact h.saved i hi

/-- A shard that was written is there, and its digest is the answer. -/
theorem writeShard_saved {files : List String} {hash : String} (hfiles : modules.get? id = some files)
    (h : (s.writeShard (a.shard id files)).exec w = (.ok hash, w')) :
    some hash = (a.bytesOf? modules id).map digest ∧ Saved w'.disk (s.shardPlace id) (a.bytesOf? modules id) ∧
      Changed (ShardFiles s [id]) (· <+: s.shardsPlace) w w' := by
  obtain ⟨rfl, ⟨time, haccess⟩, hchanged⟩ := writeShard_ok hs h
  rw [Analysis.bytesOf?, hfiles]
  exact ⟨rfl, Disk.read_of_access haccess, hchanged.mono (fun l hl => ⟨id, by simp, hl⟩) fun _ h => h⟩

theorem regenerate_ok {hashes hashes' : Dict String} (h : (regenerate s a modules hashes id).exec w = (.ok hashes', w')) :
    (∀ other, hashes'.get? other = if other = id then (a.bytesOf? modules id).map digest else hashes.get? other) ∧
      Saved w'.disk (s.shardPlace id) (a.bytesOf? modules id) := by
  unfold regenerate at h
  split at h
  · next files hfiles =>
    obtain ⟨hash, w₁, hw, h⟩ := ok_of_exec_bind h
    cases h
    obtain ⟨hhash, hsaved, -⟩ := writeShard_saved hs hfiles (ok_of_exec_during hw)
    refine ⟨fun other => ?_, hsaved⟩
    rw [Dict.get?_insert, hhash]
    simp only [eq_comm]
  · next hnone =>
    obtain ⟨u, w₁, hr, h⟩ := ok_of_exec_bind h
    cases h
    obtain ⟨habsent, -⟩ := removeShard_ok hs hr
    refine ⟨fun other => ?_, ?_⟩
    · rw [Dict.get?_erase, Analysis.bytesOf?, hnone]
      simp only [eq_comm, Option.map_none]
    · rw [Analysis.bytesOf?, hnone]
      exact Disk.read_eq_absent.2 habsent

theorem rollBack_throw {α : Type} {backups : Backups} {f : Failure} {r : Except Failure α}
    (h : (do rollBack s backups; throw f : Action α).exec w = (r, w')) : r = .error f := by
  obtain ⟨w₁, hexec, -⟩ := exec_forM_putBack hs backups.toList w
  have hroll : (rollBack s backups).exec w = (.ok (), w₁) := hexec
  rw [exec_bind_of_ok hroll] at h
  cases h
  rfl

theorem regenerateAll_error (ids : List String) {hashes : Dict String} {backups : Backups} {f : Failure}
    (h : (regenerateAll s a modules ids hashes backups).exec w = (.error f, w')) : f.IsStorage := by
  induction ids generalizing w hashes backups with
  | nil => cases h
  | cons id rest ih =>
    rcases regenerateAll_cases hs h with ⟨f₁, hstorage, hback⟩ | ⟨previous, -, ⟨f₁, w₁, hstorage, -, hback⟩ | ⟨hashes₁, w₁, -, h⟩⟩
    · cases rollBack_throw hs hback
      exact hstorage
    · cases rollBack_throw hs hback
      exact hstorage
    · exact ih h

/-- After an update's shards all that it wrote is there, and the digests are those of the new shards. -/
theorem regenerateAll_ok (ids : List String) {hashes hashes' : Dict String} {backups backups' : Backups}
    (hv : ∀ id ∈ ids, ModuleId.isValid id = true) (hn : ids.Nodup) (hopen : w.disk.IsOpen s.place)
    (h : (regenerateAll s a modules ids hashes backups).exec w = (.ok (hashes', backups'), w')) :
    Redone s a modules ids w w' ∧
      ∀ id, hashes'.get? id = if id ∈ ids then (a.bytesOf? modules id).map digest else hashes.get? id := by
  induction ids generalizing w hashes backups with
  | nil =>
    cases h
    exact ⟨Redone.nil s a modules _, by simp⟩
  | cons id rest ih =>
    obtain ⟨hnew, hrest⟩ := List.nodup_cons.1 hn
    rcases regenerateAll_cases hs h with ⟨f, -, hback⟩ | ⟨previous, -, ⟨f, w₁, -, -, hback⟩ | ⟨hashes₁, w₁, hr, h⟩⟩
    · cases rollBack_throw hs hback
    · cases rollBack_throw hs hback
    · obtain ⟨hchanged, -⟩ := regenerate_changed hs hr
      obtain ⟨hget, hsaved⟩ := regenerate_ok hs hr
      have hopen₁ := hchanged.frame.isOpen hopen
      obtain ⟨hredone, hget'⟩ := ih (fun i hi => hv i (by simp [hi])) hrest hopen₁ h
      refine ⟨Redone.cons hs hv hnew hopen₁ hchanged hsaved hredone, fun other => ?_⟩
      rw [hget']
      by_cases ho : other = id
      · subst ho
        simp [hnew, hget]
      · simp [ho, hget]

/-- The shard of a module is written, and its digest answered with its id. -/
theorem writeNamed_ok {files : List String} (hfiles : modules.get? id = some files)
    (hid : ModuleId.isValid id = true) {found : String × String}
    (h : (do
      let hash ← during ("Failed to write shard '" ++ id ++ "'") (s.writeShard (a.shard id files))
      return (id, hash)).exec w = (.ok found, w')) :
    found = (id, digest (encode (a.shard id files))) ∧ Saved w'.disk (s.shardPlace id) (a.bytesOf? modules id) ∧
      Changed (ShardFiles s [id]) (· <+: s.shardsPlace) w w' ∧ w'.disk.IsOpen s.place := by
  obtain ⟨hash, w₁, hw, h⟩ := ok_of_exec_bind h
  cases h
  obtain ⟨hhash, hsaved, hchanged⟩ := writeShard_saved hs hfiles (ok_of_exec_during hw)
  have hread := hsaved
  rw [Analysis.bytesOf?, hfiles] at hhash hread
  cases hhash
  exact ⟨rfl, hsaved, hchanged, isOpen_of_shard hid hread⟩

theorem mapM_redone {step : String × List String → Action (String × String)} {entries : List (String × List String)}
    (hstep : ∀ e ∈ entries, ∀ {w found w'}, (step e).exec w = (.ok found, w') →
      found = (e.1, digest (encode (a.shard e.1 e.2))) ∧ Saved w'.disk (s.shardPlace e.1) (a.bytesOf? modules e.1) ∧
        Changed (ShardFiles s [e.1]) (· <+: s.shardsPlace) w w' ∧ w'.disk.IsOpen s.place)
    (hv : ∀ id ∈ entries.map Prod.fst, ModuleId.isValid id = true) (hn : (entries.map Prod.fst).Nodup) {found : List (String × String)}
    (h : (entries.mapM step).exec w = (.ok found, w')) :
    Redone s a modules (entries.map Prod.fst) w w' ∧
      found = entries.map fun e => (e.1, digest (encode (a.shard e.1 e.2))) := by
  induction entries generalizing w found with
  | nil =>
    cases h
    exact ⟨Redone.nil s a modules _, rfl⟩
  | cons e rest ih =>
    obtain ⟨hnew, hrest⟩ := List.nodup_cons.1 hn
    rw [List.mapM_cons] at h
    obtain ⟨named, w₁, hw, h⟩ := ok_of_exec_bind h
    obtain ⟨found₁, w₂, hm, h⟩ := ok_of_exec_bind h
    cases h
    obtain ⟨rfl, hsaved, hchanged, hopen⟩ := hstep e (by simp) hw
    obtain ⟨hredone, rfl⟩ := ih (fun e he => hstep e (by simp [he]))
      (fun id hid => hv id (List.mem_cons_of_mem _ hid)) hrest hm
    exact ⟨Redone.cons hs hv hnew hopen hchanged hsaved hredone, rfl⟩

/-- A build writes the shard of every module. -/
theorem writeShards_ok (hm : modules.Proper) {hashes : Dict String} (h : (Maker.writeShards s modules a).exec w = (.ok hashes, w')) :
    Redone s a modules modules.keys w w' ∧ hashes = a.hashes modules := by
  have hvalid : ∀ id ∈ modules.keys, ModuleId.isValid id = true := fun id hid => by
    obtain ⟨group, hget⟩ := Dict.mem_keys.1 hid
    exact hm.valid hget
  unfold Maker.writeShards at h
  obtain ⟨found, w₁, hfound, h⟩ := ok_of_exec_bind h
  cases h
  obtain ⟨hredone, rfl⟩ := mapM_redone hs (fun e he => writeNamed_ok hs (Dict.mem_toList'.1 he)
    (hm.valid (Dict.mem_toList'.1 he))) hvalid modules.nodup_keys hfound
  exact ⟨hredone, (a.hashes modules).ofList_toList⟩

theorem migration_writeShards_ok {entries : List (String × List String)}
    (hmem : ∀ e ∈ entries, modules.get? e.1 = some e.2) (hv : ∀ id ∈ entries.map Prod.fst, ModuleId.isValid id = true)
    (hn : (entries.map Prod.fst).Nodup) {hashes hashes' : Dict String}
    (h : (Migration.writeShards s a entries hashes).exec w = (.ok (hashes', none), w')) :
    Redone s a modules (entries.map Prod.fst) w w' ∧
      hashes' = hashes.insertAll (entries.map fun e => (e.1, digest (encode (a.shard e.1 e.2)))) := by
  induction entries generalizing w hashes with
  | nil =>
    cases h
    exact ⟨Redone.nil s a modules _, rfl⟩
  | cons e rest ih =>
    obtain ⟨hnew, hrest⟩ := List.nodup_cons.1 hn
    have hget : modules.get? e.1 = some e.2 := hmem e (by simp)
    unfold Migration.writeShards at h
    rw [exec_bind, exec_attempt, exec_during] at h
    rcases hw : (s.writeShard (a.shard e.1 e.2)).exec w with ⟨f | hash, w₁⟩
    · obtain ⟨-, path, reason, rfl⟩ := writeShard_error hs hw
      rw [hw] at h
      simp only [Failure.ofFault, Failure.within, reduceCtorEq, if_false] at h
      cases h
    · rw [hw] at h
      obtain ⟨hhash, hsaved, hchanged⟩ := writeShard_saved hs hget hw
      obtain ⟨hredone, rfl⟩ := ih (fun e he => hmem e (by simp [he])) (fun id hid => hv id (List.mem_cons_of_mem _ hid))
        hrest h
      have hread := hsaved
      rw [Analysis.bytesOf?, hget] at hhash hread
      refine ⟨Redone.cons hs hv hnew (isOpen_of_shard (hv e.1 (by simp)) hread) hchanged hsaved hredone, ?_⟩
      cases hhash
      rfl

end Absolute

end Update

end CodeIndex
