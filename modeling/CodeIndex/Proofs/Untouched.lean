import CodeIndex.Proofs.FailedUpdate
import CodeIndex.Proofs.Writing

set_option autoImplicit false

/-!
# What the other writes leave alone

The core index, the cache and the shards of other modules lie apart from the shards of an index, so that these
stay as they were written.
-/

namespace CodeIndex

open Action Store

namespace Store

variable {s : Store} {w w' : Workspace} {id : String}

/-- The file of a module's shard is told from its name. -/
theorem moduleOf?_json (h : ModuleId.isValid id = true) : moduleOf? (id ++ ".json") = some id := by
  have hne : id ≠ "" := by
    rintro rfl
    cases h
  have hcut : Text.cutLastIn '.' (id ++ ".json") = some (id, "json") := by
    have hchars : (id ++ ".json").toList = id.toList ++ '.' :: "json".toList := by simp
    rw [Text.cutLastIn, hchars, Text.cutLast_append (by decide)]
    simp
  rw [moduleOf?, Path.splitName, hcut]
  simp [hne]

/-! ## Stale shards -/

/-- A shard file of a module that is not kept. -/
def IsStale (s : Store) (keep : List String) (l : Location) : Prop :=
  ∃ file id, l = s.shardsPlace ++ [file] ∧ moduleOf? file = some id ∧ id ∉ keep

theorem forM_removeFile_changed {files : List String} {written : Location → Prop} {directory : Location}
    (hw : ∀ file ∈ files, written (directory ++ [file])) {path : String → String} {r : Except Failure PUnit}
    (h : (files.forM fun file => do
      orStorage (path file) (← tryChange (Disk.removeFile (directory ++ [file])))).exec w = (r, w')) :
    Changed written (fun _ => False) w w' := by
  induction files generalizing w with
  | nil =>
    cases h
    exact Changed.refl _ _ _
  | cons file rest ih =>
    have hstep : Changed written (fun _ => False) w
        { w with disk := ((Disk.removeFile (directory ++ [file])).run w.disk).2 } := by
      obtain ⟨hframe, hlater⟩ := frame_removeFile (l := directory ++ [file]) (d := w.disk)
      exact ⟨rfl, hframe.mono (fun l hl => hl ▸ hw file (by simp)) fun _ h => h, hlater⟩
    change ((tryChange (Disk.removeFile (directory ++ [file])) >>= fun r => orStorage (path file) r) >>= fun _ =>
      rest.forM fun file => do orStorage (path file) (← tryChange (Disk.removeFile (directory ++ [file])))).exec w = _ at h
    rw [exec_bind, exec_bind_of_ok (exec_tryChange _ _)] at h
    rcases hr : ((Disk.removeFile (directory ++ [file])).run w.disk).1 with e | u
    · rw [hr] at h
      cases h
      exact hstep
    · rw [hr] at h
      exact hstep.trans (ih (fun file hf => hw file (by simp [hf])) h)

section Absolute

variable (hs : Path.isAbsolute s.root = true)

include hs

theorem clearShards_changed {keep : List String} {r : Except Failure Nat}
    (h : (s.clearShards keep).exec w = (r, w')) : Changed (IsStale s keep) (fun _ => False) w w' := by
  unfold clearShards at h
  rw [exec_bind_of_ok (exec_locate _ _), resolve_shardDirectory hs, exec_bind_of_ok (exec_look _ _)] at h
  split at h
  · cases h
    exact Changed.refl _ _ _
  · cases h
    exact Changed.refl _ _ _
  · next found hfound =>
    rw [exec_bind] at h
    have hstale : ∀ file ∈ (found.map Prod.fst).filter fun file => (moduleOf? file).any fun id => !keep.contains id,
        IsStale s keep (s.shardsPlace ++ [file]) := by
      intro file hfile
      obtain ⟨-, hany⟩ := List.mem_filter.1 hfile
      obtain ⟨id, hid, hkeep⟩ := Option.any_eq_true .. |>.1 hany
      exact ⟨file, id, rfl, hid, by simpa using hkeep⟩
    split at h
    · next u w₁ hremoved =>
      cases h
      exact forM_removeFile_changed hstale hremoved
    · next e w₁ hremoved =>
      cases h
      exact forM_removeFile_changed hstale hremoved

end Absolute

/-! ## The cache -/

def cachePlace (s : Store) : Location := s.place ++ [OutlineCache.directory] ++ [OutlineCache.fileName]

theorem isName_cacheDirectory : Path.IsName OutlineCache.directory := ⟨by decide, by decide, by decide, by decide⟩

/-- Where a cache is kept in a project, however the directory of the project is given. -/
theorem beside_cacheIn (root : String) (here : Location) :
    Beside here (Path.join (Path.join root OutlineCache.directory) OutlineCache.fileName)
      (here.resolve root ++ [OutlineCache.directory]) OutlineCache.fileName := by
  have hbeside := @beside_join here (Path.join root OutlineCache.directory) OutlineCache.fileName
    (Path.join_ne_empty root (by decide)) ⟨by decide, by decide, by decide, by decide⟩
    ⟨by decide, by decide, by decide, by decide⟩
  rwa [Location.resolve_join_any here isName_cacheDirectory.isAbsolute, Location.resolve_of_isName isName_cacheDirectory]
    at hbeside

theorem beside_cachePath (hs : Path.isAbsolute s.root = true) (here : Location) :
    Beside here (Path.join (Path.join s.root OutlineCache.directory) OutlineCache.fileName)
      (s.place ++ [OutlineCache.directory]) OutlineCache.fileName := by
  have hbeside := beside_cacheIn s.root here
  rwa [resolve_root hs] at hbeside

theorem resolve_cachePath (hs : Path.isAbsolute s.root = true) (here : Location) :
    here.resolve (OutlineCache.pathIn s.root) = s.cachePlace :=
  (beside_cachePath hs here).place

theorem exec_loadCache (hs : Path.isAbsolute s.root = true) (w : Workspace) :
    (OutlineCache.load s.root).exec w = (.ok (OutlineCache.loaded w.disk s.root s.cachePlace), w) := by
  rw [OutlineCache.exec_load, resolve_cachePath hs]

theorem cacheBefore_eq (hs : Path.isAbsolute s.root = true) (w : Workspace) :
    Update.cacheBefore s.root w = OutlineCache.loaded w.disk s.root s.cachePlace := by
  rw [Update.cacheBefore, resolve_cachePath hs]

end Store

namespace OutlineCache

variable {c : OutlineCache} {path : String} {directory : Location} {name : String} {w w' : Workspace}

/-- A cache with nothing new is not written.  Any other is there afterwards, or what was there is and saving fails; nothing
    else changes but the directory. -/
theorem save_cases (hpath : c.path = some path) (hb : Beside w.here path directory name) {r : Except Failure OutlineCache}
    (h : c.save.exec w = (r, w')) :
    Changed (fun l => l = directory ++ [name] ∨ l = directory ++ [name ++ ".tmp"]) (· <+: directory) w w' ∧
      (c.isDirty = false ∧ r = .ok c ∧ w' = w ∨
        c.isDirty = true ∧ r = .ok { c with isDirty := false } ∧
          w'.disk.read (directory ++ [name]) = .ok (toJson c.entries).render.toUTF8 ∨
        (∃ f, r = .error f) ∧ w'.disk.access (directory ++ [name]) = w.disk.access (directory ++ [name])) := by
  unfold save at h
  rw [hpath] at h
  dsimp only at h
  by_cases hdirty : c.isDirty = true
  · have hparent : (directory ++ [name]).dropLast = directory := List.dropLast_concat
    simp only [hdirty, Bool.not_true, Bool.false_eq_true, if_false] at h
    rw [exec_bind_of_ok (exec_locate _ _), hb.place, hparent, exec_bind_of_ok (exec_tryChange _ _)] at h
    rcases hm : (Disk.makeDirectories directory).run w.disk with ⟨e | u, d⟩
    · rw [hm] at h
      cases h
      rw [Disk.makeDirectories_error hm]
      exact ⟨changed_counted _ _ w, .inr (.inr ⟨⟨_, rfl⟩, Disk.access_counted _ _⟩)⟩
    · obtain ⟨hopen, hframe, hlater⟩ := Disk.makeDirectories_ok hm
      have hplace : d.access (directory ++ [name]) = w.disk.access (directory ++ [name]) :=
        hframe.access_eq (fun _ => False.elim) (Disk.not_concat_le _ _)
      have hchanged : Changed (fun l => l = directory ++ [name] ∨ l = directory ++ [name ++ ".tmp"]) (· <+: directory) w
          { w with disk := d } := ⟨rfl, hframe.mono (fun _ => False.elim) fun _ h => h, hlater⟩
      have hb' : Beside { w with disk := d }.here path directory name := hb
      rw [hm] at h
      dsimp only at h
      rw [exec_bind] at h
      rcases hr : (Store.replaceFile path (toJson c.entries).render.toUTF8).exec { w with disk := d } with ⟨e | u, w₁⟩
      · rw [hr] at h
        cases h
        have hfailed := replaceFile_error hb' hr
        refine ⟨hchanged.trans (hfailed.mono (fun _ => .inr) fun _ => False.elim), .inr (.inr ⟨⟨_, rfl⟩, ?_⟩)⟩
        refine (hfailed.frame.access_of_isOpen hopen ?_ id).trans hplace
        simpa using ne_tmp name
      · rw [hr] at h
        cases h
        obtain ⟨⟨time, haccess⟩, -, hwritten⟩ := replaceFile_ok hb' hr
        exact ⟨hchanged.trans (hwritten.mono (fun _ h => h) fun _ => False.elim),
          .inr (.inl ⟨hdirty, by rw [hpath], Disk.read_of_access haccess⟩)⟩
  · rw [Bool.not_eq_true] at hdirty
    simp only [hdirty, Bool.not_false, if_true] at h
    cases h
    exact ⟨Changed.refl _ _ _, .inl ⟨hdirty, rfl, rfl⟩⟩

/-- A cache that is written is there afterwards, or the old one is; nothing else changes but the directory. -/
theorem save_spec (hpath : c.path = some path) (hb : Beside w.here path directory name) {r : Except Failure OutlineCache}
    (h : c.save.exec w = (r, w')) :
    Changed (fun l => l = directory ++ [name] ∨ l = directory ++ [name ++ ".tmp"]) (· <+: directory) w w' ∧
      (w'.disk.read (directory ++ [name]) = .ok (toJson c.entries).render.toUTF8 ∧ c.isDirty = true ∨
        w'.disk.access (directory ++ [name]) = w.disk.access (directory ++ [name])) := by
  obtain ⟨hchanged, ⟨-, -, rfl⟩ | ⟨hdirty, -, hwritten⟩ | ⟨-, hsame⟩⟩ := save_cases hpath hb h
  · exact ⟨hchanged, .inr rfl⟩
  · exact ⟨hchanged, .inl ⟨hwritten, hdirty⟩⟩
  · exact ⟨hchanged, .inr hsame⟩

theorem save_of_saveQuietly {r : Except Failure Unit} (h : c.saveQuietly.exec w = (r, w')) :
    ∃ r', c.save.exec w = (r', w') := by
  unfold saveQuietly at h
  rw [exec_bind, exec_attempt] at h
  rcases hsave : c.save.exec w with ⟨f | saved, w₁⟩
  · rw [hsave] at h
    dsimp only at h
    by_cases hf : f.cause = .unscannable
    · rw [if_pos hf] at h
      cases h
      exact ⟨_, rfl⟩
    · rw [if_neg hf] at h
      cases h
      exact ⟨_, rfl⟩
  · rw [hsave] at h
    cases h
    exact ⟨_, rfl⟩

end OutlineCache

/-! ## Documents that stay -/

namespace Update

variable {s : Store} {w w' : Workspace} {id : String}

/-- What is at the place of a document: the core index, or the shard of a module with a proper id. -/
inductive IsDocument (s : Store) : Location → Prop
  | core : IsDocument s s.corePlace
  | shard {id : String} (h : ModuleId.isValid id = true) : IsDocument s (s.shardPlace id)

theorem IsDocument.sheltered {d : Disk} {l : Location} (hd : d.IsOpen s.place) (h : IsDocument s l) : Sheltered s d l := by
  cases h with
  | core => exact sheltered_corePlace hd
  | shard h => exact sheltered_of_isValid hd h

theorem shardPlace_ne_corePlace (h : ModuleId.isValid id = true) : s.shardPlace id ≠ s.corePlace := by
  intro heq
  have hlen := congrArg List.length heq
  rw [shardPlace_of_isValid s h] at hlen
  simp [shardsPlace, corePlace] at hlen

section Absolute

variable (hs : Path.isAbsolute s.root = true)

include hs

theorem IsDocument.lastChar? {l : Location} (h : IsDocument s l) : l.lastChar? = some 'n' := by
  cases h with
  | core => exact lastChar?_corePlace s
  | shard h => exact lastChar?_shardPlace hs _

/-- The document at the place of the core index was written as a whole. -/
theorem replaceCore_ok {bytes : ByteArray} {u : Unit} (h : (replaceFile s.corePath bytes).exec w = (.ok u, w')) :
    w'.disk.read s.corePlace = .ok bytes ∧
      Changed (fun l => l = s.corePlace ∨ l = s.corePlace.aside) (fun _ => False) w w' := by
  obtain ⟨⟨time, haccess⟩, -, hchanged⟩ := replaceFile_ok (beside_corePath hs w.here) h
  rw [← Location.aside_concat] at hchanged
  exact ⟨Disk.read_of_access haccess, hchanged⟩

theorem writeCore_ok {core : CoreIndex} {u : Unit} (h : (s.writeCore core).exec w = (.ok u, w')) :
    w'.disk.read s.corePlace = .ok (encode core) ∧
      Changed (fun l => l = s.corePlace ∨ l = s.corePlace.aside) (fun _ => False) w w' := replaceCore_ok hs h

/-- Writing the core index leaves every shard as it is. -/
theorem access_of_writeCore (hopen : w.disk.IsOpen s.place)
    (hchanged : Changed (fun l => l = s.corePlace ∨ l = s.corePlace.aside) (fun _ => False) w w')
    (hid : ModuleId.isValid id = true) : w'.disk.access (s.shardPlace id) = w.disk.access (s.shardPlace id) := by
  have hplace : ¬ (s.shardPlace id = s.corePlace ∨ s.shardPlace id = s.corePlace.aside) := by
    rintro (heq | haside)
    · exact shardPlace_ne_corePlace hid heq
    · exact not_isAside_shardPlace hs id (haside ▸ isAside_aside _)
  have hshards : ¬ (s.shardsPlace = s.corePlace ∨ s.shardsPlace = s.corePlace.aside) := by
    rintro (heq | haside)
    · exact ne_of_lastChar? (lastChar?_shardsPlace s) (lastChar?_corePlace s) (by decide) heq
    · exact ne_of_lastChar? (lastChar?_shardsPlace s) (isAside_aside s.corePlace).lastChar? (by decide) haside
  exact (sheltered_of_isValid hopen hid).access_of_frame hchanged.frame hplace hshards not_false

theorem saved_of_writeCore {previous : Option ByteArray} (hopen : w.disk.IsOpen s.place)
    (hchanged : Changed (fun l => l = s.corePlace ∨ l = s.corePlace.aside) (fun _ => False) w w') (hid : ModuleId.isValid id = true)
    (h : Saved w.disk (s.shardPlace id) previous) : Saved w'.disk (s.shardPlace id) previous :=
  h.congr (access_of_writeCore hs hopen hchanged hid)

omit hs in
theorem saved_of_clearShards {keep : List String} {previous : Option ByteArray} (hopen : w.disk.IsOpen s.place)
    (hchanged : Changed (IsStale s keep) (fun _ => False) w w') (hid : ModuleId.isValid id = true) (hkeep : id ∈ keep)
    (h : Saved w.disk (s.shardPlace id) previous) : Saved w'.disk (s.shardPlace id) previous := by
  have hplace : ¬ IsStale s keep (s.shardPlace id) := by
    rintro ⟨file, other, heq, hother, hnot⟩
    rw [shardPlace_of_isValid s hid] at heq
    have hfile : id ++ ".json" = file := by simpa using (List.append_inj' heq rfl).2
    rw [← hfile, moduleOf?_json hid] at hother
    cases hother
    exact hnot hkeep
  have hshards : ¬ IsStale s keep s.shardsPlace := by
    rintro ⟨file, other, heq, -⟩
    simp at heq
  exact h.congr ((sheltered_of_isValid hopen hid).access_of_frame hchanged.frame hplace hshards not_false)

/-- Writing the cache leaves every document as it is. -/
theorem access_of_saveQuietly {c : OutlineCache}
    (hpath : c.path = some (Path.join (Path.join s.root OutlineCache.directory) OutlineCache.fileName))
    (hopen : w.disk.IsOpen s.place) {r : Except Failure Unit} (h : c.saveQuietly.exec w = (r, w')) {l : Location}
    (hl : IsDocument s l) : w'.disk.access l = w.disk.access l := by
  obtain ⟨r', hsave⟩ := OutlineCache.save_of_saveQuietly h
  obtain ⟨hchanged, -⟩ := OutlineCache.save_spec hpath (beside_cachePath hs w.here) hsave
  have hbelow : ∀ tail : List String, tail.head? ≠ some OutlineCache.directory →
      ¬ s.place ++ [OutlineCache.directory] <+: s.place ++ tail := by
    intro tail htail hprefix
    have hhead := (List.prefix_append_right_inj _).1 hprefix
    obtain ⟨rest, rfl⟩ := hhead
    exact htail rfl
  have hwritten : ∀ {l}, ¬ s.place ++ [OutlineCache.directory] <+: l →
      ¬ (l = s.place ++ [OutlineCache.directory] ++ [OutlineCache.fileName] ∨
        l = s.place ++ [OutlineCache.directory] ++ [OutlineCache.fileName ++ ".tmp"]) := by
    rintro l hprefix (rfl | rfl)
    · exact hprefix (List.prefix_append _ _)
    · exact hprefix (List.prefix_append _ _)
  have hshards : ¬ s.place ++ [OutlineCache.directory] <+: s.shardsPlace := hbelow [Shard.directory] (by decide)
  refine (hl.sheltered hopen).access_of_frame hchanged.frame (hwritten ?_) (hwritten hshards) ?_
  · cases hl with
    | core => exact hbelow [coreFile] (by decide)
    | @shard id hid =>
      rw [shardPlace_of_isValid s hid, shardsPlace, List.append_assoc]
      exact hbelow [Shard.directory, id ++ ".json"] (by simp [Shard.directory, OutlineCache.directory])
  · intro hmade
    have hlast := hl.lastChar? hs
    rcases List.prefix_concat_iff.1 hmade with heq | hprefix
    · have hdir := Location.lastChar?_concat s.place "" OutlineCache.directory (by decide)
      rw [String.empty_append] at hdir
      rw [heq] at hlast
      exact absurd (hlast.symm.trans hdir) (by decide)
    · have hlen := hprefix.length_le
      cases hl with
      | core =>
        simp only [corePlace, List.length_append, List.length_cons, List.length_nil] at hlen
        omega
      | shard hid =>
        rw [shardPlace_of_isValid s hid] at hlen
        simp only [shardsPlace, List.length_append, List.length_cons, List.length_nil] at hlen
        omega

end Absolute

end Update

end CodeIndex
