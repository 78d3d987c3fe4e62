import CodeIndex.Proofs.MigrationMatches

set_option autoImplicit false

/-!
# Migrations that fail

A migration writes a backup, then shards, then the core index.  When one of the last two fails, the document and the
directory for shards are put back: of what the migration wrote, the backup alone is left.
-/

namespace CodeIndex

open Action Store Update

namespace Disk

variable {d d' : Disk} {l : Location} {name : String} {e : DiskError} {u : Unit}

theorem removeTree_error (h : (removeTree l).run d = (.error e, d')) :
    d' = d.counted ∧ (e = .absent → d.access l = .error .absent) := by
  obtain ⟨hd, hor⟩ := change_error h
  refine ⟨hd, ?_⟩
  rintro rfl
  rcases hor with hr | hf
  · cases hr
  · split at hf
    · next ha =>
      cases hf
      exact ha
    · cases hf

theorem removeTree_ok (h : (removeTree (l ++ [name])).run d = (.ok u, d')) :
    d'.access (l ++ [name]) = .error .absent ∧ ∀ x, ¬ l ++ [name] <+: x → d'.access x = d.access x := by
  obtain ⟨d₁, hf, rfl⟩ := change_ok h
  split at hf
  · cases hf
  · next node ha =>
    cases hf
    exact ⟨access_erase_self (isOpen_of_access_concat ha), fun x hx => access_erase_elsewhere d (by simp) hx⟩

end Disk

variable {s : Store} {m : Maker} {w w' : Workspace} {document : ByteArray} {ids : List String} {f : Failure} {u : Unit}

namespace Store

def backupPlace (s : Store) : Location := s.place ++ [backupFile]

theorem beside_backupPath (hs : Path.isAbsolute s.root = true) (here : Location) :
    Beside here s.backupPath s.place backupFile :=
  beside_of_isName hs here ⟨by decide, by decide, by decide, by decide⟩ ⟨by decide, by decide, by decide, by decide⟩

end Store

namespace Migration

/-! ## Putting back -/

section Absolute

variable (hs : Path.isAbsolute s.root = true)

include hs

omit hs in
theorem not_writtenFor_corePlace (hv : ∀ id ∈ ids, ModuleId.isValid id = true) : ¬ WrittenFor s ids s.corePlace := by
  rintro (⟨id, hid, heq⟩ | haside)
  · exact shardPlace_ne_corePlace (hv id hid) heq.symm
  · exact ne_of_lastChar? (lastChar?_corePlace s) haside.lastChar? (by decide) rfl

theorem not_writtenFor_shardPlace {id : String} (hid : ModuleId.isValid id = true)
    (hv : ∀ i ∈ ids, ModuleId.isValid i = true) (hnew : id ∉ ids) : ¬ WrittenFor s ids (s.shardPlace id) := by
  rintro (⟨i, hi, heq⟩ | haside)
  · exact hnew (shardPlace_inj hid (hv i hi) heq ▸ hi)
  · exact not_isAside_shardPlace hs id haside

theorem exec_removeShards (w : Workspace) :
    (removeShards s).exec w = match (Disk.removeTree s.shardsPlace).run w.disk with
      | (.ok _, d) => (.ok (), { w with disk := d })
      | (.error .absent, d) => (.ok (), { w with disk := d })
      | (.error e, d) =>
        (.error (Failure.ofFault (.storage s.shardDirectory e.reason)), { w with disk := d }) := by
  unfold removeShards
  rw [exec_bind_of_ok (exec_locate _ _), resolve_shardDirectory hs, exec_bind_of_ok (exec_tryChange _ _)]
  rcases (Disk.removeTree s.shardsPlace).run w.disk with ⟨e | _, d⟩
  · cases e <;> rfl
  · rfl

theorem removeShards_error (h : (removeShards s).exec w = (.error f, w')) :
    w'.unrestored = w.unrestored ∧ f.cause ≠ .unscannable := by
  rw [exec_removeShards hs] at h
  split at h
  · cases h
  · cases h
  · cases h
    exact ⟨rfl, by simp [Failure.ofFault]⟩

/-- Where the shards were there is nothing then, and everything else is as it was. -/
theorem removeShards_ok (h : (removeShards s).exec w = (.ok u, w')) :
    w'.disk.access s.shardsPlace = .error .absent ∧
      (∀ x, ¬ s.shardsPlace <+: x → w'.disk.access x = w.disk.access x) ∧ w'.unrestored = w.unrestored := by
  rw [exec_removeShards hs] at h
  split at h
  · next d hr =>
    cases h
    obtain ⟨habsent, helse⟩ := Disk.removeTree_ok hr
    exact ⟨habsent, helse, rfl⟩
  · next d hr =>
    cases h
    obtain ⟨rfl, habsent⟩ := Disk.removeTree_error hr
    exact ⟨(Disk.access_counted w.disk _).trans (habsent rfl), fun x _ => Disk.access_counted w.disk x, rfl⟩
  · cases h

omit hs in
theorem removeAll_eq (s : Store) (ids : List String) : (ids.forM fun id => orNote id (s.removeShard id)) =
    (ids.map fun id => (id, (none : Option ByteArray))).forM fun e => putBack s e.1 e.2 := by
  induction ids with
  | nil => rfl
  | cons id rest ih => exact congrArg (orNote id (s.removeShard id) >>= fun _ => ·) ih

/-- The shards that were written are removed, and where nothing is noted none of them is left. -/
theorem exec_removeAll (hv : ∀ id ∈ ids, ModuleId.isValid id = true) (hn : ids.Nodup) (w : Workspace) :
    ∃ w', (ids.forM fun id => orNote id (s.removeShard id)).exec w = (.ok (), w') ∧
      w.unrestored.length ≤ w'.unrestored.length ∧
      (w'.unrestored = w.unrestored → w.disk.IsOpen s.place →
        Changed (WrittenFor s ids) (· <+: s.shardsPlace) w w' ∧
          ∀ id ∈ ids, w'.disk.access (s.shardPlace id) = .error .absent) := by
  obtain ⟨w', hexec, hle, hspec⟩ := exec_forM_putBack hs (ids.map fun id => (id, none)) w
  rw [removeAll_eq]
  refine ⟨w', hexec, hle, fun hsame hopen => ?_⟩
  have hkeys : (ids.map fun id => (id, (none : Option ByteArray))).map Prod.fst = ids := by simp [Function.comp_def]
  rw [hkeys] at hspec
  have hplaces : (ids.map fun id => (id, (none : Option ByteArray))).Pairwise fun a b => s.shardPlace a.1 ≠ s.shardPlace b.1 := by
    refine List.pairwise_map.2 (hn.imp_of_mem fun {a b} ha hb hne heq => ?_)
    exact hne (shardPlace_inj (hv a ha) (hv b hb) heq)
  have hsheltered : ∀ e ∈ ids.map fun id => (id, (none : Option ByteArray)), Sheltered s w.disk (s.shardPlace e.1) := by
    intro e he
    obtain ⟨id, hid, rfl⟩ := List.mem_map.1 he
    exact sheltered_of_isValid hopen (hv id hid)
  obtain ⟨hchanged, hsaved⟩ := hspec hsame hplaces hsheltered
  exact ⟨hchanged, fun id hid => Disk.read_eq_absent.1 (hsaved (id, none) (List.mem_map_of_mem hid))⟩

/-- The directory of the shards is removed where there was none. -/
theorem exec_removeNew (hadDirectory : Bool) (w : Workspace) :
    ∃ w', (if !hadDirectory then orNote Shard.directory (removeShards s) else pure () : Action Unit).exec w = (.ok (), w') ∧
      w.unrestored.length ≤ w'.unrestored.length ∧
      (w'.unrestored.length ≤ w.unrestored.length → w'.unrestored = w.unrestored ∧
        (∀ x, ¬ s.shardsPlace <+: x → w'.disk.access x = w.disk.access x) ∧
        if hadDirectory then w' = w else w'.disk.access s.shardsPlace = .error .absent) := by
  cases hadDirectory with
  | true => exact ⟨w, rfl, Nat.le_refl _, fun _ => ⟨rfl, fun _ _ => rfl, rfl⟩⟩
  | false =>
    obtain ⟨w', hexec, hok | hnoted⟩ := exec_orNote (w := w) Shard.directory fun _ _ => removeShards_error hs
    · obtain ⟨habsent, helse, hsame⟩ := removeShards_ok hs hok
      exact ⟨w', hexec, by rw [hsame], fun _ => ⟨hsame, helse, habsent⟩⟩
    · exact ⟨w', hexec, by simp [hnoted], fun hle => absurd hle (by simp [hnoted])⟩

theorem exec_putDocument (document : ByteArray) (w : Workspace) :
    ∃ w', (orNote coreFile (replaceFile s.corePath document)).exec w = (.ok (), w') ∧
      w.unrestored.length ≤ w'.unrestored.length ∧
      (w'.unrestored.length ≤ w.unrestored.length → w'.disk.read s.corePlace = .ok document ∧
        Changed (fun l => l = s.corePlace ∨ l = s.corePlace.aside) (fun _ => False) w w') := by
  obtain ⟨w', hexec, hok | hnoted⟩ := exec_orNote (w := w) coreFile fun f w' h => by
    obtain ⟨path, reason, rfl⟩ := replaceFile_fault h
    exact ⟨(replaceFile_error (beside_corePath hs w.here) h).unrestored_eq, by simp [Failure.ofFault]⟩
  · obtain ⟨hread, hchanged⟩ := replaceCore_ok hs hok
    exact ⟨w', hexec, by rw [hchanged.unrestored_eq], fun _ => ⟨hread, hchanged⟩⟩
  · exact ⟨w', hexec, by simp [hnoted], fun hle => absurd hle (by simp [hnoted])⟩

/-- The document and the places of shards after a migration was taken back. -/
structure PutBack (s : Store) (document : ByteArray) (ids : List String) (hadDirectory : Bool) (w w' : Workspace) : Prop where
  document : w'.disk.read s.corePlace = .ok document
  shards : ∀ {id}, ModuleId.isValid id = true → w'.disk.access (s.shardPlace id) = .error .absent ∨
    id ∉ ids ∧ w'.disk.access (s.shardPlace id) = w.disk.access (s.shardPlace id)
  directory : hadDirectory = false → w'.disk.access s.shardsPlace = .error .absent

/-- Where nothing is noted, all is put back. -/
theorem exec_restore (document : ByteArray) (hv : ∀ id ∈ ids, ModuleId.isValid id = true) (hn : ids.Nodup) (hopen : w.disk.IsOpen s.place)
    (hadDirectory : Bool) :
    ∃ w', (restore s document ids hadDirectory).exec w = (.ok (), w') ∧
      (w'.unrestored = w.unrestored → PutBack s document ids hadDirectory w w') := by
  obtain ⟨w₁, hput, hle₁, hdocument⟩ := exec_putDocument hs document w
  obtain ⟨w₂, hremove, hle₂, hshards⟩ := exec_removeAll hs hv hn w₁
  obtain ⟨w₃, hnew, hle₃, hdirectory⟩ := exec_removeNew hs hadDirectory w₂
  refine ⟨w₃, ?_, fun hsame => ?_⟩
  · unfold restore
    rw [exec_bind_of_ok hput, exec_bind_of_ok hremove]
    exact hnew
  -- notes are only added, so none was made at any of the three steps
  have hlength := congrArg List.length hsame
  obtain ⟨hread, hchanged₁⟩ := hdocument (by omega)
  obtain ⟨hsame₃, helse, hdirectory⟩ := hdirectory (by omega)
  have hopen₁ := hchanged₁.frame.isOpen hopen
  obtain ⟨hchanged₂, habsent⟩ := hshards (hsame₃.symm.trans (hsame.trans hchanged₁.unrestored_eq.symm)) hopen₁
  refine ⟨?_, fun {id} hid => ?_, fun hhad => by simpa [hhad] using hdirectory⟩
  · rw [← hread]
    refine Disk.read_congr ((helse _ (not_shardsPlace_le_corePlace)).trans ?_)
    exact (sheltered_corePlace hopen₁).access_eq hchanged₂.frame (not_writtenFor_corePlace hv)
      (not_writtenFor_shardsPlace hs ids)
  · cases hadDirectory with
    | false =>
      have hbelow : s.shardsPlace <+: s.shardPlace id := by
        rw [shardPlace_of_isValid s hid]
        exact List.prefix_append _ _
      exact .inl (Disk.access_error_below (by simpa using hdirectory) hbelow)
    | true =>
      obtain rfl : w₃ = w₂ := by simpa using hdirectory
      by_cases hmem : id ∈ ids
      · exact .inl (habsent id hmem)
      · refine .inr ⟨hmem, ?_⟩
        rw [← access_of_writeCore hs hopen hchanged₁ hid]
        exact (sheltered_of_isValid hopen₁ hid).access_eq hchanged₂.frame (not_writtenFor_shardPlace hs hid hv hmem)
          (not_writtenFor_shardsPlace hs ids)

/-! ## Conversions that fail -/

/-- Of the shards that were written the digests are known, also when one could not be written. -/
theorem exec_writeShards {a : Analysis} (entries : List (String × List String)) (hashes : Dict String) (w : Workspace) :
    ∃ hashes' failure w', (writeShards s a entries hashes).exec w = (.ok (hashes', failure), w') ∧
      hashes.keys ⊆ hashes'.keys ∧ hashes'.keys ⊆ hashes.keys ++ entries.map Prod.fst ∧
      Changed (WrittenFor s hashes'.keys) (· <+: s.shardsPlace) w w' := by
  induction entries generalizing hashes w with
  | nil => exact ⟨hashes, none, w, rfl, List.Subset.refl _, by simp, Changed.refl _ _ w⟩
  | cons e rest ih =>
    rcases hw : (s.writeShard (a.shard e.1 e.2)).exec w with ⟨f | hash, w₁⟩
    · obtain ⟨hchanged, path, reason, rfl⟩ := writeShard_error hs hw
      have hexec : ∃ g, (writeShards s a (e :: rest) hashes).exec w = (.ok (hashes, some g), w₁) := by
        unfold writeShards
        rw [exec_bind, exec_attempt, exec_during, hw]
        exact ⟨_, rfl⟩
      obtain ⟨g, hexec⟩ := hexec
      refine ⟨hashes, some g, w₁, hexec, List.Subset.refl _, by simp, ?_⟩
      exact hchanged.mono (fun l hl => .inr (hl ▸ isAside_aside _)) fun _ => id
    · obtain ⟨-, -, hchanged⟩ := writeShard_ok hs hw
      obtain ⟨hashes', failure, w', hexec, hsub, hsub', hchanged'⟩ := ih (hashes.insert e.1 hash) w₁
      have hkeys : ∀ id, id ∈ (hashes.insert e.1 hash).keys ↔ id = e.1 ∨ id ∈ hashes.keys := fun id =>
        Membership.mem_keys_insert
      have hstep : (writeShards s a (e :: rest) hashes).exec w = (.ok (hashes', failure), w') := by
        rw [writeShards, exec_bind, exec_attempt, exec_during, hw]
        exact hexec
      refine ⟨hashes', failure, w', hstep, fun id hid => hsub ((hkeys id).2 (.inr hid)), fun id hid => ?_, ?_⟩
      · rcases List.mem_append.1 (hsub' hid) with hold | hrest
        · rcases (hkeys id).1 hold with rfl | hold
          · simp
          · exact List.mem_append_left _ hold
        · exact List.mem_append_right _ (List.mem_cons_of_mem _ hrest)
      · refine Changed.trans (hchanged.mono (fun l hl => ?_) fun _ => id) hchanged'
        rcases hl with hl | hl
        · exact .inl ⟨e.1, hsub ((hkeys _).2 (.inl rfl)), hl⟩
        · exact .inr (hl ▸ isAside_aside _)

/-- A conversion that fails has written shards, and then puts everything back. -/
theorem convert_error {single : SingleIndex} (hopen : w.disk.IsOpen s.place)
    (h : (convert m s single document).exec w = (.error f, w')) :
    ∃ ids w₁, (∀ id ∈ ids, ModuleId.isValid id = true) ∧ Changed (WrittenFor s ids) (· <+: s.shardsPlace) w w₁ ∧
      (w'.unrestored = w₁.unrestored → PutBack s document ids (w.disk.holds s.shardsPlace) w₁ w') := by
  have hdivides := m.divides_division (Analysis.ofSingle single).files
  obtain ⟨hashes, failure, w₁, hshards, -, hkeys, hchanged⟩ := exec_writeShards hs (a := .ofSingle single)
    (m.division (Analysis.ofSingle single).files).toList {} w
  have hv : ∀ id ∈ hashes.keys, ModuleId.isValid id = true := fun id hid =>
    isValid_keys hdivides.toProper id (hkeys hid)
  have hback : ∀ {w₂ : Workspace} {g : Failure} {r : Except Failure CoreIndex},
      Changed (WrittenFor s hashes.keys) (· <+: s.shardsPlace) w w₂ →
      (do restore s document hashes.keys (w.disk.holds s.shardsPlace); throw g : Action CoreIndex).exec w₂ = (r, w') →
      w'.unrestored = w₂.unrestored → PutBack s document hashes.keys (w.disk.holds s.shardsPlace) w₂ w' := by
    intro w₂ g r hchanged₂ hrest
    obtain ⟨w₃, hrestore, hputBack⟩ := exec_restore hs document hv hashes.nodup_keys
      (hchanged₂.frame.isOpen hopen) (w.disk.holds s.shardsPlace)
    rw [exec_bind_of_ok hrestore] at hrest
    cases hrest
    exact hputBack
  rw [convert_eq, exec_bind_of_ok (exec_isPresent _ _), resolve_shardDirectory hs, exec_bind_of_ok hshards] at h
  cases failure with
  | some g => exact ⟨hashes.keys, w₁, hv, hchanged, hback hchanged h⟩
  | none =>
    obtain ⟨-, rfl, hsharded⟩ := writeShards_converted hs hshards
    have hcore : { converted m s single with
        hashes := (Analysis.ofSingle single).hashes (m.division (Analysis.ofSingle single).files) } =
          converted m s single := rfl
    dsimp only at h
    rw [hcore, exec_bind, exec_attempt, (exec_settle hs hsharded rfl).1, exec_during] at h
    rcases hwrite : (s.writeCore (converted m s single)).exec w₁ with ⟨g | u, w₂⟩
    · obtain ⟨path, reason, rfl⟩ := replaceFile_fault hwrite
      have hchanged₂ := hchanged.trans ((replaceFile_error (beside_corePath hs w₁.here) hwrite).mono
        (fun l hl => .inr ⟨_, _, hl⟩) fun _ => False.elim)
      rw [hwrite] at h
      exact ⟨_, w₂, hv, hchanged₂, hback hchanged₂ h⟩
    · rw [hwrite] at h
      cases h

/-! ## The backup -/

/-- Where a backup is written. -/
def IsBackup (s : Store) (l : Location) : Prop := l = s.backupPlace ∨ l = s.backupPlace.aside

omit hs in
theorem not_isBackup {name : String} (hne : name ≠ backupFile) (haside : name ≠ backupFile ++ ".tmp") :
    ¬ IsBackup s (s.place ++ [name]) := by
  rw [IsBackup, backupPlace, Location.aside_concat, List.append_cancel_left_eq, List.append_cancel_left_eq]
  rintro (heq | heq)
  · exact hne (List.cons.inj heq).1
  · exact haside (List.cons.inj heq).1

omit hs in
theorem not_isBackup_shardPlace {id : String} (hid : ModuleId.isValid id = true) : ¬ IsBackup s (s.shardPlace id) := by
  have hlength : ∀ {l}, IsBackup s l → l.length = s.place.length + 1 := by
    rintro l (rfl | rfl)
    · simp [backupPlace]
    · simp [backupPlace, Location.aside_concat]
  intro h
  have := hlength h
  rw [shardPlace_of_isValid s hid] at this
  simp [shardsPlace] at this

theorem backup_ok (h : (replaceFile s.backupPath document).exec w = (.ok u, w')) :
    w'.disk.read s.backupPlace = .ok document ∧ Changed (IsBackup s) (fun _ => False) w w' := by
  obtain ⟨⟨time, haccess⟩, -, hchanged⟩ := replaceFile_ok (beside_backupPath hs w.here) h
  rw [← Location.aside_concat] at hchanged
  exact ⟨Disk.read_of_access haccess, hchanged⟩

theorem backup_error (h : (replaceFile s.backupPath document).exec w = (.error f, w')) :
    Changed (IsBackup s) (fun _ => False) w w' := by
  have hchanged := replaceFile_error (beside_backupPath hs w.here) h
  rw [← Location.aside_concat] at hchanged
  exact hchanged.mono (fun l hl => .inr hl) fun _ => id

/-- The document is there as before, no shard that was not, and no directory for shards unless there was one. -/
structure Undone (s : Store) (w w' : Workspace) : Prop where
  document : w'.disk.read s.corePlace = w.disk.read s.corePlace
  shards : ∀ {id}, ModuleId.isValid id = true → w'.disk.access (s.shardPlace id) = .error .absent ∨
    w'.disk.access (s.shardPlace id) = w.disk.access (s.shardPlace id)
  directory : w.disk.holds s.shardsPlace = false → w'.disk.holds s.shardsPlace = false

omit hs in
theorem Undone.refl (s : Store) (w : Workspace) : Undone s w w := ⟨rfl, fun _ => .inr rfl, id⟩

omit hs in
/-- A backup changes nothing that matters when a migration is undone. -/
theorem Undone.of_backup {w₁ : Workspace} (hopen : w.disk.IsOpen s.place) (hbackup : Changed (IsBackup s) (fun _ => False) w w₁)
    (h : Undone s w₁ w') : Undone s w w' := by
  have hbeside : ∀ {name : String}, name ≠ backupFile → name ≠ backupFile ++ ".tmp" →
      w₁.disk.access (s.place ++ [name]) = w.disk.access (s.place ++ [name]) := fun hne haside =>
    hbackup.frame.access_of_isOpen hopen (not_isBackup hne haside) id
  have hshardsPlace : ¬ IsBackup s s.shardsPlace := not_isBackup (by decide) (by decide)
  refine ⟨?_, fun {id} hid => ?_, fun hholds => h.directory ?_⟩
  · exact h.document.trans (Disk.read_congr (hbeside (by decide) (by decide)))
  · have hshard : w₁.disk.access (s.shardPlace id) = w.disk.access (s.shardPlace id) :=
      (sheltered_of_isValid hopen hid).access_of_frame hbackup.frame (not_isBackup_shardPlace hid) hshardsPlace not_false
    rw [← hshard]
    exact h.shards hid
  · have hsame : w₁.disk.access s.shardsPlace = w.disk.access s.shardsPlace := hbeside (by decide) (by decide)
    rw [Disk.holds] at hholds ⊢
    rw [hsame]
    exact hholds

/-- A conversion that fails is undone, where nothing is noted. -/
theorem undone_of_convert {single : SingleIndex} (hread : w.disk.read s.corePlace = .ok document)
    (h : (convert m s single document).exec w = (.error f, w')) (hsame : w'.unrestored = w.unrestored) : Undone s w w' := by
  obtain ⟨time, haccess⟩ := Disk.access_of_read hread
  have hopen : w.disk.IsOpen s.place := Disk.isOpen_of_access_concat haccess
  obtain ⟨ids, w₁, hv, hchanged, hback⟩ := convert_error hs hopen h
  have hputBack := hback (hsame.trans hchanged.unrestored_eq.symm)
  refine ⟨hputBack.document.trans hread.symm, fun {id} hid => ?_, fun hholds => ?_⟩
  · refine (hputBack.shards hid).imp_right fun ⟨hnew, heq⟩ => heq.trans ?_
    exact (sheltered_of_isValid hopen hid).access_eq hchanged.frame (not_writtenFor_shardPlace hs hid hv hnew)
      (not_writtenFor_shardsPlace hs ids)
  · rw [Disk.holds, hputBack.directory hholds]

end Absolute

/-! ## Conversions that succeed -/

theorem length_of_shardFiles {l : Location} (hv : ∀ id ∈ ids, ModuleId.isValid id = true) (h : ShardFiles s ids l) :
    l.length = s.place.length + 2 := by
  obtain ⟨id, hid, rfl | rfl⟩ := h
  · simp [shardPlace_of_isValid s (hv id hid), shardsPlace]
  · rw [shardPlace_of_isValid s (hv id hid), Location.aside_concat]
    simp [shardsPlace]

/-- The backup is not touched any more. -/
theorem read_backup_of_convert (hs : Path.isAbsolute s.root = true) {single : SingleIndex} {core : CoreIndex} {bytes : ByteArray}
    (hread : w.disk.read s.backupPlace = .ok bytes) (h : (convert m s single document).exec w = (.ok core, w')) :
    w'.disk.read s.backupPlace = .ok bytes := by
  obtain ⟨time, haccess⟩ := Disk.access_of_read hread
  obtain ⟨rfl, hashes, w₁, hshards, hwrite⟩ := (convert_ok hs).1 h
  have hv := isValid_keys (m.divides_division (Analysis.ofSingle single).files).toProper
  have hchanged := (writeShards_converted hs hshards).1.changed
  have hchanged' := (writeCore_ok hs hwrite).2
  have haccess₁ := hchanged.frame.access_of_ok haccess (fun hfiles => ?_) fun hle => ?_
  · refine Disk.read_of_access (hchanged'.frame.access_of_ok haccess₁ ?_ id)
    rw [backupPlace, corePlace, Location.aside_concat, List.append_cancel_left_eq, List.append_cancel_left_eq]
    decide
  · have := length_of_shardFiles hv hfiles
    simp [backupPlace] at this
  · have heq := hle.eq_of_length (by simp [backupPlace, shardsPlace])
    rw [backupPlace, shardsPlace, List.append_cancel_left_eq] at heq
    exact absurd heq (by decide)

end Migration

namespace Analysis

theorem contains_addDocs {a : Analysis} {tier : DocTier} {docs : Dict Synopsis} {path : String} :
    (a.addDocs tier docs).details.contains path = true ↔ a.details.contains path = true ∨ docs.contains path = true := by
  have hdocs : docs.contains path = true ↔ ∃ e ∈ docs.toList, e.1 = path := by
    rw [Dict.contains_iff_mem, Dict.keys, List.mem_map]
    rfl
  rw [hdocs]
  unfold addDocs
  generalize docs.toList = entries
  induction entries generalizing a with
  | nil => simp
  | cons e rest ih =>
    refine ih.trans ?_
    rw [List.exists_mem_cons_iff, ← or_assoc]
    refine or_congr_left ?_
    by_cases hthere : a.details.contains e.1 = true
    · simp only [hthere, if_true]
      refine ⟨.inl, ?_⟩
      rintro (h | rfl)
      · exact h
      · exact hthere
    · simp only [hthere, Bool.false_eq_true, if_false, Dict.contains_iff_mem, Update.Membership.mem_keys_insert]
      rw [or_comm, eq_comm]

/-- The files of a document are those with an entry and those with documentation of some tier. -/
theorem mem_files_ofSingle {single : SingleIndex} {path : String} : path ∈ (ofSingle single).files ↔
    single.files.contains path = true ∨ ∃ tier docs, single.docs.get tier = some docs ∧ docs.contains path = true := by
  have htier : ∀ tier, (((single.docs.get tier).getD {}).contains path = true) ↔
      ∃ docs, single.docs.get tier = some docs ∧ docs.contains path = true := by
    intro tier
    cases single.docs.get tier with
    | none => simp [Dict.contains]
    | some docs => simp
  have hfold : (ofSingle single).details.contains path = true ↔ single.files.contains path = true ∨
      ((single.docs.get .critical).getD {}).contains path = true ∨ ((single.docs.get .standard).getD {}).contains path = true ∨
        ((single.docs.get .archive).getD {}).contains path = true := by
    change ((((({ empty with details := single.files } : Analysis).addDocs .critical _).addDocs .standard _).addDocs .archive
      _).details.contains path = true) ↔ _
    rw [contains_addDocs, contains_addDocs, contains_addDocs, or_assoc, or_assoc]
  rw [files, ← Dict.contains_iff_mem, hfold, htier, htier, htier]
  refine or_congr_right ⟨?_, ?_⟩
  · rintro (h | h | h)
    · exact ⟨.critical, h⟩
    · exact ⟨.standard, h⟩
    · exact ⟨.archive, h⟩
  · rintro ⟨tier, h⟩
    cases tier with
    | critical => exact .inl h
    | standard => exact .inr (.inl h)
    | archive => exact .inr (.inr h)

end Analysis

namespace Migration

/-- Every file of a document is in one module of the index that the document comes to. -/
theorem owned_of_converted (m : Maker) (s : Store) {single : SingleIndex} {path : String}
    (h : path ∈ (Analysis.ofSingle single).files) :
    ∃! id, ∃ entry, (converted m s single).modules.get? id = some entry ∧ path ∈ entry.files := by
  have hdivides := m.divides_division (Analysis.ofSingle single).files
  have hentry : ∀ id, (∃ entry, (converted m s single).modules.get? id = some entry ∧ path ∈ entry.files) ↔
      (m.division (Analysis.ofSingle single).files).Holds id path := by
    intro id
    change (∃ entry, (Dict.map (fun id files => (Analysis.ofSingle single).moduleEntry id files)
      (m.division (Analysis.ofSingle single).files)).get? id = some entry ∧ path ∈ entry.files) ↔ _
    rw [Dict.get?_map, ModuleMap.Holds]
    cases (m.division (Analysis.ofSingle single).files).get? id <;> simp [Analysis.moduleEntry]
  obtain ⟨id, hid⟩ := hdivides.mem_iff.1 h
  simp only [hentry]
  exact ⟨id, hid, fun id' hid' => hdivides.unique hid' hid⟩

/-- A migration is all or nothing.  One that fails leaves the document and the places of shards as they were, but for
    shards that it had already replaced; one that succeeds leaves a backup, and an intact index in which every file of
    the document has its module; and where there is an index with shards already, nothing happens. -/
theorem all_or_nothing (m : Maker) (root : String) (w w' : Workspace) (r : Except Failure MigrationOutcome)
    (h : (run m root).exec w = (r, w')) :
    (∀ f, r = .error f → w'.unrestored = w.unrestored → Undone (w.store root) w w') ∧
    (∀ core, r = .ok (.migrated core) → ∃ document single, Found (w.store root) w document single ∧
      w'.disk.read (w.store root).backupPlace = .ok document ∧ (w.store root).readCore.exec w' = (.ok core, w') ∧
      (w.store root).isIntact.exec w' = (.ok true, w') ∧
      ∀ path, (single.files.contains path = true ∨
          ∃ tier docs, single.docs.get tier = some docs ∧ docs.contains path = true) →
        ∃! id, ∃ entry, core.modules.get? id = some entry ∧ path ∈ entry.files) ∧
    (r = .ok .alreadySplit → w' = w) := by
  have hs := w.isAbsolute_store root
  have hcourse := course h
  generalize w.store root = s at hs hcourse ⊢
  cases hcourse with
  | refused g =>
    refine ⟨?_, ?_, ?_⟩
    · exact fun _ _ _ => Undone.refl s w
    · rintro core ⟨⟩
    · rintro ⟨⟩
  | alreadySplit =>
    refine ⟨?_, ?_, fun _ => rfl⟩
    · rintro f ⟨⟩
    · rintro core ⟨⟩
  | @unsaved document single g w' found backup g' =>
    obtain ⟨time, haccess⟩ := Disk.access_of_read found.read
    have hopen : w.disk.IsOpen s.place := Disk.isOpen_of_access_concat haccess
    refine ⟨?_, ?_, ?_⟩
    · exact fun _ _ _ => (Undone.refl s w').of_backup hopen (backup_error hs backup)
    · rintro core ⟨⟩
    · rintro ⟨⟩
  | @failed document single g w₁ w' found backup conversion =>
    obtain ⟨time, haccess⟩ := Disk.access_of_read found.read
    have hopen : w.disk.IsOpen s.place := Disk.isOpen_of_access_concat haccess
    obtain ⟨-, hchanged⟩ := backup_ok hs backup
    have hread : w₁.disk.read s.corePlace = .ok document := by
      rw [← found.read]
      exact Disk.read_congr (hchanged.frame.access_of_isOpen hopen (not_isBackup (by decide) (by decide)) id)
    refine ⟨fun _ _ hsame => ?_, ?_, ?_⟩
    · exact (undone_of_convert hs hread conversion (hsame.trans hchanged.unrestored_eq.symm)).of_backup hopen hchanged
    · rintro core ⟨⟩
    · rintro ⟨⟩
  | @done document single core w₁ w' found backup conversion =>
    obtain ⟨hread, -⟩ := backup_ok hs backup
    have hholding := holding_of_convert hs conversion
    refine ⟨?_, ?_, ?_⟩
    · rintro f ⟨⟩
    · rintro core ⟨⟩
      refine ⟨document, single, found, read_backup_of_convert hs hread conversion, hholding.exec_readCore hs,
        exec_isIntact hs hholding, fun path hpath => ?_⟩
      obtain ⟨rfl, -⟩ := (convert_ok hs).1 conversion
      exact owned_of_converted m s (Analysis.mem_files_ofSingle.2 hpath)
    · rintro ⟨⟩

/-- The document of two files, which lie in different directories. -/
def twoFiles : SingleIndex :=
  Analysis.single ⟨Dict.ofList [("a/x.md", .listed .markdown), ("b/y.md", .listed .markdown)], {}, 0⟩ "demo"
    "2026-01-01T00:00:00Z" [] .walk none .default

/-- A project with that document, on a disk that refuses to write the second shard. -/
def refusing : Workspace where
  disk := ⟨[(["demo"], .directory), (["demo", "PROJECT_INDEX.json"], .file (encode twoFiles) 1)], 2, 0, [5]⟩
  here := ["demo"]
  history := fun _ => .missing
  asked := []
  now := "2026-01-01T00:00:00Z"
  unrestored := []

theorem all_or_nothing_refusing : ∃ f w', (run (Maker.ofSettings .default) ".").exec refusing = (.error f, w') ∧
    Undone (refusing.store ".") refusing w' := by
  have hleads : refusing.Leads "." ⟨"/demo"⟩ := ⟨by decide +kernel, by decide +kernel⟩
  have hread : refusing.disk.read (corePlace ⟨"/demo"⟩) = .ok (encode twoFiles) := by
    have hdemo : place ⟨"/demo"⟩ = ["demo"] := by decide +kernel
    rw [corePlace, hdemo]
    rfl
  have hfails : endsFailed (fun w => w.unrestored.isEmpty) ((do
        during "Failed to write migration backup" (replaceFile (backupPath ⟨"/demo"⟩) (encode twoFiles))
        return .migrated (← convert (Maker.ofSettings .default) ⟨"/demo"⟩ twoFiles (encode twoFiles)) :
          Action MigrationOutcome).exec refusing) = true := by decide +kernel
  rw [← exec_run hleads hread (by decide)] at hfails
  obtain ⟨f, w', hrun, hnothing⟩ := endsFailed_iff.1 hfails
  exact ⟨f, w', hrun, (all_or_nothing _ _ _ _ _ hrun).1 f rfl (List.isEmpty_iff.1 hnothing)⟩

end Migration

end CodeIndex
