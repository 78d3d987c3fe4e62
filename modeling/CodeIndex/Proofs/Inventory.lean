import CodeIndex.Proofs.Untouched

set_option autoImplicit false

/-!
# What lies in the directory for shards

A file in the directory is a shard by its name alone.  Clearing leaves no shards but those of the modules that are
kept, and neither the core index nor the cache puts any there.
-/

namespace CodeIndex

open Action Store Update

variable {s : Store} {d d' : Disk} {w w' : Workspace} {keep : List String}

namespace Disk

/-- A directory lists the names under which something is reached. -/
theorem mem_list {l : Location} (h : d.IsOpen l) :
    ∃ found, d.list l = .ok found ∧ ∀ name, name ∈ found.map Prod.fst ↔ ∃ node, d.access (l ++ [name]) = .ok node := by
  have haccess : d.access l = .ok .directory := h
  rw [list, haccess]
  refine ⟨_, rfl, fun name => ?_⟩
  have hfind : d.find? (l ++ [name]) = d.entries.lookup (l ++ [name]) := by simp [find?]
  rw [access_of_isOpen h, hfind]
  constructor
  · intro hmem
    obtain ⟨⟨name', node⟩, hentry, rfl⟩ := List.mem_map.1 hmem
    obtain ⟨⟨place, node'⟩, hin, hnamed⟩ := List.mem_filterMap.1 hentry
    dsimp only at hnamed
    split at hnamed
    · next hbelow =>
      obtain ⟨hlen, hprefix⟩ := Bool.and_eq_true_iff.1 hbelow
      obtain ⟨rest, rfl⟩ := List.isPrefixOf_iff_prefix.1 hprefix
      obtain ⟨last, rfl⟩ := List.length_eq_one_iff.1 (by simpa using hlen : rest.length = 1)
      obtain ⟨rfl, -⟩ : last = name' ∧ node' = node := by simpa using hnamed
      cases hlookup : d.entries.lookup (l ++ [last]) with
      | some found => exact ⟨found, rfl⟩
      | none => exact absurd rfl (List.lookup_eq_none_iff.1 hlookup _ hin |> bne_iff_ne.1)
    · cases hnamed
  · rintro ⟨node, hnode⟩
    cases hlookup : d.entries.lookup (l ++ [name]) with
    | none =>
      rw [hlookup] at hnode
      cases hnode
    | some found =>
      obtain ⟨before, after, hentries, -⟩ := List.lookup_eq_some_iff.1 hlookup
      refine List.mem_map.2 ⟨(name, found), List.mem_filterMap.2 ⟨(l ++ [name], found), by simp [hentries], ?_⟩, rfl⟩
      simp

end Disk

theorem Store.eq_of_moduleOf? {file id : String} (h : moduleOf? file = some id) : file = id ++ ".json" := by
  unfold moduleOf? at h
  split at h
  · next stem hsplit =>
    cases h
    unfold Path.splitName at hsplit
    split at hsplit
    · next front back hcut =>
      split at hsplit
      · cases hsplit
      · cases hsplit
        have heq := Text.cutLastIn_eq_some hcut
        rw [heq, String.append_assoc]
        rfl
    · cases hsplit
  · cases h

namespace Store

/-- Nothing in the directory is a shard but of some modules. -/
def OnlyShards (s : Store) (d : Disk) (keep : List String) : Prop :=
  ∀ file id, moduleOf? file = some id → id ∉ keep → d.access (s.shardsPlace ++ [file]) = .error .absent

theorem OnlyShards.congr (h : s.OnlyShards d keep)
    (hsame : ∀ file, d.access (s.shardsPlace ++ [file]) = .error .absent →
      d'.access (s.shardsPlace ++ [file]) = .error .absent) : s.OnlyShards d' keep :=
  fun file id hid hkeep => hsame file (h file id hid hkeep)

/-- Two disks have the same files in the directory that count as shards, byte for byte. -/
def SameShards (s : Store) (d d' : Disk) : Prop :=
  ∀ file id, moduleOf? file = some id → d'.read (s.shardsPlace ++ [file]) = d.read (s.shardsPlace ++ [file])

/-- Files that were removed one after another are gone, and nothing new is there. -/
theorem forM_removeFile_ok {files : List String} {directory : Location} {path : String → String} {u : PUnit}
    (h : (files.forM fun file => do
      orStorage (path file) (← tryChange (Disk.removeFile (directory ++ [file])))).exec w = (.ok u, w')) :
    (∀ l, w.disk.access l = .error .absent → w'.disk.access l = .error .absent) ∧
      ∀ file ∈ files, w'.disk.access (directory ++ [file]) = .error .absent := by
  induction files generalizing w with
  | nil =>
    cases h
    exact ⟨fun _ hl => hl, by simp⟩
  | cons file rest ih =>
    change ((tryChange (Disk.removeFile (directory ++ [file])) >>= fun r => orStorage (path file) r) >>= fun _ =>
      rest.forM fun file => do orStorage (path file) (← tryChange (Disk.removeFile (directory ++ [file])))).exec w = _ at h
    rw [exec_bind, exec_bind_of_ok (exec_tryChange _ _)] at h
    rcases hr : (Disk.removeFile (directory ++ [file])).run w.disk with ⟨e | v, d⟩
    · rw [hr] at h
      cases h
    · rw [hr] at h
      obtain ⟨-, hgone, hframe, -⟩ := Disk.removeFile_ok hr
      obtain ⟨hstays, hrest⟩ := ih h
      refine ⟨fun l hl => hstays l ?_, List.forall_mem_cons.2 ⟨hstays _ hgone, hrest⟩⟩
      by_cases hbelow : directory ++ [file] <+: l
      · exact Disk.access_error_below hgone hbelow
      · exact (hframe.access_eq (fun t ht hp => absurd (ht ▸ hp) hbelow) id).trans hl

section Absolute

variable (hs : Path.isAbsolute s.root = true)

include hs

theorem onlyShards_of_clearShards {n : Nat} (h : (s.clearShards keep).exec w = (.ok n, w')) :
    s.OnlyShards w'.disk keep := by
  unfold clearShards at h
  rw [exec_bind_of_ok (exec_locate _ _), resolve_shardDirectory hs, exec_bind_of_ok (exec_look _ _)] at h
  split at h
  · next habsent =>
    cases h
    intro file id _ _
    have hplace : w.disk.access s.shardsPlace = .error .absent := by
      rw [Disk.list] at habsent
      split at habsent
      · cases habsent
      · cases habsent
      · next e he =>
        cases habsent
        exact he
    exact Disk.access_error_below hplace (List.prefix_append _ _)
  · cases h
  · next found hfound =>
    have hopen : w.disk.IsOpen s.shardsPlace := by
      rw [Disk.list] at hfound
      split at hfound
      · next hdirectory => exact hdirectory
      · cases hfound
      · cases hfound
    obtain ⟨found', hlist, hmem⟩ := Disk.mem_list hopen
    obtain rfl : found = found' := Except.ok.inj (hfound.symm.trans hlist)
    rw [exec_bind] at h
    split at h
    · next u w₁ hremoved =>
      cases h
      obtain ⟨hstays, hgone⟩ := forM_removeFile_ok hremoved
      intro file id hid hkeep
      cases haccess : w.disk.access (s.shardsPlace ++ [file]) with
      | ok node =>
        refine hgone file (List.mem_filter.2 ⟨(hmem file).2 ⟨node, haccess⟩, ?_⟩)
        simp [hid, hkeep]
      | error e =>
        rw [Disk.access_of_isOpen hopen] at haccess
        split at haccess
        · cases haccess
        · next hnone =>
          refine hstays _ ?_
          rw [Disk.access_of_isOpen hopen, hnone]
    · cases h

end Absolute

/-! ## What puts no shards there -/

/-- No shard comes where nothing is written. -/
theorem OnlyShards.of_changed {written made : Location → Prop} (h : s.OnlyShards w.disk keep) (hchanged : Changed written made w w')
    (hwritten : ∀ {file id}, moduleOf? file = some id → id ∉ keep → ∀ l, written l → ¬ l <+: s.shardsPlace ++ [file])
    (hmade : ∀ file, ¬ made (s.shardsPlace ++ [file])) : s.OnlyShards w'.disk keep := by
  intro file id hfile hid
  rw [hchanged.frame.access_eq (fun l hl hp => absurd hp (hwritten hfile hid l hl)) (hmade file)]
  exact h file id hfile hid

/-- A file in the project's directory is no shard. -/
theorem OnlyShards.of_beside {name : String} (h : s.OnlyShards w.disk keep)
    (hname : name ≠ Shard.directory ∧ name ++ ".tmp" ≠ Shard.directory)
    (hchanged : Changed (fun l => l = s.place ++ [name] ∨ l = s.place ++ [name ++ ".tmp"]) (fun _ => False) w w') :
    s.OnlyShards w'.disk keep := by
  refine h.of_changed hchanged (fun {file id} _ _ l hl hp => ?_) fun _ => id
  have hfirst : ∀ name, s.place ++ [name] <+: s.shardsPlace ++ [file] → name = Shard.directory := by
    intro name hprefix
    rw [shardsPlace, List.append_assoc, List.prefix_append_right_inj] at hprefix
    exact (List.cons_prefix_cons.1 hprefix).1
  rcases hl with rfl | rfl
  · exact hname.1 (hfirst _ hp)
  · exact hname.2 (hfirst _ hp)

theorem OnlyShards.of_writeCore (h : s.OnlyShards w.disk keep)
    (hchanged : Changed (fun l => l = s.corePlace ∨ l = s.corePlace.aside) (fun _ => False) w w') :
    s.OnlyShards w'.disk keep := by
  rw [corePlace, Location.aside_concat] at hchanged
  exact h.of_beside (by decide) hchanged

theorem OnlyShards.mono {keep' : List String} (h : s.OnlyShards d keep) (hkeep : keep ⊆ keep') : s.OnlyShards d keep' :=
  fun file id hfile hid => h file id hfile fun hmem => hid (hkeep hmem)

/-- The shards of modules that are kept may be written. -/
theorem OnlyShards.of_shardFiles {made : Location → Prop} (h : s.OnlyShards w.disk keep)
    (hvalid : ∀ id ∈ keep, ModuleId.isValid id = true) (hchanged : Changed (ShardFiles s keep) made w w')
    (hmade : ∀ file, ¬ made (s.shardsPlace ++ [file])) : s.OnlyShards w'.disk keep := by
  refine h.of_changed hchanged (fun {file id} hfile hid l hl hp => ?_) hmade
  have hname : ∀ name, s.shardsPlace ++ [name] <+: s.shardsPlace ++ [file] → name = id ++ ".json" := by
    intro name hprefix
    rw [List.prefix_append_right_inj] at hprefix
    rw [(List.cons_prefix_cons.1 hprefix).1, eq_of_moduleOf? hfile]
  obtain ⟨other, hother, rfl | rfl⟩ := hl
  · rw [shardPlace_of_isValid s (hvalid other hother)] at hp
    have hchars := congrArg String.toList (hname _ hp)
    rw [String.toList_append, String.toList_append] at hchars
    exact hid (String.toList_injective (List.append_cancel_right hchars) ▸ hother)
  · rw [shardPlace_of_isValid s (hvalid other hother), Location.aside_concat] at hp
    have hlast := congrArg (fun name : String => name.toList.getLast?) (hname _ hp)
    simp at hlast

theorem OnlyShards.of_saveQuietly (hs : Path.isAbsolute s.root = true) (h : s.OnlyShards w.disk keep) {c : OutlineCache}
    (hpath : c.path = some (Path.join (Path.join s.root OutlineCache.directory) OutlineCache.fileName))
    {r : Except Failure Unit} (hsave : c.saveQuietly.exec w = (r, w')) : s.OnlyShards w'.disk keep := by
  obtain ⟨r', hsaved⟩ := OutlineCache.save_of_saveQuietly hsave
  obtain ⟨hchanged, -⟩ := OutlineCache.save_spec hpath (beside_cachePath hs w.here) hsaved
  refine h.congr fun file habsent => (hchanged.frame.access_eq (fun t ht hp => ?_) fun hmade => ?_).trans habsent
  · exfalso
    have hname : ∀ name, s.place ++ [OutlineCache.directory] ++ [name] <+: s.shardsPlace ++ [file] → False := by
      intro name hprefix
      rw [shardsPlace, List.append_assoc, List.append_assoc, List.prefix_append_right_inj] at hprefix
      exact absurd (List.cons_prefix_cons.1 hprefix).1 (by decide)
    rcases ht with rfl | rfl
    · exact hname _ hp
    · exact hname _ hp
  · have hlen := hmade.length_le
    simp [shardsPlace] at hlen

end Store

end CodeIndex
