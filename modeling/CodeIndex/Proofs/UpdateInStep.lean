import CodeIndex.Proofs.InStep
import CodeIndex.Proofs.Plan
import CodeIndex.Proofs.Remembered

set_option autoImplicit false

/-!
# Updates in step

Of the files that an update finds it reads the shards, the cache, and source files.  Where two workspaces have the
same of these, the update takes the same steps in both, whatever else lies there, and what it puts on the disk is the
same too.
-/

namespace CodeIndex

open Action Store Update

/-- An action does not tell workspaces apart that are the same but for some files. -/
abbrev Action.Blind {α : Type} (differ : Disk.Differing) (now now' : String) (a : Action α) : Prop :=
  InStep (Workspace.SameBut differ now now') a a

variable {s : Store} {differ : Disk.Differing} {now now' : String}

namespace Store

/-! ## Documents -/

theorem blind_contents {path : String} {l : Location} (hplace : ∀ here : Location, here.resolve path = l)
    (hl : ∀ bytes bytes', differ l bytes bytes' → bytes' = bytes) : (contents path).Blind differ now now' := by
  unfold contents
  exact inStep_locate hplace (inStep_look fun w v h => h.disk.read_eq hl)

theorem blind_isPresent {path : String} (habs : Path.isAbsolute path = true) : (isPresent path).Blind differ now now' := by
  unfold isPresent
  exact inStep_locate (fun here => Location.resolve_of_isAbsolute habs here []) (inStep_look fun w v h => h.disk.holds_eq _)

theorem Beside.anywhere {here : Location} {path : String} {directory : Location} {name : String}
    (h : Beside here path directory name) (habs : Path.isAbsolute path = true) (there : Location) :
    Beside there path directory name :=
  ⟨(Location.resolve_of_isAbsolute habs _ _).trans h.place,
    (Location.resolve_of_isAbsolute (Path.isAbsolute_of_append habs) _ _).trans h.aside⟩

/-- Whole files are replaced in step, and their bytes may differ where the differences are meant. -/
theorem inStep_replaceFile {path : String} {directory : Location} {name : String} {bytes bytes' : ByteArray}
    (hbeside : ∀ here, Beside here path directory name)
    (hbytes : bytes' = bytes ∨ differ (directory ++ [name ++ ".tmp"]) bytes bytes')
    (haside : ∀ bytes bytes', differ (directory ++ [name ++ ".tmp"]) bytes bytes' →
      differ (directory ++ [name]) bytes bytes') :
    InStep (Workspace.SameBut differ now now') (replaceFile path bytes) (replaceFile path bytes') := by
  unfold replaceFile
  refine inStep_locate (fun here => (hbeside here).place) ?_
  refine inStep_locate (fun here => (hbeside here).aside) ?_
  refine (inStep_tryChange (.write hbytes)).bind fun r => (inStep_orStorage _ r).bind fun _ => ?_
  refine (inStep_tryChange (.rename (by simp) haside)).bind fun r => ?_
  cases r with
  | ok _ => exact inStep_pure _
  | error e => exact (inStep_tryChange (.removeFile _ _)).bind fun _ => inStep_orStorage _ _

/-- Differences that a file beside a document has are also ones of the document. -/
def Settles (differ : Disk.Differing) : Prop :=
  ∀ (directory : Location) (name : String) (bytes bytes' : ByteArray),
    differ (directory ++ [name ++ ".tmp"]) bytes bytes' → differ (directory ++ [name]) bytes bytes'

section Absolute

variable (hs : Path.isAbsolute s.root = true)

include hs

theorem blind_shardBytes? {id : String} (hid : ∀ bytes bytes', differ (s.shardPlace id) bytes bytes' → bytes' = bytes) :
    (s.shardBytes? id).Blind differ now now' := by
  unfold shardBytes?
  refine (blind_contents (fun here => resolve_shardPath hs here id) hid).bind fun found => ?_
  split
  · exact inStep_pure _
  · exact inStep_pure _
  · exact inStep_orStorage _ _

theorem isAbsolute_shardPath (id : String) : Path.isAbsolute (s.shardPath id) = true :=
  Path.isAbsolute_join (isAbsolute_shardDirectory hs)

theorem blind_readShard {id : String} (hid : ∀ bytes bytes', differ (s.shardPlace id) bytes bytes' → bytes' = bytes) :
    (s.readShard id).Blind differ now now' := by
  unfold readShard readDocument decode
  refine (blind_isPresent (isAbsolute_shardPath hs id)).bind fun present => ?_
  split
  · refine (blind_contents (fun here => resolve_shardPath hs here id) hid).bind fun found => ?_
    refine (inStep_orStorage _ found).bind fun bytes => ?_
    split
    · exact inStep_pure _
    · exact inStep_failWith _
  · exact inStep_failWith _

theorem blind_problems {core : CoreIndex}
    (hids : ∀ id ∈ core.modules.keys, ∀ bytes bytes', differ (s.shardPlace id) bytes bytes' → bytes' = bytes) :
    (s.problems core).Blind differ now now' := by
  unfold problems
  refine (inStep_mapM fun ⟨id, expected⟩ _ => ?_).bind fun _ => inStep_pure _
  unfold shardProblem?
  dsimp only
  split
  · exact inStep_pure _
  · next hin =>
    have hid : id ∈ core.modules.keys := Dict.contains_iff_mem.1 (by simpa using hin)
    refine (blind_shardBytes? hs (hids id hid)).attempt.bind fun found => ?_
    split <;> exact inStep_pure _

theorem blind_replaceShard (hsettles : Settles differ) (id : String) (bytes : ByteArray) :
    (replaceFile (s.shardPath id) bytes).Blind differ now now' := by
  obtain ⟨directory, name, hbeside⟩ := beside_shardPath hs [] id
  exact inStep_replaceFile (fun here => hbeside.anywhere (isAbsolute_shardPath hs id) here) (.inl rfl) (hsettles _ _)

theorem blind_writeShard (hsettles : Settles differ) (shard : Shard) : (s.writeShard shard).Blind differ now now' := by
  unfold writeShard
  refine inStep_locate (resolve_shardDirectory hs) ?_
  refine (inStep_tryChange (.makeDirectories _ _)).bind fun r => (inStep_orStorage _ r).bind fun _ => ?_
  exact (blind_replaceShard hs hsettles _ _).bind fun _ => inStep_pure _

theorem blind_removeShard (id : String) : (s.removeShard id).Blind differ now now' := by
  unfold removeShard
  refine inStep_locate (fun here => resolve_shardPath hs here id) ?_
  refine (inStep_tryChange (.removeFile _ _)).bind fun r => ?_
  split
  · exact inStep_pure _
  · exact inStep_pure _
  · exact inStep_orStorage _ _

theorem blind_restoreShard (hsettles : Settles differ) (id : String) (previous : Option ByteArray) :
    (s.restoreShard id previous).Blind differ now now' := by
  cases previous with
  | none => exact blind_removeShard hs id
  | some bytes => exact blind_replaceShard hs hsettles id bytes

end Absolute

end Store

/-! ## The cache and the tool -/

namespace OutlineCache

variable (hs : Path.isAbsolute s.root = true)

include hs

theorem blind_load (hcache : ∀ bytes bytes', ¬ differ s.cachePlace bytes bytes') : (load s.root).Blind differ now now' := by
  unfold load
  refine (blind_contents (fun here => (beside_cachePath hs here).place) fun bytes bytes' h => ?_).bind fun _ => inStep_pure _
  exact absurd h (hcache bytes bytes')

theorem blind_saveQuietly (hsettles : Settles differ) {c : OutlineCache}
    (hpath : c.path = some (Path.join (Path.join s.root directory) fileName)) : c.saveQuietly.Blind differ now now' := by
  have hsave : c.save.Blind differ now now' := by
    unfold save
    rw [hpath]
    dsimp only
    split
    · exact inStep_pure _
    · refine inStep_locate (fun here => (beside_cachePath hs here).place) ?_
      refine (inStep_tryChange (.makeDirectories _ _)).bind fun r => ?_
      split
      · exact inStep_throw _
      · exact (inStep_replaceFile (beside_cachePath hs) (.inl rfl) (hsettles _ _)).bind fun _ => inStep_pure _
  exact hsave.attempt.bind fun _ => inStep_pure _

end OutlineCache

theorem History.blind_isWorkTree (timeout : Nat) : (isWorkTree timeout).Blind differ now now' := by
  unfold isWorkTree
  refine (inStep_ask _ _).attempt.bind fun answer => ?_
  split <;> exact inStep_pure _

theorem History.blind_touchedSince (timeout : Nat) (moment : String) : (touchedSince timeout moment).Blind differ now now' :=
  (inStep_ask _ _).bind fun _ => (inStep_ask _ _).bind fun _ => (inStep_ask _ _).bind fun _ => inStep_pure _

theorem Listing.blind_commits (settings : Settings) (source : FileSource) :
    (commits settings source).Blind differ now now' := by
  unfold commits History.commits
  cases source with
  | walk => exact inStep_pure _
  | versionControl =>
    refine ((inStep_ask _ _).bind fun _ => inStep_pure _).attempt.bind fun found => ?_
    split <;> exact inStep_pure _

/-! ## Source files -/

/-- No source file differs, as its name tells. -/
def Language.Spared (differ : Disk.Differing) : Prop :=
  ∀ (directory : Location) (name : String) (language : Language), ofName name = some language →
    ∀ bytes bytes', ¬ differ (directory ++ [name]) bytes bytes'

section Sources

variable {root file : String} {language : Language} (hroot : Path.isAbsolute root = true)
  (hspared : Language.Spared differ)

include hroot hspared

/-- A source file lies at one place, where nothing differs. -/
theorem Language.place_spared (h : ofPath? file = some language) :
    ∃ l, (∀ here : Location, here.resolve (Path.join root file) = l) ∧ ∀ bytes bytes', ¬ differ l bytes bytes' := by
  obtain ⟨directory, name, hplace, hname⟩ := place_of_ofPath? hroot [] h
  refine ⟨directory ++ [name], fun here => ?_, hspared directory name language hname⟩
  rw [← hplace]
  exact Location.resolve_of_isAbsolute (Path.isAbsolute_join hroot) _ _

theorem Listing.blind_isIndexable (settings : Settings) : (isIndexable settings root file).Blind differ now now' := by
  unfold isIndexable
  split
  · exact inStep_pure _
  · next hknown =>
    obtain ⟨language, hlanguage⟩ : ∃ language, Language.ofPath? file = some language := by
      simp only [Bool.or_eq_true, not_or, Option.isNone_iff_eq_none] at hknown
      exact Option.ne_none_iff_exists'.1 hknown.2
    obtain ⟨l, hplace, hl⟩ := Language.place_spared hroot hspared hlanguage
    refine inStep_locate hplace ((inStep_look fun w v h => h.disk.access_eq hl).bind fun found => ?_)
    split <;> exact inStep_pure _

theorem Maker.blind_examine (m : Maker) (cache : OutlineCache) (h : Language.ofPath? file = some language) :
    (m.examine cache root file language).Blind differ now now' := by
  obtain ⟨l, hplace, hl⟩ := Language.place_spared hroot hspared h
  have htext : ∀ w v, Workspace.SameBut differ now now' w v → v.disk.readText l = w.disk.readText l := by
    intro w v hwv
    unfold Disk.readText
    rw [Disk.read_congr (hwv.disk.access_eq hl)]
  unfold examine
  split
  · exact inStep_locate hplace ((inStep_look htext).bind fun _ => inStep_pure _)
  · split
    · exact inStep_pure _
    · refine InStep.bind ?_ fun key => ?_
      · unfold OutlineCache.key?
        refine inStep_locate hplace ((inStep_look fun w v h => h.disk.access_eq hl).bind fun found => ?_)
        split <;> exact inStep_pure _
      · split
        · exact inStep_pure _
        · unfold examineSource
          refine inStep_locate hplace ((inStep_look htext).bind fun text => ?_)
          split
          · exact inStep_pure _
          · split
            · exact inStep_pure _
            · exact inStep_pure _
            · exact inStep_throw _

theorem Maker.blind_analyse (m : Maker) (files : List String) (cache : OutlineCache) (commits : Dict Commit) :
    (m.analyse root files cache commits).Blind differ now now' := by
  unfold analyse
  refine (inStep_filterMapM fun file _ => ?_).bind fun _ => inStep_pure _
  split
  · exact inStep_pure _
  · next language hlanguage => exact (m.blind_examine hroot hspared cache hlanguage).bind fun _ => inStep_pure _

end Sources

/-! ## Steps of an update -/

/-- Whether there is a directory is seen alike, wherever it is. -/
theorem Maker.blind_resolveRoot (root : String) : (resolveRoot root).Blind differ now now' := by
  intro w v h
  unfold resolveRoot
  rw [exec_bind_of_ok (exec_locate _ w), exec_bind_of_ok (exec_locate _ v), exec_bind_of_ok (exec_look _ w),
    exec_bind_of_ok (exec_look _ v), h.here_eq]
  rcases h.disk.access (w.here.resolve root) with ⟨e, hw, hv⟩ | ⟨n, n', hw, hv, rfl | ⟨_, _, _, _, rfl, rfl, -⟩⟩
  · rw [hw, hv]
    exact ⟨rfl, h⟩
  · rw [hw, hv]
    cases n' <;> exact ⟨rfl, h⟩
  · rw [hw, hv]
    exact ⟨rfl, h⟩

namespace Update

theorem blind_accept {core : CoreIndex} (hs : Path.isAbsolute s.root = true)
    (hids : ∀ id ∈ core.modules.keys, ∀ bytes bytes', differ (s.shardPlace id) bytes bytes' → bytes' = bytes) :
    (accept s.root core).Blind differ now now' := by
  have hrest : (do
      let problems ← Store.problems s core
      if !problems.isEmpty then failWith (.inconsistent problems) : Action Unit).Blind differ now now' := by
    refine (blind_problems hs hids).bind fun problems => ?_
    split
    · exact inStep_failWith _
    · exact inStep_pure _
  unfold accept
  split
  · exact (inStep_failWith _).bind fun _ => hrest
  · exact hrest

theorem blind_changes {root : String} (hroot : Path.isAbsolute root = true) (hspared : Language.Spared differ) (m : Maker)
    (core : CoreIndex) : (changes m root core).Blind differ now now' := by
  unfold changes
  refine (History.blind_isWorkTree _).bind fun isWorkTree => ?_
  split
  · exact inStep_failWith _
  · refine (History.blind_touchedSince _ _).attempt.bind fun touched => ?_
    split
    · exact inStep_failWith _
    · refine (inStep_foldlM (fun c path _ => ?_) _).bind fun found => inStep_foldlM (fun c path _ => ?_) _
      · refine (Listing.blind_isIndexable hroot hspared _).bind fun indexable => ?_
        split
        · exact inStep_pure _
        · split <;> exact inStep_pure _
      · refine (blind_isPresent (Path.isAbsolute_join hroot)).bind fun present => ?_
        split <;> exact inStep_pure _

section Absolute

variable (hs : Path.isAbsolute s.root = true)

include hs

theorem blind_readShards {core : CoreIndex}
    (hids : ∀ id ∈ core.modules.keys, ∀ bytes bytes', differ (s.shardPlace id) bytes bytes' → bytes' = bytes) :
    (readShards s core).Blind differ now now' :=
  inStep_mapM fun id hid => (blind_readShard hs (hids id hid)).during _

variable (hsettles : Settles differ)

include hsettles

theorem blind_rollBack (backups : Backups) : (rollBack s backups).Blind differ now now' :=
  inStep_forM fun e _ => inStep_orNote (blind_restoreShard hs hsettles e.1 e.2) e.1

theorem blind_regenerate (a : Analysis) (modules : ModuleMap) (hashes : Dict String) (id : String) :
    (regenerate s a modules hashes id).Blind differ now now' := by
  unfold regenerate
  split
  · exact ((blind_writeShard hs hsettles _).during _).bind fun _ => inStep_pure _
  · exact (blind_removeShard hs id).bind fun _ => inStep_pure _

theorem blind_regenerateAll (a : Analysis) (modules : ModuleMap) {ids : List String}
    (hids : ∀ id ∈ ids, ∀ bytes bytes', differ (s.shardPlace id) bytes bytes' → bytes' = bytes) (hashes : Dict String)
    (backups : Backups) : (regenerateAll s a modules ids hashes backups).Blind differ now now' := by
  induction ids generalizing hashes backups with
  | nil => exact inStep_pure _
  | cons id rest ih =>
    obtain ⟨hid, hrest⟩ := List.forall_mem_cons.1 hids
    unfold regenerateAll
    refine (blind_shardBytes? hs hid).attempt.bind fun found => ?_
    split
    · exact (blind_rollBack hs hsettles _).bind fun _ => inStep_throw _
    · refine (blind_regenerate hs hsettles _ _ _ _).attempt.bind fun made => ?_
      split
      · exact (blind_rollBack hs hsettles _).bind fun _ => inStep_throw _
      · exact ih hrest _ _

end Absolute

end Update

end CodeIndex
