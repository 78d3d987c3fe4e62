import CodeIndex.Command.Run
import CodeIndex.Proofs.Documents

set_option autoImplicit false

/-!
# What only looks

Everything before the first write of an update or a build: the settings, the list of files, what was touched, the
cache, the analysis and the old shards.
-/

namespace CodeIndex

open Action

namespace History

theorem looks_isWorkTree (timeout : Nat) : (isWorkTree timeout).Looks := by
  refine (looks_ask _ _).attempt.bind fun answer => ?_
  split <;> exact looks_pure _

theorem looks_files (timeout : Nat) : (files timeout).Looks := (looks_ask _ _).bind fun _ => looks_pure _

theorem looks_touchedSince (timeout : Nat) (moment : String) : (touchedSince timeout moment).Looks :=
  (looks_ask _ _).bind fun _ => (looks_ask _ _).bind fun _ => (looks_ask _ _).bind fun _ => looks_pure _

theorem looks_commits (timeout : Nat) : (commits timeout).Looks := (looks_ask _ _).bind fun _ => looks_pure _

end History

namespace Listing

theorem looks_walk (root : String) : (walk root).Looks := by
  refine (looks_locate _).bind fun place => (looks_look _).bind fun found => ?_
  split
  · exact looks_throw _
  · exact looks_pure _
  · exact looks_look _

theorem looks_isIndexable (settings : Settings) (root path : String) : (isIndexable settings root path).Looks := by
  unfold isIndexable
  split
  · exact looks_pure _
  · refine (looks_locate _).bind fun place => (looks_look _).bind fun found => ?_
    split <;> exact looks_pure _

theorem looks_candidates (settings : Settings) (root : String) : (candidates settings root).Looks := by
  refine (History.looks_isWorkTree _).bind fun inTree => ?_
  split
  · refine (History.looks_files _).attempt.bind fun found => ?_
    split
    · exact looks_pure _
    · exact (looks_walk root).bind fun _ => looks_pure _
  · exact (looks_walk root).bind fun _ => looks_pure _

theorem looks_files (settings : Settings) (root : String) : (files settings root).Looks :=
  (looks_candidates _ _).bind fun _ => (looks_filterM (looks_isIndexable _ _) _).bind fun _ => looks_pure _

theorem looks_commits (settings : Settings) (source : FileSource) : (commits settings source).Looks := by
  unfold commits
  split
  · exact looks_pure _
  · refine (History.looks_commits _).attempt.bind fun found => ?_
    split <;> exact looks_pure _

end Listing

theorem OutlineCache.looks_key? (path : String) : (OutlineCache.key? path).Looks := by
  refine (looks_locate _).bind fun place => (looks_look _).bind fun found => ?_
  split <;> exact looks_pure _

namespace Maker

theorem looks_examineSource (path : String) (language : Language) (key : Option String) :
    (examineSource path language key).Looks := by
  refine (looks_locate _).bind fun place => (looks_look _).bind fun found => ?_
  split
  · exact looks_pure _
  · split
    · exact looks_pure _
    · exact looks_pure _
    · exact looks_throw _

theorem looks_examine (m : Maker) (cache : OutlineCache) (root file : String) (language : Language) :
    (m.examine cache root file language).Looks := by
  unfold examine
  dsimp only
  split
  · exact (looks_locate _).bind fun _ => (looks_look _).bind fun _ => looks_pure _
  · split
    · exact looks_pure _
    · refine (OutlineCache.looks_key? _).bind fun key => ?_
      split
      · exact looks_pure _
      · exact looks_examineSource _ _ _

theorem looks_analyse (m : Maker) (root : String) (files : List String) (cache : OutlineCache) (commits : Dict Commit) :
    (m.analyse root files cache commits).Looks := by
  refine (looks_filterMapM (fun file => ?_) files).bind fun _ => looks_pure _
  split
  · exact looks_pure _
  · exact (looks_examine m cache root file _).bind fun _ => looks_pure _

theorem looks_resolveRoot (root : String) : (resolveRoot root).Looks := by
  refine (looks_locate _).bind fun place => (looks_look _).bind fun found => ?_
  split
  · exact looks_throw _
  · exact looks_throw _
  · exact looks_pure _

theorem exec_resolveRoot_self (root : String) (w : Workspace) : ((resolveRoot root).exec w).2 = w := by
  unfold resolveRoot
  rw [exec_bind_of_ok (exec_locate _ _), exec_bind_of_ok (exec_look _ _)]
  cases w.disk.access (w.here.resolve root) with
  | error e => rfl
  | ok node => cases node <;> rfl

/-- The root of the program's store is absolute. -/
theorem resolveRoot_ok {root resolved : String} {w w' : Workspace} (h : (resolveRoot root).exec w = (.ok resolved, w')) :
    resolved = (w.here.resolve root).toPath ∧ w.disk.IsOpen (w.here.resolve root) ∧ w' = w := by
  unfold resolveRoot at h
  rw [exec_bind_of_ok (exec_locate _ _), exec_bind_of_ok (exec_look _ _)] at h
  cases ha : w.disk.access (w.here.resolve root) with
  | error e => rw [ha] at h; cases h
  | ok node =>
    rw [ha] at h
    cases node with
    | file bytes time => cases h
    | directory => cases h; exact ⟨rfl, ha, rfl⟩

end Maker

namespace Store

variable {s : Store}

end Store

namespace Update

theorem looks_classify (m : Maker) (root : String) (core : CoreIndex) (c : ChangeSet) (path : String) :
    (classify m root core c path).Looks := by
  refine (Listing.looks_isIndexable _ _ _).bind fun indexable => ?_
  split
  · exact looks_pure _
  · split <;> exact looks_pure _

theorem looks_noteMissing (root : String) (c : ChangeSet) (path : String) : (noteMissing root c path).Looks := by
  refine (Store.looks_isPresent _).bind fun present => ?_
  split <;> exact looks_pure _

theorem looks_changes (m : Maker) (root : String) (core : CoreIndex) : (changes m root core).Looks := by
  refine (History.looks_isWorkTree _).bind fun inTree => ?_
  split
  · exact looks_failWith _
  · refine (History.looks_touchedSince _ _).attempt.bind fun touched => ?_
    split
    · exact looks_failWith _
    · exact (looks_foldlM (looks_classify m root core) _ _).bind fun _ => looks_foldlM (looks_noteMissing root) _ _

theorem looks_readShards (store : Store) (core : CoreIndex) : (readShards store core).Looks :=
  looks_mapM (fun id => (Store.looks_readShard store id).during _) _

end Update

end CodeIndex
