import CodeIndex.Proofs.Examined
import CodeIndex.Proofs.Rollback
import CodeIndex.Proofs.Touched

set_option autoImplicit false

/-!
# How an update goes

An update reads all shards, examines the files that changed, writes the shards of the modules that are affected, commits
the core index, and then writes the cache, which cannot fail.  Up to the first shard it only looks.
-/

namespace CodeIndex

open Action Store

theorem OutlineCache.exec_saveQuietly (c : OutlineCache) (w : Workspace) :
    ∃ w', c.saveQuietly.exec w = (.ok (), w') := by
  have hcause : ∀ {f w'}, c.save.exec w = (.error f, w') → f.cause ≠ .unscannable := by
    intro f w' h
    unfold save at h
    split at h
    · cases h
    · next path hpath =>
      split at h
      · cases h
      · rw [exec_bind_of_ok (exec_locate _ _), exec_bind_of_ok (exec_tryChange _ _)] at h
        split at h
        · cases h
          simp
        · rw [exec_bind] at h
          rcases hr : (replaceFile path (toJson c.entries).render.toUTF8).exec _ with ⟨e | u, w₁⟩
          · rw [hr] at h
            cases h
            obtain ⟨p, reason, rfl⟩ := replaceFile_fault hr
            simp [Failure.ofFault]
          · rw [hr] at h
            cases h
  unfold saveQuietly
  rcases hs : c.save.exec w with ⟨f | saved, w'⟩
  · refine ⟨w', exec_bind_of_ok (x := .error f) ?_⟩
    rw [exec_attempt, hs]
    exact if_neg (hcause hs)
  · refine ⟨w', exec_bind_of_ok (x := .ok saved) ?_⟩
    rw [exec_attempt, hs]

namespace Update

variable {m : Maker} {root : String} {core : CoreIndex} {c : ChangeSet} {w w' : Workspace}

/-- The modules after a change, where the shards tell who imports what. -/
def membershipAfter (core : CoreIndex) (c : ChangeSet) (shards : List Shard) : Membership :=
  Membership.after core c (Imports.importers (Imports.graph shards) c.all)

/-- What is known after a change, of which the modified files were analysed afresh. -/
def analysisAfter (core : CoreIndex) (c : ChangeSet) (shards : List Shard) (fresh : Analysis) : Analysis :=
  (Analysis.ofIndex core shards).overlay fresh c.removed.keys

def coreAfter (m : Maker) (root : String) (core : CoreIndex) (c : ChangeSet) (shards : List Shard) (fresh : Analysis)
    (hashes : Dict String) (now : String) : CoreIndex :=
  (analysisAfter core c shards fresh).core (Path.displayName root) now (membershipAfter core c shards).modules hashes
    core.stats.fileSource (Layout.detect? (membershipAfter core c shards).modules.files) m.settings

/-- Writes the shards of the modules that a change affects. -/
def writeAffected (root : String) (core : CoreIndex) (c : ChangeSet) (shards : List Shard) (fresh : Analysis) :
    Action (Dict String × Backups) :=
  regenerateAll ⟨root⟩ (analysisAfter core c shards fresh) (membershipAfter core c shards).modules
    (membershipAfter core c shards).affected.keys core.hashes {}

/-- The cache that an update starts with. -/
def cacheBefore (root : String) (w : Workspace) : OutlineCache :=
  OutlineCache.loaded w.disk root (w.here.resolve (OutlineCache.pathIn root))

/-- A core index that is intact is written.  If it is not intact, or cannot be written, the shards are put back. -/
theorem commit_cases {s : Store} (hs : Path.isAbsolute s.root = true) {backups : Backups} {r : Except Failure Unit}
    (h : (commit s core backups).exec w = (r, w')) :
    (r = .ok () ∧ s.Intact core w.disk ∧ (s.writeCore core).exec w = (.ok (), w')) ∨
    (∃ f, ¬ s.Intact core w.disk ∧ (do rollBack s backups; throw f : Action Unit).exec w = (r, w')) ∨
    ∃ path reason w₁, (s.writeCore core).exec w = (.error (Failure.ofFault (.storage path reason)), w₁) ∧
      (do rollBack s backups; throw (Failure.ofFault (.storage path reason)) : Action Unit).exec w₁ = (r, w') := by
  obtain ⟨found, hfound, hintact⟩ := exec_problems hs core w
  unfold commit at h
  rw [exec_bind_of_ok hfound] at h
  cases found with
  | cons p ps => exact .inr (.inl ⟨_, fun hi => (nomatch hintact.2 hi), h⟩)
  | nil =>
    simp only [List.isEmpty_nil, Bool.not_true, Bool.false_eq_true, if_false] at h
    rw [exec_bind, exec_attempt] at h
    rcases hw : (s.writeCore core).exec w with ⟨f | u, w₁⟩
    · obtain ⟨path, reason, rfl⟩ := replaceFile_fault hw
      rw [hw] at h
      exact .inr (.inr ⟨path, reason, w₁, rfl, h⟩)
    · rw [hw] at h
      cases h
      exact .inl ⟨rfl, hintact.1 rfl, rfl⟩

/-- What an update has at hand when it comes to the first shard. -/
structure Prepared (m : Maker) (root : String) (core : CoreIndex) (c : ChangeSet) (w : Workspace) (shards : List Shard)
    (found : List Maker.Finding) (fresh : Analysis) (w' : Workspace) : Prop where
  shards : ∃ w₁, (readShards ⟨root⟩ core).exec w = (.ok shards, w₁)
  found : c.modified.keys.filterMapM (m.finding? (cacheBefore root w) w root) = .ok found
  analysed : m.Analysed (cacheBefore root w) w root (Listing.known m.settings w.history .versionControl) c.modified.keys fresh
  alike : w.Alike w'

/-- How the update of an index goes, and where it ends. -/
inductive Course (m : Maker) (root : String) (core : CoreIndex) (c : ChangeSet) (w : Workspace) :
    Except Failure UpdateOutcome → Workspace → Prop
  | unread {f : Failure} {w' : Workspace} (alike : w.Alike w')
      (reading : (readShards ⟨root⟩ core).exec w = (.error f, w')) : Course m root core c w (.error f) w'
  | unexamined {f : Failure} {file : String} {w' : Workspace} (alike : w.Alike w') (mem : file ∈ c.modified.keys)
      (finding : m.finding? (cacheBefore root w) w root file = .error f) : Course m root core c w (.error f) w'
  | unwritten {shards : List Shard} {found : List Maker.Finding} {fresh : Analysis} {f : Failure} {w₁ w' : Workspace}
      (prepared : Prepared m root core c w shards found fresh w₁)
      (writing : (writeAffected root core c shards fresh).exec w₁ = (.error f, w')) : Course m root core c w (.error f) w'
  | uncommitted {shards : List Shard} {found : List Maker.Finding} {fresh : Analysis} {hashes : Dict String}
      {backups : Backups} {f : Failure} {w₁ w₂ w' : Workspace} (prepared : Prepared m root core c w shards found fresh w₁)
      (writing : (writeAffected root core c shards fresh).exec w₁ = (.ok (hashes, backups), w₂))
      (committing : (commit ⟨root⟩ (coreAfter m root core c shards fresh hashes w₂.now) backups).exec w₂ = (.error f, w')) :
      Course m root core c w (.error f) w'
  | done {shards : List Shard} {found : List Maker.Finding} {fresh : Analysis} {hashes : Dict String}
      {backups : Backups} {w₁ w₂ w₃ w' : Workspace} (prepared : Prepared m root core c w shards found fresh w₁)
      (writing : (writeAffected root core c shards fresh).exec w₁ = (.ok (hashes, backups), w₂))
      (committing : (commit ⟨root⟩ (coreAfter m root core c shards fresh hashes w₂.now) backups).exec w₂ = (.ok (), w₃))
      (saving : (Maker.rememberAll (cacheBefore root w) found).saveQuietly.exec w₃ = (.ok (), w')) :
      Course m root core c w (.ok (.updated (membershipAfter core c shards).affected.keys c.all)) w'

theorem course {r : Except Failure UpdateOutcome} (h : (apply m root core c).exec w = (r, w')) :
    Course m root core c w r w' := by
  unfold apply at h
  rcases (looks_readShards ⟨root⟩ core).bind_cases h with ⟨f, rfl, hread, ha₁⟩ | ⟨shards, w₁, hread, ha₁, h⟩
  · exact .unread ha₁ hread
  obtain ⟨w₂, hcommits, ha₂⟩ := Listing.exec_commits m.settings .versionControl w₁
  have halike : w.Alike w₂ := ha₁.trans ha₂
  have hcache : OutlineCache.loaded w₁.disk root (w₁.here.resolve (OutlineCache.pathIn root)) = cacheBefore root w := by
    rw [cacheBefore, ha₁.disk_eq, ha₁.here_eq]
  dsimp only at h
  rw [exec_bind_of_ok (OutlineCache.exec_load _ _), hcache, exec_bind_of_ok hcommits, ha₁.history_eq] at h
  rcases (m.looks_analyse _ _ _ _).bind_cases h with ⟨f, rfl, hanalyse, ha₃⟩ | ⟨⟨fresh, cache⟩, w₃, hanalyse, -, h⟩
  · obtain ⟨file, hfile, hfinding⟩ := Maker.analyse_error hanalyse
    rw [Maker.finding?_of_alike halike] at hfinding
    exact .unexamined (halike.trans ha₃) hfile hfinding
  obtain ⟨rfl, hanalysed, found, hfound, rfl⟩ := Maker.analyse_ok hanalyse
  rw [Maker.finding?_of_alike halike] at hfound
  have hprepared : Prepared m root core c w shards found fresh w₃ := ⟨⟨w₁, hread⟩, hfound, hanalysed.of_alike halike, halike⟩
  change (writeAffected root core c shards fresh >>= _).exec w₃ = _ at h
  rw [exec_bind] at h
  rcases hwrite : (writeAffected root core c shards fresh).exec w₃ with ⟨f | ⟨hashes, backups⟩, w₄⟩
  · rw [hwrite] at h
    cases h
    exact .unwritten hprepared hwrite
  rw [hwrite] at h
  dsimp only at h
  rw [exec_bind_of_ok (exec_get _)] at h
  change (commit ⟨root⟩ (coreAfter m root core c shards fresh hashes w₄.now) backups >>= _).exec w₄ = _ at h
  rw [exec_bind] at h
  rcases hcommit : (commit ⟨root⟩ (coreAfter m root core c shards fresh hashes w₄.now) backups).exec w₄ with ⟨f | u, w₅⟩
  · rw [hcommit] at h
    cases h
    exact .uncommitted hprepared hwrite hcommit
  obtain ⟨w₆, hsave⟩ := (Maker.rememberAll (cacheBefore root w) found).exec_saveQuietly w₅
  rw [hcommit] at h
  dsimp only at h
  rw [exec_bind_of_ok hsave] at h
  cases h
  exact .done hprepared hwrite hcommit hsave

end Update

end CodeIndex
