import CodeIndex.Proofs.Building

set_option autoImplicit false

/-!
# What migrations leave on the disk

A document tells all that its analysis knew.  A migration leaves the index with shards that this analysis makes.
-/

namespace CodeIndex

open Action Store Update

/-! ## What a document tells -/

namespace Analysis

theorem docs_addDocs (a : Analysis) (tier : DocTier) (docs : Dict Synopsis) :
    (a.addDocs tier docs).docs = a.docs.insertAll (docs.toList.map fun e => (e.1, tier, e.2)) := by
  unfold addDocs Dict.insertAll
  induction docs.toList generalizing a with
  | nil => rfl
  | cons e rest ih => exact ih _

/-- Documentation of files that are there adds no file. -/
theorem details_addDocs {a b : Analysis} (tier : DocTier) {docs : Dict Synopsis} (hb : b.details = a.details)
    (h : ∀ e ∈ docs.toList, a.details.contains e.1 = true) : (b.addDocs tier docs).details = a.details := by
  unfold addDocs
  generalize docs.toList = entries at h
  induction entries generalizing b with
  | nil => exact hb
  | cons e rest ih =>
    refine ih ?_ fun e' he' => h e' (List.mem_cons_of_mem _ he')
    have hthere := h e List.mem_cons_self
    rw [← hb] at hthere
    exact (if_pos hthere).trans hb

theorem getD_nonEmpty? (docs : Dict Synopsis) : (nonEmpty? docs).getD {} = docs := by
  unfold nonEmpty?
  split
  · next hempty => exact (Dict.ext (List.isEmpty_iff.1 hempty)).symm
  · rfl

theorem mem_docsOf {a : Analysis} {tier : DocTier} {e : String × Synopsis} (h : e ∈ (a.docsOf tier).toList) :
    (a.docs.get? e.1).isSome = true := by
  have hget := Dict.mem_toList.1 h
  rw [get?_docsOf, synopsis?, Option.map_eq_some_iff] at hget
  obtain ⟨d, hd, -⟩ := hget
  rw [(Option.filter_eq_some_iff.1 hd).1]
  rfl

/-- A document tells all that the analysis knew that it was made from, if that knew no documentation but of its files. -/
theorem ofSingle_single {a : Analysis} (hdocs : ∀ path, (a.docs.get? path).isSome = true → a.details.contains path = true)
    (root madeAt : String) (files : List String) (source : FileSource) (layout : Option Layout) (settings : Settings) :
    (ofSingle (a.single root madeAt files source layout settings)).Same a := by
  have hunfold : ofSingle (a.single root madeAt files source layout settings) =
      ((({ empty with details := a.details } : Analysis).addDocs .critical (a.docsOf .critical)).addDocs .standard
        (a.docsOf .standard)).addDocs .archive (a.docsOf .archive) := by
    change ((({ empty with details := a.details } : Analysis).addDocs .critical ((nonEmpty? (a.docsOf .critical)).getD {})).addDocs
      .standard ((nonEmpty? (a.docsOf .standard)).getD {})).addDocs .archive ((nonEmpty? (a.docsOf .archive)).getD {}) = _
    rw [getD_nonEmpty?, getD_nonEmpty?, getD_nonEmpty?]
  have hthere : ∀ {tier}, ∀ e ∈ (a.docsOf tier).toList, a.details.contains e.1 = true := fun e he => hdocs e.1 (mem_docsOf he)
  refine .of_get? fun path => ?_
  rw [hunfold]
  constructor
  · refine congrArg (Dict.get? · path) (details_addDocs .archive (details_addDocs .standard (details_addDocs .critical ?_
      hthere) hthere) hthere)
    rfl
  · have hempty : ({ empty with details := a.details } : Analysis).docs.get? path = none := rfl
    simp only [docs_addDocs, get?_insertAll_tier, get?_docsOf, hempty]
    rw [synopsis?, synopsis?, synopsis?]
    rcases a.docs.get? path with _ | ⟨tier, found⟩
    · rfl
    · cases tier <;> rfl

end Analysis

variable {s : Store} {m : Maker} {w w' : Workspace} {a : Analysis}

namespace Migration

/-- The index that a document comes to. -/
def converted (m : Maker) (s : Store) (single : SingleIndex) : CoreIndex :=
  builtCore m s (.ofSingle single) (Analysis.ofSingle single).files single.stats.fileSource single.madeAt

section Absolute

variable (hs : Path.isAbsolute s.root = true)

include hs

theorem exec_isIntact {core : CoreIndex} (h : Holding s w.disk core a) : s.isIntact.exec w = (.ok true, w) := by
  obtain ⟨found, hfound, hintact⟩ := exec_problems hs core w
  obtain rfl : found = [] := hintact.2 h.intact
  unfold isIntact
  rw [exec_bind, exec_attempt, exec_bind_of_ok (h.exec_readCore hs), hfound]
  rfl

/-- An index that agrees with its shards is found to be right, before it is written and then. -/
theorem exec_settle {core : CoreIndex} (h : Sharded s w.disk core a) (hversion : core.version = CoreIndex.splitVersion) :
    (settle s core).exec w = (during "Failed to write core index" (s.writeCore core)).exec w ∧
      ∀ w', (s.writeCore core).exec w = (.ok (), w') → Holding s w'.disk core a := by
  have hholding : ∀ w', (s.writeCore core).exec w = (.ok (), w') → Holding s w'.disk core a := by
    intro w' hwrite
    obtain ⟨hread, hwritten⟩ := writeCore_ok hs hwrite
    refine ⟨h.congr fun id hid => ?_, hread, hversion⟩
    obtain ⟨files, hget⟩ := Dict.mem_keys.1 hid
    have hsaved : Saved w.disk (s.shardPlace id) (some (encode (a.shard id files))) := h.read_shard hget
    have hvalid := h.isValid hid
    exact hsaved.read_eq (saved_of_writeCore hs (isOpen_of_shard hvalid hsaved) hwritten hvalid hsaved)
  refine ⟨?_, hholding⟩
  obtain ⟨found, hfound, hintact⟩ := exec_problems hs core w
  obtain rfl : found = [] := hintact.2 h.intact
  unfold settle
  rw [exec_bind_of_ok hfound]
  simp only [List.isEmpty_nil, Bool.not_true, Bool.false_eq_true, if_false]
  rw [exec_bind]
  rcases hwrite : (s.writeCore core).exec w with ⟨f | u, w₁⟩
  · rw [exec_during, hwrite]
  rw [exec_during, hwrite]
  dsimp only
  rw [exec_bind_of_ok (exec_isIntact hs (hholding w₁ hwrite))]
  rfl

omit hs in
theorem exec_throw_ne_ok {α β : Type} {action : Action α} {f : Failure} {x : β}
    (h : (do let _ ← action; throw f : Action β).exec w = (.ok x, w')) : False := by
  rw [exec_bind] at h
  split at h
  · cases h
  · cases h

/-- The shards of a document's analysis make an index with the document's core index. -/
theorem writeShards_converted {single : SingleIndex} {hashes : Dict String}
    (h : (writeShards s (.ofSingle single) (m.division (Analysis.ofSingle single).files).toList {}).exec w =
      (.ok (hashes, none), w')) :
    Redone s (.ofSingle single) (m.division (Analysis.ofSingle single).files)
        (m.division (Analysis.ofSingle single).files).keys w w' ∧
      hashes = (Analysis.ofSingle single).hashes (m.division (Analysis.ofSingle single).files) ∧
      Sharded s w'.disk (converted m s single) (.ofSingle single) := by
  have hdivides := m.divides_division (Analysis.ofSingle single).files
  obtain ⟨hredone, rfl⟩ := migration_writeShards_ok hs (fun e he => Dict.mem_toList'.1 he)
    (isValid_keys hdivides.toProper) (m.division (Analysis.ofSingle single).files).nodup_keys h
  exact ⟨hredone, ((Analysis.ofSingle single).hashes _).ofList_toList, Sharded.of_core hdivides hredone.saved _ _ _ _ _⟩

omit hs in
theorem convert_eq (m : Maker) (s : Store) (single : SingleIndex) (document : ByteArray) : convert m s single document = (do
    let hadDirectory ← Store.isPresent s.shardDirectory
    let (hashes, failure) ← writeShards s (.ofSingle single) (m.division (Analysis.ofSingle single).files).toList {}
    let result ←
      match failure with
      | some f => pure (Except.error f)
      | none => attempt (settle s { converted m s single with hashes := hashes })
    match result with
    | .ok () => return { converted m s single with hashes := hashes }
    | .error f =>
      restore s document hashes.keys hadDirectory
      throw f) := by
  unfold convert
  refine bind_congr fun hadDirectory => bind_congr fun ⟨hashes, failure⟩ => ?_
  cases failure <;> rfl

/-- A conversion that succeeds writes the shards and then the core index. -/
theorem convert_ok {single : SingleIndex} {document : ByteArray} {core : CoreIndex} :
    (convert m s single document).exec w = (.ok core, w') ↔ core = converted m s single ∧ ∃ hashes w₁,
      (writeShards s (.ofSingle single) (m.division (Analysis.ofSingle single).files).toList {}).exec w =
        (.ok (hashes, none), w₁) ∧ (s.writeCore core).exec w₁ = (.ok (), w') := by
  have hsettled : ∀ {hashes w₁}, (writeShards s (.ofSingle single) (m.division (Analysis.ofSingle single).files).toList
      {}).exec w = (.ok (hashes, none), w₁) → { converted m s single with hashes := hashes } = converted m s single ∧
        (settle s (converted m s single)).exec w₁ =
          (during "Failed to write core index" (s.writeCore (converted m s single))).exec w₁ := by
    intro hashes w₁ hshards
    obtain ⟨-, rfl, hsharded⟩ := writeShards_converted hs hshards
    exact ⟨rfl, (exec_settle hs hsharded rfl).1⟩
  rw [convert_eq, exec_bind_of_ok (exec_isPresent _ _)]
  constructor
  · intro h
    rw [exec_bind] at h
    rcases hshards : (writeShards s (.ofSingle single) (m.division (Analysis.ofSingle single).files).toList {}).exec w
      with ⟨f | ⟨hashes, failure⟩, w₁⟩
    · rw [hshards] at h
      cases h
    rw [hshards] at h
    cases failure with
    | some f => exact (exec_throw_ne_ok h).elim
    | none =>
      obtain ⟨hcore, hsettle⟩ := hsettled hshards
      dsimp only at h
      rw [hcore, exec_bind, exec_attempt, hsettle, exec_during] at h
      rcases hwrite : (s.writeCore (converted m s single)).exec w₁ with ⟨f | u, w₂⟩
      · rw [hwrite] at h
        dsimp only at h
        split at h
        · next hif =>
          split at hif
          · cases hif
          · cases hif
            exact (exec_throw_ne_ok h).elim
        · cases h
      · rw [hwrite] at h
        cases h
        exact ⟨rfl, hashes, w₁, rfl, hwrite⟩
  · rintro ⟨rfl, hashes, w₁, hshards, hwrite⟩
    obtain ⟨hcore, hsettle⟩ := hsettled hshards
    rw [exec_bind_of_ok hshards]
    dsimp only
    rw [hcore]
    have hattempt : (attempt (settle s (converted m s single))).exec w₁ = (.ok (.ok ()), w') := by
      rw [exec_attempt, hsettle, exec_during, hwrite]
    exact exec_bind_of_ok hattempt

theorem holding_of_convert {single : SingleIndex} {document : ByteArray} {core : CoreIndex}
    (h : (convert m s single document).exec w = (.ok core, w')) : Holding s w'.disk core (.ofSingle single) := by
  obtain ⟨rfl, hashes, w₁, hshards, hwrite⟩ := (convert_ok hs).1 h
  exact (exec_settle hs (writeShards_converted hs hshards).2.2 rfl).2 w' hwrite

end Absolute

theorem exec_isSplit (s : Store) (w : Workspace) : ∃ split, s.isSplit.exec w = (.ok split, w) := by
  unfold isSplit version?
  rw [exec_bind, exec_bind_of_ok (exec_contents _ _)]
  cases w.disk.read (w.here.resolve s.corePath) with
  | ok bytes => exact ⟨_, rfl⟩
  | error e => exact ⟨_, rfl⟩

theorem exec_decode {α : Type} [Document α] (what : String) (bytes : ByteArray) (w : Workspace) :
    (decode what bytes : Action α).exec w = match (decode? bytes : Option α) with
      | some a => (.ok a, w)
      | none => (.error (Failure.ofFault (.malformed what "unexpected contents")), w) := by
  rw [decode]
  cases (decode? bytes : Option α) <;> rfl

/-- A document that is to be migrated. -/
structure Found (s : Store) (w : Workspace) (document : ByteArray) (single : SingleIndex) : Prop where
  read : w.disk.read s.corePlace = .ok document
  decoded : decode? document = some single

/-- How a migration goes, and where it ends. -/
inductive Course (m : Maker) (s : Store) (w : Workspace) : Except Failure MigrationOutcome → Workspace → Prop
  | refused (f : Failure) : Course m s w (.error f) w
  | alreadySplit : Course m s w (.ok .alreadySplit) w
  | unsaved {document : ByteArray} {single : SingleIndex} {f : Failure} {w' : Workspace} (found : Found s w document single)
      (backup : (replaceFile s.backupPath document).exec w = (.error f, w')) (g : Failure) : Course m s w (.error g) w'
  | failed {document : ByteArray} {single : SingleIndex} {f : Failure} {w₁ w' : Workspace} (found : Found s w document single)
      (backup : (replaceFile s.backupPath document).exec w = (.ok (), w₁))
      (conversion : (convert m s single document).exec w₁ = (.error f, w')) : Course m s w (.error f) w'
  | done {document : ByteArray} {single : SingleIndex} {core : CoreIndex} {w₁ w' : Workspace}
      (found : Found s w document single) (backup : (replaceFile s.backupPath document).exec w = (.ok (), w₁))
      (conversion : (convert m s single document).exec w₁ = (.ok core, w')) : Course m s w (.ok (.migrated core)) w'

theorem course {root : String} {r : Except Failure MigrationOutcome} (h : (run m root).exec w = (r, w')) :
    Course m (w.store root) w r w' := by
  have hs := w.isAbsolute_store root
  unfold run at h
  rw [exec_bind] at h
  have hself := Maker.exec_resolveRoot_self root w
  rcases hroot : (Maker.resolveRoot root).exec w with ⟨f | resolved, w₁⟩
  · rw [hroot] at h hself
    cases h
    cases hself
    exact .refused f
  obtain ⟨rfl, -, rfl⟩ := Maker.resolveRoot_ok hroot
  rw [hroot] at h
  dsimp only at h
  have hpath : (w₁.here.resolve root).toPath = (w₁.store root).root := rfl
  rw [hpath] at h
  generalize w₁.store root = s at h hs ⊢
  rw [exec_bind_of_ok (exec_contents _ _), resolve_corePath hs] at h
  split at h
  · cases h
    exact .refused _
  · cases h
    exact .refused _
  next document hdocument =>
  obtain ⟨split, hsplit⟩ := exec_isSplit s w₁
  rw [exec_bind_of_ok hsplit] at h
  cases split with
  | true =>
    cases h
    exact .alreadySplit
  | false =>
    simp only [Bool.false_eq_true, if_false] at h
    rw [exec_bind, exec_decode] at h
    cases hdecode : (decode? document : Option SingleIndex) with
    | none =>
      rw [hdecode] at h
      cases h
      exact .refused _
    | some single =>
      have hfound : Found s w₁ document single := ⟨hdocument, hdecode⟩
      rw [hdecode] at h
      dsimp only at h
      rw [exec_bind, exec_during] at h
      rcases hbackup : (replaceFile s.backupPath document).exec w₁ with ⟨f | u, w₂⟩
      · rw [hbackup] at h
        cases h
        exact .unsaved hfound hbackup _
      rw [hbackup] at h
      dsimp only at h
      rw [exec_bind] at h
      rcases hconvert : (convert m s single document).exec w₂ with ⟨f | core, w₃⟩
      · rw [hconvert] at h
        cases h
        exact .failed hfound hbackup hconvert
      · rw [hconvert] at h
        cases h
        exact .done hfound hbackup hconvert

/-- A migration that succeeds leaves an index as some analysis makes it. -/
theorem run_migrated {root : String} {core : CoreIndex} (h : (run m root).exec w = (.ok (.migrated core), w')) :
    ∃ a, Holding (w.store root) w'.disk core a := by
  cases course h with
  | done found backup conversion => exact ⟨_, holding_of_convert (w.isAbsolute_store root) conversion⟩

end Migration

end CodeIndex
