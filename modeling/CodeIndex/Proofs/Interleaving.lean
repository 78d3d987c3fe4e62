import CodeIndex.Proofs.Sightings
import Mathlib.Logic.Relation

set_option autoImplicit false

/-!
# Runs among edits and commits

A run lists files, examines each, writes shards, takes the time, and writes the core index and the cache.  Between any two
of these steps the user may edit files and commit them, all by one clock.
-/

namespace CodeIndex

open Action Store Update Sighting

/-- A project with its past: what the newest commit has of each file, and which files were committed when. -/
structure Repository where
  workspace : Workspace
  head : String → Option ByteArray
  log : List (Nat × List String)

/-- The file is in a commit that was made at some time or later. -/
def Repository.CommittedSince (σ : Repository) (since : Nat) (file : String) : Prop :=
  ∃ c ∈ σ.log, since ≤ c.1 ∧ file ∈ c.2

/-- Edits leave the documents alone; the cache they may remove.  Files are in states that may be seen afterwards. -/
structure Edited (s : Store) (time : String → Nat) (seen : SourceState → Prop) (w w' : Workspace) : Prop where
  here_eq : w'.here = w.here
  isOpen : w'.disk.IsOpen s.place
  sound : w'.disk.Sound
  documents : s.SameDocuments w.disk w'.disk
  cache : w'.disk.access s.cachePlace = w.disk.access s.cachePlace ∨ w'.disk.holds s.cachePlace = false
  finds : ∀ x, s.Finds w'.disk x → seen x
  clock : time w.now ≤ time w'.now

/-- What the user does at one moment. -/
inductive Meanwhile (s : Store) (time : String → Nat) (seen : SourceState → Prop) : Repository → Repository → Prop
  | edited {σ : Repository} {w : Workspace} (h : Edited s time seen σ.workspace w) :
      Meanwhile s time seen σ { σ with workspace := w }
  | committed {σ : Repository} {head : String → Option ByteArray} {files : List String}
      (h : ∀ file, file ∉ files → head file = σ.head file) :
      Meanwhile s time seen σ { σ with head, log := (time σ.workspace.now, files) :: σ.log }

/-- How far a run has got.  With the time it is noted what the newest commit has then. -/
inductive Stage where
  | begun
  | taking (p : Plan) (rest : List String) (done : List Sighting)
  | written (p : Plan) (done : List Sighting) (hashes : Dict String) (backups : Backups)
  | stamped (p : Plan) (done : List Sighting) (core : CoreIndex) (backups : Backups) (head : String → Option ByteArray)
  | published (p : Plan) (done : List Sighting) (core : CoreIndex) (head : String → Option ByteArray)
  | ended (p : Plan) (done : List Sighting) (core : CoreIndex) (head : String → Option ByteArray)

section Runs

variable (s : Store) (m : Maker) (time : String → Nat) (seen : SourceState → Prop) (listing : Action (Option Plan))

/-- One step of a run that comes to its plan by `listing`, or of the user.  Files are examined in any order. -/
inductive Step : Repository × Stage → Repository × Stage → Prop
  | user {σ σ' : Repository} {g : Stage} (h : Meanwhile s time seen σ σ') : Step (σ, g) (σ', g)
  | list {σ : Repository} {p : Plan} {w : Workspace} (h : listing.exec σ.workspace = (.ok (some p), w)) :
      Step (σ, .begun) ({ σ with workspace := w }, .taking p p.files [])
  | examine {σ : Repository} {p : Plan} {before after : List String} {file : String} {done : List Sighting}
      {o : Option Maker.Finding} {w : Workspace} (h : (m.examineFile p.cache s.root file).exec σ.workspace = (.ok o, w)) :
      Step (σ, .taking p (before ++ file :: after) done)
        ({ σ with workspace := w },
          .taking p (before ++ after) (done ++ (o.map fun finding => ⟨finding, contentOf s σ.workspace file⟩).toList))
  | write {σ : Repository} {p : Plan} {done : List Sighting} {hashes : Dict String} {backups : Backups} {w : Workspace}
      (h : (p.writeShards (p.analysis (findings done))).exec σ.workspace = (.ok (hashes, backups), w)) :
      Step (σ, .taking p [] done) ({ σ with workspace := w }, .written p done hashes backups)
  | stamp {σ : Repository} {p : Plan} {done : List Sighting} {hashes : Dict String} {backups : Backups} :
      Step (σ, .written p done hashes backups)
        (σ, .stamped p done (p.core m s.root (p.analysis (findings done)) hashes σ.workspace.now) backups σ.head)
  | publish {σ : Repository} {p : Plan} {done : List Sighting} {core : CoreIndex} {backups : Backups}
      {head : String → Option ByteArray} {w : Workspace} (h : (p.writeCore core backups).exec σ.workspace = (.ok (), w)) :
      Step (σ, .stamped p done core backups head) ({ σ with workspace := w }, .published p done core head)
  | save {σ : Repository} {p : Plan} {done : List Sighting} {core : CoreIndex} {head : String → Option ByteArray}
      {w : Workspace} (h : (Maker.rememberAll p.cache (findings done)).saveQuietly.exec σ.workspace = (.ok (), w)) :
      Step (σ, .published p done core head) ({ σ with workspace := w }, .ended p done core head)

/-- Any number of steps. -/
abbrev Steps : Repository × Stage → Repository × Stage → Prop := Relation.ReflTransGen (Step s m time seen listing)

end Runs

variable {s : Store} {m : Maker} {time : String → Nat} {seen : SourceState → Prop} {listing : Action (Option Plan)}
  {σ σ' : Repository} {g g' : Stage} {p : Plan} {rest : List String} {done : List Sighting} {core : CoreIndex}
  {w w' : Workspace} {head : String → Option ByteArray} {source : String → Option ByteArray} {ready : Disk → Prop}
  {since : Nat}

/-! ## Runs that are left alone -/

/-- Something is found of a file whose language is known. -/
theorem Maker.finding?_ne_none {cache : OutlineCache} {root file : String} (hplain : Plain file) :
    m.finding? cache w root file ≠ .ok none := by
  obtain ⟨language, hlanguage⟩ := Option.isSome_iff_exists.1 hplain.2
  intro hnone
  rw [finding?, hlanguage] at hnone
  dsimp only at hnone
  cases he : m.examinedAt cache w.disk (w.here.resolve (Path.join root file)) file language with
  | error f =>
    rw [he] at hnone
    cases hnone
  | ok e =>
    rw [he] at hnone
    cases hnone

theorem exec_examineFile_ok {cache : OutlineCache} {root file : String} {o : Option Maker.Finding}
    (h : (m.examineFile cache root file).exec w = (.ok o, w')) : w' = w ∧ m.finding? cache w root file = .ok o := by
  rw [Maker.exec_examineFile] at h
  obtain ⟨hfinding, rfl⟩ := Prod.mk.inj h
  exact ⟨rfl, hfinding⟩

theorem exec_examineFiles_ok {cache : OutlineCache} {root : String} {files : List String} {found : List Maker.Finding}
    (h : (files.filterMapM (m.examineFile cache root)).exec w = (.ok found, w')) : w' = w := by
  rw [exec_filterMapM fun file _ => m.exec_examineFile cache root file w] at h
  exact (Prod.mk.inj h).2.symm

/-- Files are examined in the order in which they are listed. -/
theorem steps_of_filterMapM {files : List String} {found : List Maker.Finding}
    (h : (files.filterMapM (m.examineFile p.cache s.root)).exec σ.workspace = (.ok found, w)) :
    ∃ later, findings later = found ∧ (∀ r ∈ later, r.bytes = contentOf s σ.workspace r.file) ∧
      Steps s m time seen listing (σ, .taking p files done) (σ, .taking p [] (done ++ later)) := by
  induction files generalizing found done with
  | nil =>
    cases h
    refine ⟨[], rfl, by simp, ?_⟩
    rw [List.append_nil]
  | cons file rest ih =>
    rw [List.filterMapM_cons] at h
    obtain ⟨o, w₁, hone, h⟩ := ok_of_exec_bind h
    obtain ⟨rfl, hfinding⟩ := exec_examineFile_ok hone
    have hstep : Step s m time seen listing (σ, .taking p (file :: rest) done) (σ, .taking p rest
        (done ++ (o.map fun finding => ⟨finding, contentOf s σ.workspace file⟩).toList)) :=
      @Step.examine s m time seen listing σ p [] rest file done o _ hone
    cases o with
    | none =>
      rw [Option.map_none, Option.toList_none, List.append_nil] at hstep
      obtain ⟨later, hlater, hbytes, hsteps⟩ := ih h
      exact ⟨later, hlater, hbytes, .head hstep hsteps⟩
    | some finding =>
      obtain ⟨others, w₂, hrest, h⟩ := ok_of_exec_bind h
      cases h
      obtain ⟨later, rfl, hbytes, hsteps⟩ := ih hrest
      rw [List.append_assoc] at hsteps
      refine ⟨_, rfl, ?_, .head hstep hsteps⟩
      intro r hr
      rcases List.mem_cons.1 hr with rfl | hr
      · rw [Sighting.file, (Maker.finding?_eq hfinding).1]
      · exact hbytes r hr

theorem steps_of_conclude {n : Nat} (h : (p.conclude m s.root (findings done)).exec σ.workspace = (.ok (core, n), w)) :
    Steps s m time seen listing (σ, .taking p [] done) ({ σ with workspace := w }, .ended p done core σ.head) := by
  unfold Plan.conclude at h
  obtain ⟨⟨hashes, backups⟩, w₂, hshards, h⟩ := ok_of_exec_bind h
  dsimp only at h
  rw [exec_bind_of_ok (exec_get _)] at h
  obtain ⟨⟨⟩, w₃, hcore, h⟩ := ok_of_exec_bind h
  obtain ⟨⟨⟩, w₄, hsave, h⟩ := ok_of_exec_bind h
  obtain ⟨hpair, rfl⟩ := Prod.mk.inj h
  obtain ⟨rfl, -⟩ := Prod.mk.inj (Except.ok.inj hpair)
  refine .head (.write hshards) ?_
  refine .head .stamp ?_
  refine .head (.publish hcore) ?_
  exact .single (.save hsave)

/-- What the steps of a run come to when nothing happens in between is what the run comes to. -/
theorem steps_of_carryOut {n : Nat} (h : (p.carryOut m s.root).exec σ.workspace = (.ok (core, n), w)) :
    ∃ done, Steps s m time seen listing (σ, .taking p p.files []) ({ σ with workspace := w }, .ended p done core σ.head) := by
  unfold Plan.carryOut at h
  obtain ⟨found, w₁, hfound, h⟩ := ok_of_exec_bind h
  obtain rfl := exec_examineFiles_ok hfound
  obtain ⟨done, rfl, -, hexamined⟩ := steps_of_filterMapM hfound
  exact ⟨done, hexamined.trans (steps_of_conclude h)⟩

/-- A build is such a run. -/
theorem Maker.steps_of_build {root : String} {n : Nat} (hleads : σ.workspace.Leads root s)
    (h : (m.build root).exec σ.workspace = (.ok (core, n), w)) : ∃ p done, Steps s m time seen (some <$> m.plan s.root)
      (σ, .begun) ({ σ with workspace := w }, .ended p done core σ.head) := by
  rw [build_eq_plan] at h
  obtain ⟨resolved, w₁, hroot, h⟩ := ok_of_exec_bind h
  obtain ⟨rfl, -, rfl⟩ := resolveRoot_ok hroot
  rw [show (σ.workspace.here.resolve root).toPath = s.root from congrArg Store.root hleads.store_eq] at h
  obtain ⟨p, w₂, hplan, h⟩ := ok_of_exec_bind h
  have hlist : (some <$> m.plan s.root).exec σ.workspace = (.ok (some p), w₂) := by
    rw [exec_map, hplan]
    rfl
  have hcarried : (p.carryOut m s.root).exec { σ with workspace := w₂ }.workspace = (.ok (core, n), w) := h
  obtain ⟨done, hsteps⟩ := steps_of_carryOut hcarried
  exact ⟨p, done, .head (.list hlist) hsteps⟩

theorem Update.plan_none {root : String} {o : UpdateOutcome} (h : (plan m root).exec w = (.ok (none, o), w')) :
    o = .unchanged := by
  unfold plan at h
  obtain ⟨core, w₁, -, h⟩ := ok_of_exec_bind h
  obtain ⟨⟨⟩, w₂, -, h⟩ := ok_of_exec_bind h
  obtain ⟨c, w₃, -, h⟩ := ok_of_exec_bind h
  split at h
  · cases h
    rfl
  · obtain ⟨⟨p, ids⟩, w₄, -, h⟩ := ok_of_exec_bind h
    cases h

/-- So is an update that finds changes. -/
theorem Update.steps_of_run {root : String} {ids changed : List String} (hleads : σ.workspace.Leads root s)
    (h : (run m root).exec σ.workspace = (.ok (.updated ids changed), w)) : ∃ p done core,
      Steps s m time seen (Prod.fst <$> plan m s.root) (σ, .begun) ({ σ with workspace := w }, .ended p done core σ.head) := by
  rw [run_eq_plan] at h
  obtain ⟨resolved, w₁, hroot, h⟩ := ok_of_exec_bind h
  obtain ⟨rfl, -, rfl⟩ := Maker.resolveRoot_ok hroot
  rw [show (σ.workspace.here.resolve root).toPath = s.root from congrArg Store.root hleads.store_eq] at h
  obtain ⟨⟨p?, o⟩, w₂, hplan, h⟩ := ok_of_exec_bind h
  cases p? with
  | none =>
    obtain rfl := plan_none hplan
    cases h
  | some p =>
    obtain ⟨⟨core, n⟩, w₃, hcarried, h⟩ := ok_of_exec_bind h
    cases h
    have hlist : (Prod.fst <$> plan m s.root).exec σ.workspace = (.ok (some p), w₂) := by
      rw [exec_map, hplan]
      rfl
    replace hcarried : (p.carryOut m s.root).exec { σ with workspace := w₂ }.workspace = (.ok (core, n), w) := hcarried
    obtain ⟨done, hsteps⟩ := steps_of_carryOut hcarried
    exact ⟨p, done, core, .head (.list hlist) hsteps⟩

theorem steps_of_meanwhile (h : Relation.ReflTransGen (Meanwhile s time seen) σ σ') :
    Steps s m time seen listing (σ, g) (σ', g) :=
  h.lift (fun σ => (σ, g)) fun _ _ => .user

/-! ## What every step preserves -/

namespace OutlineCache.Lives

theorem congr (h : Lives s seen w) (hdisk : w'.disk = w.disk) : Lives s seen w' := by
  obtain ⟨hopen, hsound, hdated, hfinds, htruthful⟩ := h
  rw [← hdisk] at hopen hsound hfinds htruthful
  exact ⟨hopen, hsound, hdated, hfinds, htruthful⟩

theorem of_edited (h : Lives s seen w) (hedited : Edited s time seen w w') : Lives s seen w' := by
  refine ⟨hedited.isOpen, hedited.sound, h.dated, hedited.finds, ?_⟩
  rcases hedited.cache with hsame | hgone
  · rw [entries_loaded_congr hsame]
    exact h.truthful
  · rw [entries_loaded_of_holds hgone]
    exact truthful_empty seen

/-- Nothing is edited where the disk stays as it is. -/
theorem edited (h : Lives s seen w) (hdisk : w'.disk = w.disk) (hhere : w'.here = w.here) (hclock : time w.now ≤ time w'.now) :
    Edited s time seen w w' := by
  have hlives := h.congr hdisk
  refine ⟨hhere, hlives.isOpen, hlives.sound, ?_, .inl ?_, hlives.finds, hclock⟩
  · rw [hdisk]
    exact fun _ _ => rfl
  · rw [hdisk]

theorem of_produced (h : Lives s seen w) (hproduced : s.Produced w w') : Lives s seen w' := by
  refine ⟨hproduced.isOpen h.isOpen, hproduced.later.sound h.sound, h.dated, fun x hx => ?_, ?_⟩
  · exact h.finds x (hx.of_agree hproduced.agree.symm)
  · rw [entries_loaded_congr hproduced.cache]
    exact h.truthful

/-- A cache that is true of what was seen may be saved. -/
theorem of_saveQuietly (hs : Path.isAbsolute s.root = true) (h : Lives s seen w) {cache : OutlineCache}
    (hpath : cache.path = some (pathIn s.root)) (hcache : Truthful seen cache.entries) {r : Except Failure Unit}
    (hsave : cache.saveQuietly.exec w = (r, w')) : Lives s seen w' := by
  have hchanged := changed_of_saveQuietly hs hpath hsave
  have hagree : Disk.AgreeOff s.IsOwn w.disk w'.disk :=
    (agreeOff_of_saveQuietly hs hpath h.isOpen hsave).mono fun _ hl => .inr (.inl hl)
  refine ⟨hchanged.frame.isOpen h.isOpen, hchanged.later.sound h.sound, h.dated, fun x hx => ?_, ?_⟩
  · exact h.finds x (hx.of_agree hagree.symm)
  · rcases entries_of_saveQuietly hs hpath hsave with hentries | hsame
    · rw [hentries]
      exact hcache
    · rw [entries_loaded_congr hsame]
      exact h.truthful

end OutlineCache.Lives

theorem Meanwhile.lives (h : Meanwhile s time seen σ σ') (hlives : OutlineCache.Lives s seen σ.workspace) :
    OutlineCache.Lives s seen σ'.workspace := by
  cases h with
  | edited h => exact hlives.of_edited h
  | committed h => exact hlives

theorem Meanwhile.sameDocuments (h : Meanwhile s time seen σ σ') :
    s.SameDocuments σ.workspace.disk σ'.workspace.disk := by
  cases h with
  | edited h => exact h.documents
  | committed h => exact fun _ _ => rfl

/-- Of files that were not committed since some moment the newest commit has what it had then. -/
structure Anchored (time : String → Nat) (since : Nat) (head : String → Option ByteArray) (σ : Repository) : Prop where
  passed : since ≤ time σ.workspace.now
  same : ∀ file, ¬ σ.CommittedSince since file → σ.head file = head file

namespace Anchored

theorem now (time : String → Nat) (σ : Repository) : Anchored time (time σ.workspace.now) σ.head σ :=
  ⟨Nat.le_refl _, fun _ _ => rfl⟩

theorem of_now_eq (h : Anchored time since head σ) (hnow : w.now = σ.workspace.now) :
    Anchored time since head { σ with workspace := w } :=
  ⟨hnow ▸ h.passed, h.same⟩

theorem meanwhile (h : Anchored time since head σ) (hmeanwhile : Meanwhile s time seen σ σ') :
    Anchored time since head σ' := by
  cases hmeanwhile with
  | edited hedited => exact ⟨Nat.le_trans h.passed hedited.clock, h.same⟩
  | @committed head' files hhead =>
    refine ⟨h.passed, fun file hnot => ?_⟩
    -- what is committed now has a date since when the file was not committed
    have hfile : file ∉ files := fun hmem => hnot ⟨_, List.mem_cons_self, h.passed, hmem⟩
    have hbefore : ¬ σ.CommittedSince since file := by
      rintro ⟨c, hc, hsince, hmem⟩
      exact hnot ⟨c, List.mem_cons_of_mem _ hc, hsince, hmem⟩
    exact (hhead file hfile).trans (h.same file hbefore)

end Anchored

/-- A plan is being carried out, and the files that it took up so far were examined faithfully. -/
structure Going (s : Store) (m : Maker) (seen : SourceState → Prop) (source : String → Option ByteArray)
    (ready : Disk → Prop) (p : Plan) (rest : List String) (done : List Sighting) : Prop where
  lawful : p.Lawful s m source ready
  truthful : OutlineCache.Truthful seen p.cache.entries
  taken : Taken m seen p rest done

/-- What holds of a run when it has got to some stage. -/
def Underway (s : Store) (m : Maker) (time : String → Nat) (seen : SourceState → Prop) (source : String → Option ByteArray)
    (ready : Disk → Prop) (σ : Repository) : Stage → Prop
  | .begun => ready σ.workspace.disk
  | .taking p rest done => Going s m seen source ready p rest done ∧ ready σ.workspace.disk
  | .written p done hashes _ =>
    Going s m seen source ready p [] done ∧ p.Stored s (p.analysis (findings done)) hashes σ.workspace.disk
  | .stamped p done core _ head =>
    Going s m seen source ready p [] done ∧ Anchored time (time core.madeAt) head σ ∧
      ∃ hashes now, core = p.core m s.root (p.analysis (findings done)) hashes now ∧
        p.Stored s (p.analysis (findings done)) hashes σ.workspace.disk
  | .published p done core head | .ended p done core head =>
    Going s m seen source ready p [] done ∧ Anchored time (time core.madeAt) head σ ∧
      Standing s m σ.workspace.disk core (p.analysis (findings done))

/-- The user does not undo what a run has achieved. -/
theorem Underway.meanwhile (hstays : ∀ {d d'}, ready d → s.SameDocuments d d' → ready d')
    (h : Underway s m time seen source ready σ g) (hmeanwhile : Meanwhile s time seen σ σ') :
    Underway s m time seen source ready σ' g := by
  have hsame := hmeanwhile.sameDocuments
  cases g with
  | begun => exact hstays h hsame
  | taking p rest done => exact ⟨h.1, hstays h.2 hsame⟩
  | written p done hashes backups =>
    obtain ⟨hgoing, hstored⟩ := h
    exact ⟨hgoing, hstored.of_sameDocuments hgoing.lawful.divides.toProper hsame⟩
  | stamped p done core backups head =>
    obtain ⟨hgoing, hanchored, hashes, now, hcore, hstored⟩ := h
    exact ⟨hgoing, hanchored.meanwhile hmeanwhile, hashes, now, hcore,
      hstored.of_sameDocuments hgoing.lawful.divides.toProper hsame⟩
  | published p done core head =>
    obtain ⟨hgoing, hanchored, hstanding⟩ := h
    exact ⟨hgoing, hanchored.meanwhile hmeanwhile, hstanding.of_sameDocuments hsame⟩
  | ended p done core head =>
    obtain ⟨hgoing, hanchored, hstanding⟩ := h
    exact ⟨hgoing, hanchored.meanwhile hmeanwhile, hstanding.of_sameDocuments hsame⟩

/-- Beside what a run has got to, the cache tells the truth at every moment. -/
def Invariant (s : Store) (m : Maker) (time : String → Nat) (seen : SourceState → Prop) (source : String → Option ByteArray)
    (ready : Disk → Prop) (x : Repository × Stage) : Prop :=
  OutlineCache.Lives s seen x.1.workspace ∧ Underway s m time seen source ready x.1 x.2

theorem Step.preserves (hs : Path.isAbsolute s.root = true) (happart : ToldApart seen)
    (hplanning : Plan.Planning s m source ready listing) {x y : Repository × Stage}
    (hstep : Step s m time seen listing x y) (h : Invariant s m time seen source ready x) :
    Invariant s m time seen source ready y := by
  obtain ⟨hlives, h⟩ := h
  cases hstep with
  | user hmeanwhile => exact ⟨hmeanwhile.lives hlives, h.meanwhile hplanning.stays hmeanwhile⟩
  | list hlist =>
    obtain ⟨halike, hcache, hlawful⟩ := hplanning.lawful h hlist
    refine ⟨hlives.congr halike.disk_eq, ⟨hlawful, ?_, .start m seen _⟩, ?_⟩
    · rw [hcache]
      exact hlives.truthful
    · dsimp only
      rw [halike.disk_eq]
      exact h
  | @examine σ p before after file done o w hexamine =>
    obtain ⟨⟨hlawful, htruthful, htaken⟩, hready⟩ := h
    obtain ⟨rfl, hfinding⟩ := exec_examineFile_ok hexamine
    refine ⟨hlives, ⟨hlawful, htruthful, ?_⟩, hready⟩
    have hplain : Plain file := by
      apply hlawful.plain
      rw [← htaken.perm.mem_iff]
      simp
    cases o with
    | none => exact absurd hfinding (Maker.finding?_ne_none hplain)
    | some finding =>
      obtain ⟨hfaithful, hname⟩ := faithful_of_finding hs hlives happart htruthful hplain hfinding
      exact htaken.next hfaithful hname
  | write hwrite =>
    obtain ⟨⟨hlawful, htruthful, htaken⟩, hready⟩ := h
    obtain ⟨hstored, hchanged⟩ := hlawful.shards (onlyKnows htaken) hready hlives.isOpen hwrite
    exact ⟨hlives.of_produced (.of_changed hlives.isOpen hchanged), ⟨hlawful, htruthful, htaken⟩, hstored⟩
  | @stamp σ =>
    obtain ⟨hgoing, hstored⟩ := h
    exact ⟨hlives, hgoing, .now time σ, _, _, rfl, hstored⟩
  | publish hpublish =>
    obtain ⟨hgoing, hanchored, hashes, now, rfl, hstored⟩ := h
    have hlawful := hgoing.lawful
    obtain ⟨hholding, hchanged⟩ := hlawful.core (hstored.sharded hlawful.divides now) rfl hlives.isOpen hpublish
    refine ⟨hlives.of_produced (.of_changed hlives.isOpen hchanged), hgoing, hanchored.of_now_eq hchanged.now_eq, ?_⟩
    exact Plan.standing_of_holding hholding hstored.hashes_eq (covers hgoing.taken hlawful)
  | @save σ p done core head w hsave =>
    obtain ⟨hgoing, hanchored, hstanding⟩ := h
    have hpath := (Maker.path_rememberAll p.cache (findings done)).trans hgoing.lawful.path
    have htruthful := truthful_rememberAll hgoing.taken.faithful hgoing.truthful
    have hchanged := changed_of_saveQuietly hs hpath hsave
    refine ⟨hlives.of_saveQuietly hs hpath htruthful hsave, hgoing, hanchored.of_now_eq hchanged.now_eq, ?_⟩
    exact hstanding.of_sameDocuments fun l hl => access_of_saveQuietly hs hpath hlives.isOpen hsave hl

/-- So do all steps together, however they are interleaved. -/
theorem Steps.preserve (hs : Path.isAbsolute s.root = true) (happart : ToldApart seen)
    (hplanning : Plan.Planning s m source ready listing) {x y : Repository × Stage}
    (hsteps : Steps s m time seen listing x y) (h : Invariant s m time seen source ready x) :
    Invariant s m time seen source ready y := by
  induction hsteps with
  | refl => exact h
  | tail _ hstep ih => exact hstep.preserves hs happart hplanning ih

end CodeIndex
