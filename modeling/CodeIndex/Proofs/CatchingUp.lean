import CodeIndex.Proofs.Idempotence
import CodeIndex.Proofs.Interleaving

set_option autoImplicit false

/-!
# Catching up with edits and commits

Files are edited and committed while builds and updates are at work, and in between.  An update that nobody disturbs
catches up with all that version control reports then.  Of a file that is not reported the index tells what was read of it
last; that is what the file holds if it was what the newest commit had when the time of the index was taken.
-/

namespace CodeIndex

open Action Store Update Update.Membership Sighting

/-- Version control has a reason to report the file: it was committed since, or differs from the newest commit. -/
def Repository.Reports (σ : Repository) (s : Store) (since : Nat) (file : String) : Prop :=
  σ.CommittedSince since file ∨ contentOf s σ.workspace file ≠ σ.head file

/-- A project was indexed by a build and then updates, among edits and commits.  `source` tells what was read last of its
    files, and `head` what the newest commit had of them when the time of the index was taken. -/
inductive Indexed (s : Store) (m : Maker) (time : String → Nat) (seen : SourceState → Prop) :
    Repository → CoreIndex → (String → Option ByteArray) → (String → Option ByteArray) → Prop
  | built {σ σ' : Repository} {p : Plan} {done : List Sighting} {core : CoreIndex} {head : String → Option ByteArray}
      (hlives : OutlineCache.Lives s seen σ.workspace) (hskip : m.settings.skipDetails = false)
      (h : Steps s m time seen (some <$> m.plan s.root) (σ, .begun) (σ', .ended p done core head)) :
      Indexed s m time seen σ' core (lastRead done fun _ => none) head
  | updated {σ σ' : Repository} {p : Plan} {done : List Sighting} {core core' : CoreIndex}
      {source head head' : String → Option ByteArray} (hindexed : Indexed s m time seen σ core source head)
      (h : Steps s m time seen (Prod.fst <$> Update.plan m s.root) (σ, .begun) (σ', .ended p done core' head')) :
      Indexed s m time seen σ' core' (lastRead done source) head'
  | meanwhile {σ σ' : Repository} {core : CoreIndex} {source head : String → Option ByteArray}
      (hindexed : Indexed s m time seen σ core source head) (h : Meanwhile s time seen σ σ') :
      Indexed s m time seen σ' core source head

variable {s : Store} {m : Maker} {time : String → Nat} {seen : SourceState → Prop} {σ σ' : Repository} {core : CoreIndex}
  {source head : String → Option ByteArray} {a : Analysis} {w w' : Workspace} {file root : String} {bytes : ByteArray}
  {touched : List String}

/-- An index that tells what was read last of its files, and since when version control tells what came after. -/
structure Current (s : Store) (m : Maker) (time : String → Nat) (seen : SourceState → Prop) (σ : Repository)
    (core : CoreIndex) (source head : String → Option ByteArray) (a : Analysis) : Prop where
  lives : OutlineCache.Lives s seen σ.workspace
  standing : Standing s m σ.workspace.disk core a
  recorded : ∀ file ∈ (modulesOf core).files, ∀ bytes, source file = some bytes → m.Records a file bytes
  anchored : Anchored time (time core.madeAt) head σ

/-- A run that has ended leaves an index like that. -/
theorem current_of_steps (hs : Path.isAbsolute s.root = true) (happart : ToldApart seen) {listing : Action (Option Plan)}
    {ready : Disk → Prop} (hplanning : Plan.Planning s m source ready listing)
    (hlives : OutlineCache.Lives s seen σ.workspace) (hready : ready σ.workspace.disk) {p : Plan} {done : List Sighting}
    (h : Steps s m time seen listing (σ, .begun) (σ', .ended p done core head)) :
    Current s m time seen σ' core (lastRead done source) head (p.analysis (findings done)) := by
  obtain ⟨hlives', hgoing, hanchored, hstanding⟩ := Steps.preserve hs happart hplanning h ⟨hlives, hready⟩
  refine ⟨hlives', hstanding, ?_, hanchored⟩
  intro file hfile
  -- the analysis tells of just the files that were planned
  have hcovers := covers hgoing.taken hgoing.lawful
  have hmem := (hcovers.known file).1 ((hstanding.covers.known file).2 hfile)
  exact records hgoing.taken hgoing.lawful file hmem

theorem current_of_indexed (hs : Path.isAbsolute s.root = true) (happart : ToldApart seen)
    (h : Indexed s m time seen σ core source head) : ∃ a, Current s m time seen σ core source head a := by
  induction h with
  | built hlives hskip h => exact ⟨_, current_of_steps hs happart (m.planning hs hskip) hlives trivial h⟩
  | updated hindexed h ih =>
    obtain ⟨a, hcurrent⟩ := ih
    exact ⟨_, current_of_steps hs happart (Update.planning hs hcurrent.recorded) hcurrent.lives hcurrent.standing h⟩
  | meanwhile hindexed h ih =>
    obtain ⟨a, hcurrent⟩ := ih
    exact ⟨a, h.lives hcurrent.lives, hcurrent.standing.of_sameDocuments h.sameDocuments, hcurrent.recorded,
      hcurrent.anchored.meanwhile h⟩

/-! ## Runs as they are -/

/-- A build that nobody disturbs makes an index. -/
theorem Indexed.of_build {n : Nat} (hlives : OutlineCache.Lives s seen σ.workspace) (hskip : m.settings.skipDetails = false)
    (hleads : σ.workspace.Leads root s) (h : (m.build root).exec σ.workspace = (.ok (core, n), w)) :
    ∃ source, Indexed s m time seen { σ with workspace := w } core source σ.head := by
  obtain ⟨p, done, hsteps⟩ := Maker.steps_of_build hleads h
  exact ⟨_, .built hlives hskip hsteps⟩

/-- An update that nobody disturbs keeps the project indexed. -/
theorem Indexed.of_run {o : UpdateOutcome} (happart : ToldApart seen) (hindexed : Indexed s m time seen σ core source head)
    (hleads : σ.workspace.Leads root s) (h : (run m root).exec σ.workspace = (.ok o, w)) :
    ∃ core' source' head', Indexed s m time seen { σ with workspace := w } core' source' head' := by
  cases o with
  | unchanged =>
    obtain ⟨a, hcurrent⟩ := current_of_indexed hleads.isAbsolute happart hindexed
    have hholding := hcurrent.standing.toHolding
    rw [← hleads.store_eq] at hholding
    have halike := (run_spec hholding h).2.1 rfl
    have hedited := hcurrent.lives.edited halike.disk_eq halike.here_eq (Nat.le_of_eq (congrArg time halike.now_eq.symm))
    exact ⟨core, source, head, hindexed.meanwhile (.edited hedited)⟩
  | updated ids changed =>
    obtain ⟨p, done, core', hsteps⟩ := Update.steps_of_run hleads h
    exact ⟨core', _, σ.head, hindexed.updated hsteps⟩

/-- So does a build whose user does something between the examination of the files and all that comes after it. -/
theorem Indexed.of_interrupted (σ σ' : Repository) {w₁ w₂ : Workspace} {p : Plan} {found : List Maker.Finding} {n : Nat}
    (hlives : OutlineCache.Lives s seen σ.workspace) (hskip : m.settings.skipDetails = false)
    (hplan : (m.plan s.root).exec σ.workspace = (.ok p, w₁))
    (hfound : (p.files.filterMapM (m.examineFile p.cache s.root)).exec w₁ = (.ok found, w₂))
    (hmeanwhile : Relation.ReflTransGen (Meanwhile s time seen) { σ with workspace := w₂ } σ')
    (h : (p.conclude m s.root found).exec σ'.workspace = (.ok (core, n), w)) :
    ∃ source, Indexed s m time seen { σ' with workspace := w } core source σ'.head ∧
      ∀ file ∈ found.map Prod.fst, source file = contentOf s w₁ file := by
  have hlist : (some <$> m.plan s.root).exec σ.workspace = (.ok (some p), w₁) := by
    rw [exec_map, hplan]
    rfl
  obtain rfl := exec_examineFiles_ok hfound
  replace hfound : (p.files.filterMapM (m.examineFile p.cache s.root)).exec { σ with workspace := w₂ }.workspace =
      (.ok found, w₂) := hfound
  obtain ⟨done, rfl, hbytes, hsteps⟩ := steps_of_filterMapM hfound
  refine ⟨_, .built hlives hskip (.head (.list hlist) (hsteps.trans ((steps_of_meanwhile hmeanwhile).trans
    (steps_of_conclude h)))), fun file hfile => ?_⟩
  rw [findings, List.map_map, List.mem_map] at hfile
  obtain ⟨r, hr, hname⟩ := hfile
  obtain rfl : r.file = file := hname
  exact lastRead_of_mem hbytes hr

/-! ## Updates -/

/-- What an examination confirms comes of what the file holds. -/
theorem Maker.Confirms.records (hs : Path.isAbsolute s.root = true) (happart : ToldApart seen)
    (hlives : OutlineCache.Lives s seen w) (hplain : Plain file) (h : m.Confirms s w a file)
    (hbytes : contentOf s w file = some bytes) : m.Records a file bytes := by
  obtain ⟨language, hlanguage⟩ := Option.isSome_iff_exists.1 hplain.2
  obtain ⟨e, hexamined, hdetails, hdocs⟩ := h language hlanguage
  have hresult : m.resultOf file language bytes = .ok e.result := by
    rw [← Maker.examinedAt_eq_resultOf hs happart hlives.dated hlives.finds hlives.truthful hplain hlanguage
      (contentOf_eq_some.1 hbytes), hexamined]
    rfl
  exact .of_result hlanguage hresult hdetails hdocs

namespace Update

/-- An update leaves what files hold. -/
theorem Left.contentOf_eq {c : ChangeSet} (hs : Path.isAbsolute s.root = true) (h : Left m s w w' c) (hplain : Plain file) :
    contentOf s w' file = contentOf s w file := by
  rw [contentOf, contentOf, Disk.toOption_read, Disk.toOption_read, h.here_eq,
    h.agree _ (not_isOwn_of_plain hs w.here hplain)]

/-- Of the indexed files those were not reported that are neither to be examined nor to be left out. -/
theorem Sorted.not_touched {c : ChangeSet} (h : Sorted m root core w touched c) (hconsistent : core.Consistent)
    (hfile : file ∈ core.allFiles) (hremoved : file ∉ c.removed.keys) (hmodified : file ∉ c.modified.keys) : file ∉ touched := by
  intro htouched
  cases hindexable : Listing.indexable m.settings w root file with
  | true => exact hmodified ((h.modified file).2 ⟨htouched, hindexable⟩)
  | false =>
    have hmodule := (isSome_moduleFor? hconsistent).2 (mem_allFiles.1 hfile)
    exact hremoved ((h.removed file).2 (.inl ⟨htouched, hindexable, hmodule⟩))

/-- An update that nobody disturbs fails only for reasons outside the index.  When it succeeds, the index tells of every
    file what the file holds now, if version control had a reason to report it, or what was read of it last was what the
    newest commit had when the time of the index was taken.  Of all other files the index tells what was read last. -/
theorem update_catches_up (h : Indexed s m time seen σ core source head) (happart : ToldApart seen)
    (hleads : σ.workspace.Leads root s) (hreports : Reports m σ.workspace core touched)
    (hexact : ∀ file ∈ core.allFiles, file ∈ touched ↔ σ.Reports s (time core.madeAt) file) :
    (∀ f w', (run m root).exec σ.workspace = (.error f, w') → Harmless f) ∧
    ∀ o w', (run m root).exec σ.workspace = (.ok o, w') → ∃ core' a', Standing s m w'.disk core' a' ∧
      ∀ file ∈ core'.allFiles,
        ((file ∈ core.allFiles → σ.Reports s (time core.madeAt) file ∨ source file = head file) →
          ∀ bytes, contentOf s w' file = some bytes → m.Records a' file bytes) ∧
        (file ∈ core.allFiles → ¬ σ.Reports s (time core.madeAt) file →
          ∀ bytes, source file = some bytes → m.Records a' file bytes) := by
  have hs := hleads.isAbsolute
  obtain ⟨a, hlives, hstanding, hrecorded, hanchored⟩ := current_of_indexed hs happart h
  obtain ⟨c, hchanges, hsorted⟩ := hreports.changes s.root
  constructor
  · intro f w' hx
    rw [exec_run_of_standing hleads hstanding] at hx
    exact (proceed_spec hs hstanding.toHolding hx).1 f rfl
  intro o w' hx
  obtain ⟨core', a', hfinished⟩ := finished_of_run hleads hstanding hchanges hsorted hx
  refine ⟨core', a', hfinished.standing, fun file hfile => ?_⟩
  replace hfile : file ∈ (modulesOf core').files := ModuleMap.mem_files.2 (mem_allFiles.1 hfile)
  have hplain := hfinished.standing.covers.plain file hfile
  have hcontent := hfinished.toLeft.contentOf_eq hs hplain
  by_cases hmodified : file ∈ c.modified.keys
  · -- the file was examined by this update
    have hconfirms := hfinished.confirms file hmodified
    refine ⟨fun _ bytes hbytes => hconfirms.records hs happart hlives hplain (hcontent ▸ hbytes), ?_⟩
    intro hold hnot
    exact absurd ((hexact file hold).1 ((hsorted.modified file).1 hmodified).1) hnot
  · -- the file was not reported, so it holds what the newest commit had when the time was taken
    obtain ⟨hold, hkept⟩ := ((hfinished.files file).1 hfile).resolve_right hmodified
    obtain ⟨hdetails, hdocs⟩ := hfinished.others file hkept hmodified
    have hrecords : ∀ bytes, source file = some bytes → m.Records a' file bytes := fun bytes hbytes =>
      (hrecorded file hold bytes hbytes).congr hdetails hdocs
    refine ⟨fun hcondition bytes hbytes => hrecords bytes ?_, fun _ _ => hrecords⟩
    have hmem : file ∈ core.allFiles := mem_allFiles.2 (ModuleMap.mem_files.1 hold)
    have hnot : ¬ σ.Reports s (time core.madeAt) file := by
      rw [← hexact file hmem]
      exact hsorted.not_touched hstanding.consistent hmem hkept hmodified
    obtain ⟨hcommitted, hsame⟩ := not_or.1 hnot
    calc source file = head file := (hcondition hmem).resolve_left hnot
      _ = σ.head file := (hanchored.same file hcommitted).symm
      _ = contentOf s σ.workspace file := (not_not.1 hsame).symm
      _ = some bytes := hcontent ▸ hbytes

/-! ### A document that gets another title while it is indexed -/

/-- Seconds since the beginning of 1970. -/
def seconds (text : String) : Nat := ((Moment.ofText? text).map fun t => t.seconds.toNat).getD 0

/-- The project with one document, with another title. -/
def retitled : Disk := Migration.documented.disk.put ["demo", "README.md"] (.file "# Test".toUTF8 2)

def SeenRetitled (x : SourceState) : Prop := Finds ⟨"/demo"⟩ Migration.documented.disk x ∨ Finds ⟨"/demo"⟩ retitled x

theorem sound_retitled : retitled.Sound := by
  have hopen : Migration.documented.disk.IsOpen ["demo"] := rfl
  change (Migration.documented.disk.put (["demo"] ++ ["README.md"]) _).Sound
  exact Migration.sound_documented.put hopen _

theorem finds_documented {x : SourceState} (h : Finds ⟨"/demo"⟩ Migration.documented.disk x) :
    x = ⟨["demo", "README.md"], 1, "# Demo".toUTF8⟩ := by
  have hmem := (Migration.sound_documented.mem_entries h.place_ne_nil).2 h.access
  simp only [Migration.documented, List.mem_cons, List.not_mem_nil, or_false, Prod.mk.injEq] at hmem
  rcases hmem with ⟨-, hnode⟩ | ⟨hplace, hnode⟩
  · cases hnode
  · cases x
    cases hplace
    cases hnode
    rfl

theorem finds_retitled {x : SourceState} (h : Finds ⟨"/demo"⟩ retitled x) :
    x = ⟨["demo", "README.md"], 2, "# Test".toUTF8⟩ := by
  have hentries : retitled.entries = [(["demo", "README.md"], .file "# Test".toUTF8 2), (["demo"], .directory)] := rfl
  have hmem := (sound_retitled.mem_entries h.place_ne_nil).2 h.access
  simp only [hentries, List.mem_cons, List.not_mem_nil, or_false, Prod.mk.injEq] at hmem
  rcases hmem with ⟨hplace, hnode⟩ | ⟨-, hnode⟩
  · cases x
    cases hplace
    cases hnode
    rfl
  · cases hnode

theorem toldApart_retitled : ToldApart SeenRetitled := by
  have hdigests : Digest.ofString (SourceState.keyText ⟨["demo", "README.md"], 1, "# Demo".toUTF8⟩) ≠
      Digest.ofString (SourceState.keyText ⟨["demo", "README.md"], 2, "# Test".toUTF8⟩) := by decide +kernel
  constructor
  · rintro x (hx | hx)
    · rw [finds_documented hx]
      decide
    · rw [finds_retitled hx]
      decide
  · rintro x y (hx | hx) (hy | hy) hsame
    · rw [finds_documented hx, finds_documented hy]
    · rw [finds_documented hx, finds_retitled hy] at hsame
      exact absurd hsame hdigests
    · rw [finds_retitled hx, finds_documented hy] at hsame
      exact absurd hsame.symm hdigests
    · rw [finds_retitled hx, finds_retitled hy]

theorem place_demo : place ⟨"/demo"⟩ = ["demo"] := rfl

theorem lives_retitled : OutlineCache.Lives ⟨"/demo"⟩ SeenRetitled Migration.documented := by
  refine ⟨?_, Migration.sound_documented, ?_, fun x hx => .inl hx, ?_⟩
  · rw [place_demo]
    rfl
  · apply (dated_finds _ _).or
    intro x y hx hy _ htime
    rw [finds_retitled hx, finds_documented hy] at htime
    cases htime
  · rw [OutlineCache.entries_loaded_of_holds rfl]
    exact OutlineCache.truthful_empty _

/-- A document with another title is still in its place, and nothing else is anywhere else. -/
theorem access_retitled {l : Location} {name : String} {rest : List String} (hl : l = place ⟨"/demo"⟩ ++ name :: rest)
    (hname : name ≠ "README.md") : retitled.access l = Migration.documented.disk.access l := by
  apply Disk.access_put_elsewhere _ _ (by simp)
  rw [hl, place_demo]
  simpa using hname.symm

theorem edited_retitled {v : Workspace} (hdisk : v.disk = Migration.documented.disk) (now : String)
    (hnow : seconds v.now ≤ seconds now) :
    Edited ⟨"/demo"⟩ seconds SeenRetitled v { v with disk := retitled, now } := by
  refine ⟨rfl, ?_, sound_retitled, ?_, .inl ?_, fun x hx => .inr hx, hnow⟩
  · rw [place_demo]
    rfl
  · intro l hl
    rw [hdisk]
    cases hl with
    | core => exact access_retitled rfl (by decide)
    | shard hid =>
      rw [shardPlace_of_isValid _ hid, shardsPlace, List.append_assoc]
      exact access_retitled rfl (by decide)
  · rw [hdisk, cachePlace, List.append_assoc]
    exact access_retitled rfl (by decide)

/-- A commit that has the document alone. -/
def onlyReadme (text : String) (file : String) : Option ByteArray :=
  if file = "README.md" then some text.toUTF8 else none

/-- What can happen to the document's past while it gets the other title. -/
def BecomesRetitled (head : String → Option ByteArray) (log : List (Nat × List String)) : Prop :=
  ∀ v : Workspace, v.disk = Migration.documented.disk → v.now = Migration.documented.now →
    Relation.ReflTransGen (Meanwhile ⟨"/demo"⟩ seconds SeenRetitled) ⟨v, onlyReadme "# Demo", []⟩
      ⟨{ v with disk := retitled, now := "2026-01-01T00:00:02Z" }, head, log⟩

/-- The title need not be committed. -/
theorem becomesRetitled_uncommitted : BecomesRetitled (onlyReadme "# Demo") [] := by
  intro v hdisk hnow
  refine .single (.edited (edited_retitled hdisk "2026-01-01T00:00:02Z" ?_))
  rw [hnow]
  decide

/-- If it is committed, the clock goes on. -/
theorem becomesRetitled_committed :
    BecomesRetitled (onlyReadme "# Test") [(seconds "2026-01-01T00:00:01Z", ["README.md"])] := by
  intro v hdisk hnow
  have hclock : seconds v.now ≤ seconds "2026-01-01T00:00:01Z" := by
    rw [hnow]
    decide
  have hedited := edited_retitled hdisk "2026-01-01T00:00:01Z" hclock
  have hothers : ∀ file, file ∉ ["README.md"] → onlyReadme "# Test" file = onlyReadme "# Demo" file := by
    intro file hfile
    rw [List.mem_singleton] at hfile
    rw [onlyReadme, onlyReadme, if_neg hfile, if_neg hfile]
  have hlives := (lives_retitled.congr hdisk).of_edited hedited
  refine .head (.edited hedited) (.head (.committed hothers) (.single (.edited (hlives.edited rfl rfl ?_))))
  exact (by decide : seconds "2026-01-01T00:00:01Z" ≤ seconds "2026-01-01T00:00:02Z")

/-- A build of the project whose user gives the document another title after it was examined. -/
def interrupted : Action ((CoreIndex × Nat) × List String) := do
  let p ← (Maker.ofSettings .default).plan "/demo"
  let found ← p.files.filterMapM ((Maker.ofSettings .default).examineFile p.cache "/demo")
  modify fun w => { w with disk := retitled, now := "2026-01-01T00:00:02Z" }
  let r ← p.conclude (Maker.ofSettings .default) "/demo" found
  return (r, found.map Prod.fst)

theorem leads_demo {v : Workspace} (hhere : v.here = ["demo"]) : v.Leads "." ⟨"/demo"⟩ := by
  have hleads : Migration.documented.Leads "." ⟨"/demo"⟩ := ⟨rfl, rfl⟩
  exact hleads.congr hhere

/-- Whatever becomes of the document's past meanwhile, the project is indexed then, and what was read last of the document is
    what it held before. -/
theorem indexed_interrupted {head : String → Option ByteArray} {log : List (Nat × List String)}
    (hpast : BecomesRetitled head log) : ∃ core n w source,
    interrupted.exec Migration.documented = (.ok ((core, n), ["README.md"]), w) ∧ core.allFiles = ["README.md"] ∧
    core.madeAt = "2026-01-01T00:00:02Z" ∧ w.here = ["demo"] ∧
    contentOf ⟨"/demo"⟩ w "README.md" = some "# Test".toUTF8 ∧
    Indexed ⟨"/demo"⟩ (Maker.ofSettings .default) seconds SeenRetitled ⟨w, head, log⟩ core source head ∧
    source "README.md" = some "# Demo".toUTF8 := by
  have hruns : endsOk (fun r w => r.1.1.allFiles == ["README.md"] && r.1.1.madeAt == "2026-01-01T00:00:02Z" &&
      r.2 == ["README.md"] && w.here == ["demo"] && decide (contentOf ⟨"/demo"⟩ w "README.md" = some "# Test".toUTF8))
      (interrupted.exec Migration.documented) = true := by decide +kernel
  obtain ⟨⟨⟨core, n⟩, names⟩, w, hrun, htest⟩ := endsOk_iff.1 hruns
  simp only [Bool.and_eq_true, beq_iff_eq, decide_eq_true_eq] at htest
  obtain ⟨⟨⟨⟨hall, hmade⟩, rfl⟩, hhere⟩, hcontent⟩ := htest
  have hparts := hrun
  unfold interrupted at hparts
  obtain ⟨p, w₁, hplan, hparts⟩ := ok_of_exec_bind hparts
  obtain ⟨found, w₂, hfound, hparts⟩ := ok_of_exec_bind hparts
  rw [exec_bind_of_ok (exec_modify _ _)] at hparts
  obtain ⟨r, w₃, hconclude, hparts⟩ := ok_of_exec_bind hparts
  obtain ⟨hpair, rfl⟩ := Prod.mk.inj hparts
  obtain ⟨rfl, hnames⟩ := Prod.mk.inj (Except.ok.inj hpair)
  obtain ⟨ha, -, -⟩ := (Maker.ofSettings .default).lawful_plan (by decide) rfl hplan
  obtain rfl := exec_examineFiles_ok hfound
  obtain ⟨source, hindexed, hsource⟩ := Indexed.of_interrupted ⟨Migration.documented, onlyReadme "# Demo", []⟩
    ⟨_, head, log⟩ lives_retitled rfl hplan hfound (hpast w₂ ha.disk_eq ha.now_eq) hconclude
  refine ⟨core, n, w₃, source, hrun, hall, hmade, hhere, hcontent, hindexed, ?_⟩
  rw [hsource "README.md" (by simp [hnames]), contentOf, ha.disk_eq, ha.here_eq]
  rfl

/-- What an update comes to after that build, with what version control answers then. -/
def outcomeWith (history : History) : Except Failure UpdateOutcome :=
  match interrupted.exec Migration.documented with
  | (.ok r, w) => ((proceed (Maker.ofSettings .default) "/demo" r.1.1).exec { w with history }).1
  | (.error f, _) => .error f

/-- An update then starts from that index, with what version control answers. -/
theorem updated_interrupted {history : History} {o : UpdateOutcome} {head : String → Option ByteArray}
    {log : List (Nat × List String)} (hpast : BecomesRetitled head log) (houtcome : outcomeWith history = .ok o) :
    ∃ core n w v source a w',
    interrupted.exec Migration.documented = (.ok ((core, n), ["README.md"]), w) ∧ v = { w with history } ∧
    core.allFiles = ["README.md"] ∧ core.madeAt = "2026-01-01T00:00:02Z" ∧ v.Leads "." ⟨"/demo"⟩ ∧
    contentOf ⟨"/demo"⟩ v "README.md" = some "# Test".toUTF8 ∧ source "README.md" = some "# Demo".toUTF8 ∧
    Indexed ⟨"/demo"⟩ (Maker.ofSettings .default) seconds SeenRetitled ⟨v, head, log⟩ core source head ∧
    Current ⟨"/demo"⟩ (Maker.ofSettings .default) seconds SeenRetitled ⟨v, head, log⟩ core source head a ∧
    (run (Maker.ofSettings .default) ".").exec v = (.ok o, w') := by
  obtain ⟨core, n, w, source, hrun, hall, hmade, hhere, hcontent, hindexed, hsource⟩ := indexed_interrupted hpast
  rw [outcomeWith, hrun] at houtcome
  dsimp only at houtcome
  obtain ⟨a, hcurrent⟩ := current_of_indexed (by decide) toldApart_retitled hindexed
  obtain ⟨v, hv⟩ : ∃ v : Workspace, v = { w with history } := ⟨_, rfl⟩
  rw [← hv] at houtcome
  have hdisk : v.disk = w.disk := by rw [hv]
  have hsame : v.here = w.here ∧ v.now = w.now := by
    rw [hv]
    exact ⟨rfl, rfl⟩
  have hlater := hindexed.meanwhile (.edited (hcurrent.lives.edited hdisk hsame.1 (Nat.le_of_eq (by rw [hsame.2]))))
  have hlives := hcurrent.lives.congr hdisk
  have hstanding : Standing ⟨"/demo"⟩ (Maker.ofSettings .default) v.disk core a := by
    rw [hdisk]
    exact hcurrent.standing
  have hleads : v.Leads "." ⟨"/demo"⟩ := leads_demo (hsame.1.trans hhere)
  rcases hupdate : (run (Maker.ofSettings .default) ".").exec v with ⟨r, w'⟩
  have hexec := exec_run_of_standing hleads hstanding
  rw [hupdate] at hexec
  obtain rfl : r = .ok o := (congrArg Prod.fst hexec).trans houtcome
  refine ⟨core, n, w, v, source, a, w', hrun, hv, hall, hmade, hleads, ?_, hsource, hlater, ?_, hupdate⟩
  · rw [contentOf, hdisk, hsame.1]
    exact hcontent
  · exact ⟨hlives, hstanding, hcurrent.recorded, hcurrent.anchored.of_now_eq hsame.2⟩

/-- An edit that is not committed is reported, and an update catches up with it, though it came while the document was
    indexed. -/
theorem update_catches_up_retitled : ∃ core n w v source w' core' a',
    interrupted.exec Migration.documented = (.ok ((core, n), ["README.md"]), w) ∧
    v = { w with history := uncommitted.history } ∧
    Indexed ⟨"/demo"⟩ (Maker.ofSettings .default) seconds SeenRetitled ⟨v, onlyReadme "# Demo", []⟩ core source
      (onlyReadme "# Demo") ∧
    source "README.md" = some "# Demo".toUTF8 ∧ ToldApart SeenRetitled ∧ v.Leads "." ⟨"/demo"⟩ ∧
    Reports (Maker.ofSettings .default) v core ["README.md"] ∧
    (∀ file ∈ core.allFiles, file ∈ ["README.md"] ↔
      Repository.Reports ⟨v, onlyReadme "# Demo", []⟩ ⟨"/demo"⟩ (seconds core.madeAt) file) ∧
    (run (Maker.ofSettings .default) ".").exec v = (.ok (.updated ["root"] ["README.md"]), w') ∧
    Standing ⟨"/demo"⟩ (Maker.ofSettings .default) w'.disk core' a' ∧
    (Maker.ofSettings .default).Records a' "README.md" "# Test".toUTF8 := by
  have houtcome : outcomeWith uncommitted.history = .ok (.updated ["root"] ["README.md"]) := by decide +kernel
  obtain ⟨core, n, w, v, source, a, w', hrun, hv, hall, -, hleads, hcontent, hsource, hindexed, hcurrent, hupdate⟩ :=
    updated_interrupted becomesRetitled_uncommitted houtcome
  have hreports : Reports (Maker.ofSettings .default) v core ["README.md"] := reports_of_uncommitted core (by rw [hv])
  have hexact : ∀ file ∈ core.allFiles, file ∈ ["README.md"] ↔
      Repository.Reports ⟨v, onlyReadme "# Demo", []⟩ ⟨"/demo"⟩ (seconds core.madeAt) file := by
    rw [hall]
    intro file hfile
    obtain rfl := List.mem_singleton.1 hfile
    refine ⟨fun _ => .inr ?_, fun _ => hfile⟩
    dsimp only
    rw [hcontent]
    decide
  obtain ⟨core', a', hstanding', hrecords⟩ :=
    (update_catches_up hindexed toldApart_retitled hleads hreports hexact).2 _ _ hupdate
  refine ⟨core, n, w, v, source, w', core', a', hrun, hv, hindexed, hsource, toldApart_retitled, hleads, hreports, hexact,
    hupdate, hstanding', ?_⟩
  -- the document is still indexed
  obtain ⟨c, hchanges, hsorted⟩ := hreports.changes "/demo"
  obtain ⟨core₂, a₂, hfinished⟩ := finished_of_run hleads hcurrent.standing hchanges hsorted hupdate
  obtain rfl : core₂ = core' := Option.some.inj (hfinished.standing.coreOn?.symm.trans hstanding'.coreOn?)
  have hindexable : Listing.indexable Settings.default v "/demo" "README.md" = true := by
    obtain ⟨time, haccess⟩ := Disk.access_of_read (contentOf_eq_some.1 hcontent)
    have hplain : Store.isOutput "README.md" = false ∧ (Text.pieces '/' "README.md").any
        excludedDirectories.contains = false ∧ (Language.ofPath? "README.md").isNone = false := ⟨rfl, rfl, rfl⟩
    rw [Listing.indexable, hplain.1, hplain.2.1, hplain.2.2, haccess]
    exact (by decide : decide ("# Test".toUTF8.size ≤ Settings.default.maxFileSize) = true)
  have hmodified : "README.md" ∈ c.modified.keys := (hsorted.modified _).2 ⟨List.mem_cons_self, hindexable⟩
  have hfile : "README.md" ∈ (modulesOf core₂).files := (hfinished.files _).2 (.inr hmodified)
  refine (hrecords "README.md" (mem_allFiles.2 (ModuleMap.mem_files.1 hfile))).1 (fun hold => ?_) _ ?_
  · exact .inl ((hexact _ hold).1 List.mem_cons_self)
  · rw [hfinished.toLeft.contentOf_eq (by decide) (hfinished.standing.covers.plain _ hfile), hcontent]

theorem reports_of_documented (core : CoreIndex) {v : Workspace} (hv : v.history = Migration.documented.history) :
    Reports (Maker.ofSettings .default) v core [] := by
  constructor
  · rw [History.fst_exec_isWorkTree, hv]
    rfl
  · have hanswers : v.history (.committedSince core.madeAt) = .output "".toUTF8 ∧
        v.history .uncommitted = .output "".toUTF8 ∧ v.history .newFiles = .output "".toUTF8 := by
      rw [hv]
      exact ⟨rfl, rfl, rfl⟩
    rw [History.fst_exec_touchedSince _ hanswers.1 hanswers.2.1 hanswers.2.2]
    decide +kernel

/-- An edit that is committed while the document is indexed, before the time of the index is taken, is not reported then. -/
theorem update_misses_commit : ∃ core n w v source w' a,
    interrupted.exec Migration.documented = (.ok ((core, n), ["README.md"]), w) ∧
    v = { w with history := Migration.documented.history } ∧
    Indexed ⟨"/demo"⟩ (Maker.ofSettings .default) seconds SeenRetitled
      ⟨v, onlyReadme "# Test", [(seconds "2026-01-01T00:00:01Z", ["README.md"])]⟩ core source (onlyReadme "# Test") ∧
    v.Leads "." ⟨"/demo"⟩ ∧ Reports (Maker.ofSettings .default) v core [] ∧
    (∀ file ∈ core.allFiles, file ∈ [] ↔ Repository.Reports
      ⟨v, onlyReadme "# Test", [(seconds "2026-01-01T00:00:01Z", ["README.md"])]⟩ ⟨"/demo"⟩ (seconds core.madeAt) file) ∧
    (run (Maker.ofSettings .default) ".").exec v = (.ok .unchanged, w') ∧
    core.allFiles = ["README.md"] ∧ contentOf ⟨"/demo"⟩ w' "README.md" = some "# Test".toUTF8 ∧
    Standing ⟨"/demo"⟩ (Maker.ofSettings .default) w'.disk core a ∧
    ¬ (Maker.ofSettings .default).Records a "README.md" "# Test".toUTF8 := by
  have houtcome : outcomeWith Migration.documented.history = .ok .unchanged := by decide +kernel
  obtain ⟨core, n, w, v, source, a, w', hrun, hv, hall, hmade, hleads, hcontent, hsource, hindexed, hcurrent, hupdate⟩ :=
    updated_interrupted becomesRetitled_committed houtcome
  have hexact : ∀ file ∈ core.allFiles, file ∈ [] ↔ Repository.Reports
      ⟨v, onlyReadme "# Test", [(seconds "2026-01-01T00:00:01Z", ["README.md"])]⟩ ⟨"/demo"⟩ (seconds core.madeAt) file := by
    rw [hall, hmade]
    intro file hfile
    obtain rfl := List.mem_singleton.1 hfile
    refine ⟨fun h => absurd h List.not_mem_nil, ?_⟩
    rintro (⟨c, hc, hsince, -⟩ | hdiffers)
    · -- the commit is dated before the index
      rw [List.mem_singleton.1 hc] at hsince
      exact absurd hsince (by decide)
    · exact absurd hcontent hdiffers
  have hholding := hcurrent.standing.toHolding
  rw [← hleads.store_eq] at hholding
  have halike := (run_spec hholding hupdate).2.1 rfl
  refine ⟨core, n, w, v, source, w', a, hrun, hv, hindexed, hleads, reports_of_documented core (by rw [hv]), hexact, hupdate,
    hall, ?_, halike.disk_eq ▸ hcurrent.standing, ?_⟩
  · rw [contentOf, halike.disk_eq, halike.here_eq]
    exact hcontent
  · -- what the index tells is the other title
    have hfile : "README.md" ∈ (modulesOf core).files := ModuleMap.mem_files.2 (mem_allFiles.1 (by simp [hall]))
    intro htest
    obtain ⟨e, -, he, -, hdocs⟩ := hcurrent.recorded _ hfile _ hsource .markdown rfl
    obtain ⟨e', -, he', -, hdocs'⟩ := htest .markdown rfl
    have hdiffer : ((Maker.ofSettings .default).resultOf "README.md" .markdown "# Demo".toUTF8).map Maker.Examined.doc? ≠
        ((Maker.ofSettings .default).resultOf "README.md" .markdown "# Test".toUTF8).map Maker.Examined.doc? := by
      decide +kernel
    rw [he, he'] at hdiffer
    exact hdiffer (congrArg Except.ok (hdocs.symm.trans hdocs'))

end Update

end CodeIndex
