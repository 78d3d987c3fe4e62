import CodeIndex.Proofs.Analysis
import CodeIndex.Proofs.Looking

set_option autoImplicit false

/-!
# What an analysis holds of each file

Files are examined one by one, each by itself.  What is recorded of a file depends on what the disk holds at its
place, on the cache and on its newest commit.
-/

namespace CodeIndex

open Action

/-- The key of a place in its present state. -/
def OutlineCache.keyAt? (d : Disk) (place : Location) : Option String :=
  match d.access place with
  | .ok (.file bytes time) => some (keyOf place time bytes.size)
  | .ok .directory => some (keyOf place 0 0)
  | .error _ => none

theorem OutlineCache.exec_key? (path : String) (w : Workspace) :
    (key? path).exec w = (.ok (keyAt? w.disk (w.here.resolve path)), w) := by
  unfold key? keyAt?
  rw [exec_bind_of_ok (exec_locate _ _), exec_bind_of_ok (exec_look _ _)]
  rcases w.disk.access (w.here.resolve path) with e | node
  · rfl
  · cases node <;> rfl

/-- Where the cache of a project is kept, as a path. -/
def OutlineCache.pathIn (root : String) : String := Path.join (Path.join root directory) fileName

/-- The cache that the disk holds at a place. -/
def OutlineCache.loaded (d : Disk) (root : String) (place : Location) : OutlineCache :=
  let found := match d.read place with
    | .ok bytes => (String.fromUTF8? bytes).bind fun text => (Json.read? text).bind entries?
    | .error _ => none
  { empty with path := some (pathIn root), entries := found.getD {} }

theorem OutlineCache.exec_load (root : String) (w : Workspace) :
    (load root).exec w = (.ok (loaded w.disk root (w.here.resolve (pathIn root))), w) := by
  unfold load loaded pathIn
  rw [exec_bind_of_ok (Store.exec_contents _ _)]
  cases w.disk.read (w.here.resolve (Path.join (Path.join root directory) fileName)) <;> rfl

namespace Maker

variable {m : Maker} {w w' : Workspace} {cache cache' : OutlineCache} {root file : String} {language : Language}

/-- What comes of reading a source file. -/
def sourceAt (d : Disk) (place : Location) (language : Language) (key : Option String) : Except Failure Examined :=
  match d.readText place with
  | none => .ok .unreadable
  | some text =>
    match Reading.ofText language text with
    | .outline o => .ok (.outline o key)
    | .unsupported => .ok .listed
    | .unscannable => .error ⟨[], .unscannable⟩

/-- What comes of examining a file that is at a place. -/
def examinedAt (m : Maker) (cache : OutlineCache) (d : Disk) (place : Location) (file : String) (language : Language) :
    Except Failure Examined :=
  if language.isDocumentation then
    .ok (.documentation (m.tiers.tierOf file) (((d.readText place).map Synopsis.ofText).getD .empty))
  else if !m.readsOutlines then .ok .listed
  else
    match (OutlineCache.keyAt? d place).bind cache.entries.get? with
    | some o => .ok (.outline o none)
    | none => sourceAt d place language (OutlineCache.keyAt? d place)

theorem exec_examine (m : Maker) (cache : OutlineCache) (root file : String) (language : Language) (w : Workspace) :
    (m.examine cache root file language).exec w =
      (m.examinedAt cache w.disk (w.here.resolve (Path.join root file)) file language, w) := by
  unfold examine examinedAt
  cases language.isDocumentation with
  | true => rfl
  | false =>
    cases m.readsOutlines with
    | false => rfl
    | true =>
      simp only [Bool.false_eq_true, if_false, Bool.not_true]
      rw [exec_bind_of_ok (OutlineCache.exec_key? _ _)]
      cases (OutlineCache.keyAt? w.disk (w.here.resolve (Path.join root file))).bind cache.entries.get? with
      | some o => rfl
      | none =>
        unfold examineSource sourceAt
        dsimp only
        rw [exec_bind_of_ok (exec_locate _ _), exec_bind_of_ok (exec_look _ _)]
        rcases w.disk.readText (w.here.resolve (Path.join root file)) with _ | text
        · rfl
        · dsimp only
          cases Reading.ofText language text <;> rfl

/-- What comes of a file depends on what the disk holds at its place. -/
theorem examinedAt_congr {d d' : Disk} {place : Location} (h : d'.access place = d.access place) :
    m.examinedAt cache d' place file language = m.examinedAt cache d place file language := by
  have htext : d'.readText place = d.readText place := by rw [Disk.readText, Disk.readText, Disk.read_congr h]
  have hkey : OutlineCache.keyAt? d' place = OutlineCache.keyAt? d place := by
    rw [OutlineCache.keyAt?, OutlineCache.keyAt?, h]
  simp only [examinedAt, sourceAt, htext, hkey]

/-- Only the entries of the cache count. -/
theorem examinedAt_entries {d : Disk} {place : Location} (h : cache'.entries = cache.entries) :
    m.examinedAt cache' d place file language = m.examinedAt cache d place file language := by
  simp only [examinedAt, h]

/-- The details of a file by what became of it. -/
def Examined.entry (language : Language) (commit : Option Commit) : Examined → FileEntry
  | .documentation _ _ => ⟨language, {}, false, commit⟩
  | .outline o _ => ⟨language, o, false, commit⟩
  | .listed => { FileEntry.listed language with commit := commit }
  | .unreadable => { FileEntry.listed language with commit := commit }

/-- The documentation in a file by what became of it. -/
def Examined.doc? : Examined → Option (DocTier × Synopsis)
  | .documentation tier synopsis => some (tier, synopsis)
  | _ => none

theorem get?_details_record (a : Analysis) (file : String) (language : Language) (commit : Option Commit) (e : Examined)
    (path : String) : (record a file language commit e).details.get? path =
      if path = file then some (e.entry language commit) else a.details.get? path := by
  cases e <;> simp only [record, Dict.get?_insert, Examined.entry, eq_comm]

theorem get?_docs_record (a : Analysis) (file : String) (language : Language) (commit : Option Commit) (e : Examined)
    (path : String) : (record a file language commit e).docs.get? path =
      if path = file then e.doc?.or (a.docs.get? path) else a.docs.get? path := by
  cases e with
  | documentation tier synopsis =>
    simp only [record, Dict.get?_insert, Examined.doc?, eq_comm, Option.some_or]
  | outline o key => simp [record, Examined.doc?]
  | listed => simp [record, Examined.doc?]
  | unreadable => simp [record, Examined.doc?]

/-- What one file is recorded by. -/
abbrev Finding := String × Language × Examined

/-- Recording goes on in the analysis and in the cache by themselves. -/
def recordAll (commits : Dict Commit) (a : Analysis) (found : List Finding) : Analysis :=
  found.foldl (fun a e => record a e.1 e.2.1 (commits.get? e.1) e.2.2) a

def rememberAll (cache : OutlineCache) (found : List Finding) : OutlineCache :=
  found.foldl (fun c e => remember c e.2.2) cache

theorem foldl_pair (commits : Dict Commit) (found : List Finding) (a : Analysis) (cache : OutlineCache) :
    found.foldl (fun (a, c) (file, language, e) => (record a file language (commits.get? file) e, remember c e))
      (a, cache) = (recordAll commits a found, rememberAll cache found) := by
  induction found generalizing a cache with
  | nil => rfl
  | cons e rest ih => exact ih _ _

/-- What is found of a file of a project. -/
def finding? (m : Maker) (cache : OutlineCache) (w : Workspace) (root file : String) : Except Failure (Option Finding) :=
  match Language.ofPath? file with
  | none => .ok none
  | some language =>
    (m.examinedAt cache w.disk (w.here.resolve (Path.join root file)) file language).map fun e => some (file, language, e)

theorem finding?_of_alike (h : w.Alike w') (m : Maker) (cache : OutlineCache) (root : String) :
    m.finding? cache w' root = m.finding? cache w root := by
  funext file
  unfold finding?
  rw [h.disk_eq, h.here_eq]

theorem exec_analyse (m : Maker) (root : String) (files : List String) (cache : OutlineCache) (commits : Dict Commit)
    (w : Workspace) : (m.analyse root files cache commits).exec w =
      ((files.filterMapM (m.finding? cache w root)).map fun found =>
        (recordAll commits Analysis.empty found, rememberAll cache found), w) := by
  unfold analyse
  rw [exec_bind, exec_filterMapM (r := m.finding? cache w root)]
  · cases files.filterMapM (m.finding? cache w root) with
    | error e => rfl
    | ok found =>
      dsimp only
      rw [foldl_pair]
      rfl
  · intro file hfile
    unfold finding?
    cases Language.ofPath? file with
    | none => rfl
    | some language =>
      dsimp only
      rw [exec_bind, exec_examine]
      cases m.examinedAt cache w.disk (w.here.resolve (Path.join root file)) file language <;> rfl

theorem filterMapM_ok {α β : Type} {f : α → Except Failure (Option β)} {xs : List α} {ys : List β}
    (h : xs.filterMapM f = .ok ys) :
    (∀ x ∈ xs, ∃ o, f x = .ok o) ∧ ∀ y, y ∈ ys ↔ ∃ x ∈ xs, f x = .ok (some y) := by
  induction xs generalizing ys with
  | nil =>
    cases h
    simp
  | cons x rest ih =>
    rw [List.filterMapM_cons] at h
    cases hx : f x with
    | error e =>
      rw [hx] at h
      cases h
    | ok o =>
      rw [hx] at h
      cases o with
      | none =>
        obtain ⟨hok, hmem⟩ := ih h
        simp only [List.forall_mem_cons, List.exists_mem_cons_iff, hx]
        exact ⟨⟨⟨_, rfl⟩, hok⟩, by simpa using hmem⟩
      | some y =>
        cases hrest : rest.filterMapM f with
        | error e =>
          have hbad : (rest.filterMapM f >>= fun ys => pure (y :: ys)) = .ok ys := h
          rw [hrest] at hbad
          cases hbad
        | ok ys' =>
          have hys : (rest.filterMapM f >>= fun ys => pure (y :: ys)) = .ok ys := h
          rw [hrest] at hys
          cases hys
          obtain ⟨hok, hmem⟩ := ih hrest
          refine ⟨List.forall_mem_cons.2 ⟨⟨_, hx⟩, hok⟩, fun y' => ?_⟩
          rw [List.mem_cons, hmem, List.exists_mem_cons_iff, hx]
          simp [eq_comm]

theorem filterMapM_error {α β : Type} {f : α → Except Failure (Option β)} {xs : List α} {e : Failure}
    (h : xs.filterMapM f = .error e) : ∃ x ∈ xs, f x = .error e := by
  induction xs with
  | nil => cases h
  | cons x rest ih =>
    rw [List.filterMapM_cons] at h
    cases hx : f x with
    | error e' =>
      rw [hx] at h
      cases h
      exact ⟨x, by simp, hx⟩
    | ok o =>
      rw [hx] at h
      have hrest : rest.filterMapM f = .error e := by
        cases o with
        | none => exact h
        | some y =>
          have hbind : (rest.filterMapM f >>= fun ys => pure (y :: ys)) = .error e := h
          cases hrest : rest.filterMapM f with
          | error e' =>
            rw [hrest] at hbind
            cases hbind
            rfl
          | ok ys =>
            rw [hrest] at hbind
            cases hbind
      obtain ⟨x', hx', hfx'⟩ := ih hrest
      exact ⟨x', by simp [hx'], hfx'⟩

section Recorded

variable {commits : Dict Commit} {a : Analysis} {found : List Finding} {path : String}

theorem recordAll_of_notMem (h : ∀ e ∈ found, e.1 ≠ path) :
    (recordAll commits a found).details.get? path = a.details.get? path ∧
      (recordAll commits a found).docs.get? path = a.docs.get? path := by
  induction found generalizing a with
  | nil => exact ⟨rfl, rfl⟩
  | cons e rest ih =>
    obtain ⟨hdetails, hdocs⟩ := ih (a := record a e.1 e.2.1 (commits.get? e.1) e.2.2) fun e' he' => h e' (by simp [he'])
    have hne : path ≠ e.1 := fun heq => h e (by simp) heq.symm
    refine ⟨hdetails.trans ?_, hdocs.trans ?_⟩
    · rw [get?_details_record, if_neg hne]
    · rw [get?_docs_record, if_neg hne]

/-- What is found of a file is recorded, when all that is found of it is the same. -/
theorem recordAll_of_mem {language : Language} {e : Examined} (hmem : (path, language, e) ∈ found)
    (hsame : ∀ x ∈ found, x.1 = path → x = (path, language, e)) (hdocs : a.docs.get? path = none ∨ a.docs.get? path = e.doc?) :
    (recordAll commits a found).details.get? path = some (e.entry language (commits.get? path)) ∧
      (recordAll commits a found).docs.get? path = e.doc? := by
  induction found generalizing a with
  | nil => cases hmem
  | cons x rest ih =>
    have hrest : ∀ y ∈ rest, y.1 = path → y = (path, language, e) := fun y hy => hsame y (by simp [hy])
    by_cases hx : x.1 = path
    · obtain rfl := hsame x (by simp) hx
      have hnext : (record a path language (commits.get? path) e).docs.get? path = e.doc? := by
        rw [get?_docs_record, if_pos rfl]
        rcases hdocs with hnone | hsome
        · rw [hnone, Option.or_none]
        · rw [hsome]
          cases e.doc? <;> rfl
      by_cases hagain : (path, language, e) ∈ rest
      · exact ih hagain hrest (.inr hnext)
      · have hnot : ∀ y ∈ rest, y.1 ≠ path := fun y hy heq => hagain (hrest y hy heq ▸ hy)
        obtain ⟨hdetails, hdocs'⟩ :=
          @recordAll_of_notMem commits (record a path language (commits.get? path) e) rest path hnot
        refine ⟨hdetails.trans ?_, hdocs'.trans hnext⟩
        rw [get?_details_record, if_pos rfl]
    · have hmem' : (path, language, e) ∈ rest := by
        rcases List.mem_cons.1 hmem with heq | hmem
        · exact absurd (heq ▸ rfl) hx
        · exact hmem
      refine ih hmem' hrest ?_
      rw [get?_docs_record, if_neg fun heq => hx heq.symm]
      exact hdocs

end Recorded

/-- An analysis of some files holds of each what it is examined to be, and nothing of others. -/
structure Analysed (m : Maker) (cache : OutlineCache) (w : Workspace) (root : String) (commits : Dict Commit)
    (files : List String) (a : Analysis) : Prop where
  outside : ∀ path ∉ files, a.details.get? path = none ∧ a.docs.get? path = none
  inside : ∀ path ∈ files, ∀ language, Language.ofPath? path = some language →
    ∃ e, m.examinedAt cache w.disk (w.here.resolve (Path.join root path)) path language = .ok e ∧
      a.details.get? path = some (e.entry language (commits.get? path)) ∧ a.docs.get? path = e.doc?

theorem Analysed.of_alike {commits : Dict Commit} {files : List String} {a : Analysis} (hw : w.Alike w')
    (h : Analysed m cache w' root commits files a) : Analysed m cache w root commits files a := by
  refine ⟨h.outside, ?_⟩
  rw [← hw.disk_eq, ← hw.here_eq]
  exact h.inside

theorem finding?_eq {found : Finding} (h : m.finding? cache w root file = .ok (some found)) :
    found.1 = file ∧ Language.ofPath? file = some found.2.1 ∧
      m.examinedAt cache w.disk (w.here.resolve (Path.join root file)) file found.2.1 = .ok found.2.2 := by
  unfold finding? at h
  cases hl : Language.ofPath? file with
  | none =>
    rw [hl] at h
    cases h
  | some language =>
    rw [hl] at h
    dsimp only at h
    cases he : m.examinedAt cache w.disk (w.here.resolve (Path.join root file)) file language with
    | error f =>
      rw [he] at h
      cases h
    | ok e =>
      rw [he] at h
      cases h
      exact ⟨rfl, rfl, he⟩

theorem analysed_of_findings {files : List String} {commits : Dict Commit} {found : List Finding}
    (h : files.filterMapM (m.finding? cache w root) = .ok found) :
    Analysed m cache w root commits files (recordAll commits Analysis.empty found) := by
  obtain ⟨hok, hmem⟩ := filterMapM_ok h
  refine ⟨fun path hpath => ?_, fun path hpath language hlanguage => ?_⟩
  · refine recordAll_of_notMem fun e he heq => ?_
    obtain ⟨file, hfile, hfinding⟩ := (hmem e).1 he
    rw [(finding?_eq hfinding).1] at heq
    exact hpath (heq ▸ hfile)
  · obtain ⟨o, ho⟩ := hok path hpath
    have hfinding := ho
    unfold finding? at ho
    rw [hlanguage] at ho
    dsimp only at ho
    cases he : m.examinedAt cache w.disk (w.here.resolve (Path.join root path)) path language with
    | error f =>
      rw [he] at ho
      cases ho
    | ok e =>
      rw [he] at ho
      cases ho
      refine ⟨e, rfl, recordAll_of_mem ((hmem _).2 ⟨path, hpath, hfinding⟩) (fun x hx heq => ?_) (.inl rfl)⟩
      obtain ⟨file, hfile, hx'⟩ := (hmem x).1 hx
      have hname := (finding?_eq hx').1
      rw [heq] at hname
      subst hname
      rw [hfinding] at hx'
      cases hx'
      rfl

theorem analyse_ok {files : List String} {commits : Dict Commit} {a : Analysis}
    (h : (m.analyse root files cache commits).exec w = (.ok (a, cache'), w')) :
    w' = w ∧ Analysed m cache w root commits files a ∧
      ∃ found, files.filterMapM (m.finding? cache w root) = .ok found ∧ cache' = rememberAll cache found := by
  rw [exec_analyse] at h
  cases hfound : files.filterMapM (m.finding? cache w root) with
  | error e =>
    rw [hfound] at h
    cases h
  | ok found =>
    rw [hfound] at h
    cases h
    exact ⟨rfl, analysed_of_findings hfound, found, rfl, rfl⟩

theorem examinedAt_error {d : Disk} {place : Location} {f : Failure}
    (h : m.examinedAt cache d place file language = .error f) : f.cause = .unscannable := by
  unfold examinedAt at h
  split at h
  · cases h
  · split at h
    · cases h
    · split at h
      · cases h
      · unfold sourceAt at h
        split at h
        · cases h
        · split at h
          · cases h
          · cases h
          · cases h
            rfl

theorem finding?_error {f : Failure} (h : m.finding? cache w root file = .error f) : f.cause = .unscannable := by
  unfold finding? at h
  split at h
  · cases h
  · next language hlanguage =>
    cases he : m.examinedAt cache w.disk (w.here.resolve (Path.join root file)) file language with
    | error f' =>
      rw [he] at h
      cases h
      exact examinedAt_error he
    | ok e =>
      rw [he] at h
      cases h

theorem analyse_error {files : List String} {commits : Dict Commit} {f : Failure}
    (h : (m.analyse root files cache commits).exec w = (.error f, w')) :
    ∃ file ∈ files, m.finding? cache w root file = .error f := by
  rw [exec_analyse] at h
  cases hfound : files.filterMapM (m.finding? cache w root) with
  | error e =>
    rw [hfound] at h
    cases h
    exact filterMapM_error hfound
  | ok found =>
    rw [hfound] at h
    cases h

theorem path_rememberAll (cache : OutlineCache) (found : List Finding) :
    (rememberAll cache found).path = cache.path := by
  induction found generalizing cache with
  | nil => rfl
  | cons e rest ih =>
    refine (ih (remember cache e.2.2)).trans ?_
    unfold remember
    split <;> rfl

end Maker

end CodeIndex
