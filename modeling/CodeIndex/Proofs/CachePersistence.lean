import CodeIndex.Proofs.Built

set_option autoImplicit false

/-!
# What a cache keeps

A program makes caches, asks them, adds to them and saves them, in any order, and the file of the project may be replaced by one
that is of no use.  What happened so far says what the present cache answers and what the next one finds in the file.  A cache
with nothing new is not written when it is saved: unless the file was replaced, it holds that cache already.
-/

namespace CodeIndex.OutlineCache

open Action Store Json

/-! ## Cache files -/

/-- The version, the rules and the entries of a cache file. -/
def parts? (j : Json) : Option (Nat × String × Dict Outline) := do
  let [v, rules, found] ← fields? ["version", "schema", "entries"] j | none
  return (← required asNatural? v, ← required asString? rules, ← required (dictOf? Outline.ofJson?) found)

def parse? (bytes : ByteArray) : Option (Nat × String × Dict Outline) :=
  (String.fromUTF8? bytes).bind fun text => (Json.read? text).bind parts?

/-- Bytes that do not parse, or name another version or other rules. -/
def Unusable (bytes : ByteArray) : Prop :=
  ∀ v rules found, parse? bytes = some (v, rules, found) → ¬ (v = version ∧ rules = schema)

/-- The entries of a cache file, if it is one of the present version and rules. -/
def usable? (parts : Nat × String × Dict Outline) : Option (Dict Outline) :=
  if parts.1 = version ∧ parts.2.1 = schema then some parts.2.2 else none

/-- What the bytes of a cache file stand for. -/
def inFile (bytes : ByteArray) : Dict Outline := ((parse? bytes).bind usable?).getD {}

/-- What a cache that is loaded now would start with. -/
def stored (root : String) (w : Workspace) : Dict Outline := (loaded w.disk root (w.here.resolve (pathIn root))).entries

/-- There is no cache file that can be used. -/
def Unused (root : String) (w : Workspace) : Prop :=
  ∀ bytes, w.disk.read (w.here.resolve (pathIn root)) = .ok bytes → Unusable bytes

theorem entries?_eq (j : Json) : entries? j = (parts? j).bind usable? := by
  unfold entries? parts?
  rcases fields? ["version", "schema", "entries"] j with _ | fs
  · rfl
  · match fs with
    | [v, rules, found] =>
      simp only [Option.bind_eq_bind, Option.bind_some, Option.bind_assoc]
      rfl
    | [] | [_] | [_, _] | _ :: _ :: _ :: _ :: _ => rfl

theorem inFile_of_unusable {bytes : ByteArray} (h : Unusable bytes) : inFile bytes = {} := by
  rw [inFile]
  cases hparse : parse? bytes with
  | none => rfl
  | some parts => rw [Option.bind_some, usable?, if_neg (h _ _ _ hparse), Option.getD_none]

theorem stored_of_read {root : String} {w : Workspace} {bytes : ByteArray}
    (h : w.disk.read (w.here.resolve (pathIn root)) = .ok bytes) : stored root w = inFile bytes := by
  rw [stored, loaded, h, inFile, parse?, Option.bind_assoc]
  simp only [Option.bind_assoc, entries?_eq]

theorem stored_of_error {root : String} {w : Workspace} {e : DiskError}
    (h : w.disk.read (w.here.resolve (pathIn root)) = .error e) : stored root w = {} := by
  rw [stored, loaded, h]
  rfl

theorem stored_of_unused {root : String} {w : Workspace} (h : Unused root w) : stored root w = {} := by
  cases hread : w.disk.read (w.here.resolve (pathIn root)) with
  | error e => exact stored_of_error hread
  | ok bytes => rw [stored_of_read hread, inFile_of_unusable (h bytes hread)]

/-! ## What happens to caches -/

inductive Event where
  /-- A cache was loaded; there was a file with these bytes, or none. -/
  | loaded (found : Option ByteArray)
  | madeInMemory
  | put (key : String) (o : Outline)
  | got (key : String)
  /-- The present cache was saved, whether it has a place or not. -/
  | saved (hasPlace : Bool)
  | notSaved
  /-- Instead of the file there was one that cannot be used. -/
  | replaced
  /-- Something else happened on the disk. -/
  | elsewhere

/-- One thing that happens, to the present cache and to the workspace. -/
inductive Step (root : String) : Event → OutlineCache → Workspace → OutlineCache → Workspace → Prop
  | load {c c' : OutlineCache} {w w' : Workspace} (h : (load root).exec w = (.ok c', w')) :
      Step root (.loaded (w.disk.read (w.here.resolve (pathIn root))).toOption) c w c' w'
  | inMemory {c : OutlineCache} {w : Workspace} : Step root .madeInMemory c w empty w
  | put {c : OutlineCache} {w : Workspace} {key : String} {o : Outline} : Step root (.put key o) c w (c.put key o) w
  | get {c : OutlineCache} {w : Workspace} {key : String} : Step root (.got key) c w (c.get key).2 w
  | save {c c' : OutlineCache} {w w' : Workspace} (h : c.save.exec w = (.ok c', w')) :
      Step root (.saved c.path.isSome) c w c' w'
  | saveFails {c : OutlineCache} {w w' : Workspace} {f : Failure} (h : c.save.exec w = (.error f, w')) :
      Step root .notSaved c w c w'
  | replace {c : OutlineCache} {w w' : Workspace} (h : Unused root w') : Step root .replaced c w c w'
  | other {c : OutlineCache} {w w' : Workspace}
      (h : w'.disk.access (w'.here.resolve (pathIn root)) = w.disk.access (w.here.resolve (pathIn root))) :
      Step root .elsewhere c w c w'

/-- What a program went through, the latest first, in a directory that had no cache to be used at first. -/
inductive Session (root : String) : List Event → OutlineCache → Workspace → Prop
  | start {w : Workspace} (h : Unused root w) : Session root [] empty w
  | step {events : List Event} {e : Event} {c c' : OutlineCache} {w w' : Workspace} (h : Session root events c w)
      (hstep : Step root e c w c' w') : Session root (e :: events) c' w'

/-! ## What it comes to -/

/-- The value last put under a key since the present cache was made, else what was in the file when it was loaded. -/
def value? (key : String) : List Event → Option Outline
  | .put key' o :: before => if key' = key then some o else value? key before
  | .loaded found :: _ => found.bind fun bytes => (inFile bytes).get? key
  | .madeInMemory :: _ => none
  | _ :: before => value? key before
  | [] => none

/-- Something was put into the present cache since it was made or saved. -/
def hasNews : List Event → Bool
  | .put _ _ :: _ => true
  | .loaded _ :: _ | .madeInMemory :: _ | .saved _ :: _ => false
  | _ :: before => hasNews before
  | [] => false

/-- The file was not replaced since the present cache was read from it or written to it. -/
def isSteady : List Event → Bool
  | .replaced :: _ => false
  | .loaded _ :: _ | .madeInMemory :: _ => true
  | .saved _ :: before => hasNews before || isSteady before
  | _ :: before => isSteady before
  | [] => true

/-- What the file has under a key. -/
def stored? (key : String) : List Event → Option Outline
  | .saved true :: before => if hasNews before then value? key before else stored? key before
  | .replaced :: _ => none
  | _ :: before => stored? key before
  | [] => none

variable {root : String} {events : List Event} {e : Event} {c c' : OutlineCache} {w w' : Workspace}

/-- The cache and its file are as the events say. -/
structure Agrees (root : String) (events : List Event) (c : OutlineCache) (w : Workspace) : Prop where
  entries : ∀ key, c.entries.get? key = value? key events
  file : ∀ key, (stored root w).get? key = stored? key events
  path : ∀ path, c.path = some path → path = pathIn root
  dirty : c.path.isSome → c.isDirty = hasNews events
  /-- A cache with nothing new is what its file has, if that was not replaced. -/
  clean : c.path.isSome → hasNews events = false → isSteady events = true → ∀ key, stored? key events = value? key events

/-- Saving to a place: a cache with nothing new is not written. -/
theorem save_cases_in {r : Except Failure OutlineCache} (hpath : c.path = some (pathIn root)) (h : c.save.exec w = (r, w')) :
    c.isDirty = false ∧ r = .ok c ∧ w' = w ∨
      c.isDirty = true ∧ r = .ok { c with isDirty := false } ∧ stored root w' = c.entries ∨
      (∃ f, r = .error f) ∧ stored root w' = stored root w := by
  have hb := beside_cacheIn root w.here
  obtain ⟨hchanged, hcases⟩ := save_cases hpath hb h
  have hhere : w'.here = w.here := by rw [hchanged.eq]
  have hplace : w.here.resolve (pathIn root) = w.here.resolve root ++ [directory] ++ [fileName] := hb.place
  rcases hcases with hclean | ⟨hdirty, hr, hwritten⟩ | ⟨hr, hsame⟩
  · exact .inl hclean
  · refine .inr (.inl ⟨hdirty, hr, ?_⟩)
    rw [stored, hhere, hplace]
    exact entries_loaded hwritten root
  · refine .inr (.inr ⟨hr, ?_⟩)
    rw [stored, stored, hhere, hplace]
    exact entries_loaded_congr hsame root

theorem get_fst (c : OutlineCache) (key : String) : (c.get key).1 = c.entries.get? key := by
  rw [get]
  cases c.entries.get? key <;> rfl

theorem save_of_path_none (hpath : c.path = none) (w : Workspace) : c.save.exec w = (.ok c, w) := by
  unfold save
  rw [hpath]
  rfl

/-! ### One step -/

namespace Agrees

theorem load (h : Agrees root events c w) (hload : (OutlineCache.load root).exec w = (.ok c', w')) :
    Agrees root (.loaded (w.disk.read (w.here.resolve (pathIn root))).toOption :: events) c' w' := by
  rw [exec_load] at hload
  cases hload
  have hentries : ∀ key, (stored root w).get? key =
      value? key (.loaded (w.disk.read (w.here.resolve (pathIn root))).toOption :: events) := by
    intro key
    cases hread : w.disk.read (w.here.resolve (pathIn root)) with
    | error e => rw [stored_of_error hread]; rfl
    | ok bytes => rw [stored_of_read hread]; rfl
  exact ⟨hentries, h.file, fun _ hpath => (Option.some.inj hpath).symm, fun _ => rfl,
    fun _ _ _ key => (h.file key).symm.trans (hentries key)⟩

theorem inMemory (h : Agrees root events c w) : Agrees root (.madeInMemory :: events) empty w :=
  ⟨fun _ => rfl, h.file, nofun, nofun, nofun⟩

theorem put (h : Agrees root events c w) (key : String) (o : Outline) : Agrees root (.put key o :: events) (c.put key o) w where
  entries other := by rw [OutlineCache.put, Dict.get?_insert, h.entries, value?]
  file := h.file
  path := h.path
  dirty := fun _ => rfl
  clean := nofun

/-- The counts of questions do not matter. -/
theorem get (h : Agrees root events c w) (key : String) : Agrees root (.got key :: events) (c.get key).2 w := by
  have hcounted : ∃ hits misses, (c.get key).2 = { c with hits := hits, misses := misses } := by
    rw [OutlineCache.get]
    cases c.entries.get? key <;> exact ⟨_, _, rfl⟩
  obtain ⟨hits, misses, heq⟩ := hcounted
  rw [heq]
  exact ⟨h.entries, h.file, h.path, h.dirty, h.clean⟩

theorem save (h : Agrees root events c w) (hsave : c.save.exec w = (.ok c', w')) :
    Agrees root (.saved c.path.isSome :: events) c' w' := by
  cases hpath : c.path with
  | none =>
    rw [save_of_path_none hpath] at hsave
    cases hsave
    refine ⟨h.entries, h.file, h.path, ?_, ?_⟩ <;> simp [hpath]
  | some path =>
    have hplace := h.path path hpath
    subst hplace
    have hsome : c.path.isSome := by rw [hpath]; rfl
    have hdirty := h.dirty hsome
    rcases save_cases_in hpath hsave with ⟨hclean, heq, rfl⟩ | ⟨hnew, heq, hstored⟩ | ⟨⟨f, hf⟩, -⟩
    · -- nothing is written, and the file is the cache already
      cases heq
      have hold : hasNews events = false := hdirty ▸ hclean
      have hsame : ∀ key, stored? key (.saved true :: events) = stored? key events := fun key => by simp [stored?, hold]
      refine ⟨h.entries, fun key => (h.file key).trans (hsame key).symm, h.path, fun _ => hclean, ?_⟩
      intro _ _ hsteady key
      rw [isSteady, hold, Bool.false_or] at hsteady
      exact (hsame key).trans (h.clean hsome hold hsteady key)
    · cases heq
      have hnews : hasNews events = true := hdirty ▸ hnew
      have hsame : ∀ key, stored? key (.saved true :: events) = value? key events := fun key => by simp [stored?, hnews]
      refine ⟨h.entries, fun key => ?_, h.path, fun _ => rfl, fun _ _ _ key => hsame key⟩
      rw [Option.isSome_some, hsame, hstored, h.entries]
    · cases hf

theorem saveFails (h : Agrees root events c w) {f : Failure} (hsave : c.save.exec w = (.error f, w')) :
    Agrees root (.notSaved :: events) c w' := by
  cases hpath : c.path with
  | none =>
    rw [save_of_path_none hpath] at hsave
    cases hsave
  | some path =>
    have hplace := h.path path hpath
    subst hplace
    rcases save_cases_in hpath hsave with ⟨-, heq, -⟩ | ⟨-, heq, -⟩ | ⟨-, hstored⟩
    · cases heq
    · cases heq
    · exact ⟨h.entries, fun key => by rw [hstored]; exact h.file key, h.path, h.dirty, h.clean⟩

theorem replace (h : Agrees root events c w) (hunused : Unused root w') : Agrees root (.replaced :: events) c w' where
  entries := h.entries
  file key := by rw [stored_of_unused hunused]; rfl
  path := h.path
  dirty := h.dirty
  clean := nofun

theorem other (h : Agrees root events c w)
    (hother : w'.disk.access (w'.here.resolve (pathIn root)) = w.disk.access (w.here.resolve (pathIn root))) :
    Agrees root (.elsewhere :: events) c w' := by
  have hstored : stored root w' = stored root w := by
    rw [stored, stored, OutlineCache.loaded, OutlineCache.loaded, Disk.read, Disk.read, hother]
  exact ⟨h.entries, fun key => by rw [hstored]; exact h.file key, h.path, h.dirty, h.clean⟩

theorem step (h : Agrees root events c w) (hstep : Step root e c w c' w') : Agrees root (e :: events) c' w' := by
  cases hstep with
  | load hload => exact h.load hload
  | inMemory => exact h.inMemory
  | put => exact h.put _ _
  | get => exact h.get _
  | save hsave => exact h.save hsave
  | saveFails hsave => exact h.saveFails hsave
  | replace hunused => exact h.replace hunused
  | other hother => exact h.other hother

end Agrees

/-! ### All steps -/

namespace Session

theorem agrees (h : Session root events c w) : Agrees root events c w := by
  induction h with
  | start hunused =>
    refine ⟨fun _ => rfl, fun key => ?_, nofun, nofun, nofun⟩
    rw [stored_of_unused hunused]
    rfl
  | step _ hstep ih => exact ih.step hstep

/-- What happened until some moment is a session too. -/
theorem before {after : List Event} (h : Session root (after ++ events) c w) : ∃ c₀ w₀, Session root events c₀ w₀ := by
  induction after generalizing c w with
  | nil => exact ⟨c, w, h⟩
  | cons e after ih =>
    cases h with
    | step h _ => exact ih h

/-- A save that goes to a file is one of a cache with a place. -/
theorem of_saved (h : Session root (.saved true :: events) c w) : ∃ c₀ w₀, Session root events c₀ w₀ ∧ c₀.path.isSome := by
  cases h with
  | @step _ _ c₀ _ w₀ _ h hstep =>
    generalize hsaved : Event.saved true = e at hstep
    cases hstep with
    | save => exact ⟨c₀, w₀, h, (Event.saved.inj hsaved).symm⟩
    | _ => cases hsaved

end Session

/-- What was saved stays in the file until there is another save or the file is replaced. -/
theorem stored?_append (key : String) {after : List Event} (h : ∀ e ∈ after, e ≠ .saved true ∧ e ≠ .replaced)
    (events : List Event) : stored? key (after ++ events) = stored? key events := by
  induction after with
  | nil => rfl
  | cons e after ih =>
    obtain ⟨hsaved, hreplaced⟩ := h e List.mem_cons_self
    have hrest := ih fun e' he' => h e' (List.mem_cons_of_mem _ he')
    rw [List.cons_append]
    cases e with
    | saved hasPlace =>
      cases hasPlace with
      | false => exact hrest
      | true => exact absurd rfl hsaved
    | replaced => exact absurd rfl hreplaced
    | _ => exact hrest

/-- A file that cannot be used is left as it is by saves of caches with nothing new. -/
theorem stored?_replaced (key : String) {after before : List Event}
    (h : ∀ later between, after = later ++ .saved true :: between → hasNews (between ++ .replaced :: before) = false) :
    stored? key (after ++ .replaced :: before) = none := by
  induction after with
  | nil => rfl
  | cons e after ih =>
    have hrest := ih fun later between heq => h (e :: later) between (by rw [heq, List.cons_append])
    rw [List.cons_append]
    cases e with
    | saved hasPlace =>
      cases hasPlace with
      | false => exact hrest
      | true => rw [stored?, h [] after rfl, if_neg Bool.false_ne_true, hrest]
    | replaced => rfl
    | _ => exact hrest

/-- Nothing is lost and nothing is made up.  A question is answered by what was put last, else by what was loaded.  What is
    loaded after a save is the cache that was saved, if its file was not replaced since it was last read from it or written to
    it; and after the file was replaced nothing is loaded, until something new is saved. -/
theorem persistence (h : Session root events c w) :
    (∀ key, (c.get key).1 = value? key events) ∧
      ∃ c', (load root).exec w = (.ok c', w) ∧
        (∀ after before, events = after ++ .saved true :: before → (∀ e ∈ after, e ≠ .saved true ∧ e ≠ .replaced) →
          isSteady (.saved true :: before) = true → ∀ c₀ w₀, Session root before c₀ w₀ → c'.entries = c₀.entries) ∧
        ∀ after before, events = after ++ .replaced :: before →
          (∀ later between, after = later ++ .saved true :: between → hasNews (between ++ .replaced :: before) = false) →
          c'.entries = {} := by
  refine ⟨fun key => (get_fst c key).trans (h.agrees.entries key), _, exec_load root w, ?_, ?_⟩
  · rintro after before rfl hquiet hsteady c₀ w₀ h₀
    refine Dict.ext_get? fun key => ?_
    rw [h₀.agrees.entries]
    refine (h.agrees.file key).trans ((stored?_append key hquiet _).trans ?_)
    rw [stored?]
    split
    · rfl
    · next hold =>
      obtain ⟨c₁, w₁, hsaved⟩ := h.before
      obtain ⟨c₂, w₂, h₂, hplace⟩ := hsaved.of_saved
      rw [isSteady, Bool.eq_false_iff.2 hold, Bool.false_or] at hsteady
      exact h₂.agrees.clean hplace (Bool.eq_false_iff.2 hold) hsteady key
  · rintro after before rfl hkept
    exact Dict.ext_get? fun key => (h.agrees.file key).trans (stored?_replaced key hkept)

/-! ## Two sessions -/

/-- A project with nothing in it. -/
def project : Workspace := ⟨⟨[(["p"], .directory)], 0, 0, []⟩, [], History.none, [], "", []⟩

/-- The project, with a cache file in it that does not parse. -/
def spoilt : Workspace := { project with disk :=
  ⟨[(["p", directory, fileName], .file "\x7b\x7b".toUTF8 0), (["p", directory], .directory), (["p"], .directory)], 1, 0, []⟩ }

theorem read_project : project.disk.read (project.here.resolve (pathIn "/p")) = .error .absent := by rfl

theorem unused_project : Unused "/p" project := by
  intro bytes hread
  rw [read_project] at hread
  cases hread

theorem unused_spoilt : Unused "/p" spoilt := by
  intro bytes hread v rules found hparse
  have hbytes : spoilt.disk.read (spoilt.here.resolve (pathIn "/p")) = .ok "\x7b\x7b".toUTF8 := by rfl
  have hjunk : (parse? "\x7b\x7b".toUTF8).isNone := by decide +kernel
  rw [hbytes] at hread
  cases hread
  rw [hparse] at hjunk
  cases hjunk

/-- The cache that a program starts with in the project. -/
def opened : OutlineCache := loaded project.disk "/p" (project.here.resolve (pathIn "/p"))

theorem session_opened : Session "/p" [.loaded none] opened project := by
  have hload := (Session.start unused_project).step (.load (exec_load "/p" project))
  rwa [read_project] at hload

theorem Session.exists_saved (h : Session root events c w) (hpath : c.path = some (pathIn root))
    (hok : (c.save.exec w).1.isOk = true) : ∃ w', Session root (.saved true :: events) { c with isDirty := false } w' := by
  rcases hsave : c.save.exec w with ⟨f | c', w'⟩
  · rw [hsave] at hok
    cases hok
  · have hsaved : c' = { c with isDirty := false } := by
      rcases save_cases_in hpath hsave with ⟨hclean, heq, -⟩ | ⟨-, heq, -⟩ | ⟨⟨f, heq⟩, -⟩
      · cases heq
        rw [← hclean]
      · exact Except.ok.inj heq
      · cases heq
    have hstep := h.step (.save hsave)
    rw [hpath, hsaved] at hstep
    exact ⟨w', hstep⟩

/-- The cache with one outline that is saved in the project, or over what is there instead. -/
def grown : OutlineCache := opened.put "a" ⟨{}, {}, []⟩

theorem session_grown : Session "/p" [.put "a" ⟨{}, {}, []⟩, .loaded none] grown project := session_opened.step .put

theorem persistence_reloaded : ∃ c w c' c'',
    Session "/p" [.put "b" ⟨{}, {}, ["x"]⟩, .saved true, .put "a" ⟨{}, {}, []⟩, .loaded none] c w ∧
      (c.get "b").1 = some ⟨{}, {}, ["x"]⟩ ∧ (c.get "a").1 = some ⟨{}, {}, []⟩ ∧ (c.get "c").1 = none ∧
      (load "/p").exec w = (.ok c', w) ∧ c'.entries.get? "a" = some ⟨{}, {}, []⟩ ∧ c'.entries.get? "b" = none ∧
      (load "/p").exec spoilt = (.ok c'', spoilt) ∧ c''.entries = {} := by
  obtain ⟨w, hsaved⟩ := session_grown.exists_saved rfl (by decide +kernel)
  have h := hsaved.step (.put : Step "/p" (.put "b" ⟨{}, {}, ["x"]⟩) _ _ _ _)
  obtain ⟨hvalues, c', hload, hreloaded, -⟩ := persistence h
  obtain ⟨-, c'', hload', -, hempty⟩ := persistence (h.step (.replace unused_spoilt))
  have hentries := hreloaded [.put "b" ⟨{}, {}, ["x"]⟩] _ rfl (by simp) rfl _ _ session_grown
  refine ⟨_, w, c', c'', h, hvalues "b", hvalues "a", hvalues "c", hload, ?_, ?_, hload', hempty [] _ rfl (by simp)⟩
  · rw [hentries]
    rfl
  · rw [hentries]
    rfl

/-- Neither condition can go.  Saving never looks at the file: a cache with something new is written over one that was replaced,
    and then the next load does not start empty; and a cache with nothing new is not written over it, so that the next load
    does not find that cache. -/
theorem saved_over_replaced :
    (¬ ∀ (events : List Event) (c c' : OutlineCache) (w : Workspace), Session "/p" events c w →
      (load "/p").exec w = (.ok c', w) → ∀ after before, events = after ++ .replaced :: before →
        (∀ found, .loaded found ∉ after) → c'.entries = {}) ∧
      ¬ ∀ (events : List Event) (c c' : OutlineCache) (w : Workspace), Session "/p" events c w →
        (load "/p").exec w = (.ok c', w) → ∀ before, events = .saved true :: before →
          ∀ c₀ w₀, Session "/p" before c₀ w₀ → c'.entries = c₀.entries := by
  constructor
  · intro hempty
    obtain ⟨w, hsaved⟩ := (session_grown.step (.replace unused_spoilt)).exists_saved rfl (by decide +kernel)
    have hfile := hsaved.agrees.file "a"
    rw [stored, hempty _ _ _ w hsaved (exec_load "/p" w) [.saved true] _ rfl (by simp)] at hfile
    cases hfile
  · intro hsame
    obtain ⟨w, hsaved⟩ := session_grown.exists_saved rfl (by decide +kernel)
    have hspoilt := hsaved.step (.replace unused_spoilt)
    obtain ⟨w', hagain⟩ := hspoilt.exists_saved rfl rfl
    have hfile := hagain.agrees.file "a"
    rw [stored, hsame _ _ _ w' hagain (exec_load "/p" w') _ rfl _ _ hspoilt] at hfile
    cases hfile

end CodeIndex.OutlineCache
