import CodeIndex.Proofs.CacheText
import CodeIndex.Proofs.Examined
import CodeIndex.Proofs.Untouched

set_option autoImplicit false

/-!
# What the cache remembers

A file that is as it was when an outline was put into the cache is examined as it was then, if no other file has its
key.
-/

namespace CodeIndex

open Action

/-! ## Places of source files -/

/-- The language that a name alone tells. -/
def Language.ofName (name : String) : Option Language := (Path.splitName name).2.bind ofExtension?

theorem Language.ofName_append (stem : String) {ext : String} (h : '.' ∉ ext.toList) (hext : ofExtension? ext = none) :
    ofName (stem ++ "." ++ ext) = none := by
  rw [ofName, Path.splitName, Text.cutLastIn_dot stem h]
  by_cases hstem : stem = ""
  · simp [hstem]
  · simpa [hstem] using hext

/-- A source file lies under its own name. -/
theorem Language.place_of_ofPath? {root path : String} {language : Language} (hroot : Path.isAbsolute root = true)
    (here : Location) (h : ofPath? path = some language) :
    ∃ directory name, here.resolve (Path.join root path) = directory ++ [name] ∧ ofName name = some language := by
  rw [ofPath?, Path.extension?] at h
  cases hname : Path.fileName? path with
  | none =>
    rw [hname] at h
    cases h
  | some name =>
    rw [hname] at h
    rw [Location.resolve_join hroot]
    unfold Path.fileName? at hname
    cases hlast : (Path.components path).getLast? with
    | none =>
      rw [hlast] at hname
      cases hname
    | some last =>
      rw [hlast] at hname
      dsimp only at hname
      split at hname
      · cases hname
      · next hup =>
        cases hname
        obtain ⟨init, hinit⟩ := List.getLast?_eq_some_iff.1 hlast
        refine ⟨init.foldl Location.step (if Path.isAbsolute path then [] else here.resolve root), name, ?_, h⟩
        rw [Location.resolve, hinit, List.foldl_append]
        simp [Location.step, hup]

/-- The language of a file is told from its place. -/
theorem Language.ofPath?_unique {root path path' : String} {language language' : Language}
    (hroot : Path.isAbsolute root = true) {here : Location} (h : ofPath? path = some language)
    (h' : ofPath? path' = some language')
    (heq : here.resolve (Path.join root path) = here.resolve (Path.join root path')) : language = language' := by
  obtain ⟨directory, name, hplace, hname⟩ := place_of_ofPath? hroot here h
  obtain ⟨directory', name', hplace', hname'⟩ := place_of_ofPath? hroot here h'
  rw [hplace, hplace'] at heq
  obtain ⟨-, rfl⟩ := List.append_singleton_inj.1 heq
  exact Option.some.inj (hname.symm.trans hname')

namespace Maker

variable {m : Maker} {cache : OutlineCache} {d : Disk} {place : Location} {file root key : String} {language : Language}
  {found : List Finding} {o : Outline} {w : Workspace}

/-! ## Growth of the cache -/

/-- Entries that hold what a cache held and, under further keys, only outlines that were read. -/
structure Grown (cache : OutlineCache) (found : List Finding) (entries : Dict Outline) : Prop where
  retains : ∀ key o, cache.entries.get? key = some o → entries.get? key = some o
  introduced : ∀ key o, entries.get? key = some o → cache.entries.get? key = none →
    ∃ e ∈ found, e.2.2 = .outline o (some key)

theorem Grown.refl (cache : OutlineCache) (found : List Finding) : Grown cache found cache.entries := by
  refine ⟨fun _ _ h => h, fun key o h hnone => ?_⟩
  rw [hnone] at h
  cases h

theorem remember_spec (cache : OutlineCache) (e : Examined) : (remember cache e).entries = cache.entries ∨
    ∃ o key, e = .outline o (some key) ∧ (remember cache e).entries = cache.entries.insert key o := by
  unfold remember
  split
  · next o key => exact .inr ⟨o, key, rfl, rfl⟩
  · exact .inl rfl

theorem get?_rememberAll (h : (rememberAll cache found).entries.get? key = some o) :
    cache.entries.get? key = some o ∨ ∃ e ∈ found, e.2.2 = .outline o (some key) := by
  induction found generalizing cache with
  | nil => exact .inl h
  | cons e rest ih =>
    have hrest : (rememberAll (remember cache e.2.2) rest).entries.get? key = some o := h
    rcases ih hrest with hnext | ⟨x, hx, heq⟩
    · rcases remember_spec cache e.2.2 with hsame | ⟨o', key', hexamined, hput⟩
      · rw [hsame] at hnext
        exact .inl hnext
      · rw [hput, Dict.get?_insert] at hnext
        split at hnext
        · next hkey =>
          cases hnext
          exact .inr ⟨e, by simp, hkey ▸ hexamined⟩
        · exact .inl hnext
    · exact .inr ⟨x, by simp [hx], heq⟩

theorem get?_rememberAll_of_old (hfresh : ∀ e ∈ found, ∀ o', e.2.2 ≠ .outline o' (some key))
    (h : cache.entries.get? key = some o) : (rememberAll cache found).entries.get? key = some o := by
  induction found generalizing cache with
  | nil => exact h
  | cons e rest ih =>
    change (rememberAll (remember cache e.2.2) rest).entries.get? key = some o
    refine ih (fun x hx => hfresh x (by simp [hx])) ?_
    rcases remember_spec cache e.2.2 with hsame | ⟨o', key', hexamined, hput⟩
    · rw [hsame]
      exact h
    · have hne : key' ≠ key := by
        rintro rfl
        exact hfresh e (by simp) o' hexamined
      rw [hput, Dict.get?_insert, if_neg hne]
      exact h

theorem sourceAt_outline {key? : Option String} (h : sourceAt d place language key? = .ok (.outline o (some key))) :
    key? = some key := by
  unfold sourceAt at h
  split at h
  · cases h
  · split at h
    · injection h with h
      injection h
    · cases h
    · cases h

/-- An outline comes with a key when the file was read because there was nothing under its key. -/
theorem examinedAt_outline (h : m.examinedAt cache d place file language = .ok (.outline o (some key))) :
    cache.entries.get? key = none ∧ OutlineCache.keyAt? d place = some key ∧
      sourceAt d place language (some key) = .ok (.outline o (some key)) := by
  unfold examinedAt at h
  split at h
  · cases h
  · split at h
    · cases h
    · split at h
      · cases h
      · next hmissed =>
        have hkey := sourceAt_outline h
        rw [hkey] at h hmissed
        exact ⟨hmissed, hkey, h⟩

theorem grown_rememberAll {files : List String} (h : files.filterMapM (m.finding? cache w root) = .ok found) :
    Grown cache found (rememberAll cache found).entries := by
  refine ⟨fun key o hold => get?_rememberAll_of_old (fun e he o' heq => ?_) hold, fun key o hnew hnone => ?_⟩
  · obtain ⟨file, -, hfinding⟩ := ((filterMapM_ok h).2 e).1 he
    obtain ⟨-, -, hexamined⟩ := finding?_eq hfinding
    rw [heq] at hexamined
    rw [(examinedAt_outline hexamined).1] at hold
    cases hold
  · rcases get?_rememberAll hnew with hold | hfound
    · rw [hnone] at hold
      cases hold
    · exact hfound

/-! ## Examining again -/

/-- What became of a file, but not how it was found out. -/
def Examined.result : Examined → Examined
  | .outline o _ => .outline o none
  | e => e

theorem Examined.entry_congr {e e' : Examined} (h : e.result = e'.result) (language : Language) (commit : Option Commit) :
    e.entry language commit = e'.entry language commit := by
  cases e <;> cases e' <;> cases h <;> rfl

theorem Examined.doc?_congr {e e' : Examined} (h : e.result = e'.result) : e.doc? = e'.doc? := by
  cases e <;> cases e' <;> cases h <;> rfl

/-- Different files of a list have different keys. -/
def KeysApart (w : Workspace) (root : String) (files : List String) : Prop :=
  ∀ file ∈ files, ∀ file' ∈ files, ∀ key,
    OutlineCache.keyAt? w.disk (w.here.resolve (Path.join root file)) = some key →
    OutlineCache.keyAt? w.disk (w.here.resolve (Path.join root file')) = some key →
    w.here.resolve (Path.join root file) = w.here.resolve (Path.join root file')

theorem examinedAt_of_grown (hroot : Path.isAbsolute root = true) {files : List String} (hapart : KeysApart w root files)
    (hfound : files.filterMapM (m.finding? cache w root) = .ok found) {cache' : OutlineCache}
    (hgrown : Grown cache found cache'.entries) (hfile : file ∈ files) (hlanguage : Language.ofPath? file = some language) :
    (m.examinedAt cache' w.disk (w.here.resolve (Path.join root file)) file language).map Examined.result =
      (m.examinedAt cache w.disk (w.here.resolve (Path.join root file)) file language).map Examined.result := by
  unfold examinedAt
  split
  · rfl
  split
  · rfl
  cases hkey : OutlineCache.keyAt? w.disk (w.here.resolve (Path.join root file)) with
  | none => rfl
  | some key =>
    simp only [Option.bind_some]
    cases hold : cache.entries.get? key with
    | some o =>
      rw [hgrown.retains key o hold]
    | none =>
      cases hnew : cache'.entries.get? key with
      | none => rfl
      | some o =>
        -- the entry comes from a file with the same key, so from the same place
        obtain ⟨e, he, heq⟩ := hgrown.introduced key o hnew hold
        obtain ⟨file', hfile', hfinding⟩ := ((filterMapM_ok hfound).2 e).1 he
        obtain ⟨-, hlanguage', hexamined⟩ := finding?_eq hfinding
        rw [heq] at hexamined
        obtain ⟨-, hkey', hsource⟩ := examinedAt_outline hexamined
        have hplace := hapart file' hfile' file hfile key hkey' hkey
        have hsame : e.2.1 = language := Language.ofPath?_unique hroot hlanguage' hlanguage hplace
        rw [hplace, hsame] at hsource
        rw [hsource]
        rfl

end Maker

end CodeIndex
