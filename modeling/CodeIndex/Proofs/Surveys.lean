import CodeIndex.Proofs.SourceState

set_option autoImplicit false

/-!
# Surveys that find the same

Of one project, be it before or after the program wrote its documents, surveys find the same: the same files, and the same of
each, if the caches agree.
-/

namespace CodeIndex

open Action Store Update

variable {s : Store} {m : Maker} {w v : Workspace}

namespace Maker

/-! ## Findings that are the same -/

/-- What was found, but not how it was found out. -/
def plain (e : Finding) : Finding := (e.1, e.2.1, e.2.2.result)

theorem record_result (a : Analysis) (file : String) (language : Language) (commit : Option Commit) (e : Examined) :
    record a file language commit e.result = record a file language commit e := by
  cases e <;> rfl

/-- How it was found out is not recorded. -/
theorem recordAll_plain (commits : Dict Commit) (a : Analysis) (found : List Finding) :
    recordAll commits a (found.map plain) = recordAll commits a found := by
  rw [recordAll, recordAll, List.foldl_map]
  congr 1
  funext a e
  exact record_result _ _ _ _ _

theorem recordAll_congr {found found' : List Finding} (h : found.map plain = found'.map plain) (commits : Dict Commit)
    (a : Analysis) : recordAll commits a found = recordAll commits a found' := by
  rw [← recordAll_plain, h, recordAll_plain]

/-- Lists of what may be found come to the same when each member does. -/
theorem filterMapM_congr {α β γ : Type} {f g : α → Except Failure (Option β)} (p : β → γ) {xs : List α}
    (h : ∀ x ∈ xs, (f x).map (Option.map p) = (g x).map (Option.map p)) :
    (xs.filterMapM f).map (List.map p) = (xs.filterMapM g).map (List.map p) := by
  induction xs with
  | nil => rfl
  | cons x rest ih =>
    have hx := h x List.mem_cons_self
    have hrest := ih fun y hy => h y (List.mem_cons_of_mem _ hy)
    have hcons : ∀ (f : α → Except Failure (Option β)), ((x :: rest).filterMapM f).map (List.map p) =
        (f x).map (Option.map p) >>= fun o => ((rest.filterMapM f).map (List.map p)).map fun ys => o.toList ++ ys := fun f => by
      rw [List.filterMapM_cons]
      rcases f x with e | _ | y
      · rfl
      · change (rest.filterMapM f).map (List.map p) = ((rest.filterMapM f).map (List.map p)).map fun ys => [] ++ ys
        cases rest.filterMapM f <;> rfl
      · change (rest.filterMapM f >>= fun ys => pure (y :: ys)).map (List.map p) =
          ((rest.filterMapM f).map (List.map p)).map fun ys => [p y] ++ ys
        cases rest.filterMapM f <;> rfl
    rw [hcons, hcons, hx, hrest]

end Maker

/-! ## One project -/

/-- Two workspaces hold one project: outside the program's own places their disks have the same, and version control tells
    the same. -/
structure SameProject (s : Store) (w v : Workspace) : Prop where
  agree : Disk.AgreeOff s.IsOwn w.disk v.disk
  sound : w.disk.Sound
  sound' : v.disk.Sound
  isOpen : w.disk.IsOpen s.place
  history_eq : v.history = w.history

/-- The caches of two workspaces tell the same of source files: they hold the same, or both tell the truth. -/
def CachesAgree (s : Store) (w v : Workspace) : Prop :=
  (OutlineCache.loaded v.disk s.root s.cachePlace).entries = (OutlineCache.loaded w.disk s.root s.cachePlace).entries ∨
    ∃ seen, ToldApart seen ∧ Dated seen ∧ (∀ x, s.Finds w.disk x → seen x) ∧
      OutlineCache.Truthful seen (OutlineCache.loaded w.disk s.root s.cachePlace).entries ∧
      OutlineCache.Truthful seen (OutlineCache.loaded v.disk s.root s.cachePlace).entries

namespace SameProject

variable (hs : Path.isAbsolute s.root = true) (h : SameProject s w v)

include h

theorem isOpen' : v.disk.IsOpen s.place := h.agree.access_of_ok not_isOwn_place h.isOpen

theorem symm : SameProject s v w := ⟨h.agree.symm, h.sound', h.sound, h.isOpen', h.history_eq.symm⟩

include hs

theorem files_eq (settings : Settings) :
    ((Listing.files settings s.root).exec v).1 = ((Listing.files settings s.root).exec w).1 :=
  Listing.files_agree hs h.agree h.sound h.sound' h.isOpen h.isOpen' h.history_eq

section Caches

variable (hcaches : CachesAgree s w v)

include hcaches

theorem examinedAt_eq {file : String} {language : Language} (hindexable : Listing.indexable m.settings w s.root file = true)
    (hlanguage : Language.ofPath? file = some language) :
    (m.examinedAt (OutlineCache.loaded v.disk s.root s.cachePlace) v.disk (v.here.resolve (Path.join s.root file)) file
        language).map Maker.Examined.result =
      (m.examinedAt (OutlineCache.loaded w.disk s.root s.cachePlace) w.disk (w.here.resolve (Path.join s.root file)) file
        language).map Maker.Examined.result := by
  obtain ⟨x, hx, hplace, hxlanguage⟩ := finds_of_indexable hs hindexable hlanguage
  have haccess : v.disk.access x.place = w.disk.access x.place := (hx.of_agree h.agree).access.trans hx.access.symm
  rw [Location.resolve_of_isAbsolute (Path.isAbsolute_join hs) v.here w.here, ← hplace, Maker.examinedAt_congr haccess]
  rcases hcaches with hsame | ⟨seen, happart, hdated, hseen, htrue, htrue'⟩
  · rw [Maker.examinedAt_entries hsame]
  · rw [Maker.examinedAt_truthful happart hdated htrue (hseen x hx) hx.access hxlanguage,
      Maker.examinedAt_truthful happart hdated htrue' (hseen x hx) hx.access hxlanguage]

theorem findings_eq {files : List String} (hindexable : ∀ file ∈ files, Listing.indexable m.settings w s.root file = true) :
    (files.filterMapM (m.finding? (OutlineCache.loaded v.disk s.root s.cachePlace) v s.root)).map (List.map Maker.plain) =
      (files.filterMapM (m.finding? (OutlineCache.loaded w.disk s.root s.cachePlace) w s.root)).map (List.map Maker.plain) := by
  refine Maker.filterMapM_congr Maker.plain fun file hfile => ?_
  unfold Maker.finding?
  cases hlanguage : Language.ofPath? file with
  | none => rfl
  | some language =>
    have hsame := h.examinedAt_eq hs hcaches (m := m) (hindexable file hfile) hlanguage
    have hplain : ∀ r : Except Failure Maker.Examined, (r.map fun e => some (file, language, e)).map (Option.map Maker.plain) =
        (r.map Maker.Examined.result).map fun e => some (file, language, e) := fun r => by
      cases r <;> rfl
    dsimp only
    rw [hplain, hplain, hsame]

/-- What is found of one is found of the other. -/
theorem surveyed {files : List String} {source : FileSource} {commits : Dict Commit} {found : List Maker.Finding}
    (hw : Surveyed m s w files source commits found) : ∃ found', Surveyed m s v files source commits found' ∧
      Maker.recordAll commits Analysis.empty found' = Maker.recordAll commits Analysis.empty found := by
  have hfindings := h.findings_eq hs hcaches (Listing.files_ok hw.listed).1
  rw [hw.findings] at hfindings
  cases hfound : files.filterMapM (m.finding? (OutlineCache.loaded v.disk s.root s.cachePlace) v s.root) with
  | error f =>
    rw [hfound] at hfindings
    cases hfindings
  | ok found' =>
    rw [hfound] at hfindings
    refine ⟨found', ⟨(h.files_eq hs m.settings).trans hw.listed, ?_, hfound⟩,
      Maker.recordAll_congr (Except.ok.inj hfindings) _ _⟩
    rw [hw.logged, h.history_eq]

end Caches

end SameProject

end CodeIndex
