import CodeIndex.Proofs.SourceState
import CodeIndex.Proofs.Tracked

set_option autoImplicit false

/-!
# What the contents of a file tell

What is recorded of a file comes of its contents alone, be they read or remembered by a cache that tells the truth.
-/

namespace CodeIndex

open Action Store

variable {s : Store} {m : Maker} {a b : Analysis} {d : Disk} {w : Workspace} {seen : SourceState → Prop}
  {cache : OutlineCache} {file : String} {language : Language} {bytes : ByteArray}

namespace Maker

/-- What comes of the contents of a file. -/
def resultOf (m : Maker) (file : String) (language : Language) (bytes : ByteArray) : Except Failure Examined :=
  if language.isDocumentation then
    .ok (.documentation (m.tiers.tierOf file) (((String.fromUTF8? bytes).map Synopsis.ofText).getD .empty))
  else if !m.readsOutlines then .ok .listed
  else
    match String.fromUTF8? bytes with
    | none => .ok .unreadable
    | some text =>
      match Reading.ofText language text with
      | .outline o => .ok (.outline o none)
      | .unsupported => .ok .listed
      | .unscannable => .error ⟨[], .unscannable⟩

theorem examinedAt_empty {place : Location} {time : Nat} (haccess : d.access place = .ok (.file bytes time)) :
    (m.examinedAt OutlineCache.empty d place file language).map Examined.result = m.resultOf file language bytes := by
  have htext : d.readText place = String.fromUTF8? bytes := by rw [Disk.readText, Disk.read_of_access haccess]
  have hmissed : ∀ key : Option String, key.bind OutlineCache.empty.entries.get? = none := by
    intro key
    cases key <;> rfl
  unfold examinedAt resultOf sourceAt
  rw [htext, hmissed]
  split
  · rfl
  split
  · rfl
  cases String.fromUTF8? bytes with
  | none => rfl
  | some text =>
    dsimp only
    cases Reading.ofText language text <;> rfl

end Maker

/-- A plain file that can be read is a source file in some state. -/
theorem Store.finds_of_read (hs : Path.isAbsolute s.root = true) (hplain : Plain file)
    (hlanguage : Language.ofPath? file = some language)
    (hread : w.disk.read (w.here.resolve (Path.join s.root file)) = .ok bytes) : ∃ x : SourceState,
      x.bytes = bytes ∧ x.place = w.here.resolve (Path.join s.root file) ∧ s.Finds w.disk x ∧ x.language? = some language := by
  obtain ⟨time, haccess⟩ := Disk.access_of_read hread
  obtain ⟨directory, name, hplace, hname⟩ := Language.place_of_ofPath? hs w.here hlanguage
  have hsome : SourceState.language? ⟨w.here.resolve (Path.join s.root file), time, bytes⟩ = some language := by
    rw [SourceState.language?, hplace, List.getLast?_concat]
    exact hname
  refine ⟨⟨w.here.resolve (Path.join s.root file), time, bytes⟩, rfl, rfl, ?_, hsome⟩
  exact ⟨haccess, Option.isSome_iff_exists.2 ⟨language, hsome⟩, not_isOwn_of_plain hs w.here hplain⟩

namespace Maker

/-- A cache that tells the truth does not show in what is found of a file. -/
theorem examinedAt_eq_resultOf (hs : Path.isAbsolute s.root = true) (happart : ToldApart seen) (hdated : Dated seen)
    (hseen : ∀ x, s.Finds w.disk x → seen x) (htruthful : OutlineCache.Truthful seen cache.entries) (hplain : Plain file)
    (hlanguage : Language.ofPath? file = some language)
    (hread : w.disk.read (w.here.resolve (Path.join s.root file)) = .ok bytes) :
    (m.examinedAt cache w.disk (w.here.resolve (Path.join s.root file)) file language).map Examined.result =
      m.resultOf file language bytes := by
  obtain ⟨x, rfl, hplace, hfinds, hx⟩ := finds_of_read hs hplain hlanguage hread
  rw [← hplace, examinedAt_truthful happart hdated htruthful (hseen x hfinds) hfinds.access hx]
  exact examinedAt_empty hfinds.access

/-- What an analysis tells of a file comes of these contents. -/
def Records (m : Maker) (a : Analysis) (file : String) (bytes : ByteArray) : Prop :=
  ∀ language, Language.ofPath? file = some language → ∃ e commit, m.resultOf file language bytes = .ok e ∧
    a.details.get? file = some (e.entry language commit) ∧ a.docs.get? file = e.doc?

theorem Records.congr (h : m.Records a file bytes) (hdetails : b.details.get? file = a.details.get? file)
    (hdocs : b.docs.get? file = a.docs.get? file) : m.Records b file bytes := by
  intro language hlanguage
  rw [hdetails, hdocs]
  exact h language hlanguage

theorem Examined.result_result (e : Examined) : e.result.result = e.result := by
  cases e <;> rfl

theorem Records.of_result {e : Examined} {commit : Option Commit} (hlanguage : Language.ofPath? file = some language)
    (h : m.resultOf file language bytes = .ok e.result) (hdetails : a.details.get? file = some (e.entry language commit))
    (hdocs : a.docs.get? file = e.doc?) : m.Records a file bytes := by
  intro language' hlanguage'
  obtain rfl := Option.some.inj (hlanguage.symm.trans hlanguage')
  refine ⟨e.result, commit, h, ?_, ?_⟩
  · rw [hdetails, Examined.entry_congr e.result_result]
  · rw [hdocs, Examined.doc?_congr e.result_result]

end Maker

end CodeIndex
