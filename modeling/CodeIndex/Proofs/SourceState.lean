import CodeIndex.Proofs.JsonToken
import CodeIndex.Proofs.Kept

set_option autoImplicit false

/-!
# States of source files

The key of a file is the digest of a text from which its place, time and size can be read off again.  So where no two
texts have one digest, and no file was changed without getting another time, a key stands for one state of one file, and a
cache with an outline for some states tells of the files that are in these states what reading them would.
-/

namespace CodeIndex

open Action Store

/-- What a source file is at some time: where it is, when it was changed last, and what it holds. -/
structure SourceState where
  place : Location
  time : Nat
  bytes : ByteArray

namespace SourceState

variable {x y : SourceState}

def language? (x : SourceState) : Option Language := x.place.getLast?.bind Language.ofName

/-- The text that is digested. -/
def keyText (x : SourceState) : String := x.place.toPath ++ "\x00" ++ toString x.time ++ "\x00" ++ toString x.bytes.size

def key (x : SourceState) : String := OutlineCache.keyOf x.place x.time x.bytes.size

theorem key_eq (x : SourceState) : x.key = Digest.ofString x.keyText := rfl

/-- The outline that comes of reading the file, if one does. -/
def outline? (x : SourceState) : Option Outline := do
  let language ← x.language?
  let text ← String.fromUTF8? x.bytes
  match Reading.ofText language text with
  | .outline o => some o
  | _ => none

end SourceState

/-! ## Texts that keys are made of -/

theorem Path.pieces_ofComponents {names : List String} (hne : names ≠ []) (h : ∀ name ∈ names, '/' ∉ name.toList) :
    Text.pieces '/' (ofComponents names) = names := by
  induction names with
  | nil => exact absurd rfl hne
  | cons name rest ih =>
    have hname : Text.pieces '/' name = [name] := pieces_of_noSlash (h name List.mem_cons_self)
    cases rest with
    | nil => exact hname
    | cons next rest =>
      have hrest := ih (by simp) fun x hx => h x (List.mem_cons_of_mem _ hx)
      rw [ofComponents] at hrest ⊢
      rw [String.intercalate_cons_cons, pieces_append_slash, hname, hrest]
      rfl

/-- The path of a location tells it, when no name has a slash in it. -/
theorem Location.toPath_inj {l l' : Location} (hne : l ≠ []) (hne' : l' ≠ []) (h : ∀ name ∈ l, '/' ∉ name.toList)
    (h' : ∀ name ∈ l', '/' ∉ name.toList) (heq : l.toPath = l'.toPath) : l = l' := by
  have hchars : (Path.ofComponents l).toList = (Path.ofComponents l').toList := by
    have hslash := congrArg String.toList heq
    rw [toPath, toPath, String.toList_append, String.toList_append] at hslash
    exact List.append_cancel_left hslash
  rw [← Path.pieces_ofComponents hne h, String.ext hchars, Path.pieces_ofComponents hne' h']

theorem Location.nul_notMem_toPath {l : Location} (h : ∀ name ∈ l, '\x00' ∉ name.toList) : '\x00' ∉ l.toPath.toList := by
  have hjoined : ∀ names : List String, (∀ name ∈ names, '\x00' ∉ name.toList) → '\x00' ∉ (Path.ofComponents names).toList := by
    intro names
    induction names with
    | nil => intro _; decide
    | cons name rest ih =>
      intro hnames
      cases rest with
      | nil => exact hnames name List.mem_cons_self
      | cons next rest =>
        have hrest := ih fun x hx => hnames x (List.mem_cons_of_mem _ hx)
        rw [Path.ofComponents] at hrest ⊢
        rw [String.intercalate_cons_cons, String.toList_append, String.toList_append]
        simp only [List.mem_append, not_or]
        exact ⟨⟨hnames name List.mem_cons_self, by decide⟩, hrest⟩
  rw [toPath, String.toList_append, List.mem_append, not_or]
  exact ⟨by decide, hjoined l h⟩

/-- A place and a time can be read off the text that they are written in. -/
theorem SourceState.keyText_inj {x y : SourceState} (hne : x.place ≠ []) (hne' : y.place ≠ [])
    (hx : ∀ name ∈ x.place, '/' ∉ name.toList ∧ '\x00' ∉ name.toList)
    (hy : ∀ name ∈ y.place, '/' ∉ name.toList ∧ '\x00' ∉ name.toList) (h : x.keyText = y.keyText) :
    x.place = y.place ∧ x.time = y.time := by
  have hchars : ∀ z : SourceState, z.keyText.toList =
      z.place.toPath.toList ++ '\x00' :: (Nat.toDigits 10 z.time ++ '\x00' :: Nat.toDigits 10 z.bytes.size) := fun z => by
    simp only [keyText, String.toList_append, Nat.toString_eq_repr, Nat.toList_repr, List.append_assoc]
    rfl
  have hdigits : ∀ n, '\x00' ∉ Nat.toDigits 10 n := fun n hmem =>
    absurd (Json.isDigit_of_mem_toDigits hmem) (by decide)
  have hcut := congrArg (Text.cutFirst '\x00' ·.toList) h
  simp only [hchars] at hcut
  rw [Text.cutFirst_append (Location.nul_notMem_toPath fun name hname => (hx name hname).2),
    Text.cutFirst_append (Location.nul_notMem_toPath fun name hname => (hy name hname).2)] at hcut
  obtain ⟨hplace, hrest⟩ := Prod.mk.inj (Option.some.inj hcut)
  have htime := congrArg (Text.cutFirst '\x00') hrest
  rw [Text.cutFirst_append (hdigits _), Text.cutFirst_append (hdigits _)] at htime
  have hdigitsEq := (Prod.mk.inj (Option.some.inj htime)).1
  refine ⟨Location.toPath_inj hne hne' (fun name hname => (hx name hname).1) (fun name hname => (hy name hname).1)
    (String.ext hplace), ?_⟩
  rw [← Nat.ofDigitChars_ten_toDigits (n := x.time), hdigitsEq, Nat.ofDigitChars_ten_toDigits]

/-! ## Source files on a disk -/

/-- A disk has a source file in some state, at a place that is not the program's own. -/
structure Store.Finds (s : Store) (d : Disk) (x : SourceState) : Prop where
  access : d.access x.place = .ok (.file x.bytes x.time)
  language : x.language?.isSome = true
  foreign : ¬ s.IsOwn x.place

theorem Store.Finds.place_ne_nil {s : Store} {d : Disk} {x : SourceState} (h : s.Finds d x) : x.place ≠ [] := by
  intro hnil
  have hlanguage := h.language
  rw [SourceState.language?, hnil] at hlanguage
  cases hlanguage

theorem Store.Finds.of_agree {s : Store} {d d' : Disk} {x : SourceState} (h : s.Finds d x)
    (hagree : Disk.AgreeOff s.IsOwn d d') : s.Finds d' x :=
  ⟨hagree.access_of_ok h.foreign h.access, h.language, h.foreign⟩

/-- A file that can be indexed is a source file in some state. -/
theorem Store.finds_of_indexable {s : Store} (hs : Path.isAbsolute s.root = true) {settings : Settings} {w : Workspace}
    {file : String} {language : Language} (h : Listing.indexable settings w s.root file = true)
    (hlanguage : Language.ofPath? file = some language) :
    ∃ x, s.Finds w.disk x ∧ x.place = w.here.resolve (Path.join s.root file) ∧ x.language? = some language := by
  obtain ⟨bytes, time, haccess⟩ := Listing.access_of_indexable h
  obtain ⟨directory, name, hplace, hname⟩ := Language.place_of_ofPath? hs w.here hlanguage
  have hforeign := not_isOwn_of_plain hs w.here (Listing.plain_of_indexable h)
  generalize w.here.resolve (Path.join s.root file) = place at haccess hplace hforeign ⊢
  have hsome : SourceState.language? ⟨place, time, bytes⟩ = some language := by
    rw [SourceState.language?, hplace, List.getLast?_concat]
    exact hname
  exact ⟨⟨place, time, bytes⟩, ⟨haccess, Option.isSome_iff_exists.2 ⟨language, hsome⟩, hforeign⟩, rfl, hsome⟩

/-! ## Keys and states -/

/-- Names are names of files, and no two of the texts that keys are made of have one digest. -/
structure ToldApart (seen : SourceState → Prop) : Prop where
  names : ∀ x, seen x → ∀ name ∈ x.place, '/' ∉ name.toList ∧ '\x00' ∉ name.toList
  digests : ∀ x y, seen x → seen y → Digest.ofString x.keyText = Digest.ofString y.keyText → x.keyText = y.keyText

/-- The states are of files, and a file that has changed has another time. -/
structure Dated (seen : SourceState → Prop) : Prop where
  place_ne_nil : ∀ x, seen x → x.place ≠ []
  eq_of_time : ∀ x y, seen x → seen y → x.place = y.place → x.time = y.time → x = y

variable {seen : SourceState → Prop} {x y : SourceState}

/-- A key stands for one state of one file. -/
theorem ToldApart.eq_of_key (h : ToldApart seen) (hdated : Dated seen) (hx : seen x) (hy : seen y) (hkey : x.key = y.key) :
    x = y := by
  rw [SourceState.key_eq, SourceState.key_eq] at hkey
  obtain ⟨hplace, htime⟩ := SourceState.keyText_inj (hdated.place_ne_nil x hx) (hdated.place_ne_nil y hy) (h.names x hx)
    (h.names y hy) (h.digests x y hx hy hkey)
  exact hdated.eq_of_time x y hx hy hplace htime

/-! ## Caches that tell the truth -/

/-- What is stored under a key is the outline of a file in a state that has the key. -/
def OutlineCache.Truthful (seen : SourceState → Prop) (entries : Dict Outline) : Prop :=
  ∀ key o, entries.get? key = some o → ∃ x, seen x ∧ x.key = key ∧ x.outline? = some o

theorem OutlineCache.truthful_empty (seen : SourceState → Prop) : Truthful seen {} := fun key o h => by cases h

namespace Maker

variable {m : Maker} {cache : OutlineCache} {d : Disk} {file : String} {language : Language}

theorem keyAt?_of_access (h : d.access x.place = .ok (.file x.bytes x.time)) :
    OutlineCache.keyAt? d x.place = some x.key := by
  rw [OutlineCache.keyAt?, h, SourceState.key]

theorem sourceAt_of_outline {o : Outline} (haccess : d.access x.place = .ok (.file x.bytes x.time))
    (hlanguage : x.language? = some language) (key : Option String) :
    sourceAt d x.place language key = .ok (.outline o key) ↔ x.outline? = some o := by
  have htext : d.readText x.place = String.fromUTF8? x.bytes := by
    rw [Disk.readText, Disk.read_of_access haccess]
  rw [sourceAt, htext, SourceState.outline?, hlanguage, Option.bind_eq_bind, Option.bind_some]
  cases String.fromUTF8? x.bytes with
  | none => simp
  | some text =>
    rw [Option.bind_eq_bind, Option.bind_some]
    dsimp only
    cases Reading.ofText language text <;> simp

/-- A cache that tells the truth tells of a file what reading it does. -/
theorem examinedAt_truthful (happart : ToldApart seen) (hdated : Dated seen) (htruthful : OutlineCache.Truthful seen cache.entries)
    (hx : seen x) (haccess : d.access x.place = .ok (.file x.bytes x.time)) (hlanguage : x.language? = some language) :
    (m.examinedAt cache d x.place file language).map Examined.result =
      (m.examinedAt OutlineCache.empty d x.place file language).map Examined.result := by
  have hkey := keyAt?_of_access haccess
  unfold examinedAt
  by_cases hdocs : language.isDocumentation = true
  · rw [if_pos hdocs, if_pos hdocs]
  by_cases hreads : (!m.readsOutlines) = true
  · rw [if_neg hdocs, if_neg hdocs, if_pos hreads, if_pos hreads]
  rw [if_neg hdocs, if_neg hdocs, if_neg hreads, if_neg hreads, hkey, Option.bind_some, Option.bind_some]
  have hempty : OutlineCache.empty.entries.get? x.key = none := rfl
  rw [hempty]
  cases hget : cache.entries.get? x.key with
  | none => rfl
  | some o =>
    obtain ⟨y, hy, hsame, houtline⟩ := htruthful x.key o hget
    obtain rfl : y = x := happart.eq_of_key hdated hy hx hsame
    rw [(sourceAt_of_outline haccess hlanguage (some y.key)).2 houtline]
    rfl

/-- A run leaves a cache that tells the truth, if it found one. -/
theorem truthful_of_grown {s : Store} (hs : Path.isAbsolute s.root = true) {w : Workspace}
    (hseen : ∀ x, s.Finds w.disk x → seen x) (htruthful : OutlineCache.Truthful seen cache.entries) {files : List String}
    {found : List Finding} {settings : Settings} (hfiles : ∀ file ∈ files, Listing.indexable settings w s.root file = true)
    (hfound : files.filterMapM (m.finding? cache w s.root) = .ok found) {entries : Dict Outline}
    (hgrown : Grown cache found entries) : OutlineCache.Truthful seen entries := by
  intro key o hget
  cases hold : cache.entries.get? key with
  | some old =>
    obtain rfl : o = old := Option.some.inj (hget.symm.trans (hgrown.retains key old hold))
    exact htruthful key o hold
  | none =>
    obtain ⟨e, he, houtline⟩ := hgrown.introduced key o hget hold
    obtain ⟨file, hfile, hfinding⟩ := ((filterMapM_ok hfound).2 e).1 he
    obtain ⟨-, hlanguage, hexamined⟩ := finding?_eq hfinding
    rw [houtline] at hexamined
    obtain ⟨-, hkey, hsource⟩ := examinedAt_outline hexamined
    obtain ⟨x, hx, hplace, hxlanguage⟩ := finds_of_indexable hs (hfiles file hfile) hlanguage
    rw [← hplace] at hkey hsource
    rw [keyAt?_of_access hx.access] at hkey
    exact ⟨x, hseen x hx, Option.some.inj hkey, (sourceAt_of_outline hx.access hxlanguage _).1 hsource⟩

end Maker

end CodeIndex
