import CodeIndex.Proofs.Dict
import CodeIndex.Settings

set_option autoImplicit false

/-!
# Entries that are not acceptable

Settings are read entry by entry into one value that all entries change.  Still every setting comes from its own entry
alone (`ofJson_eq`), and an entry whose value is not of the kind that its key asks for leaves no trace.
-/

namespace CodeIndex

theorem Mode.ofName?_eq_none {name : String} (h : name ∉ ["auto", "split", "single"]) : Mode.ofName? name = none := by
  refine List.find?_eq_none.2 fun m _ hm => h ?_
  rw [← of_decide_eq_true hm]
  cases m <;> decide

theorem SplitStrategy.ofName?_eq_none {name : String} (h : name ∉ ["auto", "force", "disabled"]) :
    SplitStrategy.ofName? name = none := by
  refine List.find?_eq_none.2 fun m _ hm => h ?_
  rw [← of_decide_eq_true hm]
  cases m <;> decide

namespace Layout

theorem foldl_better_mem {l : Layout} {candidates : List Layout} {best : Option Layout}
    (h : candidates.foldl better best = some l) : best = some l ∨ l ∈ candidates := by
  induction candidates generalizing best with
  | nil => exact .inl h
  | cons next rest ih =>
    rcases ih h with hbetter | hmem
    · unfold better at hbetter
      split at hbetter
      · split at hbetter
        · exact .inl hbetter
        · exact .inr (by simp_all)
      · exact .inr (by simp_all)
    · exact .inr (List.mem_cons_of_mem _ hmem)

/-- A layout is found by one of the presets. -/
theorem preset_mem_of_detect? {files : List String} {l : Layout} (h : detect? files = some l) : l.preset ∈ presets := by
  obtain ⟨root, -, h⟩ := List.exists_of_findSome?_eq_some h
  rcases foldl_better_mem h with hnone | hmem
  · cases hnone
  · obtain ⟨preset, hpreset, rfl⟩ := List.mem_map.1 (List.mem_of_mem_filter hmem)
    exact hpreset

theorem presets_depth : ∀ preset ∈ presets, 1 ≤ preset.maxDepth ∧ preset.maxDepth ≤ 3 := by decide

end Layout

namespace Settings

open Json

/-! ## What an entry has to be -/

/-- What can stand as the value of an entry. -/
inductive Kind where
  /-- One of some names, in any case. -/
  | choice (names : List String)
  | positive
  | count
  | flag
  | depth
  | record
  /-- A list of strings. -/
  | patterns

def Kind.Holds : Kind → Json → Prop
  | .choice names, .string s => Text.lowerOf s ∈ names
  | .positive, .natural n => 0 < n ∧ n < countLimit
  | .count, .natural n => n < countLimit
  | .flag, .bool _ => True
  | .depth, .natural n => 1 ≤ n ∧ n ≤ 3
  | .record, .object _ => True
  | .patterns, .array items => ∀ item ∈ items, ∃ s, item = .string s
  | _, _ => False

/-- The kind of value that a key of the settings asks for; no other key is known. -/
def kind? : String → Option Kind
  | "mode" => some (.choice ["auto", "split", "single"])
  | "threshold" => some .positive
  | "submodule_config" => some .record
  | "doc_tiers" => some .record
  | "include_all_doc_tiers" => some .flag
  | "max_file_size" => some .positive
  | "parallel_threads" => some .count
  | "git_timeout_secs" => some .positive
  | "tree_depth" => some .positive
  | _ => none

def submoduleKind? : String → Option Kind
  | "enabled" => some .flag
  | "threshold" => some .positive
  | "strategy" => some (.choice ["auto", "force", "disabled"])
  | "max_depth" => some .depth
  | _ => none

def tierKind? : String → Option Kind
  | "critical" => some .patterns
  | "standard" => some .patterns
  | "archive" => some .patterns
  | _ => none

/-- The key is known and the value is of the kind that it asks for. -/
def Acceptable (kind? : String → Option Kind) (key : String) (value : Json) : Prop :=
  ∃ kind, kind? key = some kind ∧ kind.Holds value

variable {key : String} {value : Json}

theorem positive?_eq_none (h : ¬ Kind.positive.Holds value) : positive? value = none := by
  cases value with
  | natural n =>
    rw [positive?, asNatural?]
    simp only [Kind.Holds, not_and] at h
    by_cases hn : n < countLimit <;> simp_all
  | _ => rfl

theorem asNatural?_eq_none (h : ¬ Kind.count.Holds value) : asNatural? value = none := by
  cases value with
  | natural n => exact if_neg h
  | _ => rfl

theorem asBool?_eq_none (h : ¬ Kind.flag.Holds value) : asBool? value = none := by
  cases value with
  | bool b => exact absurd trivial h
  | _ => rfl

theorem maxDepth?_eq_none (h : ¬ Kind.depth.Holds value) : maxDepth? value = none := by
  cases value with
  | natural n =>
    rw [maxDepth?, asNatural?]
    simp only [Kind.Holds, not_and] at h
    split
    · simpa using h
    · rfl
  | _ => rfl

theorem names?_eq_none (h : ¬ Kind.patterns.Holds value) : names? value = none := by
  cases value with
  | array items =>
    rw [Option.eq_none_iff_forall_ne_some]
    intro names hnames
    refine h fun item hitem => ?_
    -- all items have been read, this one too
    clear h
    change items.mapM asString? = some names at hnames
    induction items generalizing names with
    | nil => cases hitem
    | cons head rest ih =>
      rw [List.mapM_cons] at hnames
      obtain ⟨s, hs, hnames⟩ := Option.bind_eq_some_iff.1 hnames
      obtain ⟨others, hothers, -⟩ := Option.bind_eq_some_iff.1 hnames
      rcases List.mem_cons.1 hitem with rfl | hitem
      · cases item with
        | string s => exact ⟨s, rfl⟩
        | _ => cases hs
      · exact ih others hitem hothers
  | _ => rfl

theorem option?_eq_none {α : Type} {read : String → Option α} {names : List String} (hread : ∀ name ∉ names, read name = none)
    (h : ¬ (Kind.choice names).Holds value) : option? read value = none := by
  cases value with
  | string s => exact hread _ h
  | _ => rfl

/-! ## An entry that changes nothing -/

theorem readSubmodule_of_not_acceptable (h : ¬ Acceptable submoduleKind? key value) (s : SubmoduleSettings) :
    readSubmodule s key value = s := by
  unfold readSubmodule
  split
  · rw [asBool?_eq_none fun hk => h ⟨_, rfl, hk⟩]
    rfl
  · rw [positive?_eq_none fun hk => h ⟨_, rfl, hk⟩]
    rfl
  · rw [option?_eq_none (fun _ => SplitStrategy.ofName?_eq_none) fun hk => h ⟨_, rfl, hk⟩]
    rfl
  · rw [maxDepth?_eq_none fun hk => h ⟨_, rfl, hk⟩]
    rfl
  · rfl

theorem readTier_of_not_acceptable (h : ¬ Acceptable tierKind? key value) (p : TierPatterns) : readTier p key value = p := by
  unfold readTier
  split
  · next tier patterns htier hpatterns =>
    have hname : tier.name = key := by simpa using List.find?_some htier
    have hnone : names? value = none := by
      refine names?_eq_none fun hk => h ⟨_, ?_, hk⟩
      rw [← hname]
      cases tier <;> rfl
    rw [hnone] at hpatterns
    cases hpatterns
  · rfl

theorem readEntries_of_not_record {α : Type} (h : ¬ Kind.record.Holds value) (read : α → String → Json → α) (s : α) :
    readEntries read s value = s := by
  cases value with
  | object members => exact absurd trivial h
  | _ => rfl

theorem readEntry_of_not_acceptable (h : ¬ Acceptable kind? key value) (s : Settings) : readEntry s key value = s := by
  unfold readEntry
  split
  · rw [option?_eq_none (fun _ => Mode.ofName?_eq_none) fun hk => h ⟨_, rfl, hk⟩]
    rfl
  · rw [positive?_eq_none fun hk => h ⟨_, rfl, hk⟩]
    rfl
  · rw [readEntries_of_not_record fun hk => h ⟨_, rfl, hk⟩]
  · rw [readEntries_of_not_record fun hk => h ⟨_, rfl, hk⟩]
  · rw [asBool?_eq_none fun hk => h ⟨_, rfl, hk⟩]
    rfl
  · rw [positive?_eq_none fun hk => h ⟨_, rfl, hk⟩]
    rfl
  · rw [asNatural?_eq_none fun hk => h ⟨_, rfl, hk⟩]
    rfl
  · rw [positive?_eq_none fun hk => h ⟨_, rfl, hk⟩]
    rfl
  · rw [positive?_eq_none fun hk => h ⟨_, rfl, hk⟩]
    rfl
  · rfl

/-! ## Entries one after another -/

/-- The entries of an object, the last of equal keys kept; what is no object has none. -/
def entriesOf : Json → Dict Json
  | .object members => Dict.ofList members
  | _ => ∅

/-- One dictionary is the other without an entry that is not acceptable. -/
def Sheds (kind? : String → Option Kind) (d d' : Dict Json) : Prop :=
  ∃ key value, d.get? key = some value ∧ ¬ Acceptable kind? key value ∧ d' = d.erase key

variable {α : Type} {read : α → String → Json → α} {j j' : Json}

theorem readEntries_eq (read : α → String → Json → α) (s : α) (j : Json) :
    readEntries read s j = (entriesOf j).toList.foldl (fun s e => read s e.1 e.2) s := by
  cases j <;> rfl

theorem readEntries_sheds {kind? : String → Option Kind}
    (hread : ∀ {key value}, ¬ Acceptable kind? key value → ∀ s, read s key value = s)
    (h : Sheds kind? (entriesOf j) (entriesOf j')) (s : α) : readEntries read s j' = readEntries read s j := by
  obtain ⟨key, value, hvalue, hnot, hshed⟩ := h
  have hlist : (entriesOf j').toList = (entriesOf j).toList.filter fun e => decide (e.1 ≠ key) := by rw [hshed]; rfl
  rw [readEntries_eq, readEntries_eq, hlist, List.foldl_filter]
  refine List.foldl_ext _ _ _ fun s e he => ?_
  split
  · rfl
  · next hkey =>
    have hkey : e.1 = key := by simpa using hkey
    have hvalue' : e.2 = value := Option.some.inj ((Dict.mem_toList'.1 he).symm.trans (hkey ▸ hvalue))
    rw [hkey, hvalue', hread hnot]

theorem readEntries_insert {value' : Json} (hread : ∀ s, read s key value' = read s key value)
    (hvalue : (entriesOf j).get? key = some value) (h : entriesOf j' = (entriesOf j).insert key value') (s : α) :
    readEntries read s j' = readEntries read s j := by
  have hmap : entriesOf j' = (entriesOf j).map fun k v => if key = k then value' else v := by
    refine Dict.ext_get? fun k => ?_
    rw [h, Dict.get?_insert, Dict.get?_map]
    split
    · next hk => rw [← hk, hvalue, Option.map_some]
    · rw [Option.map_id']
  rw [readEntries_eq, readEntries_eq, hmap, Dict.toList_map, List.foldl_map]
  refine List.foldl_ext _ _ _ fun s e he => ?_
  dsimp only
  split
  · next hkey =>
    have hvalue' : e.2 = value := Option.some.inj ((Dict.mem_toList'.1 he).symm.trans (hkey ▸ hvalue))
    rw [← hkey, hvalue', hread]
  · rfl

theorem foldl_field {β : Type} (field : α → β) (take : β → Json → β)
    (hread : ∀ s k v, field (read s k v) = if k = key then take (field s) v else field s)
    {entries : List (String × Json)} (h : Ascending entries) (s : α) :
    field (entries.foldl (fun s e => read s e.1 e.2) s) = (Dict.find? key entries).elim (field s) (take (field s)) := by
  induction entries generalizing s with
  | nil => rfl
  | cons e rest ih =>
    obtain ⟨k, v⟩ := e
    obtain ⟨hhead, hrest⟩ := List.pairwise_cons.1 h
    rw [List.foldl_cons, ih hrest, hread, Dict.find?]
    split
    · next hk =>
      have hnone : Dict.find? key rest = none :=
        Dict.find?_eq_none.2 fun e he heq => Std.ne_of_lt (hhead e he) (hk.trans heq.symm)
      rw [hnone]
      rfl
    · rfl

/-- What only the entry under one key changes is decided by that entry. -/
theorem readEntries_field {β : Type} (field : α → β) (take : β → Json → β)
    (hread : ∀ s k v, field (read s k v) = if k = key then take (field s) v else field s) (s : α) (j : Json) :
    field (readEntries read s j) = ((entriesOf j).get? key).elim (field s) (take (field s)) := by
  rw [readEntries_eq]
  exact foldl_field field take hread (entriesOf j).ascending s

/-! ## Every setting from its own entry -/

/-- The acceptable value under a key, or what stands for an absent one. -/
def setting {β : Type} (entries : Dict Json) (key : String) (read : Json → Option β) (absent : β) : β :=
  ((entries.get? key).bind read).getD absent

/-- The entries of the object under a key. -/
def entriesUnder (entries : Dict Json) (key : String) : Dict Json := ((entries.get? key).map entriesOf).getD ∅

def ownSubmodules (entries : Dict Json) : SubmoduleSettings where
  enabled := setting entries "enabled" asBool? true
  threshold := setting entries "threshold" positive? 100
  strategy := setting entries "strategy" (option? SplitStrategy.ofName?) .auto
  maxDepth := (entries.get? "max_depth").bind maxDepth?

def ownTierPatterns (entries : Dict Json) : TierPatterns where
  critical := (entries.get? "critical").bind names?
  standard := (entries.get? "standard").bind names?
  archive := (entries.get? "archive").bind names?

/-- Settings of which each is read from the entry under its own key. -/
def ownEntries (entries : Dict Json) : Settings where
  mode := setting entries "mode" (option? Mode.ofName?) .auto
  threshold := setting entries "threshold" positive? 1000
  submodules := ownSubmodules (entriesUnder entries "submodule_config")
  tierPatterns := ownTierPatterns (entriesUnder entries "doc_tiers")
  includeAllTiers := setting entries "include_all_doc_tiers" asBool? false
  maxFileSize := setting entries "max_file_size" positive? (1024 * 1024)
  threads := setting entries "parallel_threads" asNatural? 0
  timeout := setting entries "git_timeout_secs" positive? 10
  treeDepth := setting entries "tree_depth" positive? 3
  skipDetails := false

theorem readEntries_setting {β : Type} {readValue : Json → Option β} (field : α → β)
    (hread : ∀ s k v, field (read s k v) = if k = key then (readValue v).getD (field s) else field s) (s : α) (j : Json) :
    field (readEntries read s j) = setting (entriesOf j) key readValue (field s) := by
  rw [readEntries_field field (fun b v => (readValue v).getD b) hread, setting]
  cases (entriesOf j).get? key <;> rfl

theorem readEntries_optional {β : Type} {readValue : Json → Option β} (field : α → Option β)
    (hread : ∀ s k v, field (read s k v) = if k = key then (readValue v).or (field s) else field s) {s : α}
    (hs : field s = none) (j : Json) : field (readEntries read s j) = ((entriesOf j).get? key).bind readValue := by
  rw [readEntries_field field (fun b v => (readValue v).or b) hread, hs]
  cases (entriesOf j).get? key with
  | none => rfl
  | some value => exact Option.or_none

attribute [ext] SubmoduleSettings PerTier Settings

/-- An entry about submodules changes what its key is about and nothing else. -/
theorem readSubmodule_eq (s : SubmoduleSettings) (key : String) (value : Json) : readSubmodule s key value =
    { enabled := if key = "enabled" then (asBool? value).getD s.enabled else s.enabled
      threshold := if key = "threshold" then (positive? value).getD s.threshold else s.threshold
      strategy := if key = "strategy" then (option? SplitStrategy.ofName? value).getD s.strategy else s.strategy
      maxDepth := if key = "max_depth" then (maxDepth? value).or s.maxDepth else s.maxDepth } := by
  unfold readSubmodule
  split <;> simp_all

theorem readTier_eq (p : TierPatterns) (key : String) (value : Json) : readTier p key value =
    { critical := if key = "critical" then (names? value).or p.critical else p.critical
      standard := if key = "standard" then (names? value).or p.standard else p.standard
      archive := if key = "archive" then (names? value).or p.archive else p.archive } := by
  have hname : ∀ tier, DocTier.ofName? key = some tier ↔ key = tier.name := fun tier =>
    ⟨fun h => by simpa [eq_comm] using List.find?_some h, fun h => h ▸ DocTier.ofName?_name tier⟩
  rw [readTier]
  cases htier : DocTier.ofName? key with
  | none =>
    have hne : ∀ tier : DocTier, key ≠ tier.name := fun tier h => by simp [(hname tier).2 h] at htier
    have hcritical : key ≠ "critical" := hne .critical
    have hstandard : key ≠ "standard" := hne .standard
    have harchive : key ≠ "archive" := hne .archive
    rw [if_neg hcritical, if_neg hstandard, if_neg harchive]
  | some tier =>
    rw [(hname tier).1 htier]
    cases names? value with
    | none => cases tier <;> rfl
    | some patterns => cases tier <;> rfl

theorem readEntry_eq (s : Settings) (key : String) (value : Json) : readEntry s key value =
    { mode := if key = "mode" then (option? Mode.ofName? value).getD s.mode else s.mode
      threshold := if key = "threshold" then (positive? value).getD s.threshold else s.threshold
      submodules := if key = "submodule_config" then readEntries readSubmodule s.submodules value else s.submodules
      tierPatterns := if key = "doc_tiers" then readEntries readTier s.tierPatterns value else s.tierPatterns
      includeAllTiers := if key = "include_all_doc_tiers" then (asBool? value).getD s.includeAllTiers else s.includeAllTiers
      maxFileSize := if key = "max_file_size" then (positive? value).getD s.maxFileSize else s.maxFileSize
      threads := if key = "parallel_threads" then (asNatural? value).getD s.threads else s.threads
      timeout := if key = "git_timeout_secs" then (positive? value).getD s.timeout else s.timeout
      treeDepth := if key = "tree_depth" then (positive? value).getD s.treeDepth else s.treeDepth
      skipDetails := s.skipDetails } := by
  unfold readEntry
  split <;> simp_all

theorem readSubmodules_eq (j : Json) : readEntries readSubmodule .default j = ownSubmodules (entriesOf j) := by
  ext1
  · exact readEntries_setting SubmoduleSettings.enabled (fun s k v => congrArg _ (readSubmodule_eq s k v)) .default j
  · exact readEntries_setting SubmoduleSettings.threshold (fun s k v => congrArg _ (readSubmodule_eq s k v)) .default j
  · exact readEntries_setting SubmoduleSettings.strategy (fun s k v => congrArg _ (readSubmodule_eq s k v)) .default j
  · exact readEntries_optional SubmoduleSettings.maxDepth (fun s k v => congrArg _ (readSubmodule_eq s k v)) rfl j

theorem readTiers_eq (j : Json) : readEntries readTier (PerTier.all none) j = ownTierPatterns (entriesOf j) := by
  ext1
  · exact readEntries_optional PerTier.critical (fun s k v => congrArg _ (readTier_eq s k v)) rfl j
  · exact readEntries_optional PerTier.standard (fun s k v => congrArg _ (readTier_eq s k v)) rfl j
  · exact readEntries_optional PerTier.archive (fun s k v => congrArg _ (readTier_eq s k v)) rfl j

theorem elim_entriesUnder {β : Type} {own : Dict Json → β} {readAll : Json → β} (h : ∀ j, readAll j = own (entriesOf j))
    (entries : Dict Json) (key : String) : (entries.get? key).elim (own ∅) readAll = own (entriesUnder entries key) := by
  rw [entriesUnder]
  cases entries.get? key with
  | none => rfl
  | some value => exact h value

/-- Every setting comes from the entry under its own key. -/
theorem ofJson_eq (j : Json) : ofJson j = ownEntries (entriesOf j) := by
  rw [ofJson]
  ext1
  · exact readEntries_setting Settings.mode (fun s k v => congrArg _ (readEntry_eq s k v)) default j
  · exact readEntries_setting Settings.threshold (fun s k v => congrArg _ (readEntry_eq s k v)) default j
  · exact (readEntries_field Settings.submodules (readEntries readSubmodule) (fun s k v => congrArg _ (readEntry_eq s k v))
      default j).trans (elim_entriesUnder readSubmodules_eq _ _)
  · exact (readEntries_field Settings.tierPatterns (readEntries readTier) (fun s k v => congrArg _ (readEntry_eq s k v))
      default j).trans (elim_entriesUnder readTiers_eq _ _)
  · exact readEntries_setting Settings.includeAllTiers (fun s k v => congrArg _ (readEntry_eq s k v)) default j
  · exact readEntries_setting Settings.maxFileSize (fun s k v => congrArg _ (readEntry_eq s k v)) default j
  · exact readEntries_setting Settings.threads (fun s k v => congrArg _ (readEntry_eq s k v)) default j
  · exact readEntries_setting Settings.timeout (fun s k v => congrArg _ (readEntry_eq s k v)) default j
  · exact readEntries_setting Settings.treeDepth (fun s k v => congrArg _ (readEntry_eq s k v)) default j
  · rw [readEntries_eq]
    refine List.foldlRecOn (motive := fun s : Settings => s.skipDetails = false) _ _ rfl fun s hs e _ => ?_
    rw [readEntry_eq]
    exact hs

/-! ## Bounds -/

/-- What the rest of the program relies on. -/
structure Bounded (s : Settings) : Prop where
  threshold : 1 ≤ s.threshold
  submodules : 1 ≤ s.submodules.threshold
  maxFileSize : 1 ≤ s.maxFileSize
  timeout : 1 ≤ s.timeout
  treeDepth : 1 ≤ s.treeDepth
  maxDepth : ∀ depth ∈ s.submodules.maxDepth, 1 ≤ depth ∧ depth ≤ 3

theorem one_le_setting (entries : Dict Json) (key : String) {absent : Nat} (h : 1 ≤ absent) :
    1 ≤ setting entries key positive? absent := by
  rw [setting]
  cases hn : (entries.get? key).bind positive? with
  | none => exact h
  | some n =>
    obtain ⟨value, -, hvalue⟩ := Option.bind_eq_some_iff.1 hn
    exact of_decide_eq_true (Option.filter_eq_some_iff.1 hvalue).2

theorem bounded_ownEntries (entries : Dict Json) : (ownEntries entries).Bounded where
  threshold := one_le_setting _ _ (by decide)
  submodules := one_le_setting _ _ (by decide)
  maxFileSize := one_le_setting _ _ (by decide)
  timeout := one_le_setting _ _ (by decide)
  treeDepth := one_le_setting _ _ (by decide)
  maxDepth := by
    intro depth hdepth
    obtain ⟨value, -, hvalue⟩ := Option.bind_eq_some_iff.1 hdepth
    simpa using (Option.filter_eq_some_iff.1 hvalue).2

theorem bounded_ofText (text : String) : (ofText text).Bounded := by
  rw [ofText]
  split
  · next j _ =>
    rw [ofJson_eq]
    exact bounded_ownEntries _
  · exact bounded_ownEntries ∅

theorem Bounded.splitDepth {s : Settings} (h : s.Bounded) (files : List String) :
    1 ≤ s.splitDepth ((Layout.detect? files).map fun l => l.preset.maxDepth) ∧
      s.splitDepth ((Layout.detect? files).map fun l => l.preset.maxDepth) ≤ 3 := by
  rw [Settings.splitDepth]
  cases hown : s.submodules.maxDepth with
  | some depth => exact h.maxDepth depth hown
  | none =>
    cases hlayout : Layout.detect? files with
    | none => decide
    | some l => exact Layout.presets_depth _ (Layout.preset_mem_of_detect? hlayout)

/-! ## Entries taken out -/

/-- One value is the other without an entry that is not acceptable: one of the settings themselves, of those about
    submodules, or of the patterns of tiers. -/
inductive Stripped (j j' : Json) : Prop
  | entry (h : Sheds kind? (entriesOf j) (entriesOf j'))
  | submodule {inner inner' : Json} (hinner : (entriesOf j).get? "submodule_config" = some inner)
      (h : Sheds submoduleKind? (entriesOf inner) (entriesOf inner'))
      (hinner' : entriesOf j' = (entriesOf j).insert "submodule_config" inner')
  | tier {inner inner' : Json} (hinner : (entriesOf j).get? "doc_tiers" = some inner)
      (h : Sheds tierKind? (entriesOf inner) (entriesOf inner'))
      (hinner' : entriesOf j' = (entriesOf j).insert "doc_tiers" inner')

theorem Stripped.ofJson {j j' : Json} (h : Stripped j j') : ofJson j' = Settings.ofJson j := by
  cases h with
  | entry h => exact readEntries_sheds readEntry_of_not_acceptable h default
  | submodule hinner h hinner' =>
    refine readEntries_insert (fun s => ?_) hinner hinner' default
    rw [readEntry_eq, readEntry_eq, readEntries_sheds readSubmodule_of_not_acceptable h]
    rfl
  | tier hinner h hinner' =>
    refine readEntries_insert (fun s => ?_) hinner hinner' default
    rw [readEntry_eq, readEntry_eq, readEntries_sheds readTier_of_not_acceptable h]
    rfl

/-- An entry that is not acceptable is as good as absent, whatever else is in the file: settings are the same without it,
    and each comes from the entry under its own key.  Of any text at all they are within their bounds, and so is the depth to
    which modules are split, with every layout that can be detected. -/
theorem unacceptable_as_absent :
    (∀ {j j' : Json}, Stripped j j' → ofJson j' = ofJson j) ∧ (∀ j, ofJson j = ownEntries (entriesOf j)) ∧
      ∀ text, (ofText text).Bounded ∧ ∀ files,
        1 ≤ (ofText text).splitDepth ((Layout.detect? files).map fun l => l.preset.maxDepth) ∧
          (ofText text).splitDepth ((Layout.detect? files).map fun l => l.preset.maxDepth) ≤ 3 :=
  ⟨Stripped.ofJson, ofJson_eq, fun text => ⟨bounded_ofText text, (bounded_ofText text).splitDepth⟩⟩

/-- A file with a depth that is out of range, between settings that are acceptable. -/
def tooDeep : Json := .object [
  ("threshold", .natural 250),
  ("submodule_config", .object [("strategy", .string "Force"), ("max_depth", .natural 9), ("threshold", .natural 40)])]

/-- The file without that depth. -/
def undeepened : Json := .object [
  ("threshold", .natural 250),
  ("submodule_config", .object [("strategy", .string "Force"), ("threshold", .natural 40)])]

theorem unacceptable_as_absent_depth : Stripped tooDeep undeepened ∧ ofJson undeepened = ofJson tooDeep ∧
    (ofJson tooDeep).submodules = ⟨true, 40, .force, none⟩ ∧ (ofJson tooDeep).threshold = 250 := by
  have hnot : ¬ Acceptable submoduleKind? "max_depth" (.natural 9) := by
    rintro ⟨kind, hkind, hholds⟩
    cases hkind
    exact absurd hholds.2 (by decide)
  have hstripped : Stripped tooDeep undeepened := .submodule rfl ⟨"max_depth", .natural 9, rfl, hnot, rfl⟩ rfl
  exact ⟨hstripped, unacceptable_as_absent.1 hstripped, by decide +kernel, by decide +kernel⟩

end Settings

end CodeIndex
