import CodeIndex.Analysis
import CodeIndex.Proofs.Consistency
import CodeIndex.Proofs.Division

set_option autoImplicit false

/-!
# Documents and the analysis behind them

A shard tells everything that an analysis knows about the files of a module, but for critical documentation, which is
in the core index.  So the analysis is known again from the documents, as far as it is about files of modules, and a
shard only depends on what is known about its own files.
-/

namespace CodeIndex.Dict

variable {α : Type}

/-- A map that is filled from what a function knows of some names. -/
theorem get?_ofList_filterMap (names : List String) (f : String → Option α) (key : String) :
    (ofList (names.filterMap fun name => (f name).map fun v => (name, v))).get? key =
      if key ∈ names then f key else none := by
  have hmem : ∀ v, (key, v) ∈ (names.filterMap fun name => (f name).map fun v => (name, v)) ↔
      key ∈ names ∧ f key = some v := by
    intro v
    simp only [List.mem_filterMap, Option.map_eq_some_iff, Prod.mk.injEq]
    constructor
    · rintro ⟨name, hname, v', hv, rfl, rfl⟩
      exact ⟨hname, hv⟩
    · rintro ⟨hkey, hv⟩
      exact ⟨key, hkey, v, hv, rfl, rfl⟩
  refine Option.ext fun v => ?_
  constructor
  · intro h
    obtain ⟨hkey, hv⟩ := (hmem v).1 (mem_of_get?_ofList h)
    rw [if_pos hkey, hv]
  · intro h
    split at h
    · next hkey =>
      refine get?_ofList_eq_some (fun v' hv' => ?_) ((hmem v).2 ⟨hkey, h⟩)
      exact Option.some.inj (((hmem v').1 hv').2.symm.trans h)
    · cases h

end CodeIndex.Dict

namespace CodeIndex.Analysis

/-! ## Parts of an analysis -/

theorem get?_detailsOf (a : Analysis) (files : List String) (path : String) :
    (a.detailsOf files).get? path = if path ∈ files then a.details.get? path else none :=
  Dict.get?_ofList_filterMap files a.details.get? path

/-- The synopsis of a file, if it is of one tier. -/
def synopsis? (a : Analysis) (tier : DocTier) (path : String) : Option Synopsis :=
  ((a.docs.get? path).filter fun d => d.1 == tier).map Prod.snd

theorem get?_docsAmong (a : Analysis) (tier : DocTier) (files : List String) (path : String) :
    (a.docsAmong tier files).get? path = if path ∈ files then a.synopsis? tier path else none := by
  rw [← Dict.get?_ofList_filterMap files (a.synopsis? tier) path, docsAmong]
  congr 2
  refine List.filterMap_congr fun name _ => ?_
  unfold synopsis?
  cases a.docs.get? name with
  | none => rfl
  | some d =>
    obtain ⟨t, s⟩ := d
    by_cases h : t = tier <;> simp [h]

theorem get?_docsOf (a : Analysis) (tier : DocTier) (path : String) :
    (a.docsOf tier).get? path = a.synopsis? tier path := by
  rw [docsOf, Dict.get?_map, Dict.get?_filter]
  rfl

/-- Two analyses know the same about some files. -/
def AgreeOn (a b : Analysis) (files : List String) : Prop :=
  ∀ path ∈ files, a.details.get? path = b.details.get? path ∧ a.docs.get? path = b.docs.get? path

/-- A shard only depends on what is known about its files. -/
theorem shard_congr {a b : Analysis} {files : List String} (h : a.AgreeOn b files) (id : String) :
    a.shard id files = b.shard id files := by
  have hdetails : a.detailsOf files = b.detailsOf files := Dict.ext_get? fun path => by
    rw [get?_detailsOf, get?_detailsOf]
    split
    · next hp => exact (h path hp).1
    · rfl
  have hdocs : ∀ tier, a.docsAmong tier files = b.docsAmong tier files := fun tier => Dict.ext_get? fun path => by
    rw [get?_docsAmong, get?_docsAmong]
    split
    · next hp => rw [synopsis?, synopsis?, (h path hp).2]
    · rfl
  simp only [shard, hdetails, hdocs]

/-- The shards of some modules. -/
def shards (a : Analysis) (modules : ModuleMap) : List Shard := modules.toList.map fun m => a.shard m.1 m.2

/-! ## From the documents -/

/-- What the shards tell about a file. -/
def shown? (a : Analysis) (path : String) : Option (DocTier × Synopsis) :=
  (a.docs.get? path).filter fun d => d.1 != .critical

theorem get?_insertAll_tier (docs : Dict (DocTier × Synopsis)) (tier : DocTier) (found : Dict Synopsis) (path : String) :
    (docs.insertAll (found.toList.map fun e => (e.1, tier, e.2))).get? path =
      ((found.get? path).map fun s => (tier, s)).or (docs.get? path) := by
  have hmap : (found.toList.map fun e => (e.1, tier, e.2)) = (found.map fun _ s => (tier, s)).toList := rfl
  rw [hmap, Dict.get?_insertAll_toList, Dict.get?_map]

theorem get?_docs_addShard (a b : Analysis) (id : String) (files : List String) (path : String) :
    (b.addShard (a.shard id files)).docs.get? path =
      (if path ∈ files then a.shown? path else none).or (b.docs.get? path) := by
  rw [addShard, shard, get?_insertAll_tier, get?_insertAll_tier, get?_docsAmong, get?_docsAmong]
  by_cases hp : path ∈ files
  · simp only [if_pos hp, synopsis?, shown?]
    cases a.docs.get? path with
    | none => rfl
    | some d => obtain ⟨_ | _ | _, s⟩ := d <;> rfl
  · simp [if_neg hp]

theorem get?_details_addShard (a b : Analysis) (id : String) (files : List String) (path : String) :
    (b.addShard (a.shard id files)).details.get? path =
      (if path ∈ files then a.details.get? path else none).or (b.details.get? path) := by
  rw [addShard, shard, Dict.get?_insertAll_toList, get?_detailsOf]

/-- What the shards of some modules tell together. -/
theorem foldl_addShard (a b : Analysis) (modules : List (String × List String)) (path : String) :
    ((modules.map fun e => a.shard e.1 e.2).foldl addShard b).details.get? path =
        (if path ∈ modules.flatMap Prod.snd then a.details.get? path else none).or (b.details.get? path) ∧
      ((modules.map fun e => a.shard e.1 e.2).foldl addShard b).docs.get? path =
        (if path ∈ modules.flatMap Prod.snd then a.shown? path else none).or (b.docs.get? path) := by
  have hor : ∀ {β : Type} (p q : Prop) [Decidable p] [Decidable q] (x y : Option β),
      (if q then x else none).or ((if p then x else none).or y) = (if p ∨ q then x else none).or y := by
    intro β p q _ _ x y
    by_cases hp : p <;> by_cases hq : q <;> cases x <;> simp [hp, hq]
  induction modules generalizing b with
  | nil => simp
  | cons e rest ih =>
    obtain ⟨hdetails, hdocs⟩ := ih (b.addShard (a.shard e.1 e.2))
    rw [get?_details_addShard, hor] at hdetails
    rw [get?_docs_addShard, hor] at hdocs
    simp only [List.map_cons, List.foldl_cons, List.flatMap_cons, List.mem_append]
    exact ⟨hdetails, hdocs⟩

theorem get?_details_ofIndex {core : CoreIndex} (a : Analysis) (modules : List (String × List String)) (path : String) :
    (ofIndex core (modules.map fun e => a.shard e.1 e.2)).details.get? path =
      if path ∈ modules.flatMap Prod.snd then a.details.get? path else none := by
  have h := (a.foldl_addShard empty modules path).1
  rw [ofIndex]
  exact h.trans Option.or_none

theorem get?_docs_ofIndex {core : CoreIndex} {a : Analysis} (hcritical : core.critical = a.docsOf .critical)
    (modules : List (String × List String)) (path : String) :
    (ofIndex core (modules.map fun e => a.shard e.1 e.2)).docs.get? path =
      if path ∈ modules.flatMap Prod.snd then a.docs.get? path
      else (a.docs.get? path).filter fun d => d.1 == .critical := by
  have h := (a.foldl_addShard empty modules path).2
  rw [ofIndex]
  dsimp only
  rw [hcritical, get?_insertAll_tier, h, get?_docsOf, synopsis?, shown?]
  by_cases hp : path ∈ modules.flatMap Prod.snd
  · rw [if_pos hp, if_pos hp]
    cases a.docs.get? path with
    | none => rfl
    | some d => obtain ⟨_ | _ | _, s⟩ := d <;> rfl
  · rw [if_neg hp, if_neg hp]
    cases a.docs.get? path with
    | none => rfl
    | some d => obtain ⟨_ | _ | _, s⟩ := d <;> rfl

/-- Documents tell all about the files of modules. -/
theorem ofIndex_agreeOn {core : CoreIndex} {a : Analysis} (hcritical : core.critical = a.docsOf .critical)
    (modules : List (String × List String)) :
    (ofIndex core (modules.map fun e => a.shard e.1 e.2)).AgreeOn a (modules.flatMap Prod.snd) := by
  intro path hp
  rw [get?_details_ofIndex, get?_docs_ofIndex hcritical, if_pos hp, if_pos hp]
  exact ⟨rfl, rfl⟩

/-! ## Overlays -/

theorem get?_details_overlay (a other : Analysis) (removed : List String) (path : String) :
    (a.overlay other removed).details.get? path =
      (other.details.get? path).or (if path ∈ removed then none else a.details.get? path) := by
  rw [overlay, Dict.get?_insertAll_toList, Dict.get?_filter]
  congr 1
  by_cases hp : path ∈ removed <;> cases a.details.get? path <;> simp [hp]

theorem get?_docs_overlay (a other : Analysis) (removed : List String) (path : String) :
    (a.overlay other removed).docs.get? path =
      (other.docs.get? path).or
        (if path ∈ removed ∨ other.details.contains path then none else a.docs.get? path) := by
  rw [overlay]
  dsimp only
  rw [Dict.get?_insertAll_toList, Dict.get?_filter]
  congr 1
  by_cases hp : path ∈ removed <;> by_cases ho : other.details.contains path <;> cases a.docs.get? path <;>
    simp [hp, ho]

/-- What an overlay tells of a file takes the place of what was known. -/
theorem overlay_told {a other : Analysis} {removed : List String} {path : String} {entry : FileEntry}
    (h : other.details.get? path = some entry) : (a.overlay other removed).details.get? path = some entry ∧
      (a.overlay other removed).docs.get? path = other.docs.get? path := by
  have hcontains : other.details.contains path = true := Dict.contains_iff.2 ⟨entry, h⟩
  have hgone : path ∈ removed ∨ other.details.contains path = true := .inr hcontains
  rw [get?_details_overlay, get?_docs_overlay, h, Option.some_or, if_pos hgone, Option.or_none]
  exact ⟨rfl, rfl⟩

/-- An overlay leaves alone what it does not mention. -/
theorem overlay_untold {a other : Analysis} {removed : List String} {path : String} (hremoved : path ∉ removed)
    (hdetails : other.details.get? path = none) (hdocs : other.docs.get? path = none) :
    (a.overlay other removed).details.get? path = a.details.get? path ∧
      (a.overlay other removed).docs.get? path = a.docs.get? path := by
  have hcontains : ¬ other.details.contains path = true := by simp [Dict.contains, hdetails]
  rw [get?_details_overlay, get?_docs_overlay, hdetails, hdocs, if_neg hremoved, if_neg (by tauto)]
  exact ⟨rfl, rfl⟩

theorem overlay_agreeOn {a other : Analysis} {removed files : List String}
    (h : ∀ path ∈ files, path ∉ removed ∧ other.details.get? path = none ∧ other.docs.get? path = none) :
    (a.overlay other removed).AgreeOn a files := by
  intro path hp
  obtain ⟨hremoved, hdetails, hdocs⟩ := h path hp
  exact overlay_untold hremoved hdetails hdocs

theorem AgreeOn.trans {a b c : Analysis} {files : List String} (h : a.AgreeOn b files) (h' : b.AgreeOn c files) :
    a.AgreeOn c files :=
  fun path hp => ⟨(h path hp).1.trans (h' path hp).1, (h path hp).2.trans (h' path hp).2⟩

theorem AgreeOn.mono {a b : Analysis} {files files' : List String} (h : a.AgreeOn b files) (hs : files' ⊆ files) :
    a.AgreeOn b files' :=
  fun path hp => h path (hs hp)

/-! ## The core index -/

/-- Modules that divide files make a consistent core index. -/
theorem consistent_core {modules : ModuleMap} {files : List String} (h : modules.Divides files) (a : Analysis)
    (root madeAt : String) (hashes : Dict String) (source : FileSource) (layout : Option Layout) (settings : Settings) :
    (a.core root madeAt modules hashes source layout settings).Consistent := by
  have hget : ∀ {id m}, (a.core root madeAt modules hashes source layout settings).modules.get? id = some m →
      modules.get? id = some m.files ∧ m.fileCount = m.files.length.toUInt64 := by
    intro id m hm
    rw [core, Dict.get?_map, Option.map_eq_some_iff] at hm
    obtain ⟨group, hgroup, rfl⟩ := hm
    exact ⟨hgroup, rfl⟩
  refine ⟨fun hm => (hget hm).2, ?_, fun hm hfile => ?_, fun {file id} hfile => ?_⟩
  · have hfiles : (a.core root madeAt modules hashes source layout settings).modules.values.flatMap ModuleEntry.files =
        modules.files := by
      simp only [core, Dict.values, Dict.map, List.map_map, List.flatMap_map, ModuleMap.files, List.flatten_eq_flatMap]
      rfl
    rw [hfiles]
    exact h.nodup
  · exact .inr ((ModuleMap.get?_moduleOfFile h.nodup).2 ⟨_, (hget hm).1, hfile⟩)
  · obtain ⟨group, hgroup, hmem⟩ := (ModuleMap.get?_moduleOfFile h.nodup).1 hfile
    exact ⟨a.moduleEntry id group, by rw [core, Dict.get?_map, hgroup]; rfl, hmem⟩

end CodeIndex.Analysis
