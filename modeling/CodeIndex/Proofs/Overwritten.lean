import CodeIndex.Proofs.AnyIndex
import CodeIndex.Proofs.SourceState

set_option autoImplicit false

/-!
# What every run leaves of source files and the cache

An update of an index whose modules are called anything may write a shard anywhere, even over the cache.  It leaves source
files alone all the same, and a shard that lies in the place of the cache counts as no cache.
-/

namespace CodeIndex

open Action Store Json

/-! ## Caches that are lost -/

/-- Without entries an object is no cache. -/
theorem OutlineCache.entries?_of_lookup {ms : List (String × Json)} (h : lookup "entries" ms = none) :
    entries? (.object ms) = none := by
  have hentries : required (dictOf? Outline.ofJson?) (lookup "entries" ms) = none := by rw [h]; rfl
  unfold entries? fields? namedFields?
  dsimp only
  split
  · change (required asNatural? (lookup "version" ms) >>= fun _ => _) = none
    iterate 2 refine Option.bind_eq_none_iff.2 fun _ _ => ?_
    exact congrArg (· >>= _) hentries
  · rfl

/-- A shard is not taken for a cache. -/
theorem Shard.entries?_eq_none (shard : Shard) :
    ((String.fromUTF8? (encode shard)).bind fun text => (Json.read? text).bind OutlineCache.entries?) = none := by
  have hread : Json.read? shard.toJson.render = some shard.toJson := Json.read?_render (readsBack.counting shard)
  rw [encode, fromUTF8?_toUTF8, Option.bind_some]
  change (Json.read? shard.toJson.render).bind OutlineCache.entries? = none
  rw [hread, Option.bind_some]
  refine OutlineCache.entries?_of_lookup ?_
  simp only [lookup_append, lookup_cons, lookup_nil, lookup_memberIf, String.reduceEq, reduceIte, Option.or_none]

namespace OutlineCache

variable {d d' : Disk} {l : Location} {root : String}

theorem entries_loaded_of_node? (h : d'.node? l = d.node? l) : (loaded d' root l).entries = (loaded d root l).entries := by
  have hloaded : ∀ d : Disk, (loaded d root l).entries = ((d.read l).toOption.bind fun bytes =>
      (String.fromUTF8? bytes).bind fun text => (Json.read? text).bind entries?).getD {} := fun d => by
    rw [loaded]
    cases d.read l <;> rfl
  rw [hloaded, hloaded, Disk.toOption_read, Disk.toOption_read, h]

theorem entries_loaded_of_absent (h : d.access l = .error .absent) : (loaded d root l).entries = {} := by
  rw [loaded, Disk.read_eq_absent.2 h]
  rfl

theorem entries_loaded_of_shard {shard : Shard} (h : d.read l = .ok (encode shard)) : (loaded d root l).entries = {} := by
  rw [loaded, h]
  dsimp only
  rw [shard.entries?_eq_none]
  rfl

end OutlineCache

/-- The cache tells what it told, or nothing. -/
def Store.CacheLeft (s : Store) (d d' : Disk) : Prop :=
  (OutlineCache.loaded d' s.root s.cachePlace).entries = (OutlineCache.loaded d s.root s.cachePlace).entries ∨
    (OutlineCache.loaded d' s.root s.cachePlace).entries = {}

theorem Store.CacheLeft.trans {s : Store} {d d' d'' : Disk} (h : s.CacheLeft d d') (h' : s.CacheLeft d' d'') :
    s.CacheLeft d d'' := by
  rcases h' with h' | h'
  · exact h.imp h'.trans h'.trans
  · exact .inr h'

namespace Update

variable {s : Store} {m : Maker} {a : Analysis} {modules : ModuleMap} {w w' : Workspace} {l : Location}

theorem not_isAside_cachePlace : ¬ IsAside s.cachePlace := by
  intro haside
  have hlast := Location.lastChar?_concat (s.place ++ [OutlineCache.directory]) "" OutlineCache.fileName (by decide)
  rw [String.empty_append] at hlast
  exact absurd (hlast.symm.trans haside.lastChar?) (by decide)

section Absolute

variable (hs : Path.isAbsolute s.root = true)

include hs

theorem hasEnding_of_shardFiles {ids : List String} (h : ShardFiles s ids l) : HasEnding l := by
  obtain ⟨id, -, rfl | rfl⟩ := h
  · obtain ⟨directory, name, heq⟩ := exists_shardPlace hs id
    exact ⟨directory, name, ".json", by decide, heq⟩
  · obtain ⟨directory, name, heq⟩ := exists_shardPlace hs id
    refine ⟨directory, name, ".json.tmp", by decide, ?_⟩
    rw [heq, Location.aside_concat, String.append_assoc]
    rfl

/-- The cache is left alone, unless a shard lies in its place. -/
theorem cacheLeft_of_changed {ids : List String} (hopen : w.disk.IsOpen s.place)
    (hids : ∀ id ∈ ids, s.shardPlace id ≠ s.cachePlace) (h : Changed (ShardFiles s ids) (· <+: s.shardsPlace) w w') :
    s.CacheLeft w.disk w'.disk := by
  refine .inl (OutlineCache.entries_loaded_of_node? ?_)
  refine agreeOff_of_changed hopen (fun l => hasEnding_of_shardFiles hs) h s.cachePlace ?_
  rintro (⟨id, hid, heq | heq⟩ | hp)
  · exact hids id hid heq.symm
  · exact not_isAside_cachePlace (heq ▸ isAside_aside _)
  · exact not_shardsPlace_le_cachePlace hp

theorem cacheLeft_of_regenerate (hopen : w.disk.IsOpen s.place) {id : String} {hashes hashes' : Dict String}
    (h : (regenerate s a modules hashes id).exec w = (.ok hashes', w')) : s.CacheLeft w.disk w'.disk := by
  by_cases hplace : s.shardPlace id = s.cachePlace
  · have hsaved := (regenerate_ok hs h).2
    rw [Analysis.bytesOf?, hplace] at hsaved
    cases hget : modules.get? id with
    | none =>
      rw [hget] at hsaved
      exact .inr (OutlineCache.entries_loaded_of_absent (Disk.read_eq_absent.1 hsaved))
    | some files =>
      rw [hget] at hsaved
      exact .inr (OutlineCache.entries_loaded_of_shard hsaved)
  · refine cacheLeft_of_changed hs hopen (fun other hother => ?_) (regenerate_changed hs h).1
    rw [List.mem_singleton.1 hother]
    exact hplace

/-- What holds of every step of writing shards holds of the whole. -/
theorem regenerateAll_of_step {P : Workspace → Workspace → Prop} (hrefl : ∀ w, P w w)
    (htrans : ∀ {w w₁ w₂}, P w w₁ → P w₁ w₂ → P w w₂) (ids : List String)
    (hstep : ∀ id ∈ ids, ∀ {hashes hashes' w w'}, (regenerate s a modules hashes id).exec w = (.ok hashes', w') → P w w')
    {hashes hashes' : Dict String} {backups backups' : Backups}
    (h : (regenerateAll s a modules ids hashes backups).exec w = (.ok (hashes', backups'), w')) : P w w' := by
  induction ids generalizing w hashes backups with
  | nil =>
    cases h
    exact hrefl _
  | cons id rest ih =>
    rcases regenerateAll_cases hs h with ⟨f, -, hback⟩ | ⟨previous, -, ⟨f, w₁, -, -, hback⟩ | ⟨hashes₁, w₁, hr, h⟩⟩
    · cases rollBack_throw hs hback
    · cases rollBack_throw hs hback
    · exact htrans (hstep id List.mem_cons_self hr) (ih (fun i hi => hstep i (List.mem_cons_of_mem _ hi)) h)

/-- Shards, wherever they are written, leave the project's directory and files without their ending. -/
theorem regenerateAll_left {ids : List String} {hashes hashes' : Dict String} {backups backups' : Backups}
    (hopen : w.disk.IsOpen s.place)
    (h : (regenerateAll s a modules ids hashes backups).exec w = (.ok (hashes', backups'), w')) :
    Changed HasEnding (· <+: s.shardsPlace) w w' ∧ s.CacheLeft w.disk w'.disk := by
  refine regenerateAll_of_step (P := fun w w' => w.disk.IsOpen s.place →
    Changed HasEnding (· <+: s.shardsPlace) w w' ∧ s.CacheLeft w.disk w'.disk) hs ?_ ?_ ids ?_ h hopen
  · exact fun w _ => ⟨.refl _ _ w, .inl rfl⟩
  · intro w w₁ w₂ h h' hopen
    obtain ⟨hchanged, hleft⟩ := h hopen
    obtain ⟨hchanged', hleft'⟩ := h' (hchanged.frame.isOpen hopen)
    exact ⟨hchanged.trans hchanged', hleft.trans hleft'⟩
  · intro id _ hashes hashes' w w' h hopen
    exact ⟨(regenerate_changed hs h).1.mono (fun l => hasEnding_of_shardFiles hs) fun _ h => h,
      cacheLeft_of_regenerate hs hopen h⟩

theorem left_of_commit (hopen : w.disk.IsOpen s.place) {core : CoreIndex} {backups : Backups} {u : Unit}
    (h : (commit s core backups).exec w = (.ok u, w')) :
    Changed HasEnding (· <+: s.shardsPlace) w w' ∧ s.CacheLeft w.disk w'.disk := by
  have hplaces : ∀ l, l = s.corePlace ∨ l = s.corePlace.aside → HasEnding l := fun l hl =>
    hasEnding_of_isOutputPlace (isOutputPlace_corePlace hl)
  have hchanged : Changed (fun l => l = s.corePlace ∨ l = s.corePlace.aside) (· <+: s.shardsPlace) w w' :=
    (writeCore_ok hs (intact_of_commit hs h).2).2.mono (fun _ h => h) fun _ => False.elim
  refine ⟨hchanged.mono hplaces fun _ h => h, .inl (OutlineCache.entries_loaded_of_node? ?_)⟩
  refine agreeOff_of_changed hopen hplaces hchanged s.cachePlace ?_
  rintro ((heq | heq) | hp)
  · have hlen := congrArg List.length heq
    simp [cachePlace, corePlace] at hlen
  · exact not_isAside_cachePlace (heq ▸ isAside_aside _)
  · exact not_shardsPlace_le_cachePlace hp

end Absolute

end Update

/-! ## Runs -/

/-- What a run leaves of source files, and of the cache. -/
structure Spared (m : Maker) (s : Store) (w w' : Workspace) : Prop where
  isOpen : w'.disk.IsOpen s.place
  later : Disk.Later w.disk w'.disk
  finds : ∀ {x}, s.Finds w'.disk x → s.Finds w.disk x
  cached : (OutlineCache.loaded w'.disk s.root s.cachePlace).entries = {} ∨
    ∃ (files : List String) (found : List Maker.Finding),
      (∀ file ∈ files, Listing.indexable m.settings w s.root file = true) ∧
      files.filterMapM (m.finding? (OutlineCache.loaded w.disk s.root s.cachePlace) w s.root) = .ok found ∧
      Maker.Grown (OutlineCache.loaded w.disk s.root s.cachePlace) found (OutlineCache.loaded w'.disk s.root s.cachePlace).entries

section Runs

variable {s : Store} {m : Maker} {w w' : Workspace}

theorem Kept.spared (h : Kept m s w w') (hopen : w.disk.IsOpen s.place) : Spared m s w w' :=
  ⟨h.isOpen hopen, h.later, fun hx => hx.of_agree h.agree.symm, .inr h.cached⟩

/-- A file whose language is known does not have the ending of a document. -/
theorem SourceState.not_hasEnding {x : SourceState} (h : x.language?.isSome = true) : ¬ HasEnding x.place := by
  rintro ⟨directory, stem, tail, htail, heq⟩
  rw [language?, heq, List.getLast?_concat, Option.bind_some, ofName_append_ending stem htail] at h
  cases h

/-- An update spares source files, whatever the modules of the index are called. -/
theorem Update.spared_of_run {root : String} (hopen : w.disk.IsOpen (w.store root).place) {o : UpdateOutcome}
    (h : (run m root).exec w = (.ok o, w')) : Spared m (w.store root) w w' := by
  have hs := w.isAbsolute_store root
  obtain ⟨core, -, -, -, halike | ⟨c, w₁, ha₁, hindexable, h⟩⟩ := run_steps h
  · refine ⟨halike.disk_eq ▸ hopen, halike.disk_eq ▸ .refl _, fun hx => halike.disk_eq ▸ hx, .inr ⟨[], [], by simp, rfl, ?_⟩⟩
    rw [halike.disk_eq]
    exact .refl _ _
  generalize w.store root = s at hs hopen hindexable h ⊢
  obtain ⟨importers, a, found, hashes, backups, core', w₂, w₃, w₄, hfound, ha₂, hregenerate, -, -, hcommit, hsave⟩ :=
    apply_steps hs h
  rw [Maker.finding?_of_alike ha₁, ha₁.disk_eq] at hfound
  rw [ha₁.disk_eq] at hsave
  have hdisk : w₂.disk = w.disk := ha₂.disk_eq.trans ha₁.disk_eq
  have hpath := Maker.path_rememberAll (OutlineCache.loaded w.disk s.root s.cachePlace) found
  obtain ⟨hshards, hleft⟩ := regenerateAll_left hs (hdisk ▸ hopen) hregenerate
  obtain ⟨hcore, hleft'⟩ := left_of_commit hs (hshards.frame.isOpen (hdisk ▸ hopen)) hcommit
  have hwritten := hshards.trans hcore
  have hopen₄ : w₄.disk.IsOpen s.place := hwritten.frame.isOpen (hdisk ▸ hopen)
  have hsaved := changed_of_saveQuietly hs hpath hsave
  have hdocuments := agreeOff_of_changed (hdisk ▸ hopen) (fun _ h => h) hwritten
  have hcache := agreeOff_of_saveQuietly hs hpath hopen₄ hsave
  rw [hdisk] at hdocuments
  refine ⟨hsaved.frame.isOpen hopen₄, hdisk ▸ hwritten.later.trans hsaved.later, fun {x} hx => ?_, ?_⟩
  · have hforeign := hx.foreign
    have haccess := hcache.symm.access_of_ok (fun hp => hforeign (.inr (.inl hp))) hx.access
    refine ⟨hdocuments.symm.access_of_ok ?_ haccess, hx.language, hforeign⟩
    exact fun hown => hown.elim (SourceState.not_hasEnding hx.language) fun hp => hforeign (.inl hp)
  · rcases OutlineCache.entries_of_saveQuietly hs hpath hsave with hentries | hsame
    · exact .inr ⟨_, found, hindexable, hfound, hentries ▸ Maker.grown_rememberAll hfound⟩
    · rw [OutlineCache.entries_loaded_congr hsame]
      rcases hdisk ▸ hleft.trans hleft' with hkept | hlost
      · rw [hkept]
        exact .inr ⟨_, found, hindexable, hfound, .refl _ _⟩
      · exact .inl hlost

end Runs

end CodeIndex
