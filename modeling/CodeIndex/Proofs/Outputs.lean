import CodeIndex.Proofs.Built

set_option autoImplicit false

/-!
# What the program writes is no part of a project

Some places are the program's own: those of the documents, of the shards and of the cache.  Two disks that have the same
everywhere else list the same files, so that what one run writes is not read by the next.
-/

namespace CodeIndex

open Action Store Update

/-! ## Disks that have the same at some locations -/

namespace Disk

variable {d d' d'' : Disk} {l : Location} {own : Location → Prop}

/-- What is reached at a location, if anything is. -/
def node? (d : Disk) (l : Location) : Option Node := (d.access l).toOption

theorem node?_eq_some {node : Node} : d.node? l = some node ↔ d.access l = .ok node := by
  unfold node?
  cases d.access l <;> simp [Except.toOption]

theorem node?_eq_none : d.node? l = none ↔ ∀ node, d.access l ≠ .ok node := by
  unfold node?
  cases d.access l <;> simp [Except.toOption]

theorem node?_congr (h : d'.access l = d.access l) : d'.node? l = d.node? l := by rw [node?, node?, h]

/-- What a file holds. -/
def Node.bytes? : Node → Option ByteArray
  | .file bytes _ => some bytes
  | .directory => none

theorem toOption_read (d : Disk) (l : Location) : (d.read l).toOption = (d.node? l).bind Node.bytes? := by
  unfold read node?
  rcases d.access l with e | ⟨bytes, time⟩ | _ <;> rfl

theorem readText_congr (h : d'.node? l = d.node? l) : d'.readText l = d.readText l := by
  have hread : ∀ d : Disk, d.readText l = (d.read l).toOption.bind String.fromUTF8? := fun d => by
    unfold readText
    cases d.read l <;> rfl
  rw [hread, hread, toOption_read, toOption_read, h]

theorem holds_congr (h : d'.node? l = d.node? l) : d'.holds l = d.holds l := by
  have hholds : ∀ d : Disk, d.holds l = (d.node? l).isSome := fun d => by
    unfold holds node?
    cases d.access l <;> rfl
  rw [hholds, hholds, h]

/-- Two disks have the same everywhere but at some locations. -/
def AgreeOff (own : Location → Prop) (d d' : Disk) : Prop := ∀ l, ¬ own l → d'.node? l = d.node? l

namespace AgreeOff

theorem refl (own : Location → Prop) (d : Disk) : AgreeOff own d d := fun _ _ => rfl

theorem symm (h : AgreeOff own d d') : AgreeOff own d' d := fun l hl => (h l hl).symm

theorem trans (h : AgreeOff own d d') (h' : AgreeOff own d' d'') : AgreeOff own d d'' := fun l hl => (h' l hl).trans (h l hl)

theorem access_of_ok (h : AgreeOff own d d') {node : Node} (hl : ¬ own l) (ha : d.access l = .ok node) :
    d'.access l = .ok node := node?_eq_some.1 ((h l hl).trans (node?_eq_some.2 ha))

/-- Directories above something that is the same are there. -/
theorem isOpen_above (h : AgreeOff own d d') {p : Location} {node : Node} (hl : ¬ own l) (ha : d.access l = .ok node)
    (hp : p <+: l) (hne : p ≠ l) : d'.IsOpen p := Disk.isOpen_above (h.access_of_ok hl ha) hp hne

/-- A frame only reaches the locations where something is written, and the directories that are made. -/
theorem of_frame {written made : Location → Prop} (h : Frame written made d d') (hwritten : ∀ l, written l → own l)
    (hmade : ∀ l, made l → own l ∨ d.IsOpen l) (hapart : ∀ l, written l → made l → d.IsOpen l) : AgreeOff own d d' := by
  intro l hl
  have hnot : ¬ written l := fun hw => hl (hwritten l hw)
  rcases hd : d.access l with e | ⟨bytes, time⟩ | _
  · -- Nothing was there, so nothing was put there and no directory was made on the way.
    have hclosed : ¬ made l := fun hm => (hmade l hm).elim hl (not_isOpen_of_error hd)
    have hnone : d.node? l = none := by rw [node?, hd]; rfl
    rw [hnone, node?_eq_none]
    intro node hnode
    have hways : ∀ t, written t → t <+: l → t ≠ l ∧ d.IsOpen t := by
      intro t ht hp
      have hne : t ≠ l := fun heq => hnot (heq ▸ ht)
      exact ⟨hne, (h.opened (Disk.isOpen_above hnode hp hne)).elim id (hapart t ht)⟩
    cases (h.access_eq hways hclosed).symm.trans hnode |>.symm.trans hd
  · rw [node?_congr (h.file_eq hd hnot)]
  · rw [node?_eq_some.2 hd, node?_eq_some.2 (h.isOpen hd)]

theorem mono {own' : Location → Prop} (h : AgreeOff own d d') (hown : ∀ l, own l → own' l) : AgreeOff own' d d' :=
  fun l hl => h l fun hin => hl (hown l hin)

end AgreeOff

/-! ## Walking -/

/-- On a sound disk everything that is stored is found where it is. -/
theorem Sound.find?_eq (h : d.Sound) (l : Location) : d.find? l = d.node? l := by
  cases hnode : d.node? l with
  | some node => exact find?_of_access (node?_eq_some.1 hnode)
  | none =>
    rw [node?_eq_none] at hnode
    by_contra hfound
    obtain ⟨node, hfind⟩ := Option.ne_none_iff_exists'.1 hfound
    by_cases hl : l = []
    · subst hl
      exact hnode .directory rfl
    · exact hnode node (h _ (mem_of_find? hl hfind))

/-- The files that a walk finds are reached through directories that it visits. -/
theorem mem_walk (h : d.Sound) {root : Location} {path : String} :
    path ∈ d.walk root ↔ ∃ l bytes time, d.access l = .ok (.file bytes time) ∧ root <+: l ∧ root.length < l.length ∧
      (∀ p, p <+: l → root.length < p.length → d.isVisited p = true) ∧ path = Path.ofComponents (l.drop root.length) := by
  have hvisited : ∀ l : Location, ((l.above ++ [l]).all fun p => decide (p.length ≤ root.length) || d.isVisited p) = true ↔
      ∀ p, p <+: l → root.length < p.length → d.isVisited p = true := by
    intro l
    rw [List.all_eq_true]
    refine forall_congr' fun p => ?_
    have hmem : p ∈ l.above ++ [l] ↔ p <+: l := by
      rw [List.mem_append, mem_above, List.mem_singleton]
      refine ⟨fun hp => hp.elim And.left fun heq => heq ▸ List.prefix_rfl, fun hp => ?_⟩
      by_cases heq : p = l
      · exact .inr heq
      · exact .inl ⟨hp, heq⟩
    rw [hmem, Bool.or_eq_true, decide_eq_true_iff]
    refine imp_congr_right fun _ => ?_
    rw [← Nat.not_lt]
    tauto
  unfold walk
  simp only [List.mem_map, List.mem_filter, hvisited, Bool.and_eq_true, decide_eq_true_eq, List.isPrefixOf_iff_prefix]
  constructor
  · rintro ⟨⟨l, node⟩, ⟨⟨hmem, ⟨hfile, hp⟩, hlen⟩, hways⟩, rfl⟩
    rcases node with ⟨bytes, time⟩ | _
    · exact ⟨l, bytes, time, h _ hmem, hp, hlen, hways, rfl⟩
    · cases hfile
  · rintro ⟨l, bytes, time, ha, hp, hlen, hways, rfl⟩
    have hl : l ≠ [] := List.ne_nil_of_length_pos (Nat.zero_lt_of_lt hlen)
    exact ⟨(l, .file bytes time), ⟨⟨(h.mem_entries hl).2 ha, ⟨rfl, hp⟩, hlen⟩, hways⟩, rfl⟩

/-! ### What a walk asks on its way -/

theorem verdictIn?_congr {directories : List Location} {file : Location} (hkind : d'.isDirectory l = d.isDirectory l)
    (hread : ∀ directory ∈ directories, d'.readText (directory ++ file) = d.readText (directory ++ file)) :
    d'.verdictIn? l directories file = d.verdictIn? l directories file := by
  unfold verdictIn?
  induction directories with
  | nil => rfl
  | cons directory rest ih =>
    rw [List.findSome?_cons, List.findSome?_cons, ih fun x hx => hread x (List.mem_cons_of_mem _ hx), rulesIn, rulesIn,
      hread directory List.mem_cons_self, hkind]

theorem underVersionControl_congr {directories : List Location}
    (hversion : ∀ directory ∈ directories, d'.holds (directory ++ [versionDirectory]) = d.holds (directory ++ [versionDirectory])) :
    d'.underVersionControl directories = d.underVersionControl directories := by
  induction directories with
  | nil => rfl
  | cons directory rest ih =>
    rw [underVersionControl, underVersionControl, hversion directory List.mem_cons_self,
      ih fun x hx => hversion x (List.mem_cons_of_mem _ hx)]

theorem mem_of_underVersionControl {directories : List Location} {x : Location} (h : x ∈ d.underVersionControl directories) :
    x ∈ directories := by
  induction directories with
  | nil => exact h
  | cons directory rest ih =>
    rw [underVersionControl] at h
    split at h
    · rw [List.mem_singleton.1 h]
      exact List.mem_cons_self
    · split at h
      · cases h
      · rcases List.mem_cons.1 h with rfl | hmem
        · exact List.mem_cons_self
        · exact List.mem_cons_of_mem _ (ih hmem)

/-- Whether a location is visited depends on the rules above it, and on whether it is a directory. -/
theorem isVisited_congr (hkind : d'.isDirectory l = d.isDirectory l)
    (hrules : ∀ directory ∈ l.above, ∀ file ∈ [ignoreFile] :: versionIgnoreFiles,
      d'.readText (directory ++ file) = d.readText (directory ++ file))
    (hversion : ∀ directory ∈ l.above, d'.holds (directory ++ [versionDirectory]) = d.holds (directory ++ [versionDirectory])) :
    d'.isVisited l = d.isVisited l := by
  have habove : ∀ x ∈ l.above.reverse, x ∈ l.above := fun x hx => List.mem_reverse.1 hx
  have hunder : d'.underVersionControl l.above.reverse = d.underVersionControl l.above.reverse :=
    underVersionControl_congr fun x hx => hversion x (habove x hx)
  have hfile : ∀ file ∈ [ignoreFile] :: versionIgnoreFiles, ∀ directories : List Location,
      (∀ x ∈ directories, x ∈ l.above.reverse) → d'.verdictIn? l directories file = d.verdictIn? l directories file :=
    fun file hfile directories hsub => verdictIn?_congr hkind fun x hx => hrules x (habove x (hsub x hx)) file hfile
  have hverdict : d'.verdict? l = d.verdict? l := by
    unfold verdict?
    dsimp only
    rw [hunder, hfile _ List.mem_cons_self _ fun _ hx => hx]
    congr 1
    funext _
    have hversioned : ∀ file ∈ versionIgnoreFiles, d'.verdictIn? l (d.underVersionControl l.above.reverse) file =
        d.verdictIn? l (d.underVersionControl l.above.reverse) file := fun file hmem =>
      hfile file (List.mem_cons_of_mem _ hmem) _ fun _ => mem_of_underVersionControl
    rw [versionIgnoreFiles, List.findSome?_cons, List.findSome?_cons, List.findSome?_cons, List.findSome?_cons,
      hversioned _ List.mem_cons_self, hversioned _ (List.mem_cons_of_mem _ List.mem_cons_self)]
    rfl
  unfold isVisited
  rw [hverdict]

end Disk

/-! ## The program's own places -/

/-- Where a path leads: some of the directories that it starts from, and then names that it has. -/
theorem Location.foldl_step_eq (names : List String) (base : Location) :
    ∃ n rest, names.foldl step base = base.take n ++ rest ∧ ∀ name ∈ rest, name ∈ names := by
  induction names generalizing base with
  | nil => exact ⟨base.length, [], by simp, by simp⟩
  | cons name names ih =>
    obtain ⟨n, rest, heq, hrest⟩ := ih (step base name)
    rw [List.foldl_cons, heq]
    rw [step]
    split
    · exact ⟨min n (base.length - 1), rest, by rw [List.dropLast_eq_take, List.take_take],
        fun x hx => List.mem_cons_of_mem _ (hrest x hx)⟩
    · refine ⟨n, [name].take (n - base.length) ++ rest, by rw [List.take_append, List.append_assoc], fun x hx => ?_⟩
      rcases List.mem_append.1 hx with hx | hx
      · rw [List.mem_singleton.1 (List.mem_of_mem_take hx)]
        exact List.mem_cons_self
      · exact List.mem_cons_of_mem _ (hrest x hx)

/-- What lies below the place where a path starts is named in the path. -/
theorem Location.mem_components_of_resolve {base : Location} {path name : String}
    (h : base ++ [name] <+: base.resolve path) : name ∈ Path.components path := by
  unfold resolve at h
  obtain ⟨n, rest, heq, hrest⟩ := foldl_step_eq (Path.components path) (if Path.isAbsolute path then [] else base)
  rw [heq] at h
  obtain ⟨more, hmore⟩ := h
  have hin : ((if Path.isAbsolute path then [] else base).take n ++ rest)[base.length]? = some name := by
    rw [← hmore]
    simp
  have hshort : ((if Path.isAbsolute path then [] else base).take n).length ≤ base.length := by
    split
    · simp
    · exact List.length_take_le' n base
  rw [List.getElem?_append_right hshort] at hin
  exact hrest name (List.mem_of_getElem? hin)

theorem Language.ofPath?_eq_bind (path : String) : ofPath? path = (Path.fileName? path).bind ofName := by
  rw [ofPath?, Path.extension?]
  exact Option.bind_assoc _ _ _

namespace Store

variable {s : Store} {l : Location}

/-- The directory with the cache. -/
def cacheDirectory (s : Store) : Location := s.place ++ [OutlineCache.directory]

/-- The endings of documents in a project's directory, and of the files in which they are prepared. -/
def endings : List String := [".json", ".json.tmp", ".json.backup", ".json.backup.tmp"]

/-- A place at which the program may write: below the directories for shards and for the cache, or that of a document. -/
def IsOwn (s : Store) (l : Location) : Prop :=
  s.shardsPlace <+: l ∨ s.cacheDirectory <+: l ∨ ∃ stem, ∃ tail ∈ endings, l = s.place ++ [stem ++ tail]

theorem isOwn_of_isOutputPlace (h : s.IsOutputPlace l) : s.IsOwn l := by
  obtain ⟨stem, tail, htail, rfl | rfl⟩ := h
  · exact .inr (.inr ⟨stem, tail, by rcases htail with rfl | rfl <;> decide, rfl⟩)
  · exact .inl (List.prefix_append _ _)

/-! ### Source files are elsewhere -/

theorem ofName_append_ending (stem : String) {tail : String} (h : tail ∈ endings) : Language.ofName (stem ++ tail) = none := by
  have hcut : ∀ before ext : String, '.' ∉ ext.toList → Language.ofExtension? ext = none → tail = before ++ "." ++ ext →
      Language.ofName (stem ++ tail) = none := by
    intro before ext hdot hext htail
    rw [htail, ← String.append_assoc, ← String.append_assoc]
    exact Language.ofName_append (stem ++ before) hdot hext
  simp only [endings, List.mem_cons, List.not_mem_nil, or_false] at h
  rcases h with rfl | rfl | rfl | rfl
  · exact hcut "" "json" (by decide) (by decide) (by decide)
  · exact hcut ".json" "tmp" (by decide) (by decide) (by decide)
  · exact hcut ".json" "backup" (by decide) (by decide) (by decide)
  · exact hcut ".json.backup" "tmp" (by decide) (by decide) (by decide)

theorem ofPath?_append_ending (stem : String) {tail : String} (h : tail ∈ endings) : Language.ofPath? (stem ++ tail) = none := by
  have htail : ∀ tail ∈ endings, '/' ∉ tail.toList ∧ 2 < tail.length := by decide
  have hlong : 2 < (Path.lastPiece stem ++ tail).length := by
    rw [String.length_append]
    exact Nat.lt_of_lt_of_le (htail tail h).2 (Nat.le_add_left _ _)
  have hne : ∀ short : String, short.length ≤ 2 → Path.lastPiece stem ++ tail ≠ short := fun short hshort heq =>
    absurd hshort (Nat.not_le.2 (heq ▸ hlong))
  have hcomponents := Path.components_append (htail tail h).1 (hne "" (by decide)) (hne "." (by decide))
  have hname : Path.fileName? (stem ++ tail) = some (Path.lastPiece stem ++ tail) := by
    rw [Path.fileName?, hcomponents, List.getLast?_concat]
    dsimp only
    rw [if_neg (hne ".." (by decide))]
  rw [Language.ofPath?_eq_bind, hname, Option.bind_some, ofName_append_ending (Path.lastPiece stem) h]

/-- A path that a listing may take up: none of its names is that of an excluded directory, and its language is known. -/
def Plain (path : String) : Prop :=
  (Text.pieces '/' path).any excludedDirectories.contains = false ∧ (Language.ofPath? path).isSome = true

theorem not_isOwn_of_plain (hs : Path.isAbsolute s.root = true) (here : Location) {path : String} (h : Plain path) :
    ¬ s.IsOwn (here.resolve (Path.join s.root path)) := by
  obtain ⟨hnames, hlanguage⟩ := h
  have hresolved : here.resolve (Path.join s.root path) = s.place.resolve path := by
    rw [Location.resolve_join hs, resolve_root hs]
  have hbelow : ∀ name, excludedDirectories.contains name = true →
      ¬ s.place ++ [name] <+: here.resolve (Path.join s.root path) := by
    intro name hname hprefix
    rw [hresolved] at hprefix
    have hmem : name ∈ Text.pieces '/' path := (List.mem_filter.1 (Location.mem_components_of_resolve hprefix)).1
    exact absurd hname (by simpa using List.any_eq_false.1 hnames name hmem)
  rintro (hshards | hcache | ⟨stem, tail, htail, heq⟩)
  · exact hbelow Shard.directory (by decide) hshards
  · exact hbelow OutlineCache.directory (by decide) hcache
  · obtain ⟨language, hsome⟩ := Option.isSome_iff_exists.1 hlanguage
    obtain ⟨directory, name, hplace, hname⟩ := Language.place_of_ofPath? hs here hsome
    have hlast : name = stem ++ tail := (List.append_singleton_inj.1 (hplace.symm.trans heq)).2
    cases (hlast ▸ hname).symm.trans (ofName_append_ending stem htail)

/-- Rules for walks are not read at the program's own places. -/
theorem not_isOwn_concat {directory : Location} {names : List String} (hnames : names ≠ [])
    (hshards : ¬ s.shardsPlace <+: directory) (hcache : ¬ s.cacheDirectory <+: directory)
    (hother : Shard.directory ∉ names ∧ OutlineCache.directory ∉ names)
    (hending : ∀ stem, ∀ tail ∈ endings, names.getLast? ≠ some (stem ++ tail)) : ¬ s.IsOwn (directory ++ names) := by
  have hbelow : ∀ name, name ∉ names → ¬ s.place ++ [name] <+: directory → ¬ s.place ++ [name] <+: directory ++ names := by
    intro name hname hnot hprefix
    rcases Nat.lt_or_ge directory.length (s.place ++ [name]).length with hlong | hshort
    · obtain ⟨more, hmore⟩ := hprefix
      have hat : (directory ++ names)[s.place.length]? = some name := by
        rw [← hmore]
        simp
      rw [List.getElem?_append_right (by simpa [Nat.lt_succ_iff] using hlong)] at hat
      exact hname (List.mem_of_getElem? hat)
    · exact hnot (List.prefix_of_prefix_length_le hprefix (List.prefix_append _ _) hshort)
  rintro (hown | hown | ⟨stem, tail, htail, heq⟩)
  · exact hbelow _ hother.1 hshards hown
  · exact hbelow _ hother.2 hcache hown
  · have hlast := congrArg List.getLast? heq
    rw [List.getLast?_append_of_ne_nil _ hnames, List.getLast?_append_of_ne_nil _ (by simp), List.getLast?_singleton] at hlast
    exact hending stem tail htail hlast

theorem not_isOwn_place : ¬ s.IsOwn s.place := by
  rintro (hown | hown | ⟨stem, tail, -, heq⟩)
  · exact Disk.not_concat_le _ _ hown
  · exact Disk.not_concat_le _ _ hown
  · exact Disk.not_concat_le s.place (stem ++ tail) (heq ▸ List.prefix_rfl)

end Store

/-! ## What runs change -/

namespace Store

variable {s : Store} {w w' w'' : Workspace}

/-- A place with the ending of a document, wherever it is. -/
def HasEnding (l : Location) : Prop := ∃ directory stem, ∃ tail ∈ endings, l = directory ++ [stem ++ tail]

theorem hasEnding_of_isOutputPlace {l : Location} (h : s.IsOutputPlace l) : HasEnding l := by
  obtain ⟨stem, tail, htail, rfl | rfl⟩ := h
  · exact ⟨_, stem, tail, by rcases htail with rfl | rfl <;> decide, rfl⟩
  · exact ⟨_, stem, tail, by rcases htail with rfl | rfl <;> decide, rfl⟩

theorem not_hasEnding_shardsPlace : ¬ HasEnding s.shardsPlace := by
  rintro ⟨directory, stem, tail, htail, heq⟩
  have hlast : ∀ tail ∈ endings, tail.toList ≠ [] ∧ tail.toList.getLast? ≠ some 'd' := by decide
  have hchar := lastChar?_shardsPlace s
  rw [heq, Location.lastChar?_concat _ _ _ (hlast tail htail).1] at hchar
  exact (hlast tail htail).2 hchar

/-- While documents are written nothing happens but at their places and below the directory for shards. -/
theorem agreeOff_of_changed {written : Location → Prop} (hopen : w.disk.IsOpen s.place)
    (hwritten : ∀ l, written l → HasEnding l) (h : Changed written (· <+: s.shardsPlace) w w') :
    Disk.AgreeOff (fun l => written l ∨ s.shardsPlace <+: l) w.disk w'.disk := by
  have habove : ∀ l, l <+: s.shardsPlace → l = s.shardsPlace ∨ w.disk.IsOpen l := fun l hl => by
    rcases List.prefix_concat_iff.1 hl with heq | hp
    · exact .inl heq
    · exact .inr (Disk.isOpen_of_le hopen hp)
  refine .of_frame h.frame (fun l => .inl) (fun l hl => ?_) fun l hw hl => ?_
  · rcases habove l hl with rfl | hlopen
    · exact .inl (.inr List.prefix_rfl)
    · exact .inr hlopen
  · exact (habove l hl).resolve_left fun heq => not_hasEnding_shardsPlace (heq ▸ hwritten l hw)

/-- From one workspace to another only the program's own places changed, and of them not the cache. -/
structure Produced (s : Store) (w w' : Workspace) : Prop where
  eq : w' = { w with disk := w'.disk }
  agree : Disk.AgreeOff s.IsOwn w.disk w'.disk
  later : Disk.Later w.disk w'.disk
  cache : w'.disk.access s.cachePlace = w.disk.access s.cachePlace

namespace Produced

theorem refl (s : Store) (w : Workspace) : s.Produced w w := ⟨rfl, .refl _ _, .refl _, rfl⟩

theorem trans (h : s.Produced w w') (h' : s.Produced w' w'') : s.Produced w w'' :=
  ⟨by rw [h'.eq, h.eq], h.agree.trans h'.agree, h.later.trans h'.later, h'.cache.trans h.cache⟩

theorem here_eq (h : s.Produced w w') : w'.here = w.here := by rw [h.eq]

theorem now_eq (h : s.Produced w w') : w'.now = w.now := by rw [h.eq]

theorem isOpen (h : s.Produced w w') (hopen : w.disk.IsOpen s.place) : w'.disk.IsOpen s.place :=
  h.agree.access_of_ok not_isOwn_place hopen

/-- Documents and shards are not written below the cache, and no directory is made but that for shards. -/
theorem of_changed (hopen : w.disk.IsOpen s.place) (h : Changed s.IsOutputPlace (· <+: s.shardsPlace) w w') :
    s.Produced w w' := by
  have hagree := agreeOff_of_changed hopen (fun l => hasEnding_of_isOutputPlace) h
  refine ⟨h.eq, hagree.mono fun l hl => hl.elim isOwn_of_isOutputPlace .inl, h.later, ?_⟩
  refine h.frame.access_eq (fun t ht hp => absurd hp (not_isOutputPlace_prefix_cachePlace ht)) fun hmade => ?_
  have hlen := hmade.length_le
  simp [cachePlace, shardsPlace] at hlen

end Produced

end Store

end CodeIndex
