import CodeIndex.Json.Finite
import CodeIndex.Proofs.CacheText

set_option autoImplicit false

/-!
# Reading shards as free values

Who asks for a shard reads it as a free value first: one of limited depth, with numbers in range, and in order of its keys.
What the program writes is such a value, and the shard is read back from it.
-/

namespace CodeIndex

namespace Json

/-! ## Free values -/

mutual

/-- Counts are in range. -/
theorem numbersInRange_of_counting {j : Json} (h : j.Counting) : j.numbersInRange = true := by
  cases j with
  | decimal text => exact h.elim
  | array items =>
    rw [numbersInRange]
    exact itemsInRange_of_counting h
  | object ms =>
    rw [numbersInRange]
    exact membersInRange_of_counting h
  | _ => rw [numbersInRange] <;> simp

theorem itemsInRange_of_counting {items : List Json} (h : CountingItems items) : itemsInRange items = true := by
  cases items with
  | nil => rw [itemsInRange]
  | cons item rest =>
    rw [itemsInRange, numbersInRange_of_counting h.1, itemsInRange_of_counting h.2]
    rfl

theorem membersInRange_of_counting {ms : List (String × Json)} (h : CountingMembers ms) : membersInRange ms = true := by
  cases ms with
  | nil => rw [membersInRange]
  | cons m rest =>
    rw [membersInRange, numbersInRange_of_counting h.1, membersInRange_of_counting h.2]
    rfl

end

/-- What was written with counts and not too deep is read as a free value. -/
theorem value?_render {j : Json} (h : j.Counting) (hdepth : j.depth < depthLimit) : value? j.render = some j.canonical := by
  rw [value?, read?_render h, Option.bind_eq_bind, Option.bind_some, numbersInRange_of_counting h, decide_eq_true hdepth]
  rfl

/-! ## Depth -/

theorem depthItems_le {items : List Json} {n : Nat} (h : ∀ item ∈ items, item.depth ≤ n) : depthItems items ≤ n := by
  induction items with
  | nil => exact Nat.zero_le n
  | cons item rest ih =>
    have hitem := h item List.mem_cons_self
    have hrest := ih fun other hother => h other (List.mem_cons_of_mem item hother)
    rw [depthItems]
    omega

/-- No member is deeper than so much. -/
def Within (n : Nat) (ms : List (String × Json)) : Prop := ∀ m ∈ ms, m.2.depth ≤ n

theorem depthMembers_le {ms : List (String × Json)} {n : Nat} (h : Within n ms) : depthMembers ms ≤ n := by
  induction ms with
  | nil => exact Nat.zero_le n
  | cons m rest ih =>
    have hmember := h m List.mem_cons_self
    have hrest := ih fun other hother => h other (List.mem_cons_of_mem m hother)
    rw [depthMembers]
    omega

theorem depth_array_le {items : List Json} {n : Nat} (h : ∀ item ∈ items, item.depth ≤ n) :
    (Json.array items).depth ≤ n + 1 := by
  have hitems := depthItems_le h
  rw [depth]
  omega

theorem depth_object_le {ms : List (String × Json)} {n : Nat} (h : Within n ms) : (Json.object ms).depth ≤ n + 1 := by
  have hmembers := depthMembers_le h
  rw [depth]
  omega

theorem depth_string (s : String) : (Json.string s).depth = 0 := by
  rw [depth] <;> simp

theorem depth_bool (b : Bool) : (Json.bool b).depth = 0 := by
  rw [depth] <;> simp

theorem depth_ofCount (n : UInt64) : (ofCount n).depth = 0 := by
  rw [ofCount, depth] <;> simp

theorem depth_ofNames_le (names : List String) : (ofNames names).depth ≤ 1 := by
  apply depth_array_le
  intro item hitem
  obtain ⟨name, -, rfl⟩ := List.mem_map.1 hitem
  rw [depth_string]

theorem depth_ofDict_le {α : Type} {write : α → Json} {n : Nat} (h : ∀ a, (write a).depth ≤ n) (d : Dict α) :
    (ofDict write d).depth ≤ n + 1 := by
  apply depth_object_le
  intro m hm
  obtain ⟨e, -, rfl⟩ := List.mem_map.1 hm
  exact h e.2

namespace Within

variable {n : Nat} {ms ms' : List (String × Json)}

theorem append (h : Within n ms) (h' : Within n ms') : Within n (ms ++ ms') := fun m hm =>
  (List.mem_append.1 hm).elim (h m) (h' m)

theorem mono (h : Within n ms) {n' : Nat} (hn : n ≤ n') : Within n' ms := fun m hm => (h m hm).trans hn

theorem memberIf (given : Bool) (name : String) {value : Json} (h : value.depth ≤ n) :
    Within n (memberIf given name value) := by
  intro m hm
  rw [Json.memberIf] at hm
  split at hm
  · rw [List.mem_singleton.1 hm]
    exact h
  · cases hm

theorem memberOf {α : Type} (name : String) {write : α → Json} (h : ∀ a, (write a).depth ≤ n) (o : Option α) :
    Within n (memberOf name write o) := by
  intro m hm
  cases o with
  | none => cases hm
  | some a =>
    rw [List.mem_singleton.1 hm]
    exact h a

end Within

end Json

open Json

theorem Callable.depth_le (c : Callable) : c.toJson.depth ≤ 2 := by
  apply depth_object_le
  have hmust : Within 1 [("line", ofCount c.line), ("signature", .string c.signature)] := by
    simp [Within, depth_ofCount, depth_string]
  exact (hmust.append (.memberIf _ _ (depth_ofNames_le _))).append (.memberOf _ (fun s => by simp [depth_string]) _)

theorem TypeOutline.depth_le (t : TypeOutline) : t.toJson.depth ≤ 4 := by
  apply depth_object_le
  have hmust : Within 3 [("line", ofCount t.line)] := by
    simp [Within, depth_ofCount]
  have hbases := (Within.memberIf (!t.bases.isEmpty) "bases" (depth_ofNames_le t.bases)).mono (by omega : 1 ≤ 3)
  exact ((hmust.append hbases).append (.memberIf _ _ (depth_ofDict_le Callable.depth_le _))).append
    (.memberOf _ (fun s => by simp [depth_string]) _)

theorem Outline.within_toMembers (o : Outline) : Within 5 o.toMembers := by
  have hfunctions := (Within.memberIf (!o.functions.isEmpty) "functions"
    (depth_ofDict_le Callable.depth_le o.functions)).mono (by omega : 3 ≤ 5)
  have himports := (Within.memberIf (!o.imports.isEmpty) "imports" (depth_ofNames_le o.imports)).mono (by omega : 1 ≤ 5)
  exact (hfunctions.append (.memberIf _ _ (depth_ofDict_le TypeOutline.depth_le _))).append himports

theorem Commit.depth_le (c : Commit) : c.toJson.depth ≤ 1 := by
  apply depth_object_le
  simp [Within, depth_string]

theorem FileEntry.depth_le (f : FileEntry) : f.toJson.depth ≤ 6 := by
  apply depth_object_le
  have hmust : Within 5 [("lang", .string f.language.name)] := by
    simp [Within, depth_string]
  have hlisted : Within 5 (memberIf f.listedOnly "listed_only" (.bool true)) :=
    .memberIf _ _ (by simp [depth_bool])
  have hcommit := (Within.memberOf "git" Commit.depth_le f.commit).mono (by omega : 1 ≤ 5)
  exact ((hmust.append f.outline.within_toMembers).append hlisted).append hcommit

theorem Synopsis.depth_le (s : Synopsis) : s.toJson.depth ≤ 2 := by
  apply depth_object_le
  exact (Within.memberOf _ (fun s => by simp [depth_string]) _).append (.memberIf _ _ (depth_ofNames_le _))

theorem depth_edgesToJson_le (edges : List CallEdge) : (edgesToJson edges).depth ≤ 2 := by
  apply depth_array_le
  intro item hitem
  obtain ⟨⟨caller, callee⟩, -, rfl⟩ := List.mem_map.1 hitem
  apply depth_array_le
  simp [depth_string]

theorem Shard.depth_le (s : Shard) : s.toJson.depth ≤ 8 := by
  apply depth_object_le
  have hmust : Within 7 [("module_id", .string s.moduleId), ("version", .string s.version),
      ("files", ofDict FileEntry.toJson s.files), ("call_graph_local", edgesToJson s.localCalls)] := by
    have hfiles := depth_ofDict_le FileEntry.depth_le s.files
    have hlocal := depth_edgesToJson_le s.localCalls
    simp only [Within, List.mem_cons, List.not_mem_nil, or_false, forall_eq_or_imp, forall_eq, depth_string]
    omega
  have hexternal := (Within.memberIf (!s.externalCalls.isEmpty) "call_graph_external"
    (depth_edgesToJson_le s.externalCalls)).mono (by omega : 2 ≤ 7)
  have hdocs : ∀ (name : String) (docs : Dict Synopsis), Within 7 (memberIf (!docs.isEmpty) name (synopsesToJson docs)) :=
    fun name docs => (Within.memberIf _ _ (depth_ofDict_le Synopsis.depth_le docs)).mono (by omega : 3 ≤ 7)
  exact ((hmust.append hexternal).append (hdocs _ _)).append (hdocs _ _)

/-! ## Records -/

theorem Commit.readsBackCanonical : ReadsBackCanonical Commit.toJson Commit.ofJson? := by
  refine ⟨fun c => ?_, fun _ => canonical_object_ne_null _, fun c => counting_canonical (Commit.readsBack.counting c)⟩
  rw [ofJson?, toJson, fields?_canonical]
  simp only [List.map_cons, List.map_nil, lookup_cons, lookup_nil, String.reduceEq, reduceIte, Option.or_none,
    Option.none_or, Option.map_some, canonical_string, required, Option.bind_some, readsBack_string.back,
    Option.bind_eq_bind]
  rfl

theorem Synopsis.readsBackCanonical : ReadsBackCanonical Synopsis.toJson Synopsis.ofJson? := by
  refine ⟨fun s => ?_, fun _ => canonical_object_ne_null _, fun s => counting_canonical (Synopsis.readsBack.counting s)⟩
  rw [ofJson?, toJson, fields?_canonical]
  simp only [List.map_cons, List.map_nil, lookup_append, lookup_memberIf, lookup_memberOf, String.reduceEq, reduceIte,
    Option.or_none, Option.none_or, apply_ite (Option.map canonical), Option.map_some, Option.map_none, Option.map_map,
    canonical_ofNames, orElse_list readsBack_names, Option.bind_eq_bind, Option.bind_some]
  have htitle : optional asString? (s.title.map (canonical ∘ .string)) = some s.title :=
    optional_map readsBackCanonical_string s.title
  rw [htitle]
  rfl

theorem readsBackCanonical_edges : ReadsBackCanonical edgesToJson edges? := by
  have heq : (fun edges => canonical (edgesToJson edges)) = edgesToJson := by
    funext edges
    rw [edgesToJson, canonical, canonicalItems_eq_map, List.map_map]
    refine congrArg Json.array (List.map_congr_left fun e _ => ?_)
    simp [canonical, canonicalItems]
  rw [ReadsBackCanonical, heq]
  exact readsBack_edges

namespace FileEntry

/-- The members of a file's details. -/
def members (f : FileEntry) : List (String × Json) :=
  [("lang", .string f.language.name)] ++ f.outline.toMembers ++ memberIf f.listedOnly "listed_only" (.bool true)
    ++ memberOf "git" Commit.toJson f.commit

theorem toJson_eq (f : FileEntry) : f.toJson = .object f.members := rfl

def fields : List String := ["lang", "functions", "classes", "imports", "listed_only", "git"]

theorem keysIn_members (f : FileEntry) : KeysIn fields f.members :=
  (((keysIn_self [("lang", .string f.language.name)]).append f.outline.keysIn_toMembers).append
    (keysIn_memberIf "listed_only" f.listedOnly (.bool true))).append (keysIn_memberOf "git" Commit.toJson f.commit)

theorem lookup_members_of_notMem (f : FileEntry) {key : String} (h : key ∉ fields) : lookup key f.members = none := by
  rw [lookup, Option.map_eq_none_iff, List.find?_eq_none]
  intro m hm heq
  have hmem := f.keysIn_members.subset (List.mem_map_of_mem (List.mem_reverse.1 hm))
  exact h (of_decide_eq_true heq ▸ hmem)

/-- Details are read back from an object in which their fields have their values, whatever else is in it. -/
theorem ofJson?_of_lookup {f : FileEntry} {ms : List (String × Json)}
    (h : ∀ field ∈ fields, lookup field ms = lookup field f.members) : ofJson? (canonical (.object ms)) = some f := by
  have hnamed : namedFields? fields (canonical (.object ms)) =
      some (fields.map fun field => (lookup field f.members).map canonical) := by
    have hall := fields?_canonical fields ms
    rw [canonical_object] at hall ⊢
    refine hall.trans (congrArg some (List.map_congr_left fun field hfield => ?_))
    rw [h field hfield]
  have hother : ∀ field ∉ ["functions", "classes", "imports"], lookup field f.outline.toMembers = none := by
    intro field hfield
    rw [lookup, Option.map_eq_none_iff, List.find?_eq_none]
    intro m hm heq
    have hmem := f.outline.keysIn_toMembers.subset (List.mem_map_of_mem (List.mem_reverse.1 hm))
    exact hfield (of_decide_eq_true heq ▸ hmem)
  have houtline : Outline.ofFields? ((lookup "functions" f.outline.toMembers).map canonical)
      ((lookup "classes" f.outline.toMembers).map canonical) ((lookup "imports" f.outline.toMembers).map canonical) =
        some f.outline := by
    have hback := Outline.readsBackCanonical.back f.outline
    rw [Outline.ofJson?, Outline.toJson, fields?_canonical] at hback
    exact hback
  have hlisted : orElse false asBool? (if f.listedOnly then some (canonical (.bool true)) else none) = some f.listedOnly := by
    rw [canonical]
    · cases f.listedOnly <;> rfl
    · simp
    · simp
  have hcommit : optional Commit.ofJson? (f.commit.map (canonical ∘ Commit.toJson)) = some f.commit :=
    optional_map Commit.readsBackCanonical f.commit
  rw [ofJson?]
  change (namedFields? fields _ >>= fun _ => _) = _
  rw [hnamed]
  simp only [fields, members, List.map_cons, List.map_nil, lookup_append, lookup_cons, lookup_nil, lookup_memberIf,
    lookup_memberOf, hother "lang" (by decide), hother "listed_only" (by decide), hother "git" (by decide), String.reduceEq,
    reduceIte, Option.or_none, Option.none_or, Option.map_some, Option.map_map, apply_ite (Option.map canonical),
    Option.map_none, canonical_string, required, Option.bind_some, Language.readsBack.back, houtline, hlisted, hcommit,
    Option.bind_eq_bind]
  rfl

theorem readsBackCanonical : ReadsBackCanonical toJson ofJson? :=
  ⟨fun _ => ofJson?_of_lookup fun _ _ => rfl, fun _ => canonical_object_ne_null _,
    fun f => counting_canonical (FileEntry.readsBack.counting f)⟩

end FileEntry

theorem readsBackCanonical_synopses : ReadsBackCanonical synopsesToJson synopses? :=
  readsBackCanonical_dict Synopsis.readsBackCanonical

theorem Shard.readsBackCanonical : ReadsBackCanonical Shard.toJson Shard.ofJson? := by
  have hfiles := readsBackCanonical_dict FileEntry.readsBackCanonical
  have hlocal : ∀ es, orElse [] edges? (some (canonical (edgesToJson es))) = some es := readsBackCanonical_edges.back
  refine ⟨fun s => ?_, fun _ => canonical_object_ne_null _, fun s => counting_canonical (Shard.readsBack.counting s)⟩
  rw [ofJson?, toJson, fields?_canonical]
  simp only [List.map_cons, List.map_nil, lookup_append, lookup_cons, lookup_nil, lookup_memberIf, String.reduceEq,
    reduceIte, Option.or_none, Option.none_or, Option.map_some, apply_ite (Option.map canonical), Option.map_none,
    canonical_string, required, Option.bind_some, readsBack_string.back, hfiles.back, hlocal,
    orElse_list readsBackCanonical_edges, orElse_dict readsBackCanonical_synopses, Option.bind_eq_bind]
  rfl

end CodeIndex
