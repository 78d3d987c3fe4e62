import CodeIndex.Proofs.Holding

set_option autoImplicit false

/-!
# Indices that are the same

Analyses that tell the same of every file make the same documents.  Two indices that were made at different times are
the same when nothing but that time tells them apart.
-/

namespace CodeIndex

open Action Store Update Update.Membership

variable {s : Store} {a b : Analysis} {d d' d'' : Disk} {core core' core'' : CoreIndex}

/-- Two analyses tell the same of every file. -/
structure Analysis.Same (a b : Analysis) : Prop where
  details : a.details = b.details
  docs : a.docs = b.docs

namespace Analysis.Same

theorem refl (a : Analysis) : Same a a := ⟨rfl, rfl⟩

theorem symm (h : Same a b) : Same b a := ⟨h.details.symm, h.docs.symm⟩

theorem trans {c : Analysis} (h : Same a b) (h' : Same b c) : Same a c :=
  ⟨h.details.trans h'.details, h.docs.trans h'.docs⟩

theorem of_get? (h : ∀ path, a.details.get? path = b.details.get? path ∧ a.docs.get? path = b.docs.get? path) : Same a b :=
  ⟨Dict.ext_get? fun path => (h path).1, Dict.ext_get? fun path => (h path).2⟩

theorem shard_eq (h : Same a b) (id : String) (files : List String) : a.shard id files = b.shard id files :=
  Analysis.shard_congr (fun _ _ => ⟨by rw [h.details], by rw [h.docs]⟩) id

theorem bytesOf?_eq (h : Same a b) (modules : ModuleMap) (id : String) : a.bytesOf? modules id = b.bytesOf? modules id := by
  simp only [Analysis.bytesOf?, h.shard_eq]

theorem hashes_eq (h : Same a b) (modules : ModuleMap) : a.hashes modules = b.hashes modules := by
  simp only [Analysis.hashes, h.shard_eq]

theorem core_eq (h : Same a b) (root madeAt : String) (modules : ModuleMap) (hashes : Dict String) (source : FileSource)
    (layout : Option Layout) (settings : Settings) :
    a.core root madeAt modules hashes source layout settings = b.core root madeAt modules hashes source layout settings := by
  obtain ⟨details, docs, skipped⟩ := a
  obtain ⟨details', docs', skipped'⟩ := b
  obtain ⟨hdetails, hdocs⟩ := h
  obtain rfl : details = details' := hdetails
  obtain rfl : docs = docs' := hdocs
  rfl

theorem overlay (h : Same a b) (old : Analysis) (removed : List String) : Same (old.overlay a removed) (old.overlay b removed) := by
  apply of_get?
  intro path
  simp only [get?_details_overlay, get?_docs_overlay, h.details, h.docs, and_self]

end Analysis.Same

/-- Only which files there are counts for the layout. -/
theorem Layout.detect?_congr {xs ys : List String} (h : ∀ file, file ∈ xs ↔ file ∈ ys) : detect? xs = detect? ys := by
  have hroot : underRoot? xs = underRoot? ys := by
    funext root
    have hdirs : Text.sortedSet (xs.filterMap (subdirectory? root)) = Text.sortedSet (ys.filterMap (subdirectory? root)) :=
      Text.sortedSet_congr fun dir => by simp only [List.mem_filterMap, h]
    rw [underRoot?, underRoot?, hdirs]
  rw [detect?, detect?, hroot]

/-- Two disks hold one index of a project: the core indices only differ in the time at which they were made, and every
    module's shard has the same bytes. -/
structure Store.SameIndex (s : Store) (d d' : Disk) (core core' : CoreIndex) : Prop where
  read : d.read s.corePlace = .ok (encode core)
  read' : d'.read s.corePlace = .ok (encode core')
  core_eq : core' = { core with madeAt := core'.madeAt }
  shards : ∀ id ∈ core.modules.keys, ∃ bytes, d.read (s.shardPlace id) = .ok bytes ∧ d'.read (s.shardPlace id) = .ok bytes

namespace Store.SameIndex

/-- Indices are the same when the analyses that make them are. -/
theorem of_holding (h : Holding s d core a) (h' : Holding s d' core' b) (hsame : a.Same b)
    (hcore : core' = { core with madeAt := core'.madeAt }) : s.SameIndex d d' core core' := by
  refine ⟨h.read, h'.read, hcore, fun id hid => ?_⟩
  obtain ⟨files, hfiles⟩ := Dict.mem_keys.1 (mem_keys_modulesOf.2 hid)
  have hmodules : modulesOf core' = modulesOf core := by rw [hcore]; rfl
  refine ⟨encode (a.shard id files), h.read_shard hfiles, ?_⟩
  rw [hsame.shard_eq]
  exact h'.read_shard (hmodules ▸ hfiles)

end Store.SameIndex

end CodeIndex
