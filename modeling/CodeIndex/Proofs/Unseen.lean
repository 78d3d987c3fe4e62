import CodeIndex.Proofs.InStep
import CodeIndex.Proofs.SingleBuild

set_option autoImplicit false

/-!
# Places that an action does not see

An action does not see a place when it comes to the same without what is there, and does the same to everything else.  Writing
the documents of an index does not see the cache.
-/

namespace CodeIndex

open Action Store Update

/-! ## Changes of the disk -/

namespace Disk

variable {c l : Location}

/-- A change comes to the same with and without what is at a place, and leaves that alone. -/
def Change.Unseen {α : Type} (c : Location) (change : Change α) : Prop :=
  ∀ d : Disk, change.run (d.erase c) = ((change.run d).1, (change.run d).2.erase c)

theorem obstacle?_erase (d : Disk) (hc : c ≠ []) (hl : ¬ c <+: l) : (d.erase c).obstacle? l = d.obstacle? l := by
  have hfind : ∀ p ∈ l.above, (d.erase c).find? p = d.find? p := fun p hp => by
    rw [find?_erase d c p hc, if_neg fun hle => hl (hle.trans (mem_above.1 hp).1)]
  unfold obstacle?
  generalize l.above = ways at hfind ⊢
  induction ways with
  | nil => rfl
  | cons p rest ih =>
    rw [List.findSome?_cons, List.findSome?_cons, hfind p List.mem_cons_self,
      ih fun q hq => hfind q (List.mem_cons_of_mem _ hq)]

theorem isDirectory_erase (d : Disk) (hc : c ≠ []) (hl : ¬ c <+: l) : (d.erase c).isDirectory l = d.isDirectory l := by
  rw [isDirectory, isDirectory, find?_erase d c l hc, if_neg hl]

theorem isFile_erase (d : Disk) (hc : c ≠ []) (hl : ¬ c <+: l) : (d.erase c).isFile l = d.isFile l := by
  rw [isFile, isFile, find?_erase d c l hc, if_neg hl]

theorem erase_erase (d : Disk) (c l : Location) : (d.erase c).erase l = (d.erase l).erase c := by
  unfold erase
  simp only [List.filter_filter, Bool.and_comm]

theorem put_erase (d : Disk) (hl : ¬ c <+: l) (node : Node) : (d.erase c).put l node = (d.put l node).erase c := by
  have hkept : ((l, node) :: (d.erase l).entries).filter (fun e => !c.isPrefixOf e.1) =
      (l, node) :: ((d.erase l).erase c).entries := by
    rw [List.filter_cons_of_pos (by rw [Bool.not_eq_true', ← Bool.not_eq_true, List.isPrefixOf_iff_prefix]; exact hl)]
    rfl
  calc (d.erase c).put l node = { d with entries := (l, node) :: ((d.erase c).erase l).entries } := rfl
    _ = { d with entries := (l, node) :: ((d.erase l).erase c).entries } := by rw [erase_erase]
    _ = (d.put l node).erase c := by
      rw [← hkept]
      rfl

theorem makeDirectory_erase (d : Disk) (hc : c ≠ []) (hl : ¬ c <+: l) :
    (d.erase c).makeDirectory l = (d.makeDirectory l).erase c := by
  rw [makeDirectory, makeDirectory, isDirectory_erase d hc hl]
  split
  · rfl
  · exact put_erase d hl _

namespace Change.Unseen

variable (hc : c ≠ []) (hl : ¬ c <+: l)

theorem of_change {f : Disk → Except DiskError Disk} (h : ∀ d, f (d.erase c) = (f d).map (Disk.erase · c)) :
    Change.Unseen c (change f) := by
  intro d
  rw [run_change, run_change, h]
  change (if d.refusals.contains d.changes then _ else _) = _
  split
  · rfl
  · cases f d <;> rfl

include hc hl

theorem write (bytes : ByteArray) : Change.Unseen c (write l bytes) := by
  refine of_change fun d => ?_
  rw [obstacle?_erase d hc hl, isDirectory_erase d hc hl, put_erase d hl]
  cases d.obstacle? l with
  | some e => rfl
  | none =>
    dsimp only
    split <;> rfl

theorem removeFile : Change.Unseen c (removeFile l) := by
  refine of_change fun d => ?_
  rw [access_erase_elsewhere d hc hl, erase_erase]
  rcases d.access l with e | ⟨bytes, time⟩ | _ <;> rfl

theorem rename {source : Location} (hsource : ¬ c <+: source) : Change.Unseen c (rename source l) := by
  refine of_change fun d => ?_
  rw [access_erase_elsewhere d hc hsource, obstacle?_erase d hc hl, isDirectory_erase d hc hl, erase_erase]
  cases d.access source with
  | error e => rfl
  | ok node =>
    cases d.obstacle? l with
    | some e => rfl
    | none =>
      dsimp only
      rw [put_erase _ hl]
      split <;> rfl

theorem makeDirectories : Change.Unseen c (makeDirectories l) := by
  have hways : ∀ p ∈ l.above ++ [l], ¬ c <+: p := fun p hp hprefix => hl <| hprefix.trans <| by
    rcases List.mem_append.1 hp with hp | hp
    · exact (mem_above.1 hp).1
    · exact List.mem_singleton.1 hp ▸ List.prefix_rfl
  intro d
  by_cases hopen : d.IsOpen l
  · have hopen' : (d.erase c).IsOpen l := (access_erase_elsewhere d hc hl).trans hopen
    rw [makeDirectories_of_isOpen hopen, makeDirectories_of_isOpen hopen']
  · have hopen' : ¬ (d.erase c).IsOpen l := fun h => hopen ((access_erase_elsewhere d hc hl).symm.trans h)
    rw [makeDirectories_of_not_isOpen hopen, makeDirectories_of_not_isOpen hopen']
    refine of_change (fun d => ?_) d
    have hany : ∀ ways : List Location, (∀ p ∈ ways, ¬ c <+: p) → ways.any (d.erase c).isFile = ways.any d.isFile := by
      intro ways hways
      induction ways with
      | nil => rfl
      | cons p rest ih =>
        rw [List.any_cons, List.any_cons, isFile_erase d hc (hways p List.mem_cons_self),
          ih fun q hq => hways q (List.mem_cons_of_mem _ hq)]
    have hmade : ∀ (ways : List Location) (d : Disk), (∀ p ∈ ways, ¬ c <+: p) →
        ways.foldl makeDirectory (d.erase c) = (ways.foldl makeDirectory d).erase c := by
      intro ways
      induction ways with
      | nil => intro d _; rfl
      | cons p rest ih =>
        intro d hways
        rw [List.foldl_cons, List.foldl_cons, makeDirectory_erase d hc (hways p List.mem_cons_self),
          ih _ fun q hq => hways q (List.mem_cons_of_mem _ hq)]
    rw [hany _ hways, hmade _ _ hways]
    split <;> rfl

end Change.Unseen

end Disk

/-! ## Actions -/

/-- The second workspace is the first one without what is at a place.  What was asked does not count. -/
structure Workspace.Without (c : Location) (w v : Workspace) : Prop where
  disk_eq : v.disk = w.disk.erase c
  here_eq : v.here = w.here
  now_eq : v.now = w.now

namespace Action

variable {α β : Type} {c : Location}

/-- An action comes to the same with and without what is at a place, and leaves that alone. -/
def Unseen (c : Location) (a : Action α) : Prop :=
  ∀ w v, Workspace.Without c w v → (a.exec v).1 = (a.exec w).1 ∧ Workspace.Without c (a.exec w).2 (a.exec v).2

theorem Unseen.bind {a : Action α} {k : α → Action β} (ha : a.Unseen c) (hk : ∀ x, (k x).Unseen c) : (a >>= k).Unseen c :=
  InStep.bind ha hk

theorem Unseen.during {a : Action α} (ha : a.Unseen c) (activity : String) : (during activity a).Unseen c :=
  InStep.during ha activity

end Action

/-! ## Documents -/

namespace Store

variable {s : Store} {c : Location}

section Absolute

variable (hs : Path.isAbsolute s.root = true)

include hs

end Absolute

end Store

end CodeIndex
