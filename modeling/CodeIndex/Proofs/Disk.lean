import CodeIndex.Disk
import Mathlib.Data.List.Induction

set_option autoImplicit false

/-!
# What a change of the disk reaches

A location is reached through directories, name by name (`access_concat`).  Files take the place of files or of
nothing, so a directory that can be reached stays one, and what a write does is seen only at the location that it
is about and below it.
-/

namespace CodeIndex.Disk

/-! ## Reaching a location -/

theorem above_concat (l : Location) (name : String) : Location.above (l ++ [name]) = Location.above l ++ [l] := by
  unfold Location.above
  rw [List.length_append, List.length_singleton, List.range_succ, List.map_append, List.map_singleton]
  congr 1
  · refine List.map_congr_left fun i hi => ?_
    have hlt := List.mem_range.1 hi
    rw [List.take_append_of_le_length (by omega)]
  · rw [List.take_left]

theorem mem_above {l p : Location} : p ∈ Location.above l ↔ p <+: l ∧ p ≠ l := by
  unfold Location.above
  simp only [List.mem_map, List.mem_range]
  constructor
  · rintro ⟨i, hi, rfl⟩
    refine ⟨List.take_prefix i l, fun h => ?_⟩
    have hlen := congrArg List.length h
    rw [List.length_take] at hlen
    omega
  · rintro ⟨hp, hne⟩
    refine ⟨p.length, ?_, (List.prefix_iff_eq_take.1 hp).symm⟩
    have hle := hp.length_le
    have hlen : p.length ≠ l.length := fun h => hne (hp.eq_of_length h)
    omega

@[simp] theorem find?_nil (d : Disk) : d.find? [] = some .directory := rfl

@[simp] theorem access_nil (d : Disk) : d.access [] = .ok .directory := rfl

/-- A location is reached through the one above. -/
theorem access_concat (d : Disk) (l : Location) (name : String) :
    d.access (l ++ [name]) = match d.access l with
      | .error e => .error e
      | .ok (.file _ _) => .error .notDirectory
      | .ok .directory => match d.find? (l ++ [name]) with
        | some node => .ok node
        | none => .error .absent := by
  unfold access obstacle?
  rw [above_concat, List.findSome?_append]
  cases hob : List.findSome? _ l.above with
  | some e => rfl
  | none =>
    cases hf : d.find? l with
    | none => simp [hf]
    | some node => cases node <;> cases hc : d.find? (l ++ [name]) <;> simp [hf]

/-- A directory that can be reached. -/
def IsOpen (d : Disk) (l : Location) : Prop := d.access l = .ok .directory

theorem access_of_isOpen {d : Disk} {l : Location} (h : d.IsOpen l) (name : String) :
    d.access (l ++ [name]) = match d.find? (l ++ [name]) with
      | some node => .ok node
      | none => .error .absent := by
  rw [access_concat, h]

theorem isOpen_of_access_concat {d : Disk} {l : Location} {name : String} {node : Node}
    (h : d.access (l ++ [name]) = .ok node) : d.IsOpen l := by
  rw [access_concat] at h
  unfold IsOpen
  cases ha : d.access l with
  | error e => rw [ha] at h; cases h
  | ok found =>
    rw [ha] at h
    cases found with
    | file bytes time => cases h
    | directory => rfl

/-- What can be reached is reached through directories. -/
theorem isOpen_above {d : Disk} {l p : Location} {node : Node} (h : d.access l = .ok node) (hp : p <+: l)
    (hne : p ≠ l) : d.IsOpen p := by
  induction l using List.reverseRecOn generalizing node with
  | nil => exact absurd (List.prefix_nil.1 hp) hne
  | append_singleton l name ih =>
    have hopen := isOpen_of_access_concat h
    rcases List.prefix_concat_iff.1 hp with rfl | hp
    · exact absurd rfl hne
    · by_cases heq : p = l
      · rw [heq]
        exact hopen
      · exact ih hopen hp heq

/-- What cannot be reached hides everything below it. -/
theorem access_error_below {d : Disk} {l p : Location} {e : DiskError} (h : d.access p = .error e) (hp : p <+: l) :
    d.access l = .error e := by
  induction l using List.reverseRecOn with
  | nil => rwa [List.prefix_nil.1 hp] at h
  | append_singleton l name ih =>
    rcases List.prefix_concat_iff.1 hp with rfl | hp
    · exact h
    · rw [access_concat, ih hp]

theorem find?_of_access {d : Disk} {l : Location} {node : Node} (h : d.access l = .ok node) : d.find? l = some node := by
  unfold access at h
  cases ho : d.obstacle? l with
  | some e => rw [ho] at h; cases h
  | none =>
    rw [ho] at h
    cases hf : d.find? l with
    | none => rw [hf] at h; cases h
    | some found => rw [hf] at h; cases h; rfl

theorem obstacle?_concat_eq_none {d : Disk} {l : Location} {name : String} :
    d.obstacle? (l ++ [name]) = none ↔ d.IsOpen l := by
  unfold IsOpen access obstacle?
  rw [above_concat, List.findSome?_append, Option.or_eq_none_iff]
  cases hob : List.findSome? _ l.above with
  | some e => simp
  | none =>
    cases hf : d.find? l with
    | none => simp [hf]
    | some node => cases node <;> simp [hf]

/-! ## Nodes put and erased -/

variable {d : Disk} {l x : Location} {node : Node}

theorem access_put_elsewhere (d : Disk) (node : Node) (hl : l ≠ []) (hx : ¬ l <+: x) :
    (d.put l node).access x = d.access x := by
  induction x using List.reverseRecOn with
  | nil => rfl
  | append_singleton x name ih =>
    have hx' : ¬ l <+: x := fun h => hx (h.trans (List.prefix_append _ _))
    have hne : x ++ [name] ≠ l := fun h => hx (h ▸ List.prefix_rfl)
    rw [access_concat, access_concat, ih hx', find?_put d l _ node hl, if_neg hne, if_neg hx]

theorem access_erase_elsewhere (d : Disk) (hl : l ≠ []) (hx : ¬ l <+: x) : (d.erase l).access x = d.access x := by
  induction x using List.reverseRecOn with
  | nil => rfl
  | append_singleton x name ih =>
    have hx' : ¬ l <+: x := fun h => hx (h.trans (List.prefix_append _ _))
    rw [access_concat, access_concat, ih hx', find?_erase d l _ hl, if_neg hx]

theorem not_concat_le (l : Location) (name : String) : ¬ l ++ [name] <+: l := by
  intro h
  have hlen := h.length_le
  rw [List.length_append, List.length_singleton] at hlen
  omega

theorem access_put_self {name : String} (h : d.IsOpen l) (node : Node) :
    (d.put (l ++ [name]) node).access (l ++ [name]) = .ok node := by
  have hopen : (d.put (l ++ [name]) node).IsOpen l :=
    (access_put_elsewhere d node (by simp) (not_concat_le l name)).trans h
  rw [access_of_isOpen hopen, find?_put d _ _ node (by simp), if_pos rfl]

theorem access_erase_self {name : String} (h : d.IsOpen l) :
    (d.erase (l ++ [name])).access (l ++ [name]) = .error .absent := by
  have hopen : (d.erase (l ++ [name])).IsOpen l :=
    (access_erase_elsewhere d (by simp) (not_concat_le l name)).trans h
  rw [access_of_isOpen hopen, find?_erase d _ _ (by simp), if_pos List.prefix_rfl]

/-- Everything that is stored can be reached. -/
def Sound (d : Disk) : Prop := ∀ e ∈ d.entries, d.access e.1 = .ok e.2

theorem mem_erase {e : Location × Node} : e ∈ (d.erase l).entries ↔ e ∈ d.entries ∧ ¬ l <+: e.1 := by
  rw [CodeIndex.Disk.erase, List.mem_filter, Bool.not_eq_true', ← Bool.not_eq_true, List.isPrefixOf_iff_prefix]

theorem Sound.erase (h : d.Sound) (hl : l ≠ []) : (d.erase l).Sound := by
  intro e he
  obtain ⟨hin, hnot⟩ := mem_erase.1 he
  rw [access_erase_elsewhere d hl hnot]
  exact h e hin

theorem Sound.put {name : String} (h : d.Sound) (hl : d.IsOpen l) (node : Node) : (d.put (l ++ [name]) node).Sound := by
  intro e he
  rcases List.mem_cons.1 he with rfl | he
  · exact access_put_self hl node
  · obtain ⟨hin, hnot⟩ := mem_erase.1 he
    rw [access_put_elsewhere d node (by simp) hnot]
    exact h e hin

theorem mem_of_find? (hl : l ≠ []) (h : d.find? l = some node) : (l, node) ∈ d.entries := by
  rw [find?, if_neg (by simpa using hl)] at h
  obtain ⟨before, after, hentries, -⟩ := List.lookup_eq_some_iff.1 h
  simp [hentries]

/-- On a sound disk a location is stored exactly when it can be reached. -/
theorem Sound.mem_entries (h : d.Sound) (hl : l ≠ []) : (l, node) ∈ d.entries ↔ d.access l = .ok node :=
  ⟨fun hin => h _ hin, fun haccess => mem_of_find? hl (find?_of_access haccess)⟩

/-- Below a file there is nothing. -/
theorem access_below_file {bytes : ByteArray} {time : Nat} (h : d.access l = .ok (.file bytes time)) (hp : l <+: x)
    (hne : x ≠ l) : d.access x = .error .notDirectory := by
  induction x using List.reverseRecOn with
  | nil => exact absurd (List.prefix_nil.1 hp).symm hne
  | append_singleton x name ih =>
    rcases List.prefix_concat_iff.1 hp with rfl | hp
    · exact absurd rfl hne
    · by_cases heq : x = l
      · rw [access_concat, heq, h]
      · rw [access_concat, ih hp heq]

/-- Other contents in the place of a file are seen only there. -/
theorem access_put_file {bytes bytes' : ByteArray} {time time' : Nat} (h : d.access l = .ok (.file bytes time))
    (hx : x ≠ l) : (d.put l (.file bytes' time')).access x = d.access x := by
  cases l using List.reverseRecOn with
  | nil => cases h
  | append_singleton l name =>
    by_cases hp : l ++ [name] <+: x
    · rw [access_below_file h hp hx, access_below_file (access_put_self (isOpen_of_access_concat h) _) hp hx]
    · exact access_put_elsewhere d _ (by simp) hp

/-- Making a directory where there is nothing is seen only there: below it there still is nothing. -/
theorem access_put_directory {name : String} (h : d.IsOpen l) (hn : d.find? (l ++ [name]) = none)
    (hx : x ≠ l ++ [name]) : (d.put (l ++ [name]) .directory).access x = d.access x := by
  by_cases hp : l ++ [name] <+: x
  · have habsent : d.access (l ++ [name]) = .error .absent := by rw [access_of_isOpen h, hn]
    have hbelow : ∀ y, l ++ [name] <+: y → y ≠ l ++ [name] →
        (d.put (l ++ [name]) .directory).access y = .error .absent := by
      intro y
      induction y using List.reverseRecOn with
      | nil => exact fun hy _ => absurd (List.prefix_nil.1 hy) (by simp)
      | append_singleton y last ih =>
        intro hy hne
        rcases List.prefix_concat_iff.1 hy with heq | hy'
        · exact absurd heq.symm hne
        · by_cases heq : y = l ++ [name]
          · subst heq
            rw [access_of_isOpen (access_put_self h .directory), find?_put d _ _ _ (by simp), if_neg hne,
              if_pos (List.prefix_append _ _)]
          · rw [access_concat, ih hy' heq]
    rw [hbelow x hp hx, access_error_below habsent hp]
  · exact access_put_elsewhere d _ (by simp) hp

end CodeIndex.Disk
