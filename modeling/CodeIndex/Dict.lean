set_option autoImplicit false

/-!
# Maps with string keys in increasing order

Keys are ordered by code points, which is also the byte order of their UTF-8 form.  A map holds each
key once and in order, so two maps with the same entries are the same value, and what is written from a
map never depends on how it was filled.
-/

namespace CodeIndex

/-- Keys strictly increase from entry to entry. -/
def Ascending {α : Type} (entries : List (String × α)) : Prop :=
  entries.Pairwise fun a b => a.1 < b.1

structure Dict (α : Type) where
  entries : List (String × α)
  ascending : Ascending entries

namespace Dict

variable {α : Type} {β : Type}

theorem ext {d e : Dict α} (h : d.entries = e.entries) : d = e := by
  cases d; cases e; simp_all

instance [DecidableEq α] : DecidableEq (Dict α) := fun d e =>
  if h : d.entries = e.entries then isTrue (ext h)
  else isFalse fun heq => h (heq ▸ rfl)

def empty : Dict α := ⟨[], List.Pairwise.nil⟩

instance : EmptyCollection (Dict α) := ⟨empty⟩

instance : Inhabited (Dict α) := ⟨empty⟩

def toList (d : Dict α) : List (String × α) := d.entries

def keys (d : Dict α) : List String := d.entries.map Prod.fst

def values (d : Dict α) : List α := d.entries.map Prod.snd

def size (d : Dict α) : Nat := d.entries.length

def isEmpty (d : Dict α) : Bool := d.entries.isEmpty

def find? (key : String) : List (String × α) → Option α
  | [] => none
  | (k, v) :: rest => if k = key then some v else find? key rest

def get? (d : Dict α) (key : String) : Option α := find? key d.entries

def contains (d : Dict α) (key : String) : Bool := (d.get? key).isSome

/-- The entry is put where its key belongs and replaces an entry with the same key. -/
def place (key : String) (value : α) : List (String × α) → List (String × α)
  | [] => [(key, value)]
  | (k, v) :: rest =>
    if key < k then (key, value) :: (k, v) :: rest
    else if k < key then (k, v) :: place key value rest
    else (key, value) :: rest

theorem mem_place {key : String} {value : α} {entries : List (String × α)} {e : String × α}
    (h : e ∈ place key value entries) : e = (key, value) ∨ e ∈ entries := by
  induction entries with
  | nil => simpa [place] using h
  | cons head rest ih =>
    obtain ⟨k, v⟩ := head
    simp only [place] at h
    split at h
    · simpa using h
    · split at h
      · rcases List.mem_cons.1 h with h | h
        · exact .inr (by simp [h])
        · rcases ih h with h | h
          · exact .inl h
          · exact .inr (by simp [h])
      · rcases List.mem_cons.1 h with h | h
        · exact .inl h
        · exact .inr (by simp [h])

theorem ascending_place (key : String) (value : α) {entries : List (String × α)}
    (h : Ascending entries) : Ascending (place key value entries) := by
  induction entries with
  | nil => simp [place, Ascending]
  | cons head rest ih =>
    obtain ⟨k, v⟩ := head
    obtain ⟨hhead, hrest⟩ := List.pairwise_cons.1 h
    simp only [place]
    split
    case isTrue hlt =>
      refine List.pairwise_cons.2 ⟨fun e he => ?_, h⟩
      rcases List.mem_cons.1 he with he | he
      · simpa [he] using hlt
      · exact String.lt_trans hlt (hhead e he)
    case isFalse hnot =>
      split
      case isTrue hlt =>
        refine List.pairwise_cons.2 ⟨fun e he => ?_, ih hrest⟩
        rcases mem_place he with he | he
        · simpa [he] using hlt
        · exact hhead e he
      case isFalse hnot' =>
        have heq : key = k := String.le_antisymm (String.not_lt.1 hnot') (String.not_lt.1 hnot)
        exact List.pairwise_cons.2 ⟨fun e he => by simpa [heq] using hhead e he, hrest⟩

def insert (d : Dict α) (key : String) (value : α) : Dict α :=
  ⟨place key value d.entries, ascending_place key value d.ascending⟩

/-- The entries that pass a test. -/
def filter (keep : String → α → Bool) (d : Dict α) : Dict α :=
  ⟨d.entries.filter fun e => keep e.1 e.2, d.ascending.filter _⟩

def erase (d : Dict α) (key : String) : Dict α := d.filter fun k _ => decide (k ≠ key)

/-- Every value replaced, under its key. -/
def map (f : String → α → β) (d : Dict α) : Dict β :=
  ⟨d.entries.map fun e => (e.1, f e.1 e.2), by
    simpa only [Ascending, List.pairwise_map] using d.ascending⟩

/-- Later entries replace earlier ones with the same key. -/
def insertAll (d : Dict α) (entries : List (String × α)) : Dict α :=
  entries.foldl (fun d e => d.insert e.1 e.2) d

def ofList (entries : List (String × α)) : Dict α := empty.insertAll entries

/-- Earlier entries stay when a key comes again. -/
def ofListFirst (entries : List (String × α)) : Dict α :=
  entries.foldl (fun d e => if d.contains e.1 then d else d.insert e.1 e.2) empty

/-- The value under `key`, or what stands for an absent one, is changed by `f`. -/
def update (d : Dict α) (key : String) (absent : α) (f : α → α) : Dict α :=
  d.insert key (f ((d.get? key).getD absent))

theorem find?_place (key other : String) (value : α) {entries : List (String × α)}
    (h : Ascending entries) :
    find? other (place key value entries) = if key = other then some value else find? other entries := by
  induction entries with
  | nil => simp [place, find?]
  | cons head rest ih =>
    obtain ⟨k, v⟩ := head
    have hrest := (List.pairwise_cons.1 h).2
    simp only [place]
    split
    · simp [find?]
    · split
      next hnot hlt =>
        have hne : key ≠ k := fun heq => String.lt_irrefl k (heq ▸ hlt)
        simp only [find?, ih hrest]
        split
        · next hk => simp [show ¬ key = other from fun he => hne (he.trans hk.symm)]
        · rfl
      next hnot hnot' =>
        have heq : key = k := String.le_antisymm (String.not_lt.1 hnot') (String.not_lt.1 hnot)
        subst heq
        simp only [find?]
        split <;> rfl

theorem get?_insert (d : Dict α) (key other : String) (value : α) :
    (d.insert key value).get? other = if key = other then some value else d.get? other :=
  find?_place key other value d.ascending

@[simp] theorem get?_empty (key : String) : (empty : Dict α).get? key = none := rfl

end Dict

/-- A set of strings in increasing order. -/
abbrev Names := Dict Unit

namespace Names

def ofList (names : List String) : Names := Dict.ofList (names.map fun name => (name, ()))

def add (s : Names) (name : String) : Names := Dict.insert s name ()

def addAll (s : Names) (names : List String) : Names := names.foldl add s

end Names

end CodeIndex
