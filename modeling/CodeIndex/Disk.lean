import CodeIndex.Path

set_option autoImplicit false

/-!
# Disk

Files and directories as a value.  A location is the list of names from the top; a file can only be reached
through directories.  Every change either happens as a whole or leaves the disk as it was and says why; a
disk may also refuse changes, counted from the first, whatever they are.
-/

namespace CodeIndex

abbrev Location := List String

namespace Location

/-- One step of a path: `..` goes back to the directory above. -/
def step (here : Location) (name : String) : Location :=
  if name = ".." then here.dropLast else here ++ [name]

/-- Where a path leads from a directory. -/
def resolve (base : Location) (path : String) : Location :=
  (Path.components path).foldl step (if Path.isAbsolute path then [] else base)

def toPath (l : Location) : String := "/" ++ Path.ofComponents l

/-- The directories above a location, the top first. -/
def above (l : Location) : List Location := (List.range l.length).map l.take

end Location

inductive Node where
  /-- Contents, and the time of the last change in nanoseconds. -/
  | file (bytes : ByteArray) (time : Nat)
  | directory

inductive DiskError where
  | absent
  | notDirectory
  | isDirectory
  | notEmpty
  | refused
  deriving DecidableEq, Repr, Inhabited

namespace DiskError

def reason : DiskError → String
  | absent => "No such file or directory (os error 2)"
  | notDirectory => "Not a directory (os error 20)"
  | isDirectory => "Is a directory (os error 21)"
  | notEmpty => "Directory not empty (os error 39)"
  | refused => "Input/output error (os error 5)"

end DiskError

structure Disk where
  entries : List (Location × Node)
  /-- Time of the next change. -/
  clock : Nat
  /-- Number of changes that were tried. -/
  changes : Nat
  /-- The changes that are refused, by their numbers. -/
  refusals : List Nat

namespace Disk

def empty : Disk := ⟨[], 0, 0, []⟩

instance : Inhabited Disk := ⟨empty⟩

/-- What is at a location; the top is always a directory. -/
def find? (d : Disk) (l : Location) : Option Node :=
  if l.isEmpty then some .directory else d.entries.lookup l

def isDirectory (d : Disk) (l : Location) : Bool := d.find? l matches some .directory

def isFile (d : Disk) (l : Location) : Bool := d.find? l matches some (.file _ _)

/-- Why a location cannot be reached. -/
def obstacle? (d : Disk) (l : Location) : Option DiskError :=
  l.above.findSome? fun directory =>
    match d.find? directory with
    | some .directory => none
    | some (.file _ _) => some .notDirectory
    | none => some .absent

/-- What is at a location, reached from the top. -/
def access (d : Disk) (l : Location) : Except DiskError Node :=
  match d.obstacle? l, d.find? l with
  | some e, _ => .error e
  | none, some node => .ok node
  | none, none => .error .absent

def holds (d : Disk) (l : Location) : Bool := (d.access l) matches .ok _

def read (d : Disk) (l : Location) : Except DiskError ByteArray :=
  match d.access l with
  | .ok (.file bytes _) => .ok bytes
  | .ok .directory => .error .isDirectory
  | .error e => .error e

/-- The text of a file; bytes that are no text are an error of their own. -/
def readText (d : Disk) (l : Location) : Option String :=
  match d.read l with
  | .ok bytes => String.fromUTF8? bytes
  | .error _ => none

/-- What is directly in a directory, by names. -/
def list (d : Disk) (l : Location) : Except DiskError (List (String × Node)) :=
  match d.access l with
  | .ok .directory => .ok (d.entries.filterMap fun (place, node) =>
      if place.length = l.length + 1 && l.isPrefixOf place then place.getLast?.map fun name => (name, node) else none)
  | .ok (.file _ _) => .error .notDirectory
  | .error e => .error e

/-- The disk without what is at a location and below it. -/
def erase (d : Disk) (l : Location) : Disk := { d with entries := d.entries.filter fun e => !l.isPrefixOf e.1 }

/-- The disk with a node in the place of what was at a location and below it. -/
def put (d : Disk) (l : Location) (node : Node) : Disk :=
  { d with entries := (l, node) :: (d.erase l).entries }

/-- A change of a disk, which fails or happens. -/
abbrev Change := ExceptT DiskError (StateM Disk)

/-- Counts a change and makes it, unless it is refused. -/
def change (f : Disk → Except DiskError Disk) : Change Unit := do
  let d ← get
  let number := d.changes
  set { d with changes := number + 1 }
  if d.refusals.contains number then throw .refused
  match f d with
  | .ok d' => set { d' with changes := number + 1 }
  | .error e => throw e

def write (l : Location) (bytes : ByteArray) : Change Unit :=
  change fun d =>
    match d.obstacle? l with
    | some e => .error e
    | none =>
      if d.isDirectory l then .error .isDirectory
      else .ok { d.put l (.file bytes d.clock) with clock := d.clock + 1 }

/-- Moves a file, over another one if there is one. -/
def rename (source target : Location) : Change Unit :=
  change fun d =>
    match d.access source, d.obstacle? target with
    | .error e, _ => .error e
    | .ok _, some e => .error e
    | .ok node, none =>
      if d.isDirectory target then .error .isDirectory else .ok ((d.erase source).put target node)

def removeFile (l : Location) : Change Unit :=
  change fun d =>
    match d.access l with
    | .error e => .error e
    | .ok .directory => .error .isDirectory
    | .ok (.file _ _) => .ok (d.erase l)

/-- Makes a directory and those above it, where they are not there. -/
def makeDirectories (l : Location) : Change Unit := do
  let d ← get
  unless (d.access l) matches .ok .directory do
    change fun d =>
      if (l.above ++ [l]).any d.isFile then .error .notDirectory
      else .ok ((l.above ++ [l]).foldl (fun d l =>
        if d.isDirectory l then d else d.put l .directory) d)

/-- Removes a directory with nothing in it. -/
def removeDirectory (l : Location) : Change Unit :=
  change fun d =>
    match d.list l with
    | .error e => .error e
    | .ok [] => .ok (d.erase l)
    | .ok _ => .error .notEmpty

/-- Removes a directory with everything in it. -/
def removeTree (l : Location) : Change Unit :=
  change fun d =>
    match d.access l with
    | .error e => .error e
    | .ok _ => .ok (d.erase l)

theorem find?_erase (d : Disk) (l other : Location) (h : l ≠ []) :
    (d.erase l).find? other = if l <+: other then none else d.find? other := by
  unfold find? erase
  by_cases ho : other.isEmpty
  · have hnil : other = [] := by simpa using ho
    simp [hnil, h]
  · simp only [ho]
    generalize d.entries = entries
    induction entries with
    | nil => simp
    | cons e rest ih =>
      obtain ⟨k, v⟩ := e
      by_cases hk : l <+: k
      · have hkp : l.isPrefixOf k = true := by simpa using hk
        rw [List.filter_cons_of_neg (by simp [hkp])]
        by_cases heq : other = k
        · subst heq; simpa [hk] using ih
        · have hb : (other == k) = false := by simpa using heq
          simpa [List.lookup_cons, hb] using ih
      · have hkp : l.isPrefixOf k = false := Bool.eq_false_iff.2 (by simpa using hk)
        rw [List.filter_cons_of_pos (by simp [hkp])]
        by_cases heq : other = k
        · subst heq; simp [hk]
        · have hb : (other == k) = false := by simpa using heq
          simpa [List.lookup_cons, hb] using ih

theorem find?_put (d : Disk) (l other : Location) (node : Node) (h : l ≠ []) :
    (d.put l node).find? other =
      if other = l then some node else if l <+: other then none else d.find? other := by
  by_cases ho : other = l
  · subst ho; simp [find?, put, h]
  · rw [if_neg ho, ← find?_erase d l other h]
    unfold find? put
    have hb : (other == l) = false := by simpa using ho
    simp [List.lookup_cons, hb]

end Disk

end CodeIndex
