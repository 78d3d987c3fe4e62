import CodeIndex.Proofs.Action
import CodeIndex.Proofs.Change
import CodeIndex.Proofs.Place

set_option autoImplicit false

/-!
# What the store does to the disk

A document replaces the one at its place or leaves it alone, and a write that fails leaves at most the file beside
it behind.  The root of a store is absolute here, as the program makes it before it reads or writes anything.
-/

namespace CodeIndex

/-- The disk did not do what it was to do. -/
def Failure.IsStorage (f : Failure) : Prop := ∃ path reason, f.cause = .fault (.storage path reason)

theorem Failure.IsStorage.ne_unscannable {f : Failure} (h : f.IsStorage) : f.cause ≠ .unscannable := by
  obtain ⟨path, reason, heq⟩ := h
  simp [heq]

namespace Location

/-- The place of the file in which another one is prepared. -/
def aside (l : Location) : Location := l.dropLast ++ [l.getLastD "" ++ ".tmp"]

theorem aside_concat (l : Location) (name : String) : aside (l ++ [name]) = l ++ [name ++ ".tmp"] := by
  rw [aside, List.dropLast_concat, List.getLastD_concat]

end Location

namespace Disk

theorem read_of_access {d : Disk} {l : Location} {bytes : ByteArray} {time : Nat}
    (h : d.access l = .ok (.file bytes time)) : d.read l = .ok bytes := by
  rw [read, h]

theorem access_of_read {d : Disk} {l : Location} {bytes : ByteArray} (h : d.read l = .ok bytes) :
    ∃ time, d.access l = .ok (.file bytes time) := by
  unfold read at h
  cases ha : d.access l with
  | error e => rw [ha] at h; cases h
  | ok node =>
    rw [ha] at h
    cases node with
    | directory => cases h
    | file found time => cases h; exact ⟨time, rfl⟩

theorem read_eq_absent {d : Disk} {l : Location} : d.read l = .error .absent ↔ d.access l = .error .absent := by
  unfold read
  cases d.access l with
  | error e => simp
  | ok node => cases node <;> simp

theorem read_congr {d d' : Disk} {l : Location} (h : d'.access l = d.access l) : d'.read l = d.read l := by
  rw [read, read, h]

theorem holds_of_access {d : Disk} {l : Location} {node : Node} (h : d.access l = .ok node) : d.holds l = true := by
  rw [holds, h]

end Disk

namespace Store

open Action

/-! ## Places -/

/-- The directory of the project. -/
def place (s : Store) : Location := Location.resolve [] s.root

def corePlace (s : Store) : Location := s.place ++ [coreFile]

def shardsPlace (s : Store) : Location := s.place ++ [Shard.directory]

def shardPlace (s : Store) (id : String) : Location := s.shardsPlace.resolve (id ++ ".json")

theorem isName_coreFile : Path.IsName coreFile := ⟨by decide, by decide, by decide, by decide⟩

theorem isName_shards : Path.IsName Shard.directory := ⟨by decide, by decide, by decide, by decide⟩

section Places

variable {s : Store} (hs : Path.isAbsolute s.root = true) (here : Location)

include hs

theorem resolve_root : here.resolve s.root = s.place := Location.resolve_of_isAbsolute hs here []

theorem resolve_corePath : here.resolve s.corePath = s.corePlace := by
  rw [corePath, Location.resolve_join hs, resolve_root hs, Location.resolve_of_isName isName_coreFile]
  rfl

theorem resolve_shardDirectory : here.resolve s.shardDirectory = s.shardsPlace := by
  rw [shardDirectory, Location.resolve_join hs, resolve_root hs, Location.resolve_of_isName isName_shards]
  rfl

theorem isAbsolute_shardDirectory : Path.isAbsolute s.shardDirectory = true := Path.isAbsolute_join hs

theorem resolve_shardPath (id : String) : here.resolve (s.shardPath id) = s.shardPlace id := by
  rw [shardPath, Location.resolve_join (isAbsolute_shardDirectory hs), resolve_shardDirectory hs]
  rfl

end Places

/-- Endings of one joined path lead into one directory. -/
theorem resolve_join_append (base path : String) (here : Location) (hb : Path.isAbsolute base = true) :
    ∃ directory name, ∀ tail : String, '/' ∉ tail.toList → 2 < tail.length →
      here.resolve (Path.join base (path ++ tail)) = directory ++ [name ++ tail] := by
  obtain ⟨directory, name, h⟩ := (here.resolve base).resolve_append path
  exact ⟨directory, name, fun tail ht hlen => by rw [Location.resolve_join hb, h tail ht hlen]⟩

/-- A document and the file beside it. -/
structure Beside (here : Location) (path : String) (directory : Location) (name : String) : Prop where
  place : here.resolve path = directory ++ [name]
  aside : here.resolve (besides path) = directory ++ [name ++ ".tmp"]

theorem join_append {base : String} (path tail : String) (ht : '/' ∉ tail.toList) (hb : base ≠ "") :
    Path.join base path ++ tail = Path.join base (path ++ tail) := by
  unfold Path.join
  rw [Path.isAbsolute_append path ht]
  simp only [hb, decide_false, Bool.or_false]
  split
  · rfl
  · split <;> simp only [String.append_assoc]

theorem beside_join (here : Location) {base name : String} (hb : base ≠ "") (hname : Path.IsName name)
    (haside : Path.IsName (name ++ ".tmp")) : Beside here (Path.join base name) (here.resolve base) name := by
  refine ⟨?_, ?_⟩
  · rw [Location.resolve_join_any here hname.isAbsolute, Location.resolve_of_isName hname]
  · rw [besides, join_append _ _ (by decide) hb, Location.resolve_join_any here haside.isAbsolute,
      Location.resolve_of_isName haside]

theorem beside_of_isName {s : Store} (hs : Path.isAbsolute s.root = true) (here : Location) {name : String}
    (hname : Path.IsName name) (haside : Path.IsName (name ++ ".tmp")) :
    Beside here (Path.join s.root name) s.place name := by
  have hbeside := beside_join here (Path.ne_empty_of_isAbsolute hs) hname haside
  rwa [resolve_root hs] at hbeside

theorem beside_corePath {s : Store} (hs : Path.isAbsolute s.root = true) (here : Location) :
    Beside here s.corePath s.place coreFile :=
  beside_of_isName hs here isName_coreFile ⟨by decide, by decide, by decide, by decide⟩

theorem beside_shardPath {s : Store} (hs : Path.isAbsolute s.root = true) (here : Location) (id : String) :
    ∃ directory name, Beside here (s.shardPath id) directory (name ++ ".json") := by
  have hdir := isAbsolute_shardDirectory hs
  obtain ⟨directory, name, h⟩ := resolve_join_append s.shardDirectory id here hdir
  refine ⟨directory, name, h ".json" (by decide) (by decide), ?_⟩
  rw [besides, shardPath, join_append _ _ (by decide) (Path.ne_empty_of_isAbsolute hdir), String.append_assoc, String.append_assoc,
    h (".json" ++ ".tmp") (by decide) (by decide)]

theorem shardPlace_of_isValid (s : Store) {id : String} (h : ModuleId.isValid id = true) :
    s.shardPlace id = s.shardsPlace ++ [id ++ ".json"] := by
  have hslash : '/' ∉ (id ++ ".json").toList := by
    rw [String.toList_append, List.mem_append]
    rintro (hid | hext)
    · exact ModuleId.slash_notMem h hid
    · exact absurd hext (by decide)
  have hlen : 5 ≤ (id ++ ".json").length := by
    rw [String.length_append]
    exact Nat.le_add_left _ _
  have hne : ∀ t : String, t.length < 5 → id ++ ".json" ≠ t := by
    rintro t ht rfl
    omega
  exact Location.resolve_of_isName ⟨hslash, hne "" (by decide), hne "." (by decide), hne ".." (by decide)⟩ _

/-! ## Whole files -/

/-- From one workspace to another only the disk changed, at some locations. -/
structure Changed (written made : Location → Prop) (w w' : Workspace) : Prop where
  eq : w' = { w with disk := w'.disk }
  frame : Disk.Frame written made w.disk w'.disk
  later : Disk.Later w.disk w'.disk

namespace Changed

variable {written made written' made' : Location → Prop} {w w' w'' : Workspace}

theorem refl (written made : Location → Prop) (w : Workspace) : Changed written made w w :=
  ⟨rfl, Disk.Frame.refl _ _ _, Disk.Later.refl _⟩

theorem trans (h : Changed written made w w') (h' : Changed written made w' w'') : Changed written made w w'' := by
  refine ⟨?_, h.frame.trans h'.frame, h.later.trans h'.later⟩
  rw [h'.eq, h.eq]

theorem mono (h : Changed written made w w') (hw : ∀ l, written l → written' l) (hm : ∀ l, made l → made' l) :
    Changed written' made' w w' :=
  ⟨h.eq, h.frame.mono hw hm, h.later⟩

theorem here_eq (h : Changed written made w w') : w'.here = w.here := by
  rw [h.eq]

theorem history_eq (h : Changed written made w w') : w'.history = w.history := by
  rw [h.eq]

theorem now_eq (h : Changed written made w w') : w'.now = w.now := by
  rw [h.eq]

theorem unrestored_eq (h : Changed written made w w') : w'.unrestored = w.unrestored := by
  rw [h.eq]

end Changed

theorem changed_counted (written made : Location → Prop) (w : Workspace) :
    Changed written made w { w with disk := w.disk.counted } :=
  ⟨rfl, Disk.frame_counted _ _ _, Disk.later_counted _⟩

section Files

variable {path : String} {bytes : ByteArray} {directory : Location} {name : String} {w w' : Workspace} {u : Unit}
  {f : Failure}

theorem ne_tmp (name : String) : name ≠ name ++ ".tmp" := by
  intro h
  have hlen := congrArg String.length h
  rw [String.length_append, show ".tmp".length = 4 from rfl] at hlen
  omega

theorem exec_replaceFile (path : String) (bytes : ByteArray) (w : Workspace) :
    (replaceFile path bytes).exec w =
      match (Disk.write (w.here.resolve (besides path)) bytes).run w.disk with
      | (.error e, d) => (.error (Failure.ofFault (.storage (besides path) e.reason)), { w with disk := d })
      | (.ok _, d) => match (Disk.rename (w.here.resolve (besides path)) (w.here.resolve path)).run d with
        | (.ok _, d) => (.ok (), { w with disk := d })
        | (.error e, d) => (.error (Failure.ofFault (.storage path e.reason)),
            { w with disk := ((Disk.removeFile (w.here.resolve (besides path))).run d).2 }) := by
  unfold replaceFile
  rw [exec_bind_of_ok (exec_locate path w), exec_bind_of_ok (exec_locate (besides path) w),
    exec_bind_of_ok (exec_tryChange _ w)]
  rcases (Disk.write (w.here.resolve (besides path)) bytes).run w.disk with ⟨e | _, d⟩
  · rfl
  · rw [exec_bind_of_ok (exec_orStorage_ok _ _ _), exec_bind_of_ok (exec_tryChange _ _)]
    dsimp only
    rcases (Disk.rename (w.here.resolve (besides path)) (w.here.resolve path)).run d with ⟨e | _, d⟩
    · rw [exec_bind_of_ok (exec_tryChange _ _)]
      rfl
    · rfl

/-- A file that cannot be replaced is a matter of storage. -/
theorem replaceFile_fault (h : (replaceFile path bytes).exec w = (.error f, w')) :
    ∃ p reason, f = Failure.ofFault (.storage p reason) := by
  rw [exec_replaceFile] at h
  rcases hw : (Disk.write (w.here.resolve (besides path)) bytes).run w.disk with ⟨e | _, d⟩
  · rw [hw] at h
    cases h
    exact ⟨_, _, rfl⟩
  · rw [hw] at h
    dsimp only at h
    rcases hr : (Disk.rename (w.here.resolve (besides path)) (w.here.resolve path)).run d with ⟨e | _, d'⟩
    · rw [hr] at h
      cases h
      exact ⟨_, _, rfl⟩
    · rw [hr] at h
      cases h

theorem frame_removeFile {l : Location} {d : Disk} :
    Disk.Frame (· = l) (fun _ => False) d ((Disk.removeFile l).run d).2 ∧ Disk.Later d ((Disk.removeFile l).run d).2 := by
  rcases h : (Disk.removeFile l).run d with ⟨e | _, d'⟩
  · rw [(Disk.removeFile_error h).1]
    exact ⟨Disk.frame_counted _ _ d, Disk.later_counted d⟩
  · exact (Disk.removeFile_ok h).2.2

/-- A file that was replaced is there, whole, and nothing is left beside it. -/
theorem replaceFile_ok (hb : Beside w.here path directory name) (h : (replaceFile path bytes).exec w = (.ok u, w')) :
    (∃ time, w'.disk.access (directory ++ [name]) = .ok (.file bytes time)) ∧
      w'.disk.access (directory ++ [name ++ ".tmp"]) = .error .absent ∧
      Changed (fun l => l = directory ++ [name] ∨ l = directory ++ [name ++ ".tmp"]) (fun _ => False) w w' := by
  rw [exec_replaceFile, hb.place, hb.aside] at h
  rcases hw : (Disk.write (directory ++ [name ++ ".tmp"]) bytes).run w.disk with ⟨e | _, d⟩
  · rw [hw] at h
    cases h
  · rw [hw] at h
    obtain ⟨-, -, ⟨time, htmp⟩, hframe, hlater⟩ := Disk.write_ok hw
    dsimp only at h
    rcases hr : (Disk.rename (directory ++ [name ++ ".tmp"]) (directory ++ [name])).run d with ⟨e | _, d'⟩
    · rw [hr] at h
      cases h
    · rw [hr] at h
      cases h
      obtain ⟨hplace, haside, hframe', hlater'⟩ := Disk.rename_ok (ne_tmp name).symm htmp hr
      refine ⟨⟨time, hplace⟩, haside, rfl, ?_, hlater.trans hlater'⟩
      exact (hframe.mono (fun l => Or.inr) fun _ => id).trans (hframe'.mono (fun l => Or.symm) fun _ => id)

/-- A file that could not be replaced is left alone. -/
theorem replaceFile_error (hb : Beside w.here path directory name)
    (h : (replaceFile path bytes).exec w = (.error f, w')) :
    Changed (· = directory ++ [name ++ ".tmp"]) (fun _ => False) w w' := by
  rw [exec_replaceFile, hb.place, hb.aside] at h
  rcases hw : (Disk.write (directory ++ [name ++ ".tmp"]) bytes).run w.disk with ⟨e | _, d⟩
  · rw [hw] at h
    cases h
    rw [Disk.write_error hw]
    exact changed_counted _ _ w
  · rw [hw] at h
    obtain ⟨-, -, -, hframe, hlater⟩ := Disk.write_ok hw
    dsimp only at h
    rcases hr : (Disk.rename (directory ++ [name ++ ".tmp"]) (directory ++ [name])).run d with ⟨e | _, d'⟩
    · rw [hr] at h
      cases h
      rw [Disk.rename_error hr]
      obtain ⟨hremove, hlater'⟩ := frame_removeFile (l := directory ++ [name ++ ".tmp"]) (d := d.counted)
      exact ⟨rfl, hframe.trans ((Disk.frame_counted _ _ d).trans hremove),
        hlater.trans ((Disk.later_counted d).trans hlater')⟩
    · rw [hr] at h
      cases h

/-- What a file holds, and why not. -/
theorem exec_contents (path : String) (w : Workspace) :
    (contents path).exec w = (.ok (w.disk.read (w.here.resolve path)), w) := rfl

theorem exec_isPresent (path : String) (w : Workspace) :
    (isPresent path).exec w = (.ok (w.disk.holds (w.here.resolve path)), w) := rfl

end Files

end Store

end CodeIndex
