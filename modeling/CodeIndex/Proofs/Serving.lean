import CodeIndex.Server
import CodeIndex.Proofs.JsonLine
import CodeIndex.Proofs.Loading

set_option autoImplicit false

/-!
# Replies of the server

As long as the files stay as they are, what a loader has kept from earlier requests is what a new one would make of the
files.  So every request is answered as if it were the only one.
-/

namespace CodeIndex

/-! ## Loaders that agree with the files -/

namespace Loader

/-- Everything that the loader remembers is what a new one makes of the files. -/
structure Faithful (root : String) (w : Workspace) (l : Loader) : Prop where
  store : l.store = ⟨root⟩
  known : ∀ core, l.known = some core → (ofRoot root).coreFrom w = .ok core
  kept : ∀ id shard, l.kept.get? id = some shard → (ofRoot root).shardFor id w = .ok shard

theorem faithful_ofRoot (root : String) (w : Workspace) : Faithful root w (ofRoot root) := ⟨rfl, nofun, nofun⟩

namespace Faithful

variable {root : String} {w : Workspace} {l l' : Loader} {id : String}

theorem coreFrom_eq (h : Faithful root w l) : l.coreFrom w = (ofRoot root).coreFrom w := by
  cases hknown : l.known with
  | some core => rw [h.known core hknown, coreFrom, hknown]
  | none =>
    rw [coreFrom, hknown, h.store]
    rfl

theorem shardFor_eq (h : Faithful root w l) (id : String) : l.shardFor id w = (ofRoot root).shardFor id w := by
  cases hvalid : ModuleId.isValid id with
  | false => simp [shardFor, hvalid]
  | true =>
    cases hkept : l.kept.get? id with
    | some shard => rw [shardFor_of_kept hvalid hkept, h.kept id shard hkept]
    | none =>
      rw [shardFor_of_not_kept hvalid hkept, shardFor_of_not_kept hvalid (Dict.get?_emptyCollection id), h.coreFrom_eq,
        h.store]
      rfl

theorem known_of_toOption (h : Faithful root w l) {core : CoreIndex} (hknown : (l.coreFrom w).toOption = some core) :
    (ofRoot root).coreFrom w = .ok core := by
  rw [h.coreFrom_eq] at hknown
  cases hcore : (ofRoot root).coreFrom w with
  | error f =>
    rw [hcore] at hknown
    cases hknown
  | ok found =>
    rw [hcore] at hknown
    exact congrArg Except.ok (Option.some.inj hknown)

theorem informed (h : Faithful root w l) : Faithful root w (l.informed w) :=
  ⟨h.store, fun _ => h.known_of_toOption, h.kept⟩

theorem asked (h : Faithful root w l) (hasked : l.Asked id w l') : Faithful root w l' := by
  refine ⟨hasked.store.trans h.store, fun core hcore => ?_, fun other shard hget => ?_⟩
  · rcases hasked.known with hknown | hknown
    · exact h.known core (hknown ▸ hcore)
    · exact h.known_of_toOption (hknown ▸ hcore)
  · rcases hasked.get?_kept hget with hold | ⟨rfl, hfor⟩
    · exact h.kept other shard hold
    · rw [← h.shardFor_eq, hfor]

end Faithful

end Loader

namespace Loading

open Loader

variable {α β : Type} {root : String} {w : Workspace}

/-- Whatever a loader remembers of the files, reading comes to one and the same. -/
def Settled (root : String) (w : Workspace) (a : Loading α) : Prop := ∃ r, Keeps (Faithful root w) w a (· = r)

theorem settled_pure (x : α) : Settled root w (pure x) := ⟨_, keeps_pure rfl⟩

theorem settled_throw (f : Failure) : Settled root w (throw f : Loading α) := ⟨_, keeps_throw rfl⟩

theorem settled_core : Settled root w Loader.core :=
  ⟨_, fun l h => ⟨_, _, exec_core l w, h.informed, h.coreFrom_eq⟩⟩

theorem settled_shard (id : String) : Settled root w (Loader.shard id) := by
  refine ⟨(ofRoot root).shardFor id w, fun l h => ?_⟩
  obtain ⟨l', hrun, hasked⟩ := exec_shard l id w
  exact ⟨_, l', hrun, h.asked hasked, h.shardFor_eq id⟩

theorem Settled.bind {a : Loading α} {f : α → Loading β} (ha : Settled root w a) (hf : ∀ x, Settled root w (f x)) :
    Settled root w (a >>= f) := by
  obtain ⟨r, ha⟩ := ha
  cases r with
  | error e =>
    refine ⟨.error e, ha.bind nofun ?_⟩
    rintro e' ⟨⟩
    rfl
  | ok x =>
    obtain ⟨r, hr⟩ := hf x
    exact ⟨r, ha.bind_of_eq hr⟩

theorem Settled.attempt {a : Loading α} (ha : Settled root w a) :
    ∃ found, Keeps (Faithful root w) w (attempt a) (· = .ok found) := by
  obtain ⟨r, ha⟩ := ha
  refine ⟨r, ha.attempt.mono ?_⟩
  rintro _ ⟨found, rfl, rfl⟩
  rfl

end Loading

/-! ## Answers -/

namespace Answers

open Loading Loader

variable {root : String} {w : Workspace}

theorem settled_fileInfo (path : String) : Settled root w (fileInfo path) := by
  refine settled_core.bind fun core => ?_
  split
  · exact settled_throw _
  · exact (settled_shard _).bind fun _ => settled_pure _

theorem settled_value (q : Question) : Settled root w (value q) := by
  cases q with
  | coreIndex => exact settled_core.bind fun _ => settled_pure _
  | detail id => exact (settled_shard id).bind fun _ => settled_pure _
  | search pattern limit => exact settled_core.bind fun _ => settled_pure _
  | fileInfo path => exact settled_fileInfo path

/-- Every question is answered, be it with a message of a failure. -/
theorem keeps_answer (root : String) (w : Workspace) (q : Question) : ∃ j, Keeps (Faithful root w) w (answer q) (· = .ok j) := by
  have hvalue : Settled root w (value q) := settled_value q
  obtain ⟨found, hfound⟩ := hvalue.attempt
  cases found with
  | ok j => exact ⟨j, hfound.bind_of_eq (keeps_pure rfl)⟩
  | error f => exact ⟨.object [("error", .string f.headline)], hfound.bind_of_eq (keeps_pure rfl)⟩

end Answers

/-! ## Requests -/

namespace Json

theorem mem_of_lookup {key : String} {ms : List (String × Json)} {j : Json} (h : lookup key ms = some j) :
    (key, j) ∈ ms := by
  rw [lookup_eq_find?] at h
  exact List.mem_reverse.1 (Dict.mem_of_find? h)

/-- The fields of a record are parts of it. -/
theorem oneLine_of_fields? {names : List String} {j : Json} {fields : List (Option Json)} (hj : j.OneLine)
    (h : fields? names j = some fields) : ∀ field ∈ fields, ∀ v ∈ field, v.OneLine := by
  cases j with
  | array items =>
    rw [fields?] at h
    split at h
    · cases h
      intro field hfield v hv
      rcases List.mem_append.1 hfield with hitem | habsent
      · obtain ⟨item, hmem, rfl⟩ := List.mem_map.1 hitem
        cases hv
        exact oneLine_array.1 hj v hmem
      · rw [List.eq_of_mem_replicate habsent] at hv
        cases hv
    · cases h
  | object ms =>
    simp only [fields?, namedFields?] at h
    split at h
    · cases h
      intro field hfield v hv
      obtain ⟨name, -, rfl⟩ := List.mem_map.1 hfield
      exact oneLine_object.1 hj _ (mem_of_lookup hv)
    · cases h
  | _ => cases h

end Json

namespace Server

open Json Loading Loader

variable {root : String} {w : Workspace}

theorem oneLine_of_optional_free? {field : Option Json} {o : Option Json} (hfield : ∀ v ∈ field, v.OneLine)
    (h : Json.optional Request.free? field = some o) : ∀ v ∈ o, v.OneLine := by
  cases field with
  | none =>
    cases h
    nofun
  | some j =>
    have hfree : ∀ {v}, Request.free? j = some v → v.OneLine := by
      intro v hv
      unfold Request.free? at hv
      split at hv
      · cases hv
        exact oneLine_canonical (hfield j rfl)
      · cases hv
    unfold Json.optional at h
    split at h
    · next heq => cases heq
    · cases h
      nofun
    · next heq =>
      cases heq
      obtain ⟨v, hv, rfl⟩ := Option.map_eq_some_iff.1 h
      rintro _ ⟨⟩
      exact hfree hv

/-- What a request has as its identity is written on one line, as the request was. -/
theorem oneLine_of_ofText? {line : String} {r : Request} (h : Request.ofText? line = some r) :
    (r.id.getD .null).OneLine := by
  obtain ⟨j, hj, h⟩ := Option.bind_eq_some_iff.1 h
  split at h
  · obtain ⟨fields, hfields, h⟩ := Option.bind_eq_some_iff.1 h
    split at h
    · next version id method params =>
      simp only [Option.bind_eq_bind, Option.bind_eq_some_iff] at h
      obtain ⟨_, -, o, ho, _, -, _, -, heq⟩ := h
      cases heq
      have hid := oneLine_of_optional_free? (oneLine_of_fields? (oneLine_of_read? hj) hfields id (by simp)) ho
      cases o with
      | none => exact oneLine_null
      | some v => exact hid v rfl
    · cases h
  · cases h

/-! ## Replies -/

/-- Whether the line is a request that somebody waits for. -/
def expectsReply (line : String) : Bool := (Request.ofText? line).any fun r => !r.isNotification

/-- A reply names the request, has either a result or an error, and is written on one line. -/
structure Replies (line : String) (reply : Json) : Prop where
  id : ∃ r, Request.ofText? line = some r ∧ reply.get? "id" = some (r.id.getD .null)
  either : (reply.get? "result").isSome = !(reply.get? "error").isSome
  oneLine : '\n' ∉ reply.render.toList

theorem replies_of_ofText? {line : String} {r : Request} (h : Request.ofText? line = some r) {out : Except String Json}
    (hout : ∀ j, out = .ok j → j.OneLine) : Replies line (reply r.id out) := by
  have hid := oneLine_of_ofText? h
  cases out with
  | ok value =>
    refine ⟨⟨r, h, rfl⟩, rfl, OneLine.newline_notMem ?_⟩
    simp [reply, text, hid, hout value rfl]
  | error message =>
    refine ⟨⟨r, h, rfl⟩, rfl, OneLine.newline_notMem ?_⟩
    simp [reply, text, errorCode, hid]

theorem oneLine_description : description.OneLine := by simp [description, text]

theorem oneLine_schema (properties : List (String × String × String)) (required : List String) :
    (schema properties required).OneLine := by
  have hrequired : (ofNames required).OneLine := by simp [ofNames]
  simp only [schema, text, memberIf, oneLine_object, List.mem_append, List.mem_cons, List.not_mem_nil, or_false]
  rintro m ((rfl | rfl) | hm)
  · exact oneLine_string _
  · rw [oneLine_object]
    intro m hm
    obtain ⟨⟨name, type, about⟩, -, rfl⟩ := List.mem_map.1 hm
    simp
  · split at hm
    · rw [List.mem_singleton.1 hm]
      exact hrequired
    · cases hm

theorem oneLine_tools : ∀ j ∈ tools, j.OneLine := by
  have htool : ∀ name about arguments, OneLine arguments → (tool name about arguments).OneLine := by
    intro name about arguments h
    simp [tool, text, h]
  simp only [tools, List.forall_mem_cons]
  exact ⟨htool _ _ _ (oneLine_schema _ _), htool _ _ _ (oneLine_schema _ _), htool _ _ _ (oneLine_schema _ _),
    htool _ _ _ (oneLine_schema _ _), List.forall_mem_nil _⟩

/-- Every request has an outcome, whatever was asked before. -/
theorem keeps_result (root : String) (w : Workspace) (r : Request) : ∃ out : Except String Json,
    Keeps (Faithful root w) w (result r) (· = .ok out) ∧ ∀ j, out = .ok j → j.OneLine := by
  unfold result
  split
  · refine ⟨_, keeps_pure rfl, ?_⟩
    rintro _ ⟨⟩
    exact oneLine_canonical oneLine_description
  · refine ⟨_, keeps_pure rfl, ?_⟩
    rintro _ ⟨⟩
    exact oneLine_canonical (by simpa using oneLine_tools)
  · split
    · next e heq => exact ⟨_, keeps_pure rfl, nofun⟩
    · next q heq =>
      obtain ⟨answer, hanswer⟩ := Answers.keeps_answer root w q
      refine ⟨.ok (.object [("content", .array [.object [("text", text answer.render), ("type", text "text")]])]),
        hanswer.bind_of_eq (keeps_pure rfl), ?_⟩
      rintro _ ⟨⟩
      simp [text]
  · exact ⟨_, keeps_pure rfl, nofun⟩

/-- What comes of a line, whatever was asked before it: a reply, if somebody waits for one. -/
structure Comes (root : String) (w : Workspace) (line : String) (o : Option Json) : Prop where
  run : Keeps (Faithful root w) w (respond? line) (· = .ok o)
  waited : o.isSome = expectsReply line
  replies : ∀ j ∈ o, Replies line j

theorem exists_comes (root : String) (w : Workspace) (line : String) : ∃ o, Comes root w line o := by
  have hwaited : expectsReply line = (Request.ofText? line).any fun r => !r.isNotification := rfl
  cases hr : Request.ofText? line with
  | none =>
    rw [hr] at hwaited
    refine ⟨none, ?_, hwaited.symm, nofun⟩
    rw [respond?, hr]
    exact keeps_pure rfl
  | some r =>
    rw [hr, Option.any_some] at hwaited
    cases hnotification : r.isNotification with
    | true =>
      refine ⟨none, ?_, by rw [hwaited, hnotification]; rfl, nofun⟩
      simp only [respond?, hr, hnotification, if_true]
      exact keeps_pure rfl
    | false =>
      obtain ⟨out, hrun, hout⟩ := keeps_result root w r
      refine ⟨some (reply r.id out), ?_, by rw [hwaited, hnotification]; rfl, ?_⟩
      · simp only [respond?, hr, hnotification, Bool.false_eq_true, if_false]
        exact hrun.bind_of_eq (keeps_pure rfl)
      · rintro _ ⟨⟩
        exact replies_of_ofText? hr hout

theorem Comes.unique {line : String} {o o' : Option Json} (h : Comes root w line o) (h' : Comes root w line o') :
    o = o' := by
  obtain ⟨r, l, hrun, -, rfl⟩ := h.run _ (faithful_ofRoot root w)
  obtain ⟨r', l', hrun', -, rfl⟩ := h'.run _ (faithful_ofRoot root w)
  exact Except.ok.inj (congrArg (fun x => x.1.1) (hrun.symm.trans hrun'))

theorem exec_serve (root : String) (w : Workspace) (lines : List String) : ∃ os, List.Forall₂ (Comes root w) lines os ∧
    ((serve lines).fresh root).exec w = (.ok (os.filterMap id), w) := by
  have hone : ∀ line ∈ lines, Keeps (Faithful root w) w (respond? line) fun r => ∃ o, r = .ok o ∧ Comes root w line o := by
    intro line _
    obtain ⟨o, ho⟩ := exists_comes root w line
    exact ho.run.mono fun r hr => ⟨o, hr, ho⟩
  obtain ⟨r, l, hrun, -, replies, rfl, os, hos, rfl⟩ := keeps_filterMapM lines hone _ (faithful_ofRoot root w)
  exact ⟨os, hos, exec_fresh hrun⟩

/-- A new server that is given only this line makes this one reply. -/
theorem Comes.alone {line : String} {j : Json} (h : Comes root w line (some j)) :
    ((serve [line]).fresh root).exec w = (.ok [j], w) := by
  obtain ⟨os, hos, hrun⟩ := exec_serve root w [line]
  obtain ⟨o, rest, hline, hrest, rfl⟩ := List.forall₂_cons_left_iff.1 hos
  obtain rfl := List.forall₂_nil_left_iff.1 hrest
  -- what comes of the line for a new loader is what comes of it for any
  obtain rfl := h.unique hline
  exact hrun

end Server

end CodeIndex
