import CodeIndex.Loader
import CodeIndex.Proofs.Documents

set_option autoImplicit false

/-!
# Reading through a loader

`exec` runs a reader from a loader and a workspace; every combinator has one equation.  Reading changes no file.  What a
loader makes of a module is told by what it has kept, by what it knows of the core index, and by the file of the shard.
-/

namespace CodeIndex

/-! ## Actions that change nothing -/

namespace Action

variable {α β : Type}

/-- Nothing changes, not even the record of questions. -/
def Reads (a : Action α) : Prop := ∀ w, a.Answers w (a.exec w).1

theorem reads_pure (x : α) : (pure x : Action α).Reads := fun _ => rfl

theorem reads_failWith (f : Fault) : (failWith f : Action α).Reads := fun _ => rfl

theorem reads_orStorage (path : String) (r : Except DiskError α) : (orStorage path r).Reads := by
  cases r with
  | error e => exact reads_failWith _
  | ok x => exact reads_pure x

theorem Reads.bind {a : Action α} {f : α → Action β} (ha : a.Reads) (hf : ∀ x, (f x).Reads) : (a >>= f).Reads := by
  intro w
  have hall := (ha w).bind fun x _ => hf x w
  exact hall.trans (by rw [hall])

end Action

namespace Store

open Action

theorem reads_contents (path : String) : (contents path).Reads := fun _ => rfl

theorem reads_decode {α : Type} [Document α] (what : String) (bytes : ByteArray) : (decode what bytes : Action α).Reads := by
  unfold decode
  split
  · exact reads_pure _
  · exact reads_failWith _

theorem reads_readCore (s : Store) : s.readCore.Reads := by
  have hpresent : (isPresent s.corePath).Reads := fun _ => rfl
  refine hpresent.bind fun present => ?_
  split
  · exact reads_failWith _
  · refine Reads.bind ?_ fun core => ?_
    · exact (reads_contents _).bind fun _ => (reads_orStorage _ _).bind fun _ => reads_decode _ _
    · split
      · exact reads_pure _
      · exact reads_failWith _

theorem reads_shardBytes? (s : Store) (id : String) : (s.shardBytes? id).Reads := by
  refine (reads_contents _).bind fun found => ?_
  split
  · exact reads_pure _
  · exact reads_pure _
  · exact reads_orStorage _ _

end Store

/-! ## Readers -/

namespace Loading

variable {α β : Type}

/-- What reading through a loader comes to, with the loader and the workspace after it. -/
def exec (a : Loading α) (l : Loader) (w : Workspace) : (Except Failure α × Loader) × Workspace := ((a.run).run l).run w

theorem exec_pure (x : α) (l : Loader) (w : Workspace) : (pure x : Loading α).exec l w = ((.ok x, l), w) := rfl

theorem exec_throw (f : Failure) (l : Loader) (w : Workspace) : (throw f : Loading α).exec l w = ((.error f, l), w) := rfl

theorem exec_bind (a : Loading α) (f : α → Loading β) (l : Loader) (w : Workspace) :
    (a >>= f).exec l w = match a.exec l w with
      | ((.ok x, l'), w') => (f x).exec l' w'
      | ((.error e, l'), w') => ((.error e, l'), w') := by
  change StateT.run (ExceptT.bindCont (fun x => f x) (a.exec l w).1.1) (a.exec l w).1.2 (a.exec l w).2 = _
  rcases a.exec l w with ⟨⟨e | x, l'⟩, w'⟩ <;> rfl

theorem exec_bind_of_ok {a : Loading α} {f : α → Loading β} {l l' : Loader} {w w' : Workspace} {x : α}
    (h : a.exec l w = ((.ok x, l'), w')) : (a >>= f).exec l w = (f x).exec l' w' := by
  rw [exec_bind, h]

theorem exec_bind_of_error {a : Loading α} {f : α → Loading β} {l l' : Loader} {w w' : Workspace} {e : Failure}
    (h : a.exec l w = ((.error e, l'), w')) : (a >>= f).exec l w = ((.error e, l'), w') := by
  rw [exec_bind, h]

theorem exec_get (l : Loader) (w : Workspace) : (getThe Loader : Loading Loader).exec l w = ((.ok l, l), w) := rfl

theorem exec_lift {a : Action α} {w w' : Workspace} {r : Except Failure α} (h : a.exec w = (r, w')) (l : Loader) :
    (liftM a : Loading α).exec l w = ((r, l), w') := by
  change (((a.exec w).1, l), (a.exec w).2) = _
  rw [h]

theorem exec_tryCatch (a : Loading α) (handler : Failure → Loading α) (l : Loader) (w : Workspace) :
    (tryCatch a handler).exec l w = match a.exec l w with
      | ((.ok x, l'), w') => ((.ok x, l'), w')
      | ((.error f, l'), w') => (handler f).exec l' w' := by
  unfold exec
  simp only [tryCatch, tryCatchThe, MonadExceptOf.tryCatch, ExceptT.tryCatch, ExceptT.run_mk, StateT.run_bind]
  change Id.run (((a.run.run l).run w : Id ((Except Failure α × Loader) × Workspace)) >>= _) = _
  rcases (a.run.run l).run w with ⟨⟨e | x, l'⟩, w'⟩ <;> rfl

/-- Failures of an attempt go no further. -/
theorem exec_attempt {a : Loading α} {l l' : Loader} {w w' : Workspace} {r : Except Failure α}
    (h : a.exec l w = ((r, l'), w')) : (attempt a).exec l w = ((.ok r, l'), w') := by
  rw [attempt, exec_tryCatch, ← bind_pure_comp, exec_bind, h]
  cases r <;> rfl

theorem exec_fresh {a : Loading α} {root : String} {l : Loader} {w w' : Workspace} {r : Except Failure α}
    (h : a.exec (Loader.ofRoot root) w = ((r, l), w')) : (a.fresh root).exec w = (r, w') := by
  have hresult : (a.result ⟨⟨root⟩, none, {}⟩).exec w = (.ok (r, l), w') := by
    change (Except.ok (a.exec (Loader.ofRoot root) w).1, (a.exec (Loader.ofRoot root) w).2) = _
    rw [h]
  rw [fresh, Action.exec_bind_of_ok hresult]
  cases r <;> rfl

/-- From every loader of a kind, reading leaves the workspace as it is and a loader of that kind behind, and comes to
    what is said of its outcome. -/
def Keeps (kind : Loader → Prop) (w : Workspace) (a : Loading α) (outcome : Except Failure α → Prop) : Prop :=
  ∀ l, kind l → ∃ r l', a.exec l w = ((r, l'), w) ∧ kind l' ∧ outcome r

variable {kind : Loader → Prop} {w : Workspace} {a : Loading α} {outcome outcome' : Except Failure α → Prop}

theorem keeps_pure {x : α} (h : outcome (.ok x)) : Keeps kind w (pure x) outcome := fun l hl =>
  ⟨_, l, exec_pure x l w, hl, h⟩

theorem keeps_throw {f : Failure} (h : outcome (.error f)) : Keeps kind w (throw f) outcome := fun l hl =>
  ⟨_, l, exec_throw f l w, hl, h⟩

theorem Keeps.mono (h : Keeps kind w a outcome) (hle : ∀ r, outcome r → outcome' r) : Keeps kind w a outcome' := by
  intro l hl
  obtain ⟨r, l', hrun, hl', hr⟩ := h l hl
  exact ⟨r, l', hrun, hl', hle r hr⟩

theorem Keeps.bind {f : α → Loading β} {outcome' : Except Failure β → Prop} (h : Keeps kind w a outcome)
    (hok : ∀ x, outcome (.ok x) → Keeps kind w (f x) outcome') (herror : ∀ e, outcome (.error e) → outcome' (.error e)) :
    Keeps kind w (a >>= f) outcome' := by
  intro l hl
  obtain ⟨r, l', hrun, hl', hr⟩ := h l hl
  cases r with
  | error e => exact ⟨_, l', exec_bind_of_error hrun, hl', herror e hr⟩
  | ok x =>
    obtain ⟨r', l'', hrun', hl'', hr'⟩ := hok x hr l' hl'
    exact ⟨r', l'', (exec_bind_of_ok hrun).trans hrun', hl'', hr'⟩

theorem Keeps.bind_of_ok {f : α → Loading β} {outcome' : Except Failure β → Prop} {told : α → Prop}
    (h : Keeps kind w a fun r => ∃ x, r = .ok x ∧ told x) (hf : ∀ x, told x → Keeps kind w (f x) outcome') :
    Keeps kind w (a >>= f) outcome' := by
  refine h.bind ?_ ?_
  · rintro x ⟨x', hx, htold⟩
    obtain rfl := Except.ok.inj hx
    exact hf x htold
  · rintro e ⟨x, hx, -⟩
    cases hx

theorem Keeps.bind_of_eq {f : α → Loading β} {outcome' : Except Failure β → Prop} {x : α}
    (h : Keeps kind w a (· = .ok x)) (hf : Keeps kind w (f x) outcome') : Keeps kind w (a >>= f) outcome' := by
  refine h.bind ?_ nofun
  rintro _ ⟨⟩
  exact hf

theorem Keeps.attempt (h : Keeps kind w a outcome) :
    Keeps kind w (attempt a) fun r => ∃ found, r = .ok found ∧ outcome found := by
  intro l hl
  obtain ⟨r, l', hrun, hl', hr⟩ := h l hl
  exact ⟨_, l', exec_attempt hrun, hl', r, rfl, hr⟩

/-- Readers that never fail are all run, one after another. -/
theorem keeps_filterMapM {f : α → Loading (Option β)} {told : α → Option β → Prop} (xs : List α)
    (h : ∀ x ∈ xs, Keeps kind w (f x) fun r => ∃ o, r = .ok o ∧ told x o) :
    Keeps kind w (xs.filterMapM f) fun r => ∃ ys, r = .ok ys ∧ ∃ os, List.Forall₂ told xs os ∧ ys = os.filterMap id := by
  induction xs with
  | nil => exact keeps_pure ⟨[], rfl, [], .nil, rfl⟩
  | cons x xs ih =>
    rw [List.filterMapM_cons]
    have hrest := ih fun x' hx' => h x' (List.mem_cons_of_mem _ hx')
    refine (h x List.mem_cons_self).bind_of_ok fun o htold => ?_
    cases o with
    | none =>
      refine hrest.mono ?_
      rintro r ⟨ys, rfl, os, hall, rfl⟩
      exact ⟨_, rfl, none :: os, .cons htold hall, rfl⟩
    | some y =>
      refine hrest.bind_of_ok ?_
      rintro _ ⟨os, hall, rfl⟩
      exact keeps_pure ⟨_, rfl, some y :: os, .cons htold hall, rfl⟩

end Loading

/-! ## Loaders -/

namespace Loader

variable {l : Loader} {w : Workspace} {id : String}

/-- What a loader takes for the core index: what it knows of it, or else what is there. -/
def coreFrom (l : Loader) (w : Workspace) : Except Failure CoreIndex :=
  match l.known with
  | some core => .ok core
  | none => (l.store.readCore.exec w).1

/-- The loader that has asked for the core index. -/
def informed (l : Loader) (w : Workspace) : Loader := { l with known := (l.coreFrom w).toOption }

theorem exec_core (l : Loader) (w : Workspace) : Loader.core.exec l w = ((l.coreFrom w, l.informed w), w) := by
  unfold Loader.core
  rw [Loading.exec_bind_of_ok (Loading.exec_get l w)]
  cases hknown : l.known with
  | some core =>
    have hinformed : l.informed w = l := by
      obtain ⟨s, known, kept⟩ := l
      cases hknown
      rfl
    rw [hinformed, coreFrom, hknown]
    rfl
  | none =>
    dsimp only
    have hread := l.store.reads_readCore w
    rw [Loading.exec_bind_of_ok (Loading.exec_get l w)]
    cases hcore : (l.store.readCore.exec w).1 with
    | error f =>
      have hinformed : l.informed w = l := by
        obtain ⟨s, known, kept⟩ := l
        cases hknown
        rw [informed, coreFrom]
        dsimp only at hcore ⊢
        rw [hcore]
        rfl
      rw [hcore] at hread
      rw [Loading.exec_bind_of_error (Loading.exec_lift hread l), hinformed, coreFrom, hknown]
      dsimp only
      rw [hcore]
    | ok core =>
      rw [hcore] at hread
      rw [Loading.exec_bind_of_ok (Loading.exec_lift hread l), informed, coreFrom, hknown]
      dsimp only
      rw [hcore]
      rfl

/-- What is said to the bytes of a shard, by what is taken for the core index. -/
def verdict (core : Except Failure CoreIndex) (id : String) (bytes : ByteArray) : Except Failure Unit :=
  match core with
  | .ok core => (check core id bytes).mapError Failure.ofFault
  | .error f => if isMissingIndex f then .ok () else .error f

theorem exec_verify (l : Loader) (id : String) (bytes : ByteArray) (w : Workspace) :
    (verify id bytes).exec l w = ((verdict (l.coreFrom w) id bytes, l.informed w), w) := by
  unfold verify
  rw [Loading.exec_bind_of_ok (Loading.exec_attempt (exec_core l w))]
  cases hcore : l.coreFrom w with
  | ok core =>
    dsimp only [verdict]
    cases check core id bytes <;> rfl
  | error f =>
    dsimp only [verdict]
    cases isMissingIndex f <;> rfl

/-- The shard in some bytes. -/
def shardOf (core : Except Failure CoreIndex) (id : String) (bytes : ByteArray) : Except Failure Shard :=
  match value id bytes with
  | .error f => .error (.ofFault f)
  | .ok j =>
    match verdict core id bytes with
    | .error f => .error f
    | .ok () =>
      match Shard.ofJson? j with
      | none => .error (.ofFault (.malformed (Store.shardName id) "unexpected contents"))
      | some shard => .ok shard

/-- What comes of reading a shard's file. -/
def shardFrom (core : Except Failure CoreIndex) (s : Store) (id : String) (w : Workspace) : Except Failure Shard :=
  match ((s.shardBytes? id).exec w).1 with
  | .error f => .error f
  | .ok none => .error (.ofFault (.notFound "module" id))
  | .ok (some bytes) => shardOf core id bytes

theorem shardFrom_of_bytes {s : Store} {bytes : ByteArray} (h : ((s.shardBytes? id).exec w).1 = .ok (some bytes))
    (core : Except Failure CoreIndex) : shardFrom core s id w = shardOf core id bytes := by
  unfold shardFrom
  rw [h]

/-- A shard that was read is kept; where reading fails, at most the core index becomes known. -/
theorem exec_readShard (l : Loader) (id : String) (w : Workspace) :
    (∃ shard, shardFrom (l.coreFrom w) l.store id w = .ok shard ∧
      (readShard id).exec l w = ((.ok shard, { l.informed w with kept := l.kept.insert id shard }), w)) ∨
    ∃ f l', shardFrom (l.coreFrom w) l.store id w = .error f ∧ (l' = l ∨ l' = l.informed w) ∧
      (readShard id).exec l w = ((.error f, l'), w) := by
  have hread := l.store.reads_shardBytes? id w
  unfold readShard shardFrom
  rw [Loading.exec_bind_of_ok (Loading.exec_get l w)]
  cases hbytes : ((l.store.shardBytes? id).exec w).1 with
  | error f =>
    rw [hbytes] at hread
    exact .inr ⟨f, l, rfl, .inl rfl, Loading.exec_bind_of_error (Loading.exec_lift hread l)⟩
  | ok found =>
    rw [hbytes] at hread
    rw [Loading.exec_bind_of_ok (Loading.exec_lift hread l)]
    cases found with
    | none => exact .inr ⟨_, l, rfl, .inl rfl, rfl⟩
    | some bytes =>
      dsimp only [shardOf]
      cases value id bytes with
      | error f => exact .inr ⟨_, l, rfl, .inl rfl, rfl⟩
      | ok j =>
        dsimp only
        have hverify := exec_verify l id bytes w
        cases hverdict : verdict (l.coreFrom w) id bytes with
        | error f =>
          rw [hverdict] at hverify
          exact .inr ⟨f, _, rfl, .inr rfl, Loading.exec_bind_of_error hverify⟩
        | ok u =>
          rw [hverdict] at hverify
          rw [Loading.exec_bind_of_ok hverify]
          dsimp only
          cases Shard.ofJson? j with
          | none => exact .inr ⟨_, _, rfl, .inr rfl, rfl⟩
          | some shard => exact .inl ⟨shard, rfl, rfl⟩

/-- What a loader makes of a module. -/
def shardFor (l : Loader) (id : String) (w : Workspace) : Except Failure Shard :=
  if !ModuleId.isValid id then .error (.ofFault (.invalidName id))
  else
    match l.kept.get? id with
    | some shard => .ok shard
    | none => shardFrom (l.coreFrom w) l.store id w

theorem shardFor_of_not_kept (hvalid : ModuleId.isValid id = true) (hkept : l.kept.get? id = none) (w : Workspace) :
    l.shardFor id w = shardFrom (l.coreFrom w) l.store id w := by
  simp [shardFor, hvalid, hkept]

theorem shardFor_of_kept {shard : Shard} (hvalid : ModuleId.isValid id = true) (hkept : l.kept.get? id = some shard)
    (w : Workspace) : l.shardFor id w = .ok shard := by
  simp [shardFor, hvalid, hkept]

/-- A loader after it was asked for a module: the core index may have become known, and the shard is kept if there was
    one. -/
structure Asked (l : Loader) (id : String) (w : Workspace) (l' : Loader) : Prop where
  store : l'.store = l.store
  known : l'.known = l.known ∨ l'.known = (l.coreFrom w).toOption
  kept : l'.kept = (l.shardFor id w).toOption.elim l.kept (l.kept.insert id)

theorem exec_shard (l : Loader) (id : String) (w : Workspace) :
    ∃ l', (Loader.shard id).exec l w = ((l.shardFor id w, l'), w) ∧ l.Asked id w l' := by
  unfold Loader.shard
  cases hvalid : ModuleId.isValid id with
  | false =>
    have hfor : l.shardFor id w = .error (.ofFault (.invalidName id)) := by simp [shardFor, hvalid]
    exact ⟨l, by rw [hfor]; rfl, rfl, .inl rfl, by rw [hfor]; rfl⟩
  | true =>
    simp only [Bool.not_true, Bool.false_eq_true, if_false]
    rw [Loading.exec_bind_of_ok (Loading.exec_get l w)]
    cases hkept : l.kept.get? id with
    | some shard =>
      have hfor := shardFor_of_kept hvalid hkept w
      refine ⟨l, by rw [hfor]; rfl, rfl, .inl rfl, ?_⟩
      rw [hfor]
      exact (Dict.insert_of_get? hkept).symm
    | none =>
      have hfor := shardFor_of_not_kept hvalid hkept w
      dsimp only
      rcases exec_readShard l id w with ⟨shard, hfrom, hrun⟩ | ⟨f, l', hfrom, hl', hrun⟩
      · exact ⟨{ l.informed w with kept := l.kept.insert id shard }, by rw [hrun, hfor, hfrom], rfl, .inr rfl,
          by rw [hfor, hfrom]; rfl⟩
      · refine ⟨l', by rw [hrun, hfor, hfrom], ?_⟩
        rcases hl' with rfl | rfl
        · exact ⟨rfl, .inl rfl, by rw [hfor, hfrom]; rfl⟩
        · exact ⟨rfl, .inr rfl, by rw [hfor, hfrom]; rfl⟩

/-- What a loader keeps afterwards it kept before, or it is what was asked for. -/
theorem Asked.get?_kept {l' : Loader} (h : l.Asked id w l') {other : String} {shard : Shard}
    (hget : l'.kept.get? other = some shard) :
    l.kept.get? other = some shard ∨ other = id ∧ l.shardFor id w = .ok shard := by
  rw [h.kept] at hget
  cases hfor : l.shardFor id w with
  | error f =>
    rw [hfor] at hget
    exact .inl hget
  | ok found =>
    rw [hfor] at hget
    change (l.kept.insert id found).get? other = _ at hget
    rw [Dict.get?_insert] at hget
    split at hget
    · next heq =>
      cases hget
      exact .inr ⟨heq.symm, rfl⟩
    · exact .inl hget

end Loader

end CodeIndex
