import CodeIndex.Workspace

set_option autoImplicit false

/-!
# Running actions

`exec` runs an action from a workspace; every combinator has one equation.  An action that only looks leaves
everything but the record of questions as it is, and what it finds does not depend on that record.
-/

namespace CodeIndex

namespace Action

variable {α β : Type}

/-- What an action comes to, and what it leaves behind. -/
def exec (a : Action α) (w : Workspace) : Except Failure α × Workspace := (a.run.run w).run

/-- Whether a run ended well, with a result and a workspace that pass a test. -/
def endsOk (test : α → Workspace → Bool) (r : Except Failure α × Workspace) : Bool :=
  r.1.toOption.any (test · r.2)

theorem endsOk_iff {test : α → Workspace → Bool} {r : Except Failure α × Workspace} :
    endsOk test r = true ↔ ∃ x w, r = (.ok x, w) ∧ test x w = true := by
  rcases r with ⟨e | x, w⟩
  · simp [endsOk, Except.toOption]
  · simp [endsOk, Except.toOption, and_assoc]

/-- Whether a run failed, with a workspace that passes a test. -/
def endsFailed (test : Workspace → Bool) (r : Except Failure α × Workspace) : Bool := !r.1.isOk && test r.2

theorem endsFailed_iff {test : Workspace → Bool} {r : Except Failure α × Workspace} :
    endsFailed test r = true ↔ ∃ f w, r = (.error f, w) ∧ test w = true := by
  rcases r with ⟨e | x, w⟩
  · simp [endsFailed, Except.isOk, Except.toBool, and_assoc]
  · simp [endsFailed, Except.isOk, Except.toBool]

@[simp] theorem exec_pure (x : α) (w : Workspace) : (pure x : Action α).exec w = (.ok x, w) := rfl

theorem exec_bind (a : Action α) (f : α → Action β) (w : Workspace) :
    (a >>= f).exec w = match a.exec w with
      | (.ok x, w') => (f x).exec w'
      | (.error e, w') => (.error e, w') := by
  change (ExceptT.bindCont f (a.run.run w).1).run (a.run.run w).2 = _
  unfold exec
  rcases a.run.run w with ⟨_ | _, _⟩ <;> rfl

theorem exec_bind_of_ok {a : Action α} {f : α → Action β} {w w' : Workspace} {x : α}
    (h : a.exec w = (.ok x, w')) : (a >>= f).exec w = (f x).exec w' := by
  rw [exec_bind, h]

theorem exec_bind_of_error {a : Action α} {f : α → Action β} {w w' : Workspace} {e : Failure}
    (h : a.exec w = (.error e, w')) : (a >>= f).exec w = (.error e, w') := by
  rw [exec_bind, h]

/-- An action that ended well took all its steps. -/
theorem ok_of_exec_bind {a : Action α} {f : α → Action β} {w w' : Workspace} {y : β}
    (h : (a >>= f).exec w = (.ok y, w')) : ∃ x w₁, a.exec w = (.ok x, w₁) ∧ (f x).exec w₁ = (.ok y, w') := by
  rw [exec_bind] at h
  rcases ha : a.exec w with ⟨e | x, w₁⟩
  · rw [ha] at h
    cases h
  · rw [ha] at h
    exact ⟨x, w₁, rfl, h⟩

@[simp] theorem exec_map (f : α → β) (a : Action α) (w : Workspace) :
    (f <$> a).exec w = ((a.exec w).1.map f, (a.exec w).2) := by
  rw [map_eq_pure_bind, exec_bind]
  rcases a.exec w with ⟨_ | _, _⟩ <;> rfl

@[simp] theorem exec_throw (f : Failure) (w : Workspace) : (throw f : Action α).exec w = (.error f, w) := rfl

@[simp] theorem exec_get (w : Workspace) : (get : Action Workspace).exec w = (.ok w, w) := rfl

@[simp] theorem exec_set (v w : Workspace) : (set v : Action PUnit).exec w = (.ok ⟨⟩, v) := rfl

@[simp] theorem exec_modify (f : Workspace → Workspace) (w : Workspace) :
    (modify f : Action PUnit).exec w = (.ok ⟨⟩, f w) := rfl

@[simp] theorem exec_locate (path : String) (w : Workspace) : (locate path).exec w = (.ok (w.here.resolve path), w) :=
  rfl

@[simp] theorem exec_look (f : Disk → α) (w : Workspace) : (look f).exec w = (.ok (f w.disk), w) := rfl

@[simp] theorem exec_tryChange (c : Disk.Change α) (w : Workspace) :
    (tryChange c).exec w = (.ok (c.run w.disk).1, { w with disk := (c.run w.disk).2 }) := rfl

@[simp] theorem exec_failWith (f : Fault) (w : Workspace) :
    (failWith f : Action α).exec w = (.error (Failure.ofFault f), w) := rfl

@[simp] theorem exec_orStorage_ok (path : String) (x : α) (w : Workspace) :
    (orStorage path (.ok x)).exec w = (.ok x, w) := rfl

@[simp] theorem exec_orStorage_error (path : String) (e : DiskError) (w : Workspace) :
    (orStorage path (.error e) : Action α).exec w = (.error (Failure.ofFault (.storage path e.reason)), w) := rfl

theorem exec_tryCatch (a : Action α) (handler : Failure → Action α) (w : Workspace) :
    (tryCatch a handler).exec w = match a.exec w with
      | (.ok x, w') => (.ok x, w')
      | (.error f, w') => (handler f).exec w' := by
  unfold exec
  simp only [tryCatch, tryCatchThe, MonadExceptOf.tryCatch, ExceptT.tryCatch, ExceptT.run_mk, StateT.run_bind]
  change Id.run ((a.run.run w : Id (Except Failure α × Workspace)) >>= _) = _
  rcases a.run.run w with ⟨_ | _, _⟩ <;> rfl

theorem exec_during (activity : String) (a : Action α) (w : Workspace) :
    (during activity a).exec w = match a.exec w with
      | (.ok x, w') => (.ok x, w')
      | (.error f, w') => (.error (f.within activity), w') := by
  unfold during
  rw [exec_tryCatch]
  rcases a.exec w with ⟨_ | _, _⟩ <;> rfl

theorem ok_of_exec_during {activity : String} {a : Action α} {w w' : Workspace} {x : α}
    (h : (during activity a).exec w = (.ok x, w')) : a.exec w = (.ok x, w') := by
  rw [exec_during] at h
  rcases ha : a.exec w with ⟨e | y, w₁⟩
  · rw [ha] at h
    cases h
  · rw [ha] at h
    exact h

/-- An attempt fails only with sources that cannot be scanned. -/
theorem exec_attempt (a : Action α) (w : Workspace) :
    (attempt a).exec w = match a.exec w with
      | (.ok x, w') => (.ok (.ok x), w')
      | (.error f, w') => if f.cause = .unscannable then (.error f, w') else (.ok (.error f), w') := by
  unfold attempt
  rw [exec_tryCatch, exec_map]
  rcases a.exec w with ⟨_ | _, _⟩
  · simp only [Except.map]
    split <;> rfl
  · rfl

/-- Something is put back, or it is noted that it is not. -/
theorem exec_orNote {a : Action Unit} {w : Workspace} (what : String)
    (h : ∀ f w', a.exec w = (.error f, w') → w'.unrestored = w.unrestored ∧ f.cause ≠ .unscannable) :
    ∃ w', (orNote what a).exec w = (.ok (), w') ∧ (a.exec w = (.ok (), w') ∨ w'.unrestored = w.unrestored ++ [what]) := by
  unfold orNote
  rcases ha : a.exec w with ⟨f | u, w₁⟩
  · obtain ⟨hunrestored, hcause⟩ := h f w₁ ha
    have hattempt : (attempt a).exec w = (.ok (.error f), w₁) := by
      rw [exec_attempt, ha]
      exact if_neg hcause
    refine ⟨_, exec_bind_of_ok hattempt, .inr ?_⟩
    rw [← hunrestored]
  · have hattempt : (attempt a).exec w = (.ok (.ok u), w₁) := by
      rw [exec_attempt, ha]
    exact ⟨w₁, exec_bind_of_ok hattempt, .inl rfl⟩

/-! ## Actions that leave everything as it is -/

/-- Nothing changes, and what comes of it is `r`. -/
def Answers (a : Action α) (w : Workspace) (r : Except Failure α) : Prop := a.exec w = (r, w)

theorem Answers.bind {a : Action α} {f : α → Action β} {w : Workspace} {r : Except Failure α}
    {s : α → Except Failure β} (ha : a.Answers w r) (hf : ∀ x, r = .ok x → (f x).Answers w (s x)) :
    (a >>= f).Answers w (r >>= s) := by
  unfold Answers at *
  rw [exec_bind, ha]
  cases r with
  | error e => rfl
  | ok x => exact hf x rfl

variable {w : Workspace}

theorem exec_mapM {f : α → Action β} {r : α → Except Failure β} {xs : List α}
    (h : ∀ x ∈ xs, (f x).exec w = (r x, w)) : (xs.mapM f).exec w = (xs.mapM r, w) := by
  induction xs with
  | nil => rfl
  | cons x xs ih =>
    rw [List.mapM_cons, List.mapM_cons, exec_bind, h x List.mem_cons_self]
    cases r x with
    | error e => rfl
    | ok y =>
      have hrest := ih fun x' hx' => h x' (List.mem_cons_of_mem _ hx')
      change ((xs.mapM f) >>= fun ys => pure (y :: ys)).exec w = _
      rw [exec_bind, hrest]
      cases List.mapM r xs <;> rfl

theorem exec_filterMapM {f : α → Action (Option β)} {r : α → Except Failure (Option β)} {xs : List α}
    (h : ∀ x ∈ xs, (f x).exec w = (r x, w)) : (xs.filterMapM f).exec w = (xs.filterMapM r, w) := by
  induction xs with
  | nil => rfl
  | cons x xs ih =>
    have hrest := ih fun x' hx' => h x' (List.mem_cons_of_mem _ hx')
    rw [List.filterMapM_cons, List.filterMapM_cons, exec_bind, h x List.mem_cons_self]
    cases r x with
    | error e => rfl
    | ok y =>
      cases y with
      | none => exact hrest
      | some y =>
        change ((xs.filterMapM f) >>= fun ys => pure (y :: ys)).exec w = _
        rw [exec_bind, hrest]
        cases List.filterMapM r xs <;> rfl

theorem exec_foldlM {f : β → α → Action β} {g : β → α → β} {xs : List α} (start : β)
    (h : ∀ b, ∀ x ∈ xs, (f b x).exec w = (.ok (g b x), w)) :
    (xs.foldlM f start).exec w = (.ok (xs.foldl g start), w) := by
  induction xs generalizing start with
  | nil => rfl
  | cons x xs ih =>
    rw [List.foldlM_cons, exec_bind, h start x List.mem_cons_self]
    exact ih (g start x) fun b x' hx' => h b x' (List.mem_cons_of_mem _ hx')

theorem exec_filterAuxM {p : α → Action Bool} {q : α → Bool} {xs : List α} (kept : List α)
    (h : ∀ x ∈ xs, (p x).exec w = (.ok (q x), w)) :
    (List.filterAuxM p xs kept).exec w = (.ok ((xs.filter q).reverse ++ kept), w) := by
  induction xs generalizing kept with
  | nil => rfl
  | cons x xs ih =>
    rw [List.filterAuxM, exec_bind, h x List.mem_cons_self]
    change (List.filterAuxM p xs _).exec w = _
    rw [ih _ fun x' hx' => h x' (List.mem_cons_of_mem _ hx')]
    cases hq : q x <;> simp [hq]

theorem exec_filterM {p : α → Action Bool} {q : α → Bool} {xs : List α}
    (h : ∀ x ∈ xs, (p x).exec w = (.ok (q x), w)) : (xs.filterM p).exec w = (.ok (xs.filter q), w) := by
  rw [List.filterM, exec_bind, exec_filterAuxM [] h]
  simp

end Action

/-- The same workspace, except for what was asked. -/
def Workspace.Alike (w w' : Workspace) : Prop := ∃ asked, w' = { w with asked := asked }

namespace Workspace.Alike

theorem refl (w : Workspace) : w.Alike w := ⟨w.asked, rfl⟩

variable {w w' w'' : Workspace}

theorem symm (h : w.Alike w') : w'.Alike w := by
  obtain ⟨asked, rfl⟩ := h
  exact ⟨w.asked, rfl⟩

theorem trans (h : w.Alike w') (h' : w'.Alike w'') : w.Alike w'' := by
  obtain ⟨asked, rfl⟩ := h
  obtain ⟨asked', rfl⟩ := h'
  exact ⟨asked', rfl⟩

theorem disk_eq (h : w.Alike w') : w'.disk = w.disk := by
  obtain ⟨_, rfl⟩ := h
  rfl

theorem here_eq (h : w.Alike w') : w'.here = w.here := by
  obtain ⟨_, rfl⟩ := h
  rfl

theorem history_eq (h : w.Alike w') : w'.history = w.history := by
  obtain ⟨_, rfl⟩ := h
  rfl

theorem now_eq (h : w.Alike w') : w'.now = w.now := by
  obtain ⟨_, rfl⟩ := h
  rfl

theorem unrestored_eq (h : w.Alike w') : w'.unrestored = w.unrestored := by
  obtain ⟨_, rfl⟩ := h
  rfl

end Workspace.Alike

namespace Action

variable {α β : Type}

/-- Nothing changes but the record of questions, on which the result does not depend. -/
structure Looks (a : Action α) : Prop where
  keeps : ∀ w : Workspace, w.Alike (a.exec w).2
  congr : ∀ {w w' : Workspace}, w.Alike w' → (a.exec w').1 = (a.exec w).1

theorem Looks.exec_eq {a : Action α} (h : a.Looks) {w w' : Workspace} (hw : w.Alike w') {r : Except Failure α}
    (hr : (a.exec w).1 = r) : ∃ w'', a.exec w' = (r, w'') ∧ w.Alike w'' :=
  ⟨(a.exec w').2, by rw [← hr, ← h.congr hw], hw.trans (h.keeps w')⟩

theorem looks_pure (x : α) : (pure x : Action α).Looks := ⟨Workspace.Alike.refl, fun _ => rfl⟩

theorem looks_throw (f : Failure) : (throw f : Action α).Looks := ⟨Workspace.Alike.refl, fun _ => rfl⟩

theorem looks_failWith (f : Fault) : (failWith f : Action α).Looks := looks_throw _

theorem looks_locate (path : String) : (locate path).Looks := by
  refine ⟨Workspace.Alike.refl, ?_⟩
  intro w w' h
  rw [exec_locate, exec_locate, h.here_eq]

theorem looks_look (f : Disk → α) : (look f).Looks := by
  refine ⟨Workspace.Alike.refl, ?_⟩
  intro w w' h
  rw [exec_look, exec_look, h.disk_eq]

theorem looks_orStorage (path : String) (r : Except DiskError α) : (orStorage path r).Looks := by
  cases r with
  | error e => exact looks_throw _
  | ok x => exact looks_pure x

theorem Looks.bind {a : Action α} {f : α → Action β} (ha : a.Looks) (hf : ∀ x, (f x).Looks) : (a >>= f).Looks := by
  constructor
  · intro w
    have h := ha.keeps w
    rw [exec_bind]
    generalize a.exec w = p at h ⊢
    obtain ⟨e | x, w'⟩ := p
    · exact h
    · exact h.trans ((hf x).keeps w')
  · intro w w' hw
    have hres := ha.congr hw
    have h := ha.keeps w
    have h' := ha.keeps w'
    rw [exec_bind, exec_bind]
    generalize a.exec w = p at hres h ⊢
    generalize a.exec w' = p' at hres h' ⊢
    obtain ⟨r, v⟩ := p
    obtain ⟨r', v'⟩ := p'
    obtain rfl : r' = r := hres
    cases r' with
    | error e => rfl
    | ok x => exact (hf x).congr ((h.symm.trans hw).trans h')

/-- After something that looks, either it failed itself or what comes after it goes on with the same. -/
theorem Looks.bind_cases {a : Action α} {k : α → Action β} (ha : a.Looks) {w w' : Workspace} {r : Except Failure β}
    (h : (a >>= k).exec w = (r, w')) :
    (∃ f, r = .error f ∧ a.exec w = (.error f, w') ∧ w.Alike w') ∨
      ∃ x w₁, a.exec w = (.ok x, w₁) ∧ w.Alike w₁ ∧ (k x).exec w₁ = (r, w') := by
  have hkeeps := ha.keeps w
  rw [exec_bind] at h
  rcases hx : a.exec w with ⟨f | x, w₁⟩
  · rw [hx] at h hkeeps
    cases h
    exact .inl ⟨f, rfl, rfl, hkeeps⟩
  · rw [hx] at h hkeeps
    exact .inr ⟨x, w₁, rfl, hkeeps, h⟩

theorem Looks.bind_ok {a : Action α} {k : α → Action β} (ha : a.Looks) {w w' : Workspace} {y : β}
    (h : (a >>= k).exec w = (.ok y, w')) :
    ∃ x w₁, a.exec w = (.ok x, w₁) ∧ w.Alike w₁ ∧ (k x).exec w₁ = (.ok y, w') :=
  (ha.bind_cases h).resolve_left fun ⟨_, hr, _⟩ => (nomatch hr)

theorem Looks.tryCatch {a : Action α} {handler : Failure → Action α} (ha : a.Looks) (hh : ∀ f, (handler f).Looks) :
    (tryCatch a handler).Looks := by
  constructor
  · intro w
    have h := ha.keeps w
    rw [exec_tryCatch]
    generalize a.exec w = p at h ⊢
    obtain ⟨e | x, w'⟩ := p
    · exact h.trans ((hh e).keeps w')
    · exact h
  · intro w w' hw
    have hres := ha.congr hw
    have h := ha.keeps w
    have h' := ha.keeps w'
    rw [exec_tryCatch, exec_tryCatch]
    generalize a.exec w = p at hres h ⊢
    generalize a.exec w' = p' at hres h' ⊢
    obtain ⟨r, v⟩ := p
    obtain ⟨r', v'⟩ := p'
    obtain rfl : r' = r := hres
    cases r' with
    | error e => exact (hh e).congr ((h.symm.trans hw).trans h')
    | ok x => rfl

theorem Looks.map {a : Action α} (ha : a.Looks) (f : α → β) : (f <$> a).Looks := by
  rw [map_eq_pure_bind]
  exact ha.bind fun x => looks_pure _

theorem Looks.during {a : Action α} (ha : a.Looks) (activity : String) : (during activity a).Looks :=
  ha.tryCatch fun _ => looks_throw _

theorem Looks.attempt {a : Action α} (ha : a.Looks) : (attempt a).Looks := by
  refine (ha.map _).tryCatch fun f => ?_
  split
  · exact looks_throw f
  · exact looks_pure _

/-- What is made of an answer of the version-control tool. -/
def answered (timeout : Nat) (q : HistoryQuery) : HistoryAnswer → Except Failure String
  | .missing => .error ⟨["Failed to execute " ++ q.command], .other DiskError.absent.reason⟩
  | .hung => .error (Failure.other (q.command ++ " timed out after " ++ History.timeText timeout))
  | .failed complaint => .error (Failure.other (q.command ++ " failed: " ++ Text.on Text.trim (Text.lossy complaint)))
  | .output bytes =>
    match String.fromUTF8? bytes with
    | some s => .ok s
    | none => .error ⟨["Invalid UTF-8 in git output"], .other "invalid UTF-8"⟩

theorem exec_ask (timeout : Nat) (q : HistoryQuery) (w : Workspace) :
    ∃ asked, (ask timeout q).exec w = (answered timeout q (w.history q), { w with asked := asked }) := by
  unfold ask
  rw [exec_bind, exec_get]
  dsimp only
  cases w.history q with
  | missing => exact ⟨w.asked, rfl⟩
  | hung => exact ⟨w.asked ++ [q], rfl⟩
  | failed complaint => exact ⟨w.asked ++ [q], rfl⟩
  | output bytes =>
    refine ⟨w.asked ++ [q], ?_⟩
    dsimp only [answered]
    cases String.fromUTF8? bytes <;> rfl

theorem looks_ask (timeout : Nat) (q : HistoryQuery) : (ask timeout q).Looks := by
  constructor
  · intro w
    obtain ⟨asked, h⟩ := exec_ask timeout q w
    rw [h]
    exact ⟨asked, rfl⟩
  · intro w w' hw
    obtain ⟨asked, h⟩ := exec_ask timeout q w
    obtain ⟨asked', h'⟩ := exec_ask timeout q w'
    rw [h, h', hw.history_eq]

theorem looks_mapM {f : α → Action β} (h : ∀ x, (f x).Looks) (xs : List α) : (xs.mapM f).Looks := by
  induction xs with
  | nil => exact looks_pure _
  | cons x xs ih =>
    rw [List.mapM_cons]
    exact (h x).bind fun y => ih.bind fun ys => looks_pure _

/-- When every result is there, every single one is. -/
theorem mapM_ok {f : α → Action β} (hf : ∀ x, (f x).Looks) {xs : List α} {w w' : Workspace} {ys : List β}
    (h : (xs.mapM f).exec w = (.ok ys, w')) : ∀ x ∈ xs, ∃ y, ((f x).exec w).1 = .ok y := by
  induction xs generalizing w w' ys with
  | nil => simp
  | cons x xs ih =>
    rw [List.mapM_cons] at h
    obtain ⟨y, w₁, hy, hw, hrest⟩ := (hf x).bind_ok h
    obtain ⟨ys', w₂, hys, -, -⟩ := (looks_mapM hf xs).bind_ok hrest
    rw [List.forall_mem_cons]
    refine ⟨⟨y, congrArg Prod.fst hy⟩, fun x' hx' => ?_⟩
    obtain ⟨y', hy'⟩ := ih hys x' hx'
    exact ⟨y', ((hf x').congr hw).symm.trans hy'⟩

theorem looks_filterMapM {f : α → Action (Option β)} (h : ∀ x, (f x).Looks) (xs : List α) :
    (xs.filterMapM f).Looks := by
  induction xs with
  | nil => exact looks_pure _
  | cons x xs ih =>
    rw [List.filterMapM_cons]
    refine (h x).bind fun y => ?_
    cases y with
    | none => exact ih
    | some y => exact ih.bind fun ys => looks_pure _

theorem looks_foldlM {f : β → α → Action β} (h : ∀ b x, (f b x).Looks) (xs : List α) (start : β) :
    (xs.foldlM f start).Looks := by
  induction xs generalizing start with
  | nil => exact looks_pure _
  | cons x xs ih =>
    rw [List.foldlM_cons]
    exact (h start x).bind ih

theorem looks_filterM {p : α → Action Bool} (h : ∀ x, (p x).Looks) (xs : List α) : (xs.filterM p).Looks := by
  have haux : ∀ (xs kept : List α), (List.filterAuxM p xs kept).Looks := by
    intro xs
    induction xs with
    | nil => exact fun kept => looks_pure _
    | cons x xs ih => exact fun kept => (h x).bind fun b => ih _
  exact (haux xs []).bind fun kept => looks_pure _

end Action

end CodeIndex
