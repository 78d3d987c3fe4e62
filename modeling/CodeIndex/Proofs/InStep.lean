import CodeIndex.Proofs.Documents

set_option autoImplicit false

/-!
# Two runs in step

Two actions are in step when, started from related workspaces, they come to the same and leave related workspaces
behind.  Every combinator keeps this, so it only has to be shown of what looks at the disk or changes it
(`Action.InStep`).  A relation of use is that two disks are the same but for the contents of some files
(`Disk.SameBut`): what does not look into these files cannot tell the disks apart.
-/

namespace CodeIndex

open Action

/-! ## Actions -/

namespace Action

variable {α β γ : Type} {P : Workspace → Workspace → Prop} {Q : Except Failure α → Workspace → Workspace → Prop}

/-- From related workspaces two actions come to the same, and how the workspaces are related that they leave behind may
    depend on what they come to. -/
def Paired (P : Workspace → Workspace → Prop) (Q : Except Failure α → Workspace → Workspace → Prop) (a b : Action α) :
    Prop :=
  ∀ w v, P w v → (b.exec v).1 = (a.exec w).1 ∧ Q (a.exec w).1 (a.exec w).2 (b.exec v).2

/-- From related workspaces two actions come to the same, and leave related workspaces behind. -/
def InStep (P : Workspace → Workspace → Prop) (a b : Action α) : Prop := Paired P (fun _ => P) a b

theorem Paired.outcome {a b : Action α} (h : Paired P Q a b) {w v : Workspace} (hwv : P w v) :
    ∃ r w' v', a.exec w = (r, w') ∧ b.exec v = (r, v') ∧ Q r w' v' := by
  obtain ⟨hresult, hleft⟩ := h w v hwv
  exact ⟨(a.exec w).1, (a.exec w).2, (b.exec v).2, rfl, Prod.ext hresult rfl, hleft⟩

/-- What is known of the outcome of the first part may be used for the second. -/
theorem Paired.bind_of_ok {R : Except Failure β → Workspace → Workspace → Prop} {a b : Action α} {k l : α → Action β}
    (h : Paired P Q a b) (herror : ∀ f w v, Q (.error f) w v → R (.error f) w v) (φ : α → Prop)
    (hφ : ∀ {w x w'}, a.exec w = (.ok x, w') → φ x) (hk : ∀ x, φ x → Paired (Q (.ok x)) R (k x) (l x)) :
    Paired P R (a >>= k) (b >>= l) := by
  intro w v hwv
  obtain ⟨r, w₁, v₁, hw, hv, hleft⟩ := h.outcome hwv
  rw [exec_bind, exec_bind, hw, hv]
  cases r with
  | error f => exact ⟨rfl, herror f w₁ v₁ hleft⟩
  | ok x => exact hk x (hφ hw) w₁ v₁ hleft

theorem Paired.bind {R : Except Failure β → Workspace → Workspace → Prop} {a b : Action α} {k l : α → Action β}
    (h : Paired P Q a b) (herror : ∀ f w v, Q (.error f) w v → R (.error f) w v)
    (hk : ∀ x, Paired (Q (.ok x)) R (k x) (l x)) : Paired P R (a >>= k) (b >>= l) :=
  h.bind_of_ok herror (fun _ => True) (fun _ => trivial) fun x _ => hk x

theorem Paired.mono {P' : Workspace → Workspace → Prop} {Q' : Except Failure α → Workspace → Workspace → Prop}
    {a b : Action α} (h : Paired P Q a b) (hP : ∀ w v, P' w v → P w v) (hQ : ∀ r w v, Q r w v → Q' r w v) :
    Paired P' Q' a b :=
  fun w v hwv => ⟨(h w v (hP w v hwv)).1, hQ _ _ _ (h w v (hP w v hwv)).2⟩

theorem inStep_pure (x : α) : InStep P (pure x) (pure x) := fun _ _ h => ⟨rfl, h⟩

theorem inStep_throw (f : Failure) : InStep P (throw f : Action α) (throw f) := fun _ _ h => ⟨rfl, h⟩

theorem inStep_failWith (f : Fault) : InStep P (failWith f : Action α) (failWith f) := inStep_throw _

theorem InStep.bind {a b : Action α} {k l : α → Action β} (h : InStep P a b) (hk : ∀ x, InStep P (k x) (l x)) :
    InStep P (a >>= k) (b >>= l) :=
  Paired.bind h (fun _ _ _ => id) hk

theorem InStep.during {a b : Action α} (h : InStep P a b) (activity : String) :
    InStep P (during activity a) (during activity b) := by
  intro w v hwv
  obtain ⟨r, w₁, v₁, hw, hv, hleft⟩ := Paired.outcome h hwv
  rw [exec_during, exec_during, hw, hv]
  cases r <;> exact ⟨rfl, hleft⟩

theorem InStep.attempt {a b : Action α} (h : InStep P a b) : InStep P (attempt a) (attempt b) := by
  intro w v hwv
  obtain ⟨r, w₁, v₁, hw, hv, hleft⟩ := Paired.outcome h hwv
  rw [exec_attempt, exec_attempt, hw, hv]
  cases r with
  | ok x => exact ⟨rfl, hleft⟩
  | error f =>
    dsimp only
    split <;> exact ⟨rfl, hleft⟩

theorem inStep_mapM {f g : α → Action β} {xs : List α} (h : ∀ x ∈ xs, InStep P (f x) (g x)) :
    InStep P (xs.mapM f) (xs.mapM g) := by
  induction xs with
  | nil => exact inStep_pure _
  | cons x xs ih =>
    rw [List.mapM_cons, List.mapM_cons]
    exact (h x List.mem_cons_self).bind fun y => (ih fun z hz => h z (List.mem_cons_of_mem _ hz)).bind fun ys => inStep_pure _

theorem inStep_forM {f g : α → Action PUnit} {xs : List α} (h : ∀ x ∈ xs, InStep P (f x) (g x)) :
    InStep P (xs.forM f) (xs.forM g) := by
  induction xs with
  | nil => exact inStep_pure _
  | cons x xs ih => exact (h x List.mem_cons_self).bind fun _ => ih fun z hz => h z (List.mem_cons_of_mem _ hz)

theorem inStep_foldlM {f g : β → α → Action β} {xs : List α} (h : ∀ b, ∀ x ∈ xs, InStep P (f b x) (g b x)) (start : β) :
    InStep P (xs.foldlM f start) (xs.foldlM g start) := by
  induction xs generalizing start with
  | nil => exact inStep_pure _
  | cons x xs ih =>
    rw [List.foldlM_cons, List.foldlM_cons]
    exact (h start x List.mem_cons_self).bind fun b => ih (fun b z hz => h b z (List.mem_cons_of_mem _ hz)) b

theorem inStep_filterMapM {f g : α → Action (Option β)} {xs : List α} (h : ∀ x ∈ xs, InStep P (f x) (g x)) :
    InStep P (xs.filterMapM f) (xs.filterMapM g) := by
  induction xs with
  | nil => exact inStep_pure _
  | cons x xs ih =>
    have hrest := ih fun z hz => h z (List.mem_cons_of_mem _ hz)
    rw [List.filterMapM_cons, List.filterMapM_cons]
    refine (h x List.mem_cons_self).bind fun y => ?_
    cases y with
    | none => exact hrest
    | some y => exact hrest.bind fun ys => inStep_pure _

/-- An absolute path leads to one place from everywhere. -/
theorem inStep_locate {path : String} {l : Location} (hplace : ∀ here : Location, here.resolve path = l)
    {k k' : Location → Action α} (hk : InStep P (k l) (k' l)) : InStep P (do k (← locate path)) (do k' (← locate path)) := by
  intro w v h
  rw [exec_bind_of_ok (exec_locate path v), exec_bind_of_ok (exec_locate path w), hplace, hplace]
  exact hk w v h

theorem inStep_look {f : Disk → α} (hf : ∀ w v, P w v → f v.disk = f w.disk) : InStep P (look f) (look f) := by
  intro w v h
  rw [exec_look, exec_look, hf w v h]
  exact ⟨rfl, h⟩

theorem inStep_orStorage (path : String) (r : Except DiskError α) : InStep P (orStorage path r) (orStorage path r) := by
  cases r with
  | ok x => exact inStep_pure x
  | error e => exact inStep_throw _

end Action

/-! ## Disks -/

/-- Two nodes that are the same, or files whose bytes differ in some way. -/
def Node.SameBut (differ : ByteArray → ByteArray → Prop) (n n' : Node) : Prop :=
  n' = n ∨ ∃ bytes time bytes' time', n = .file bytes time ∧ n' = .file bytes' time' ∧ differ bytes bytes'

namespace Disk

/-- How the bytes of a file at a location may differ between two disks. -/
abbrev Differing := Location → ByteArray → ByteArray → Prop

/-- Two disks have the same at every location but for the contents of files. -/
structure SameBut (differ : Differing) (d d' : Disk) : Prop where
  find : ∀ l, Option.Rel (Node.SameBut (differ l)) (d.find? l) (d'.find? l)
  clock_eq : d'.clock = d.clock
  changes_eq : d'.changes = d.changes
  refusals_eq : d'.refusals = d.refusals

namespace SameBut

variable {differ differ' : Differing} {d d' : Disk} {l : Location}

theorem mono (h : SameBut differ d d') (hle : ∀ l bytes bytes', differ l bytes bytes' → differ' l bytes bytes') :
    SameBut differ' d d' := by
  refine ⟨fun l => ?_, h.clock_eq, h.changes_eq, h.refusals_eq⟩
  have hfind := h.find l
  generalize d.find? l = n at hfind
  generalize d'.find? l = n' at hfind
  rcases hfind with hnode | _
  · refine .some (hnode.imp_right ?_)
    rintro ⟨bytes, time, bytes', time', hn, hn', hdiffer⟩
    exact ⟨bytes, time, bytes', time', hn, hn', hle l _ _ hdiffer⟩
  · exact .none

theorem find_cases (h : SameBut differ d d') (l : Location) : d'.find? l = d.find? l ∨ ∃ bytes time bytes' time',
    d.find? l = some (.file bytes time) ∧ d'.find? l = some (.file bytes' time') ∧ differ l bytes bytes' := by
  have hfind := h.find l
  generalize d.find? l = n at hfind
  generalize d'.find? l = n' at hfind
  rcases hfind with (rfl | ⟨bytes, time, bytes', time', rfl, rfl, hdiffer⟩) | _
  · exact .inl rfl
  · exact .inr ⟨bytes, time, bytes', time', rfl, rfl, hdiffer⟩
  · exact .inl rfl

theorem isDirectory_eq (h : SameBut differ d d') (l : Location) : d'.isDirectory l = d.isDirectory l := by
  unfold isDirectory
  rcases h.find_cases l with heq | ⟨_, _, _, _, hd, hd', -⟩
  · rw [heq]
  · rw [hd, hd']

theorem isFile_eq (h : SameBut differ d d') (l : Location) : d'.isFile l = d.isFile l := by
  unfold isFile
  rcases h.find_cases l with heq | ⟨_, _, _, _, hd, hd', -⟩
  · rw [heq]
  · rw [hd, hd']

theorem obstacle?_eq (h : SameBut differ d d') (l : Location) : d'.obstacle? l = d.obstacle? l := by
  unfold obstacle?
  congr 1
  funext directory
  rcases h.find_cases directory with heq | ⟨_, _, _, _, hd, hd', -⟩
  · rw [heq]
  · rw [hd, hd']

/-- A location is reached on both disks or on none, and for the same reason. -/
theorem access (h : SameBut differ d d') (l : Location) : (∃ e, d.access l = .error e ∧ d'.access l = .error e) ∨
    ∃ n n', d.access l = .ok n ∧ d'.access l = .ok n' ∧ Node.SameBut (differ l) n n' := by
  have hfind := h.find l
  unfold Disk.access
  rw [h.obstacle?_eq l]
  generalize d.find? l = n at hfind
  generalize d'.find? l = n' at hfind
  cases d.obstacle? l with
  | some e => exact .inl ⟨e, rfl, rfl⟩
  | none =>
    rcases hfind with hnode | _
    · exact .inr ⟨_, _, rfl, rfl, hnode⟩
    · exact .inl ⟨.absent, rfl, rfl⟩

theorem holds_eq (h : SameBut differ d d') (l : Location) : d'.holds l = d.holds l := by
  unfold holds
  rcases h.access l with ⟨e, hd, hd'⟩ | ⟨n, n', hd, hd', -⟩
  · rw [hd, hd']
  · rw [hd, hd']

theorem isOpen_iff (h : SameBut differ d d') (l : Location) : d'.IsOpen l ↔ d.IsOpen l := by
  unfold IsOpen
  rcases h.access l with ⟨e, hd, hd'⟩ | ⟨n, n', hd, hd', rfl | ⟨bytes, time, bytes', time', rfl, rfl, -⟩⟩
  · rw [hd, hd']
  · rw [hd, hd']
  · simp [hd, hd']

theorem access_eq (h : SameBut differ d d') (hl : ∀ bytes bytes', ¬ differ l bytes bytes') : d'.access l = d.access l := by
  rcases h.access l with ⟨e, hd, hd'⟩ | ⟨n, n', hd, hd', rfl | ⟨bytes, time, bytes', time', -, -, hdiffer⟩⟩
  · rw [hd, hd']
  · rw [hd, hd']
  · exact absurd hdiffer (hl bytes bytes')

theorem read_eq (h : SameBut differ d d') (hl : ∀ bytes bytes', differ l bytes bytes' → bytes' = bytes) :
    d'.read l = d.read l := by
  unfold read
  rcases h.access l with ⟨e, hd, hd'⟩ | ⟨n, n', hd, hd', rfl | ⟨bytes, time, bytes', time', rfl, rfl, hdiffer⟩⟩
  · rw [hd, hd']
  · rw [hd, hd']
  · rw [hd, hd', hl bytes bytes' hdiffer]

/-! ### Changes -/

theorem put (h : SameBut differ d d') (hl : l ≠ []) {n n' : Node} (hn : Node.SameBut (differ l) n n') :
    SameBut differ (d.put l n) (d'.put l n') := by
  refine ⟨fun x => ?_, h.clock_eq, h.changes_eq, h.refusals_eq⟩
  rw [find?_put d l x n hl, find?_put d' l x n' hl]
  split
  · next hx =>
    rw [hx]
    exact .some hn
  · split
    · exact .none
    · exact h.find x

theorem erase (h : SameBut differ d d') (hl : l ≠ []) : SameBut differ (d.erase l) (d'.erase l) := by
  refine ⟨fun x => ?_, h.clock_eq, h.changes_eq, h.refusals_eq⟩
  rw [find?_erase d l x hl, find?_erase d' l x hl]
  split
  · exact .none
  · exact h.find x

theorem counted (h : SameBut differ d d') : SameBut differ d.counted d'.counted :=
  ⟨h.find, h.clock_eq, congrArg (· + 1) h.changes_eq, h.refusals_eq⟩

theorem makeDirectory (h : SameBut differ d d') (l : Location) : SameBut differ (d.makeDirectory l) (d'.makeDirectory l) := by
  unfold Disk.makeDirectory
  rw [h.isDirectory_eq l]
  split
  · exact h
  · next hl =>
    refine h.put ?_ (.inl rfl)
    rintro rfl
    exact hl rfl

theorem foldl_makeDirectory (h : SameBut differ d d') (ways : List Location) :
    SameBut differ (ways.foldl Disk.makeDirectory d) (ways.foldl Disk.makeDirectory d') := by
  induction ways generalizing d d' with
  | nil => exact h
  | cons p rest ih => exact ih (h.makeDirectory p)

end SameBut

namespace Change

variable {differ : Differing} {l source target : Location}

/-- Two changes come to the same on disks that are the same but for some files, and leave such disks behind. -/
def InStep {α : Type} (differ : Differing) (c c' : Change α) : Prop :=
  ∀ d d', SameBut differ d d' → (c'.run d').1 = (c.run d).1 ∧ SameBut differ (c.run d).2 (c'.run d').2

theorem InStep.of_change {f f' : Disk → Except DiskError Disk} (h : ∀ d d', SameBut differ d d' →
      (∃ e, f d = .error e ∧ f' d' = .error e) ∨ ∃ e e', f d = .ok e ∧ f' d' = .ok e' ∧ SameBut differ e e') :
    InStep differ (change f) (change f') := by
  intro d d' hd
  rw [run_change, run_change, hd.refusals_eq, hd.changes_eq]
  split
  · exact ⟨rfl, hd.counted⟩
  · rcases h d d' hd with ⟨e, hf, hf'⟩ | ⟨e, e', hf, hf', he⟩
    · rw [hf, hf']
      exact ⟨rfl, hd.counted⟩
    · rw [hf, hf']
      exact ⟨rfl, he.find, he.clock_eq, rfl, he.refusals_eq⟩

theorem InStep.write {bytes bytes' : ByteArray} (hbytes : bytes' = bytes ∨ differ l bytes bytes') :
    InStep differ (write l bytes) (write l bytes') := by
  refine .of_change fun d d' hd => ?_
  rw [hd.obstacle?_eq, hd.isDirectory_eq, hd.clock_eq]
  cases d.obstacle? l with
  | some e => exact .inl ⟨e, rfl, rfl⟩
  | none =>
    by_cases hl : d.isDirectory l = true
    · simp only [hl, if_true]
      exact .inl ⟨.isDirectory, rfl, rfl⟩
    · have hne : l ≠ [] := by
        rintro rfl
        exact hl rfl
      have hnode : Node.SameBut (differ l) (.file bytes d.clock) (.file bytes' d.clock) := by
        rcases hbytes with rfl | hdiffer
        · exact .inl rfl
        · exact .inr ⟨_, _, _, _, rfl, rfl, hdiffer⟩
      have hput := hd.put hne hnode
      simp only [hl, Bool.false_eq_true, if_false]
      exact .inr ⟨_, _, rfl, rfl, hput.find, rfl, hput.changes_eq, hput.refusals_eq⟩

theorem InStep.rename (hsource : source ≠ []) (hle : ∀ bytes bytes', differ source bytes bytes' → differ target bytes bytes') :
    InStep differ (rename source target) (rename source target) := by
  refine .of_change fun d d' hd => ?_
  rw [hd.obstacle?_eq, hd.isDirectory_eq]
  rcases hd.access source with ⟨e, hn, hn'⟩ | ⟨n, n', hn, hn', hnode⟩
  · rw [hn, hn']
    exact .inl ⟨e, rfl, rfl⟩
  · rw [hn, hn']
    cases d.obstacle? target with
    | some e => exact .inl ⟨e, rfl, rfl⟩
    | none =>
      by_cases hl : d.isDirectory target = true
      · simp only [hl, if_true]
        exact .inl ⟨.isDirectory, rfl, rfl⟩
      · have hne : target ≠ [] := by
          rintro rfl
          exact hl rfl
        simp only [hl, Bool.false_eq_true, if_false]
        refine .inr ⟨_, _, rfl, rfl, (hd.erase hsource).put hne (hnode.imp_right ?_)⟩
        rintro ⟨bytes, time, bytes', time', hf, hf', hdiffer⟩
        exact ⟨bytes, time, bytes', time', hf, hf', hle _ _ hdiffer⟩

theorem InStep.removeFile (differ : Differing) (l : Location) : InStep differ (removeFile l) (removeFile l) := by
  refine .of_change fun d d' hd => ?_
  rcases hd.access l with ⟨e, hn, hn'⟩ | ⟨n, n', hn, hn', hnode⟩
  · rw [hn, hn']
    exact .inl ⟨e, rfl, rfl⟩
  · have hne : ∀ bytes time, n = .file bytes time → l ≠ [] := by
      rintro bytes time rfl rfl
      cases hn
    rw [hn, hn']
    rcases hnode with rfl | ⟨bytes, time, bytes', time', rfl, rfl, -⟩
    · cases n' with
      | directory => exact .inl ⟨.isDirectory, rfl, rfl⟩
      | file bytes time => exact .inr ⟨_, _, rfl, rfl, hd.erase (hne bytes time rfl)⟩
    · exact .inr ⟨_, _, rfl, rfl, hd.erase (hne bytes time rfl)⟩

theorem InStep.makeDirectories (differ : Differing) (l : Location) :
    InStep differ (makeDirectories l) (makeDirectories l) := by
  intro d d' hd
  by_cases hopen : d.IsOpen l
  · rw [makeDirectories_of_isOpen hopen, makeDirectories_of_isOpen ((hd.isOpen_iff l).2 hopen)]
    exact ⟨rfl, hd⟩
  · rw [makeDirectories_of_not_isOpen hopen, makeDirectories_of_not_isOpen fun h => hopen ((hd.isOpen_iff l).1 h)]
    refine InStep.of_change (fun d d' hd => ?_) d d' hd
    have hany : (l.above ++ [l]).any d'.isFile = (l.above ++ [l]).any d.isFile := by
      congr 1
      exact funext hd.isFile_eq
    rw [hany]
    split
    · exact .inl ⟨_, rfl, rfl⟩
    · exact .inr ⟨_, _, rfl, rfl, hd.foldl_makeDirectory _⟩

end Change

end Disk

/-! ## Workspaces -/

/-- Two workspaces with disks that are the same but for some files, and with clocks of their own.  What was asked does not
    count. -/
structure Workspace.SameBut (differ : Disk.Differing) (now now' : String) (w v : Workspace) : Prop where
  disk : w.disk.SameBut differ v.disk
  here_eq : v.here = w.here
  history_eq : v.history = w.history
  unrestored_eq : v.unrestored = w.unrestored
  now_eq : w.now = now
  now_eq' : v.now = now'

namespace Workspace.SameBut

variable {differ differ' : Disk.Differing} {now now' : String} {w v w' v' : Workspace}

theorem mono (h : SameBut differ now now' w v) (hle : ∀ l bytes bytes', differ l bytes bytes' → differ' l bytes bytes') :
    SameBut differ' now now' w v :=
  { h with disk := h.disk.mono hle }

theorem of_alike (h : SameBut differ now now' w v) (hw : w.Alike w') (hv : v.Alike v') : SameBut differ now now' w' v' := by
  obtain ⟨asked, rfl⟩ := hw
  obtain ⟨asked', rfl⟩ := hv
  exact ⟨h.disk, h.here_eq, h.history_eq, h.unrestored_eq, h.now_eq, h.now_eq'⟩

end Workspace.SameBut

namespace Action

variable {α : Type} {differ : Disk.Differing} {now now' : String}

theorem inStep_tryChange {c c' : Disk.Change α} (hc : Disk.Change.InStep differ c c') :
    InStep (Workspace.SameBut differ now now') (tryChange c) (tryChange c') := by
  intro w v h
  obtain ⟨hresult, hdisk⟩ := hc w.disk v.disk h.disk
  rw [exec_tryChange, exec_tryChange, hresult]
  exact ⟨rfl, hdisk, h.here_eq, h.history_eq, h.unrestored_eq, h.now_eq, h.now_eq'⟩

theorem inStep_ask (timeout : Nat) (q : HistoryQuery) :
    InStep (Workspace.SameBut differ now now') (ask timeout q) (ask timeout q) := by
  intro w v h
  obtain ⟨asked, hw⟩ := exec_ask timeout q w
  obtain ⟨asked', hv⟩ := exec_ask timeout q v
  rw [hw, hv]
  exact ⟨congrArg (fun history => answered timeout q (history q)) h.history_eq, h.of_alike ⟨asked, rfl⟩ ⟨asked', rfl⟩⟩

/-- Either run takes its own time. -/
theorem paired_now {Q : Except Failure α → Workspace → Workspace → Prop} {k : String → Action α}
    (hk : Paired (Workspace.SameBut differ now now') Q (k now) (k now')) :
    Paired (Workspace.SameBut differ now now') Q (do k (← get).now) (do k (← get).now) := by
  intro w v h
  rw [exec_bind_of_ok (exec_get w), exec_bind_of_ok (exec_get v), h.now_eq, h.now_eq']
  exact hk w v h

theorem inStep_orNote {a b : Action Unit} (h : InStep (Workspace.SameBut differ now now') a b) (what : String) :
    InStep (Workspace.SameBut differ now now') (orNote what a) (orNote what b) := by
  refine h.attempt.bind fun r => ?_
  cases r with
  | ok _ => exact inStep_pure _
  | error f =>
    intro w v hwv
    exact ⟨rfl, hwv.disk, hwv.here_eq, hwv.history_eq, congrArg (· ++ [what]) hwv.unrestored_eq, hwv.now_eq, hwv.now_eq'⟩

end Action

end CodeIndex
