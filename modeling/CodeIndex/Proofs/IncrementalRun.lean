import CodeIndex.Command.Run
import CodeIndex.Proofs.Made

set_option autoImplicit false

/-!
# Incremental runs

A run that may only update an index either updates it, or fails and leaves every document as it was.  The condition
is the one for updates: no two modules of the index share the place of a shard.
-/

namespace CodeIndex

open Action

namespace Running

variable {α β : Type}

/-- What a run comes to, what it said, and what it leaves behind. -/
def exec (a : Running α) (r : Report) (w : Workspace) : (Except Failure α × Report) × Workspace :=
  ((a.run.run r).run w).run

theorem exec_bind (a : Running α) (k : α → Running β) (r : Report) (w : Workspace) :
    (a >>= k).exec r w = match a.exec r w with
      | ((.ok x, r'), w') => (k x).exec r' w'
      | ((.error e, r'), w') => ((.error e, r'), w') := by
  change ((ExceptT.bindCont k ((a.run.run r).run w).1.1).run ((a.run.run r).run w).1.2).run ((a.run.run r).run w).2 = _
  unfold exec
  rcases (a.run.run r).run w with ⟨⟨_ | _, _⟩, _⟩ <;> rfl

theorem exec_lift (a : Action α) (r : Report) (w : Workspace) :
    (liftM a : Running α).exec r w = (((a.exec w).1, r), (a.exec w).2) := rfl

theorem exec_lift_bind (a : Action α) (k : α → Running β) (r : Report) (w : Workspace) :
    (liftM a >>= k).exec r w = match a.exec w with
      | (.ok x, w') => (k x).exec r w'
      | (.error e, w') => ((.error e, r), w') := by
  rw [exec_bind, exec_lift]
  rcases a.exec w with ⟨f | x, w'⟩ <;> rfl

/-- A whole run as an action, whose answer says how the run ended. -/
theorem exec_run (a : Running α) (r : Report) (w : Workspace) :
    Action.exec (ExceptT.lift (a.run.run r)) w = (.ok (a.exec r w).1, (a.exec r w).2) := rfl

theorem exec_bind_of_ok {a : Running α} {k : α → Running β} {r r' : Report} {w w' : Workspace} {x : α}
    (h : a.exec r w = ((.ok x, r'), w')) : (a >>= k).exec r w = (k x).exec r' w' := by
  rw [exec_bind, h]

/-- What only says something. -/
def Speaks (a : Running Unit) : Prop := ∀ r w, ∃ r', a.exec r w = ((.ok (), r'), w)

theorem speaks_pure : Speaks (pure ()) := fun r _ => ⟨r, rfl⟩

theorem speaks_line (l : Line) : Speaks (line l) := fun _ _ => ⟨_, rfl⟩

theorem speaks_say (s : String) : Speaks (say s) := speaks_line _

theorem Speaks.bind {a : Running Unit} {k : Unit → Running Unit} (ha : Speaks a) (hk : Speaks (k ())) : Speaks (a >>= k) := by
  intro r w
  obtain ⟨r', h⟩ := ha r w
  obtain ⟨r'', h'⟩ := hk r' w
  exact ⟨r'', (exec_bind_of_ok h).trans h'⟩

theorem speaks_unlessQuiet (i : Invocation) {a : Running Unit} (h : Speaks a) : Speaks (unlessQuiet i a) := by
  unfold unlessQuiet
  split
  · exact speaks_pure
  · exact h

end Running

namespace Invocation

open Running

theorem speaks_sayUpdate (outcome : UpdateOutcome) : Speaks (sayUpdate outcome) := by
  cases outcome with
  | unchanged => exact speaks_say _
  | updated modules changed => exact (speaks_say _).bind ((speaks_say _).bind ((speaks_say _).bind (speaks_line _)))

theorem looks_settings (i : Invocation) : i.settings.Looks := by
  refine Looks.bind ((Store.looks_contents _).bind fun found => ?_) fun _ => looks_pure _
  split <;> exact looks_pure _

theorem looks_wantsShards (i : Invocation) (m : Maker) : (i.wantsShards m).Looks := by
  unfold wantsShards
  split
  · exact looks_pure _
  · exact looks_pure _
  · refine (Store.looks_isSplit _).bind fun split => ?_
    split
    · exact looks_pure _
    · exact (Listing.looks_files _ _).bind fun _ => looks_pure _

/-- An update that must do either does it or fails, and then the project is as it was or the update left it so. -/
theorem tryUpdate_incremental {i : Invocation} (hi : i.incremental = true) (m : Maker) (r : Report) (w : Workspace) :
    (∃ r' w', (i.tryUpdate m).exec r w = ((.ok true, r'), w')) ∨
      ∃ f r' w', (i.tryUpdate m).exec r w = ((.error f, r'), w') ∧
        (w.Alike w' ∨ ∃ w₁ f₁, w.Alike w₁ ∧ (Update.run m i.root).exec w₁ = (.error f₁, w')) := by
  have hkeeps := (Store.looks_isSplit i.store).keeps w
  unfold tryUpdate
  rw [exec_lift_bind]
  rcases hsplit : i.store.isSplit.exec w with ⟨f | possible, w₁⟩
  · rw [hsplit] at hkeeps
    exact .inr ⟨f, r, w₁, rfl, .inl hkeeps⟩
  rw [hsplit] at hkeeps
  dsimp only
  split
  · rw [exec_lift_bind, exec_attempt]
    rcases hrun : (Update.run m i.root).exec w₁ with ⟨f | outcome, w₂⟩
    · right
      dsimp only
      by_cases hf : f.cause = .unscannable
      · rw [if_pos hf]
        exact ⟨f, r, w₂, rfl, .inr ⟨w₁, f, hkeeps, hrun⟩⟩
      · rw [if_neg hf]
        exact ⟨f.within "Incremental update failed", r, w₂, rfl, .inr ⟨w₁, f, hkeeps, hrun⟩⟩
    · obtain ⟨r', hsay⟩ := speaks_unlessQuiet i (speaks_sayUpdate outcome) r w₂
      exact .inl ⟨r', w₂, Running.exec_bind_of_ok hsay⟩
  · exact .inr ⟨_, r, w₁, rfl, .inl hkeeps⟩

theorem runBuild_error {i : Invocation} (hi : i.incremental = true) {r r' : Report} {w w' : Workspace} {f : Failure}
    (h : i.runBuild.exec r w = ((.error f, r'), w')) :
    w.Alike w' ∨ ∃ m w₁ f₁, w.Alike w₁ ∧ (Update.run m i.root).exec w₁ = (.error f₁, w') := by
  have hsettings := (looks_settings i).keeps w
  unfold runBuild at h
  rw [exec_lift_bind] at h
  rcases hs : i.settings.exec w with ⟨f | settings, w₁⟩
  · rw [hs] at h hsettings
    cases h
    exact .inl hsettings
  rw [hs] at h hsettings
  dsimp only at h
  have hwants := (looks_wantsShards i (Maker.ofSettings settings)).keeps w₁
  rw [exec_lift_bind] at h
  rcases hw : (i.wantsShards (Maker.ofSettings settings)).exec w₁ with ⟨f | wants, w₂⟩
  · rw [hw] at h hwants
    cases h
    exact .inl (hsettings.trans hwants)
  rw [hw] at h hwants
  have halike := hsettings.trans hwants
  dsimp only at h
  split at h
  · rcases tryUpdate_incremental hi (Maker.ofSettings settings) r w₂ with ⟨r₃, w₃, hok⟩ | ⟨f₃, r₃, w₃, herror, hcases⟩
    · rw [Running.exec_bind_of_ok hok] at h
      cases h
    · rw [Running.exec_bind, herror] at h
      cases h
      rcases hcases with ha | ⟨w₄, f₄, ha, hrun⟩
      · exact .inl (halike.trans ha)
      · exact .inr ⟨_, w₄, f₄, halike.trans ha, hrun⟩
  · unfold runSingle at h
    simp only [hi, if_true] at h
    cases h
    exact .inl halike

theorem run_error {i : Invocation} (hi : i.incremental = true) (hm : i.migrate = false) (hc : i.command = none)
    {input : List String} {r r' : Report} {w w' : Workspace} {f : Failure}
    (h : (i.run input).exec r w = ((.error f, r'), w')) :
    w.Alike w' ∨ ∃ m w₁ f₁, w.Alike w₁ ∧ (Update.run m i.root).exec w₁ = (.error f₁, w') := by
  unfold run at h
  rw [hc, hm] at h
  exact runBuild_error hi h

/-- What a run that failed leaves behind, seen from the arguments. -/
theorem run_of_outcome {arguments input : List String} {i : Invocation} (hi : ofArguments arguments = .ok i)
    {w w' : Workspace} {result : Except Failure Outcome}
    (h : (Outcome.ofArguments arguments input).exec w = (result, w')) (hfails : ∀ o, result = .ok o → o.code ≠ 0) :
    ∃ f r', (i.run input).exec ⟨[], []⟩ w = ((.error f, r'), w') := by
  unfold Outcome.ofArguments at h
  rw [hi] at h
  dsimp only at h
  rw [exec_bind_of_ok (exec_run _ _ _)] at h
  rcases hrun : (i.run input).exec ⟨[], []⟩ w with ⟨⟨f | u, r'⟩, w₁⟩
  · rw [hrun] at h
    dsimp only at h
    split at h
    · cases h
      exact ⟨f, r', rfl⟩
    · cases h
      exact ⟨f, r', rfl⟩
  · rw [hrun] at h
    cases h
    exact absurd rfl (hfails _ rfl)

end Invocation

namespace Update

/-- A failed update leaves the core index and the shards of its modules as they were, and so does a program run that
    may only update and ends with a failure.  Whatever failed, it is enough that what had been written could be put
    back and that no two modules of the index have one place for their shards. -/
theorem failed_update_keeps_documents (w w' : Workspace) :
    (∀ (m : Maker) (root : String) (f : Failure),
      (run m root).exec w = (.error f, w') →
      w'.unrestored = w.unrestored →
      (∀ core, (w.store root).coreOn? w.disk = some core → Apart (w.store root) core) →
      DocumentsKept (w.store root) w w') ∧
    ∀ (arguments input : List String) (i : Invocation) (result : Except Failure Outcome),
      Invocation.ofArguments arguments = .ok i → i.incremental = true → i.migrate = false → i.command = none →
      (Outcome.ofArguments arguments input).exec w = (result, w') →
      (∀ o, result = .ok o → o.code ≠ 0) →
      w'.unrestored = w.unrestored →
      (∀ core, (w.store i.root).coreOn? w.disk = some core → Apart (w.store i.root) core) →
      DocumentsKept (w.store i.root) w w' := by
  refine ⟨fun m root f h hsame hapart => run_error h hsame hapart, ?_⟩
  intro arguments input i result harguments hi hm hc h hfails hsame hapart
  obtain ⟨f, r', hrun⟩ := Invocation.run_of_outcome harguments h hfails
  rcases Invocation.run_error hi hm hc hrun with ha | ⟨m, w₁, f₁, ha, hupdate⟩
  · exact documentsKept_of_alike ha
  · have hstore : w₁.store i.root = w.store i.root := by
      rw [Workspace.store, Workspace.store, ha.here_eq]
    refine DocumentsKept.of_alike ha ?_
    rw [← hstore] at hapart ⊢
    rw [← ha.disk_eq] at hapart
    exact run_error hupdate (hsame.trans ha.unrestored_eq.symm) hapart

theorem failed_update_keeps_documents_blocked :
    (∃ f w', (run (Maker.ofSettings .default) ".").exec (listed true) = (.error f, w') ∧
      DocumentsKept ((listed true).store ".") (listed true) w') ∧
    ∃ i o w', Invocation.ofArguments ["--incremental", "--mode", "split"] = .ok i ∧
      (Outcome.ofArguments ["--incremental", "--mode", "split"] []).exec (listed true) = (.ok o, w') ∧ o.code = 1 ∧
      DocumentsKept ((listed true).store i.root) (listed true) w' := by
  obtain ⟨core, n, a, hbuild, -, hholding⟩ := holding_listed true
  have hapart : ∀ found, ((listed true).store ".").coreOn? (listed true).disk = some found →
      Apart ((listed true).store ".") found := by
    intro found hfound
    rw [hholding.coreOn?] at hfound
    cases hfound
    exact apart_of_holding hholding
  have hnoted : (listed true).unrestored = [] := by decide +kernel
  constructor
  · have hproceeds : endsOk (fun r _ => endsFailed (fun w => w.unrestored.isEmpty)
        ((proceed (Maker.ofSettings .default) "/demo" r.1).exec (listed true)))
        (((Maker.ofSettings .default).build ".").exec (unlisted true)) = true := by decide +kernel
    obtain ⟨r, w, hbuild', hfails⟩ := endsOk_iff.1 hproceeds
    rw [hbuild'] at hbuild
    cases hbuild
    obtain ⟨f, w', hexec, hnothing⟩ := endsFailed_iff.1 hfails
    have hrun := (exec_run_listed hholding).trans hexec
    have hsame : w'.unrestored = (listed true).unrestored := by rw [hnoted]; exact List.isEmpty_iff.1 hnothing
    exact ⟨f, w', hrun, (failed_update_keeps_documents _ w').1 _ _ f hrun hsame hapart⟩
  · have hinvoked : (Invocation.ofArguments ["--incremental", "--mode", "split"]).toOption.any (fun i =>
        i.incremental && !i.migrate && i.command.isNone && i.root == ".") = true := by decide +kernel
    have hfails : endsOk (fun o w => o.code == 1 && w.unrestored.isEmpty)
        ((Outcome.ofArguments ["--incremental", "--mode", "split"] []).exec (listed true)) = true := by decide +kernel
    rcases hi : Invocation.ofArguments ["--incremental", "--mode", "split"] with e | i
    · rw [hi] at hinvoked
      cases hinvoked
    rw [hi, Except.toOption, Option.any_some] at hinvoked
    simp only [Bool.and_eq_true, Bool.not_eq_true', Option.isNone_iff_eq_none, beq_iff_eq] at hinvoked
    obtain ⟨⟨⟨hincremental, hmigrate⟩, hcommand⟩, hroot⟩ := hinvoked
    obtain ⟨o, w', hexec, hpassed⟩ := endsOk_iff.1 hfails
    simp only [Bool.and_eq_true, beq_iff_eq, List.isEmpty_iff] at hpassed
    obtain ⟨hcode, hsame⟩ := hpassed
    rw [← hroot] at hapart
    refine ⟨i, o, w', rfl, hexec, hcode, (failed_update_keeps_documents _ w').2 _ [] i (.ok o) hi hincremental
      hmigrate hcommand hexec ?_ (hsame.trans hnoted.symm) hapart⟩
    rintro o' ⟨⟩ hzero
    rw [hcode] at hzero
    cases hzero

end Update

end CodeIndex
