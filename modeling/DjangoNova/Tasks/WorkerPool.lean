import DjangoNova.Tasks.Lifecycle

/-!
# The worker pool

After `start` all workers are alive and after `stop` none is, as long as
the backend is not started again after a `stop`.
-/

namespace DjangoNova

open Transition

section Pool

variable {I F O V : Type} {n : ℕ}

/-- A task function that ends does so properly, unless its worker was told to
cancel. -/
def Handled {S : Type} (s : TaskSystem I F O V S) : TaskAction I F O V → Prop
  | .complete i v _ => ∀ t, s.tasks[i]? = some t → t.cancelRequested = true ∨ ProperOutcome v
  | _ => True

/-- The backend is not started again after a `stop`. -/
def NotRestarted {S : Type} (s : TaskSystem I F O V S) : TaskAction I F O V → Prop
  | .start => ¬[LifecycleCall.start, .stop].Sublist s.history
  | _ => True

structure Staffed (a : TaskSystem I F O V (Phase I F O)) : Prop where
  alive : a.cancelling = false → ∀ t ∈ a.tasks, t.state.isDead = false
  lastStart : a.controller = .ready → a.history.getLast? = some .start →
    a.started = true ∧ a.cancelling = false
  lastStop : a.controller = .ready → a.history.getLast? = some .stop →
    a.started = false ∨ a.cancelling = true

variable {a a' : TaskSystem I F O V (Phase I F O)}

theorem staffed_initial : Staffed (TaskSystem.initial : TaskSystem I F O V (Phase I F O)) :=
  ⟨fun _ ↦ nofun, fun _ ↦ nofun, fun _ _ ↦ .inl rfl⟩

theorem Staffed.start (h : Staffed a) (hlife : Lifecycle n a)
    (hfirst : ¬[LifecycleCall.start, .stop].Sublist a.history)
    (hstart : a.start n .idle = some a') : Staffed a' := by
  unfold TaskSystem.start at hstart
  split at hstart
  next hready =>
    have hcancelling : a.cancelling = false := by
      by_contra htrue
      exact hfirst (hlife.stopped hready (Bool.of_not_eq_false htrue)).1
    split at hstart
    next hstarted =>
      cases hstart
      refine ⟨h.alive, fun _ _ ↦ ⟨hstarted, hcancelling⟩, fun _ hlast ↦ ?_⟩
      rw [List.getLast?_concat] at hlast
      cases hlast
    next hstarted =>
      cases hstart
      refine ⟨fun _ t ht ↦ ?_, fun _ _ ↦ ⟨rfl, hcancelling⟩, fun _ hlast ↦ ?_⟩
      · rcases List.mem_append.mp ht with ht | ht
        · exact h.alive hcancelling t ht
        · rw [List.eq_of_mem_replicate ht]
          rfl
      · rw [List.getLast?_concat] at hlast
        cases hlast
  next => cases hstart

theorem Staffed.stop (h : Staffed a) (hlife : Lifecycle n a) (hstop : a.stop = some a') :
    Staffed a' := by
  unfold TaskSystem.stop at hstop
  split at hstop
  next hready =>
    dsimp only at hstop
    split at hstop
    next hworkers =>
      cases hstop
      refine ⟨h.alive, fun _ hlast ↦ ?_, fun _ _ ↦ ?_⟩
      · rw [List.getLast?_concat] at hlast
        cases hlast
      · by_cases hstarted : a.started = true
        · exact .inr (hlife.halted hready hstarted hworkers)
        · exact .inl (Bool.eq_false_iff.mpr hstarted)
    next =>
      split at hstop
      · cases hstop
        exact ⟨nofun, nofun, nofun⟩
      · cases hstop
        exact ⟨h.alive, nofun, nofun⟩
  next => cases hstop

theorem Staffed.stopped (h : Staffed a) (hlife : Lifecycle n a)
    (hstopped : a.stopped Phase.isDead = some a') : Staffed a' := by
  unfold TaskSystem.stopped at hstopped
  split at hstopped
  next ws hgathering =>
    split at hstopped
    · cases hstopped
      refine ⟨h.alive, fun _ hlast ↦ ?_, fun _ _ ↦ .inr (hlife.gathering ws hgathering).2⟩
      rw [List.getLast?_concat] at hlast
      cases hlast
    · cases hstopped
  next => cases hstopped

theorem Staffed.step [DecidableEq I] (h : Staffed a) (hlife : Lifecycle n a) (hflags : Unflagged a)
    {act : TaskAction I F O V} (hhandled : Handled a act) (hfirst : NotRestarted a act)
    (hstep : a.phaseStep n act = some a') : Staffed a' := by
  cases phaseStep_acts hstep with
  | outside w ha hw =>
      subst ha
      exact ⟨h.alive, h.lastStart, h.lastStop⟩
  | worker i t w phase ht halive hdead ha hw =>
      subst ha
      refine ⟨fun hcancelling u hu ↦ ?_, h.lastStart, h.lastStop⟩
      rcases List.mem_or_eq_of_mem_set hu with hu | rfl
      · exact h.alive hcancelling u hu
      · by_contra hphase
        have hflag := hflags hcancelling t (List.mem_of_getElem? ht)
        rcases hdead (Bool.of_not_eq_false hphase) with htrue | ⟨v, r, rfl, himproper⟩
        · cases hflag.symm.trans htrue
        · rcases hhandled t ht with htrue | hproper
          · cases hflag.symm.trans htrue
          · exact himproper hproper
  | control hcontrol =>
      cases hcontrol with
      | start hstart => exact h.start hlife hfirst hstart
      | stop hstop => exact h.stop hlife hstop
      | joined hjoined =>
          unfold TaskSystem.joined at hjoined
          split at hjoined
          · cases hjoined
            exact ⟨nofun, nofun, nofun⟩
          · cases hjoined
      | stopped hstopped => exact h.stopped hlife hstopped

end Pool

section Runs

variable {I F O V : Type} {n : ℕ}

def TaskSystem.alive (s : TaskSystem I F O V (WorkerState I F O V)) : ℕ :=
  s.tasks.countP fun t ↦ !TaskSystem.WorkerState.isDead t.state

variable {s : TaskSystem I F O V (WorkerState I F O V)} {a : TaskSystem I F O V (Phase I F O)}

theorem Refines.handled (h : Refines s a) {act : TaskAction I F O V} (hhandled : Handled s act) :
    Handled a act := by
  cases act with
  | complete i v r =>
      intro u hu
      rcases h.task i with ⟨-, ha⟩ | ⟨state, phase, flag, hs, ha, -⟩
      · cases ha.symm.trans hu
      · cases ha.symm.trans hu
        exact hhandled _ hs
  | _ => trivial

theorem Refines.notRestarted (h : Refines s a) {act : TaskAction I F O V}
    (hfirst : NotRestarted s act) : NotRestarted a act := by
  cases act with
  | start =>
      unfold NotRestarted
      rw [← h.history]
      exact hfirst
  | _ => trivial

theorem Refines.alive (h : Refines s a) :
    s.alive = a.tasks.countP fun t ↦ !t.state.isDead := by
  have hcount : ∀ {ts : List (Worker (WorkerState I F O V))} {us : List (Worker (Phase I F O))},
      List.Forall₂ Corresponds ts us →
      ts.countP (fun t ↦ !TaskSystem.WorkerState.isDead t.state) =
        us.countP fun t ↦ !t.state.isDead := by
    intro ts us htu
    induction htu with
    | nil => rfl
    | cons hab hrest ih => rw [List.countP_cons, List.countP_cons, ih, hab.1.isDead]
  exact hcount h.tasks

theorem Staffed.alive_of_start (h : Staffed a) (hlife : Lifecycle n a)
    (hready : a.controller = .ready) (hlast : a.history.getLast? = some .start) :
    a.tasks.countP (fun t ↦ !t.state.isDead) = n := by
  obtain ⟨hstarted, hcancelling⟩ := h.lastStart hready hlast
  rw [← (hlife.pool hstarted).1, List.countP_eq_length]
  intro t ht
  rw [h.alive hcancelling t ht]
  rfl

theorem Staffed.dead_of_stop (h : Staffed a) (hlife : Lifecycle n a)
    (hready : a.controller = .ready) (hlast : a.history.getLast? = some .stop) :
    a.tasks.countP (fun t ↦ !t.state.isDead) = 0 := by
  rw [List.countP_eq_zero]
  intro t ht
  rcases h.lastStop hready hlast with hidle | hcancelling
  · rw [(hlife.idle hidle).1] at ht
    cases ht
  · rw [(hlife.stopped hready hcancelling).2 t ht]
    exact nofun

variable [DecidableEq I]

/-- No worker is killed, and the backend is not started again after a `stop`. -/
def LivelyStep (s : TaskSystem I F O V (WorkerState I F O V)) (act : TaskAction I F O V) : Prop :=
  CalmStep s act ∧ Handled s act ∧ NotRestarted s act

theorem worker_lifecycle (hn : 0 < n) (h : Reaches (fun s ↦ s.step n) LivelyStep .initial s)
    (hready : s.controller = .ready) :
    (s.history.getLast? = some .start → s.alive = n ∧
        (s.world.queue ≠ [] →
          ∃ t ∈ s.tasks, TaskSystem.WorkerState.isDead t.state = false)) ∧
      (s.history.getLast? = some .stop → s.alive = 0) := by
  obtain ⟨a, ha, hrefines, -⟩ := run_refines
    (fun a act ↦ Handled a act ∧ NotRestarted a act) (fun s act hok ↦ hok.1)
    (fun s a act hsa hok ↦ ⟨hsa.handled hok.2.1, hsa.notRestarted hok.2.2⟩)
    refines_initial sound_initial h
  have hinvariant : Lifecycle n a ∧ Unflagged a ∧ Staffed a := by
    refine ha.invariant (I := fun a ↦ Lifecycle n a ∧ Unflagged a ∧ Staffed a)
      ⟨lifecycle_initial, fun _ ↦ nofun, staffed_initial⟩ ?_
    rintro b act b' ⟨hlife, hflags, hstaffed⟩ hok hstep
    exact ⟨hlife.step hn hstep, unflagged_step hflags hstep,
      hstaffed.step hlife hflags hok.1 hok.2 hstep⟩
  obtain ⟨hlife, -, hstaffed⟩ := hinvariant
  have hcount := hrefines.alive
  rw [hrefines.controller] at hready
  rw [hrefines.history]
  constructor
  · intro hlast
    have halive : s.alive = n := hcount.trans (hstaffed.alive_of_start hlife hready hlast)
    refine ⟨halive, fun _ ↦ ?_⟩
    have hpos : 0 < s.alive := by rwa [halive]
    obtain ⟨t, ht, hlive⟩ := List.countP_pos_iff.mp hpos
    exact ⟨t, ht, by simpa using hlive⟩
  · intro hlast
    exact hcount.trans (hstaffed.dead_of_stop hlife hready hlast)

end Runs

section Samples

/-- A decidable condition that makes a step a lively one. -/
def Plain {I F O V : Type} (s : TaskSystem I F O V (WorkerState I F O V))
    (act : TaskAction I F O V) : Prop :=
  act.replies = [] ∧ act.Proper ∧ NotRestarted s act

instance {I F O V S : Type} (s : TaskSystem I F O V S) : DecidablePred (NotRestarted s)
  | .start => inferInstanceAs (Decidable (¬_))
  | .tick | .submit _ _ | .take _ _ | .complete _ _ _ | .wake _ _ | .cancel _ _ | .stop | .joined
  | .stopped => .isTrue trivial

instance {I F O V : Type} (s : TaskSystem I F O V (WorkerState I F O V))
    (act : TaskAction I F O V) : Decidable (Plain s act) :=
  inferInstanceAs (Decidable (_ ∧ _ ∧ _))

theorem handled_of_proper {I F O V S : Type} {s : TaskSystem I F O V S} {act : TaskAction I F O V}
    (h : act.Proper) : Handled s act := by
  cases act with
  | complete i v r => exact fun _ _ ↦ .inr h
  | _ => trivial

theorem Plain.lively {I F O V : Type} [DecidableEq I] {act : TaskAction I F O V}
    {s : TaskSystem I F O V (WorkerState I F O V)} (h : Plain s act) : LivelyStep s act :=
  ⟨calmStep_of_inert h.1, handled_of_proper h.2.1, h.2.2⟩

abbrev SampleBackend := TaskSystem ℕ Unit ℕ ℕ (WorkerState ℕ Unit ℕ ℕ)

/-- A task without retries. -/
def sampleTask : Payload ℕ Unit ℕ := ⟨7, (), [3], [], 0, 0, 1, 0⟩

theorem worker_lifecycle_sample : ∃ s : SampleBackend,
    Reaches (fun s ↦ s.step 2) LivelyStep .initial s ∧ s.history = [.start] ∧
      s.world.queue ≠ [] ∧ s.alive = 2 ∧
      ∃ t ∈ s.tasks, TaskSystem.WorkerState.isDead t.state = false := by
  have hrun : ∃ s : SampleBackend, Transition.run
      (fun (s : SampleBackend) a ↦ if Plain s a then s.step 2 a else none) .initial
      [.start, .submit sampleTask []] = some s ∧ s.controller = .ready ∧ s.history = [.start] ∧
        s.world.queue = [sampleTask] := ⟨_, rfl, rfl, rfl, rfl⟩
  obtain ⟨s, hs, hready, hhistory, hqueue⟩ := hrun
  have hreach : Reaches (fun s : SampleBackend ↦ s.step 2) LivelyStep .initial s :=
    (reaches_of_guarded_run hs).weaken fun _ _ h ↦ h.lively
  have hne : s.world.queue ≠ [] := by
    rw [hqueue]
    exact List.cons_ne_nil _ _
  have hlast : s.history.getLast? = some .start := by
    rw [hhistory]
    rfl
  obtain ⟨halive, hworker⟩ := (worker_lifecycle (by decide) hreach hready).1 hlast
  exact ⟨s, hreach, hhistory, hne, halive, hworker hne⟩

/-- A backend that was stopped is started again and gets a task. -/
def restartRun : List (TaskAction ℕ Unit ℕ ℕ) :=
  [.start, .stop, .cancel 0 [], .stopped, .start, .submit sampleTask []]

/-- After the restart there is no worker for the task. -/
theorem worker_lifecycle_fails :
    ¬∀ n, 0 < n → ∀ s : SampleBackend,
      Reaches (fun s ↦ s.step n) (fun s act ↦ CalmStep s act ∧ Handled s act) .initial s →
      s.controller = .ready → s.history.getLast? = some .start →
      s.alive = n ∧ (s.world.queue ≠ [] →
        ∃ t ∈ s.tasks, TaskSystem.WorkerState.isDead t.state = false) := by
  intro hclaim
  have hrun : ∃ s : SampleBackend, Transition.run (fun (s : SampleBackend) a ↦
      if a.replies = [] ∧ a.Proper then s.step 1 a else none) .initial restartRun = some s ∧
      s.controller = .ready ∧ s.history.getLast? = some .start ∧ s.alive = 0 :=
    ⟨_, rfl, rfl, rfl, rfl⟩
  obtain ⟨s, hs, hready, hlast, hdead⟩ := hrun
  have hguarded : Reaches (fun s : SampleBackend ↦ s.step 1)
      (fun _ act ↦ act.replies = [] ∧ act.Proper) .initial s := reaches_of_guarded_run hs
  have hreach : Reaches (fun s : SampleBackend ↦ s.step 1)
      (fun s act ↦ CalmStep s act ∧ Handled s act) .initial s :=
    hguarded.weaken fun _ _ h ↦ ⟨calmStep_of_inert h.1, handled_of_proper h.2⟩
  have halive := (hclaim 1 (by decide) s hreach hready hlast).1
  cases hdead.symm.trans halive

end Samples

end DjangoNova
