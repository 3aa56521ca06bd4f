import DjangoNova.Tasks.Simulation

/-!
# The lifecycle of the backend

`start` and `stop` are the only steps that change the list of workers. A
worker ends when it is cancelled, or when a task function raises what the
loop does not handle. `stop` never resets `started`, so a backend that was
stopped has no workers after another `start`.
-/

namespace DjangoNova

open Transition

section Control

variable {I F O V : Type}

/-- An outcome that the worker's loop handles: a value, or an exception with
a text. -/
def ProperOutcome : Except TaskExn V → Prop
  | .error .cancelled | .error (.exception none) => False
  | .error (.exception (some _)) | .ok _ => True

instance : DecidablePred (ProperOutcome (V := V))
  | .error .cancelled | .error (.exception none) => .isFalse id
  | .error (.exception (some _)) | .ok _ => .isTrue trivial

/-- A task function that ends does so properly. -/
def TaskAction.Proper : TaskAction I F O V → Prop
  | .complete _ v _ => ProperOutcome v
  | _ => True

instance : DecidablePred (TaskAction.Proper (I := I) (F := F) (O := O) (V := V))
  | .complete _ v _ => inferInstanceAs (Decidable (ProperOutcome v))
  | .tick | .submit _ _ | .take _ _ | .wake _ _ | .cancel _ _ | .start | .stop | .joined
  | .stopped => .isTrue trivial

/-- The worker is told to cancel, or its task function does not end properly. -/
def Kills (act : TaskAction I F O V) (i : ℕ) (t : Worker (Phase I F O)) : Prop :=
  t.cancelRequested = true ∨ ∃ v r, act = .complete i v r ∧ ¬ProperOutcome v

/-- What a step does to the world: the waiter is woken up only when nothing
is unfinished. -/
def TaskWorld.Wakes (w w' : TaskWorld I F O V) : Prop :=
  w'.waiter = w.waiter ∨ w'.unfinished = 0 ∧ (w'.waiter.isSome ↔ w.waiter.isSome)

variable {a a' : TaskSystem I F O V (Phase I F O)} {n : ℕ} {act : TaskAction I F O V}

/-- The steps by which the controls change. -/
inductive Controls (n : ℕ) (a a' : TaskSystem I F O V (Phase I F O)) : TaskAction I F O V → Prop
  | start (h : a.start n .idle = some a') : Controls n a a' .start
  | stop (h : a.stop = some a') : Controls n a a' .stop
  | joined (h : a.joined = some a') : Controls n a a' .joined
  | stopped (h : a.stopped Phase.isDead = some a') : Controls n a a' .stopped

/-- The three kinds of steps, as the controls see them. -/
inductive Acts (n : ℕ) (a : TaskSystem I F O V (Phase I F O)) (act : TaskAction I F O V)
    (a' : TaskSystem I F O V (Phase I F O)) : Prop
  | outside (w : TaskWorld I F O V) (h : a' = { a with world := w }) (hw : a.world.Wakes w)
  | worker (i : ℕ) (t : Worker (Phase I F O)) (w : TaskWorld I F O V) (phase : Phase I F O)
      (ht : a.tasks[i]? = some t) (halive : t.state.isDead = false)
      (hdead : phase.isDead = true → Kills act i t) (h : a' = a.settle i w phase)
      (hw : a.world.Wakes w)
  | control (h : Controls n a a' act)

variable {w : TaskWorld I F O V} {p : Payload I F O} [DecidableEq I]

omit [DecidableEq I] in
theorem taskDone_wakes : w.Wakes w.taskDone := by
  unfold TaskWorld.Wakes TaskWorld.taskDone
  by_cases h : w.unfinished = 1
  · right
    simp [h]
  · left
    simp [h]

theorem concluded_wakes : w.Wakes (w.concluded p) := by
  unfold TaskWorld.concluded
  split
  · exact taskDone_wakes
  · exact taskDone_wakes (w := w.modify p.taskId .finished)

theorem completed_wakes (v : Except TaskExn V) : w.Wakes (w.completed p v).1 := by
  rcases v with (text | _) | v
  · unfold TaskWorld.completed
    dsimp only
    split
    · cases text with
      | some text => exact .inl rfl
      | none => exact concluded_wakes (w := w.retried p)
    · cases text with
      | some text => exact concluded_wakes (w := (_ : TaskWorld I F O V))
      | none => exact concluded_wakes (w := w.modify p.taskId (.status .failed))
  · exact concluded_wakes
  · exact concluded_wakes (w := w.succeeded p v)

theorem completed_dead {v : Except TaskExn V} (h : (w.completed p v).2.isDead = true) :
    ¬ProperOutcome v := by
  rcases v with (text | _) | v
  · unfold TaskWorld.completed at h
    dsimp only at h
    cases text with
    | none => exact id
    | some text =>
        split at h
        · cases h
        · cases h
  · exact id
  · cases h

theorem begun_alive : (w.begun p).2.isDead = false := by
  unfold TaskWorld.begun
  split <;> rfl

theorem begun_waiter : (w.begun p).1.waiter = w.waiter := by
  unfold TaskWorld.begun
  split <;> rfl

theorem phaseStep_acts (h : a.phaseStep n act = some a') : Acts n a act a' := by
  cases act with
  | tick =>
      cases h
      exact .outside _ rfl (.inl rfl)
  | submit p r =>
      simp only [TaskSystem.phaseStep] at h
      split at h
      · cases h
        exact .outside _ rfl (.inl rfl)
      · cases h
  | take i r =>
      simp only [TaskSystem.phaseStep] at h
      split at h
      next p rest hi hqueue =>
        cases h
        refine .worker i _ _ _ hi rfl ?_ rfl (.inl begun_waiter)
        rw [begun_alive]
        exact Bool.noConfusion
      next => cases h
  | complete i v r =>
      simp only [TaskSystem.phaseStep] at h
      split at h
      next p flag hi =>
        cases h
        have hwakes := completed_wakes (w := a.world.record (.ended p.taskId v)) (p := p) v
        exact .worker i _ _ _ hi rfl (fun hdead ↦ .inr ⟨v, r, rfl, completed_dead hdead⟩) rfl
          hwakes
      next => cases h
  | wake i r =>
      simp only [TaskSystem.phaseStep] at h
      split at h
      next p hi =>
        cases h
        exact .worker i _ _ (.running p) hi rfl Bool.noConfusion rfl (.inl rfl)
      next p hi =>
        cases h
        exact .worker i _ _ .idle hi rfl Bool.noConfusion rfl
          (concluded_wakes (w := a.world.put (AsyncioBackend.Payload.next p)))
      next => cases h
  | cancel i r =>
      simp only [TaskSystem.phaseStep] at h
      split at h
      next hi =>
        cases h
        exact .worker i _ _ _ hi rfl (fun _ ↦ .inl rfl) rfl (.inl rfl)
      next p hi =>
        cases h
        exact .worker i _ _ _ hi rfl (fun _ ↦ .inl rfl) rfl (.inl rfl)
      next p hi =>
        cases h
        exact .worker i _ _ _ hi rfl (fun _ ↦ .inl rfl) rfl concluded_wakes
      next => cases h
  | start => exact .control (.start h)
  | stop => exact .control (.stop h)
  | joined => exact .control (.joined h)
  | stopped => exact .control (.stopped h)

end Control

section Lifecycle

variable {I F O V : Type} {n : ℕ}

/-- The law of the controls: the workers are created once, live until they
are cancelled, and are then all dead. -/
structure Lifecycle (n : ℕ) (a : TaskSystem I F O V (Phase I F O)) : Prop where
  idle : a.started = false →
    a.tasks = [] ∧ a.workers = [] ∧ a.controller = .ready ∧ a.cancelling = false
  pool : a.started = true → a.tasks.length = n ∧ .start ∈ a.history
  workers : a.workers ≠ [] → a.workers = List.range' 0 n ∧ a.cancelling = false
  joining : a.controller = .joining → a.workers ≠ []
  gathering : ∀ ws, a.controller = .gathering ws → ws = List.range' 0 n ∧ a.cancelling = true
  halted : a.controller = .ready → a.started = true → a.workers = [] → a.cancelling = true
  stopped : a.controller = .ready → a.cancelling = true →
    [LifecycleCall.start, .stop].Sublist a.history ∧ ∀ t ∈ a.tasks, t.state.isDead = true

variable {a a' : TaskSystem I F O V (Phase I F O)}

theorem Lifecycle.started_of_workers (h : Lifecycle n a) (hworkers : a.workers ≠ []) :
    a.started = true := by
  by_contra hstarted
  exact hworkers (h.idle (Bool.eq_false_iff.mpr hstarted)).2.1

theorem Lifecycle.cancelAll (h : Lifecycle n a) (hworkers : a.workers ≠ []) :
    Lifecycle n a.cancelAll := by
  have hstarted := h.started_of_workers hworkers
  constructor
  · intro hidle
    cases hstarted.symm.trans hidle
  · intro _
    refine ⟨?_, (h.pool hstarted).2⟩
    simp [TaskSystem.cancelAll, (h.pool hstarted).1]
  · exact fun hne ↦ absurd rfl hne
  · intro hjoining
    cases hjoining
  · intro ws hws
    cases hws
    exact ⟨(h.workers hworkers).1, rfl⟩
  · intro hready
    cases hready
  · intro hready
    cases hready

theorem Lifecycle.start (h : Lifecycle n a) (hn : 0 < n) (hstart : a.start n .idle = some a') :
    Lifecycle n a' := by
  unfold TaskSystem.start at hstart
  split at hstart
  next hready =>
    split at hstart
    next hstarted =>
      cases hstart
      refine ⟨h.idle, ?_, h.workers, h.joining, h.gathering, h.halted, ?_⟩
      · exact fun _ ↦ ⟨(h.pool hstarted).1, List.mem_append_right _ List.mem_cons_self⟩
      · intro _ hcancelling
        obtain ⟨hsub, hdead⟩ := h.stopped hready hcancelling
        exact ⟨hsub.trans (List.sublist_append_left _ _), hdead⟩
    next hstarted =>
      obtain ⟨htasks, -, -, hcancelling⟩ := h.idle (Bool.eq_false_iff.mpr hstarted)
      cases hstart
      have hne : List.range' a.tasks.length n ≠ [] := by
        rw [Ne, List.range'_eq_nil_iff]
        omega
      constructor
      · exact nofun
      · intro _
        refine ⟨?_, List.mem_append_right _ List.mem_cons_self⟩
        simp [htasks]
      · intro _
        exact ⟨by rw [htasks]; rfl, hcancelling⟩
      · exact fun _ ↦ hne
      · intro ws hws
        cases hready.symm.trans hws
      · exact fun _ _ hworkers ↦ absurd hworkers hne
      · intro _ htrue
        cases hcancelling.symm.trans htrue
  next => cases hstart

theorem Lifecycle.stop (h : Lifecycle n a) (hstop : a.stop = some a') : Lifecycle n a' := by
  unfold TaskSystem.stop at hstop
  split at hstop
  next hready =>
    dsimp only at hstop
    split at hstop
    next hworkers =>
      cases hstop
      refine ⟨h.idle, ?_, h.workers, h.joining, h.gathering, h.halted, ?_⟩
      · exact fun hstarted ↦ (h.pool hstarted).imp_right (List.mem_append_left _)
      · intro _ hcancelling
        obtain ⟨hsub, hdead⟩ := h.stopped hready hcancelling
        exact ⟨hsub.trans (List.sublist_append_left _ _), hdead⟩
    next hworkers =>
      split at hstop
      · cases hstop
        exact Lifecycle.cancelAll (a := { a with
          promised := TaskSystem.submittedIds a.world.log }) ⟨h.idle, h.pool, h.workers, h.joining,
            h.gathering, h.halted, h.stopped⟩ hworkers
      · cases hstop
        have hstarted := h.started_of_workers hworkers
        refine ⟨?_, h.pool, h.workers, fun _ ↦ hworkers, nofun, nofun, nofun⟩
        intro hidle
        cases hstarted.symm.trans hidle
  next => cases hstop

theorem Lifecycle.joined (h : Lifecycle n a) (hjoined : a.joined = some a') : Lifecycle n a' := by
  unfold TaskSystem.joined at hjoined
  split at hjoined
  next hjoining _ =>
    cases hjoined
    exact h.cancelAll (h.joining hjoining)
  next => cases hjoined

theorem Lifecycle.stoppedStep (h : Lifecycle n a) (hstopped : a.stopped Phase.isDead = some a') :
    Lifecycle n a' := by
  unfold TaskSystem.stopped at hstopped
  split at hstopped
  next ws hgathering =>
    split at hstopped
    next hall =>
      cases hstopped
      obtain ⟨rfl, hcancelling⟩ := h.gathering ws hgathering
      have hstarted : a.started = true := by
        by_contra hstarted
        obtain ⟨-, -, hready, -⟩ := h.idle (Bool.eq_false_iff.mpr hstarted)
        cases hready.symm.trans hgathering
      obtain ⟨hlength, hmem⟩ := h.pool hstarted
      constructor
      · intro hidle
        cases hstarted.symm.trans hidle
      · exact fun _ ↦ ⟨hlength, List.mem_append_left _ hmem⟩
      · exact h.workers
      · exact nofun
      · exact nofun
      · exact fun _ _ _ ↦ hcancelling
      · intro _ _
        constructor
        · exact (List.singleton_sublist.mpr hmem).append (.refl [LifecycleCall.stop])
        · intro t ht
          obtain ⟨i, hi, rfl⟩ := List.getElem_of_mem ht
          have hlt : i < n := hi.trans_eq hlength
          have hrange : i ∈ List.range' 0 n := by
            rw [List.mem_range'_1]
            omega
          have hdead := List.all_eq_true.mp hall i hrange
          rwa [List.getElem?_eq_getElem hi] at hdead
    next => cases hstopped
  next => cases hstopped

theorem Lifecycle.step [DecidableEq I] (h : Lifecycle n a) (hn : 0 < n)
    {act : TaskAction I F O V} (hstep : a.phaseStep n act = some a') : Lifecycle n a' := by
  cases phaseStep_acts hstep with
  | outside w ha hw =>
      subst ha
      exact ⟨h.idle, h.pool, h.workers, h.joining, h.gathering, h.halted, h.stopped⟩
  | worker i t w phase ht halive hdead ha hw =>
      subst ha
      refine ⟨?_, ?_, h.workers, h.joining, h.gathering, h.halted, ?_⟩
      · intro hidle
        rw [(h.idle hidle).1] at ht
        cases ht
      · exact fun hstarted ↦ (h.pool hstarted).imp_left fun hlength ↦
          (List.length_set ..).trans hlength
      · intro hready hcancelling
        have htrue := (h.stopped hready hcancelling).2 t (List.mem_of_getElem? ht)
        cases halive.symm.trans htrue
  | control hcontrol =>
      cases hcontrol with
      | start hstart => exact h.start hn hstart
      | stop hstop => exact h.stop hstop
      | joined hjoined => exact h.joined hjoined
      | stopped hstopped => exact h.stoppedStep hstopped

theorem lifecycle_initial : Lifecycle n (TaskSystem.initial : TaskSystem I F O V (Phase I F O)) :=
  ⟨fun _ ↦ ⟨rfl, rfl, rfl, rfl⟩, nofun, fun h ↦ absurd rfl h, nofun, nofun, nofun, nofun⟩

end Lifecycle

end DjangoNova
