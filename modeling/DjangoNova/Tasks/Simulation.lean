import Mathlib.Data.List.Forall2
import DjangoNova.Tasks.Refinement
import DjangoNova.Tasks.Soundness

/-!
# Simulation

As long as `set_attribute` does not raise, the backend and the abstract
backend do the same steps, whatever else the tracing provider replies.
-/

namespace DjangoNova

open AsyncioBackend

section Refines

variable {I F O V : Type}

/-- The same worker in the code and in the abstract backend. -/
def Corresponds (t : Worker (WorkerState I F O V)) (u : Worker (Phase I F O)) : Prop :=
  Matches t.state u.state ∧ t.cancelRequested = u.cancelRequested

structure Refines (s : TaskSystem I F O V (WorkerState I F O V))
    (a : TaskSystem I F O V (Phase I F O)) : Prop where
  world : s.world = a.world
  tasks : List.Forall₂ Corresponds s.tasks a.tasks
  workers : s.workers = a.workers
  started : s.started = a.started
  controller : s.controller = a.controller
  history : s.history = a.history
  promised : s.promised = a.promised
  cancelling : s.cancelling = a.cancelling

def TaskAction.replies : TaskAction I F O V → SpanReplies
  | .submit _ r | .take _ r | .complete _ _ r | .wake _ r | .cancel _ r => r
  | _ => []

variable [DecidableEq I]

/-- No call of `set_attribute` raises in the stretch of the action. -/
def CalmStep (s : TaskSystem I F O V (WorkerState I F O V)) : TaskAction I F O V → Prop
  | .submit p replies => Calm (submit p) (s.world.record (.submitted p)) replies
  | .take _ replies => ∀ p rest, s.world.queue = p :: rest →
      Calm (worker p) { s.world with queue := rest } replies
  | .complete i v replies => ∀ p id k flag,
      s.tasks[i]? = some ⟨.busy p (.step (.await id) k), flag⟩ →
      Calm (k v) (s.world.record (.ended p.taskId v)) replies
  | .wake i replies => ∀ p seconds k flag,
      s.tasks[i]? = some ⟨.busy p (.step (.sleep seconds) k), flag⟩ →
      Calm (k (.ok ())) s.world replies
  | .cancel i replies => ∀ p seconds k flag,
      s.tasks[i]? = some ⟨.busy p (.step (.sleep seconds) k), flag⟩ →
      Calm (k (.error .cancelled)) s.world replies
  | _ => True

end Refines

section Lists

variable {α β : Type} {R : α → β → Prop} {l : List α} {l' : List β}

theorem forall₂_set (h : List.Forall₂ R l l') {x : α} {y : β} (hxy : R x y) (i : ℕ) :
    List.Forall₂ R (l.set i x) (l'.set i y) := by
  induction h generalizing i with
  | nil => exact .nil
  | cons hab hrest ih =>
      cases i with
      | zero => exact .cons hxy hrest
      | succ i => exact .cons hab (ih i)

theorem forall₂_getElem? (h : List.Forall₂ R l l') (i : ℕ) : Option.Rel R l[i]? l'[i]? := by
  induction h generalizing i with
  | nil => exact .none
  | cons hab hrest ih =>
      cases i with
      | zero => exact .some hab
      | succ i => exact ih i

theorem forall₂_mapIdx {f : ℕ → α → α} {g : ℕ → β → β} (h : List.Forall₂ R l l')
    (hfg : ∀ i x y, R x y → R (f i x) (g i y)) :
    List.Forall₂ R (l.mapIdx f) (l'.mapIdx g) := by
  induction h generalizing f g with
  | nil => exact .nil
  | cons hab hrest ih =>
      rw [List.mapIdx_cons, List.mapIdx_cons]
      exact .cons (hfg 0 _ _ hab) (ih fun i ↦ hfg (i + 1))

theorem forall₂_replicate {x : α} {y : β} (h : R x y) (n : ℕ) :
    List.Forall₂ R (List.replicate n x) (List.replicate n y) := by
  induction n with
  | zero => exact .nil
  | succ n ih => exact .cons h ih

end Lists

section Simulation

variable {I F O V : Type} {s : TaskSystem I F O V (WorkerState I F O V)}
  {a : TaskSystem I F O V (Phase I F O)}

theorem refines_initial :
    Refines (TaskSystem.initial (I := I) (F := F) (O := O) (V := V)) .initial :=
  ⟨rfl, .nil, rfl, rfl, rfl, rfl, rfl, rfl⟩

theorem Refines.task (h : Refines s a) (i : ℕ) :
    s.tasks[i]? = none ∧ a.tasks[i]? = none ∨
      ∃ state phase flag, s.tasks[i]? = some ⟨state, flag⟩ ∧ a.tasks[i]? = some ⟨phase, flag⟩ ∧
        Matches state phase := by
  have hi := forall₂_getElem? h.tasks i
  generalize s.tasks[i]? = t at hi
  generalize a.tasks[i]? = u at hi
  cases hi with
  | none => exact .inl ⟨rfl, rfl⟩
  | @some t u hab =>
      obtain ⟨state, flag⟩ := t
      obtain ⟨phase, flag'⟩ := u
      obtain ⟨hmatches, rfl⟩ := hab
      exact .inr ⟨state, phase, _, rfl, rfl, hmatches⟩

theorem Refines.settle (h : Refines s a) (i : ℕ) (w : TaskWorld I F O V)
    {state : WorkerState I F O V} {phase : Phase I F O} (hmatches : Matches state phase) :
    Refines (s.settle i w state) (a.settle i w phase) :=
  { h with world := rfl, tasks := forall₂_set h.tasks ⟨hmatches, rfl⟩ i }

theorem Refines.cancelAll (h : Refines s a) : Refines s.cancelAll a.cancelAll := by
  constructor
  · show { s.world with waiter := none } = { a.world with waiter := none }
    rw [h.world]
  · apply forall₂_mapIdx h.tasks
    intro i t u htu
    rw [h.workers]
    split
    · exact ⟨htu.1, rfl⟩
    · exact htu
  · rfl
  · exact h.started
  · show Controller.gathering s.workers = .gathering a.workers
    rw [h.workers]
  · exact h.history
  · exact h.promised
  · rfl

variable [DecidableEq I]

/-- A calm stretch takes the worker to the phase at which the abstract one
arrives. -/
theorem Refines.resume (h : Refines s a) (i : ℕ) {p : Payload I F O}
    {code q q' : TaskProgram I F O V Unit}
    (hcode : ErasesTo code q) {w w' : TaskWorld I F O V} {replies : SpanReplies}
    (hcalm : Calm code w replies) {phase : Phase I F O} (hq : advance q w [] = (w', q'))
    (harrives : Arrives p q' phase) :
    Refines (s.resume i p code w replies) (a.settle i w' phase) := by
  obtain ⟨hworld, herases⟩ := advance_erases hcode hcalm
  rw [hq] at hworld herases
  have hmatches : Matches (TaskSystem.workerState p (advance code w replies).2) phase :=
    matches_workerState (advance_suspended _ _ _) herases harrives
  unfold TaskSystem.resume
  dsimp only
  rw [hworld]
  exact h.settle i w' hmatches

theorem calm_nil {α : Type} (q : TaskProgram I F O V α) (w : TaskWorld I F O V) :
    Calm q w [] := by
  induction q generalizing w with
  | done v => trivial
  | step e k ih =>
      cases e with
      | atomic a => exact ih _ _
      | span c => exact ⟨fun _ ↦ ⟨false, rfl⟩, ih _ _⟩
      | await id => trivial
      | sleep seconds => trivial

/-- An inert tracer raises nothing. -/
theorem calmStep_of_inert {act : TaskAction I F O V} (h : act.replies = []) : CalmStep s act := by
  cases act with
  | submit p r =>
      obtain rfl : r = [] := h
      exact calm_nil _ _
  | take i r =>
      obtain rfl : r = [] := h
      exact fun _ _ _ ↦ calm_nil _ _
  | complete i v r =>
      obtain rfl : r = [] := h
      exact fun _ _ _ _ _ ↦ calm_nil _ _
  | wake i r =>
      obtain rfl : r = [] := h
      exact fun _ _ _ _ _ ↦ calm_nil _ _
  | cancel i r =>
      obtain rfl : r = [] := h
      exact fun _ _ _ _ _ ↦ calm_nil _ _
  | _ => trivial

variable (n : ℕ)

theorem submit_refines (h : Refines s a) (p : Payload I F O) (r : SpanReplies)
    (hcalm : CalmStep s (.submit p r)) :
    Option.Rel Refines (s.step n (.submit p r)) (a.phaseStep n (.submit p r)) := by
  simp only [TaskSystem.step, TaskSystem.phaseStep, ← h.world]
  split
  next hnew =>
    obtain ⟨hworld, -⟩ := advance_erases erases_submit hcalm
    rw [advance_submit] at hworld
    exact .some { h with world := hworld }
  next => exact .none

theorem take_refines (h : Refines s a) (hsound : Sound a.world a.stages) (i : ℕ) (r : SpanReplies)
    (hcalm : CalmStep s (.take i r)) :
    Option.Rel Refines (s.step n (.take i r)) (a.phaseStep n (.take i r)) := by
  simp only [TaskSystem.step, TaskSystem.phaseStep, ← h.world]
  rcases h.task i with ⟨hs, ha⟩ | ⟨state, phase, flag, hs, ha, hmatches⟩
  · rw [hs, ha]
    exact .none
  · rw [hs, ha]
    cases hmatches with
    | dead => exact .none
    | busy hphase hcode herases =>
        cases phase with
        | idle => cases hphase
        | _ => exact .none
    | idle =>
        cases flag with
        | true => exact .none
        | false =>
            cases hqueue : s.world.queue with
            | nil => exact .none
            | cons p rest =>
                have hmem : Stage.waiting p ∈ a.stages := by
                  simp [TaskSystem.stages, ← h.world, hqueue]
                obtain ⟨t, ht, -⟩ := hsound.known _ hmem
                have hlookup : ({ s.world with queue := rest }.results p.taskId).isSome := by
                  rw [Option.isSome_iff_exists]
                  rw [← h.world] at ht
                  exact ⟨t, ht⟩
                obtain ⟨q, hq, harrives⟩ := advance_worker hlookup
                exact .some (h.resume i erases_worker (hcalm p rest hqueue) hq harrives)

omit [DecidableEq I] in
/-- A payload is on the counter. -/
theorem unfinished_pos (h : Refines s a) (hsound : Sound a.world a.stages) {i : ℕ}
    {t : Worker (Phase I F O)} (hi : a.tasks[i]? = some t) {x : Stage I F O}
    (hx : t.state.stage = some x) : 0 < s.world.unfinished := by
  have hmem : x ∈ a.stages := by
    apply List.mem_append_right
    exact List.mem_filterMap.mpr ⟨t, List.mem_of_getElem? hi, hx⟩
  rw [h.world]
  exact (List.length_pos_of_mem hmem).trans_le hsound.counted

theorem complete_refines (h : Refines s a) (hsound : Sound a.world a.stages) (i : ℕ)
    (v : Except TaskExn V) (r : SpanReplies) (hcalm : CalmStep s (.complete i v r)) :
    Option.Rel Refines (s.step n (.complete i v r)) (a.phaseStep n (.complete i v r)) := by
  simp only [TaskSystem.step, TaskSystem.phaseStep, ← h.world]
  rcases h.task i with ⟨hs, ha⟩ | ⟨state, phase, flag, hs, ha, hmatches⟩
  · rw [hs, ha]
    exact .none
  · rw [hs, ha]
    cases phase with
    | idle =>
        cases hmatches with
        | idle => exact .none
        | busy hphase _ _ => cases hphase
    | dead =>
        cases hmatches with
        | dead => exact .none
        | busy hphase _ _ => cases hphase
    | delaying p =>
        obtain ⟨k, rfl, hk⟩ := hmatches.delaying
        exact .none
    | resting p =>
        obtain ⟨k, rfl, hk⟩ := hmatches.resting
        exact .none
    | running p =>
        obtain ⟨k, rfl, hk⟩ := hmatches.running
        have hpos : 0 < s.world.unfinished := unfinished_pos h hsound ha rfl
        obtain ⟨q, hq, harrives⟩ :=
          advance_afterRun (w := s.world.record (.ended p.taskId v)) (p := p) hpos v
        exact .some (h.resume i (hk v) (hcalm _ _ k flag hs) hq harrives)

theorem wake_refines (h : Refines s a) (i : ℕ) (r : SpanReplies)
    (hcalm : CalmStep s (.wake i r)) :
    Option.Rel Refines (s.step n (.wake i r)) (a.phaseStep n (.wake i r)) := by
  simp only [TaskSystem.step, TaskSystem.phaseStep, ← h.world]
  rcases h.task i with ⟨hs, ha⟩ | ⟨state, phase, flag, hs, ha, hmatches⟩
  · rw [hs, ha]
    exact .none
  · rw [hs, ha]
    cases phase with
    | idle =>
        cases hmatches with
        | idle => exact .none
        | busy hphase _ _ => cases hphase
    | dead =>
        cases hmatches with
        | dead => exact .none
        | busy hphase _ _ => cases hphase
    | running p =>
        obtain ⟨k, rfl, hk⟩ := hmatches.running
        exact .none
    | delaying p =>
        obtain ⟨k, rfl, hk⟩ := hmatches.delaying
        cases flag with
        | true => exact .none
        | false =>
            exact .some (h.resume i (hk _) (hcalm _ _ k false hs) advance_afterDelay
              (.suspended rfl))
    | resting p =>
        obtain ⟨k, rfl, hk⟩ := hmatches.resting
        cases flag with
        | true => exact .none
        | false => exact .some (h.resume i (hk _) (hcalm _ _ k false hs) advance_afterRest .ended)

theorem cancel_refines (h : Refines s a) (hsound : Sound a.world a.stages) (i : ℕ)
    (r : SpanReplies) (hcalm : CalmStep s (.cancel i r)) :
    Option.Rel Refines (s.step n (.cancel i r)) (a.phaseStep n (.cancel i r)) := by
  simp only [TaskSystem.step, TaskSystem.phaseStep, ← h.world]
  rcases h.task i with ⟨hs, ha⟩ | ⟨state, phase, flag, hs, ha, hmatches⟩
  · rw [hs, ha]
    exact .none
  · rw [hs, ha]
    cases phase with
    | idle =>
        cases hmatches with
        | idle =>
            cases flag with
            | true => exact .some (h.settle i s.world .dead)
            | false => exact .none
        | busy hphase _ _ => cases hphase
    | dead =>
        cases hmatches with
        | dead => exact .none
        | busy hphase _ _ => cases hphase
    | running p =>
        obtain ⟨k, rfl, hk⟩ := hmatches.running
        exact .none
    | delaying p =>
        obtain ⟨k, rfl, hk⟩ := hmatches.delaying
        cases flag with
        | true =>
            have hq : advance (afterDelay p (.error .cancelled) : TaskProgram I F O V Unit) s.world
                [] = (s.world, .done (.error .cancelled)) := rfl
            exact .some (h.resume i (hk _) (hcalm _ _ k true hs) hq (.failed _))
        | false => exact .none
    | resting p =>
        obtain ⟨k, rfl, hk⟩ := hmatches.resting
        cases flag with
        | true =>
            have hpos : 0 < s.world.unfinished := unfinished_pos h hsound ha rfl
            exact .some (h.resume i (hk _) (hcalm _ _ k true hs) (advance_afterRest_cancelled hpos)
              (.failed _))
        | false => exact .none

omit [DecidableEq I]

theorem start_refines (h : Refines s a) :
    Option.Rel Refines (s.start n .idle) (a.start n .idle) := by
  obtain ⟨world, tasks, workers, started, controller, history, promised, cancelling⟩ := s
  obtain ⟨world', tasks', workers', started', controller', history', promised', cancelling'⟩ := a
  obtain ⟨rfl, htasks, rfl, rfl, rfl, rfl, rfl, rfl⟩ := h
  cases controller with
  | ready =>
      cases started with
      | true => exact .some ⟨rfl, htasks, rfl, rfl, rfl, rfl, rfl, rfl⟩
      | false =>
          have hworkers : List.range' tasks.length n = List.range' tasks'.length n := by
            rw [htasks.length_eq]
          have hidle : Corresponds (I := I) (F := F) (O := O) (V := V) ⟨.idle, false⟩
              ⟨.idle, false⟩ := ⟨.idle, rfl⟩
          have htasks' := List.rel_append htasks (forall₂_replicate hidle n)
          exact .some ⟨rfl, htasks', hworkers, rfl, rfl, rfl, rfl, rfl⟩
  | joining => exact .none
  | gathering ws => exact .none

theorem stop_refines (h : Refines s a) : Option.Rel Refines s.stop a.stop := by
  obtain ⟨world, tasks, workers, started, controller, history, promised, cancelling⟩ := s
  obtain ⟨world', tasks', workers', started', controller', history', promised', cancelling'⟩ := a
  obtain ⟨rfl, htasks, rfl, rfl, rfl, rfl, rfl, rfl⟩ := h
  cases controller with
  | ready =>
      unfold TaskSystem.stop
      dsimp only
      split
      · exact .some ⟨rfl, htasks, rfl, rfl, rfl, rfl, rfl, rfl⟩
      · split
        · exact .some (Refines.cancelAll ⟨rfl, htasks, rfl, rfl, rfl, rfl, rfl, rfl⟩)
        · exact .some ⟨rfl, htasks, rfl, rfl, rfl, rfl, rfl, rfl⟩
  | joining => exact .none
  | gathering ws => exact .none

theorem joined_refines (h : Refines s a) : Option.Rel Refines s.joined a.joined := by
  have hall := h.cancelAll
  unfold TaskSystem.joined
  rw [h.controller, h.world]
  split
  · exact .some hall
  · exact .none

theorem stopped_refines (h : Refines s a) :
    Option.Rel Refines (s.stopped TaskSystem.WorkerState.isDead) (a.stopped Phase.isDead) := by
  have hdead : ∀ i : ℕ,
      ((s.tasks[i]?).any fun t : Worker (WorkerState I F O V) ↦
          TaskSystem.WorkerState.isDead t.state) =
        (a.tasks[i]?).any fun t : Worker (Phase I F O) ↦ t.state.isDead := by
    intro i
    rcases h.task i with ⟨hs, ha⟩ | ⟨state, phase, flag, hs, ha, hmatches⟩
    · rw [hs, ha]
      rfl
    · rw [hs, ha]
      exact hmatches.isDead
  obtain ⟨world, tasks, workers, started, controller, history, promised, cancelling⟩ := s
  obtain ⟨world', tasks', workers', started', controller', history', promised', cancelling'⟩ := a
  obtain ⟨rfl, htasks, rfl, rfl, rfl, rfl, rfl, rfl⟩ := h
  cases controller with
  | ready => exact .none
  | joining => exact .none
  | gathering ws =>
      unfold TaskSystem.stopped
      simp only [hdead]
      split
      · exact .some ⟨rfl, htasks, rfl, rfl, rfl, rfl, rfl, rfl⟩
      · exact .none

variable [DecidableEq I]

/-- A calm step of the code is a step of the abstract backend, and the
other way round. -/
theorem step_refines (h : Refines s a) (hsound : Sound a.world a.stages)
    {act : TaskAction I F O V} (hcalm : CalmStep s act) :
    Option.Rel Refines (s.step n act) (a.phaseStep n act) := by
  cases act with
  | tick =>
      have hworld : s.tick.world = a.tick.world := by
        show { s.world with now := s.world.now + 1 } = { a.world with now := a.world.now + 1 }
        rw [h.world]
      exact .some { h with world := hworld }
  | submit p r => exact submit_refines n h p r hcalm
  | take i r => exact take_refines n h hsound i r hcalm
  | complete i v r => exact complete_refines n h hsound i v r hcalm
  | wake i r => exact wake_refines n h i r hcalm
  | cancel i r => exact cancel_refines n h hsound i r hcalm
  | start => exact start_refines n h
  | stop => exact stop_refines h
  | joined => exact joined_refines h
  | stopped => exact stopped_refines h

end Simulation

section Runs

open Transition

variable {I F O V : Type} [DecidableEq I] {n : ℕ}
  {ok : TaskSystem I F O V (WorkerState I F O V) → TaskAction I F O V → Prop}
  {s s' : TaskSystem I F O V (WorkerState I F O V)} {a : TaskSystem I F O V (Phase I F O)}

omit [DecidableEq I] in
theorem sound_initial : Sound (TaskSystem.initial : TaskSystem I F O V (Phase I F O)).world
    (TaskSystem.initial : TaskSystem I F O V (Phase I F O)).stages :=
  ⟨List.nodup_nil, nofun, le_refl 0⟩

theorem sound_step {a' : TaskSystem I F O V (Phase I F O)} {act : TaskAction I F O V}
    (h : Sound a.world a.stages) (hstep : a.phaseStep n act = some a') :
    Sound a'.world a'.stages := (phaseStep_moves hstep).sound h

/-- Every calm run of the code is a run of the abstract backend. -/
theorem run_refines (ok' : TaskSystem I F O V (Phase I F O) → TaskAction I F O V → Prop)
    (hcalm : ∀ s act, ok s act → CalmStep s act)
    (hok : ∀ s a act, Refines s a → ok s act → ok' a act)
    (h : Refines s a) (hsound : Sound a.world a.stages)
    (hrun : Reaches (fun s ↦ s.step n) ok s s') :
    ∃ a', Reaches (fun a ↦ a.phaseStep n) ok' a a' ∧ Refines s' a' ∧ Sound a'.world a'.stages := by
  induction hrun with
  | start => exact ⟨a, .start, h, hsound⟩
  | @move s₁ s₂ act hs hact hstep ih =>
      obtain ⟨a₁, ha, hrefines, hsound₁⟩ := ih
      have hrel := step_refines (n := n) hrefines hsound₁ (hcalm _ _ hact)
      rw [show s₁.step n act = some s₂ from hstep] at hrel
      cases hstep' : a₁.phaseStep n act with
      | none =>
          rw [hstep'] at hrel
          cases hrel
      | some a₂ =>
          rw [hstep'] at hrel
          cases hrel with
          | some hrefines₂ =>
              exact ⟨a₂, .move act ha (hok _ _ _ hrefines hact) hstep', hrefines₂,
                sound_step hsound₁ hstep'⟩

end Runs

end DjangoNova
