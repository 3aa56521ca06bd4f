import Mathlib.Data.List.Nodup
import DjangoNova.Tasks.Attempts
import DjangoNova.Tasks.WorkerPool

/-!
# Attempt accounting

What the books of the backend say of a submitted task, in every state of a
run in which no worker was told to cancel, the tracer is inert and all
attempts end with a value or with an exception that has a text.
-/

namespace DjangoNova

open Transition

section Places

variable {I F O V : Type}

/-- The task that a worker holds. -/
def WorkerState.holds : WorkerState I F O V → Option I
  | .busy p _ => some p.taskId
  | .idle | .dead => none

/-- The tasks in the queue and in the hands of the workers. -/
def TaskSystem.places (s : TaskSystem I F O V (WorkerState I F O V)) : List I :=
  s.world.queue.map Payload.taskId ++ s.tasks.filterMap fun t ↦ t.state.holds

/-- The steps before `stop` cancels workers, with an inert tracer and tasks
that end properly. -/
def Orderly (s : TaskSystem I F O V (WorkerState I F O V)) (act : TaskAction I F O V) : Prop :=
  s.cancelling = false ∧ act.replies = [] ∧ act.Proper

variable [DecidableEq I]

structure AttemptAccounting (n : ℕ) (s : TaskSystem I F O V (WorkerState I F O V))
    (p : Payload I F O) (r : TaskResult V) : Prop where
  place : ¬r.status.Final → s.places.count p.taskId = 1
  sequential : ∀ log, log <+: s.world.log →
    (outcomes log p.taskId).length ≤ invocations log p.taskId ∧
      invocations log p.taskId ≤ (outcomes log p.taskId).length + 1
  bounded : (invocations s.world.log p.taskId : ℤ) ≤ max 0 p.maxRetries + 1
  attempts : r.status = .retrying ∨ r.status.Final →
    r.attempts = (outcomes s.world.log p.taskId).length
  success : r.status = .success ↔
    invocations s.world.log p.taskId = (outcomes s.world.log p.taskId).length ∧
      ∃ v, (outcomes s.world.log p.taskId).getLast? = some (.ok v)
  value : r.status = .success →
    ∃ v, (outcomes s.world.log p.taskId).getLast? = some (.ok v) ∧ r.result = some v
  failed : r.status = .failed ↔
    ((outcomes s.world.log p.taskId).length : ℤ) = max 0 p.maxRetries + 1 ∧
      ∀ v ∈ outcomes s.world.log p.taskId, Raised v
  finished : r.finishedAt.isSome ↔ r.status.Final
  closed : r.status.Final → ∀ s', Reaches (fun s ↦ s.step n) Orderly s s' →
    s'.world.results p.taskId = some r ∧
      invocations s'.world.log p.taskId = invocations s.world.log p.taskId

end Places

section Places

variable {I F O V : Type}

theorem Matches.holds {state : WorkerState I F O V} {phase : Phase I F O}
    (h : Matches state phase) : state.holds = phase.stage.map Stage.id := by
  cases h with
  | idle => rfl
  | dead => rfl
  | busy hphase hcode herases => cases phase <;> cases hphase <;> rfl

theorem Refines.places {s : TaskSystem I F O V (WorkerState I F O V)}
    {a : TaskSystem I F O V (Phase I F O)} (h : Refines s a) :
    s.places = a.stages.map Stage.id := by
  have htasks : ∀ {ts : List (Worker (WorkerState I F O V))} {us : List (Worker (Phase I F O))},
      List.Forall₂ Corresponds ts us →
      ts.filterMap (fun t ↦ t.state.holds) =
        (us.filterMap fun u ↦ u.state.stage).map Stage.id := by
    intro ts us htu
    induction htu with
    | nil => rfl
    | @cons t u ts us hab hrest ih =>
        have hholds := hab.1.holds
        cases hstage : u.state.stage with
        | none => simpa [hholds, hstage] using ih
        | some x => simpa [hholds, hstage] using ih
  unfold TaskSystem.places TaskSystem.stages
  rw [htasks h.tasks, h.world, List.map_append, List.map_map]
  rfl

end Places

section Accounting

variable {I F O V : Type} [DecidableEq I] {n : ℕ} {w : TaskWorld I F O V} {p : Payload I F O}
  {c : TaskAccount V} {r : TaskResult V} {x : Stage I F O}

omit [DecidableEq I] in
theorem Stage.status_not_final (x : Stage I F O) : ¬x.status.Final := by
  cases x with
  | waiting p => by_cases hp : p.attempts = 0 <;> simp [Stage.status, TaskStatus.Final, hp]
  | running p => simp [Stage.status, TaskStatus.Final]
  | resting p => simp [Stage.status, TaskStatus.Final]

theorem raised_not_ok {vs : List (Except TaskExn V)} (h : ∀ v ∈ vs, Raised v) {v : V} :
    vs.getLast? ≠ some (.ok v) := by
  intro hlast
  obtain ⟨x, hx⟩ := h _ (List.mem_of_getLast? hlast)
  cases hx

omit [DecidableEq I] in
/-- What holds of the account of a task that is not finished. -/
theorem Ongoing.accounting (h : Ongoing c x) (hr : c.result = some r) :
    ¬r.status.Final ∧ (c.invocations : ℤ) ≤ max 0 x.payload.maxRetries + 1 ∧
      (r.status = .retrying → r.attempts = c.outcomes.length) ∧ r.finishedAt = none ∧
      (∀ v, c.outcomes.getLast? ≠ some (.ok v)) ∧
      (c.outcomes.length : ℤ) ≠ max 0 x.payload.maxRetries + 1 := by
  obtain ⟨r', hr', hstatus, hfinished, hattempts⟩ := h.result
  cases hr.symm.trans hr'
  have hbounded := h.bounded
  refine ⟨?_, ?_, ?_, hfinished, fun v ↦ raised_not_ok h.raised, ?_⟩
  · rw [hstatus]
    exact x.status_not_final
  · have hle := h.sequential.2
    rw [h.ended] at hle
    omega
  · rw [h.ended]
    exact hattempts
  · rw [h.ended]
    omega

theorem Finished.accounting {maxRetries : ℤ} (h : Finished c maxRetries)
    (hr : c.result = some r) :
    r.status.Final ∧ (c.invocations : ℤ) ≤ max 0 maxRetries + 1 ∧
      r.attempts = c.outcomes.length ∧ r.finishedAt.isSome ∧
      (r.status = .success ↔ ∃ v, c.outcomes.getLast? = some (.ok v)) ∧
      (r.status = .success → ∃ v, c.outcomes.getLast? = some (.ok v) ∧ r.result = some v) ∧
      (r.status = .failed ↔
        (c.outcomes.length : ℤ) = max 0 maxRetries + 1 ∧ ∀ v ∈ c.outcomes, Raised v) := by
  obtain ⟨r', hr', hfinished, hattempts, hend⟩ := h.result
  cases hr.symm.trans hr'
  rw [h.begun]
  rcases hend with ⟨hstatus, vs, v, houtcomes, hraised, hvalue, hbound⟩ |
    ⟨hstatus, hraised, hlength⟩
  · have hlast : c.outcomes.getLast? = some (.ok v) := by simp [houtcomes]
    have hnot : ¬∀ u ∈ c.outcomes, Raised u := fun hall ↦ raised_not_ok hall hlast
    refine ⟨.inl hstatus, ?_, hattempts, hfinished, ⟨fun _ ↦ ⟨v, hlast⟩, fun _ ↦ hstatus⟩,
      fun _ ↦ ⟨v, hlast, hvalue⟩, ?_⟩
    · rw [houtcomes, List.length_append]
      simp only [List.length_singleton]
      omega
    · constructor
      · intro hfailed
        cases hstatus.symm.trans hfailed
      · exact fun hall ↦ absurd hall.2 hnot
  · refine ⟨.inr hstatus, Int.le_of_eq hlength, hattempts, hfinished, ?_, ?_,
      ⟨fun _ ↦ ⟨hlength, hraised⟩,
      fun _ ↦ hstatus⟩⟩
    · constructor
      · intro hsuccess
        cases hstatus.symm.trans hsuccess
      · rintro ⟨v, hlast⟩
        exact absurd hlast (raised_not_ok hraised)
    · intro hsuccess
      cases hstatus.symm.trans hsuccess

theorem run_regular {s : TaskSystem I F O V (WorkerState I F O V)}
    (h : Reaches (fun s ↦ s.step n) Orderly .initial s) :
    ∃ a, Refines s a ∧ Regular a := by
  obtain ⟨a, ha, hrefines, -⟩ := run_refines OrderlyPhases
    (fun s act hok ↦ calmStep_of_inert hok.2.1)
    (fun s a act hsa hok ↦ ⟨hsa.cancelling ▸ hok.1, hok.2.2⟩) refines_initial sound_initial h
  have hregular : Regular a :=
    ha.invariant (I := Regular) regular_initial fun _ _ _ hb hok hstep ↦ hb.step hok hstep
  exact ⟨a, hrefines, hregular⟩

/-- A finished task stays as it is in all further runs. -/
theorem run_closed {s s' : TaskSystem I F O V (WorkerState I F O V)}
    {a : TaskSystem I F O V (Phase I F O)} (h : Refines s a) (ha : Sound a.world a.stages) {id : I}
    (hfinal : a.world.Final id) (hrun : Reaches (fun s ↦ s.step n) Orderly s s') :
    s'.world.account id = s.world.account id := by
  obtain ⟨a', ha', hrefines, -⟩ := run_refines OrderlyPhases
    (fun s act hok ↦ calmStep_of_inert hok.2.1)
    (fun s a act hsa hok ↦ ⟨hsa.cancelling ▸ hok.1, hok.2.2⟩) h ha hrun
  rw [h.world, hrefines.world]
  exact run_final_account ha hfinal ha'

theorem attempt_accounting {s : TaskSystem I F O V (WorkerState I F O V)}
    (h : Reaches (fun s ↦ s.step n) Orderly .initial s) (hp : .submitted p ∈ s.world.log) :
    ∃ r, s.world.results p.taskId = some r ∧ AttemptAccounting n s p r := by
  obtain ⟨a, hrefines, hregular⟩ := run_regular h
  have hsequential : Sequential s.world.log := by
    rw [hrefines.world]
    exact hregular.accounted.sequential
  have hplaces : s.places = a.stages.map Stage.id := hrefines.places
  have haccount : s.world.account p.taskId = a.world.account p.taskId := by
    rw [hrefines.world]
  rw [hrefines.world] at hp
  rcases hregular.accounted.submitted p hp with ⟨x, hx, hpayload⟩ | hfinished
  · have hid : x.id = p.taskId := by
      show x.payload.taskId = p.taskId
      rw [hpayload]
    have hretries : x.payload.maxRetries = p.maxRetries := by rw [hpayload]
    have hongoing := hregular.accounted.ongoing x hx
    rw [hid, ← haccount] at hongoing
    obtain ⟨r, hr, -⟩ := hongoing.result
    obtain ⟨hfinal, hbound, hattempts, hopen, hlast, hlength⟩ := hongoing.accounting hr
    rw [hretries] at hbound hlength
    refine ⟨r, hr, ?_⟩
    constructor
    · intro _
      rw [hplaces]
      have hmem : p.taskId ∈ a.stages.map Stage.id := List.mem_map.mpr ⟨x, hx, hid⟩
      exact List.count_eq_one_of_mem hregular.sound.nodup hmem
    · exact fun log hlog ↦ hsequential log hlog p.taskId
    · exact hbound
    · exact fun hstatus ↦ hattempts (hstatus.resolve_right hfinal)
    · exact ⟨fun hstatus ↦ absurd (.inl hstatus) hfinal, fun ⟨_, v, hv⟩ ↦ absurd hv (hlast v)⟩
    · exact fun hstatus ↦ absurd (.inl hstatus) hfinal
    · exact ⟨fun hstatus ↦ absurd (.inr hstatus) hfinal, fun hall ↦ absurd hall.1 hlength⟩
    · rw [hopen]
      exact ⟨nofun, fun hstatus ↦ absurd hstatus hfinal⟩
    · exact fun hstatus ↦ absurd hstatus hfinal
  · have hfinal := hfinished.final
    rw [← haccount] at hfinished
    obtain ⟨r, hr, -⟩ := hfinished.result
    obtain ⟨hstatus, hbound, hattempts, hclosed, hsuccess, hvalue, hfailed⟩ :=
      hfinished.accounting hr
    refine ⟨r, hr, ?_⟩
    constructor
    · exact fun hopen ↦ absurd hstatus hopen
    · exact fun log hlog ↦ hsequential log hlog p.taskId
    · exact hbound
    · exact fun _ ↦ hattempts
    · exact hsuccess.trans ⟨fun hlast ↦ ⟨hfinished.begun, hlast⟩, And.right⟩
    · exact hvalue
    · exact hfailed
    · exact ⟨fun _ ↦ hstatus, fun _ ↦ hclosed⟩
    · intro _ s' hrun
      have hkept := run_closed hrefines hregular.sound hfinal hrun
      exact ⟨(congrArg TaskAccount.result hkept).trans hr, congrArg TaskAccount.invocations hkept⟩

end Accounting

section Sample

instance {I F O V : Type} (s : TaskSystem I F O V (WorkerState I F O V))
    (act : TaskAction I F O V) : Decidable (Orderly s act) :=
  inferInstanceAs (Decidable (_ ∧ _ ∧ _))

/-- A task with one retry. -/
def retriedTask : Payload ℕ Unit ℕ := ⟨7, (), [3], [], 0, 1, 1, 0⟩

/-- The first attempt raises and the second one returns. -/
def retriedRun : List (TaskAction ℕ Unit ℕ ℕ) :=
  [.submit retriedTask [], .start, .take 0 [],
    .complete 0 (.error (.exception (some "boom".toList))) [], .wake 0 [], .take 0 [],
    .complete 0 (.ok 9) []]

theorem attempt_accounting_sample : ∃ s : SampleBackend,
    Reaches (fun s ↦ s.step 1) Orderly .initial s ∧
    .submitted retriedTask ∈ s.world.log ∧
    ∃ r, s.world.results 7 = some r ∧ r.status = .success ∧
      AttemptAccounting 1 s retriedTask r := by
  have hrun : ∃ s : SampleBackend, Transition.run
      (fun (s : SampleBackend) a ↦ if Orderly s a then s.step 1 a else none) .initial
      retriedRun = some s ∧ .submitted retriedTask ∈ s.world.log ∧
      ∃ r, s.world.results 7 = some r ∧ r.status = .success :=
    ⟨_, rfl, List.mem_cons_self, _, rfl, rfl⟩
  obtain ⟨s, hs, hp, r, hr, hstatus⟩ := hrun
  have hreach : Reaches (fun s : SampleBackend ↦ s.step 1) Orderly .initial s :=
    reaches_of_guarded_run hs
  obtain ⟨r', hr', haccounting⟩ := attempt_accounting hreach hp
  cases hr.symm.trans hr'
  exact ⟨s, hreach, hp, r, hr, hstatus, haccounting⟩

end Sample

end DjangoNova
