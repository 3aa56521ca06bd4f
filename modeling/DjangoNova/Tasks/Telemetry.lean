import DjangoNova.Cache.KeyDigest
import DjangoNova.Cache.Telemetry
import DjangoNova.Cache.World
import DjangoNova.Tasks.Accounting

/-!
# Telemetry and business outcomes

Two runs with the same actions, one of them without a tracer, do the same
as long as `set_attribute` does not raise in the first one.
-/

namespace DjangoNova

open Transition

section Settled

variable {I F O V : Type}

/-- No attempt of a task starts after one that returned. -/
def NotRepeated (log : List (TaskEvent I F O V)) : Prop :=
  log.Pairwise fun e e' ↦ ∀ id v p, e = .ended id (.ok v) → e' = .started p → p.taskId ≠ id

/-- The tasks of which an attempt returned are finished. -/
structure Settled (w : TaskWorld I F O V) : Prop where
  final : ∀ id v, .ended id (.ok v) ∈ w.log → w.Final id
  notRepeated : NotRepeated w.log

variable [DecidableEq I] {w w' : TaskWorld I F O V} {act : TaskAction I F O V} {flag : Bool}
  {x : Stage I F O} {ys : List (Stage I F O)} {n : ℕ}
  {a a' : TaskSystem I F O V (Phase I F O)}

omit [DecidableEq I] in
theorem Settled.same {w' : TaskWorld I F O V} (h : Settled w) (hworld : w'.SameBooks w) :
    Settled w' := by
  constructor
  · intro id v hmem
    rw [hworld.log] at hmem
    unfold TaskWorld.Final
    rw [hworld.results]
    exact h.final id v hmem
  · rw [hworld.log]
    exact h.notRepeated

omit [DecidableEq I] in
theorem settled_initial : Settled (TaskWorld.initial : TaskWorld I F O V) :=
  ⟨fun _ _ ↦ nofun, List.Pairwise.nil⟩

omit [DecidableEq I] in
/-- One more event; a task that starts is not finished. -/
theorem Settled.notRepeated_append (h : Settled w) {e : TaskEvent I F O V}
    (hstart : ∀ p, e = .started p → ¬w.Final p.taskId) : NotRepeated (w.log ++ [e]) := by
  apply List.pairwise_append.mpr
  refine ⟨h.notRepeated, List.pairwise_singleton _ _, ?_⟩
  intro e₁ he₁ e₂ he₂ id v p hended hstarted hid
  rw [hended] at he₁
  apply hstart p ((List.mem_singleton.mp he₂).symm.trans hstarted)
  rw [hid]
  exact h.final id v he₁

/-- A task of which an attempt returns is finished at once. -/
theorem Progress.final_of_returned (h : Progress w act flag x w' ys) {r : TaskResult V}
    (hr : w.results x.id = some r) {v : V} (hlog : w'.log = w.log ++ [.ended x.id (.ok v)]) :
    w'.Final x.id := by
  cases h with
  | delayed act p => simp at hlog
  | launched act p =>
      have hstarted : (w.launched p).log = w.log ++ [.started p] := rfl
      simp [hstarted] at hlog
  | completed i u r' flag p =>
      have hended : ((w.record (.ended p.taskId u)).completed p u).1.log =
          w.log ++ [.ended p.taskId u] := completed_log u
      rw [hended, List.append_cancel_left_eq, List.singleton_inj] at hlog
      cases hlog
      have hrecord : (w.record (.ended p.taskId (.ok v))).results p.taskId = some r := hr
      exact ⟨_, TaskWorld.completed_ok hrecord v, .inl rfl⟩
  | requeued act p =>
      rw [concluded_log] at hlog
      simp [TaskWorld.put] at hlog
  | dropped act p => simp at hlog
  | withdrawn act p =>
      rw [concluded_log] at hlog
      simp at hlog

theorem Progress.settled (h : Progress w act flag x w' ys) (hsettled : Settled w)
    (hx : ∃ r, w.results x.id = some r ∧ ¬r.status.Final) : Settled w' := by
  have hopen : ¬w.Final x.id := by
    rintro ⟨r, hr, hfinal⟩
    obtain ⟨r', hr', hstatus⟩ := hx
    cases hr.symm.trans hr'
    exact hstatus hfinal
  have hkept : ∀ id v, .ended id (.ok v) ∈ w.log → w'.Final id := by
    intro id v hmem
    have hfinal := hsettled.final id v hmem
    have hid : id ≠ x.id := fun hid ↦ hopen (hid ▸ hfinal)
    unfold TaskWorld.Final
    rw [h.elsewhere hid]
    exact hfinal
  rcases h.log with hlog | hlog | ⟨u, hlog⟩
  · constructor
    · rw [hlog]
      exact hkept
    · rw [hlog]
      exact hsettled.notRepeated
  · constructor
    · intro id v hmem
      rw [hlog] at hmem
      rcases List.mem_append.mp hmem with hmem | hmem
      · exact hkept id v hmem
      · cases List.mem_singleton.mp hmem
    · rw [hlog]
      apply hsettled.notRepeated_append
      rintro p hp
      cases hp
      exact hopen
  · constructor
    · intro id v hmem
      rw [hlog] at hmem
      rcases List.mem_append.mp hmem with hmem | hmem
      · exact hkept id v hmem
      · cases List.mem_singleton.mp hmem
        obtain ⟨r, hr, -⟩ := hx
        exact h.final_of_returned hr hlog
    · rw [hlog]
      exact hsettled.notRepeated_append fun _ ↦ nofun

theorem Moves.settled (h : Moves a a' act) (hsound : Sound a.world a.stages)
    (hsettled : Settled a.world) : Settled a'.world := by
  have hkept : ∀ id, a.world.Final id → a'.world.Final id := by
    rintro id ⟨r, hr, hstatus⟩
    exact ⟨r, (h.final hsound ⟨r, hr, hstatus⟩).trans hr, hstatus⟩
  cases h with
  | quiet hworld hstages => exact hsettled.same hworld
  | submit p hnew hworld hstages =>
      have hlog : a'.world.log = a.world.log ++ [.submitted p] := by
        rw [hworld]
        rfl
      constructor
      · intro id v hmem
        rw [hlog] at hmem
        rcases List.mem_append.mp hmem with hmem | hmem
        · exact hkept id (hsettled.final id v hmem)
        · cases List.mem_singleton.mp hmem
      · rw [hlog]
        exact hsettled.notRepeated_append fun _ ↦ nofun
  | work flag w x ys rest hflag hact hworld hbefore h hafter =>
      have hx := hsound.known x (hbefore.mem_iff.mpr List.mem_cons_self)
      rw [← hworld.results] at hx
      exact h.settled (hsettled.same hworld) hx

end Settled

section Runs

variable {I F O V : Type} [DecidableEq I] {n : ℕ}

/-- The action when no tracer is available. -/
def TaskAction.untraced : TaskAction I F O V → TaskAction I F O V
  | .submit p _ => .submit p []
  | .take i _ => .take i []
  | .complete i v _ => .complete i v []
  | .wake i _ => .wake i []
  | .cancel i _ => .cancel i []
  | act => act

/-- A run in which no call of `set_attribute` raises. -/
def CalmRun (n : ℕ) : TaskSystem I F O V (WorkerState I F O V) → List (TaskAction I F O V) → Prop
  | _, [] => True
  | s, act :: acts => CalmStep s act ∧ ∀ s', s.step n act = some s' → CalmRun n s' acts

/-- What a list of actions makes of a new backend. -/
def backendRun (n : ℕ) (acts : List (TaskAction I F O V)) :
    Option (TaskSystem I F O V (WorkerState I F O V)) :=
  Transition.run (fun s act ↦ s.step n act) .initial acts

/-- The same business outcomes: the queue, the results and the log, the
phase of the caller and what it was promised. -/
structure SameBusiness (s t : TaskSystem I F O V (WorkerState I F O V)) : Prop where
  world : s.world = t.world
  workers : s.workers = t.workers
  started : s.started = t.started
  controller : s.controller = t.controller
  history : s.history = t.history
  promised : s.promised = t.promised

omit [DecidableEq I] in
theorem Refines.sameBusiness {s t : TaskSystem I F O V (WorkerState I F O V)}
    {a : TaskSystem I F O V (Phase I F O)} (hs : Refines s a) (ht : Refines t a) :
    SameBusiness s t where
  world := hs.world.trans ht.world.symm
  workers := hs.workers.trans ht.workers.symm
  started := hs.started.trans ht.started.symm
  controller := hs.controller.trans ht.controller.symm
  history := hs.history.trans ht.history.symm
  promised := hs.promised.trans ht.promised.symm

omit [DecidableEq I] in
theorem untraced_replies (act : TaskAction I F O V) : act.untraced.replies = [] := by
  cases act <;> rfl

/-- The abstract backend does not see the tracer. -/
theorem phaseStep_untraced (a : TaskSystem I F O V (Phase I F O)) (act : TaskAction I F O V) :
    a.phaseStep n act.untraced = a.phaseStep n act := by
  cases act <;> rfl

theorem run_untraced {s t : TaskSystem I F O V (WorkerState I F O V)}
    {a : TaskSystem I F O V (Phase I F O)} (hs : Refines s a) (ht : Refines t a)
    (hsound : Sound a.world a.stages) {acts : List (TaskAction I F O V)}
    (hcalm : CalmRun n s acts) :
    Option.Rel SameBusiness (Transition.run (fun s act ↦ s.step n act) s acts)
      (Transition.run (fun s act ↦ s.step n act) t (acts.map TaskAction.untraced)) := by
  induction acts generalizing s t a with
  | nil => exact .some (hs.sameBusiness ht)
  | cons act acts ih =>
      obtain ⟨hact, hrest⟩ := hcalm
      have htraced := step_refines (n := n) hs hsound hact
      have huntraced := step_refines (n := n) ht hsound
        (calmStep_of_inert (untraced_replies act))
      rw [phaseStep_untraced] at huntraced
      rw [List.map_cons, Transition.run, Transition.run]
      cases ha : a.phaseStep n act with
      | none =>
          rw [ha] at htraced huntraced
          cases hstep : s.step n act with
          | some s' =>
              rw [hstep] at htraced
              cases htraced
          | none =>
              cases hstep' : t.step n act.untraced with
              | some t' =>
                  rw [hstep'] at huntraced
                  cases huntraced
              | none => exact .none
      | some a' =>
          rw [ha] at htraced huntraced
          cases hstep : s.step n act with
          | none =>
              rw [hstep] at htraced
              cases htraced
          | some s' =>
              cases hstep' : t.step n act.untraced with
              | none =>
                  rw [hstep'] at huntraced
                  cases huntraced
              | some t' =>
                  rw [hstep] at htraced
                  rw [hstep'] at huntraced
                  cases htraced with
                  | some hs' =>
                      cases huntraced with
                      | some ht' =>
                          exact ih hs' ht' (sound_step hsound ha) (hrest s' hstep)

theorem reaches_of_calmRun {s s' : TaskSystem I F O V (WorkerState I F O V)}
    {acts : List (TaskAction I F O V)} (hcalm : CalmRun n s acts)
    (hrun : Transition.run (fun s act ↦ s.step n act) s acts = some s') :
    Reaches (fun s act ↦ s.step n act) CalmStep s s' := by
  induction acts generalizing s with
  | nil =>
      obtain rfl : s = s' := Option.some.inj hrun
      exact .start
  | cons act acts ih =>
      obtain ⟨t, ht, hrest⟩ := Option.bind_eq_some_iff.mp hrun
      have hfirst : Reaches (fun s act ↦ s.step n act) CalmStep s t :=
        .move act .start hcalm.1 ht
      exact hfirst.trans (ih (hcalm.2 t ht) hrest)

theorem run_notRepeated {s : TaskSystem I F O V (WorkerState I F O V)}
    (h : Reaches (fun s act ↦ s.step n act) CalmStep .initial s) : NotRepeated s.world.log := by
  obtain ⟨a, ha, hrefines, -⟩ := run_refines Always (fun s act hok ↦ hok)
    (fun _ _ _ _ _ ↦ trivial) refines_initial sound_initial h
  have hsettled : Sound a.world a.stages ∧ Settled a.world := by
    refine ha.invariant (I := fun a ↦ Sound a.world a.stages ∧ Settled a.world)
      ⟨sound_initial, settled_initial⟩ ?_
    rintro b act b' ⟨hsound, hb⟩ - hstep
    exact ⟨sound_step hsound hstep, (phaseStep_moves hstep).settled hsound hb⟩
  rw [hrefines.world]
  exact hsettled.2.notRepeated

variable {T Sql U W Choice : Type} [DecidableEq T] {d : Deployment Sql} {call : T → CacheCall Sql}
  {M : Machine T (CacheEffect Sql U) CacheEffect.Reply CacheError W Choice} {w₀ : W}
  {p : Pool T (CacheEffect Sql U) CacheEffect.Reply CacheError (CacheResult U) W}

/-- Runs of the task backend and of the cache calls have the outcomes of
runs without a tracer, as long as `set_attribute` does not raise. -/
theorem telemetry_transparent {acts : List (TaskAction I F O V)} (htasks : CalmRun n .initial acts)
    (hcalls : Reaches (tracedStep d call M) (CalmTurn M) (Pool.start w₀) p) :
    (Option.Rel SameBusiness (backendRun n acts) (backendRun n (acts.map TaskAction.untraced)) ∧
      ∀ s, backendRun n acts = some s → NotRepeated s.world.log) ∧
    ∃ q, Reaches (tracedStep d call M) (UntracedTurn M) (Pool.start w₀) q ∧ q.world = p.world ∧
      ∀ t v, p.outcome t = some v → q.outcome t = some v := by
  refine ⟨⟨run_untraced refines_initial refines_initial sound_initial htasks, ?_⟩,
    cache_transparent hcalls⟩
  intro s hs
  exact run_notRepeated (reaches_of_calmRun htasks hs)

end Runs

section Samples

/-- A provider whose `get_tracer` raises, then one whose `start` raises. -/
def tracedRun : List (TaskAction ℕ Unit ℕ ℕ) :=
  [.submit sampleTask [.error none], .start, .take 0 [.ok true, .error none],
    .complete 0 (.ok 9) []]

theorem calmRun_tracedRun : CalmRun 1 (TaskSystem.initial : SampleBackend) tracedRun := by
  refine ⟨⟨nofun, trivial⟩, fun s hs ↦ ?_⟩
  cases hs
  refine ⟨trivial, fun s hs ↦ ?_⟩
  cases hs
  refine ⟨?_, fun s hs ↦ ⟨calmStep_of_inert rfl, fun _ _ ↦ trivial⟩⟩
  rintro p rest hqueue
  cases hqueue
  exact ⟨nofun, nofun, trivial⟩

def tracedQuery : PreparedQuery Str := ⟨⟨['s'], ['a']⟩, ['d'], ['q'], .ok none⟩

def fetchStep : CachePool Unit Unit Str ℕ → Turn Unit (CacheChoice ℕ ⊕ Except CacheError Bool) →
    Option (CachePool Unit Unit Str ℕ) :=
  tracedStep (plainDeployment false) (fun _ ↦ .getOrSet tracedQuery)
    (CacheWorld.machine fun _ ↦ ())

/-- A miss of `get_or_set`. Around the lookup `start` raises; around the fill
there is a span whose `set_status` and `exit` raise. -/
def fetchTurns : List (Turn Unit (CacheChoice ℕ ⊕ Except CacheError Bool)) :=
  let choices := [.inl (.flag false), .inr (.ok true), .inr (.error (.raised 0))] ++
    List.replicate 5 (.inl .ok) ++ List.replicate 3 (.inr (.ok true)) ++
    [.inl (.content 7), .inl .ok, .inl .ok, .inl (.flag false)] ++ List.replicate 6 (.inl .ok) ++
    [.inr (.ok true), .inr (.error (.raised 1)), .inr (.error (.raised 2))]
  .begin () :: choices.map (Turn.act ())

/-- The rows that the caller has got. -/
def fetchedRows (p : CachePool Unit Unit Str ℕ) : Option (Rows ℕ) :=
  match p.outcome () with
  | some (.ok (.rows rows)) => some rows
  | _ => none

theorem fetchedRows_some {p : CachePool Unit Unit Str ℕ} {rows : Rows ℕ}
    (h : fetchedRows p = some rows) : p.outcome () = some (.ok (.rows rows)) := by
  rw [fetchedRows] at h
  split at h
  · rename_i houtcome
    rw [houtcome, Option.some.inj h]
  · cases h

theorem telemetry_transparent_sample : ∃ p : CachePool Unit Unit Str ℕ,
    p.outcome () = some (.ok (.rows ⟨7, 7⟩)) ∧
    (Option.Rel SameBusiness (backendRun 1 tracedRun)
        (backendRun 1 (tracedRun.map TaskAction.untraced)) ∧
      ∀ s, backendRun 1 tracedRun = some s → NotRepeated s.world.log) ∧
    ∃ q, Reaches fetchStep (UntracedTurn (CacheWorld.machine fun _ ↦ ()))
        (Pool.start CacheWorld.initial) q ∧ q.world = p.world ∧
      ∀ t v, p.outcome t = some v → q.outcome t = some v := by
  have hrun : (run (fun p a ↦ if CalmTurn (CacheWorld.machine fun _ ↦ ()) p a then fetchStep p a
      else none) (Pool.start CacheWorld.initial) fetchTurns).any
      (fun p ↦ fetchedRows p = some ⟨7, 7⟩) = true := by
    decide +kernel
  obtain ⟨p, hp, hrows⟩ := (Option.any_eq_true _ _).mp hrun
  exact ⟨p, fetchedRows_some (of_decide_eq_true hrows),
    telemetry_transparent calmRun_tracedRun (reaches_of_guarded_run hp)⟩

/-- The attempt returns, then `set_attribute` raises. -/
def repeatedRun : List (TaskAction ℕ Unit ℕ ℕ) :=
  [.start, .submit retriedTask [], .take 0 [.ok true, .ok true, .ok true],
    .complete 0 (.ok 9) [.error (some "boom".toList)], .wake 0 [], .take 0 []]

theorem telemetry_transparent_fails :
    ¬∀ acts : List (TaskAction ℕ Unit ℕ ℕ),
      Option.Rel SameBusiness (backendRun 1 acts) (backendRun 1 (acts.map TaskAction.untraced)) ∧
        ∀ s, backendRun 1 acts = some s → NotRepeated s.world.log := by
  intro hclaim
  have hrun : ∃ s, backendRun 1 repeatedRun = some s ∧
      s.world.log = [.submitted retriedTask, .started retriedTask, .ended 7 (.ok 9),
        .started (AsyncioBackend.Payload.next retriedTask)] := ⟨_, rfl, rfl⟩
  obtain ⟨s, hs, hlog⟩ := hrun
  have hrepeated := (hclaim repeatedRun).2 s hs
  rw [hlog] at hrepeated
  have hpair : [.ended 7 (.ok 9), .started (AsyncioBackend.Payload.next retriedTask)].Sublist
      ([.submitted retriedTask, .started retriedTask, .ended 7 (.ok 9),
        .started (AsyncioBackend.Payload.next retriedTask)] : List (TaskEvent ℕ Unit ℕ ℕ)) :=
    .cons _ (.cons _ (.refl _))
  have hsecond := List.pairwise_pair.mp (hrepeated.sublist hpair)
  exact hsecond 7 9 _ rfl rfl rfl

end Samples

end DjangoNova
