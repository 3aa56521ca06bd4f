import DjangoNova.Tasks.Accounting

/-!
# Shutdown

`stop` waits until nothing is unfinished. When it returns, the tasks that
were submitted before are finished, as long as no attempt ends in a way
that makes its worker drop the task.
-/

namespace DjangoNova

open Transition

section Kept

variable {I F O V : Type}

/-- An outcome after which the task is finished or goes on: no
`CancelledError`, and an exception without a text only when the task is not
retried. -/
def KeepsTask (p : Payload I F O) : Except TaskExn V → Prop
  | .error .cancelled => False
  | .error (.exception none) => ¬(p.attempts : ℤ) < p.maxRetries
  | .error (.exception (some _)) | .ok _ => True

/-- Every submitted task is finished or has a payload. -/
def Kept (w : TaskWorld I F O V) (l : List (Stage I F O)) : Prop :=
  ∀ id ∈ TaskSystem.submittedIds w.log, w.Final id ∨ id ∈ l.map Stage.id

theorem mem_submittedIds {log : List (TaskEvent I F O V)} {id : I} :
    id ∈ TaskSystem.submittedIds log ↔ ∃ p, .submitted p ∈ log ∧ p.taskId = id := by
  unfold TaskSystem.submittedIds
  rw [List.mem_filterMap]
  constructor
  · rintro ⟨e, he, hid⟩
    cases e with
    | submitted p => exact ⟨p, he, Option.some.inj hid⟩
    | started p => cases hid
    | ended id v => cases hid
  · rintro ⟨p, hp, rfl⟩
    exact ⟨_, hp, rfl⟩

theorem Kept.perm {w w' : TaskWorld I F O V} {l l' : List (Stage I F O)} (h : Kept w l)
    (hworld : w'.SameBooks w) (hperm : l'.Perm l) : Kept w' l' := by
  intro id hid
  rw [hworld.log] at hid
  unfold TaskWorld.Final
  rw [hworld.results, (hperm.map Stage.id).mem_iff]
  exact h id hid

variable [DecidableEq I] {w w' : TaskWorld I F O V} {act : TaskAction I F O V} {x : Stage I F O}
  {ys rest : List (Stage I F O)} {a a' : TaskSystem I F O V (Phase I F O)}

/-- The task has a next stage, or is finished. -/
theorem Progress.kept (h : Progress w act false x w' ys)
    (hkeeps : ∀ i v r p, act = .complete i v r → x = .running p → KeepsTask p v)
    (hx : ∃ r, w.results x.id = some r) : (∃ y, ys = [y]) ∨ w'.Final x.id := by
  obtain ⟨t, ht⟩ := hx
  cases h with
  | delayed p => exact .inl ⟨_, rfl⟩
  | launched p => exact .inl ⟨_, rfl⟩
  | requeued p => exact .inl ⟨_, rfl⟩
  | completed i v r flag p =>
      have hv := hkeeps i v r p rfl rfl
      have hrecord : (w.record (.ended p.taskId v)).results p.taskId = some t := ht
      rcases v with (text | _) | v
      · by_cases hretry : (p.attempts : ℤ) < p.maxRetries
        · cases text with
          | none => exact absurd hretry hv
          | some text =>
              rw [(TaskWorld.completed_retry hrecord hretry text).2]
              exact .inl ⟨_, rfl⟩
        · cases text with
          | none => exact .inr ⟨_, TaskWorld.completed_fail_none hrecord hretry, .inr rfl⟩
          | some text =>
              exact .inr ⟨_, (TaskWorld.completed_fail hrecord hretry text).1, .inr rfl⟩
      · exact hv.elim
      · exact .inr ⟨_, TaskWorld.completed_ok hrecord v, .inl rfl⟩

theorem Moves.kept (h : Moves a a' act)
    (hkeeps : ∀ i v r p, act = .complete i v r → a.tasks[i]? = some ⟨.running p, false⟩ →
      KeepsTask p v)
    (hflags : ∀ t ∈ a.tasks, t.cancelRequested = false) (hsound : Sound a.world a.stages)
    (hkept : Kept a.world a.stages) : Kept a'.world a'.stages := by
  have hfinal : ∀ id, a.world.Final id → a'.world.Final id := by
    intro id hid
    obtain ⟨r, hr, hstatus⟩ := hid
    exact ⟨r, (h.final hsound ⟨r, hr, hstatus⟩).trans hr, hstatus⟩
  cases h with
  | quiet hworld hstages => exact hkept.perm hworld hstages
  | submit p hnew hworld hstages =>
      intro id hid
      rw [hworld] at hid
      obtain ⟨q, hq, rfl⟩ := mem_submittedIds.mp hid
      rw [(hstages.map Stage.id).mem_iff]
      rcases List.mem_append.mp hq with hq | hq
      · apply (hkept q.taskId (mem_submittedIds.mpr ⟨q, hq, rfl⟩)).imp (hfinal _)
        exact List.mem_cons_of_mem _
      · cases List.mem_singleton.mp hq
        exact .inr List.mem_cons_self
  | work flag w x ys rest hflag hact hworld hbefore h hafter =>
      obtain rfl : flag = false := by
        by_contra hne
        obtain ⟨t, ht, htrue⟩ := hflag (Bool.of_not_eq_false hne)
        cases (hflags t ht).symm.trans htrue
      have hx : ∃ r, w.results x.id = some r := by
        obtain ⟨r, hr, -⟩ := hsound.known x (hbefore.mem_iff.mpr List.mem_cons_self)
        exact ⟨r, by rw [hworld.results]; exact hr⟩
      have hkeeps' : ∀ i v r p, act = .complete i v r → x = .running p → KeepsTask p v := by
        rintro i v r p hcomplete rfl
        obtain ⟨q, hq, hi⟩ := hact i v r hcomplete
        cases hq
        exact hkeeps i v r p hcomplete hi
      intro id hid
      rw [(hafter.map Stage.id).mem_iff, List.map_append]
      obtain ⟨q, hq, rfl⟩ := mem_submittedIds.mp hid
      have hq' : .submitted q ∈ a.world.log := by
        rw [← hworld.log]
        exact h.submitted hq
      rcases hkept q.taskId (mem_submittedIds.mpr ⟨q, hq', rfl⟩) with hdone | hmem
      · exact .inl (hfinal _ hdone)
      · rw [(hbefore.map Stage.id).mem_iff] at hmem
        rcases List.mem_cons.mp hmem with heq | hmem
        · rcases h.kept hkeeps' hx with ⟨y, rfl⟩ | hdone
          · right
            rw [heq, ← h.id_eq List.mem_cons_self]
            exact List.mem_cons_self
          · rw [heq]
            exact .inl hdone
        · exact .inr (List.mem_append_right _ hmem)

end Kept

section Draining

variable {I F O V : Type} {n : ℕ}

/-- The tasks that were submitted before `stop` are finished. -/
def Delivered (a : TaskSystem I F O V (Phase I F O)) : Prop := ∀ id ∈ a.promised, a.world.Final id

/-- What `stop` relies on: the waiter is woken up only when the promised
tasks are finished, and `stop` goes on only then. -/
structure Draining (a : TaskSystem I F O V (Phase I F O)) : Prop where
  kept : a.cancelling = false → Kept a.world a.stages
  promised : ∀ id ∈ a.promised, id ∈ TaskSystem.submittedIds a.world.log
  waiting : a.world.waiter.isSome → a.controller = .joining
  woken : a.world.waiter = some true → Delivered a
  gathering : ∀ ws, a.controller = .gathering ws → Delivered a
  began : .start ∈ a.history → a.started = true
  returned : a.controller = .ready → a.history = [.start, .stop] → Delivered a

variable {a a' : TaskSystem I F O V (Phase I F O)}

/-- With nothing unfinished, all submitted tasks are finished. -/
theorem Kept.delivered (h : Kept a.world a.stages) (hsound : Sound a.world a.stages)
    (hpromised : ∀ id ∈ a.promised, id ∈ TaskSystem.submittedIds a.world.log)
    (hzero : a.world.unfinished = 0) : Delivered a := by
  have hempty : a.stages = [] := by
    apply List.eq_nil_of_length_eq_zero
    have hcounted := hsound.counted
    omega
  intro id hid
  rcases h id (hpromised id hid) with hfinal | hmem
  · exact hfinal
  · rw [hempty] at hmem
    cases hmem

/-- A step that leaves the controls alone. -/
theorem Draining.world (h : Draining a) (hlife : Lifecycle n a) {w : TaskWorld I F O V}
    {tasks : List (Worker (Phase I F O))} (ha : a' = { a with world := w, tasks := tasks })
    (hw : a.world.Wakes w) (hsound : Sound a'.world a'.stages)
    (hkept : a.cancelling = false → Kept a'.world a'.stages)
    (hsubmitted : ∀ id ∈ TaskSystem.submittedIds a.world.log, id ∈ TaskSystem.submittedIds w.log)
    (hfinal : ∀ id, a.world.Final id → w.Final id) : Draining a' := by
  subst ha
  have hpromised : ∀ id ∈ a.promised, id ∈ TaskSystem.submittedIds w.log :=
    fun id hid ↦ hsubmitted id (h.promised id hid)
  have hdelivered : Delivered a → Delivered { a with world := w, tasks := tasks } :=
    fun hall id hid ↦ hfinal id (hall id hid)
  constructor
  · exact hkept
  · exact hpromised
  · intro hsome
    rcases hw with hw | ⟨-, hw⟩
    · exact h.waiting (hw ▸ hsome)
    · exact h.waiting (hw.mp hsome)
  · intro htrue
    rcases hw with hw | ⟨hzero, hw⟩
    · exact hdelivered (h.woken (hw ▸ htrue))
    · have hsome : w.waiter.isSome := by
        rw [htrue]
        rfl
      have hjoining := h.waiting (hw.mp hsome)
      have hcancelling := (hlife.workers (hlife.joining hjoining)).2
      exact (hkept hcancelling).delivered hsound hpromised hzero
  · exact fun ws hws ↦ hdelivered (h.gathering ws hws)
  · exact h.began
  · exact fun hready hhistory ↦ hdelivered (h.returned hready hhistory)

theorem Draining.start (h : Draining a)
    (hkept : a.cancelling = false → Kept a'.world a'.stages) (hstart : a.start n .idle = some a') :
    Draining a' := by
  have hne : a.history ++ [.start] ≠ [.start, .stop] := by
    intro heq
    have hlast := congrArg List.getLast? heq
    rw [List.getLast?_concat] at hlast
    cases hlast
  unfold TaskSystem.start at hstart
  split at hstart
  next hready =>
    split at hstart
    next hstarted =>
      cases hstart
      exact ⟨h.kept, h.promised, h.waiting, h.woken, h.gathering, fun _ ↦ hstarted,
        fun _ hhistory ↦ absurd hhistory hne⟩
    next hstarted =>
      cases hstart
      exact ⟨hkept, h.promised, h.waiting, h.woken, h.gathering, fun _ ↦ rfl,
        fun _ hhistory ↦ absurd hhistory hne⟩
  next => cases hstart

theorem draining_cancelAll
    (hpromised : ∀ id ∈ a.promised, id ∈ TaskSystem.submittedIds a.world.log)
    (hbegan : .start ∈ a.history → a.started = true) (hdelivered : Delivered a) :
    Draining a.cancelAll :=
  ⟨nofun, hpromised, nofun, nofun, fun _ _ ↦ hdelivered, hbegan, nofun⟩

theorem Draining.stop (h : Draining a) (hlife : Lifecycle n a) (hsound : Sound a.world a.stages)
    (hstop : a.stop = some a') : Draining a' := by
  unfold TaskSystem.stop at hstop
  split at hstop
  next hready =>
    have hwaiter : a.world.waiter ≠ some true := by
      intro htrue
      have hjoining := h.waiting (Option.isSome_iff_exists.mpr ⟨true, htrue⟩)
      cases hready.symm.trans hjoining
    have hgathering : ∀ ws, a.controller ≠ .gathering ws := by
      intro ws hws
      cases hready.symm.trans hws
    dsimp only at hstop
    split at hstop
    next hworkers =>
      cases hstop
      refine ⟨h.kept, fun _ hid ↦ hid, h.waiting, fun htrue ↦ absurd htrue hwaiter,
        fun ws hws ↦ absurd hws (hgathering ws), ?_, ?_⟩
      · intro hmem
        apply h.began
        simpa using hmem
      · intro _ hhistory
        -- a `start` that returned left workers, or a `stop` took them
        obtain ⟨hone, -⟩ : a.history = [.start] ∧ [LifecycleCall.stop] = [.stop] :=
          List.append_inj' (show a.history ++ [.stop] = [.start] ++ [.stop] from hhistory) rfl
        have hstarted : a.started = true := h.began (by simp [hone])
        have hcancelling := hlife.halted hready hstarted hworkers
        have hsub := (hlife.stopped hready hcancelling).1.length_le
        rw [hone] at hsub
        exact absurd hsub (by decide)
    next hworkers =>
      split at hstop
      next hzero =>
        cases hstop
        have hkept := h.kept (hlife.workers hworkers).2
        let b := { a with promised := TaskSystem.submittedIds a.world.log }
        have hdelivered : Delivered b := hkept.delivered (a := b) hsound (fun _ hid ↦ hid) hzero
        exact draining_cancelAll (fun _ hid ↦ hid) h.began hdelivered
      next =>
        cases hstop
        exact ⟨h.kept, fun _ hid ↦ hid, fun _ ↦ rfl, nofun, nofun, h.began, nofun⟩
  next => cases hstop

theorem Draining.joined (h : Draining a) (hjoined : a.joined = some a') : Draining a' := by
  unfold TaskSystem.joined at hjoined
  split at hjoined
  next hjoining htrue =>
    cases hjoined
    exact draining_cancelAll h.promised h.began (h.woken htrue)
  next => cases hjoined

theorem Draining.stopped (h : Draining a) (hstopped : a.stopped Phase.isDead = some a') :
    Draining a' := by
  unfold TaskSystem.stopped at hstopped
  split at hstopped
  next ws hgathering =>
    split at hstopped
    next =>
      cases hstopped
      have hdelivered := h.gathering ws hgathering
      refine ⟨h.kept, h.promised, ?_, h.woken, fun _ _ ↦ hdelivered, ?_, fun _ _ ↦ hdelivered⟩
      · intro hsome
        cases hgathering.symm.trans (h.waiting hsome)
      · intro hmem
        apply h.began
        simpa using hmem
    next => cases hstopped
  next => cases hstopped

/-- No attempt ends in a way that makes its worker drop the task, unless the
worker was told to cancel. -/
def KeepsTasks (a : TaskSystem I F O V (Phase I F O)) (act : TaskAction I F O V) : Prop :=
  ∀ i v r p, act = .complete i v r → a.tasks[i]? = some ⟨.running p, false⟩ → KeepsTask p v

theorem Moves.submittedIds [DecidableEq I] {act : TaskAction I F O V} (h : Moves a a' act)
    {id : I} (hid : id ∈ TaskSystem.submittedIds a.world.log) :
    id ∈ TaskSystem.submittedIds a'.world.log := by
  obtain ⟨p, hp, rfl⟩ := mem_submittedIds.mp hid
  apply mem_submittedIds.mpr
  refine ⟨p, ?_, rfl⟩
  cases h with
  | quiet hworld hstages => rwa [hworld.log]
  | submit q hnew hworld hstages =>
      rw [hworld]
      exact List.mem_append_left _ hp
  | work flag w x ys rest hflag hact hworld hbefore h hafter =>
      rw [← hworld.log] at hp
      rcases h.log with hlog | hlog | ⟨v, hlog⟩
      · rwa [hlog]
      · rw [hlog]
        exact List.mem_append_left _ hp
      · rw [hlog]
        exact List.mem_append_left _ hp

theorem Draining.step [DecidableEq I] (h : Draining a) (hlife : Lifecycle n a)
    (hflags : Unflagged a) (hsound : Sound a.world a.stages) {act : TaskAction I F O V}
    (hkeeps : KeepsTasks a act) (hstep : a.phaseStep n act = some a') : Draining a' := by
  have hmoves := phaseStep_moves hstep
  have hkept : a.cancelling = false → Kept a'.world a'.stages := fun hcancelling ↦
    hmoves.kept hkeeps (hflags hcancelling) hsound (h.kept hcancelling)
  have hfinal : ∀ id, a.world.Final id → a'.world.Final id := by
    rintro id ⟨r, hr, hstatus⟩
    exact ⟨r, (hmoves.final hsound ⟨r, hr, hstatus⟩).trans hr, hstatus⟩
  have hsubmitted : ∀ id ∈ TaskSystem.submittedIds a.world.log,
      id ∈ TaskSystem.submittedIds a'.world.log := fun _ hid ↦ hmoves.submittedIds hid
  cases phaseStep_acts hstep with
  | outside w ha hw =>
      subst ha
      exact h.world hlife rfl hw (hmoves.sound hsound) hkept hsubmitted hfinal
  | worker i t w phase ht halive hdead ha hw =>
      subst ha
      exact h.world hlife rfl hw (hmoves.sound hsound) hkept hsubmitted hfinal
  | control hcontrol =>
      cases hcontrol with
      | start hstart => exact h.start hkept hstart
      | stop hstop => exact h.stop hlife hsound hstop
      | joined hjoined => exact h.joined hjoined
      | stopped hstopped => exact h.stopped hstopped

end Draining

section Runs

variable {I F O V : Type} [DecidableEq I] {n : ℕ}

omit [DecidableEq I] in
theorem draining_initial : Draining (TaskSystem.initial : TaskSystem I F O V (Phase I F O)) :=
  ⟨fun _ ↦ nofun, nofun, nofun, nofun, nofun, nofun, nofun⟩

/-- No call of `set_attribute` raises, and no attempt drops its task. -/
def DrainingStep (s : TaskSystem I F O V (WorkerState I F O V)) (act : TaskAction I F O V) : Prop :=
  CalmStep s act ∧ ∀ i v r p code, act = .complete i v r →
    s.tasks[i]? = some ⟨.busy p code, false⟩ → KeepsTask p v

theorem Refines.keepsTasks {s : TaskSystem I F O V (WorkerState I F O V)}
    {a : TaskSystem I F O V (Phase I F O)} (h : Refines s a) {act : TaskAction I F O V}
    (hkeeps : DrainingStep s act) : KeepsTasks a act := by
  intro i v r p hact hi
  rcases h.task i with ⟨-, ha⟩ | ⟨state, phase, flag, hs, ha, hmatches⟩
  · cases ha.symm.trans hi
  · cases ha.symm.trans hi
    obtain ⟨k, rfl, -⟩ := hmatches.running
    exact hkeeps.2 i v r p _ hact hs

theorem stop_drains {s : TaskSystem I F O V (WorkerState I F O V)} (hn : 0 < n)
    (h : Reaches (fun s ↦ s.step n) DrainingStep .initial s) (hready : s.controller = .ready)
    (hhistory : s.history = [.start, .stop]) : ∀ id ∈ s.promised, s.world.Final id := by
  obtain ⟨a, ha, hrefines, -⟩ := run_refines KeepsTasks (fun s act hok ↦ hok.1)
    (fun s a act hsa hok ↦ hsa.keepsTasks hok) refines_initial sound_initial h
  have hinvariant : Sound a.world a.stages ∧ Lifecycle n a ∧ Unflagged a ∧ Draining a := by
    refine ha.invariant (I := fun a ↦ Sound a.world a.stages ∧ Lifecycle n a ∧ Unflagged a ∧
      Draining a) ⟨sound_initial, lifecycle_initial, fun _ ↦ nofun, draining_initial⟩ ?_
    rintro b act b' ⟨hsound, hlife, hflags, hdraining⟩ hok hstep
    exact ⟨sound_step hsound hstep, hlife.step hn hstep, unflagged_step hflags hstep,
      hdraining.step hlife hflags hsound hok hstep⟩
  obtain ⟨-, -, -, hdraining⟩ := hinvariant
  rw [hrefines.controller] at hready
  rw [hrefines.history] at hhistory
  intro id hid
  rw [hrefines.world]
  rw [hrefines.promised] at hid
  exact hdraining.returned hready hhistory id hid

theorem drainingStep_of_proper {s : TaskSystem I F O V (WorkerState I F O V)}
    {act : TaskAction I F O V} (hinert : act.replies = []) (hproper : act.Proper) :
    DrainingStep s act := by
  refine ⟨calmStep_of_inert hinert, ?_⟩
  rintro i v r p code rfl -
  rcases v with ((_ | text) | _) | v
  · exact hproper.elim
  · trivial
  · exact hproper.elim
  · trivial

end Runs

section Samples

/-- A run of one task up to the call of `stop`. -/
def stopRun (v : Except TaskExn ℕ) : List (TaskAction ℕ Unit ℕ ℕ) :=
  [.start, .submit sampleTask [], .take 0 [], .complete 0 v [], .stop]

theorem stop_drains_sample : ∃ s : SampleBackend,
    Reaches (fun s ↦ s.step 1) DrainingStep .initial s ∧ s.history = [.start, .stop] ∧
      s.promised = [7] ∧ ∀ id ∈ s.promised, s.world.Final id := by
  have hrun : ∃ s : SampleBackend, Transition.run (fun (s : SampleBackend) a ↦
      if a.replies = [] ∧ a.Proper then s.step 1 a else none) .initial
      (stopRun (.ok 9) ++ [.cancel 0 [], .stopped]) = some s ∧ s.controller = .ready ∧
        s.history = [.start, .stop] ∧ s.promised = [7] :=
    ⟨_, rfl, rfl, rfl, rfl⟩
  obtain ⟨s, hs, hready, hhistory, hpromised⟩ := hrun
  have hguarded : Reaches (fun s : SampleBackend ↦ s.step 1)
      (fun _ act ↦ act.replies = [] ∧ act.Proper) .initial s := reaches_of_guarded_run hs
  have hreach : Reaches (fun s : SampleBackend ↦ s.step 1) DrainingStep .initial s :=
    hguarded.weaken fun _ _ h ↦ drainingStep_of_proper h.1 h.2
  exact ⟨s, hreach, hhistory, hpromised, stop_drains (by decide) hreach hready hhistory⟩

/-- A task function that raises a `CancelledError` leaves its task running. -/
theorem stop_drains_fails :
    ¬∀ n, 0 < n → ∀ s : SampleBackend, Reaches (fun s ↦ s.step n) CalmStep .initial s →
      s.controller = .ready → s.history = [.start, .stop] →
      ∀ id ∈ s.promised, s.world.Final id := by
  intro hclaim
  have hrun : ∃ s : SampleBackend, Transition.run (fun (s : SampleBackend) a ↦
      if a.replies = [] then s.step 1 a else none) .initial
      (stopRun (.error .cancelled) ++ [.stopped]) = some s ∧ s.controller = .ready ∧
        s.history = [.start, .stop] ∧ s.promised = [7] ∧
      (s.world.results 7).map TaskResult.status = some .running := ⟨_, rfl, rfl, rfl, rfl, rfl⟩
  obtain ⟨s, hs, hready, hhistory, hpromised, hrunning⟩ := hrun
  have hguarded : Reaches (fun s : SampleBackend ↦ s.step 1) (fun _ act ↦ act.replies = [])
      .initial s := reaches_of_guarded_run hs
  have hreach : Reaches (fun s : SampleBackend ↦ s.step 1) CalmStep .initial s :=
    hguarded.weaken fun _ _ h ↦ calmStep_of_inert h
  have hmem : 7 ∈ s.promised := by
    rw [hpromised]
    exact List.mem_cons_self
  obtain ⟨r, hr, hfinal⟩ := hclaim 1 (by decide) s hreach hready hhistory 7 hmem
  rw [hr, Option.map_some, Option.some_inj] at hrunning
  rw [hrunning] at hfinal
  rcases hfinal with hfinal | hfinal <;> cases hfinal

end Samples

end DjangoNova
