import DjangoNova.Tasks.Decorators
import DjangoNova.Tasks.WorkerPool

/-!
# The arguments of a task

Whatever the tracing provider replies and whatever the tasks do, all
attempts of a task call the function of the submitted payload with its
arguments. So the arguments of a decorated function reach the function,
unless one of its keywords is taken by a `submit` on the way.
-/

namespace DjangoNova

open AsyncioBackend Transition

section Code

variable {I F O V α : Type} {p : Payload I F O}

/-- The same call of the same task. -/
def SameCall (p q : Payload I F O) : Prop :=
  q.taskId = p.taskId ∧ q.func = p.func ∧ q.args = p.args ∧ q.kwargs = p.kwargs

/-- A worker calls and enqueues nothing but its own task. -/
def OwnEffect (p : Payload I F O) : TaskEffect I F O V → Prop
  | .atomic (.call q) | .atomic (.putNowait q) => SameCall p q
  | .atomic (.create _) => False
  | _ => True

abbrev OwnCode (p : Payload I F O) (code : TaskProgram I F O V α) : Prop :=
  code.Within (OwnEffect p) fun _ _ ↦ True

theorem sameCall_refl (p : Payload I F O) : SameCall p p := ⟨rfl, rfl, rfl, rfl⟩

theorem ownCode_assign (u : ResultUpdate V) : OwnCode p (assign p u) := Program.within_call trivial

theorem ownCode_setAttribute (span : Bool) :
    OwnCode p (Tracing.setAttribute spanCall span : TaskProgram I F O V Unit) :=
  Tracing.setAttribute_within (fun _ ↦ Program.within_call trivial) span

theorem ownCode_succeed (span : Bool) (v : V) : OwnCode p (succeed p span v) := by
  apply (ownCode_assign _).bind
  intro _
  apply (ownCode_assign _).bind
  intro _
  apply (ownCode_assign _).bind
  intro _
  exact ownCode_setAttribute span

theorem ownCode_onException (span : Bool) (v : Except TaskExn Unit) :
    OwnCode p (onException p span v : TaskProgram I F O V Unit) := by
  have hstr : ∀ x : TaskExn, OwnCode p (Program.done x.str : TaskProgram I F O V Str) :=
    fun _ ↦ trivial
  rcases v with (text | _) | _
  · unfold onException
    dsimp only
    split
    · apply (ownCode_assign _).bind
      intro _
      apply (ownCode_assign _).bind
      intro _
      apply (hstr _).bind
      intro _
      apply (ownCode_assign _).bind
      intro _
      apply (ownCode_setAttribute span).bind
      intro _
      apply (ownCode_setAttribute span).bind
      intro _
      apply Program.Within.bind
      · exact Program.within_call trivial
      · exact fun _ ↦ Program.within_call (sameCall_refl p)
    · apply (ownCode_assign _).bind
      intro _
      apply (hstr _).bind
      intro _
      apply (ownCode_assign _).bind
      intro _
      apply (ownCode_assign _).bind
      intro _
      exact (ownCode_setAttribute span).bind fun _ ↦ ownCode_setAttribute span
  · trivial
  · trivial

theorem ownCode_onlyIf {c : Prop} [Decidable c] {q : TaskProgram I F O V Unit}
    (hq : OwnCode p q) : OwnCode p (Tracing.onlyIf c q) := by
  unfold Tracing.onlyIf
  split
  · exact hq
  · trivial

theorem ownCode_conclude (span : Bool) :
    OwnCode p (conclude p span : TaskProgram I F O V Unit) := by
  apply (ownCode_setAttribute span).bind
  intro _
  apply Program.Within.bind
  · exact Program.within_call trivial
  intro _
  apply (ownCode_onlyIf (ownCode_assign _)).bind
  intro _
  exact Program.within_call trivial

theorem ownCode_attempt (span : Bool) :
    OwnCode p (attempt p span : TaskProgram I F O V Unit) := by
  have hinvoke : OwnCode p (invoke p span : TaskProgram I F O V Unit) := by
    apply Program.Within.bind
    · exact Program.within_call (sameCall_refl p)
    intro _
    apply Program.Within.bind
    · exact Program.within_call trivial
    exact ownCode_succeed span
  apply (hinvoke.andThen (ownCode_onException span)).andThen
  intro v
  exact (ownCode_conclude span).bind fun _ ↦ trivial

theorem ownCode_worker : OwnCode p (worker p : TaskProgram I F O V Unit) := by
  apply Program.Within.bind
  · exact Program.within_call trivial
  intro _
  apply (ownCode_onlyIf _).bind
  · intro _
    apply Program.Within.bind
    · exact (ownCode_assign _).bind fun _ ↦ ownCode_assign _
    · intro _
      exact Tracing.novaSpan_within (fun _ ↦ Program.within_call trivial) ownCode_attempt
  · exact Program.within_call trivial

end Code

section Submission

variable {I F O V α : Type} [DecidableEq I] {w : TaskWorld I F O V} {p : Payload I F O}

/-- A program that only calls the tracing provider, whatever it replies. -/
abbrev SpansOnly (post : Except TaskExn α → Prop) (q : TaskProgram I F O V α) : Prop :=
  q.Ends TaskEffect.Silent (fun _ _ ↦ True) post

/-- Such a prefix leaves the world to what follows. -/
theorem spansOnly_andThen {β : Type} {post : Except TaskExn α → Prop} {q : TaskProgram I F O V α}
    (h : SpansOnly post q) {f : Except TaskExn α → TaskProgram I F O V β} {w' : TaskWorld I F O V}
    (hf : ∀ v, post v → ∀ replies, (advance (f v) w replies).1 = w') (replies : SpanReplies) :
    (advance (q.andThen f) w replies).1 = w' := by
  induction q generalizing replies with
  | done v => exact hf v h replies
  | step e k ih =>
      cases e with
      | span c => exact ih _ (h.2 _ trivial) replies.tail
      | _ => exact h.1.elim

theorem spansOnly_world {q : TaskProgram I F O V α} (h : SpansOnly (fun _ ↦ True) q)
    (replies : SpanReplies) : (advance q w replies).1 = w := by
  have hend := spansOnly_andThen (w := w) h (f := .done) (fun _ _ _ ↦ rfl) replies
  rwa [Program.andThen_done_right] at hend

omit [DecidableEq I] in
theorem spansOnly_call (c : SpanCall) :
    SpansOnly (fun _ ↦ True) (spanCall c : TaskProgram I F O V Bool) :=
  ⟨trivial, fun _ _ ↦ trivial⟩

omit [DecidableEq I] in
theorem spansOnly_onlyIf {c : Prop} [Decidable c] {q : TaskProgram I F O V Unit}
    (hq : SpansOnly (fun _ ↦ True) q) : SpansOnly (fun _ ↦ True) (Tracing.onlyIf c q) := by
  unfold Tracing.onlyIf
  split
  · exact hq
  · trivial

/-- The attributes that `submit` sets. -/
def submitAttributes (p : Payload I F O) (span : Bool) : TaskProgram I F O V Unit :=
  Tracing.onlyIf span do
    Tracing.setAttribute spanCall true
    Tracing.onlyIf (0 < p.delay) (Tracing.setAttribute spanCall true)
    Tracing.onlyIf (0 < p.maxRetries) (Tracing.setAttribute spanCall true)

omit [DecidableEq I] in
theorem spansOnly_submitAttributes (span : Bool) :
    SpansOnly (fun _ ↦ True) (submitAttributes p span : TaskProgram I F O V Unit) := by
  have hset : SpansOnly (fun _ ↦ True)
      (Tracing.setAttribute spanCall true : TaskProgram I F O V Unit) := by
    apply (spansOnly_call .setAttribute).andThen
    intro v _
    cases v <;> trivial
  apply spansOnly_onlyIf
  apply hset.andThen
  rintro (x | _) -
  · trivial
  · apply (spansOnly_onlyIf hset).andThen
    rintro (x | _) -
    · trivial
    · exact spansOnly_onlyIf hset

/-- A submission is accepted, whatever the tracing provider replies. -/
theorem submit_world (replies : SpanReplies) :
    (advance (submit p) (w.record (.submitted p)) replies).1 = w.accepted p := by
  change (advance (((Tracing.enterSpan spanCall).andThen _).andThen _) _ replies).1 = _
  rw [Program.andThen_assoc]
  apply spansOnly_andThen (Tracing.enterSpan_ends spansOnly_call)
  rintro _ ⟨o, rfl⟩ replies
  cases o with
  | none =>
      change (advance ((submitAttributes p false).andThen _) (w.accepted p) replies).1 = _
      apply spansOnly_world
      apply (spansOnly_submitAttributes false).andThen
      rintro (x | _) - <;> trivial
  | some span =>
      change (advance (((submitAttributes p span).andThen _).andThen _)
        (w.accepted p) replies).1 = _
      apply spansOnly_world
      have hblock : SpansOnly (fun _ ↦ True) ((submitAttributes p span).andThen
          (Tracing.leaveSpan spanCall TaskExn.isException span) : TaskProgram I F O V Unit) := by
        apply (spansOnly_submitAttributes span).andThen
        intro v _
        exact (Tracing.leaveSpan_ends spansOnly_call span v).mono fun _ _ ↦ trivial
      apply hblock.andThen
      rintro (x | _) - <;> trivial

end Submission

section Origins

variable {I F O V : Type}

/-- The call comes from a submitted payload. -/
def Submitted (log : List (TaskEvent I F O V)) (q : Payload I F O) : Prop :=
  ∃ p, .submitted p ∈ log ∧ SameCall p q

/-- All calls come from submitted payloads, which have different
identifiers. -/
structure Origins (w : TaskWorld I F O V) : Prop where
  started : ∀ q, .started q ∈ w.log → Submitted w.log q
  queued : ∀ q ∈ w.queue, Submitted w.log q
  known : ∀ p, .submitted p ∈ w.log → (w.results p.taskId).isSome
  unique : ∀ p p', .submitted p ∈ w.log → .submitted p' ∈ w.log → p.taskId = p'.taskId → p = p'

theorem Submitted.mono {log log' : List (TaskEvent I F O V)} {q : Payload I F O}
    (h : Submitted log q) (hlog : ∀ e ∈ log, e ∈ log') : Submitted log' q := by
  obtain ⟨p, hp, hcall⟩ := h
  exact ⟨p, hlog _ hp, hcall⟩

theorem Submitted.same {log : List (TaskEvent I F O V)} {p q : Payload I F O}
    (h : Submitted log p) (hcall : SameCall p q) : Submitted log q := by
  obtain ⟨p₀, hp₀, hid, hfunc, hargs, hkwargs⟩ := h
  exact ⟨p₀, hp₀, hcall.1.trans hid, hcall.2.1.trans hfunc, hcall.2.2.1.trans hargs,
    hcall.2.2.2.trans hkwargs⟩

variable {w w' : TaskWorld I F O V} {p q : Payload I F O}

/-- A change that neither logs nor forgets a result. -/
theorem Origins.change (h : Origins w) (hlog : w'.log = w.log)
    (hqueue : ∀ q ∈ w'.queue, Submitted w.log q)
    (hresults : ∀ id, (w.results id).isSome → (w'.results id).isSome) : Origins w' := by
  constructor
  · rw [hlog]
    exact h.started
  · rw [hlog]
    exact hqueue
  · rw [hlog]
    exact fun p hp ↦ hresults _ (h.known p hp)
  · rw [hlog]
    exact h.unique

/-- The log grows by an event other than a submission. -/
theorem Origins.record (h : Origins w) {e : TaskEvent I F O V} (hsubmitted : ∀ p, e ≠ .submitted p)
    (hstarted : ∀ q, e = .started q → Submitted w.log q) : Origins (w.record e) := by
  have hold : ∀ p, .submitted p ∈ (w.record e).log → .submitted p ∈ w.log := by
    intro p hp
    rcases List.mem_append.mp hp with hp | hp
    · exact hp
    · exact absurd (List.mem_singleton.mp hp).symm (hsubmitted p)
  have hgrow : ∀ e' ∈ w.log, e' ∈ (w.record e).log := fun _ ↦ List.mem_append_left _
  constructor
  · intro q hq
    rcases List.mem_append.mp hq with hq | hq
    · exact (h.started q hq).mono hgrow
    · exact (hstarted q (List.mem_singleton.mp hq).symm).mono hgrow
  · exact fun q hq ↦ (h.queued q hq).mono hgrow
  · exact fun p hp ↦ h.known p (hold p hp)
  · exact fun p p' hp hp' ↦ h.unique p p' (hold p hp) (hold p' hp')

variable [DecidableEq I]

theorem isSome_modify {id id' : I} {u : ResultUpdate V} (h : (w.results id').isSome) :
    ((w.modify id u).results id').isSome := by
  by_cases hid : id' = id
  · subst hid
    obtain ⟨r, hr⟩ := Option.isSome_iff_exists.mp h
    rw [TaskWorld.modify_self hr]
    rfl
  · rwa [TaskWorld.modify_else hid]

theorem origins_perform (h : Origins w) (hp : Submitted w.log p) {e : BackendEffect I F O V}
    (hown : OwnEffect p (.atomic e)) :
    Origins (w.perform e).2 ∧ ∀ e' ∈ w.log, e' ∈ (w.perform e).2.log := by
  cases e with
  | lookup id => exact ⟨h, fun _ he ↦ he⟩
  | create id => exact hown.elim
  | modify id u =>
      exact ⟨h.change rfl h.queued fun _ hsome ↦ isSome_modify hsome, fun _ he ↦ he⟩
  | readStatus id => exact ⟨h, fun _ he ↦ he⟩
  | call q =>
      refine ⟨h.record (fun _ ↦ nofun) ?_, fun _ ↦ List.mem_append_left _⟩
      rintro _ ⟨⟩
      exact hp.same hown
  | putNowait q =>
      refine ⟨h.change rfl ?_ fun _ hsome ↦ hsome, fun _ he ↦ he⟩
      intro q' hq'
      rcases List.mem_append.mp hq' with hq' | hq'
      · exact h.queued q' hq'
      · rw [List.mem_singleton.mp hq']
        exact hp.same hown
  | taskDone =>
      unfold TaskWorld.perform
      dsimp only
      split
      · exact ⟨h, fun _ he ↦ he⟩
      · exact ⟨h.change rfl h.queued fun _ hsome ↦ hsome, fun _ he ↦ he⟩

/-- A stretch of a worker's own code keeps the origins. -/
theorem origins_advance {α : Type} {code : TaskProgram I F O V α} (hcode : OwnCode p code)
    (h : Origins w) (hp : Submitted w.log p) (replies : SpanReplies) :
    Origins (advance code w replies).1 ∧ (∀ e ∈ w.log, e ∈ (advance code w replies).1.log) ∧
      OwnCode p (advance code w replies).2 := by
  induction code generalizing w replies with
  | done v => exact ⟨h, fun _ he ↦ he, trivial⟩
  | step e k ih =>
      cases e with
      | atomic a =>
          obtain ⟨hnext, hlog⟩ := origins_perform h hp hcode.1
          obtain ⟨horigins, hlog', hown⟩ := ih _ (hcode.2 _ trivial) hnext (hp.mono hlog) replies
          exact ⟨horigins, fun e he ↦ hlog' e (hlog e he), hown⟩
      | span c => exact ih _ (hcode.2 _ trivial) h hp replies.tail
      | await id => exact ⟨h, fun _ he ↦ he, hcode⟩
      | sleep seconds => exact ⟨h, fun _ he ↦ he, hcode⟩

theorem origins_accepted (h : Origins w) (hnew : w.results p.taskId = none) :
    Origins (w.accepted p) ∧ ∀ e ∈ w.log, e ∈ (w.accepted p).log := by
  have hlog : (w.accepted p).log = w.log ++ [.submitted p] := rfl
  have hgrow : ∀ e ∈ w.log, e ∈ (w.accepted p).log := fun _ ↦ List.mem_append_left _
  have hself : Submitted (w.accepted p).log p :=
    ⟨p, List.mem_append_right _ List.mem_cons_self, sameCall_refl p⟩
  have hfresh : ∀ q, .submitted q ∈ w.log → q.taskId ≠ p.taskId := by
    intro q hq heq
    have hsome := h.known q hq
    rw [heq, hnew] at hsome
    cases hsome
  have hcases : ∀ q, .submitted q ∈ (w.accepted p).log → .submitted q ∈ w.log ∨ q = p := by
    intro q hq
    apply (List.mem_append.mp hq).imp_right
    intro hq
    cases List.mem_singleton.mp hq
    rfl
  refine ⟨⟨?_, ?_, ?_, ?_⟩, hgrow⟩
  · intro q hq
    rcases List.mem_append.mp hq with hq | hq
    · exact (h.started q hq).mono hgrow
    · cases List.mem_singleton.mp hq
  · intro q hq
    rcases List.mem_append.mp hq with hq | hq
    · exact (h.queued q hq).mono hgrow
    · rw [List.mem_singleton.mp hq]
      exact hself
  · intro q hq
    rcases hcases q hq with hq | rfl
    · rw [accepted_else p (hfresh q hq)]
      exact h.known q hq
    · rw [accepted_self]
      rfl
  · intro q q' hq hq' hid
    rcases hcases q hq with hold | heq
    · rcases hcases q' hq' with hold' | heq'
      · exact h.unique q q' hold hold' hid
      · exact absurd (heq' ▸ hid) (hfresh q hold)
    · rcases hcases q' hq' with hold' | heq'
      · exact absurd (heq ▸ hid.symm) (hfresh q' hold')
      · exact heq.trans heq'.symm

end Origins

section Runs

variable {I F O V : Type} [DecidableEq I] {n : ℕ}
  {s s' : TaskSystem I F O V (WorkerState I F O V)} {act : TaskAction I F O V}

structure SystemOrigins (s : TaskSystem I F O V (WorkerState I F O V)) : Prop where
  world : Origins s.world
  busy : ∀ t ∈ s.tasks, ∀ p code, t.state = .busy p code → Submitted s.world.log p ∧ OwnCode p code

omit [DecidableEq I] in
/-- The controls leave the log, the queue and the results alone. -/
theorem SystemOrigins.control (h : SystemOrigins s) (hlog : s'.world.log = s.world.log)
    (hqueue : s'.world.queue = s.world.queue) (hresults : s'.world.results = s.world.results)
    (htasks : ∀ t ∈ s'.tasks, t.state = .idle ∨ ∃ u ∈ s.tasks, t.state = u.state) :
    SystemOrigins s' := by
  constructor
  · apply h.world.change hlog
    · rw [hqueue]
      exact h.world.queued
    · rw [hresults]
      exact fun _ hsome ↦ hsome
  · intro t ht p code hstate
    rw [hlog]
    rcases htasks t ht with hidle | ⟨u, hu, heq⟩
    · cases hidle.symm.trans hstate
    · exact h.busy u hu p code (heq.symm.trans hstate)

omit [DecidableEq I] in
theorem SystemOrigins.cancelAll (h : SystemOrigins s) : SystemOrigins s.cancelAll := by
  refine h.control rfl rfl rfl ?_
  intro t ht
  have hmem : t.state ∈ s.cancelAll.tasks.map Worker.state := List.mem_map.mpr ⟨t, ht, rfl⟩
  rw [cancelAll_states] at hmem
  obtain ⟨u, hu, heq⟩ := List.mem_map.mp hmem
  exact .inr ⟨u, hu, heq.symm⟩

theorem SystemOrigins.resume (h : SystemOrigins s) {w : TaskWorld I F O V} {p : Payload I F O}
    {code : TaskProgram I F O V Unit} (hw : Origins w) (hlog : ∀ e ∈ s.world.log, e ∈ w.log)
    (hp : Submitted w.log p) (hcode : OwnCode p code) (i : ℕ) (replies : SpanReplies) :
    SystemOrigins (s.resume i p code w replies) := by
  obtain ⟨hworld, hgrow, hown⟩ := origins_advance hcode hw hp replies
  refine ⟨hworld, ?_⟩
  intro t ht p' code' hstate
  rcases List.mem_or_eq_of_mem_set ht with ht | rfl
  · obtain ⟨hp', hcode'⟩ := h.busy t ht p' code' hstate
    exact ⟨hp'.mono fun e he ↦ hgrow e (hlog e he), hcode'⟩
  · have hbusy : p' = p ∧ code' = (advance code w replies).2 := by
      generalize (advance code w replies).2 = q at hstate
      rcases q with (_ | _) | _ <;> cases hstate
      exact ⟨rfl, rfl⟩
    obtain ⟨rfl, rfl⟩ := hbusy
    exact ⟨hp.mono hgrow, hown⟩

theorem SystemOrigins.step (h : SystemOrigins s) (hstep : s.step n act = some s') :
    SystemOrigins s' := by
  cases act with
  | tick =>
      cases hstep
      exact h.control rfl rfl rfl fun t ht ↦ .inr ⟨t, ht, rfl⟩
  | submit p r =>
      simp only [TaskSystem.step] at hstep
      split at hstep
      next hnew =>
        cases hstep
        obtain ⟨hworld, hgrow⟩ := origins_accepted h.world hnew.2
        rw [submit_world]
        refine ⟨hworld, fun t ht q code hstate ↦ ?_⟩
        exact (h.busy t ht q code hstate).imp_left fun hq ↦ hq.mono hgrow
      next => cases hstep
  | take i r =>
      simp only [TaskSystem.step] at hstep
      split at hstep
      next p rest hi hqueue =>
        cases hstep
        have hp : Submitted s.world.log p := by
          apply h.world.queued
          rw [hqueue]
          exact List.mem_cons_self
        have hw : Origins { s.world with queue := rest } := by
          refine h.world.change rfl ?_ fun _ hsome ↦ hsome
          intro q hq
          apply h.world.queued
          rw [hqueue]
          exact List.mem_cons_of_mem p hq
        exact h.resume hw (fun _ he ↦ he) hp ownCode_worker i r
      next => cases hstep
  | complete i v r =>
      simp only [TaskSystem.step] at hstep
      split at hstep
      next p id k flag hi =>
        cases hstep
        obtain ⟨hp, hcode⟩ := h.busy _ (List.mem_of_getElem? hi) p _ rfl
        have hw : Origins (s.world.record (.ended p.taskId v)) := by
          refine h.world.record ?_ ?_
          · intro q hq
            cases hq
          · intro q hq
            cases hq
        have hgrow : ∀ e ∈ s.world.log, e ∈ (s.world.record (.ended p.taskId v)).log :=
          fun _ ↦ List.mem_append_left _
        exact h.resume hw hgrow (hp.mono hgrow) (hcode.2 v trivial) i r
      next => cases hstep
  | wake i r =>
      simp only [TaskSystem.step] at hstep
      split at hstep
      next p seconds k hi =>
        cases hstep
        obtain ⟨hp, hcode⟩ := h.busy _ (List.mem_of_getElem? hi) p _ rfl
        exact h.resume h.world (fun _ he ↦ he) hp (hcode.2 _ trivial) i r
      next => cases hstep
  | cancel i r =>
      simp only [TaskSystem.step] at hstep
      split at hstep
      next hi =>
        cases hstep
        refine ⟨h.world, fun t ht p code hstate ↦ ?_⟩
        rcases List.mem_or_eq_of_mem_set ht with ht | rfl
        · exact h.busy t ht p code hstate
        · cases hstate
      next p seconds k hi =>
        cases hstep
        obtain ⟨hp, hcode⟩ := h.busy _ (List.mem_of_getElem? hi) p _ rfl
        exact h.resume h.world (fun _ he ↦ he) hp (hcode.2 _ trivial) i r
      next => cases hstep
  | start =>
      simp only [TaskSystem.step, TaskSystem.start] at hstep
      split at hstep
      · split at hstep
        · cases hstep
          exact h.control rfl rfl rfl fun t ht ↦ .inr ⟨t, ht, rfl⟩
        · cases hstep
          refine h.control rfl rfl rfl ?_
          intro t ht
          rcases List.mem_append.mp ht with ht | ht
          · exact .inr ⟨t, ht, rfl⟩
          · rw [List.eq_of_mem_replicate ht]
            exact .inl rfl
      · cases hstep
  | stop =>
      have hsame : ∀ t ∈ s.tasks, t.state = .idle ∨ ∃ u ∈ s.tasks, t.state = u.state :=
        fun t ht ↦ .inr ⟨t, ht, rfl⟩
      simp only [TaskSystem.step, TaskSystem.stop] at hstep
      split at hstep
      · split at hstep
        · cases hstep
          exact h.control rfl rfl rfl hsame
        · split at hstep
          · cases hstep
            exact SystemOrigins.cancelAll (h.control rfl rfl rfl hsame)
          · cases hstep
            exact h.control rfl rfl rfl hsame
      · cases hstep
  | joined =>
      simp only [TaskSystem.step, TaskSystem.joined] at hstep
      split at hstep
      · cases hstep
        exact h.cancelAll
      · cases hstep
  | stopped =>
      simp only [TaskSystem.step, TaskSystem.stopped] at hstep
      split at hstep
      · split at hstep
        · cases hstep
          exact h.control rfl rfl rfl fun t ht ↦ .inr ⟨t, ht, rfl⟩
        · cases hstep
      · cases hstep

omit [DecidableEq I] in
theorem systemOrigins_initial :
    SystemOrigins (TaskSystem.initial : TaskSystem I F O V (WorkerState I F O V)) :=
  ⟨⟨nofun, nofun, nofun, nofun⟩, nofun⟩

/-- In all runs all attempts make the call of the submitted payload. -/
theorem attempts_sameCall
    {ok : TaskSystem I F O V (WorkerState I F O V) → TaskAction I F O V → Prop}
    (h : Reaches (fun s ↦ s.step n) ok .initial s) {p q : Payload I F O}
    (hp : .submitted p ∈ s.world.log) (hq : .started q ∈ s.world.log)
    (hid : q.taskId = p.taskId) : SameCall p q := by
  have horigins : SystemOrigins s :=
    h.invariant systemOrigins_initial fun _ _ _ hs _ hstep ↦ hs.step hstep
  obtain ⟨p', hp', hcall⟩ := horigins.world.started q hq
  have heq : p' = p := horigins.world.unique p' p hp' hp (hcall.1.symm.trans hid)
  rwa [heq] at hcall

/-- Awaiting the decorated function `func` enqueues a payload with exactly its
arguments, and all attempts of its task in all runs use them. -/
def ArgumentsCross (n : ℕ) (V : Type) {O : Type} (number : O → ℚ) (integer : O → ℤ) (func : F)
    (id : I) (args : List O) (kwargs : List (Str × O)) : Prop :=
  ∃ p, novaTask number integer func id args kwargs = .ok p ∧ p.taskId = id ∧ p.func = func ∧
    p.args = args ∧ p.kwargs = kwargs ∧
    ∀ (s s' : TaskSystem I F O V (WorkerState I F O V)) (replies : SpanReplies),
      Reaches (fun s ↦ s.step n) Always .initial s → s.step n (.submit p replies) = some s' →
      s'.world.queue = s.world.queue ++ [p] ∧
        ∀ s'', Reaches (fun s ↦ s.step n) Always s' s'' → ∀ q, .started q ∈ s''.world.log →
          q.taskId = id → q.func = func ∧ q.args = args ∧ q.kwargs = kwargs

theorem step_submit {p : Payload I F O} {replies : SpanReplies}
    (hstep : s.step n (.submit p replies) = some s') : s'.world = s.world.accepted p := by
  simp only [TaskSystem.step] at hstep
  split at hstep
  · cases hstep
    exact submit_world replies
  · cases hstep

theorem advance_log {code : TaskProgram I F O V Unit} {w : TaskWorld I F O V}
    {e : TaskEvent I F O V} (he : e ∈ w.log) (replies : SpanReplies) :
    e ∈ (advance code w replies).1.log := by
  induction code generalizing w replies with
  | done v => exact he
  | step c k ih =>
      cases c with
      | atomic a =>
          apply ih
          cases a with
          | call p => exact List.mem_append_left _ he
          | taskDone =>
              unfold TaskWorld.perform
              dsimp only
              split <;> exact he
          | _ => exact he
      | span c => exact ih _ he _
      | await id => exact he
      | sleep seconds => exact he

theorem step_log (hstep : s.step n act = some s') {e : TaskEvent I F O V}
    (he : e ∈ s.world.log) : e ∈ s'.world.log := by
  cases act with
  | tick =>
      cases hstep
      exact he
  | submit p r =>
      rw [step_submit hstep]
      exact List.mem_append_left _ he
  | take i r =>
      simp only [TaskSystem.step] at hstep
      split at hstep
      next p rest hi hqueue =>
        cases hstep
        exact advance_log (w := { s.world with queue := rest }) he r
      next => cases hstep
  | complete i v r =>
      simp only [TaskSystem.step] at hstep
      split at hstep
      · cases hstep
        exact advance_log (List.mem_append_left _ he) r
      · cases hstep
  | wake i r =>
      simp only [TaskSystem.step] at hstep
      split at hstep
      · cases hstep
        exact advance_log he r
      · cases hstep
  | cancel i r =>
      simp only [TaskSystem.step] at hstep
      split at hstep
      · cases hstep
        exact he
      · cases hstep
        exact advance_log he r
      · cases hstep
  | start =>
      simp only [TaskSystem.step, TaskSystem.start] at hstep
      split at hstep
      · split at hstep <;> cases hstep <;> exact he
      · cases hstep
  | stop =>
      simp only [TaskSystem.step, TaskSystem.stop] at hstep
      split at hstep
      · split at hstep
        · cases hstep
          exact he
        · split at hstep <;> cases hstep <;> exact he
      · cases hstep
  | joined =>
      simp only [TaskSystem.step, TaskSystem.joined] at hstep
      split at hstep
      · cases hstep
        exact he
      · cases hstep
  | stopped =>
      simp only [TaskSystem.step, TaskSystem.stopped] at hstep
      split at hstep
      · split at hstep
        · cases hstep
          exact he
        · cases hstep
      · cases hstep

theorem task_arguments_cross (n : ℕ) (V : Type) (number : O → ℚ) (integer : O → ℤ) (func : F)
    (id : I) (args : List O) (kwargs : List (Str × O)) :
    ArgumentsCross n V number integer func id args kwargs ↔
      ∀ kv ∈ kwargs, kv.1 ∉ reservedKeywords := by
  constructor
  · intro hcross kv hkv hreserved
    obtain ⟨p, hp, -, -, -, hkwargs, -⟩ := hcross
    rw [← hkwargs] at hkv
    exact novaTask_kwargs hp kv hkv hreserved
  · intro hfree
    obtain ⟨p, hp, hid, hattempts, hfunc, hargs, hkwargs⟩ :=
      novaTask_ok number integer func id args hfree
    refine ⟨p, hp, hid, hfunc, hargs, hkwargs, ?_⟩
    intro s s' replies hs hstep
    have hworld := step_submit hstep
    have hs' : Reaches (fun s ↦ s.step n) Always .initial s' := .move _ hs trivial hstep
    constructor
    · rw [hworld]
      rfl
    · intro s'' hrun q hq hqid
      have hfirst : .submitted p ∈ s'.world.log := by
        rw [hworld]
        exact List.mem_append_right _ List.mem_cons_self
      have hsubmitted : .submitted p ∈ s''.world.log :=
        hrun.invariant (I := fun b ↦ .submitted p ∈ b.world.log) hfirst
          fun _ _ _ hb _ hb' ↦ step_log hb' hb
      have hcall := attempts_sameCall (hs'.trans hrun) hsubmitted hq (hqid.trans hid.symm)
      exact ⟨hcall.2.1.trans hfunc, hcall.2.2.1.trans hargs, hcall.2.2.2.trans hkwargs⟩

/-- A keyword `delay` of the task function is taken for the delay of the task. -/
theorem task_arguments_cross_fails :
    ¬∀ kwargs : List (Str × ℕ),
      ArgumentsCross (I := ℕ) 1 ℕ (Nat.cast : ℕ → ℚ) (Nat.cast : ℕ → ℤ) () 7 [3] kwargs := by
  intro hclaim
  obtain ⟨p, hp, -, -, -, hkwargs, -⟩ := hclaim [("delay".toList, 5)]
  have hmem : ("delay".toList, 5) ∈ p.kwargs := by
    rw [hkwargs]
    exact List.mem_cons_self
  exact novaTask_kwargs hp _ hmem (by decide)

end Runs

end DjangoNova
