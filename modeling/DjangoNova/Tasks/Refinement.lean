import DjangoNova.Tasks.Phases

/-!
# The code refines the phases

Every stretch of the worker's code, with calm replies of the tracing
provider, has the effect of the phase change with the same action.
-/

namespace DjangoNova

open AsyncioBackend

section Stretches

variable {I F O V α β : Type} [DecidableEq I] {w w' : TaskWorld I F O V} {p : Payload I F O}

/-- A stretch that ends continues with what follows. -/
theorem advance_andThen_done {q : TaskProgram I F O V α} {v : Except TaskExn α}
    (h : advance q w [] = (w', .done v)) (f : Except TaskExn α → TaskProgram I F O V β) :
    advance (q.andThen f) w [] = advance (f v) w' [] := by
  induction q generalizing w with
  | done u =>
      obtain ⟨rfl, hv⟩ := Prod.mk.inj h
      obtain rfl := Program.done.inj hv
      rfl
  | step e k ih =>
      cases e with
      | atomic a => exact ih _ h
      | span c => exact ih _ h
      | await id => cases h
      | sleep seconds => cases h

theorem advance_tryFinally_done {q : TaskProgram I F O V α} {v : Except TaskExn α}
    (h : advance q w [] = (w', .done v)) {r : TaskProgram I F O V Unit}
    {w'' : TaskWorld I F O V} (hr : advance r w' [] = (w'', .done (.ok ()))) :
    advance (q.tryFinally r) w [] = (w'', .done v) := by
  rw [Program.tryFinally, advance_andThen_done h]
  exact advance_andThen_done hr _

theorem advance_submit :
    advance (plainSubmit p : TaskProgram I F O V I) (w.record (.submitted p)) [] =
      (w.accepted p, .done (.ok p.taskId)) := rfl

/-- The code of a worker that has arrived at a phase. -/
inductive Arrives (p : Payload I F O) : TaskProgram I F O V Unit → Phase I F O → Prop
  | ended : Arrives p (.done (.ok ())) .idle
  | failed (x : TaskExn) : Arrives p (.done (.error x)) .dead
  | suspended {q : TaskProgram I F O V Unit} {phase : Phase I F O}
      (h : phase.code = some (p, q)) : Arrives p q phase

theorem advance_worker (h : (w.results p.taskId).isSome) :
    ∃ q, advance (plainWorker p : TaskProgram I F O V Unit) w [] = ((w.begun p).1, q) ∧
      Arrives p q (w.begun p).2 := by
  have hlookup : advance (plainWorker p : TaskProgram I F O V Unit) w [] =
      advance (do
        Tracing.onlyIf (p.attempts = 0 ∧ 0 < p.delay) (sleep p.delay)
        launchCode p : TaskProgram I F O V Unit) w [] := by
    have hperform : w.perform (.lookup p.taskId) = (.ok (), w) := by
      simp [TaskWorld.perform, h]
    have hask : advance (ask (.lookup p.taskId) : TaskProgram I F O V Unit) w [] =
        (w, .done (.ok ())) := by
      show advance (.done (w.perform (.lookup p.taskId)).1) (w.perform (.lookup p.taskId)).2 [] = _
      rw [hperform]
      rfl
    exact advance_andThen_done hask _
  rw [hlookup]
  unfold TaskWorld.begun Tracing.onlyIf
  split
  · exact ⟨_, rfl, .suspended rfl⟩
  · exact ⟨_, rfl, .suspended rfl⟩

theorem advance_conclude (h : 0 < w.unfinished) :
    advance (conclude p false : TaskProgram I F O V Unit) w [] =
      (w.concluded p, .done (.ok ())) := by
  have hdone : ∀ w : TaskWorld I F O V, 0 < w.unfinished →
      advance (ask .taskDone : TaskProgram I F O V Unit) w [] = (w.taskDone, .done (.ok ())) := by
    intro w hw
    have hperform : w.perform .taskDone = (.ok (), w.taskDone) := by
      simp [TaskWorld.perform, hw.ne']
    show advance (.done (w.perform .taskDone).1) (w.perform .taskDone).2 [] = _
    rw [hperform]
    rfl
  have hstatus : advance (conclude p false : TaskProgram I F O V Unit) w [] =
      advance (do
        Tracing.onlyIf (w.status p.taskId ≠ .retrying) (assign p .finished)
        ask .taskDone : TaskProgram I F O V Unit) w [] := rfl
  rw [hstatus]
  unfold TaskWorld.concluded Tracing.onlyIf
  by_cases hretrying : w.status p.taskId = .retrying
  · rw [if_neg (not_not.mpr hretrying), if_pos hretrying]
    exact hdone w h
  · rw [if_pos hretrying, if_neg hretrying]
    exact hdone (w.modify p.taskId .finished) h

theorem advance_finally {q : TaskProgram I F O V Unit} {v : Except TaskExn Unit}
    (h : advance q w [] = (w', .done v)) (hw : 0 < w'.unfinished) :
    advance (q.tryFinally (conclude p false)) w [] = (w'.concluded p, .done v) :=
  advance_tryFinally_done h (advance_conclude hw)

/-- What happens once the task function has returned or raised. -/
theorem advance_afterRun (h : 0 < w.unfinished) (v : Except TaskExn V) :
    ∃ q, advance (afterRun p v) w [] = ((w.completed p v).1, q) ∧
      Arrives p q (w.completed p v).2 := by
  rcases v with (text | _) | v
  · have hcode : (afterRun p (.error (.exception text)) : TaskProgram I F O V Unit) =
        (onException p false (.error (.exception text))).tryFinally (conclude p false) := rfl
    rw [hcode, onException]
    unfold TaskWorld.completed
    dsimp only
    by_cases hretry : (p.attempts : ℤ) < p.maxRetries
    · rw [if_pos hretry, if_pos hretry]
      cases text with
      | some text => exact ⟨restCode p, rfl, .suspended rfl⟩
      | none =>
          have hbody : advance (retry p false (.exception none) : TaskProgram I F O V Unit) w [] =
              (w.retried p, .done (.error (.exception (some [])))) := rfl
          exact ⟨_, advance_finally hbody h, .failed _⟩
    · rw [if_neg hretry, if_neg hretry]
      cases text with
      | some text =>
          have hbody : advance (fail p false (.exception (some text)) : TaskProgram I F O V Unit)
              w [] = (((w.modify p.taskId (.status .failed)).modify p.taskId (.error text)).modify
                p.taskId (.attempts (p.attempts + 1)), .done (.ok ())) := rfl
          exact ⟨_, advance_finally hbody h, .ended⟩
      | none =>
          have hbody : advance (fail p false (.exception none) : TaskProgram I F O V Unit) w [] =
              (w.modify p.taskId (.status .failed), .done (.error (.exception (some [])))) := rfl
          exact ⟨_, advance_finally hbody h, .failed _⟩
  · have hbody : advance ((Program.throw .cancelled : TaskProgram I F O V Unit).andThen
        (onException p false)) w [] = (w, .done (.error .cancelled)) := rfl
    exact ⟨_, advance_finally hbody h, .failed _⟩
  · have hbody : advance ((succeed p false v : TaskProgram I F O V Unit).andThen
        (onException p false)) w [] = (w.succeeded p v, .done (.ok ())) := rfl
    exact ⟨_, advance_finally hbody h, .ended⟩

/-- A worker whose delay is over starts the attempt. -/
theorem advance_afterDelay :
    advance (afterDelay p (.ok ()) : TaskProgram I F O V Unit) w [] = (w.launched p, runCode p) :=
  rfl

theorem advance_afterRest :
    advance (afterRest p (.ok ()) : TaskProgram I F O V Unit) w [] =
      ((w.put (Payload.next p)).concluded p, .done (.ok ())) := by
  have hput : advance (ask (.putNowait (Payload.next p)) : TaskProgram I F O V Unit) w [] =
      (w.put (Payload.next p), .done (.ok ())) := rfl
  exact advance_finally hput (Nat.succ_pos _)

theorem advance_afterRest_cancelled (h : 0 < w.unfinished) :
    advance (afterRest p (.error .cancelled) : TaskProgram I F O V Unit) w [] =
      (w.concluded p, .done (.error .cancelled)) := by
  have hthrow : advance (Program.throw .cancelled : TaskProgram I F O V Unit) w [] =
      (w, .done (.error .cancelled)) := rfl
  exact advance_finally hthrow h

end Stretches

section Erasure

variable {I F O V α : Type} {p : Payload I F O}

def TaskEffect.Silent : TaskEffect I F O V → Prop
  | .span _ => True
  | _ => False

/-- `set_attribute` does not raise. -/
def CalmReply (e : TaskEffect I F O V) (r : Except TaskExn e.Reply) : Prop :=
  match e, r with
  | .span .setAttribute, .error _ => False
  | _, _ => True

abbrev ErasesTo (p q : TaskProgram I F O V α) : Prop :=
  Program.Erases TaskEffect.Silent CalmReply p q

theorem spanCall_silent : Tracing.Silent (TaskEffect.Silent (I := I) (F := F) (O := O) (V := V))
    CalmReply spanCall := by
  constructor
  · exact fun c ↦ ⟨trivial, fun _ _ ↦ trivial⟩
  · refine ⟨trivial, fun r hr ↦ ?_⟩
    cases r with
    | ok b => exact ⟨b, rfl⟩
    | error x => exact hr.elim

theorem erases_setAttribute (span : Bool) :
    ErasesTo (Tracing.setAttribute spanCall span : TaskProgram I F O V Unit)
      (Tracing.setAttribute spanCall false) :=
  (Tracing.setAttribute_ends spanCall_silent span).erases_done

theorem erases_ask (a : BackendEffect I F O V) : ErasesTo (ask a) (ask a) := .call fun h ↦ h

theorem erases_succeed (span : Bool) (v : V) :
    ErasesTo (succeed p span v : TaskProgram I F O V Unit) (succeed p false v) := by
  apply (erases_ask _).bind
  intro _
  apply (erases_ask _).bind
  intro _
  apply (erases_ask _).bind
  intro _
  exact erases_setAttribute span

theorem erases_retry (span : Bool) (x : TaskExn) :
    ErasesTo (retry p span x : TaskProgram I F O V Unit) (retry p false x) := by
  apply (erases_ask _).bind
  intro _
  apply (erases_ask _).bind
  intro _
  apply (Program.Erases.done _).bind
  intro text
  apply (erases_ask _).bind
  intro _
  apply (erases_setAttribute span).bind
  intro _
  apply (erases_setAttribute span).bind
  intro _
  have hsleep : ErasesTo (sleep p.retryDelay : TaskProgram I F O V Unit) (sleep p.retryDelay) :=
    .call fun h ↦ h
  exact hsleep.bind fun _ ↦ erases_ask _

theorem erases_fail (span : Bool) (x : TaskExn) :
    ErasesTo (fail p span x : TaskProgram I F O V Unit) (fail p false x) := by
  apply (erases_ask _).bind
  intro _
  apply (Program.Erases.done _).bind
  intro text
  apply (erases_ask _).bind
  intro _
  apply (erases_ask _).bind
  intro _
  apply (erases_setAttribute span).bind
  exact fun _ ↦ erases_setAttribute span

theorem erases_onException (span : Bool) (v : Except TaskExn Unit) :
    ErasesTo (onException p span v : TaskProgram I F O V Unit) (onException p false v) := by
  rcases v with (text | _) | _
  · by_cases hretry : (p.attempts : ℤ) < p.maxRetries
    · simp only [onException, if_pos hretry]
      exact erases_retry span _
    · simp only [onException, if_neg hretry]
      exact erases_fail span _
  · exact .done _
  · exact .done _

theorem erases_conclude (span : Bool) :
    ErasesTo (conclude p span : TaskProgram I F O V Unit) (conclude p false) := by
  apply (erases_setAttribute span).bind
  intro _
  apply (erases_ask _).bind
  intro status
  have hstamp : ErasesTo (Tracing.onlyIf (status ≠ .retrying) (assign p .finished))
      (Tracing.onlyIf (status ≠ .retrying) (assign p .finished) : TaskProgram I F O V Unit) := by
    unfold Tracing.onlyIf
    split
    · exact erases_ask _
    · exact .done _
  exact hstamp.bind fun _ ↦ erases_ask _

theorem erases_attempt (span : Bool) :
    ErasesTo (attempt p span : TaskProgram I F O V Unit) (attempt p false) := by
  have hinvoke : ErasesTo (invoke p span : TaskProgram I F O V Unit) (invoke p false) := by
    apply (erases_ask _).bind
    intro _
    apply Program.Erases.bind
    · exact .call fun h ↦ h
    · exact erases_succeed span
  apply (hinvoke.andThen (erases_onException span)).andThen
  intro v
  exact (erases_conclude span).bind fun _ ↦ .done v

/-- The worker behaves as if there were no tracing. -/
theorem erases_worker : ErasesTo (worker p : TaskProgram I F O V Unit) (plainWorker p) := by
  apply (erases_ask _).bind
  intro _
  have hdelay : ErasesTo (Tracing.onlyIf (p.attempts = 0 ∧ 0 < p.delay) (sleep p.delay))
      (Tracing.onlyIf (p.attempts = 0 ∧ 0 < p.delay) (sleep p.delay) :
        TaskProgram I F O V Unit) := by
    unfold Tracing.onlyIf
    split
    · exact .call fun h ↦ h
    · exact .done _
  apply hdelay.bind
  intro _
  have hannounce : ErasesTo (announce p : TaskProgram I F O V Unit) (announce p) :=
    (erases_ask _).bind fun _ ↦ erases_ask _
  apply hannounce.bind
  intro _
  exact Tracing.novaSpan_erases spanCall_silent.any erases_attempt

theorem erases_enqueue (span : Bool) :
    ErasesTo (enqueue p span : TaskProgram I F O V Unit) (enqueue p false) := by
  apply (erases_ask _).bind
  intro _
  apply (erases_ask _).bind
  intro _
  cases span with
  | false => exact .done _
  | true =>
      have hattribute : ∀ c : Prop, [Decidable c] → ErasesTo
          (Tracing.onlyIf c (Tracing.setAttribute spanCall true) : TaskProgram I F O V Unit)
          (.done (.ok ())) := by
        intro c _
        unfold Tracing.onlyIf
        split
        · exact erases_setAttribute true
        · exact .done _
      apply (erases_setAttribute true).bind (g := fun _ ↦ .done (.ok ()))
      intro _
      exact (hattribute _).bind fun _ ↦ hattribute _

theorem erases_submit : ErasesTo (submit p : TaskProgram I F O V I) (plainSubmit p) := by
  have hspan : ErasesTo (taskSpan (enqueue p) : TaskProgram I F O V Unit) (enqueue p false) :=
    Tracing.novaSpan_erases spanCall_silent.any erases_enqueue
  exact hspan.bind fun _ ↦ .done _

end Erasure

section Simulation

variable {I F O V α : Type} [DecidableEq I] {w : TaskWorld I F O V}

/-- A program at a suspension point, or at its end. -/
def Suspended : TaskProgram I F O V α → Prop
  | .done _ | .step (.await _) _ | .step (.sleep _) _ => True
  | _ => False

theorem advance_suspended (q : TaskProgram I F O V α) (w : TaskWorld I F O V)
    (replies : SpanReplies) : Suspended (advance q w replies).2 := by
  induction q generalizing w replies with
  | done v => trivial
  | step e k ih =>
      cases e with
      | atomic a => exact ih _ _ _
      | span c => exact ih _ _ _
      | await id => trivial
      | sleep seconds => trivial

/-- A calm stretch does what the stretch without the span does. -/
theorem advance_erases {q q' : TaskProgram I F O V α} (h : ErasesTo q q')
    {replies : SpanReplies} (hcalm : Calm q w replies) :
    (advance q w replies).1 = (advance q' w []).1 ∧
      ErasesTo (advance q w replies).2 (advance q' w []).2 := by
  induction h generalizing w replies with
  | done v => exact ⟨rfl, .done v⟩
  | @silent e k q' he h ih =>
      cases e with
      | span c =>
          have hreply : CalmReply (.span c : TaskEffect I F O V) (spanReply replies) := by
            by_cases hc : c = .setAttribute
            · subst hc
              obtain ⟨b, hb⟩ := hcalm.1 rfl
              rw [hb]
              trivial
            · cases c with
              | setAttribute => exact absurd rfl hc
              | _ => trivial
          exact ih _ hreply hcalm.2
      | _ => exact he.elim
  | @step e k k' he h ih =>
      cases e with
      | atomic a => exact ih _ hcalm
      | span c => exact absurd trivial he
      | await id => exact ⟨rfl, .step he h⟩
      | sleep seconds => exact ⟨rfl, .step he h⟩

/-- The worker is at the suspension point of the phase. -/
inductive Matches : WorkerState I F O V → Phase I F O → Prop
  | idle : Matches .idle .idle
  | dead : Matches .dead .dead
  | busy {p : Payload I F O} {code q : TaskProgram I F O V Unit} {phase : Phase I F O}
      (hphase : phase.code = some (p, q)) (hcode : Suspended code) (h : ErasesTo code q) :
      Matches (.busy p code) phase

omit [DecidableEq I] in
theorem Matches.isDead {state : WorkerState I F O V} {phase : Phase I F O}
    (h : Matches state phase) : TaskSystem.WorkerState.isDead state = phase.isDead := by
  cases h with
  | idle => rfl
  | dead => rfl
  | busy hphase hcode h =>
      cases phase with
      | dead => cases hphase
      | _ => rfl

omit [DecidableEq I] in
/-- A stretch that arrives at a phase leaves the worker in it. -/
theorem matches_workerState {p : Payload I F O} {code q : TaskProgram I F O V Unit}
    {phase : Phase I F O}
    (hcode : Suspended code) (h : ErasesTo code q) (harrives : Arrives p q phase) :
    Matches (TaskSystem.workerState p code) phase := by
  cases h with
  | done v =>
      cases harrives with
      | ended => exact .idle
      | failed x => exact .dead
      | suspended hphase =>
          cases phase <;> cases hphase
  | @silent e k q he hk =>
      cases e with
      | span c => exact hcode.elim
      | _ => exact he.elim
  | @step e k k' he hk =>
      cases harrives with
      | suspended hphase => exact .busy hphase hcode (.step he hk)

omit [DecidableEq I] in
theorem suspended_step {code : TaskProgram I F O V α} {e : TaskEffect I F O V}
    {k' : Except TaskExn e.Reply → TaskProgram I F O V α} (hcode : Suspended code)
    (h : ErasesTo code (.step e k')) : ∃ k, code = .step e k ∧ ∀ r, ErasesTo (k r) (k' r) := by
  cases h with
  | @silent e' k _ he _ =>
      cases e' with
      | span c => exact hcode.elim
      | _ => exact he.elim
  | @step _ k _ he hk => exact ⟨k, rfl, hk⟩

variable {state : WorkerState I F O V} {p : Payload I F O}

omit [DecidableEq I] in
theorem Matches.delaying (h : Matches state (.delaying p)) :
    ∃ k, state = .busy p (.step (.sleep p.delay) k) ∧
      ∀ r, ErasesTo (k r) (afterDelay p r) := by
  cases h with
  | busy hphase hcode h =>
      cases hphase
      obtain ⟨k, rfl, hk⟩ := suspended_step hcode h
      exact ⟨k, rfl, hk⟩

omit [DecidableEq I] in
theorem Matches.running (h : Matches state (.running p)) :
    ∃ k, state = .busy p (.step (.await p.taskId) k) ∧
      ∀ v, ErasesTo (k v) (afterRun p v) := by
  cases h with
  | busy hphase hcode h =>
      cases hphase
      obtain ⟨k, rfl, hk⟩ := suspended_step hcode h
      exact ⟨k, rfl, hk⟩

omit [DecidableEq I] in
theorem Matches.resting (h : Matches state (.resting p)) :
    ∃ k, state = .busy p (.step (.sleep p.retryDelay) k) ∧
      ∀ r, ErasesTo (k r) (afterRest p r) := by
  cases h with
  | busy hphase hcode h =>
      cases hphase
      obtain ⟨k, rfl, hk⟩ := suspended_step hcode h
      exact ⟨k, rfl, hk⟩

end Simulation

end DjangoNova
