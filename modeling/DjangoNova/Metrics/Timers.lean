import Mathlib.Algebra.Order.Ring.Rat
import Mathlib.Logic.Function.Basic
import Mathlib.Tactic.Linarith
import DjangoNova.Concurrency.Transition
import DjangoNova.Text.Str

/-!
# Timers

One timer with all the activations that share it. An entry reads the clock
and stores the reading in the timer; an exit reads the clock and subtracts
what the timer has. Other activations may come between any two of these.
-/

namespace DjangoNova

/-- Where an activation is, with its clock readings. -/
inductive Activation where
  | idle
  /-- in `__enter__`, with the clock read -/
  | entering (entry : ℚ)
  | inside (entry : ℚ)
  /-- in `__exit__`, with the clock read -/
  | leaving (entry exit : ℚ)
  | left (entry exit : ℚ)
  deriving DecidableEq

/-- The reading at which an activation was entered. -/
def Activation.entry : Activation → Option ℚ
  | .idle => none
  | .entering e | .inside e | .leaving e _ | .left e _ => some e

/-- A call of `get_metrics_registry().timing`. -/
structure Timing where
  metric : Str
  durationMs : ℚ
  deriving DecidableEq

/-- A timer that the activations `A` share, the clock in seconds and the
reported timings. The holder is the activation that stored the start last. -/
structure TimerState (A : Type) where
  metric : Str
  start : ℚ
  now : ℚ
  activation : A → Activation
  holder : Option A
  reports : List (A × Timing)

inductive TimerAction (A : Type) where
  | enter (a : A)
  /-- `self._start = ...` -/
  | store (a : A)
  | exit (a : A)
  | report (a : A)
  | tick (d : ℚ)

namespace Timer

variable {A : Type}

/-- A timer that was not used yet. -/
def initial (metric : Str) (now : ℚ) : TimerState A := ⟨metric, 0, now, fun _ ↦ .idle, none, []⟩

/-- `(perf_counter() - self._start) * 1000.0` -/
def elapsed (s : TimerState A) (exit : ℚ) : ℚ := (exit - s.start) * 1000

section Holder

/-- An exit finds the start that an activation with its own entry reading has
stored. -/
def Undisturbed (s : TimerState A) : TimerAction A → Prop
  | .report a => ∀ b ∈ s.holder, (s.activation b).entry = (s.activation a).entry
  | .enter _ | .store _ | .exit _ | .tick _ => True

/-- The start is the entry reading of the holder, and there is a holder as
soon as some activation has stored the start. -/
structure Held (s : TimerState A) : Prop where
  start : ∀ b ∈ s.holder, (s.activation b).entry = some s.start
  stored : s.holder = none → ∀ a, s.activation a = .idle ∨ ∃ e, s.activation a = .entering e

variable {s : TimerState A} {a : A} {e x : ℚ}

theorem Held.exists_holder (h : Held s) (hidle : s.activation a ≠ .idle)
    (hentering : ∀ e, s.activation a ≠ .entering e) : s.holder ≠ none := fun hnone ↦
  (h.stored hnone a).elim hidle fun ⟨e, he⟩ ↦ hentering e he

/-- With a holder, an exit is undisturbed if the timer has its own start. -/
theorem Held.undisturbed_iff (h : Held s) (hp : s.activation a = .leaving e x) :
    Undisturbed s (.report a) ↔ s.start = e := by
  obtain ⟨b, hb⟩ := Option.ne_none_iff_exists'.mp
    (h.exists_holder (a := a) (by simp [hp]) (by simp [hp]))
  simp only [Undisturbed, hb, Option.mem_some_iff, forall_eq', h.start b hb, hp]
  exact Option.some_inj

end Holder

variable [DecidableEq A]

def become (s : TimerState A) (a : A) (p : Activation) : TimerState A :=
  { s with activation := Function.update s.activation a p }

def step (s : TimerState A) : TimerAction A → Option (TimerState A)
  | .enter a =>
      match s.activation a with
      | .idle => some (become s a (.entering s.now))
      | _ => none
  | .store a =>
      match s.activation a with
      | .entering e => some { become s a (.inside e) with start := e, holder := some a }
      | _ => none
  | .exit a =>
      match s.activation a with
      | .inside e => some (become s a (.leaving e s.now))
      | _ => none
  | .report a =>
      match s.activation a with
      | .leaving e x =>
          some { become s a (.left e x) with
            reports := s.reports ++ [(a, ⟨s.metric, elapsed s x⟩)] }
      | _ => none
  | .tick d => some { s with now := s.now + max 0 d }

/-- The timings that an activation has reported. -/
def reportsOf (s : TimerState A) (a : A) : List Timing :=
  (s.reports.filter fun r ↦ r.1 = a).map Prod.snd

/-- What an activation must have reported: after its exit one timing, the
time from its entry to its exit. -/
def expected (metric : Str) : Activation → List Timing
  | .left e x => [⟨metric, (x - e) * 1000⟩]
  | .idle | .entering _ | .inside _ | .leaving _ _ => []

def PerActivation (s : TimerState A) : Prop :=
  ∀ a, reportsOf s a = expected s.metric (s.activation a)

section Invariant

variable {s s' : TimerState A} {action : TimerAction A} {a b : A} {p : Activation} {e x : ℚ}

@[simp] theorem become_self (s : TimerState A) (a : A) (p : Activation) :
    (become s a p).activation a = p := by simp [become]

@[simp] theorem become_of_ne (h : b ≠ a) (s : TimerState A) (p : Activation) :
    (become s a p).activation b = s.activation b := by simp [become, h]

theorem step_cases (h : step s action = some s') :
    (∃ a, action = .enter a ∧ s.activation a = .idle ∧ s' = become s a (.entering s.now)) ∨
      (∃ a e, action = .store a ∧ s.activation a = .entering e ∧
        s' = { become s a (.inside e) with start := e, holder := some a }) ∨
      (∃ a e, action = .exit a ∧ s.activation a = .inside e ∧ s' = become s a (.leaving e s.now)) ∨
      (∃ a e x, action = .report a ∧ s.activation a = .leaving e x ∧
        s' = { become s a (.left e x) with
          reports := s.reports ++ [(a, ⟨s.metric, elapsed s x⟩)] }) ∨
      ∃ d, action = .tick d ∧ s' = { s with now := s.now + max 0 d } := by
  cases action with
  | enter a =>
      simp only [step] at h
      split at h
      next hp => exact .inl ⟨a, rfl, hp, (Option.some.inj h).symm⟩
      next => cases h
  | store a =>
      simp only [step] at h
      split at h
      next e hp => exact .inr (.inl ⟨a, e, rfl, hp, (Option.some.inj h).symm⟩)
      next => cases h
  | exit a =>
      simp only [step] at h
      split at h
      next e hp => exact .inr (.inr (.inl ⟨a, e, rfl, hp, (Option.some.inj h).symm⟩))
      next => cases h
  | report a =>
      simp only [step] at h
      split at h
      next e x hp => exact .inr (.inr (.inr (.inl ⟨a, e, x, rfl, hp, (Option.some.inj h).symm⟩)))
      next => cases h
  | tick d => exact .inr (.inr (.inr (.inr ⟨d, rfl, (Option.some.inj h).symm⟩)))

/-- An activation that goes on keeps its entry reading. -/
theorem held_become (h : Held s)
    (hentry : (s.activation a).entry ≠ none → p.entry = (s.activation a).entry)
    (hstored : s.holder = none → ∃ e, p = .entering e) : Held (become s a p) := by
  constructor
  · intro b hb
    have hstart := h.start b hb
    by_cases hba : b = a
    · subst hba
      rw [become_self, hentry (by rw [hstart]; exact Option.some_ne_none _), hstart]
      rfl
    · rw [become_of_ne hba, hstart]
      rfl
  · intro hnone b
    by_cases hba : b = a
    · subst hba
      rw [become_self]
      exact .inr (hstored hnone)
    · rw [become_of_ne hba]
      exact h.stored hnone b

theorem held_step (h : Held s) (hstep : step s action = some s') : Held s' := by
  rcases step_cases hstep with ⟨a, -, hp, rfl⟩ | ⟨a, e, -, hp, rfl⟩ | ⟨a, e, -, hp, rfl⟩ |
    ⟨a, e, x, -, hp, rfl⟩ | ⟨d, -, rfl⟩
  · exact held_become h (by simp [hp, Activation.entry]) fun _ ↦ ⟨s.now, rfl⟩
  · refine ⟨?_, fun hnone ↦ absurd hnone (Option.some_ne_none a)⟩
    rintro b ⟨⟩
    simp [Activation.entry]
  · have hholder := h.exists_holder (a := a) (by simp [hp]) (by simp [hp])
    exact held_become h (by simp [hp, Activation.entry]) fun hnone ↦ absurd hnone hholder
  · have hholder := h.exists_holder (a := a) (by simp [hp]) (by simp [hp])
    have hbecome := held_become (a := a) (p := .left e x) h (by simp [hp, Activation.entry])
      fun hnone ↦ absurd hnone hholder
    exact ⟨hbecome.start, hbecome.stored⟩
  · exact ⟨h.start, h.stored⟩

theorem perActivation_become (h : PerActivation s)
    (hp : expected s.metric p = expected s.metric (s.activation a)) :
    PerActivation (become s a p) := by
  intro b
  by_cases hba : b = a
  · subst hba
    rw [become_self]
    exact (h b).trans hp.symm
  · rw [become_of_ne hba]
    exact h b

theorem reportsOf_append (s : TimerState A) (a b : A) (t : Timing) :
    reportsOf { s with reports := s.reports ++ [(a, t)] } b =
      reportsOf s b ++ if a = b then [t] else [] := by
  by_cases hab : a = b <;> simp [reportsOf, hab]

/-- The timing of an exit is the right one if and only if it is undisturbed. -/
theorem perActivation_report (h : PerActivation s) (hheld : Held s)
    (hp : s.activation a = .leaving e x) :
    PerActivation { become s a (.left e x) with
      reports := s.reports ++ [(a, ⟨s.metric, elapsed s x⟩)] } ↔ Undisturbed s (.report a) := by
  rw [hheld.undisturbed_iff hp]
  have hown : reportsOf s a = [] := by rw [h a, hp]; rfl
  have hright : elapsed s x = (x - e) * 1000 ↔ s.start = e := by
    unfold elapsed
    constructor
    · intro heq
      linarith
    · intro heq
      rw [heq]
  have hreports := reportsOf_append (become s a (.left e x)) a
  constructor
  · intro hper
    have hlist : reportsOf s a ++ [⟨s.metric, elapsed s x⟩] =
        expected s.metric ((become s a (.left e x)).activation a) := by
      have hself := hreports a ⟨s.metric, elapsed s x⟩
      rw [if_pos rfl] at hself
      exact hself.symm.trans (hper a)
    rw [hown, become_self] at hlist
    exact hright.mp (Timing.mk.inj (List.cons.inj hlist).1).2
  · intro hstart b
    refine (hreports b _).trans ?_
    by_cases hab : a = b
    · subst hab
      rw [if_pos rfl]
      show reportsOf s a ++ _ = expected s.metric ((become s a (.left e x)).activation a)
      rw [hown, become_self, hright.mpr hstart]
      rfl
    · rw [if_neg hab, List.append_nil]
      show reportsOf s b = expected s.metric ((become s a (.left e x)).activation b)
      rw [become_of_ne (Ne.symm hab)]
      exact h b

theorem perActivation_step (h : PerActivation s) (hheld : Held s) (hok : Undisturbed s action)
    (hstep : step s action = some s') : PerActivation s' := by
  rcases step_cases hstep with ⟨a, rfl, hp, rfl⟩ | ⟨a, e, rfl, hp, rfl⟩ | ⟨a, e, rfl, hp, rfl⟩ |
    ⟨a, e, x, rfl, hp, rfl⟩ | ⟨d, rfl, rfl⟩
  · exact perActivation_become h (by simp [hp, expected])
  · exact perActivation_become (p := .inside e) h (by simp [hp, expected])
  · exact perActivation_become h (by simp [hp, expected])
  · exact (perActivation_report h hheld hp).mpr hok
  · exact h

end Invariant

/-- If no exit is disturbed, every activation reports its own time once; and
the first exit that is disturbed reports another one. -/
theorem timer_per_activation (metric : Str) (now : ℚ) :
    (∀ s : TimerState A, Transition.Reaches step Undisturbed (initial metric now) s →
        PerActivation s) ∧
      ∀ (s : TimerState A) a s', Transition.Reaches step Undisturbed (initial metric now) s →
        step s (.report a) = some s' → PerActivation s' → Undisturbed s (.report a) := by
  have hinvariant : ∀ s : TimerState A, Transition.Reaches step Undisturbed (initial metric now) s →
      Held s ∧ PerActivation s := by
    intro s hs
    refine hs.invariant (I := fun s ↦ Held s ∧ PerActivation s)
      ⟨⟨nofun, fun _ _ ↦ .inl rfl⟩, fun _ ↦ rfl⟩
      fun s action s' ⟨hheld, hper⟩ hok hstep ↦
        ⟨held_step hheld hstep, perActivation_step hper hheld hok hstep⟩
  refine ⟨fun s hs ↦ (hinvariant s hs).2, fun s a s' hs hstep hper ↦ ?_⟩
  obtain ⟨hheld, hbefore⟩ := hinvariant s hs
  rcases step_cases hstep with ⟨_, haction, -⟩ | ⟨_, _, haction, -⟩ | ⟨_, _, haction, -⟩ |
    ⟨_, e, x, haction, hp, rfl⟩ | ⟨_, haction, -⟩
  · cases haction
  · cases haction
  · cases haction
  · cases haction
    exact (perActivation_report hbefore hheld hp).mp hper
  · cases haction

/-- A recursive call of a decorated function: the outer call reports the time
since the inner one was entered. -/
theorem timer_per_activation_fails :
    ¬∀ s : TimerState Bool, Transition.Reaches step Transition.Always
      (initial "query.time".toList 0) s → PerActivation s := by
  intro h
  have hrun : ∃ s, Transition.run step (initial "query.time".toList 0 : TimerState Bool)
      [.enter true, .store true, .tick 5, .enter false, .store false, .tick 1, .exit false,
        .report false, .tick 4, .exit true, .report true] = some s ∧
      reportsOf s true = [⟨"query.time".toList, 5000⟩] ∧ s.metric = "query.time".toList ∧
        s.activation true = .left 0 10 := by
    exact ⟨_, rfl, by decide +kernel, rfl, by decide +kernel⟩
  obtain ⟨s, hs, hreports, hmetric, hleft⟩ := hrun
  have hper := h s (Transition.reaches_of_run (fun _ _ _ ↦ trivial) hs) true
  rw [hreports, hmetric, hleft] at hper
  have hduration := (Timing.mk.inj (List.cons.inj hper).1).2
  norm_num at hduration

end Timer

end DjangoNova
