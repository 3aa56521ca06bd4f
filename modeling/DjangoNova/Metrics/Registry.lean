import Mathlib.Data.List.Nodup
import Mathlib.Logic.Function.Basic
import DjangoNova.Concurrency.Trace
import DjangoNova.Metrics.Timers

/-!
# The metrics registry

Threads register and remove exporters under a lock, and emit metrics to a
copy of the list that they take without it. An exporter that raises ends
the dispatch. Whatever the other threads do, an event goes to the exporters
that were registered when the copy was taken.
-/

namespace DjangoNova

open Program

inductive MetricEvent where
  | increment (metric : Str) (value : ℤ)
  | timing (timing : Timing)
  deriving DecidableEq

/-- The locked bodies of the registry, the copy of its list and the calls of
the exporters `X`. -/
inductive RegistryEffect (X : Type) where
  | register (exporter : X)
  | unregister (exporter : X)
  | clear
  /-- `tuple(self._exporters)` -/
  | exporters
  | send (exporter : X) (event : MetricEvent)

abbrev RegistryEffect.Reply {X : Type} : RegistryEffect X → Type
  | .exporters => List X
  | _ => Unit

/-- Programs over the registry; exporters raise exceptions of type `Err`. -/
abbrev RegistryProgram (X Err α : Type) : Type :=
  Program (RegistryEffect X) RegistryEffect.Reply Err α

abbrev RegistryEvent (X Err : Type) : Type := Event (RegistryEffect X) RegistryEffect.Reply Err

namespace MetricsRegistry

variable {X Err : Type}

def ask (e : RegistryEffect X) : RegistryProgram X Err e.Reply := call e

/-- The loop of `increment` and of `timing`. -/
def exportAll (event : MetricEvent) : List X → RegistryProgram X Err Unit
  | [] => pure ()
  | x :: rest => do
      ask (.send x event)
      exportAll event rest

/-- `increment` and `timing`. -/
def emit (event : MetricEvent) : RegistryProgram X Err Unit := do
  let exporters ← ask .exporters
  exportAll event exporters

def increment (metric : Str) (value : ℤ) : RegistryProgram X Err Unit :=
  emit (.increment metric value)

def timing (metric : Str) (durationMs : ℚ) : RegistryProgram X Err Unit :=
  emit (.timing ⟨metric, durationMs⟩)

end MetricsRegistry

inductive RegistryCall (X : Type) where
  | registerExporter (exporter : X)
  | unregisterExporter (exporter : X)
  | clear
  | increment (metric : Str) (value : ℤ)
  | timing (metric : Str) (durationMs : ℚ)

namespace RegistryCall

variable {X Err : Type}

def program : RegistryCall X → RegistryProgram X Err Unit
  | .registerExporter x => MetricsRegistry.ask (.register x)
  | .unregisterExporter x => MetricsRegistry.ask (.unregister x)
  | .clear => MetricsRegistry.ask .clear
  | .increment metric value => MetricsRegistry.increment metric value
  | .timing metric durationMs => MetricsRegistry.timing metric durationMs

/-- The event that a call emits. -/
def event : RegistryCall X → Option MetricEvent
  | .increment metric value => some (.increment metric value)
  | .timing metric durationMs => some (.timing ⟨metric, durationMs⟩)
  | _ => none

theorem program_of_event {c : RegistryCall X} {event : MetricEvent} (h : c.event = some event) :
    (c.program : RegistryProgram X Err Unit) = MetricsRegistry.emit event := by
  cases c with
  | increment | timing =>
      obtain rfl := Option.some.inj h
      rfl
  | _ => cases h

end RegistryCall

/-- The list of exporters, with the log of all effects. -/
structure RegistryWorld (T X Err : Type) where
  exporters : List X
  log : List (T × RegistryEvent X Err)

namespace RegistryWorld

variable {T X Err : Type}

def initial : RegistryWorld T X Err := ⟨[], []⟩

variable [DecidableEq X]

/-- One effect; an exporter raises `x` when the choice is `some x`. -/
def act (w : RegistryWorld T X Err) :
    (e : RegistryEffect X) → Option Err → Option (Except Err e.Reply × List X)
  | .register x, none =>
      some (.ok (), if x ∈ w.exporters then w.exporters else w.exporters ++ [x])
  | .unregister x, none =>
      some (.ok (), if x ∈ w.exporters then w.exporters.erase x else w.exporters)
  | .clear, none => some (.ok (), [])
  | .exporters, none => some (.ok w.exporters, w.exporters)
  | .send _ _, none => some (.ok (), w.exporters)
  | .send _ _, some x => some (.error x, w.exporters)
  | _, _ => none

def machine : Machine T (RegistryEffect X) RegistryEffect.Reply Err (RegistryWorld T X Err)
    (Option Err) where
  perform := fun t e c w ↦
    (w.act e c).map fun q ↦ (q.1, ⟨q.2, w.log ++ [(t, ⟨e, q.1⟩)]⟩)
  environment := fun _ _ ↦ none

variable {w w' : RegistryWorld T X Err} {t : T} {x : X}
variable {log : List (T × RegistryEvent X Err)}

section Registered

/-- An effect after which the exporter is not registered. -/
def Removes (x : X) : RegistryEffect X → Prop
  | .unregister y => y = x
  | .clear => True
  | _ => False

omit [DecidableEq X] in
/-- The exporter was registered and has not been removed since. -/
def Registered (log : List (T × RegistryEvent X Err)) (x : X) : Prop :=
  ∃ before t r after, log = before ++ (t, ⟨.register x, r⟩) :: after ∧
    ∀ ev ∈ after, ¬Removes x ev.2.effect

omit [DecidableEq X] in
theorem registered_concat {e : RegistryEffect X} {r : Except Err e.Reply} :
    Registered (log ++ [(t, ⟨e, r⟩)]) x ↔
      e = .register x ∨ (Registered log x ∧ ¬Removes x e) := by
  constructor
  · rintro ⟨before, u, r₁, after, hlog, hafter⟩
    rcases List.eq_nil_or_concat after with rfl | ⟨rest, last, rfl⟩
    · have hlast := (List.append_inj' hlog rfl).2
      injection hlast with hlast
      injection hlast with _ hlast
      injection hlast with heffect
      exact .inl heffect
    · rw [List.concat_eq_append] at hlog hafter
      rw [← List.cons_append, ← List.append_assoc] at hlog
      obtain ⟨rfl, hlast⟩ := List.append_inj' hlog rfl
      obtain rfl := List.singleton_inj.mp hlast
      exact .inr ⟨⟨before, u, r₁, rest, rfl, fun ev hev ↦
        hafter ev (List.mem_append_left _ hev)⟩,
        hafter _ (List.mem_append_right _ (List.mem_singleton_self _))⟩
  · rintro (rfl | ⟨⟨before, u, r₁, after, rfl, hafter⟩, hkept⟩)
    · exact ⟨log, t, r, [], rfl, fun _ hev ↦ absurd hev List.not_mem_nil⟩
    · refine ⟨before, u, r₁, after ++ [(t, ⟨e, r⟩)], by simp, fun ev hev ↦ ?_⟩
      rcases List.mem_append.mp hev with hev | hev
      · exact hafter ev hev
      · rw [List.mem_singleton.mp hev]
        exact hkept

end Registered

/-- The list has the registered exporters, each of them once. -/
structure Listed (w : RegistryWorld T X Err) : Prop where
  nodup : w.exporters.Nodup
  registered (x : X) : x ∈ w.exporters ↔ Registered w.log x

/-- A copy of the list has the exporters that were registered before. -/
def Copied (w : RegistryWorld T X Err) : Prop :=
  ∀ before t r after, w.log = before ++ (t, ⟨.exporters, r⟩) :: after →
    ∃ xs, r = .ok xs ∧ xs.Nodup ∧ ∀ x, x ∈ xs ↔ Registered before x

omit [DecidableEq X] in
theorem listed_initial : Listed (initial : RegistryWorld T X Err) := by
  refine ⟨List.nodup_nil, fun x ↦ ⟨fun hx ↦ absurd hx List.not_mem_nil, ?_⟩⟩
  rintro ⟨before, t, r, after, hlog, -⟩
  exact absurd hlog.symm (List.append_ne_nil_of_right_ne_nil _ (List.cons_ne_nil _ _))

omit [DecidableEq X] in
theorem copied_initial : Copied (initial : RegistryWorld T X Err) :=
  fun _ _ _ _ hlog ↦
    absurd hlog.symm (List.append_ne_nil_of_right_ne_nil _ (List.cons_ne_nil _ _))

theorem Listed.act {e : RegistryEffect X} {c : Option Err} {r : Except Err e.Reply}
    {exporters : List X} (hw : w.Listed) (h : w.act e c = some (r, exporters)) :
    Listed ⟨exporters, w.log ++ [(t, ⟨e, r⟩)]⟩ := by
  have hmem : ∀ x, (Registered (w.log ++ [(t, ⟨e, r⟩)]) x ↔
      e = .register x ∨ (x ∈ w.exporters ∧ ¬Removes x e)) := fun x ↦ by
    rw [registered_concat, hw.registered]
  cases e with
  | register y =>
      cases c <;> cases h
      refine ⟨?_, fun x ↦ ?_⟩
      · by_cases hy : y ∈ w.exporters
        · simpa only [if_pos hy] using hw.nodup
        · simpa only [if_neg hy, List.concat_eq_append] using hw.nodup.concat hy
      · rw [hmem]
        by_cases hy : y ∈ w.exporters
        · simp only [if_pos hy, RegistryEffect.register.injEq, Removes, not_false_eq_true, and_true]
          refine ⟨.inr, ?_⟩
          rintro (rfl | hx)
          · exact hy
          · exact hx
        · simp only [if_neg hy, List.mem_append, List.mem_singleton,
            RegistryEffect.register.injEq, Removes, not_false_eq_true, and_true]
          tauto
  | unregister y =>
      cases c <;> cases h
      refine ⟨?_, fun x ↦ ?_⟩
      · split
        · exact hw.nodup.erase y
        · exact hw.nodup
      · rw [hmem]
        simp only [reduceCtorEq, Removes, false_or]
        split
        · rw [hw.nodup.mem_erase_iff]
          tauto
        · rename_i hy
          exact ⟨fun hx ↦ ⟨hx, fun hyx ↦ hy (hyx ▸ hx)⟩, And.left⟩
  | clear =>
      cases c <;> cases h
      exact ⟨List.nodup_nil, fun x ↦ by rw [hmem]; simp [Removes]⟩
  | exporters =>
      cases c <;> cases h
      exact ⟨hw.nodup, fun x ↦ by rw [hmem]; simp [Removes]⟩
  | send y event =>
      cases c <;> cases h <;> exact ⟨hw.nodup, fun x ↦ by rw [hmem]; simp [Removes]⟩

theorem Copied.act {e : RegistryEffect X} {c : Option Err} {r : Except Err e.Reply}
    {exporters : List X} (hw : w.Copied) (hlisted : w.Listed)
    (h : w.act e c = some (r, exporters)) :
    Copied ⟨exporters, w.log ++ [(t, ⟨e, r⟩)]⟩ := by
  intro before u r₁ after hlog
  rcases List.eq_nil_or_concat after with rfl | ⟨rest, last, rfl⟩
  · obtain ⟨rfl, hlast⟩ := List.append_inj' hlog rfl
    cases List.singleton_inj.mp hlast
    cases c <;> cases h
    exact ⟨_, rfl, hlisted.nodup, hlisted.registered⟩
  · rw [List.concat_eq_append, ← List.cons_append, ← List.append_assoc] at hlog
    exact hw before u r₁ rest (List.append_inj' hlog rfl).1

def events [DecidableEq T] (w : RegistryWorld T X Err) (t : T) : List (RegistryEvent X Err) :=
  w.log.filterMap fun ev ↦ if ev.1 = t then some ev.2 else none

omit [DecidableEq X] in
theorem mem_log_of_events [DecidableEq T] {ev : RegistryEvent X Err} (h : ev ∈ w.events t) :
    (t, ev) ∈ w.log := by
  obtain ⟨⟨u, ev'⟩, hlog, heq⟩ := List.mem_filterMap.mp h
  by_cases hu : u = t
  · subst hu
    rw [if_pos rfl] at heq
    rwa [← Option.some.inj heq]
  · rw [if_neg hu] at heq
    cases heq

end RegistryWorld

namespace MetricsRegistry

variable {X Err : Type} {event : MetricEvent} {tr : List (RegistryEvent X Err)}

/-- The dispatch to `xs` ended with this outcome: all of them have got the
event, or all those before the one that raised. -/
def Sends (event : MetricEvent) (xs : List X) :
    Except Err Unit → List (RegistryEvent X Err) → Prop
  | .ok _, tr => tr = xs.map fun x ↦ ⟨.send x event, .ok ()⟩
  | .error e, tr => ∃ before x after, xs = before ++ x :: after ∧
      tr = before.map (fun y ↦ ⟨.send y event, .ok ()⟩) ++ [⟨.send x event, .error e⟩]

theorem exportAll_sends {xs : List X} {v : Except Err Unit}
    (h : Yields (exportAll event xs) tr v) : Sends event xs v tr := by
  induction xs generalizing tr with
  | nil =>
      obtain ⟨rfl, rfl⟩ := yields_done_iff.mp h
      rfl
  | cons x rest ih =>
      rcases h.bind with ⟨tr₁, tr₂, a, rfl, hcall, hrest⟩ | ⟨e, hcall, rfl⟩
      · obtain rfl := hcall.call
        have hsends := ih hrest
        cases v with
        | ok u => exact congrArg _ hsends
        | error e =>
            obtain ⟨before, y, after, rfl, rfl⟩ := hsends
            exact ⟨x :: before, y, after, rfl, rfl⟩
      · exact ⟨[], x, rest, rfl, hcall.call⟩

/-- What a call that emits an event has done. -/
theorem emit_sends {v : Except Err Unit}
    (h : Yields (emit event : RegistryProgram X Err Unit) tr v) :
    ∃ r sent, tr = ⟨.exporters, r⟩ :: sent ∧ ∀ xs, r = .ok xs → Sends event xs v sent := by
  rcases h.bind with ⟨tr₁, tr₂, xs, rfl, hcall, hrest⟩ | ⟨e, hcall, rfl⟩
  · obtain rfl := hcall.call
    refine ⟨_, tr₂, rfl, fun xs' hxs ↦ ?_⟩
    rw [← Except.ok.inj hxs]
    exact exportAll_sends hrest
  · exact ⟨_, [], hcall.call, fun xs hxs ↦ by cases hxs⟩

end MetricsRegistry

section Runs

open Transition RegistryWorld MetricsRegistry

variable {T X Err : Type} [DecidableEq T] [DecidableEq X] {call : T → RegistryCall X}

abbrev RegistryPool (T X Err : Type) : Type :=
  Pool T (RegistryEffect X) RegistryEffect.Reply Err Unit (RegistryWorld T X Err)

/-- One turn of threads that each make a call of the registry. -/
def registryStep (call : T → RegistryCall X) :
    RegistryPool T X Err → Turn T (Option Err) → Option (RegistryPool T X Err) :=
  Pool.step machine fun t ↦ (call t).program

theorem run_listed {p : RegistryPool T X Err}
    (h : Reaches (registryStep call) Always (Pool.start initial) p) :
    p.world.Listed ∧ p.world.Copied := by
  refine h.invariant (I := fun p ↦ p.world.Listed ∧ p.world.Copied)
    ⟨listed_initial, copied_initial⟩ ?_
  rintro p a p' ⟨hlisted, hcopied⟩ - hs
  rcases Pool.step_cases hs with
    ⟨t, -, rfl⟩ | ⟨t, born, e, k, c, r, w', -, hperform, rfl⟩ | ⟨c, w', hmove, -⟩
  · exact ⟨hlisted, hcopied⟩
  · obtain ⟨⟨r', exporters⟩, hact, heq⟩ := Option.map_eq_some_iff.mp hperform
    obtain ⟨rfl, rfl⟩ := Prod.mk.inj heq
    exact ⟨hlisted.act hact, hcopied.act hlisted hact⟩
  · cases hmove

theorem run_events {p : RegistryPool T X Err}
    (h : Reaches (registryStep call) Always (Pool.start initial) p) {t : T}
    {v : Except Err Unit} (hv : p.outcome t = some v) :
    Yields ((call t).program : RegistryProgram X Err Unit) (p.world.events t) v := by
  refine Pool.yields_of_outcome RegistryWorld.events (fun _ ↦ rfl) ?_ ?_ h hv
  · intro t e c w r w' hperform
    obtain ⟨⟨r', exporters⟩, -, heq⟩ := Option.map_eq_some_iff.mp hperform
    cases heq
    constructor
    · simp [RegistryWorld.events]
    · intro u hu
      simp [RegistryWorld.events, hu.symm]
  · exact fun c w w' hmove ↦ by cases hmove

/-- In every run of any threads, a call that emits an event has taken a copy
of exactly the registered exporters, each of them once, and has sent the
event to all of them once and in their order, up to the first that raised. -/
theorem metrics_dispatch {p : RegistryPool T X Err}
    (h : Reaches (registryStep call) Always (Pool.start initial) p) {t : T} {event : MetricEvent}
    (hevent : (call t).event = some event) {v : Except Err Unit} (hv : p.outcome t = some v) :
    ∃ before xs after sent, p.world.log = before ++ (t, ⟨.exporters, .ok xs⟩) :: after ∧
      xs.Nodup ∧ (∀ x, x ∈ xs ↔ Registered before x) ∧
      p.world.events t = ⟨.exporters, .ok xs⟩ :: sent ∧ Sends event xs v sent := by
  have hyields := run_events h hv
  rw [RegistryCall.program_of_event hevent] at hyields
  obtain ⟨r, sent, htr, hsends⟩ := emit_sends hyields
  obtain ⟨before, after, hlog⟩ := List.append_of_mem (mem_log_of_events (htr ▸ List.mem_cons_self))
  obtain ⟨xs, rfl, hnodup, hxs⟩ := (run_listed h).2 before t r after hlog
  exact ⟨before, xs, after, sent, hlog, hnodup, hxs, htr, hsends xs rfl⟩

/-! An exporter is registered twice, and another one while a call is under way. -/

def hitCall : ℕ → RegistryCall ℕ
  | 0 | 1 => .registerExporter 5
  | 2 => .registerExporter 6
  | _ => .increment ['h', 'i', 't'] 1

/-- The first exporter gets the event once, and the second one does not. -/
theorem metrics_dispatch_sample :
    ∃ p : RegistryPool ℕ ℕ Unit,
      Reaches (registryStep hitCall) Always (Pool.start initial) p ∧ p.outcome 3 = some (.ok ()) ∧
      p.world.exporters = [5, 6] ∧
      ∃ before xs after sent, p.world.log = before ++ (3, ⟨.exporters, .ok xs⟩) :: after ∧
        xs.Nodup ∧ (∀ x, x ∈ xs ↔ Registered before x) ∧
        p.world.events 3 = ⟨.exporters, .ok xs⟩ :: sent ∧
        Sends (.increment ['h', 'i', 't'] 1) xs (.ok ()) sent := by
  have hrun : (run (registryStep hitCall) (Pool.start (initial : RegistryWorld ℕ ℕ Unit))
      [.begin 0, .act 0 none, .begin 1, .act 1 none, .begin 3, .act 3 none, .begin 2, .act 2 none,
        .act 3 none]).map (fun p ↦ (p.outcome 3, p.world.exporters)) =
      some (some (.ok ()), [5, 6]) := by
    decide +kernel
  obtain ⟨p, h, hp⟩ := Option.map_eq_some_iff.mp hrun
  obtain ⟨hv, hexporters⟩ := Prod.mk.inj hp
  have hreach : Reaches (registryStep hitCall) Always (Pool.start initial) p :=
    reaches_of_run (fun _ _ _ ↦ trivial) h
  exact ⟨p, hreach, hv, hexporters, metrics_dispatch hreach rfl hv⟩

end Runs

end DjangoNova
