import DjangoNova.Concurrency.Erasure

/-!
# Tracing spans

`nova_span` around a block, for programs over any effects that include the
calls of a tracing provider. A call of the provider may raise; its reply
tells whether it returned a usable value.
-/

namespace DjangoNova

/-- The calls that reach the tracing provider. -/
inductive SpanCall where
  | getTracer
  | start
  | enter
  | setAttribute
  | setStatus
  | recordException
  | exit
  deriving DecidableEq

namespace Tracing

variable {E : Type} {R : E → Type} {X α : Type}

/-- `if c: p` -/
def onlyIf (c : Prop) [Decidable c] (p : Program E R X Unit) : Program E R X Unit :=
  if c then p else pure ()

/-- `with suppress(Exception): p` -/
def suppress (p : Program E R X Bool) : Program E R X Unit :=
  p.andThen fun _ ↦ pure ()

variable (call : SpanCall → Program E R X Bool) (isException : X → Bool)

/-- `if span: span.set_attribute(...)` -/
def setAttribute (span : Bool) : Program E R X Unit :=
  onlyIf span ((call .setAttribute).bind fun _ ↦ pure ())

/-- `get_tracer`: whether a tracer is available. -/
def getTracer : Program E R X Bool := (call .getTracer).tryCatch fun _ ↦ pure false

/-- Set up the span context: `none` when there is none, else whether it
yielded a span. -/
def enterSpan : Program E R X (Option Bool) :=
  Program.tryCatch
    (do
      if ← getTracer call then
        let _ ← call .start
        let span ← call .enter
        return some span
      else
        return none)
    fun _ ↦ pure none

/-- The end of the block; only an `Exception` is recorded on the span. -/
def leaveSpan (span : Bool) : Except X α → Program E R X α
  | .error x => do
      onlyIf (isException x && span) do
        suppress (call .recordException)
        suppress (call .setStatus)
      suppress (call .exit)
      Program.throw x
  | .ok a => do
      onlyIf span (suppress (call .setStatus))
      suppress (call .exit)
      return a

/-- `with nova_span(...) as span: body` -/
def novaSpan (body : Bool → Program E R X α) : Program E R X α := do
  match ← enterSpan call with
  | none => body false
  | some span => (body span).andThen (leaveSpan call isException span)

section Erasure

open Program

variable {call isException}
variable {silent : E → Prop} {calm : (e : E) → Except X (R e) → Prop}

/-- A provider whose calls are silent and of which `set_attribute` does not raise. -/
structure Silent (silent : E → Prop) (calm : (e : E) → Except X (R e) → Prop)
    (call : SpanCall → Program E R X Bool) : Prop where
  any : ∀ c, (call c).Ends silent calm fun _ ↦ True
  setAttribute : (call .setAttribute).Ends silent calm fun v ↦ ∃ b, v = .ok b

theorem setAttribute_ends (hcall : Silent silent calm call) (span : Bool) :
    (setAttribute call span).Ends silent calm (· = .ok ()) := by
  cases span with
  | false => exact rfl
  | true =>
      apply hcall.setAttribute.andThen
      rintro v ⟨b, rfl⟩
      exact rfl

variable (hcall : ∀ c, (call c).Ends silent calm fun _ ↦ True)
include hcall

theorem suppress_ends (c : SpanCall) :
    (suppress (call c)).Ends silent calm (· = .ok ()) :=
  (hcall c).andThen fun _ _ ↦ rfl

theorem enterSpan_ends : (enterSpan call).Ends silent calm fun v ↦ ∃ o, v = .ok o := by
  have htracer : (getTracer call).Ends silent calm fun _ ↦ True := by
    apply (hcall .getTracer).andThen
    intro v _
    cases v <;> trivial
  have hsetup : Ends silent calm (fun _ ↦ True) (do
      if ← getTracer call then
        let _ ← call .start
        let span ← call .enter
        return some span
      else
        return none : Program E R X (Option Bool)) := by
    apply htracer.andThen
    intro v _
    rcases v with x | _ | _
    · trivial
    · trivial
    · apply (hcall .start).andThen
      intro v _
      cases v with
      | error x => trivial
      | ok b =>
          apply (hcall .enter).andThen
          intro v _
          cases v <;> trivial
  apply hsetup.andThen
  intro v _
  cases v with
  | error x => exact ⟨none, rfl⟩
  | ok o => exact ⟨o, rfl⟩

/-- Leaving the span keeps the outcome of the block. -/
theorem leaveSpan_ends (span : Bool) (v : Except X α) :
    (leaveSpan call isException span v).Ends silent calm (· = v) := by
  cases v with
  | ok a =>
      have hstatus : (onlyIf span (suppress (call .setStatus))).Ends silent calm (· = .ok ()) := by
        cases span with
        | false => exact rfl
        | true => exact suppress_ends hcall .setStatus
      apply hstatus.andThen
      rintro v rfl
      apply (suppress_ends hcall .exit).andThen
      rintro v rfl
      exact rfl
  | error x =>
      have hrecord : (onlyIf (isException x && span) (do
          suppress (call .recordException)
          suppress (call .setStatus))).Ends silent calm (· = .ok ()) := by
        unfold onlyIf
        split
        · apply (suppress_ends hcall .recordException).andThen
          rintro v rfl
          exact suppress_ends hcall .setStatus
        · exact rfl
      apply hrecord.andThen
      rintro v rfl
      apply (suppress_ends hcall .exit).andThen
      rintro v rfl
      exact rfl

/-- Nothing but the block is left of a span. -/
theorem novaSpan_erases {body : Bool → Program E R X α} {q : Program E R X α}
    (hbody : ∀ span, Erases silent calm (body span) q) :
    Erases silent calm (novaSpan call isException body) q := by
  apply (enterSpan_ends hcall).erases
  rintro v ⟨o, rfl⟩
  cases o with
  | none => exact hbody false
  | some span =>
      have hspan : Erases silent calm ((body span).andThen (leaveSpan call isException span))
          (q.andThen .done) :=
        (hbody span).andThen fun v ↦ (leaveSpan_ends hcall span v).erases_done
      rwa [andThen_done_right] at hspan

end Erasure

section Within

open Program

variable {call isException} {allowed : E → Prop} {replies : (e : E) → Except X (R e) → Prop}
  (hcall : ∀ c, (call c).Within allowed replies)
include hcall

theorem setAttribute_within (span : Bool) :
    (setAttribute call span).Within allowed replies := by
  cases span with
  | false => trivial
  | true => exact (hcall .setAttribute).bind fun _ ↦ trivial

theorem suppress_within (c : SpanCall) : (suppress (call c)).Within allowed replies :=
  (hcall c).andThen fun _ ↦ trivial

theorem enterSpan_within : (enterSpan call).Within allowed replies := by
  have htracer : (getTracer call).Within allowed replies := by
    apply (hcall .getTracer).andThen
    intro v
    cases v <;> trivial
  have hsetup : Within allowed replies (do
      if ← getTracer call then
        let _ ← call .start
        let span ← call .enter
        return some span
      else
        return none : Program E R X (Option Bool)) := by
    apply htracer.bind
    intro available
    cases available with
    | false => trivial
    | true =>
        apply (hcall .start).bind
        intro _
        exact (hcall .enter).bind fun _ ↦ trivial
  apply hsetup.andThen
  intro v
  cases v <;> trivial

theorem leaveSpan_within (span : Bool) (v : Except X α) :
    (leaveSpan call isException span v).Within allowed replies := by
  cases v with
  | ok a =>
      have hstatus : (onlyIf span (suppress (call .setStatus))).Within allowed replies := by
        cases span with
        | false => trivial
        | true => exact suppress_within hcall .setStatus
      apply hstatus.bind
      intro _
      exact (suppress_within hcall .exit).bind fun _ ↦ trivial
  | error x =>
      have hrecord : (onlyIf (isException x && span) (do
          suppress (call .recordException)
          suppress (call .setStatus))).Within allowed replies := by
        unfold onlyIf
        split
        · exact (suppress_within hcall .recordException).bind fun _ ↦
            suppress_within hcall .setStatus
        · trivial
      apply hrecord.bind
      intro _
      exact (suppress_within hcall .exit).bind fun _ ↦ trivial

/-- A span adds nothing but calls of the provider to its block. -/
theorem novaSpan_within {body : Bool → Program E R X α}
    (hbody : ∀ span, (body span).Within allowed replies) :
    (novaSpan call isException body).Within allowed replies := by
  apply (enterSpan_within hcall).bind
  intro o
  cases o with
  | none => exact hbody false
  | some span => exact (hbody span).andThen (leaveSpan_within hcall span)

end Within

end Tracing

end DjangoNova
