import Mathlib.Logic.Basic

/-!
# Programs of atomic effects

A program issues effects one at a time and continues with the reply of
each, which may be an exception; it ends with a value or an exception.
Everything else that a method does (sequencing, `try`, `finally`) is
built from `andThen`, which hands the outcome of one program to another.
The environment that answers the effects is fixed where programs are run.
-/

namespace DjangoNova

inductive Program (E : Type) (R : E → Type) (X α : Type) where
  | done : Except X α → Program E R X α
  | step : (e : E) → (Except X (R e) → Program E R X α) → Program E R X α

namespace Program

variable {E : Type} {R : E → Type} {X α β γ : Type}

/-- Run `p` and continue with its outcome, returned value or exception. -/
def andThen : Program E R X α → (Except X α → Program E R X β) → Program E R X β
  | .done v, f => f v
  | .step e k, f => .step e fun r ↦ (k r).andThen f

def throw (x : X) : Program E R X α := .done (.error x)

def bind (p : Program E R X α) (f : α → Program E R X β) : Program E R X β :=
  p.andThen fun
    | .ok a => f a
    | .error x => throw x

instance : Monad (Program E R X) where
  pure a := .done (.ok a)
  bind := bind

/-- Issue one effect; an exception in its reply is raised. -/
def call (e : E) : Program E R X (R e) := .step e .done

/-- `try: p except x: handler x`. -/
def tryCatch (p : Program E R X α) (handler : X → Program E R X α) : Program E R X α :=
  p.andThen fun
    | .ok a => pure a
    | .error x => handler x

/-- `try: p finally: q`; an exception of `q` replaces the outcome of `p`. -/
def tryFinally (p : Program E R X α) (q : Program E R X Unit) : Program E R X α :=
  p.andThen fun v ↦ q.bind fun _ ↦ .done v

@[simp] theorem andThen_done (v : Except X α) (f : Except X α → Program E R X β) :
    (Program.done v : Program E R X α).andThen f = f v := rfl

@[simp] theorem andThen_step (e : E) (k : Except X (R e) → Program E R X α)
    (f : Except X α → Program E R X β) :
    (Program.step e k).andThen f = .step e fun r ↦ (k r).andThen f := rfl

@[simp] theorem andThen_done_right (p : Program E R X α) : p.andThen .done = p := by
  induction p with
  | done v => rfl
  | step e k ih => simp only [andThen_step, ih]

theorem andThen_assoc (p : Program E R X α) (f : Except X α → Program E R X β)
    (g : Except X β → Program E R X γ) :
    (p.andThen f).andThen g = p.andThen fun v ↦ (f v).andThen g := by
  induction p with
  | done v => rfl
  | step e k ih => simp only [andThen_step, ih]

/-- Every path that returns a value performs `e`. -/
def Performs (e : E) : Program E R X α → Prop
  | .done (.ok _) => False
  | .done (.error _) => True
  | .step e' k => e' = e ∨ ∀ r, (k r).Performs e

variable {e : E}

theorem performs_call : (call e : Program E R X (R e)).Performs e := .inl rfl

theorem Performs.andThen {p : Program E R X α} (hp : p.Performs e)
    {f : Except X α → Program E R X β} (hf : ∀ x, (f (.error x)).Performs e) :
    (p.andThen f).Performs e := by
  induction p with
  | done v =>
      cases v with
      | ok a => exact hp.elim
      | error x => exact hf x
  | step e' k ih => exact hp.imp_right fun h r ↦ ih r (h r)

theorem Performs.bind {p : Program E R X α} (hp : p.Performs e) {f : α → Program E R X β} :
    (p >>= f).Performs e := hp.andThen fun _ ↦ trivial

/-- It is enough that all continuations perform `e`. -/
theorem performs_andThen {f : Except X α → Program E R X β} (hf : ∀ v, (f v).Performs e)
    (p : Program E R X α) : (p.andThen f).Performs e := by
  induction p with
  | done v => exact hf v
  | step e' k ih => exact .inr fun r ↦ ih r

theorem performs_bind {f : α → Program E R X β} (hf : ∀ a, (f a).Performs e)
    (p : Program E R X α) : (p >>= f).Performs e := by
  refine performs_andThen (fun v ↦ ?_) p
  cases v with
  | ok a => exact hf a
  | error x => trivial

/-- Some replies lead to this outcome. -/
def CanEnd (v : Except X α) : Program E R X α → Prop
  | .done v' => v' = v
  | .step _ k => ∃ r, (k r).CanEnd v

theorem canEnd_andThen {p : Program E R X α} {f : Except X α → Program E R X β} {v : Except X β} :
    (p.andThen f).CanEnd v ↔ ∃ u, p.CanEnd u ∧ (f u).CanEnd v := by
  induction p with
  | done u => simp [andThen, CanEnd]
  | step e k ih =>
      simp only [andThen, CanEnd, ih]
      constructor
      · rintro ⟨r, u, hu, hv⟩
        exact ⟨u, ⟨r, hu⟩, hv⟩
      · rintro ⟨u, ⟨r, hu⟩, hv⟩
        exact ⟨r, u, hu, hv⟩

theorem canEnd_bind {p : Program E R X α} {f : α → Program E R X β} {b : β}
    (h : (p >>= f).CanEnd (.ok b)) : ∃ a, p.CanEnd (.ok a) ∧ (f a).CanEnd (.ok b) := by
  obtain ⟨u, hu, hv⟩ := canEnd_andThen.mp h
  cases u with
  | ok a => exact ⟨a, hu, hv⟩
  | error x => cases hv

section Within

variable {allowed : E → Prop} {replies : (e : E) → Except X (R e) → Prop}

/-- All effects are allowed, as long as the replies are expected ones. -/
def Within (allowed : E → Prop) (replies : (e : E) → Except X (R e) → Prop) :
    Program E R X α → Prop
  | .done _ => True
  | .step e k => allowed e ∧ ∀ r, replies e r → (k r).Within allowed replies

theorem Within.mono {allowed' : E → Prop} (h : ∀ e, allowed e → allowed' e)
    {p : Program E R X α} (hp : p.Within allowed replies) : p.Within allowed' replies := by
  induction p with
  | done v => trivial
  | step e k ih => exact ⟨h e hp.1, fun r hr ↦ ih r (hp.2 r hr)⟩

theorem Within.andThen {p : Program E R X α} {f : Except X α → Program E R X β}
    (hp : p.Within allowed replies) (hf : ∀ v, (f v).Within allowed replies) :
    (p.andThen f).Within allowed replies := by
  induction p with
  | done v => exact hf v
  | step e k ih => exact ⟨hp.1, fun r hr ↦ ih r (hp.2 r hr)⟩

theorem Within.bind {p : Program E R X α} {f : α → Program E R X β}
    (hp : p.Within allowed replies) (hf : ∀ a, (f a).Within allowed replies) :
    (p >>= f).Within allowed replies := by
  refine hp.andThen fun v ↦ ?_
  cases v with
  | ok a => exact hf a
  | error x => trivial

theorem within_call {e : E} (he : allowed e) :
    (call e : Program E R X (R e)).Within allowed replies := ⟨he, fun _ _ ↦ trivial⟩

/-- The continuation of a call may use what is known of its reply. -/
theorem within_call_bind {e : E} (he : allowed e) {f : R e → Program E R X α}
    (hf : ∀ a, replies e (.ok a) → (f a).Within allowed replies) :
    ((call e : Program E R X (R e)) >>= f).Within allowed replies := by
  refine ⟨he, fun r hr ↦ ?_⟩
  cases r with
  | ok a => exact hf a hr
  | error x => trivial

end Within

end Program

end DjangoNova
