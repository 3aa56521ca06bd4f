import Mathlib.Logic.Basic

/-!
# Inversion of fallible computations

A sequence of `Except` computations that succeeds has succeeded in each of
its parts.
-/

namespace DjangoNova

variable {ε α β : Type}

theorem bind_eq_ok {x : Except ε α} {f : α → Except ε β} {b : β} :
    (x >>= f) = .ok b ↔ ∃ a, x = .ok a ∧ f a = .ok b := by
  cases x with
  | error e => simp [bind, Except.bind]
  | ok a => simp [bind, Except.bind]

section MapError

variable {ε' : Type} {f : ε → ε'}

theorem mapError_ok (a : α) : (Except.ok a).mapError f = .ok a := rfl

theorem mapError_error (e : ε) : (Except.error e : Except ε α).mapError f = .error (f e) := rfl

theorem mapError_eq_ok {x : Except ε α} {a : α} : x.mapError f = .ok a ↔ x = .ok a := by
  cases x with
  | error e => simp [mapError_error]
  | ok b => simp [mapError_ok]

end MapError

theorem exists_error_iff {x : Except ε α} : (∃ e, x = .error e) ↔ ¬∃ a, x = .ok a := by
  cases x <;> simp

theorem ite_error_eq_ok {c : Prop} [Decidable c] {e : ε} {x : Except ε α} {a : α} :
    (if c then .error e else x) = .ok a ↔ ¬c ∧ x = .ok a := by
  split <;> simp_all

end DjangoNova
