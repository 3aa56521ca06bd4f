import Mathlib.Logic.Basic

/-!
# Runs of an executable step function

A system is a partial step function from states and actions to states.
`Reaches step ok s₀ s` says that some run leads from `s₀` to `s` and that
every step of it meets the side condition `ok`; the unrestricted runs are
those with the condition `Always`. Invariants are proved one step at a
time and carried along a run by `Reaches.invariant`.
-/

namespace DjangoNova.Transition

variable {S A : Type*}

/-- The side condition that admits every step. -/
def Always (_ : S) (_ : A) : Prop := True

inductive Reaches (step : S → A → Option S) (ok : S → A → Prop) (s₀ : S) : S → Prop
  | start : Reaches step ok s₀ s₀
  | move {s s' : S} (a : A) (hs : Reaches step ok s₀ s) (hok : ok s a)
      (hstep : step s a = some s') : Reaches step ok s₀ s'

variable {step : S → A → Option S} {ok : S → A → Prop} {s₀ : S}

theorem Reaches.invariant {I : S → Prop} (h₀ : I s₀)
    (hstep : ∀ s a s', I s → ok s a → step s a = some s' → I s')
    {s : S} (h : Reaches step ok s₀ s) : I s := by
  induction h with
  | start => exact h₀
  | move a _ hok hs ih => exact hstep _ a _ ih hok hs

theorem Reaches.weaken {ok' : S → A → Prop} (hok : ∀ s a, ok s a → ok' s a) {s : S}
    (h : Reaches step ok s₀ s) : Reaches step ok' s₀ s := by
  induction h with
  | start => exact .start
  | move a _ ha hs ih => exact .move a ih (hok _ a ha) hs

theorem Reaches.trans {s s' : S} (h : Reaches step ok s₀ s) (h' : Reaches step ok s s') :
    Reaches step ok s₀ s' := by
  induction h' with
  | start => exact h
  | move a _ ha hs ih => exact .move a ih ha hs

/-- Execute a list of actions from left to right. -/
def run (step : S → A → Option S) : S → List A → Option S
  | s, [] => some s
  | s, a :: as => (step s a).bind fun s' ↦ run step s' as

theorem run_append (as bs : List A) (s : S) :
    run step s (as ++ bs) = (run step s as).bind fun s' ↦ run step s' bs := by
  induction as generalizing s with
  | nil => rfl
  | cons a as ih =>
      simp only [List.cons_append, run]
      cases step s a with
      | none => rfl
      | some t => exact ih t

theorem reaches_of_run {as : List A} {s s' : S} (hok : ∀ a ∈ as, ∀ s, ok s a)
    (h : run step s as = some s') : Reaches step ok s s' := by
  induction as generalizing s with
  | nil =>
      obtain rfl : s = s' := Option.some.inj h
      exact .start
  | cons a as ih =>
      obtain ⟨t, ht, hrest⟩ := Option.bind_eq_some_iff.mp h
      have hfirst : Reaches step ok s t := .move a .start (hok a List.mem_cons_self s) ht
      exact hfirst.trans (ih (fun b hb ↦ hok b (List.mem_cons_of_mem a hb)) hrest)

theorem reaches_of_guarded_run [∀ s a, Decidable (ok s a)] {as : List A} {s s' : S}
    (h : run (fun s a ↦ if ok s a then step s a else none) s as = some s') :
    Reaches step ok s s' := by
  induction as generalizing s with
  | nil =>
      obtain rfl : s = s' := Option.some.inj h
      exact .start
  | cons a as ih =>
      obtain ⟨t, ht, hrest⟩ := Option.bind_eq_some_iff.mp h
      dsimp only at ht
      by_cases hok : ok s a
      · rw [if_pos hok] at ht
        have hfirst : Reaches step ok s t := .move a .start hok ht
        exact hfirst.trans (ih hrest)
      · rw [if_neg hok] at ht
        cases ht

end DjangoNova.Transition
