import Mathlib.Data.List.Basic
import Mathlib.Logic.Function.Basic
import Mathlib.Tactic.Common

/-!
# Runs of one component

The events of all components come in one order. A component has a state of
its own, and its run goes through the events that belong to it.
-/

namespace DjangoNova

variable {K S A B : Type}

/-- The state after some events, with the records of the events. -/
def runOne (step : S → A → S × List B) (s : S) : List A → S × List B
  | [] => (s, [])
  | a :: rest =>
      let (s, records) := step s a
      let (s, later) := runOne step s rest
      (s, records ++ later)

theorem runOne_append (step : S → A → S × List B) (s : S) (xs ys : List A) :
    runOne step s (xs ++ ys) = ((runOne step (runOne step s xs).1 ys).1,
      (runOne step s xs).2 ++ (runOne step (runOne step s xs).1 ys).2) := by
  induction xs generalizing s with
  | nil => rfl
  | cons a rest ih => simp only [List.cons_append, runOne, ih, List.append_assoc]

variable [DecidableEq K]

/-- What belongs to one of the components. -/
def project {A : Type} (k : K) (xs : List (K × A)) : List A :=
  xs.filterMap fun p ↦ if p.1 = k then some p.2 else none

theorem project_append {A : Type} (k : K) (xs ys : List (K × A)) :
    project k (xs ++ ys) = project k xs ++ project k ys := List.filterMap_append

theorem project_tagged {A : Type} (k k' : K) (xs : List A) :
    project k (xs.map (Prod.mk k')) = if k' = k then xs else [] := by
  rw [project, List.filterMap_map]
  split
  · rename_i hk
    simp [hk]
  · rename_i hk
    simp [hk]

end DjangoNova
