import Mathlib.Logic.Relation
import DjangoNova.Concurrency.Pool

/-!
# Machines that implement other machines

A machine implements another one along a relation of their worlds if each
of its effects has the reply of an allowed effect of the other machine, up
to moves of the environment that follow. Every run of a pool is then
mirrored by a run over the other machine, in which all threads are at the
same code.
-/

namespace DjangoNova

variable {T E : Type} {R : E → Type} {X V W W' Choice Choice' : Type}

namespace Machine

/-- Some moves of the environment, one after the other. -/
abbrev Drifts (M : Machine T E R X W Choice) : W → W → Prop :=
  Relation.ReflTransGen fun w w' ↦ ∃ c, M.environment c w = some w'

structure Implements (M : Machine T E R X W Choice) (N : Machine T E R X W' Choice')
    (allowed : T → E → Choice' → W' → Prop) (rel : W → W' → Prop) : Prop where
  perform {t : T} {e : E} {c : Choice} {w w₁ : W} {v : W'} {r : Except X (R e)} :
    rel w v → M.perform t e c w = some (r, w₁) →
      ∃ c' v₁ v₂, allowed t e c' v ∧ N.perform t e c' v = some (r, v₁) ∧ N.Drifts v₁ v₂ ∧
        rel w₁ v₂
  environment {c : Choice} {w w₁ : W} {v : W'} :
    rel w v → M.environment c w = some w₁ → ∃ v₁, N.Drifts v v₁ ∧ rel w₁ v₁

end Machine

namespace Pool

/-- Related worlds, with all threads at the same code. -/
structure Mirrors (rel : W → W' → Prop) (p : Pool T E R X V W) (p' : Pool T E R X V W') :
    Prop where
  world : rel p.world p'.world
  codes (t : T) : (p.threads t).map Thread.code = (p'.threads t).map Thread.code

variable {rel : W → W' → Prop} {p p₁ : Pool T E R X V W} {p' : Pool T E R X V W'} {t : T}

theorem mirrors_start {w : W} {w' : W'} (h : rel w w') :
    Mirrors rel (start w : Pool T E R X V W) (start w') := ⟨h, fun _ ↦ rfl⟩

namespace Mirrors

theorem thread (h : Mirrors rel p p') {th : Thread E R X V W} (ht : p.threads t = some th) :
    ∃ born, p'.threads t = some ⟨born, th.code⟩ := by
  have hcode := h.codes t
  rw [ht, Option.map_some] at hcode
  obtain ⟨⟨born, code⟩, ht', rfl⟩ := Option.map_eq_some_iff.mp hcode.symm
  exact ⟨born, ht'⟩

theorem threads_none (h : Mirrors rel p p') : p.threads t = none ↔ p'.threads t = none := by
  rw [← Option.map_eq_none_iff (f := Thread.code), h.codes t, Option.map_eq_none_iff]

theorem outcome (h : Mirrors rel p p') {v : Except X V} (hv : p.outcome t = some v) :
    p'.outcome t = some v := by
  obtain ⟨th, hth, hcode⟩ := outcome_some hv
  obtain ⟨born, ht'⟩ := h.thread hth
  rw [hcode] at ht'
  simp [Pool.outcome, ht']

variable [DecidableEq T]

/-- A thread continues with the same code on both sides. -/
theorem update (h : Mirrors rel p p') {w : W} {w' : W'} (hw : rel w w')
    {th : Thread E R X V W} {th' : Thread E R X V W'} (hcode : th.code = th'.code) :
    Mirrors rel ⟨w, Function.update p.threads t (some th)⟩
      ⟨w', Function.update p'.threads t (some th')⟩ := by
  refine ⟨hw, fun u ↦ ?_⟩
  by_cases hut : u = t
  · subst hut
    simp [hcode]
  · simpa [hut] using h.codes u

end Mirrors

variable [DecidableEq T]
variable {M : Machine T E R X W Choice} {N : Machine T E R X W' Choice'}
variable {allowed : T → E → Choice' → W' → Prop} {body : T → Program E R X V}

/-- Moves of the environment are turns of any pool. -/
theorem reaches_of_drifts {v : W'} (h : N.Drifts p'.world v) :
    Transition.Reaches (step N body) (Admits allowed) p' { p' with world := v } := by
  induction h with
  | refl => exact .start
  | tail _ hmove ih =>
      obtain ⟨c, hc⟩ := hmove
      exact .move (.environment c) ih trivial (by simp [step, hc])

theorem mirrors_step (hM : M.Implements N allowed rel) (h : Mirrors rel p p') {a : Turn T Choice}
    (hstep : step M body p a = some p₁) :
    ∃ p₁', Transition.Reaches (step N body) (Admits allowed) p' p₁' ∧ Mirrors rel p₁ p₁' := by
  rcases step_cases hstep with
    ⟨t, ht, rfl⟩ | ⟨t, born, e, k, c, r, w, ht, hperform, rfl⟩ | ⟨c, w, hmove, rfl⟩
  · have ht' := h.threads_none.mp ht
    have hbegin : step N body p' (.begin t) =
        some ⟨p'.world, Function.update p'.threads t (some ⟨p'.world, body t⟩)⟩ := by
      simp only [step, ht']
    exact ⟨_, .move (.begin t) .start trivial hbegin, h.update h.world rfl⟩
  · obtain ⟨born', ht'⟩ := h.thread ht
    obtain ⟨c', v₁, v₂, hallowed, hc', hdrift, hrel⟩ := hM.perform h.world hperform
    have hok : Admits allowed p' (.act t c') := by
      intro born₀ e₀ k₀ h₀
      rw [ht'] at h₀
      cases h₀
      exact hallowed
    have hact : step N body p' (.act t c') =
        some ⟨v₁, Function.update p'.threads t (some ⟨born', k r⟩)⟩ := by
      simp only [step, ht', hc', Option.map_some]
    refine ⟨⟨v₂, _⟩, (Transition.Reaches.move _ .start hok hact).trans
      (reaches_of_drifts hdrift), ?_⟩
    exact h.update hrel rfl
  · obtain ⟨v, hdrift, hrel⟩ := hM.environment h.world hmove
    exact ⟨_, reaches_of_drifts hdrift, hrel, h.codes⟩

/-- Every run over the implementation is mirrored by an allowed run. -/
theorem mirrors_run (hM : M.Implements N allowed rel) (h : Mirrors rel p p')
    {ok : Pool T E R X V W → Turn T Choice → Prop}
    (hrun : Transition.Reaches (step M body) ok p p₁) :
    ∃ p₁', Transition.Reaches (step N body) (Admits allowed) p' p₁' ∧ Mirrors rel p₁ p₁' := by
  induction hrun with
  | start => exact ⟨p', .start, h⟩
  | move a _ _ hstep ih =>
      obtain ⟨q, hq, hmirrors⟩ := ih
      obtain ⟨q₁, hq₁, hmirrors₁⟩ := mirrors_step hM hmirrors hstep
      exact ⟨q₁, hq.trans hq₁, hmirrors₁⟩

end Pool

end DjangoNova
