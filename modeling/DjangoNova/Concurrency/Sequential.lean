import DjangoNova.Concurrency.Pool

/-!
# Programs that run alone

A program runs to its end with no other program in between. An `EffectRelation` is what
one effect can do to the world. `Ensures` and `Gives` are the judgements of
a sequential logic: what holds of every outcome, and the same for programs
that raise nothing. A simulation of single effects carries whole runs.
-/

namespace DjangoNova

/-- What one effect can do: its reply and the world that it leaves. -/
abbrev EffectRelation (E : Type) (R : E → Type) (X W : Type) : Type :=
  (e : E) → W → Except X (R e) → W → Prop

/-- The effects of one thread of a machine, under the admitted choices. -/
def Machine.acts {T E : Type} {R : E → Type} {X W Choice : Type}
    (M : Machine T E R X W Choice) (admitted : E → Choice → Bool) (t : T) :
    EffectRelation E R X W :=
  fun e w r w' ↦ ∃ c, admitted e c = true ∧ M.perform t e c w = some (r, w')

namespace Program

variable {T E : Type} {R : E → Type} {X W W' Choice α β : Type}

inductive Runs (A : EffectRelation E R X W) : Program E R X α → W → Except X α → W → Prop
  | done (v : Except X α) (w : W) : Runs A (.done v) w v w
  | step {e : E} {k : Except X (R e) → Program E R X α} {w w₁ w' : W} {r : Except X (R e)}
      {v : Except X α} (hact : A e w r w₁) (hrest : Runs A (k r) w₁ v w') :
      Runs A (.step e k) w v w'

variable {A : EffectRelation E R X W} {p : Program E R X α} {w w' : W}

theorem runs_done_iff {u v : Except X α} : Runs A (.done u) w v w' ↔ u = v ∧ w = w' := by
  constructor
  · intro h
    cases h
    exact ⟨rfl, rfl⟩
  · rintro ⟨rfl, rfl⟩
    exact .done _ _

theorem runs_step_iff {e : E} {k : Except X (R e) → Program E R X α} {v : Except X α} :
    Runs A (.step e k) w v w' ↔ ∃ r w₁, A e w r w₁ ∧ Runs A (k r) w₁ v w' := by
  constructor
  · intro h
    cases h with
    | step hact hrest => exact ⟨_, _, hact, hrest⟩
  · rintro ⟨r, w₁, hact, hrest⟩
    exact .step hact hrest

theorem runs_andThen_iff {f : Except X α → Program E R X β} {v : Except X β} :
    Runs A (p.andThen f) w v w' ↔ ∃ u w₁, Runs A p w u w₁ ∧ Runs A (f u) w₁ v w' := by
  induction p generalizing w with
  | done u =>
      simp only [andThen_done, runs_done_iff]
      constructor
      · intro h
        exact ⟨u, w, ⟨rfl, rfl⟩, h⟩
      · rintro ⟨u', w₁, ⟨rfl, rfl⟩, h⟩
        exact h
  | step e k ih =>
      simp only [andThen_step, runs_step_iff, ih]
      constructor
      · rintro ⟨r, w₁, hact, u, w₂, hk, hf⟩
        exact ⟨u, w₂, ⟨r, w₁, hact, hk⟩, hf⟩
      · rintro ⟨u, w₂, ⟨r, w₁, hact, hk⟩, hf⟩
        exact ⟨r, w₁, hact, u, w₂, hk, hf⟩

/-- A simulation of the single effects simulates the run. -/
theorem Runs.simulate {B : EffectRelation E R X W'} {S : W → W' → Prop}
    (hsim : ∀ e w r w₁ c, S w c → A e w r w₁ → ∃ c₁, B e c r c₁ ∧ S w₁ c₁)
    {v : Except X α} (h : Runs A p w v w') {c : W'} (hS : S w c) :
    ∃ c', Runs B p c v c' ∧ S w' c' := by
  induction h generalizing c with
  | done v w => exact ⟨c, .done v c, hS⟩
  | step hact hrest ih =>
      obtain ⟨c₁, hB, hS₁⟩ := hsim _ _ _ _ _ hS hact
      obtain ⟨c', hrun, hS'⟩ := ih hS₁
      exact ⟨c', .step hB hrun, hS'⟩

/-- Run a program on a list of choices that it uses up. -/
def along (M : Machine T E R X W Choice) (admitted : E → Choice → Bool) (t : T) :
    Program E R X α → List Choice → W → Option (Except X α × W)
  | .done v, [], w => some (v, w)
  | .done _, _ :: _, _ => none
  | .step _ _, [], _ => none
  | .step e k, c :: cs, w =>
      if admitted e c then (M.perform t e c w).bind fun q ↦ along M admitted t (k q.1) cs q.2
      else none

theorem runs_of_along {M : Machine T E R X W Choice} {admitted : E → Choice → Bool} {t : T}
    (cs : List Choice) {v : Except X α} (h : along M admitted t p cs w = some (v, w')) :
    Runs (M.acts admitted t) p w v w' := by
  induction p generalizing cs w with
  | done u =>
      cases cs with
      | nil =>
          obtain ⟨rfl, rfl⟩ := Prod.mk.inj (Option.some.inj h)
          exact .done _ _
      | cons c cs => cases h
  | step e k ih =>
      cases cs with
      | nil => cases h
      | cons c cs =>
          unfold along at h
          split at h
          · rename_i hc
            obtain ⟨⟨r, w₁⟩, hperform, hrest⟩ := Option.bind_eq_some_iff.mp h
            exact .step ⟨c, hc, hperform⟩ (ih r cs hrest)
          · cases h

section Logic

variable (A)

/-- Every outcome satisfies the postcondition. -/
def Ensures (p : Program E R X α) (w : W) (Q : Except X α → W → Prop) : Prop :=
  ∀ v w', Runs A p w v w' → Q v w'

/-- Every outcome is a value that satisfies the postcondition. -/
def Gives (p : Program E R X α) (w : W) (Q : α → W → Prop) : Prop :=
  Ensures A p w fun v w' ↦ ∃ a, v = .ok a ∧ Q a w'

variable {A} {Q Q' : α → W → Prop} {Q₁ : β → W → Prop}

theorem ensures_andThen {f : Except X α → Program E R X β} {Qv : Except X β → W → Prop} :
    Ensures A (p.andThen f) w Qv ↔ Ensures A p w fun u w₁ ↦ Ensures A (f u) w₁ Qv := by
  constructor
  · intro h u w₁ hp v w' hf
    exact h v w' (runs_andThen_iff.mpr ⟨u, w₁, hp, hf⟩)
  · intro h v w' hrun
    obtain ⟨u, w₁, hp, hf⟩ := runs_andThen_iff.mp hrun
    exact h u w₁ hp v w' hf

theorem Gives.mono (h : Gives A p w Q) (hQ : ∀ a w', Q a w' → Q' a w') : Gives A p w Q' := by
  intro v w' hrun
  obtain ⟨a, rfl, ha⟩ := h v w' hrun
  exact ⟨a, rfl, hQ a w' ha⟩

theorem gives_done {a : α} (h : Q a w) : Gives A (.done (.ok a)) w Q := by
  intro v w' hrun
  obtain ⟨rfl, rfl⟩ := runs_done_iff.mp hrun
  exact ⟨a, rfl, h⟩

theorem gives_pure {a : α} (h : Q a w) : Gives A (pure a) w Q := gives_done h

theorem Gives.andThen {f : Except X α → Program E R X β} (h : Gives A p w Q)
    (hf : ∀ a w₁, Q a w₁ → Gives A (f (.ok a)) w₁ Q₁) : Gives A (p.andThen f) w Q₁ := by
  refine ensures_andThen.mpr fun u w₁ hp ↦ ?_
  obtain ⟨a, rfl, ha⟩ := h u w₁ hp
  exact hf a w₁ ha

theorem Gives.bind {f : α → Program E R X β} (h : Gives A p w Q)
    (hf : ∀ a w₁, Q a w₁ → Gives A (f a) w₁ Q₁) : Gives A (p >>= f) w Q₁ := h.andThen hf

theorem Gives.tryCatch {handler : X → Program E R X α} (h : Gives A p w Q) :
    Gives A (p.tryCatch handler) w Q := h.andThen fun _ _ ha ↦ gives_pure ha

theorem Gives.tryFinally {q : Program E R X Unit} (h : Gives A p w Q)
    (hq : ∀ a w₁, Q a w₁ → Gives A q w₁ fun _ w₂ ↦ Q' a w₂) :
    Gives A (p.tryFinally q) w Q' :=
  h.andThen fun a w₁ ha ↦ (hq a w₁ ha).bind fun _ _ ha ↦ gives_done ha

theorem gives_call {e : E} {Qe : R e → W → Prop}
    (h : ∀ r w₁, A e w r w₁ → ∃ a, r = .ok a ∧ Qe a w₁) : Gives A (call e) w Qe := by
  intro v w' hrun
  obtain ⟨r, w₁, hact, hdone⟩ := runs_step_iff.mp hrun
  obtain ⟨rfl, rfl⟩ := runs_done_iff.mp hdone
  exact h r w₁ hact

end Logic

end Program

end DjangoNova
