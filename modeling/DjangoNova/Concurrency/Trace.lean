import DjangoNova.Concurrency.Pool

/-!
# Traces of programs

What a program has performed when it ends. In a pool that logs its effects,
the log of a thread is a trace of its program, whatever the other threads
did in between.
-/

namespace DjangoNova

namespace Program

variable {E E' : Type} {R : E → Type} {R' : E' → Type} {X α β : Type}

/-- A performed effect with its reply. -/
structure Event (E : Type) (R : E → Type) (X : Type) where
  effect : E
  reply : Except X (R effect)

/-- The first program performs the events and becomes the second one. -/
inductive Leads : Program E R X α → List (Event E R X) → Program E R X α → Prop
  | refl (p : Program E R X α) : Leads p [] p
  | step {e : E} {k : Except X (R e) → Program E R X α} {r : Except X (R e)}
      {tr : List (Event E R X)} {q : Program E R X α} (h : Leads (k r) tr q) :
      Leads (.step e k) (⟨e, r⟩ :: tr) q

/-- The program performs the events and ends. -/
abbrev Yields (p : Program E R X α) (tr : List (Event E R X)) (v : Except X α) : Prop :=
  Leads p tr (.done v)

theorem Leads.snoc {p : Program E R X α} {tr : List (Event E R X)} {e : E}
    {k : Except X (R e) → Program E R X α} (h : Leads p tr (.step e k)) (r : Except X (R e)) :
    Leads p (tr ++ [⟨e, r⟩]) (k r) := by
  generalize hq : Program.step e k = q at h
  induction h with
  | refl p =>
      subst hq
      exact .step (.refl _)
  | step _ ih => exact .step (ih hq)

variable {tr : List (Event E R X)}

theorem yields_done_iff {u v : Except X α} :
    Yields (.done u : Program E R X α) tr v ↔ tr = [] ∧ u = v := by
  constructor
  · intro h
    cases h
    exact ⟨rfl, rfl⟩
  · rintro ⟨rfl, rfl⟩
    exact .refl _

theorem yields_step_iff {e : E} {k : Except X (R e) → Program E R X α} {v : Except X α} :
    Yields (.step e k) tr v ↔ ∃ r tr', tr = ⟨e, r⟩ :: tr' ∧ Yields (k r) tr' v := by
  constructor
  · intro h
    cases h with
    | step h => exact ⟨_, _, rfl, h⟩
  · rintro ⟨r, tr', rfl, h⟩
    exact .step h

theorem yields_andThen_iff {p : Program E R X α} {f : Except X α → Program E R X β}
    {v : Except X β} :
    Yields (p.andThen f) tr v ↔
      ∃ tr₁ tr₂ u, tr = tr₁ ++ tr₂ ∧ Yields p tr₁ u ∧ Yields (f u) tr₂ v := by
  induction p generalizing tr with
  | done u =>
      simp only [andThen_done, yields_done_iff]
      constructor
      · intro h
        exact ⟨[], tr, u, rfl, ⟨rfl, rfl⟩, h⟩
      · rintro ⟨tr₁, tr₂, u', rfl, ⟨rfl, rfl⟩, h⟩
        exact h
  | step e k ih =>
      simp only [andThen_step, yields_step_iff, ih]
      constructor
      · rintro ⟨r, tr', rfl, tr₁, tr₂, u, rfl, hk, h⟩
        exact ⟨⟨e, r⟩ :: tr₁, tr₂, u, rfl, ⟨r, tr₁, rfl, hk⟩, h⟩
      · rintro ⟨tr₁, tr₂, u, rfl, ⟨r, tr', rfl, hk⟩, h⟩
        exact ⟨r, tr' ++ tr₂, rfl, tr', tr₂, u, rfl, hk, h⟩

theorem Yields.bind {p : Program E R X α} {f : α → Program E R X β} {v : Except X β}
    (h : Yields (p >>= f) tr v) :
    (∃ tr₁ tr₂ a, tr = tr₁ ++ tr₂ ∧ Yields p tr₁ (.ok a) ∧ Yields (f a) tr₂ v) ∨
      ∃ x, Yields p tr (.error x) ∧ v = .error x := by
  obtain ⟨tr₁, tr₂, u, rfl, hp, hf⟩ := yields_andThen_iff.mp h
  cases u with
  | ok a => exact .inl ⟨tr₁, tr₂, a, rfl, hp, hf⟩
  | error x =>
      obtain ⟨rfl, rfl⟩ := yields_done_iff.mp hf
      rw [List.append_nil]
      exact .inr ⟨x, hp, rfl⟩

theorem Yields.call {e : E} {v : Except X (R e)} (h : Yields (call e) tr v) : tr = [⟨e, v⟩] := by
  obtain ⟨r, tr', rfl, hr⟩ := yields_step_iff.mp h
  obtain ⟨rfl, rfl⟩ := yields_done_iff.mp hr
  rfl

/-- A program that stays within some effects performs no others. -/
theorem Leads.within {allowed : E → Prop} {p q : Program E R X α} (h : Leads p tr q)
    (hp : p.Within allowed fun _ _ ↦ True) : ∀ ev ∈ tr, allowed ev.effect := by
  induction h with
  | refl p => nofun
  | step _ ih =>
      intro ev hev
      rcases List.mem_cons.mp hev with rfl | hev
      · exact hp.1
      · exact ih (hp.2 _ trivial) ev hev

/-- Perform a program for each effect. -/
def interpret (f : (e : E) → Program E' R' X (R e)) : Program E R X α → Program E' R' X α
  | .done v => .done v
  | .step e k => (f e).andThen fun r ↦ (k r).interpret f

section Interpret

variable {f : (e : E) → Program E' R' X (R e)}

theorem interpret_andThen (p : Program E R X α) (g : Except X α → Program E R X β) :
    (p.andThen g).interpret f = (p.interpret f).andThen fun v ↦ (g v).interpret f := by
  induction p with
  | done v => rfl
  | step e k ih =>
      rw [andThen_step, interpret, interpret, andThen_assoc]
      exact congrArg _ (funext ih)

theorem interpret_bind (p : Program E R X α) (g : α → Program E R X β) :
    (p >>= g).interpret f = p.interpret f >>= fun a ↦ (g a).interpret f := by
  refine (interpret_andThen p _).trans (congrArg _ (funext fun v ↦ ?_))
  cases v <;> rfl

end Interpret

end Program

namespace Pool

open Program

variable {T E : Type} {R : E → Type} {X V W Choice : Type} [DecidableEq T]
  {M : Machine T E R X W Choice} {body : T → Program E R X V}
  {ok : Pool T E R X V W → Turn T Choice → Prop} {w₀ : W} {p : Pool T E R X V W}

/-- The log of a thread leads its program to where the thread is. -/
theorem leads (log : W → T → List (Event E R X)) (h₀ : ∀ t, log w₀ t = [])
    (hperform : ∀ t e c w r w', M.perform t e c w = some (r, w') →
      log w' t = log w t ++ [⟨e, r⟩] ∧ ∀ u, u ≠ t → log w' u = log w u)
    (henv : ∀ c w w', M.environment c w = some w' → log w' = log w)
    (h : Transition.Reaches (step M body) ok (start w₀) p) {t : T} {th : Thread E R X V W}
    (hth : p.threads t = some th) : Leads (body t) (log p.world t) th.code := by
  have hlog : (∀ t, p.threads t = none → log p.world t = []) ∧
      ∀ t th, p.threads t = some th → Leads (body t) (log p.world t) th.code := by
    refine h.invariant (I := fun p ↦ (∀ t, p.threads t = none → log p.world t = []) ∧
      ∀ t th, p.threads t = some th → Leads (body t) (log p.world t) th.code)
      ⟨fun t _ ↦ h₀ t, fun t th hth ↦ by simp [start] at hth⟩ ?_
    rintro p a p' ⟨hnone, hsome⟩ - hs
    rcases step_cases hs with
      ⟨u, hu, rfl⟩ | ⟨u, born, e, k, c, r, w', hu, hp, rfl⟩ | ⟨c, w', hw, rfl⟩
    · constructor
      · intro t ht
        by_cases htu : t = u
        · simp [htu] at ht
        · exact hnone t (by simpa [htu] using ht)
      · intro t th ht
        by_cases htu : t = u
        · subst htu
          obtain rfl : ⟨p.world, body t⟩ = th := by simpa using ht
          rw [hnone t hu]
          exact .refl _
        · exact hsome t th (by simpa [htu] using ht)
    · obtain ⟨hself, helse⟩ := hperform _ _ _ _ _ _ hp
      constructor
      · intro t ht
        by_cases htu : t = u
        · simp [htu] at ht
        · rw [helse t htu]
          exact hnone t (by simpa [htu] using ht)
      · intro t th ht
        by_cases htu : t = u
        · subst htu
          obtain rfl : ⟨born, k r⟩ = th := by simpa using ht
          rw [hself]
          exact (hsome t _ hu).snoc r
        · rw [helse t htu]
          exact hsome t th (by simpa [htu] using ht)
    · have hsame := henv c _ _ hw
      constructor
      · intro t ht
        rw [hsame]
        exact hnone t ht
      · intro t th ht
        rw [hsame]
        exact hsome t th ht
  exact hlog.2 t th hth

/-- The log of a thread that has ended is a trace of its program. -/
theorem yields_of_outcome (log : W → T → List (Event E R X)) (h₀ : ∀ t, log w₀ t = [])
    (hperform : ∀ t e c w r w', M.perform t e c w = some (r, w') →
      log w' t = log w t ++ [⟨e, r⟩] ∧ ∀ u, u ≠ t → log w' u = log w u)
    (henv : ∀ c w w', M.environment c w = some w' → log w' = log w)
    (h : Transition.Reaches (step M body) ok (start w₀) p) {t : T} {v : Except X V}
    (hv : p.outcome t = some v) : Yields (body t) (log p.world t) v := by
  obtain ⟨th, hth, hcode⟩ := outcome_some hv
  have hleads := leads log h₀ hperform henv h hth
  rwa [hcode] at hleads

end Pool

end DjangoNova
