import DjangoNova.Concurrency.Pool

/-!
# Protocols that all programs keep

Some facts about the world are threatened by no effect at all: logs grow,
times pass, entries carry their dates. In a protocol for such facts all
effects keep the invariant and all threads tolerate them, so that stable
assertions survive every program.
-/

namespace DjangoNova.Protocol

open Program

variable {T E : Type} {R : E → Type} {X W Choice α β : Type}
variable {P : Protocol T E R X W Choice} {t : T} {pre : W → Prop}

/-- Every effect keeps the invariant, and every thread tolerates it, the
one that performs it included. -/
def Keeping (P : Protocol T E R X W Choice) : Prop :=
  ∀ ⦃t e c w r w'⦄, P.inv w → P.machine.perform t e c w = some (r, w') →
    P.inv w' ∧ ∀ u, P.rely u w w'

/-- An answer that is stable for each value is stable for each outcome. -/
theorem stable_ends {Q : α → W → Prop} (hQ : ∀ a, P.Stable t (Q a)) (v : Except X α) :
    P.Stable t (Ends Q (fun _ _ ↦ True) v) := by
  cases v with
  | ok a => exact hQ a
  | error x => exact fun _ _ _ _ _ _ ↦ trivial

namespace Keeping

variable (hP : P.Keeping)

include hP

theorem call {e : E} {post : Except X (R e) → W → Prop} (hpre : P.Stable t pre)
    (h : ∀ w c r w', P.inv w → pre w → P.machine.perform t e c w = some (r, w') → pre w' →
      post r w') : P.Triple t pre (Program.call e) post := by
  refine Triple.call hpre fun w c r w' hw hw' _ hperform ↦ ?_
  obtain ⟨hinv, hrely⟩ := hP hw hperform
  exact ⟨hinv, fun u _ ↦ hrely u, h w c r w' hw hw' hperform (hpre w w' hw hinv (hrely t) hw')⟩

/-- A stable assertion survives any program. -/
theorem program (hpre : P.Stable t pre) (p : Program E R X α) :
    P.Triple t pre p fun _ ↦ pre := by
  intro w hw h
  induction p generalizing w with
  | done v => exact h
  | step e k ih =>
      intro w₁ hw₁ hr c r w₂ _ hperform
      obtain ⟨hw₂, hrely⟩ := hP hw₁ hperform
      exact ⟨hw₂, fun u _ ↦ hrely u,
        ih r w₂ hw₂ (hpre w w₂ hw hw₂ (P.rely_trans t _ _ _ hr (hrely t)) h)⟩

/-- A stable answer survives the program that comes before its return. -/
theorem returned {Q : α → W → Prop} {a : α} (hQ : P.Stable t (Q a)) (p : Program E R X β) :
    P.Triple t (Q a) (p >>= fun _ ↦ pure a) (Ends Q fun _ _ ↦ True) :=
  (hP.program hQ p).bind (fun _ ↦ Triple.pure a fun _ _ h ↦ h) fun _ _ _ _ ↦ trivial

theorem before {Q : β → W → Prop} (hpre : P.Stable t pre) (p : Program E R X α)
    {f : α → Program E R X β} (hf : ∀ a, P.Triple t pre (f a) (Ends Q fun _ _ ↦ True)) :
    P.Triple t pre (p >>= f) (Ends Q fun _ _ ↦ True) :=
  (hP.program hpre p).bind hf fun _ _ _ _ ↦ trivial

end Keeping

/-- Where every effect is allowed, the outcomes of all runs are those that
the bodies of the threads promise. -/
theorem outcome_of_run {V : Type} [DecidableEq T] {body : T → Program E R X V}
    {post : T → W → Except X V → W → Prop} {w₀ : W} (hall : ∀ t e c w, P.allowed t e c w)
    (hw₀ : P.inv w₀) (hpost : ∀ t born v, P.Stable t (post t born v))
    (hbody : ∀ t w, P.inv w → P.Safe t (post t w) (body t) w) {p : Pool T E R X V W}
    (h : Transition.Reaches (Pool.step P.machine body) Transition.Always (Pool.start w₀) p)
    {v : Except X V} (hv : p.outcome t = some v) :
    ∃ th, p.threads t = some th ∧ post t th.born v p.world := by
  have hadmits : ∀ (p : Pool T E R X V W) a, Transition.Always p a →
      Pool.Admits P.allowed p a := by
    intro p a _
    cases a with
    | act t c => exact fun _ _ _ _ ↦ hall _ _ _ _
    | _ => trivial
  have hhealthy : P.Healthy (fun _ _ ↦ True) post p :=
    Protocol.sound hw₀ (fun _ ↦ trivial) (fun _ _ _ _ _ _ _ ↦ trivial) hpost
      (fun t w hw _ ↦ hbody t w hw) (h.weaken hadmits)
  obtain ⟨th, hth, hcode⟩ := Pool.outcome_some hv
  have hsafe := hhealthy.safe t th hth
  rw [hcode] at hsafe
  exact ⟨th, hth, hsafe⟩

end DjangoNova.Protocol
