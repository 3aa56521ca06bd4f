import DjangoNova.Concurrency.Pool

/-!
# Erasing silent effects

Some effects of a program are silent: they read and change nothing that
the other effects depend on. `Erases p q` says that `p` behaves as `q` when
its silent effects are left out, as long as their replies are calm. In a
pool whose machine keeps the world under silent effects, every run of the
first programs is matched by a run of the second ones.
-/

namespace DjangoNova

namespace Program

variable {E : Type} {R : E → Type} {X α β : Type}

variable (silent : E → Prop) (calm : (e : E) → Except X (R e) → Prop)

inductive Erases : Program E R X α → Program E R X α → Prop
  | done (v : Except X α) : Erases (.done v) (.done v)
  | silent {e : E} {k : Except X (R e) → Program E R X α} {q : Program E R X α} (he : silent e)
      (h : ∀ r, calm e r → Erases (k r) q) : Erases (.step e k) q
  | step {e : E} {k k' : Except X (R e) → Program E R X α} (he : ¬silent e)
      (h : ∀ r, Erases (k r) (k' r)) : Erases (.step e k) (.step e k')

/-- A program of silent effects only, with what is known of its outcome. -/
def Ends (post : Except X α → Prop) : Program E R X α → Prop
  | .done v => post v
  | .step e k => silent e ∧ ∀ r, calm e r → (k r).Ends post

/-- A program without silent effects. -/
abbrev Loud (p : Program E R X α) : Prop := p.Within (fun e ↦ ¬silent e) fun _ _ ↦ True

variable {silent calm}

theorem Erases.andThen {p q : Program E R X α} (h : Erases silent calm p q)
    {f g : Except X α → Program E R X β} (hf : ∀ v, Erases silent calm (f v) (g v)) :
    Erases silent calm (p.andThen f) (q.andThen g) := by
  induction h with
  | done v => exact hf v
  | silent he _ ih => exact .silent he ih
  | step he _ ih => exact .step he ih

theorem Erases.bind {p q : Program E R X α} (h : Erases silent calm p q)
    {f g : α → Program E R X β} (hf : ∀ a, Erases silent calm (f a) (g a)) :
    Erases silent calm (p >>= f) (q >>= g) := by
  apply h.andThen
  intro v
  cases v with
  | ok a => exact hf a
  | error x => exact .done _

theorem Loud.erases {p : Program E R X α} (h : p.Loud silent) : Erases silent calm p p := by
  induction p with
  | done v => exact .done v
  | step e k ih => exact .step h.1 fun r ↦ ih r (h.2 r trivial)

theorem Erases.call {e : E} (he : ¬silent e) :
    Erases silent calm (call e : Program E R X (R e)) (call e) := .step he fun r ↦ .done r

/-- Nothing is left of a silent prefix. -/
theorem Ends.erases {post : Except X α → Prop} {p : Program E R X α} (h : p.Ends silent calm post)
    {f : Except X α → Program E R X β} {q : Program E R X β}
    (hf : ∀ v, post v → Erases silent calm (f v) q) : Erases silent calm (p.andThen f) q := by
  induction p with
  | done v => exact hf v h
  | step e k ih => exact .silent h.1 fun r hr ↦ ih r (h.2 r hr)

theorem Ends.erases_done {v : Except X α} {p : Program E R X α}
    (h : p.Ends silent calm (· = v)) : Erases silent calm p (.done v) := by
  have hend : Erases silent calm (p.andThen .done) (.done v) := by
    apply h.erases
    rintro u rfl
    exact .done u
  rwa [andThen_done_right] at hend

theorem Ends.andThen {post : Except X α → Prop} {post' : Except X β → Prop} {p : Program E R X α}
    (h : p.Ends silent calm post) {f : Except X α → Program E R X β}
    (hf : ∀ v, post v → (f v).Ends silent calm post') : (p.andThen f).Ends silent calm post' := by
  induction p with
  | done v => exact hf v h
  | step e k ih => exact ⟨h.1, fun r hr ↦ ih r (h.2 r hr)⟩

theorem Ends.mono {post post' : Except X α → Prop} (hpost : ∀ v, post v → post' v)
    {p : Program E R X α} (h : p.Ends silent calm post) : p.Ends silent calm post' := by
  induction p with
  | done v => exact hpost v h
  | step e k ih => exact ⟨h.1, fun r hr ↦ ih r (h.2 r hr)⟩

section Strip

variable (silent : E → Prop) [DecidablePred silent] (inert : (e : E) → Except X (R e))

/-- The program without its silent effects, each with the inert reply. -/
def strip : Program E R X α → Program E R X α
  | .done v => .done v
  | .step e k => if silent e then (k (inert e)).strip else .step e fun r ↦ (k r).strip

variable {silent inert}

theorem strip_silent {e : E} (he : silent e) (k : Except X (R e) → Program E R X α) :
    strip silent inert (.step e k) = strip silent inert (k (inert e)) := if_pos he

theorem strip_loud {e : E} (he : ¬silent e) (k : Except X (R e) → Program E R X α) :
    strip silent inert (.step e k) = .step e fun r ↦ strip silent inert (k r) := if_neg he

theorem strip_andThen (p : Program E R X α) (f : Except X α → Program E R X β) :
    strip silent inert (p.andThen f) =
      (strip silent inert p).andThen fun v ↦ strip silent inert (f v) := by
  induction p with
  | done v => rfl
  | step e k ih =>
      rw [andThen_step]
      by_cases he : silent e
      · rw [strip_silent he, strip_silent he]
        exact ih _
      · rw [strip_loud he, strip_loud he, andThen_step]
        exact congrArg _ (funext ih)

theorem Loud.strip_eq {p : Program E R X α} (h : p.Loud silent) : strip silent inert p = p := by
  induction p with
  | done v => rfl
  | step e k ih =>
      rw [strip_loud h.1]
      exact congrArg _ (funext fun r ↦ ih r (h.2 r trivial))

/-- With calm replies to its silent effects `p` is `q` with inert ones. -/
def Transparent (silent : E → Prop) [DecidablePred silent]
    (calm : (e : E) → Except X (R e) → Prop) (inert : (e : E) → Except X (R e))
    (p q : Program E R X α) : Prop := Erases silent calm p (strip silent inert q)

theorem Loud.transparent {p : Program E R X α} (h : p.Loud silent) :
    Transparent silent calm inert p p := by
  unfold Transparent
  rw [h.strip_eq]
  exact h.erases

theorem Transparent.andThen {p q : Program E R X α} (h : Transparent silent calm inert p q)
    {f g : Except X α → Program E R X β} (hf : ∀ v, Transparent silent calm inert (f v) (g v)) :
    Transparent silent calm inert (p.andThen f) (q.andThen g) := by
  unfold Transparent
  rw [strip_andThen]
  exact Erases.andThen h hf

theorem Transparent.bind {p q : Program E R X α} (h : Transparent silent calm inert p q)
    {f g : α → Program E R X β} (hf : ∀ a, Transparent silent calm inert (f a) (g a)) :
    Transparent silent calm inert (p >>= f) (q >>= g) := by
  apply h.andThen
  intro v
  cases v with
  | ok a => exact hf a
  | error x => exact .done _

theorem Transparent.tryFinally {p q : Program E R X α} (h : Transparent silent calm inert p q)
    {r : Program E R X Unit} (hr : r.Loud silent) :
    Transparent silent calm inert (p.tryFinally r) (q.tryFinally r) :=
  h.andThen fun v ↦ hr.transparent.bind fun _ ↦ .done v

end Strip

end Program

section Pools

open Program Transition

variable {T E : Type} {R : E → Type} {X V W Choice : Type} [DecidableEq T]
  {M : Machine T E R X W Choice} {body body' : T → Program E R X V}
  {silent : E → Prop} {calm : (e : E) → Except X (R e) → Prop}
  {p q : Pool T E R X V W} {w₀ : W}

/-- All replies in a turn meet the condition. -/
def Answers (M : Machine T E R X W Choice) (calm : (e : E) → Except X (R e) → Prop)
    (p : Pool T E R X V W) : Turn T Choice → Prop :=
  p.Admits fun t e c w ↦ ∀ r w', M.perform t e c w = some (r, w') → calm e r

instance {M : Machine T E R X W Choice} {calm : (e : E) → Except X (R e) → Prop}
    [∀ e r, Decidable (calm e r)] (t : T) (e : E) (c : Choice) (w : W) :
    Decidable (∀ r w', M.perform t e c w = some (r, w') → calm e r) :=
  match M.perform t e c w with
  | some (r, _) =>
      decidable_of_iff (calm e r) ⟨fun hr _ _ h ↦ by cases h; exact hr, fun hr ↦ hr _ _ rfl⟩
  | none => .isTrue fun _ _ h ↦ by cases h

instance decidableAnswers {M : Machine T E R X W Choice} {calm : (e : E) → Except X (R e) → Prop}
    [∀ e r, Decidable (calm e r)] (p : Pool T E R X V W) : DecidablePred (Answers M calm p) :=
  fun a ↦ inferInstanceAs (Decidable (p.Admits _ a))

/-- The same threads over the same world, up to the relation of their codes. -/
structure SamePools (rel : Program E R X V → Program E R X V → Prop) (p q : Pool T E R X V W) :
    Prop where
  world : p.world = q.world
  threads : ∀ t, p.threads t = none ∧ q.threads t = none ∨
    ∃ born code code', p.threads t = some ⟨born, code⟩ ∧ q.threads t = some ⟨born, code'⟩ ∧
      rel code code'

omit [DecidableEq T] in
theorem samePools_start (rel : Program E R X V → Program E R X V → Prop) (w : W) :
    SamePools rel (Pool.start w : Pool T E R X V W) (Pool.start w) :=
  ⟨rfl, fun _ ↦ .inl ⟨rfl, rfl⟩⟩

/-- A change of the codes of one thread. -/
theorem SamePools.update {rel : Program E R X V → Program E R X V → Prop}
    (h : SamePools rel p q) (t : T) (w : W) {born : W} {code code' : Program E R X V}
    (hcode : rel code code') :
    SamePools rel (⟨w, Function.update p.threads t (some ⟨born, code⟩)⟩ : Pool T E R X V W)
      ⟨w, Function.update q.threads t (some ⟨born, code'⟩)⟩ := by
  refine ⟨rfl, fun u ↦ ?_⟩
  by_cases hu : u = t
  · subst hu
    exact .inr ⟨born, code, code', Function.update_self .., Function.update_self .., hcode⟩
  · simp only [Function.update_of_ne hu]
    exact h.threads u

/-- A change of one thread on the left only. -/
theorem SamePools.updateLeft {rel : Program E R X V → Program E R X V → Prop}
    (h : SamePools rel p q) {t : T} {born : W} {code code' : Program E R X V}
    (hq : q.threads t = some ⟨born, code'⟩) (hcode : rel code code') :
    SamePools rel (⟨p.world, Function.update p.threads t (some ⟨born, code⟩)⟩ : Pool T E R X V W)
      q := by
  refine ⟨h.world, fun u ↦ ?_⟩
  by_cases hu : u = t
  · subst hu
    exact .inr ⟨born, code, code', Function.update_self .., hq, hcode⟩
  · simp only [Function.update_of_ne hu]
    exact h.threads u

/-- Every run with calm replies is matched by a run without the silent effects. -/
theorem erases_run (hsilent : ∀ t e c w r w', silent e → M.perform t e c w = some (r, w') → w' = w)
    (hbody : ∀ t, Erases silent calm (body t) (body' t))
    (h : Reaches (Pool.step M body) (Answers M calm) (Pool.start w₀) p) :
    ∃ q, Reaches (Pool.step M body') Always (Pool.start w₀) q ∧
      SamePools (Erases silent calm) p q := by
  induction h with
  | start => exact ⟨_, .start, samePools_start _ w₀⟩
  | @move p p' a hp hcalm hstep ih =>
      obtain ⟨q, hq, hsame⟩ := ih
      cases a with
      | begin t =>
          rcases hsame.threads t with ⟨hpt, hqt⟩ | ⟨born, code, code', hpt, -, -⟩
          · simp only [Pool.step, hpt, Option.some.injEq] at hstep
            subst hstep
            have hqstep : Pool.step M body' q (.begin t) = some
                { q with threads := Function.update q.threads t (some ⟨q.world, body' t⟩) } := by
              simp only [Pool.step, hqt]
            refine ⟨_, .move _ hq trivial hqstep, ?_⟩
            rw [hsame.world]
            exact hsame.update t q.world (hbody t)
          · simp [Pool.step, hpt] at hstep
      | environment c =>
          simp only [Pool.step, Option.map_eq_some_iff] at hstep
          obtain ⟨w, hw, rfl⟩ := hstep
          rw [hsame.world] at hw
          have hqstep : Pool.step M body' q (.environment c) = some { q with world := w } := by
            simp [Pool.step, hw]
          exact ⟨_, .move _ hq trivial hqstep, rfl, hsame.threads⟩
      | act t c =>
          rcases hsame.threads t with ⟨hpt, -⟩ | ⟨born, code, code', hpt, hqt, herases⟩
          · simp [Pool.step, hpt] at hstep
          · cases code with
            | done v => simp [Pool.step, hpt] at hstep
            | step e k =>
                simp only [Pool.step, hpt, Option.map_eq_some_iff] at hstep
                obtain ⟨⟨r, w⟩, hperform, rfl⟩ := hstep
                have hr : calm e r := hcalm born e k hpt r w hperform
                cases herases with
                | silent he hk =>
                    obtain rfl := hsilent t e c p.world r w he hperform
                    exact ⟨q, hq, hsame.updateLeft hqt (hk r hr)⟩
                | @step _ _ k' he hk =>
                    rw [hsame.world] at hperform
                    have hqstep : Pool.step M body' q (.act t c) = some
                        ⟨w, Function.update q.threads t (some ⟨born, k' r⟩)⟩ := by
                      simp [Pool.step, hqt, hperform]
                    exact ⟨_, .move _ hq trivial hqstep, hsame.update t w (hk r)⟩

omit [DecidableEq T] in
/-- An outcome with silent effects is the outcome without them. -/
theorem SamePools.outcome (h : SamePools (Erases silent calm) p q) {t : T} {v : Except X V}
    (hv : p.outcome t = some v) : q.outcome t = some v := by
  rcases h.threads t with ⟨hp, -⟩ | ⟨born, code, code', hp, hq, herases⟩
  · simp [Pool.outcome, hp] at hv
  · unfold Pool.outcome at hv ⊢
    rw [hp] at hv
    rw [hq]
    cases herases with
    | done u => exact hv
    | silent he hk => cases hv
    | step he hk => cases hv

variable [DecidablePred silent] {inert : (e : E) → Except X (R e)}

/-- The silent effects get the inert replies. -/
def Inertly (silent : E → Prop) (inert : (e : E) → Except X (R e)) (e : E)
    (r : Except X (R e)) : Prop := silent e → r = inert e

/-- A program that is over or waits at an effect that is not silent. -/
def Flushed (silent : E → Prop) : Program E R X V → Prop
  | .done _ => True
  | .step e _ => ¬silent e

/-- Perform the next silent effects of a thread. -/
theorem flush_thread
    (hanswer : ∀ t e w, silent e → ∃ c, M.perform t e c w = some (inert e, w))
    {t : T} {born : W} {code : Program E R X V} (hp : p.threads t = some ⟨born, code⟩) :
    ∃ code', Flushed silent code' ∧ strip silent inert code' = strip silent inert code ∧
      Reaches (Pool.step M body) (Answers M (Inertly silent inert)) p
        ⟨p.world, Function.update p.threads t (some ⟨born, code'⟩)⟩ := by
  have hself : (⟨p.world, Function.update p.threads t (some ⟨born, code⟩)⟩ : Pool T E R X V W) =
      p := by
    rw [← hp, Function.update_eq_self]
  induction code generalizing p with
  | done v =>
      refine ⟨.done v, trivial, rfl, ?_⟩
      rw [hself]
      exact .start
  | step e k ih =>
      by_cases he : silent e
      · obtain ⟨c, hc⟩ := hanswer t e p.world he
        let p' : Pool T E R X V W :=
          ⟨p.world, Function.update p.threads t (some ⟨born, k (inert e)⟩)⟩
        have hstep : Pool.step M body p (.act t c) = some p' := by
          simp only [Pool.step, hp, hc]
          rfl
        have hcalm : Answers M (Inertly silent inert) p (.act t c) := by
          intro born' e' k' ht r w' hperform _
          cases hp.symm.trans ht
          cases hc.symm.trans hperform
          rfl
        have hp' : p'.threads t = some ⟨born, k (inert e)⟩ := Function.update_self ..
        have hself' : (⟨p'.world, Function.update p'.threads t (some ⟨born, k (inert e)⟩)⟩ :
            Pool T E R X V W) = p' := by
          rw [← hp', Function.update_eq_self]
        obtain ⟨code', hflushed, hstrip, hrun⟩ := ih (inert e) hp' hself'
        refine ⟨code', hflushed, hstrip.trans (strip_silent he k).symm, ?_⟩
        have hupdate : Function.update p'.threads t (some ⟨born, code'⟩) =
            Function.update p.threads t (some ⟨born, code'⟩) := Function.update_idem ..
        rw [hupdate] at hrun
        exact (Reaches.move _ .start hcalm hstep).trans hrun
      · refine ⟨.step e k, he, rfl, ?_⟩
        rw [hself]
        exact .start

/-- Every run without the silent effects is a run with inert replies to them. -/
theorem inert_run
    (hanswer : ∀ t e w, silent e → ∃ c, M.perform t e c w = some (inert e, w))
    (h : Reaches (Pool.step M fun t ↦ strip silent inert (body t)) Always (Pool.start w₀) q) :
    ∃ p, Reaches (Pool.step M body) (Answers M (Inertly silent inert)) (Pool.start w₀) p ∧
      SamePools (fun code code' ↦ strip silent inert code = code' ∧ Flushed silent code) p q := by
  induction h with
  | start => exact ⟨_, .start, samePools_start _ w₀⟩
  | @move q q' a hq hok hstep ih =>
      obtain ⟨p, hp, hsame⟩ := ih
      cases a with
      | begin t =>
          rcases hsame.threads t with ⟨hpt, hqt⟩ | ⟨born, code, code', -, hqt, -⟩
          · simp only [Pool.step, hqt, Option.some.injEq] at hstep
            subst hstep
            let p' : Pool T E R X V W :=
              { p with threads := Function.update p.threads t (some ⟨p.world, body t⟩) }
            have hpstep : Pool.step M body p (.begin t) = some p' := by
              simp only [Pool.step, hpt]
              rfl
            have hbegin : Answers M (Inertly silent inert) p (.begin t) := trivial
            have hp't : p'.threads t = some ⟨p.world, body t⟩ := Function.update_self ..
            obtain ⟨code, hflushed, hstrip, hrun⟩ := flush_thread hanswer hp't
            refine ⟨_, (Reaches.move _ hp hbegin hpstep).trans hrun, ?_⟩
            have hupdate : Function.update p'.threads t (some ⟨p.world, code⟩) =
                Function.update p.threads t (some ⟨p.world, code⟩) := Function.update_idem ..
            rw [hupdate, ← hsame.world]
            exact hsame.update t p.world ⟨hstrip, hflushed⟩
          · simp [Pool.step, hqt] at hstep
      | environment c =>
          simp only [Pool.step, Option.map_eq_some_iff] at hstep
          obtain ⟨w, hw, rfl⟩ := hstep
          rw [← hsame.world] at hw
          have hpstep : Pool.step M body p (.environment c) = some { p with world := w } := by
            simp [Pool.step, hw]
          exact ⟨_, .move (.environment c) hp trivial hpstep, rfl, hsame.threads⟩
      | act t c =>
          rcases hsame.threads t with ⟨-, hqt⟩ | ⟨born, code, code', hpt, hqt, hstrip, hflushed⟩
          · simp [Pool.step, hqt] at hstep
          · cases code with
            | done v =>
                subst hstrip
                simp [Pool.step, hqt, strip] at hstep
            | step e k =>
                rw [strip_loud hflushed] at hstrip
                subst hstrip
                simp only [Pool.step, hqt, Option.map_eq_some_iff] at hstep
                obtain ⟨⟨r, w⟩, hperform, rfl⟩ := hstep
                rw [← hsame.world] at hperform
                let p' : Pool T E R X V W :=
                  ⟨w, Function.update p.threads t (some ⟨born, k r⟩)⟩
                have hpstep : Pool.step M body p (.act t c) = some p' := by
                  simp only [Pool.step, hpt, hperform]
                  rfl
                have hinert : Answers M (Inertly silent inert) p (.act t c) := by
                  intro born' e' k' ht r' w' _ he
                  cases hpt.symm.trans ht
                  exact absurd he hflushed
                have hp't : p'.threads t = some ⟨born, k r⟩ := Function.update_self ..
                obtain ⟨code, hflushed', hstrip, hrun⟩ := flush_thread hanswer hp't
                refine ⟨_, (Reaches.move _ hp hinert hpstep).trans hrun, ?_⟩
                have hupdate : Function.update p'.threads t (some ⟨born, code⟩) =
                    Function.update p.threads t (some ⟨born, code⟩) := Function.update_idem ..
                rw [hupdate]
                exact hsame.update t w ⟨hstrip, hflushed'⟩

omit [DecidableEq T] in
theorem SamePools.outcome_eq
    (h : SamePools (fun code code' ↦ strip silent inert code = code' ∧ Flushed silent code) p q)
    (t : T) : p.outcome t = q.outcome t := by
  rcases h.threads t with ⟨hp, hq⟩ | ⟨born, code, code', hp, hq, hstrip, hflushed⟩
  · simp [Pool.outcome, hp, hq]
  · subst hstrip
    unfold Pool.outcome
    rw [hp, hq]
    cases code with
    | done v => rfl
    | step e k => rw [strip_loud hflushed]

end Pools

end DjangoNova
