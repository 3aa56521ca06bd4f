import Mathlib.Logic.Function.Basic
import DjangoNova.Concurrency.Program
import DjangoNova.Concurrency.Transition

/-!
# Interleaved threads and a rely-guarantee logic for them

A pool runs one program per thread over a shared world. A step begins a
thread, performs the next effect of one thread, or lets the environment
change the world; `Choice` resolves what the performer leaves open.

The logic is compositional in the programs. A `Protocol` fixes a world
invariant and, for each thread, the interference it tolerates. `Triple`
is the judgement about one program of one thread, closed under that
interference before every effect. `Protocol.sound` carries the
judgements of all threads through every interleaving.
-/

namespace DjangoNova

/-- The meaning of effects, and the moves of the environment. -/
structure Machine (T E : Type) (R : E → Type) (X W Choice : Type) where
  perform : T → (e : E) → Choice → W → Option (Except X (R e) × W)
  environment : Choice → W → Option W

/-- A thread that has begun, with the world in which it did. -/
structure Thread (E : Type) (R : E → Type) (X V W : Type) where
  born : W
  code : Program E R X V

structure Pool (T E : Type) (R : E → Type) (X V W : Type) where
  world : W
  threads : T → Option (Thread E R X V W)

/-- One scheduling decision. -/
inductive Turn (T Choice : Type) where
  | begin (t : T)
  | act (t : T) (c : Choice)
  | environment (c : Choice)

variable {T E : Type} {R : E → Type} {X V W Choice α β : Type}

namespace Pool

def start (w : W) : Pool T E R X V W := ⟨w, fun _ ↦ none⟩

/-- The outcome of a finished thread. -/
def outcome (p : Pool T E R X V W) (t : T) : Option (Except X V) :=
  match p.threads t with
  | some ⟨_, .done v⟩ => some v
  | _ => none

variable [DecidableEq T]

def step (M : Machine T E R X W Choice) (body : T → Program E R X V) (p : Pool T E R X V W) :
    Turn T Choice → Option (Pool T E R X V W)
  | .begin t =>
      match p.threads t with
      | none => some { p with threads := Function.update p.threads t (some ⟨p.world, body t⟩) }
      | some _ => none
  | .act t c =>
      match p.threads t with
      | some ⟨born, .step e k⟩ =>
          (M.perform t e c p.world).map fun q ↦
            ⟨q.2, Function.update p.threads t (some ⟨born, k q.1⟩)⟩
      | _ => none
  | .environment c => (M.environment c p.world).map fun w ↦ { p with world := w }

/-- Lift a condition on performed effects to a condition on turns. -/
def Admits (allowed : T → E → Choice → W → Prop) (p : Pool T E R X V W) : Turn T Choice → Prop
  | .act t c => ∀ born e k, p.threads t = some ⟨born, .step e k⟩ → allowed t e c p.world
  | _ => True

instance decidableAdmits {allowed : T → E → Choice → W → Prop}
    [∀ t e c w, Decidable (allowed t e c w)] (p : Pool T E R X V W) :
    DecidablePred (Admits allowed p)
  | .begin _ | .environment _ => .isTrue trivial
  | .act t c =>
      match ht : p.threads t with
      | some ⟨_, .step e _⟩ =>
          decidable_of_iff (allowed t e c p.world)
            ⟨fun h _ _ _ he ↦ by cases ht.symm.trans he; exact h, fun h ↦ h _ _ _ ht⟩
      | some ⟨_, .done _⟩ => .isTrue fun _ _ _ he ↦ by cases ht.symm.trans he
      | none => .isTrue fun _ _ _ he ↦ by cases ht.symm.trans he

section Runs

variable {M : Machine T E R X W Choice} {body : T → Program E R X V}
variable {ok : Pool T E R X V W → Turn T Choice → Prop} {p₀ p p' : Pool T E R X V W}

/-- What a turn can do to a pool. -/
theorem step_cases {a : Turn T Choice} (h : step M body p a = some p') :
    (∃ t, p.threads t = none ∧
      p' = { p with threads := Function.update p.threads t (some ⟨p.world, body t⟩) }) ∨
    (∃ t born e k c r w', p.threads t = some ⟨born, .step e k⟩ ∧
      M.perform t e c p.world = some (r, w') ∧
      p' = ⟨w', Function.update p.threads t (some ⟨born, k r⟩)⟩) ∨
    ∃ c w', M.environment c p.world = some w' ∧ p' = { p with world := w' } := by
  cases a with
  | begin t =>
      cases ht : p.threads t with
      | none => exact .inl ⟨t, ht, by simpa [step, ht] using h.symm⟩
      | some th => simp [step, ht] at h
  | act t c =>
      cases ht : p.threads t with
      | none => simp [step, ht] at h
      | some th =>
          obtain ⟨born, code⟩ := th
          cases code with
          | done v => simp [step, ht] at h
          | step e k =>
              simp only [step, ht, Option.map_eq_some_iff] at h
              obtain ⟨⟨r, w'⟩, hq, rfl⟩ := h
              exact .inr (.inl ⟨t, born, e, k, c, r, w', ht, hq, rfl⟩)
  | environment c =>
      simp only [step, Option.map_eq_some_iff] at h
      obtain ⟨w', hw', rfl⟩ := h
      exact .inr (.inr ⟨c, w', hw', rfl⟩)

/-- A thread that begins later begins in a later world, for any order that
the machine respects. -/
theorem born_later {A : W → W → Prop} (hrefl : ∀ w, A w w)
    (htrans : ∀ w₁ w₂ w₃, A w₁ w₂ → A w₂ w₃ → A w₁ w₃)
    (hperform : ∀ t e c w r w', M.perform t e c w = some (r, w') → A w w')
    (henv : ∀ c w w', M.environment c w = some w' → A w w')
    (h : Transition.Reaches (step M body) ok p₀ p) :
    A p₀.world p.world ∧
      ∀ t th, p₀.threads t = none → p.threads t = some th → A p₀.world th.born := by
  refine h.invariant (I := fun p ↦ A p₀.world p.world ∧
    ∀ t th, p₀.threads t = none → p.threads t = some th → A p₀.world th.born)
    ⟨hrefl _, fun t th hnone hsome ↦ ?_⟩ fun p a p' hI _ hs ↦ ?_
  · rw [hnone] at hsome
    cases hsome
  rcases step_cases hs with ⟨t, ht, rfl⟩ | ⟨t, born, e, k, c, r, w', ht, hp, rfl⟩ | ⟨c, w', hw, rfl⟩
  · refine ⟨hI.1, fun u th hnone hu ↦ ?_⟩
    by_cases hut : u = t
    · subst hut
      obtain rfl : ⟨p.world, body u⟩ = th := by simpa using hu
      exact hI.1
    · exact hI.2 u th hnone (by simpa [hut] using hu)
  · refine ⟨htrans _ _ _ hI.1 (hperform _ _ _ _ _ _ hp), fun u th hnone hu ↦ ?_⟩
    by_cases hut : u = t
    · subst hut
      obtain rfl : ⟨born, k r⟩ = th := by simpa using hu
      exact hI.2 u ⟨born, .step e k⟩ hnone ht
    · exact hI.2 u th hnone (by simpa [hut] using hu)
  · exact ⟨htrans _ _ _ hI.1 (henv _ _ _ hw), hI.2⟩

/-- A thread has performed what its body has to perform, or still will. -/
theorem performed {A : W → T → E → Prop}
    (hperform : ∀ t e c w r w', M.perform t e c w = some (r, w') →
      A w' t e ∧ ∀ u e', A w u e' → A w' u e')
    (henv : ∀ c w w', M.environment c w = some w' → ∀ u e, A w u e → A w' u e) {w₀ : W}
    (h : Transition.Reaches (step M body) ok (start w₀) p) {t : T} {e : E}
    (he : (body t).Performs e) {th : Thread E R X V W} (hth : p.threads t = some th) :
    A p.world t e ∨ th.code.Performs e := by
  refine h.invariant (I := fun p ↦ ∀ th, p.threads t = some th →
    A p.world t e ∨ th.code.Performs e) (fun th hth ↦ by simp [start] at hth)
    (fun p a p' hI _ hs th hth ↦ ?_) th hth
  rcases step_cases hs with
    ⟨u, hu, rfl⟩ | ⟨u, born, e', k, c, r, w', hu, hp, rfl⟩ | ⟨c, w', hw, rfl⟩
  · by_cases htu : t = u
    · subst htu
      obtain rfl : ⟨p.world, body t⟩ = th := by simpa using hth
      exact .inr he
    · exact hI th (by simpa [htu] using hth)
  · obtain ⟨hdid, hkeep⟩ := hperform _ _ _ _ _ _ hp
    by_cases htu : t = u
    · subst htu
      obtain rfl : ⟨born, k r⟩ = th := by simpa using hth
      rcases hI _ hu with hd | rfl | hk
      · exact .inl (hkeep t e hd)
      · exact .inl hdid
      · exact .inr (hk r)
    · exact (hI th (by simpa [htu] using hth)).imp_left (hkeep t e)
  · exact (hI th hth).imp_left (henv c _ _ hw t e)

/-- An invariant that the allowed effects keep holds in all runs of programs
that stay within them. -/
theorem invariant_within {allowed : T → E → Prop} {replies : (e : E) → Except X (R e) → Prop}
    {G : W → Prop} {w₀ : W} (h₀ : G w₀)
    (hperform : ∀ t e c w r w', allowed t e → G w → M.perform t e c w = some (r, w') →
      replies e r ∧ G w')
    (henv : ∀ c w w', G w → M.environment c w = some w' → G w')
    (hbody : ∀ t, (body t).Within (allowed t) replies)
    (h : Transition.Reaches (step M body) ok (start w₀) p) : G p.world := by
  refine (h.invariant (I := fun p ↦ G p.world ∧
    ∀ t th, p.threads t = some th → th.code.Within (allowed t) replies)
    ⟨h₀, fun t th hth ↦ by simp [start] at hth⟩ fun p a p' hI _ hs ↦ ?_).1
  obtain ⟨hG, hcode⟩ := hI
  rcases step_cases hs with ⟨t, ht, rfl⟩ | ⟨t, born, e, k, c, r, w', ht, hp, rfl⟩ | ⟨c, w', hw, rfl⟩
  · refine ⟨hG, fun u th hu ↦ ?_⟩
    by_cases hut : u = t
    · subst hut
      obtain rfl : ⟨p.world, body u⟩ = th := by simpa using hu
      exact hbody u
    · exact hcode u th (by simpa [hut] using hu)
  · obtain ⟨he, hk⟩ := hcode t _ ht
    obtain ⟨hr, hG'⟩ := hperform t e c _ r w' he hG hp
    refine ⟨hG', fun u th hu ↦ ?_⟩
    by_cases hut : u = t
    · subst hut
      obtain rfl : ⟨born, k r⟩ = th := by simpa using hu
      exact hk r hr
    · exact hcode u th (by simpa [hut] using hu)
  · exact ⟨henv c _ _ hG hw, hcode⟩

omit [DecidableEq T] in
theorem outcome_some {t : T} {v : Except X V} (h : p.outcome t = some v) :
    ∃ th, p.threads t = some th ∧ th.code = .done v := by
  unfold outcome at h
  split at h
  · rename_i born v' hth
    obtain rfl := Option.some.inj h
    exact ⟨_, hth, rfl⟩
  · cases h

end Runs

end Pool

/-- A world invariant and the interference that each thread tolerates,
for runs whose effects are all `allowed`. -/
structure Protocol (T E : Type) (R : E → Type) (X W Choice : Type) where
  machine : Machine T E R X W Choice
  allowed : T → E → Choice → W → Prop
  inv : W → Prop
  rely : T → W → W → Prop
  rely_refl : ∀ t w, rely t w w
  rely_trans : ∀ t w₁ w₂ w₃, rely t w₁ w₂ → rely t w₂ w₃ → rely t w₁ w₃
  environment_inv : ∀ c w w', inv w → machine.environment c w = some w' → inv w'
  environment_rely : ∀ c w w' t, inv w → machine.environment c w = some w' → rely t w w'

namespace Protocol

variable (P : Protocol T E R X W Choice)

/-- Every effect that thread `t` still performs from `w` keeps the
invariant and stays within what the others rely on, and the outcome
satisfies `post`. -/
def Safe (t : T) (post : Except X α → W → Prop) : Program E R X α → W → Prop
  | .done v, w => post v w
  | .step e k, w => ∀ w₁, P.inv w₁ → P.rely t w w₁ →
      ∀ c r w₂, P.allowed t e c w₁ → P.machine.perform t e c w₁ = some (r, w₂) →
        P.inv w₂ ∧ (∀ u, u ≠ t → P.rely u w₁ w₂) ∧ Safe t post (k r) w₂

def Triple (t : T) (pre : W → Prop) (p : Program E R X α) (post : Except X α → W → Prop) : Prop :=
  ∀ w, P.inv w → pre w → P.Safe t post p w

/-- Interference from the other threads keeps `pre`. -/
def Stable (t : T) (pre : W → Prop) : Prop :=
  ∀ w w', P.inv w → P.inv w' → P.rely t w w' → pre w → pre w'

/-- A postcondition by cases: `Q` of a returned value, `E` of an exception. -/
abbrev Ends (Q : α → W → Prop) (E : X → W → Prop) : Except X α → W → Prop
  | .ok a => Q a
  | .error x => E x

/-- What one performed effect of thread `t` has to establish. -/
def Effect (t : T) (pre : W → Prop) (e : E) (post : Except X (R e) → W → Prop) : Prop :=
  ∀ w c r w', P.inv w → pre w → P.allowed t e c w → P.machine.perform t e c w = some (r, w') →
    P.inv w' ∧ (∀ u, u ≠ t → P.rely u w w') ∧ post r w'

variable {P} {t : T} {pre pre' : W → Prop}

theorem Safe.andThen {Q : Except X α → W → Prop} {post : Except X β → W → Prop}
    {f : Except X α → Program E R X β} (hf : ∀ v, P.Triple t (Q v) (f v) post)
    {p : Program E R X α} {w : W} (hw : P.inv w) (h : P.Safe t Q p w) :
    P.Safe t post (p.andThen f) w := by
  induction p generalizing w with
  | done v => exact hf v w hw h
  | step e k ih =>
      intro w₁ hw₁ hr c r w₂ hc hp
      obtain ⟨hw₂, hu, hs⟩ := h w₁ hw₁ hr c r w₂ hc hp
      exact ⟨hw₂, hu, ih r hw₂ hs⟩

theorem Triple.andThen {Q : Except X α → W → Prop} {post : Except X β → W → Prop}
    {p : Program E R X α} {f : Except X α → Program E R X β}
    (hp : P.Triple t pre p Q) (hf : ∀ v, P.Triple t (Q v) (f v) post) :
    P.Triple t pre (p.andThen f) post :=
  fun w hw hpre ↦ Safe.andThen hf hw (hp w hw hpre)

theorem Triple.bind {Q : Except X α → W → Prop} {post : Except X β → W → Prop}
    {p : Program E R X α} {f : α → Program E R X β}
    (hp : P.Triple t pre p Q) (hf : ∀ a, P.Triple t (Q (.ok a)) (f a) post)
    (herr : ∀ x w, P.inv w → Q (.error x) w → post (.error x) w) :
    P.Triple t pre (p >>= f) post := by
  refine hp.andThen fun v ↦ ?_
  cases v with
  | ok a => exact hf a
  | error x => exact herr x

theorem Triple.done {post : Except X α → W → Prop} (v : Except X α)
    (h : ∀ w, P.inv w → pre w → post v w) :
    P.Triple t pre (.done v : Program E R X α) post := h

theorem Triple.pure {post : Except X α → W → Prop} (a : α)
    (h : ∀ w, P.inv w → pre w → post (.ok a) w) :
    P.Triple t pre (pure a : Program E R X α) post := h

theorem Triple.throw {post : Except X α → W → Prop} (x : X)
    (h : ∀ w, P.inv w → pre w → post (.error x) w) :
    P.Triple t pre (Program.throw x : Program E R X α) post := h

theorem Triple.call {e : E} {post : Except X (R e) → W → Prop} (hpre : P.Stable t pre)
    (h : P.Effect t pre e post) : P.Triple t pre (Program.call e) post := by
  intro w hw hw' w₁ hw₁ hr c r w₂ hc hp
  exact h w₁ c r w₂ hw₁ (hpre w w₁ hw hw₁ hr hw') hc hp

theorem Triple.tryCatch {Q post : Except X α → W → Prop} {p : Program E R X α}
    {handler : X → Program E R X α} (hp : P.Triple t pre p Q)
    (hok : ∀ a w, P.inv w → Q (.ok a) w → post (.ok a) w)
    (herr : ∀ x, P.Triple t (Q (.error x)) (handler x) post) :
    P.Triple t pre (p.tryCatch handler) post := by
  refine hp.andThen fun v ↦ ?_
  cases v with
  | ok a => exact hok a
  | error x => exact herr x

theorem Safe.mono {post post' : Except X α → W → Prop}
    (h : ∀ v w, P.inv w → post v w → post' v w) {p : Program E R X α} {w : W} (hw : P.inv w)
    (hs : P.Safe t post p w) : P.Safe t post' p w := by
  induction p generalizing w with
  | done v => exact h v w hw hs
  | step e k ih =>
      intro w₁ hw₁ hr c r w₂ hc hp
      obtain ⟨hw₂, hu, hk⟩ := hs w₁ hw₁ hr c r w₂ hc hp
      exact ⟨hw₂, hu, ih r hw₂ hk⟩

theorem Triple.consequence {post post' : Except X α → W → Prop} {p : Program E R X α}
    (hp : P.Triple t pre' p post') (hpre : ∀ w, P.inv w → pre w → pre' w)
    (hpost : ∀ v w, P.inv w → post' v w → post v w) : P.Triple t pre p post :=
  fun w hw h ↦ Safe.mono hpost hw (hp w hw (hpre w hw h))

/-- A conjunct of the precondition that does not mention the world is a hypothesis. -/
theorem Triple.fact {post : Except X α → W → Prop} {p : Program E R X α} {q : Prop}
    (h : q → P.Triple t pre p post) : P.Triple t (fun w ↦ pre w ∧ q) p post :=
  fun w hw hpre ↦ h hpre.2 w hw hpre.1

/-- A thread waiting for its turn tolerates the interference it relies on. -/
theorem Safe.rely {post : Except X α → W → Prop} (hpost : ∀ v, P.Stable t (post v))
    {p : Program E R X α} {w w' : W} (hw : P.inv w) (hw' : P.inv w') (hr : P.rely t w w')
    (hs : P.Safe t post p w) : P.Safe t post p w' := by
  cases p with
  | done v => exact hpost v w w' hw hw' hr hs
  | step e k => exact fun w₁ hw₁ hr₁ ↦ hs w₁ hw₁ (P.rely_trans t _ _ _ hr hr₁)

/-- The pool is healthy: the invariant holds, threads that have begun
are safe, and the others are idle. -/
structure Healthy (P : Protocol T E R X W Choice) (idle : T → W → Prop)
    (post : T → W → Except X V → W → Prop) (p : Pool T E R X V W) : Prop where
  inv : P.inv p.world
  idle : ∀ t, p.threads t = none → idle t p.world
  safe : ∀ t th, p.threads t = some th → P.Safe t (post t th.born) th.code p.world

theorem sound [DecidableEq T] {body : T → Program E R X V} {idle : T → W → Prop}
    {post : T → W → Except X V → W → Prop} {w₀ : W} (hw₀ : P.inv w₀)
    (hidle₀ : ∀ t, idle t w₀) (hidle : ∀ t, P.Stable t (idle t))
    (hpost : ∀ t born v, P.Stable t (post t born v))
    (hbody : ∀ t w, P.inv w → idle t w → P.Safe t (post t w) (body t) w)
    {p : Pool T E R X V W}
    (hp : Transition.Reaches (Pool.step P.machine body) (Pool.Admits P.allowed)
      (Pool.start w₀) p) : P.Healthy idle post p := by
  refine hp.invariant ⟨hw₀, fun t _ ↦ hidle₀ t, fun t th h ↦ by simp [Pool.start] at h⟩ ?_
  intro p a p' hI hok hstep
  cases a with
  | begin t =>
      cases ht : p.threads t with
      | some th => simp [Pool.step, ht] at hstep
      | none =>
          simp only [Pool.step, ht, Option.some.injEq] at hstep
          subst hstep
          refine ⟨hI.inv, fun u hu ↦ ?_, fun u th hu ↦ ?_⟩
          · by_cases h : u = t
            · simp [h] at hu
            · exact hI.idle u (by simpa [h] using hu)
          · by_cases h : u = t
            · subst h
              obtain rfl : ⟨p.world, body u⟩ = th := by simpa using hu
              exact hbody u p.world hI.inv (hI.idle u ht)
            · exact hI.safe u th (by simpa [h] using hu)
  | act t c =>
      cases ht : p.threads t with
      | none => simp [Pool.step, ht] at hstep
      | some th =>
          obtain ⟨born, code⟩ := th
          cases code with
          | done v => simp [Pool.step, ht] at hstep
          | step e k =>
              simp only [Pool.step, ht, Option.map_eq_some_iff] at hstep
              obtain ⟨⟨r, w'⟩, hq, rfl⟩ := hstep
              obtain ⟨hw', hu, hk⟩ := hI.safe t _ ht p.world hI.inv (P.rely_refl t _) c r w'
                (hok born e k ht) hq
              refine ⟨hw', fun u hnone ↦ ?_, fun u th hth ↦ ?_⟩
              · by_cases h : u = t
                · simp [h] at hnone
                · exact hidle u _ _ hI.inv hw' (hu u h) (hI.idle u (by simpa [h] using hnone))
              · by_cases h : u = t
                · subst h
                  obtain rfl : ⟨born, k r⟩ = th := by simpa using hth
                  exact hk
                · exact (hI.safe u th (by simpa [h] using hth)).rely (hpost u _) hI.inv hw' (hu u h)
  | environment c =>
      simp only [Pool.step, Option.map_eq_some_iff] at hstep
      obtain ⟨w', hw', rfl⟩ := hstep
      have hinv := P.environment_inv c _ _ hI.inv hw'
      have hrely := fun t ↦ P.environment_rely c _ _ t hI.inv hw'
      exact ⟨hinv, fun t ht ↦ hidle t _ _ hI.inv hinv (hrely t) (hI.idle t ht),
        fun t th ht ↦ (hI.safe t th ht).rely (hpost t _) hI.inv hinv (hrely t)⟩

end Protocol

end DjangoNova
