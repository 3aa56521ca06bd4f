import DjangoNova.Cache.QuerySetCache

/-!
# The lock discipline of the cache methods

Every method returns the lock as often as it takes it, on all paths, and
changes the state under the lock only. The count of the lock is tracked
along the program.
-/

namespace DjangoNova

open Program
open Tracing (onlyIf)

variable {Sql V α β : Type}

namespace CacheEffect

/-- The calls of the tracing provider. -/
def Silent : CacheEffect Sql V → Prop
  | .span _ => True
  | _ => False

instance (e : CacheEffect Sql V) : Decidable e.Silent :=
  match e with
  | .span _ => isTrue trivial
  | .acquire | .release | .readState | .update _ | .transactional _ | .sql _ | .copyRows _
  | .backendGet _ | .backendSet _ _ | .backendDelete _ | .backendClear | .generationWriter
  | .newGeneration | .tokenGet _ | .tokenWrite _ _ _ | .keyOrder _ => isFalse nofun

def NeedsLock : CacheEffect Sql V → Prop
  | .release | .update _ => True
  | _ => False

/-- The effects that need no lock and keep its count. -/
def Free : CacheEffect Sql V → Prop
  | .acquire | .release | .update _ => False
  | _ => True

/-- The count of the lock after the effect. -/
def depth : (e : CacheEffect Sql V) → ℕ → Except CacheError e.Reply → ℕ
  | .acquire, n, .ok _ => n + 1
  | .release, n, _ => n - 1
  | _, n, _ => n

/-- The effects of a rotation. -/
def Rotating : CacheEffect Sql V → Prop
  | .generationWriter | .newGeneration | .tokenWrite _ _ _ | .update (.addPending _)
  | .update (.discardPending _) => True
  | _ => False

/-- Neither a call of the provider nor a new read guard. -/
def Plain : CacheEffect Sql V → Prop
  | .span _ | .update (.block _) => False
  | _ => True

/-- No new read guard. -/
def Unguarded (e : CacheEffect Sql V) : Prop := ∀ keys, e ≠ .update (.block keys)

theorem Plain.unguarded (e : CacheEffect Sql V) (h : e.Plain) : e.Unguarded := by
  rintro keys rfl
  exact h

theorem Rotating.plain (e : CacheEffect Sql V) (h : e.Rotating) : e.Plain := by
  cases e with
  | update u => cases u <;> trivial
  | span c => exact h
  | _ => trivial

end CacheEffect

namespace QuerySetCache

variable {allowed : CacheEffect Sql V → Prop} {n m l : ℕ}

/-- With the lock at count `n` the program performs allowed effects only and
ends at count `m`. -/
def Disciplined (allowed : CacheEffect Sql V → Prop) : CacheProgram Sql V α → ℕ → ℕ → Prop
  | .done _, n, m => n = m
  | .step e k, n, m =>
      allowed e ∧ (e.NeedsLock → 0 < n) ∧ ∀ r, Disciplined allowed (k r) (e.depth n r) m

theorem Disciplined.andThen {p : CacheProgram Sql V α}
    {f : Except CacheError α → CacheProgram Sql V β} (hp : Disciplined allowed p n m)
    (hf : ∀ v, Disciplined allowed (f v) m l) : Disciplined allowed (p.andThen f) n l := by
  induction p generalizing n with
  | done v =>
      obtain rfl : n = m := hp
      exact hf v
  | step e k ih => exact ⟨hp.1, hp.2.1, fun r ↦ ih r (hp.2.2 r)⟩

theorem Disciplined.bind {p : CacheProgram Sql V α} {f : α → CacheProgram Sql V β}
    (hp : Disciplined allowed p n m) (hf : ∀ a, Disciplined allowed (f a) m m) :
    Disciplined allowed (p >>= f) n m := by
  apply hp.andThen
  intro v
  cases v with
  | ok a => exact hf a
  | error x => exact Eq.refl m

theorem Disciplined.mono {allowed' : CacheEffect Sql V → Prop} (h : ∀ e, allowed e → allowed' e)
    {p : CacheProgram Sql V α} (hp : Disciplined allowed p n m) : Disciplined allowed' p n m := by
  induction p generalizing n with
  | done v => exact hp
  | step e k ih => exact ⟨h e hp.1, hp.2.1, fun r ↦ ih r (hp.2.2 r)⟩

theorem Disciplined.within {p : CacheProgram Sql V α} (h : Disciplined allowed p n m) :
    p.Within allowed fun _ _ ↦ True := by
  induction p generalizing n with
  | done v => trivial
  | step e k ih => exact ⟨h.1, fun r _ ↦ ih r (h.2.2 r)⟩

theorem disciplined_done (v : Except CacheError α) :
    Disciplined allowed (.done v : CacheProgram Sql V α) n n := Eq.refl n

theorem disciplined_ask (e : CacheEffect Sql V) (he : allowed e) (hfree : e.Free) :
    Disciplined allowed (ask e) n n := by
  refine ⟨he, fun hlock ↦ ?_, fun r ↦ ?_⟩
  · cases e <;> first | exact hlock.elim | exact hfree.elim
  · cases e <;> first | exact hfree.elim | exact Eq.refl n

theorem disciplined_update (u : Update) (he : allowed (.update u)) :
    Disciplined allowed (update u : CacheProgram Sql V Unit) (n + 1) (n + 1) :=
  ⟨he, fun _ ↦ n.succ_pos, fun _ ↦ Eq.refl _⟩

theorem disciplined_onlyIf (c : Prop) [Decidable c] {p : CacheProgram Sql V Unit}
    (h : Disciplined allowed p n n) : Disciplined allowed (onlyIf c p) n n := by
  unfold onlyIf
  split
  · exact h
  · exact disciplined_done _

theorem disciplined_orUnavailable {p : CacheProgram Sql V α} (h : Disciplined allowed p n n) :
    Disciplined allowed (orUnavailable p) n n := by
  apply h.andThen
  intro v
  cases v <;> exact disciplined_done _

theorem disciplined_withLock {p : CacheProgram Sql V α} (hacquire : allowed .acquire)
    (hrelease : allowed .release) (h : Disciplined allowed p (n + 1) (n + 1)) :
    Disciplined allowed (withLock p) n n := by
  refine ⟨hacquire, nofun, fun r ↦ ?_⟩
  cases r with
  | error x => exact disciplined_done _
  | ok _ =>
      apply h.andThen
      intro v
      refine ⟨hrelease, fun _ ↦ n.succ_pos, fun r ↦ ?_⟩
      cases r <;> exact disciplined_done _

section Methods

open CacheEffect

theorem disciplined_getGenerationLoop (scope : Scope) (attempts : ℕ) :
    Disciplined Plain (getGenerationLoop scope attempts : CacheProgram Sql V Str) n n := by
  induction attempts with
  | zero => exact disciplined_done _
  | succ attempts ih =>
      apply (disciplined_ask (.tokenGet scope) trivial trivial).bind
      intro raw
      cases raw with
      | some raw => exact disciplined_done _
      | none =>
          apply (disciplined_ask .newGeneration trivial trivial).bind
          intro token
          exact (disciplined_ask (.tokenWrite scope token true) trivial trivial).bind fun _ ↦ ih

theorem disciplined_getGeneration (scope : Scope) :
    Disciplined Plain (getGeneration scope : CacheProgram Sql V Str) n n := by
  apply disciplined_orUnavailable
  apply (disciplined_ask .generationWriter trivial trivial).bind
  exact fun _ ↦ disciplined_getGenerationLoop scope 3

theorem disciplined_getEach (scopes : List Scope) :
    Disciplined Plain (getEach scopes : CacheProgram Sql V (List (Scope × Str))) n n := by
  induction scopes with
  | nil => exact disciplined_done _
  | cons scope rest ih =>
      apply (disciplined_getGeneration scope).bind
      intro token
      exact ih.bind fun _ ↦ disciplined_done _

theorem disciplined_readRaw (scopes : List Scope) :
    Disciplined Plain (readRaw scopes : CacheProgram Sql V (List (Scope × Option Raw))) n n := by
  induction scopes with
  | nil => exact disciplined_done _
  | cons scope rest ih =>
      apply (disciplined_ask (.tokenGet scope) trivial trivial).bind
      intro raw
      exact ih.bind fun _ ↦ disciplined_done _

theorem disciplined_getGenerations (readMany : Bool) (scopes : List Scope) :
    Disciplined Plain (getGenerations readMany scopes : CacheProgram Sql V (List (Scope × Str)))
      n n := by
  unfold getGenerations
  split
  · exact disciplined_done _
  · apply disciplined_orUnavailable
    apply (disciplined_ask .generationWriter trivial trivial).bind
    intro _
    split
    · apply (disciplined_readRaw _).bind
      intro raws
      apply (disciplined_done (QuerySetCache.validatePresent raws)).bind
      intro present
      exact (disciplined_getEach _).bind fun _ ↦ disciplined_done _
    · exact disciplined_getEach _

theorem disciplined_rotateValidated (scope : Scope) :
    Disciplined Rotating (rotateValidated scope : CacheProgram Sql V Unit) n n := by
  have hrotate : Disciplined Rotating (rotateGeneration scope : CacheProgram Sql V Str) n n := by
    apply (disciplined_ask .newGeneration trivial trivial).bind
    intro token
    apply disciplined_orUnavailable
    apply (disciplined_ask .generationWriter trivial trivial).bind
    intro _
    apply (disciplined_ask (.tokenWrite scope token false) trivial trivial).bind
    intro written
    cases written <;> exact disciplined_done _
  apply hrotate.bind
  intro token
  exact (disciplined_done (validateGeneration (.str token))).bind fun _ ↦ disciplined_done _

theorem disciplined_rotateForWrite (scope : Scope) :
    Disciplined Rotating (rotateForWrite scope : CacheProgram Sql V Unit) (n + 1) (n + 1) := by
  apply (disciplined_update (.addPending scope) trivial).bind
  intro _
  apply (disciplined_rotateValidated scope).andThen
  intro v
  cases v with
  | ok _ => exact disciplined_update (.discardPending scope) trivial
  | error x => exact disciplined_done _

theorem disciplined_rotatePending (scopes : List Scope) :
    Disciplined Plain (rotatePending scopes : CacheProgram Sql V Unit) (n + 1) (n + 1) := by
  induction scopes with
  | nil => exact disciplined_done _
  | cons scope rest ih =>
      apply (disciplined_ask .readState trivial trivial).bind
      intro state
      have hrotate : Disciplined Plain (do
          rotateValidated scope
          update (.discardPending scope) : CacheProgram Sql V Unit) (n + 1) (n + 1) :=
        ((disciplined_rotateValidated scope).mono Rotating.plain).bind
          fun _ ↦ disciplined_update _ trivial
      exact (disciplined_onlyIf _ hrotate).bind fun _ ↦ ih

variable (d : Deployment Sql)

theorem disciplined_readGenerations (scopes : List Scope) :
    Disciplined Plain (readGenerations d scopes : CacheProgram Sql V (List (Scope × Str))) n n := by
  unfold readGenerations
  split
  · apply disciplined_withLock trivial trivial
    apply disciplined_orUnavailable
    apply (disciplined_rotatePending scopes).bind
    intro _
    have htokens : Disciplined Plain
        (readTokens d scopes : CacheProgram Sql V (List (Scope × Str))) (n + 1) (n + 1) := by
      unfold readTokens
      split
      · exact disciplined_getGenerations _ scopes
      · exact disciplined_getEach scopes
    exact htokens.bind fun _ ↦ disciplined_done _
  · exact disciplined_done _

theorem disciplined_generationsMatch (snapshot : KeySnapshot) :
    Disciplined Plain (generationsMatch d snapshot : CacheProgram Sql V Bool) n n := by
  unfold generationsMatch
  split
  · exact disciplined_done _
  · apply (disciplined_readGenerations d _).andThen
    intro v
    split <;> exact disciplined_done _

theorem disciplined_keySnapshot (q : PreparedQuery Sql) :
    Disciplined Plain (keySnapshot d q : CacheProgram Sql V KeySnapshot) n n := by
  apply (disciplined_done q.dependencies).bind
  intro dependencies
  exact (disciplined_readGenerations d _).bind fun _ ↦ disciplined_done _

theorem disciplined_backendGet (snapshot : KeySnapshot) :
    Disciplined Plain (backendGet d snapshot : CacheProgram Sql V (Option V)) n n := by
  have hdetach : ∀ stored : Stored V,
      Disciplined Plain (detach d stored : CacheProgram Sql V (Option V)) n n := by
    intro stored
    cases stored with
    | other => exact disciplined_done _
    | rows v =>
        apply (disciplined_done d.returnsDetached).bind
        intro detached
        cases detached with
        | true => exact disciplined_done _
        | false =>
            exact (disciplined_ask (.copyRows v) trivial trivial).bind fun _ ↦ disciplined_done _
  apply (disciplined_ask (.backendGet snapshot.key) trivial trivial).andThen
  intro v
  rcases v with x | _ | stored
  · dsimp only
    split <;> exact disciplined_done _
  · exact disciplined_done _
  · apply (hdetach stored).andThen
    intro v
    cases v <;> exact disciplined_done _

theorem disciplined_backendSet (snapshot : KeySnapshot) (result : V) :
    Disciplined Plain (backendSet d snapshot result : CacheProgram Sql V Bool) n n := by
  have hresult : Disciplined Plain
      (detachedResult d result : CacheProgram Sql V (Option V)) n n := by
    unfold detachedResult
    split
    · exact disciplined_done _
    · apply (disciplined_ask (.copyRows result) trivial trivial).andThen
      intro v
      cases v <;> exact disciplined_done _
  apply hresult.bind
  intro detached
  cases detached with
  | none => exact disciplined_done _
  | some detached =>
      apply (disciplined_ask (.backendSet snapshot.key detached) trivial trivial).andThen
      intro v
      rcases v with x | _
      · dsimp only
        split <;> exact disciplined_done _
      · exact disciplined_done _

theorem disciplined_registerKey (key : Str) (names : Finset Str) :
    Disciplined Plain (registerKey key names : CacheProgram Sql V Unit) n n :=
  disciplined_withLock trivial trivial (disciplined_update _ trivial)

theorem disciplined_unregisterKey (key : Str) :
    Disciplined Plain (unregisterKey key : CacheProgram Sql V Unit) n n :=
  disciplined_withLock trivial trivial (disciplined_update _ trivial)

theorem disciplined_lookup (snapshot : KeySnapshot) :
    Disciplined Plain (lookup d snapshot : CacheProgram Sql V (Option V)) n n := by
  apply (disciplined_ask .readState trivial trivial).bind
  intro state
  split
  · apply (disciplined_backendGet d snapshot).bind
    intro cached
    cases cached with
    | none => exact disciplined_done _
    | some rows =>
        apply (disciplined_generationsMatch d snapshot).bind
        intro matching
        cases matching with
        | false => exact disciplined_done _
        | true => exact (disciplined_registerKey _ _).bind fun _ ↦ disciplined_done _
  · exact disciplined_done _

theorem disciplined_lookupFenced (snapshot : KeySnapshot) :
    Disciplined Plain (lookupFenced d snapshot : CacheProgram Sql V (Option V × ℕ)) n n := by
  apply (disciplined_lookup d snapshot).bind
  intro cached
  exact (disciplined_ask .readState trivial trivial).bind fun _ ↦ disciplined_done _

theorem disciplined_publish (q : PreparedQuery Sql) (snapshot : KeySnapshot) (generation : ℕ)
    (result : V) :
    Disciplined Plain (publish d q snapshot generation result) (n + 1) (n + 1) := by
  apply (disciplined_ask .readState trivial trivial).bind
  intro state
  apply disciplined_onlyIf
  apply (disciplined_ask (.transactional q) trivial trivial).bind
  intro transactional
  apply disciplined_onlyIf
  apply (disciplined_generationsMatch d snapshot).bind
  intro matching
  apply disciplined_onlyIf
  apply (disciplined_backendSet d snapshot result).bind
  intro stored
  apply disciplined_onlyIf
  exact (disciplined_registerKey _ _).bind fun _ ↦ disciplined_update _ trivial

theorem disciplined_deleteKeys (keys : List Str) (deleted : ℕ) :
    Disciplined Plain (deleteKeys keys deleted : CacheProgram Sql V ℕ) n n := by
  induction keys generalizing deleted with
  | nil => exact disciplined_done _
  | cons key rest ih =>
      apply (disciplined_ask (.backendDelete key) trivial trivial).andThen
      intro v
      cases v with
      | error x => exact ih _
      | ok found => exact (disciplined_unregisterKey key).bind fun _ ↦ ih _

theorem disciplined_clear : Disciplined Plain (clear : CacheProgram Sql V Unit) n n := by
  apply disciplined_withLock trivial trivial
  apply (disciplined_update _ trivial).bind
  intro _
  apply (disciplined_ask .backendClear trivial trivial).andThen
  intro v
  cases v <;> exact disciplined_update _ trivial

end Methods

section Spans

variable (hspan : ∀ c, allowed (.span c))

include hspan

theorem disciplined_suppress (c : SpanCall) :
    Disciplined allowed (Tracing.suppress (spanCall c) : CacheProgram Sql V Unit) n n :=
  (disciplined_ask (.span c) (hspan c) trivial).andThen fun _ ↦ disciplined_done _

theorem disciplined_setAttribute (span : Bool) :
    Disciplined allowed (setAttribute span : CacheProgram Sql V Unit) n n := by
  apply disciplined_onlyIf
  exact (disciplined_ask (.span .setAttribute) (hspan _) trivial).bind fun _ ↦ disciplined_done _

theorem disciplined_enterSpan :
    Disciplined allowed (Tracing.enterSpan spanCall : CacheProgram Sql V (Option Bool)) n n := by
  have hcall : ∀ c, Disciplined allowed (spanCall c : CacheProgram Sql V Bool) n n :=
    fun c ↦ disciplined_ask (.span c) (hspan c) trivial
  have htracer :
      Disciplined allowed (Tracing.getTracer spanCall : CacheProgram Sql V Bool) n n := by
    apply (hcall .getTracer).andThen
    intro v
    cases v <;> exact disciplined_done _
  refine Disciplined.andThen (m := n) (htracer.bind fun tracer ↦ ?_) fun v ↦ ?_
  · cases tracer with
    | false => exact disciplined_done _
    | true => exact (hcall .start).bind fun _ ↦ (hcall .enter).bind fun _ ↦ disciplined_done _
  · cases v <;> exact disciplined_done _

theorem disciplined_novaSpan {body : Bool → CacheProgram Sql V α}
    (hbody : ∀ span, Disciplined allowed (body span) n n) :
    Disciplined allowed (novaSpan body) n n := by
  apply (disciplined_enterSpan hspan).bind
  intro entered
  cases entered with
  | none => exact hbody false
  | some span =>
      apply (hbody span).andThen
      intro v
      cases v with
      | ok a =>
          apply (disciplined_onlyIf _ (disciplined_suppress hspan .setStatus)).bind
          exact fun _ ↦ (disciplined_suppress hspan .exit).bind fun _ ↦ disciplined_done _
      | error x =>
          have hrecord : Disciplined allowed (do
              Tracing.suppress (spanCall .recordException)
              Tracing.suppress (spanCall .setStatus) : CacheProgram Sql V Unit) n n :=
            (disciplined_suppress hspan _).bind fun _ ↦ disciplined_suppress hspan _
          apply (disciplined_onlyIf _ hrecord).bind
          exact fun _ ↦ (disciplined_suppress hspan .exit).bind fun _ ↦ disciplined_done _

end Spans

section Calls

open CacheEffect

variable (d : Deployment Sql)

theorem unguarded_span (c : SpanCall) : (.span c : CacheEffect Sql V).Unguarded := fun _ ↦ nofun

theorem disciplined_sql (q : PreparedQuery Sql) :
    Disciplined Unguarded (runSql q : CacheProgram Sql V V) n n :=
  disciplined_ask (.sql q) (fun _ ↦ nofun) trivial

theorem disciplined_transactional (q : PreparedQuery Sql) :
    Disciplined Unguarded (ask (.transactional q) : CacheProgram Sql V Bool) n n :=
  disciplined_ask (.transactional q) (fun _ ↦ nofun) trivial

theorem disciplined_get (q : PreparedQuery Sql) :
    Disciplined Unguarded (get d q : CacheProgram Sql V (Option V)) n n := by
  apply (disciplined_transactional q).bind
  intro transactional
  cases transactional with
  | true => exact disciplined_done _
  | false =>
      apply ((disciplined_keySnapshot d q).mono Plain.unguarded).andThen
      intro v
      rcases v with (_ | _ | _ | _) | snapshot
      · exact disciplined_done _
      · exact disciplined_done _
      · exact disciplined_done _
      · exact disciplined_done _
      · apply disciplined_novaSpan unguarded_span
        intro span
        have hlocked : Disciplined Plain
            (withLock (lookup d snapshot) : CacheProgram Sql V (Option V)) n n :=
          disciplined_withLock trivial trivial (disciplined_lookup d snapshot)
        apply (hlocked.mono Plain.unguarded).bind
        exact fun _ ↦ (disciplined_setAttribute unguarded_span span).bind fun _ ↦ disciplined_done _

theorem disciplined_fill (q : PreparedQuery Sql) (snapshot : KeySnapshot) (generation : ℕ) :
    Disciplined Unguarded (fill d q snapshot generation : CacheProgram Sql V V) n n := by
  apply disciplined_novaSpan unguarded_span
  intro span
  apply (disciplined_sql q).bind
  intro result
  have hlocked : Disciplined Plain (withLock (publish d q snapshot generation result)) n n :=
    disciplined_withLock trivial trivial (disciplined_publish d q snapshot generation result)
  apply (hlocked.mono Plain.unguarded).bind
  exact fun _ ↦ (disciplined_setAttribute unguarded_span span).bind fun _ ↦ disciplined_done _

theorem disciplined_getOrSet (q : PreparedQuery Sql) :
    Disciplined Unguarded (getOrSet d q : CacheProgram Sql V V) n n := by
  apply (disciplined_transactional q).bind
  intro transactional
  cases transactional with
  | true => exact disciplined_sql q
  | false =>
      apply ((disciplined_keySnapshot d q).mono Plain.unguarded).andThen
      intro v
      rcases v with (_ | _ | _ | _) | snapshot
      · exact disciplined_sql q
      · exact disciplined_sql q
      · exact disciplined_done _
      · exact disciplined_done _
      · have hfound : Disciplined Unguarded (novaSpan fun span ↦ do
            let found ← withLock (lookupFenced d snapshot)
            setAttribute span
            return found : CacheProgram Sql V (Option V × ℕ)) n n := by
          apply disciplined_novaSpan unguarded_span
          intro span
          have hlocked : Disciplined Plain
              (withLock (lookupFenced d snapshot) : CacheProgram Sql V (Option V × ℕ)) n n :=
            disciplined_withLock trivial trivial (disciplined_lookupFenced d snapshot)
          apply (hlocked.mono Plain.unguarded).bind
          exact fun _ ↦
            (disciplined_setAttribute unguarded_span span).bind fun _ ↦ disciplined_done _
        apply hfound.bind
        rintro ⟨_ | rows, generation⟩
        · exact disciplined_fill d q snapshot generation
        · exact disciplined_done _

end Calls

end QuerySetCache

end DjangoNova
