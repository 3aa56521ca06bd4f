import DjangoNova.Cache.LockDiscipline
import DjangoNova.Concurrency.Erasure

/-!
# The tracing provider of the cache

The calls of the cache over any machine, with a provider that answers the
span effects as it likes and changes nothing else. As long as
`set_attribute` does not raise, the outcomes are those of a run in which no
tracer is available.
-/

namespace DjangoNova

open Program

section Effects

variable {Sql V α : Type}

namespace CacheEffect

/-- `set_attribute` does not raise. -/
def CalmReply (e : CacheEffect Sql V) (r : Except CacheError e.Reply) : Prop :=
  match e, r with
  | .span .setAttribute, .error _ => False
  | _, _ => True

instance : ∀ (e : CacheEffect Sql V) (r : Except CacheError e.Reply), Decidable (CalmReply e r)
  | .span .setAttribute, .error _ => .isFalse id
  | .span .setAttribute, .ok _ | .span .getTracer, _ | .span .start, _ | .span .enter, _
  | .span .setStatus, _ | .span .recordException, _ | .span .exit, _ | .acquire, _ | .release, _
  | .readState, _ | .update _, _ | .transactional _, _ | .sql _, _ | .copyRows _, _
  | .backendGet _, _ | .backendSet _ _, _ | .backendDelete _, _ | .backendClear, _
  | .generationWriter, _ | .newGeneration, _ | .tokenGet _, _ | .tokenWrite _ _ _, _
  | .keyOrder _, _ => .isTrue trivial

/-- The reply when no tracer is available. -/
def untraced : (e : CacheEffect Sql V) → Except CacheError e.Reply
  | .span _ => .ok false
  | _ => .error .generationUnavailable

end CacheEffect

/-- The machine with a provider that may answer a span effect in any way. -/
def Machine.withProvider {T W Choice : Type}
    (M : Machine T (CacheEffect Sql V) CacheEffect.Reply CacheError W Choice) :
    Machine T (CacheEffect Sql V) CacheEffect.Reply CacheError W
      (Choice ⊕ Except CacheError Bool) where
  perform := fun t e c w ↦
    match e, c with
    | .span _, .inr r => some (r, w)
    | .span _, .inl _ => none
    | e, .inl c => M.perform t e c w
    | _, .inr _ => none
  environment := fun c w ↦
    match c with
    | .inl c => M.environment c w
    | .inr _ => none

end Effects

namespace QuerySetCache

variable {Sql V α : Type}

abbrev Untraced (p : CacheProgram Sql V α) : Prop := p.Loud CacheEffect.Silent

/-- The program `p` with its spans does what `q` does without a tracer. -/
abbrev Traces (p q : CacheProgram Sql V α) : Prop :=
  Transparent CacheEffect.Silent CacheEffect.CalmReply CacheEffect.untraced p q

theorem Disciplined.untraced {p : CacheProgram Sql V α} {n m : ℕ}
    (h : Disciplined CacheEffect.Plain p n m) : Untraced p := by
  refine h.within.mono fun e he ↦ ?_
  cases e with
  | span c => exact he.elim
  | _ => exact id

theorem untraced_ask (e : CacheEffect Sql V) (he : ¬e.Silent) : Untraced (ask e) := within_call he

section Traces

/-- Without a tracer the block runs without a span. -/
theorem strip_novaSpan (body : Bool → CacheProgram Sql V α) :
    strip CacheEffect.Silent CacheEffect.untraced (novaSpan body) =
      strip CacheEffect.Silent CacheEffect.untraced (body false) := rfl

theorem spanCall_silent : Tracing.Silent (CacheEffect.Silent : CacheEffect Sql V → Prop)
    CacheEffect.CalmReply spanCall := by
  constructor
  · exact fun c ↦ ⟨trivial, fun _ _ ↦ trivial⟩
  · refine ⟨trivial, fun r hr ↦ ?_⟩
    cases r with
    | ok b => exact ⟨b, rfl⟩
    | error x => exact hr.elim

theorem traces_novaSpan {body : Bool → CacheProgram Sql V α}
    (hbody : ∀ span, Traces (body span) (body false)) :
    Traces (novaSpan body) (novaSpan body) := by
  unfold Traces Transparent
  rw [strip_novaSpan]
  exact Tracing.novaSpan_erases spanCall_silent.any hbody

theorem traces_setAttribute (span : Bool) :
    Traces (setAttribute span : CacheProgram Sql V Unit) (setAttribute false) :=
  (Tracing.setAttribute_ends spanCall_silent span).erases_done

theorem traces_withLock {p q : CacheProgram Sql V α} (h : Traces p q) :
    Traces (withLock p) (withLock q) := by
  apply (untraced_ask .acquire id).transparent.bind
  intro _
  exact h.tryFinally (untraced_ask .release id)

variable (d : Deployment Sql)

theorem traces_get (q : PreparedQuery Sql) :
    Traces (get d q : CacheProgram Sql V (Option V)) (get d q) := by
  apply (untraced_ask (.transactional q) id).transparent.bind
  intro transactional
  cases transactional with
  | true => exact .done _
  | false =>
      apply (disciplined_keySnapshot (n := 0) d q).untraced.transparent.andThen
      intro v
      cases v with
      | error x => cases x <;> exact .done _
      | ok snapshot =>
          apply traces_novaSpan
          intro span
          have hlookup : Disciplined CacheEffect.Plain
              (withLock (lookup d snapshot) : CacheProgram Sql V (Option V)) 0 0 :=
            disciplined_withLock trivial trivial (disciplined_lookup d snapshot)
          apply hlookup.untraced.transparent.bind
          intro cached
          exact (traces_setAttribute span).bind fun _ ↦ .done _

theorem traces_fill (q : PreparedQuery Sql) (snapshot : KeySnapshot) (generation : ℕ) :
    Traces (fill d q snapshot generation : CacheProgram Sql V V)
      (fill d q snapshot generation) := by
  apply traces_novaSpan
  intro span
  apply (untraced_ask (.sql q) id).transparent.bind
  intro result
  have hpublish : Disciplined CacheEffect.Plain
      (withLock (publish d q snapshot generation result)) 0 0 :=
    disciplined_withLock trivial trivial (disciplined_publish d q snapshot generation result)
  apply hpublish.untraced.transparent.bind
  intro _
  exact (traces_setAttribute span).bind fun _ ↦ .done _

theorem traces_getOrSet (q : PreparedQuery Sql) :
    Traces (getOrSet d q : CacheProgram Sql V V) (getOrSet d q) := by
  have hsql : Traces (runSql q : CacheProgram Sql V V) (runSql q) :=
    (untraced_ask (.sql q) id).transparent
  apply (untraced_ask (.transactional q) id).transparent.bind
  intro transactional
  cases transactional with
  | true => exact hsql
  | false =>
      apply (disciplined_keySnapshot (n := 0) d q).untraced.transparent.andThen
      intro v
      cases v with
      | error x =>
          cases x with
          | uncacheableQuery => exact hsql
          | generationUnavailable => exact hsql
          | _ => exact .done _
      | ok snapshot =>
          have hlookup : Traces (novaSpan fun span ↦ do
              let found ← withLock (lookupFenced d snapshot)
              setAttribute span
              return found : CacheProgram Sql V (Option V × ℕ)) (novaSpan fun span ↦ do
              let found ← withLock (lookupFenced d snapshot)
              setAttribute span
              return found) := by
            apply traces_novaSpan
            intro span
            have hfenced : Disciplined CacheEffect.Plain
                (withLock (lookupFenced d snapshot) : CacheProgram Sql V (Option V × ℕ)) 0 0 :=
              disciplined_withLock trivial trivial (disciplined_lookupFenced d snapshot)
            apply hfenced.untraced.transparent.bind
            intro found
            exact (traces_setAttribute span).bind fun _ ↦ .done _
          apply hlookup.bind
          rintro ⟨cached, generation⟩
          cases cached with
          | some rows => exact .done _
          | none => exact traces_fill d q snapshot generation

theorem traces_invalidateLocked (span : Bool) (modelName db : Str) :
    Traces (invalidateLocked d span modelName db : CacheProgram Sql V (Option ℕ))
      (invalidateLocked d false modelName db) := by
  apply (untraced_ask (.update .bumpGeneration) id).transparent.bind
  intro _
  have hrotate : Disciplined CacheEffect.Plain (Tracing.onlyIf d.generation
      (rotateForWrite (generationScope (shortModelName d.lower modelName) db) :
        CacheProgram Sql V Unit)) 1 1 :=
    disciplined_onlyIf _ ((disciplined_rotateForWrite _).mono CacheEffect.Rotating.plain)
  apply hrotate.untraced.transparent.bind
  intro _
  apply (untraced_ask .readState id).transparent.bind
  intro state
  dsimp only
  split
  · exact (traces_setAttribute span).bind fun _ ↦ .done _
  · apply (untraced_ask (.update _) id).transparent.bind
    intro _
    apply (untraced_ask (.keyOrder _) id).transparent.bind
    intro order
    apply (disciplined_deleteKeys (n := 1) order 0).untraced.transparent.bind
    exact fun _ ↦ .done _

theorem traces_invalidateModel (modelName db : Str) :
    Traces (invalidateModel d modelName db : CacheProgram Sql V ℕ)
      (invalidateModel d modelName db) := by
  apply traces_novaSpan
  intro span
  split
  · exact (traces_setAttribute span).bind fun _ ↦ .done _
  · apply (traces_withLock (traces_invalidateLocked d span modelName db)).bind
    intro counted
    cases counted with
    | none => exact .done _
    | some deleted => exact (traces_setAttribute span).bind fun _ ↦ .done _

theorem traces_program (c : CacheCall Sql) :
    Traces (c.program d : CacheProgram Sql V (CacheResult V)) (c.program d) := by
  cases c with
  | get q =>
      apply (traces_get d q).bind
      intro rows
      cases rows <;> exact .done _
  | getOrSet q => exact (traces_getOrSet d q).bind fun _ ↦ .done _
  | invalidateModel modelName db =>
      exact (traces_invalidateModel d modelName db).bind fun _ ↦ .done _
  | clear => exact (disciplined_clear (n := 0)).untraced.transparent.bind fun _ ↦ .done _

end Traces

end QuerySetCache

section Runs

open Transition

variable {T Sql V W Choice : Type} [DecidableEq T]

/-- The turns of the cache calls `call` over `M`, with a tracing provider. -/
def tracedStep (d : Deployment Sql) (call : T → CacheCall Sql)
    (M : Machine T (CacheEffect Sql V) CacheEffect.Reply CacheError W Choice) :=
  Pool.step M.withProvider fun t ↦ (call t).program (V := V) d

/-- No call of `set_attribute` raises. -/
def CalmTurn (M : Machine T (CacheEffect Sql V) CacheEffect.Reply CacheError W Choice) :
    Pool T (CacheEffect Sql V) CacheEffect.Reply CacheError (CacheResult V) W →
      Turn T (Choice ⊕ Except CacheError Bool) → Prop :=
  Answers M.withProvider CacheEffect.CalmReply

instance (M : Machine T (CacheEffect Sql V) CacheEffect.Reply CacheError W Choice)
    (p : Pool T (CacheEffect Sql V) CacheEffect.Reply CacheError (CacheResult V) W) :
    DecidablePred (CalmTurn M p) := decidableAnswers p

/-- No tracer is available. -/
def UntracedTurn (M : Machine T (CacheEffect Sql V) CacheEffect.Reply CacheError W Choice) :
    Pool T (CacheEffect Sql V) CacheEffect.Reply CacheError (CacheResult V) W →
      Turn T (Choice ⊕ Except CacheError Bool) → Prop :=
  Answers M.withProvider (Inertly CacheEffect.Silent CacheEffect.untraced)

/-- Every calm run is matched by a run without a tracer. -/
theorem cache_transparent {d : Deployment Sql} {call : T → CacheCall Sql}
    {M : Machine T (CacheEffect Sql V) CacheEffect.Reply CacheError W Choice} {w₀ : W}
    {p : Pool T (CacheEffect Sql V) CacheEffect.Reply CacheError (CacheResult V) W}
    (h : Reaches (tracedStep d call M) (CalmTurn M) (Pool.start w₀) p) :
    ∃ q, Reaches (tracedStep d call M) (UntracedTurn M) (Pool.start w₀) q ∧ q.world = p.world ∧
      ∀ t v, p.outcome t = some v → q.outcome t = some v := by
  have hsilent : ∀ t (e : CacheEffect Sql V) c w r w', e.Silent →
      M.withProvider.perform t e c w = some (r, w') → w' = w := by
    intro t e c w r w' he hperform
    cases e with
    | span s =>
        cases c with
        | inl c => cases hperform
        | inr r =>
            cases hperform
            rfl
    | _ => exact he.elim
  have hanswer : ∀ t (e : CacheEffect Sql V) w, e.Silent →
      ∃ c, M.withProvider.perform t e c w = some (e.untraced, w) := by
    intro t e w he
    cases e with
    | span s => exact ⟨.inr (.ok false), rfl⟩
    | _ => exact he.elim
  obtain ⟨q, hq, hsame⟩ := erases_run hsilent (fun t ↦ QuerySetCache.traces_program d (call t)) h
  obtain ⟨q', hq', hsame'⟩ := inert_run hanswer hq
  refine ⟨q', hq', hsame'.world.trans hsame.world.symm, fun t v hv ↦ ?_⟩
  rw [hsame'.outcome_eq]
  exact hsame.outcome hv

end Runs

end DjangoNova
