import DjangoNova.Cache.LocalProtocol
import DjangoNova.Concurrency.Keeping

/-!
# What the answers of reading calls tell

Under a protocol that all programs keep, a fact about the rows that SQL
reads and about the rows that a guarded lookup finds is one about all rows
that `get` and `get_or_set` return. The rules hold over any machine of the
cache effects.
-/

namespace DjangoNova

open Protocol QuerySetCache

variable {T W Choice Sql V α : Type}
variable {Γ : Protocol T (CacheEffect Sql V) CacheEffect.Reply CacheError W Choice}
variable {t : T} {d : Deployment Sql} {A : W → Prop}

namespace Protocol.Keeping

variable (hΓ : Γ.Keeping)

include hΓ

theorem spans : QuietSpans Γ t := fun _ hpre c ↦ hΓ.program hpre (spanCall c)

theorem withLock {Q : α → W → Prop} (hA : Γ.Stable t A) (hQ : ∀ a, Γ.Stable t (Q a))
    {body : CacheProgram Sql V α} (hbody : Γ.Triple t A body (Ends Q fun _ _ ↦ True)) :
    Γ.Triple t A (withLock body) (Ends Q fun _ _ ↦ True) := by
  refine hΓ.before hA (ask .acquire) fun _ ↦ hbody.andThen fun v ↦ ?_
  cases v with
  | ok a => exact hΓ.returned (hQ a) _
  | error x =>
      have hstable : Γ.Stable t fun _ ↦ True := fun _ _ _ _ _ h ↦ h
      exact Triple.bind (hΓ.program hstable _) (fun _ ↦ Triple.done _ fun _ _ _ ↦ trivial)
        fun _ _ _ _ ↦ trivial

theorem spanLock {Q : α → W → Prop} (hA : Γ.Stable t A) (hQ : ∀ a, Γ.Stable t (Q a))
    {body : CacheProgram Sql V α} (hbody : Γ.Triple t A body (Ends Q fun _ _ ↦ True)) :
    Γ.Triple t A
      (novaSpan fun span ↦ do
        let a ← QuerySetCache.withLock body
        setAttribute span
        return a)
      (Ends Q fun _ _ ↦ True) := by
  refine hΓ.spans.novaSpan hA (stable_ends hQ) fun span ↦ ?_
  exact (hΓ.withLock hA hQ hbody).bind (fun a ↦ hΓ.returned (hQ a) _) fun _ _ _ _ ↦ trivial

end Protocol.Keeping

/-- What a lookup found, if it found rows, satisfies `G`. -/
abbrev Finds (A : W → Prop) (G : V → W → Prop) (cached : Option V) (w : W) : Prop :=
  A w ∧ ∀ v, cached = some v → G v w

theorem stable_finds {G : V → W → Prop} (hA : Γ.Stable t A) (hG : ∀ v, Γ.Stable t (G v))
    (cached : Option V) : Γ.Stable t (Finds A G cached) :=
  fun w w' hw hw' hrely hfound ↦ ⟨hA w w' hw hw' hrely hfound.1,
    fun v hv ↦ hG v w w' hw hw' hrely (hfound.2 v hv)⟩

/-- Rows that a call of `t` gets for `q` satisfy `G`, whether SQL read them
or the cache served them, if `A` holds when the call begins. -/
structure Sourced (Γ : Protocol T (CacheEffect Sql V) CacheEffect.Reply CacheError W Choice)
    (t : T) (d : Deployment Sql) (q : PreparedQuery Sql) (A : W → Prop) (G : V → W → Prop) :
    Prop where
  stable : Γ.Stable t A
  rows (v : V) : Γ.Stable t (G v)
  sql : Γ.Triple t A (runSql q) (Ends G fun _ _ ↦ True)
  lookup : Γ.Triple t A (keySnapshot d q)
    (Ends (fun snapshot w ↦ A w ∧ Γ.Triple t A (lookup d snapshot)
      (Ends (Finds A G) fun _ _ ↦ True)) fun _ ↦ A)

namespace Sourced

variable {q : PreparedQuery Sql} {G : V → W → Prop} (h : Sourced Γ t d q A G) (hΓ : Γ.Keeping)

include h hΓ

theorem get : Γ.Triple t A (QuerySetCache.get d q) (Ends (Finds A G) fun _ _ ↦ True) := by
  have hmiss : Γ.Triple t A (pure none) (Ends (Finds A G) fun _ _ ↦ True) :=
    Triple.pure none fun _ _ h ↦ ⟨h, fun _ hv ↦ by cases hv⟩
  refine hΓ.before h.stable (ask (.transactional q)) fun transactional ↦ ?_
  cases transactional with
  | true => exact hmiss
  | false =>
      refine h.lookup.andThen fun v ↦ ?_
      cases v with
      | ok snapshot =>
          exact Triple.fact fun hlookup ↦
            hΓ.spanLock h.stable (stable_finds h.stable h.rows) hlookup
      | error x =>
          cases x with
          | uncacheableQuery | generationUnavailable => exact hmiss
          | typeError | raised => exact Triple.throw _ fun _ _ _ ↦ trivial

theorem fill {snapshot : KeySnapshot} (generation : ℕ) :
    Γ.Triple t A (fill d q snapshot generation) (Ends G fun _ _ ↦ True) := by
  refine hΓ.spans.novaSpan h.stable (stable_ends h.rows) fun span ↦ ?_
  refine h.sql.bind (fun rows ↦ ?_) fun _ _ _ _ ↦ trivial
  refine Triple.bind (hΓ.program (h.rows rows) _) (fun _ ↦ ?_) fun _ _ _ _ ↦ trivial
  exact hΓ.returned (h.rows rows) _

theorem lookupFenced {snapshot : KeySnapshot}
    (hlookup : Γ.Triple t A (QuerySetCache.lookup d snapshot)
      (Ends (Finds A G) fun _ _ ↦ True)) :
    Γ.Triple t A (lookupFenced d snapshot)
      (Ends (fun found ↦ Finds A G found.1) fun _ _ ↦ True) := by
  refine hlookup.bind (fun cached ↦ ?_) fun _ _ _ _ ↦ trivial
  exact Triple.bind (hΓ.program (stable_finds h.stable h.rows cached) _)
    (fun _ ↦ Triple.pure _ fun _ _ h ↦ h) fun _ _ _ _ ↦ trivial

theorem getOrSet : Γ.Triple t A (QuerySetCache.getOrSet d q) (Ends G fun _ _ ↦ True) := by
  refine hΓ.before h.stable (ask (.transactional q)) fun transactional ↦ ?_
  cases transactional with
  | true => exact h.sql
  | false =>
      refine h.lookup.andThen fun v ↦ ?_
      cases v with
      | error x =>
          cases x with
          | uncacheableQuery | generationUnavailable => exact h.sql
          | typeError | raised => exact Triple.throw _ fun _ _ _ ↦ trivial
      | ok snapshot =>
          refine Triple.fact fun hlookup ↦ ?_
          refine Triple.bind (hΓ.spanLock h.stable
            (fun found ↦ stable_finds h.stable h.rows found.1) (h.lookupFenced hΓ hlookup))
            (fun found ↦ ?_) fun _ _ _ _ ↦ trivial
          obtain ⟨cached, generation⟩ := found
          cases cached with
          | some rows => exact Triple.pure rows fun _ _ hfound ↦ hfound.2 rows rfl
          | none =>
              exact (h.fill hΓ generation).consequence (fun _ _ hfound ↦ hfound.1)
                fun _ _ _ h ↦ h

end Sourced

/-- Rows that the call returned satisfy `G` for its query. -/
def Answered (G : PreparedQuery Sql → V → W → Prop) (c : CacheCall Sql) :
    Except CacheError (CacheResult V) → W → Prop
  | .ok (.rows v), w => ∀ q, c.reads = some q → G q v w
  | _, _ => True

variable {G : PreparedQuery Sql → V → W → Prop} {c : CacheCall Sql}

theorem stable_answered (hG : ∀ q v, Γ.Stable t (G q v))
    (v : Except CacheError (CacheResult V)) : Γ.Stable t (Answered G c v) := by
  intro w w' hw hw' hrely h
  cases v with
  | error x => trivial
  | ok result =>
      cases result with
      | rows v => exact fun q hq ↦ hG q v w w' hw hw' hrely (h q hq)
      | miss | count | unit => trivial

/-- The answers of a call, from those of its reads. -/
theorem answered_call (hΓ : Γ.Keeping) (hA : Γ.Stable t A)
    (h : ∀ q, c.reads = some q → Sourced Γ t d q A (G q)) :
    Γ.Triple t A (c.program d) (Answered G c) := by
  cases c with
  | get q =>
      refine ((h q rfl).get hΓ).bind (fun cached ↦ ?_) fun _ _ _ _ ↦ trivial
      cases cached with
      | none => exact Triple.pure _ fun _ _ _ ↦ trivial
      | some rows =>
          refine Triple.pure _ fun _ _ hfound q' hq' ↦ ?_
          obtain rfl : q = q' := Option.some.inj hq'
          exact hfound.2 rows rfl
  | getOrSet q =>
      refine ((h q rfl).getOrSet hΓ).bind (fun rows ↦ ?_) fun _ _ _ _ ↦ trivial
      refine Triple.pure _ fun _ _ hrows q' hq' ↦ ?_
      obtain rfl : q = q' := Option.some.inj hq'
      exact hrows
  | invalidateModel modelName db =>
      exact Triple.bind (hΓ.program hA _) (fun _ ↦ Triple.pure _ fun _ _ _ ↦ trivial)
        fun _ _ _ _ ↦ trivial
  | clear =>
      exact Triple.bind (hΓ.program hA _) (fun _ ↦ Triple.pure _ fun _ _ _ ↦ trivial)
        fun _ _ _ _ ↦ trivial

end DjangoNova
