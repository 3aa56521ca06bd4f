import DjangoNova.Concurrency.Pool
import DjangoNova.Cache.QuerySetCache

/-!
# Rules for traced method bodies

Where the calls of the tracing provider keep every stable assertion, the
tracing code around a method body disappears from its judgement. The
rules hold over any machine of the cache effects.
-/

namespace DjangoNova

open Protocol

variable {T W Choice Sql V α : Type}
variable {Γ : Protocol T (CacheEffect Sql V) CacheEffect.Reply CacheError W Choice}
variable {t : T} {pre : W → Prop}

theorem triple_onlyIf {c : Prop} [Decidable c] {p : CacheProgram Sql V Unit}
    {post : Except CacheError Unit → W → Prop}
    (hp : c → Γ.Triple t pre p post) (hskip : ¬c → ∀ w, Γ.inv w → pre w → post (.ok ()) w) :
    Γ.Triple t pre (Tracing.onlyIf c p) post := by
  by_cases hc : c
  · simpa only [Tracing.onlyIf, if_pos hc] using hp hc
  · simpa only [Tracing.onlyIf, if_neg hc] using Protocol.Triple.pure () (hskip hc)

/-- The calls of the provider keep every stable assertion of the thread. -/
def QuietSpans (Γ : Protocol T (CacheEffect Sql V) CacheEffect.Reply CacheError W Choice)
    (t : T) : Prop :=
  ∀ pre, Γ.Stable t pre → ∀ c, Γ.Triple t pre (QuerySetCache.spanCall c) fun _ w ↦ pre w

namespace QuietSpans

variable (hΓ : QuietSpans Γ t)

include hΓ

theorem suppress (hpre : Γ.Stable t pre) (c : SpanCall) :
    Γ.Triple t pre (Tracing.suppress (QuerySetCache.spanCall c))
      (Ends (fun _ ↦ pre) fun _ _ ↦ False) :=
  (hΓ pre hpre c).andThen fun _ ↦ Triple.pure () fun _ _ h ↦ h

theorem setAttribute (hpre : Γ.Stable t pre) (span : Bool) :
    Γ.Triple t pre (QuerySetCache.setAttribute span) fun _ w ↦ pre w := by
  refine triple_onlyIf (fun _ ↦ ?_) fun _ _ _ h ↦ h
  exact Triple.bind (hΓ pre hpre _) (fun _ ↦ Triple.pure () fun _ _ h ↦ h) fun _ _ _ h ↦ h

theorem enterSpan (hpre : Γ.Stable t pre) :
    Γ.Triple t pre (Tracing.enterSpan QuerySetCache.spanCall)
      (Ends (fun _ ↦ pre) fun _ _ ↦ False) := by
  have htracer : Γ.Triple t pre (Tracing.getTracer QuerySetCache.spanCall) (fun _ w ↦ pre w) :=
    Triple.tryCatch (hΓ pre hpre _) (fun _ _ _ h ↦ h) fun _ ↦ Triple.pure _ fun _ _ h ↦ h
  refine Triple.tryCatch (Q := fun _ w ↦ pre w) ?_ (fun _ _ _ h ↦ h)
    fun _ ↦ Triple.pure _ fun _ _ h ↦ h
  refine htracer.bind (fun tracer ↦ ?_) fun _ _ _ h ↦ h
  cases tracer with
  | false => exact Triple.pure _ fun _ _ h ↦ h
  | true =>
      refine Triple.bind (hΓ pre hpre _) (fun _ ↦ ?_) fun _ _ _ h ↦ h
      exact Triple.bind (hΓ pre hpre _) (fun _ ↦ Triple.pure _ fun _ _ h ↦ h) fun _ _ _ h ↦ h

/-- The tracing code hands the outcome of the body through. -/
theorem novaSpan {post : Except CacheError α → W → Prop} {body : Bool → CacheProgram Sql V α}
    (hpre : Γ.Stable t pre) (hpost : ∀ v, Γ.Stable t (post v))
    (hbody : ∀ span, Γ.Triple t pre (body span) post) :
    Γ.Triple t pre (QuerySetCache.novaSpan body) post := by
  refine (hΓ.enterSpan hpre).bind (fun entered ↦ ?_) fun _ _ _ h ↦ h.elim
  cases entered with
  | none => exact hbody false
  | some span =>
      refine (hbody span).andThen fun v ↦ ?_
      have hcall := hΓ.suppress (hpost v)
      cases v with
      | ok a =>
          refine Triple.bind (Q := Ends (fun _ ↦ post (.ok a)) fun _ _ ↦ False)
            (triple_onlyIf (fun _ ↦ hcall _) fun _ _ _ h ↦ h) (fun _ ↦ ?_) fun _ _ _ h ↦ h.elim
          exact (hcall _).bind (fun _ ↦ Triple.pure a fun _ _ h ↦ h) fun _ _ _ h ↦ h.elim
      | error x =>
          refine Triple.bind (Q := Ends (fun _ ↦ post (.error x)) fun _ _ ↦ False)
            (triple_onlyIf (fun _ ↦ ?_) fun _ _ _ h ↦ h) (fun _ ↦ ?_) fun _ _ _ h ↦ h.elim
          · exact (hcall _).bind (fun _ ↦ hcall _) fun _ _ _ h ↦ h.elim
          · exact (hcall _).bind (fun _ ↦ Triple.throw x fun _ _ h ↦ h) fun _ _ _ h ↦ h.elim

end QuietSpans

end DjangoNova
