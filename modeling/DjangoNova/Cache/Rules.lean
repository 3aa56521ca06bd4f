import DjangoNova.Cache.SpanRules
import DjangoNova.Cache.World

/-!
# Rules for cache programs

Most effects only observe the world. A protocol `Respects` the cache
machine when such quiet effects keep its invariant and are harmless to
every thread; then every stable assertion survives them.
-/

namespace DjangoNova

variable {T P Sql D : Type} [DecidableEq P] [DecidableEq T]

/-- The effects that change nothing but the log. -/
def CacheEffect.Quiet {V : Type} : CacheEffect Sql V → Prop
  | .readState | .transactional _ | .sql _ | .copyRows _ | .backendGet _ | .generationWriter
  | .tokenGet _ | .keyOrder _ | .span _ => True
  | _ => False

namespace CacheWorld

variable {proc : T → P} {t : T} {w w' : CacheWorld T P Sql D}

attribute [local simp] act

theorem act_quiet {e : CacheEffect Sql (Rows D)} (he : e.Quiet) {c : CacheChoice D}
    {r : Except CacheError e.Reply} (h : w.act proc t e c = some (r, w')) : w' = w := by
  cases e <;> simp only [CacheEffect.Quiet] at he <;> cases c <;>
    simp only [act, Option.some.injEq, Prod.mk.injEq, reduceCtorEq, Option.ite_none_right_eq_some]
      at h <;> simp_all

/-! What each effect can do, with the choice that makes it do so. -/

theorem act_readState {c : CacheChoice D} {r : Except CacheError CacheState}
    (h : w.act proc t .readState c = some (r, w')) : r = .ok (w.states (proc t)) := by
  cases c <;> simp only [act, reduceCtorEq, Option.some.injEq, Prod.mk.injEq] at h
  exact h.1.symm

theorem act_update {u : Update} {c : CacheChoice D} {r : Except CacheError Unit}
    (h : w.act proc t (.update u) c = some (r, w')) :
    r = .ok () ∧ w' = w.applyUpdate (proc t) u := by
  cases c <;> simp only [act, reduceCtorEq, Option.some.injEq, Prod.mk.injEq] at h
  exact ⟨h.1.symm, h.2.symm⟩

theorem act_sql {q : PreparedQuery Sql} {c : CacheChoice D} {r : Except CacheError (Rows D)}
    (h : w.act proc t (.sql q) c = some (r, w')) :
    (∃ x, r = .error x) ∨ ∃ content, r = .ok ⟨content, w.now⟩ := by
  cases c <;> simp only [act, reduceCtorEq, Option.some.injEq, Prod.mk.injEq] at h
  · exact .inl ⟨_, h.1.symm⟩
  · exact .inr ⟨_, h.1.symm⟩

theorem act_copyRows {v : Rows D} {c : CacheChoice D} {r : Except CacheError (Rows D)}
    (h : w.act proc t (.copyRows v) c = some (r, w')) : (∃ x, r = .error x) ∨ r = .ok v := by
  cases c <;> simp only [act, reduceCtorEq, Option.some.injEq, Prod.mk.injEq] at h
  · exact .inr h.1.symm
  · exact .inl ⟨_, h.1.symm⟩

theorem act_backendGet {key : Str} {c : CacheChoice D}
    {r : Except CacheError (Option (Stored (Rows D)))}
    (h : w.act proc t (.backendGet key) c = some (r, w')) :
    (∃ x, r = .error x) ∨ r = .ok (w.entries key) := by
  cases c <;> simp only [act, reduceCtorEq, Option.some.injEq, Prod.mk.injEq] at h
  · exact .inr h.1.symm
  · exact .inl ⟨_, h.1.symm⟩

theorem act_tokenGet {scope : Scope} {c : CacheChoice D} {r : Except CacheError (Option Raw)}
    (h : w.act proc t (.tokenGet scope) c = some (r, w')) :
    (∃ x, r = .error x) ∨ r = .ok (w.tokens scope) := by
  cases c <;> simp only [act, reduceCtorEq, Option.some.injEq, Prod.mk.injEq] at h
  · exact .inr h.1.symm
  · exact .inl ⟨_, h.1.symm⟩

theorem act_backendSet {key : Str} {v : Rows D} {c : CacheChoice D} {r : Except CacheError Unit}
    (h : w.act proc t (.backendSet key v) c = some (r, w')) :
    r = .ok () ∧ w' = w.putEntry key v ∨
      ∃ x applied, c = .fail x applied ∧ r = .error x ∧
        w' = w.applyIf applied (putEntry · key v) := by
  cases c <;> simp only [act, reduceCtorEq, Option.some.injEq, Prod.mk.injEq] at h
  · exact .inl ⟨h.1.symm, h.2.symm⟩
  · exact .inr ⟨_, _, rfl, h.1.symm, h.2.symm⟩

theorem act_backendDelete {key : Str} {c : CacheChoice D} {r : Except CacheError Bool}
    (h : w.act proc t (.backendDelete key) c = some (r, w')) :
    (∃ found, r = .ok found) ∧ w' = w.evictEntry key ∨
      (∃ x, r = .error x) ∧ (w' = w ∨ w' = w.evictEntry key) := by
  cases c <;> simp only [act, reduceCtorEq, Option.some.injEq, Prod.mk.injEq] at h
  · exact .inl ⟨⟨_, h.1.symm⟩, h.2.symm⟩
  · rename_i applied
    refine .inr ⟨⟨_, h.1.symm⟩, ?_⟩
    cases applied
    · exact .inl h.2.symm
    · exact .inr h.2.symm

theorem act_backendClear {c : CacheChoice D} {r : Except CacheError Unit}
    (h : w.act proc t .backendClear c = some (r, w')) :
    r = .ok () ∧ w' = w.clearServer ∨ (∃ x, r = .error x) ∧ (w' = w ∨ w' = w.clearServer) := by
  cases c <;> simp only [act, reduceCtorEq, Option.some.injEq, Prod.mk.injEq] at h
  · exact .inl ⟨h.1.symm, h.2.symm⟩
  · rename_i applied
    refine .inr ⟨⟨_, h.1.symm⟩, ?_⟩
    cases applied
    · exact .inl h.2.symm
    · exact .inr h.2.symm

theorem act_newGeneration {c : CacheChoice D} {r : Except CacheError Str}
    (h : w.act proc t .newGeneration c = some (r, w')) :
    ∃ s, r = .ok s ∧ IsGeneration s ∧ w.reserved s = none ∧
      w' = { w with reserved := Function.update w.reserved s (some t) } := by
  cases c <;> simp only [act, reduceCtorEq, Option.ite_none_right_eq_some, Option.some.injEq,
    Prod.mk.injEq] at h
  exact ⟨_, h.2.1.symm, h.1.1, h.1.2, h.2.2.symm⟩

/-- A metadata write installs the token or not; an overwrite that is not
acknowledged raises the floor of its process. -/
theorem act_tokenWrite {scope : Scope} {s : Str} {onlyIfAbsent : Bool} {c : CacheChoice D}
    {r : Except CacheError Bool}
    (h : w.act proc t (.tokenWrite scope s onlyIfAbsent) c = some (r, w')) :
    r = .ok true ∧ w' = w.install scope s ∨
      r ≠ .ok true ∧ ∃ w₁, (w₁ = w ∨ w₁ = w.install scope s) ∧
        w' = if onlyIfAbsent then w₁ else w₁.raiseFloor (proc t) scope := by
  have hwrite : w.writeToken scope s onlyIfAbsent = w ∨
      w.writeToken scope s onlyIfAbsent = w.install scope s := by
    unfold writeToken
    split
    · exact .inl rfl
    · exact .inr rfl
  have happly : ∀ applied, w.applyIf applied (writeToken · scope s onlyIfAbsent) = w ∨
      w.applyIf applied (writeToken · scope s onlyIfAbsent) = w.install scope s := by
    intro applied
    cases applied
    · exact .inl rfl
    · exact hwrite
  cases c with
  | ok =>
      simp only [act, Option.some.injEq, Prod.mk.injEq] at h
      obtain ⟨rfl, rfl⟩ := h
      cases hb : onlyIfAbsent && (w.tokens scope).isSome with
      | false => exact .inl ⟨rfl, by simp [writeToken, hb]⟩
      | true =>
          obtain ⟨rfl, -⟩ := Bool.and_eq_true_iff.mp hb
          exact .inr ⟨by simp, w, .inl rfl, by simp [writeToken, hb]⟩
  | fail x applied =>
      simp only [act, Option.some.injEq, Prod.mk.injEq] at h
      obtain ⟨rfl, rfl⟩ := h
      exact .inr ⟨by simp, _, happly applied, rfl⟩
  | refuse applied =>
      cases onlyIfAbsent with
      | true => simp at h
      | false =>
          simp only [act, Option.some.injEq, Prod.mk.injEq] at h
          obtain ⟨rfl, rfl⟩ := h
          exact .inr ⟨by simp, _, happly applied, rfl⟩
  | _ => simp at h

/-! The reentrant lock. -/

/-- Thread `t` holds the lock of its process exactly `n` times. -/
def Depth (proc : T → P) (t : T) : ℕ → CacheWorld T P Sql D → Prop
  | 0, w => ∀ n, w.locks (proc t) ≠ some (t, n)
  | n + 1, w => w.locks (proc t) = some (t, n + 1)

variable {n : ℕ}

omit [DecidableEq P] [DecidableEq T] in
@[simp] theorem depth_record {e : CacheEffect Sql (Rows D)} {r : Except CacheError e.Reply} :
    Depth proc t n (w.record t e r) ↔ Depth proc t n w := by
  cases n <;> rfl

theorem acquire_cases {c : CacheChoice D} {r : Except CacheError Unit}
    (h : w.act proc t .acquire c = some (r, w')) (hn : Depth proc t n w) :
    r = .ok () ∧ w' = w.setLock (proc t) (some (t, n + 1)) ∧
      ∀ u, u ≠ t → ∀ m, w.locks (proc t) ≠ some (u, m) := by
  cases c <;> simp only [act, reduceCtorEq] at h
  split at h
  · rename_i hfree
    obtain ⟨rfl, rfl⟩ := Prod.mk.inj (Option.some.inj h)
    cases n with
    | zero => exact ⟨rfl, rfl, fun u _ m ↦ by simp [hfree]⟩
    | succ n => exact absurd (hfree.symm.trans hn) (by simp)
  · rename_i u m hheld
    split at h
    · rename_i hut
      obtain ⟨rfl, rfl⟩ := Prod.mk.inj (Option.some.inj h)
      subst hut
      cases n with
      | zero => exact absurd hheld (hn m)
      | succ n =>
          obtain rfl : m = n + 1 := by
            have hm := hheld.symm.trans hn
            simpa using hm
          refine ⟨rfl, rfl, fun v hv k hk ↦ hv ?_⟩
          rw [hheld] at hk
          exact (Prod.mk.inj (Option.some.inj hk)).1.symm
    · simp at h

theorem release_cases {c : CacheChoice D} {r : Except CacheError Unit}
    (h : w.act proc t .release c = some (r, w')) (hn : Depth proc t (n + 1) w) :
    r = .ok () ∧ ∃ l, w' = w.setLock (proc t) l ∧ Depth proc t n w' ∧
      ∀ u, u ≠ t → ∀ m, l ≠ some (u, m) := by
  cases c <;> simp only [act, reduceCtorEq] at h
  rw [show w.locks (proc t) = some (t, n + 1) from hn] at h
  simp only [if_true, Option.some.injEq, Prod.mk.injEq] at h
  obtain ⟨rfl, rfl⟩ := h
  refine ⟨rfl, _, rfl, ?_, ?_⟩
  · cases n with
    | zero => simp [Depth, setLock]
    | succ n => simp [Depth, setLock]
  · intro u hu m
    cases n with
    | zero => simp
    | succ n => simp [Ne.symm hu]

/-! The log. -/

omit [DecidableEq P] [DecidableEq T] in
theorem getElem?_extends {α : Type} {l l' : List α} (h : l <+: l') {i : ℕ} {a : α}
    (ha : l[i]? = some a) : l'[i]? = some a := by
  obtain ⟨hi, rfl⟩ := List.getElem?_eq_some_iff.mp ha
  exact List.prefix_iff_getElem?.mp h i hi

omit [DecidableEq P] [DecidableEq T] in
/-- Thread `t` has performed the effect. -/
def Did (w : CacheWorld T P Sql D) (t : T) (e : CacheEffect Sql (Rows D)) : Prop :=
  ∃ (i : ℕ) (r : Except CacheError e.Reply), w.log[i]? = some ⟨t, e, r⟩

/-- Effects do not write the log themselves, and only updates change the states. -/
theorem act_frame {e : CacheEffect Sql (Rows D)} {c : CacheChoice D}
    {r : Except CacheError e.Reply} (h : w.act proc t e c = some (r, w')) :
    w'.log = w.log ∧ ((∀ u, e ≠ .update u) → w'.states = w.states) := by
  by_cases hq : e.Quiet
  · obtain rfl := act_quiet hq h
    exact ⟨rfl, fun _ ↦ rfl⟩
  cases e with
  | acquire =>
      cases c <;> simp only [act, reduceCtorEq] at h
      split at h
      · obtain ⟨-, rfl⟩ := Prod.mk.inj (Option.some.inj h)
        exact ⟨rfl, fun _ ↦ rfl⟩
      · obtain ⟨-, hw⟩ := Option.ite_none_right_eq_some.mp h
        obtain ⟨-, rfl⟩ := Prod.mk.inj (Option.some.inj hw)
        exact ⟨rfl, fun _ ↦ rfl⟩
  | release =>
      cases c <;> simp only [act, reduceCtorEq] at h
      split at h
      · obtain ⟨-, hw⟩ := Option.ite_none_right_eq_some.mp h
        obtain ⟨-, rfl⟩ := Prod.mk.inj (Option.some.inj hw)
        exact ⟨rfl, fun _ ↦ rfl⟩
      · cases h
  | update u =>
      obtain ⟨-, rfl⟩ := act_update h
      refine ⟨?_, fun hne ↦ absurd rfl (hne u)⟩
      cases u <;> rfl
  | backendSet key v =>
      rcases act_backendSet h with ⟨-, rfl⟩ | ⟨x, applied, -, -, rfl⟩
      · exact ⟨rfl, fun _ ↦ rfl⟩
      · cases applied <;> exact ⟨rfl, fun _ ↦ rfl⟩
  | backendDelete key =>
      rcases act_backendDelete h with ⟨-, rfl⟩ | ⟨-, rfl | rfl⟩ <;> exact ⟨rfl, fun _ ↦ rfl⟩
  | backendClear =>
      rcases act_backendClear h with ⟨-, rfl⟩ | ⟨-, rfl | rfl⟩ <;> exact ⟨rfl, fun _ ↦ rfl⟩
  | newGeneration =>
      obtain ⟨s, -, -, -, rfl⟩ := act_newGeneration h
      exact ⟨rfl, fun _ ↦ rfl⟩
  | tokenWrite scope s onlyIfAbsent =>
      rcases act_tokenWrite h with ⟨-, rfl⟩ | ⟨-, w₁, rfl | rfl, rfl⟩
      · exact ⟨rfl, fun _ ↦ rfl⟩
      · cases onlyIfAbsent <;> exact ⟨rfl, fun _ ↦ rfl⟩
      · cases onlyIfAbsent <;> exact ⟨rfl, fun _ ↦ rfl⟩
  | _ => exact absurd trivial hq

theorem act_log {e : CacheEffect Sql (Rows D)} {c : CacheChoice D} {r : Except CacheError e.Reply}
    (h : w.act proc t e c = some (r, w')) : w'.log = w.log := (act_frame h).1

section Runs

variable {d : Deployment Sql} {call : T → CacheCall Sql} {p₀ p : CachePool T P Sql D}
variable {ok : CachePool T P Sql D → Turn T (CacheChoice D) → Prop}

theorem perform_log {e : CacheEffect Sql (Rows D)} {c : CacheChoice D}
    {r : Except CacheError e.Reply} (h : (machine proc).perform t e c w = some (r, w')) :
    w'.log = w.log ++ [⟨t, e, r⟩] := by
  simp only [machine, Option.map_eq_some_iff, Prod.mk.injEq] at h
  obtain ⟨⟨r', w₁⟩, ha, rfl, rfl⟩ := h
  simp [record, act_log ha]

theorem perform_extends {e : CacheEffect Sql (Rows D)} {c : CacheChoice D}
    {r : Except CacheError e.Reply} (h : (machine proc).perform t e c w = some (r, w')) :
    w.log <+: w'.log := by
  rw [perform_log h]
  exact List.prefix_append _ _

theorem environment_log {c : CacheChoice D} (h : (machine proc).environment c w = some w') :
    w'.log = w.log := by
  cases c <;> simp only [machine, Option.some.injEq, reduceCtorEq] at h <;> subst h <;> rfl

/-- A thread that begins later has the earlier log behind it. -/
theorem log_born_later (h : Transition.Reaches (cacheStep d proc call) ok p₀ p)
    {th : Thread _ _ _ _ _} (hnone : p₀.threads t = none) (hth : p.threads t = some th) :
    p₀.world.log <+: th.born.log := by
  refine (Pool.born_later (A := fun w w' : CacheWorld T P Sql D ↦ w.log <+: w'.log)
    (fun _ ↦ List.prefix_rfl) (fun _ _ _ ↦ List.IsPrefix.trans) ?_ ?_ h).2 t th hnone hth
  · exact fun t e c w r w' hp ↦ perform_extends hp
  · intro c w w' hw
    rw [environment_log hw]

/-- A call that has returned performed what all its returning paths perform. -/
theorem did_of_outcome (h : Transition.Reaches (cacheStep d proc call) ok (Pool.start initial) p)
    {v : CacheResult (Rows D)} (hv : p.outcome t = some (.ok v))
    {e : CacheEffect Sql (Rows D)} (he : ((call t).program d).Performs e) : p.world.Did t e := by
  obtain ⟨th, hth, hcode⟩ := Pool.outcome_some hv
  have hdid := Pool.performed (A := Did) ?_ ?_ h he hth
  · rw [hcode] at hdid
    exact hdid.resolve_right id
  · intro t e c w r w' hp
    have hlog := perform_log hp
    refine ⟨⟨w.log.length, r, by simp [hlog]⟩, fun u e' hd ↦ ?_⟩
    obtain ⟨i, r', hi⟩ := hd
    refine ⟨i, r', ?_⟩
    rw [hlog]
    exact getElem?_extends (List.prefix_append _ _) hi
  · rintro c w w' hw u e ⟨i, r', hi⟩
    exact ⟨i, r', by rw [environment_log hw, hi]⟩

end Runs

end CacheWorld

abbrev CacheProtocol (T P Sql D : Type) : Type :=
  Protocol T (CacheEffect Sql (Rows D)) CacheEffect.Reply CacheError
    (CacheWorld T P Sql D) (CacheChoice D)

structure Respects (proc : T → P) (Γ : CacheProtocol T P Sql D) : Prop where
  machine : Γ.machine = CacheWorld.machine proc
  quiet : ∀ t u (e : CacheEffect Sql (Rows D)) r w, e.Quiet → Γ.inv w →
    Γ.inv (w.record t e r) ∧ Γ.rely u w (w.record t e r)

namespace Respects

open Protocol QuerySetCache

variable {proc : T → P} {Γ : CacheProtocol T P Sql D} (hΓ : Respects proc Γ)
variable {t : T} {pre : CacheWorld T P Sql D → Prop} {α : Type}

include hΓ

/-- An effect is judged on the change that it makes, before it is logged. -/
theorem effect {e : CacheEffect Sql (Rows D)}
    {post : Except CacheError e.Reply → CacheWorld T P Sql D → Prop}
    (h : ∀ w c r w', Γ.inv w → pre w → Γ.allowed t e c w → w.act proc t e c = some (r, w') →
      Γ.inv (w'.record t e r) ∧ (∀ u, u ≠ t → Γ.rely u w (w'.record t e r)) ∧
        post r (w'.record t e r)) :
    Γ.Effect t pre e post := by
  intro w c r w'' hw hpre hc hp
  rw [hΓ.machine] at hp
  simp only [CacheWorld.machine, Option.map_eq_some_iff, Prod.mk.injEq] at hp
  obtain ⟨⟨r', w'⟩, ha, rfl, rfl⟩ := hp
  exact h w c r' w' hw hpre hc ha

/-- A quiet effect keeps every stable assertion; `F` is what its reply tells. -/
theorem quiet_ask {e : CacheEffect Sql (Rows D)} (he : e.Quiet) (hpre : Γ.Stable t pre)
    {F : Except CacheError e.Reply → CacheWorld T P Sql D → Prop}
    (hfact : ∀ w c r, Γ.inv w → pre w → w.act proc t e c = some (r, w) → F r (w.record t e r)) :
    Γ.Triple t pre (ask e) fun r w ↦ pre w ∧ F r w := by
  refine Triple.call hpre (hΓ.effect fun w c r w' hw hp _ ha ↦ ?_)
  obtain rfl := CacheWorld.act_quiet he ha
  have hinv := (hΓ.quiet t t e r w' he hw).1
  exact ⟨hinv, fun u _ ↦ (hΓ.quiet t u e r w' he hw).2,
    hpre w' _ hw hinv (hΓ.quiet t t e r w' he hw).2 hp, hfact w' c r hw hp ha⟩

theorem quiet_ask' {e : CacheEffect Sql (Rows D)} (he : e.Quiet) (hpre : Γ.Stable t pre) :
    Γ.Triple t pre (ask e) fun _ w ↦ pre w :=
  (hΓ.quiet_ask he hpre (F := fun _ _ ↦ True) fun _ _ _ _ _ _ ↦ trivial).consequence
    (fun _ _ h ↦ h) fun _ _ _ h ↦ h.1

theorem spans : QuietSpans Γ t := fun _ hpre _ ↦ hΓ.quiet_ask' trivial hpre

/-- Copying stored rows gives the same rows, or fails. -/
theorem copyRows (hpre : Γ.Stable t pre) (v : Rows D) :
    Γ.Triple t pre (ask (.copyRows v)) fun r w ↦ pre w ∧ ∀ copy, r = .ok copy → copy = v := by
  have hquiet : (.copyRows v : CacheEffect Sql (Rows D)).Quiet := trivial
  refine hΓ.quiet_ask hquiet hpre (F := fun r _ ↦ ∀ copy, r = .ok copy → copy = v) ?_
  rintro w c r _ _ ha copy rfl
  rcases CacheWorld.act_copyRows ha with ⟨x, hx⟩ | hx
  · cases hx
  · exact Except.ok.inj hx

theorem detach {d : Deployment Sql} (hpre : Γ.Stable t pre) (stored : Stored (Rows D)) :
    Γ.Triple t pre (QuerySetCache.detach d stored)
      (Ends (fun v w ↦ pre w ∧ ∀ rows, v = some rows → stored = .rows rows) fun _ ↦ pre) := by
  cases stored with
  | other => exact Triple.throw _ fun _ _ h ↦ h
  | rows v =>
      refine Triple.bind (Q := fun _ ↦ pre) (Triple.done _ fun _ _ h ↦ h) (fun b ↦ ?_)
        fun _ _ _ h ↦ h
      cases b with
      | true => exact Triple.pure _ fun _ _ h ↦ ⟨h, fun rows hrows ↦ by simpa using hrows⟩
      | false =>
          refine (hΓ.copyRows hpre v).bind (fun copy ↦ ?_) fun _ _ _ h ↦ h.1
          refine Triple.pure _ fun _ _ h ↦ ⟨h.1, fun rows hrows ↦ ?_⟩
          have hcopy : copy = v := h.2 copy rfl
          rw [← hcopy, Option.some.inj hrows]

theorem detachedResult {d : Deployment Sql} (hpre : Γ.Stable t pre) (v : Rows D) :
    Γ.Triple t pre (QuerySetCache.detachedResult d v)
      (Ends (fun copy w ↦ pre w ∧ ∀ rows, copy = some rows → rows = v) fun _ _ ↦ False) := by
  unfold QuerySetCache.detachedResult
  split
  · exact Triple.pure _ fun _ _ h ↦ ⟨h, fun rows hrows ↦ (Option.some.inj hrows).symm⟩
  · refine (hΓ.copyRows hpre v).andThen fun r ↦ ?_
    cases r with
    | ok copy =>
        refine Triple.pure _ fun _ _ h ↦ ⟨h.1, fun rows hrows ↦ ?_⟩
        exact (Option.some.inj hrows).symm.trans (h.2 copy rfl)
    | error x => exact Triple.pure none fun _ _ h ↦ ⟨h.1, by simp⟩

end Respects

end DjangoNova
