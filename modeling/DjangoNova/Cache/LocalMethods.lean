import DjangoNova.Cache.LocalEffects

/-!
# Freshness within one process

A cache whose backend has no generations serves no rows that were read
before an invalidation, as long as a failing `backend.set` takes effect
for indexed keys only. A set that stores a new entry and then raises is
never registered, and the next invalidation misses the entry.
-/

namespace DjangoNova

open Protocol QuerySetCache
open Tracing (onlyIf)

namespace CacheWorld

variable {T Sql D : Type}
variable {d : Deployment Sql} {call : T → CacheCall Sql} {t : T}
variable {born w w' : LocalWorld T Sql D} {n : ℕ} {α : Type}
variable {A B : LocalWorld T Sql D → Prop} {q : PreparedQuery Sql} {snapshot : KeySnapshot}
variable {v : Rows D}

/-- The rows are newer than the invalidations of the query that preceded the call. -/
def Current (d : Deployment Sql) (call : T → CacheCall Sql) (born : LocalWorld T Sql D)
    (q : PreparedQuery Sql) (v : Rows D) : Prop :=
  ∀ key names, localKey d q = some (key, names) →
    ∀ i u, born.Bumped i u → (call u).Hits d names q.db → i + 1 < v.readAt

/-- The state had this generation at some time. -/
def Began (generation : ℕ) (w : LocalWorld T Sql D) : Prop :=
  ∃ w₀ : LocalWorld T Sql D, w₀.state.generation = generation ∧ Advances w₀ w

/-- The rows were read after the bumps that precede the generation. -/
def Fenced (generation : ℕ) (v : Rows D) (w : LocalWorld T Sql D) : Prop :=
  ∃ w₀ : LocalWorld T Sql D, w₀.state.generation = generation ∧ Advances w₀ w ∧
    ∀ i u, w₀.Bumped i u → i + 1 < v.readAt

theorem lasting_began (generation : ℕ) :
    Lasting (Began generation : LocalWorld T Sql D → Prop) := by
  rintro w w' h ⟨w₀, hg, hadv⟩
  exact ⟨w₀, hg, hadv.trans h⟩

theorem lasting_fenced (generation : ℕ) (v : Rows D) :
    Lasting (Fenced generation v : LocalWorld T Sql D → Prop) := by
  rintro w w' h ⟨w₀, hg, hadv, hv⟩
  exact ⟨w₀, hg, hadv.trans h, hv⟩

theorem Fenced.bumps {generation : ℕ} (h : Fenced generation v w)
    (hg : w.state.generation = generation) {i : ℕ} {u : T} (hi : w.Bumped i u) :
    i + 1 < v.readAt := by
  obtain ⟨w₀, hg₀, hadv, hv⟩ := h
  exact hv i u (hadv.bumps (hg.trans hg₀.symm) i u hi)

variable [DecidableEq T]

/-- The snapshot of a query in a cache without generations. -/
def IsSnapshot (d : Deployment Sql) (q : PreparedQuery Sql) (snapshot : KeySnapshot) : Prop :=
  snapshot.generations = [] ∧ localKey d q = some (snapshot.key, snapshot.names)

theorem generationsMatch_eq (h : snapshot.generations = []) :
    generationsMatch (V := Rows D) d snapshot = pure true := by
  simp [generationsMatch, h]

/-- Without generations a snapshot is taken without any effect. -/
theorem keySnapshot_eq (hgen : d.generation = false) :
    ∃ v, keySnapshot (V := Rows D) d q = .done v ∧
      ∀ snapshot, v = .ok snapshot → IsSnapshot d q snapshot := by
  have hread : ∀ scopes, readGenerations (V := Rows D) d scopes = pure [] := by
    intro scopes
    simp [readGenerations, hgen]
  cases hdeps : q.dependencies with
  | error x => exact ⟨.error x, by simp only [keySnapshot, hdeps]; rfl, fun _ h ↦ by cases h⟩
  | ok dependencies =>
      cases hp : dependencies.getD ([], []) with
      | mk models prefetches =>
          refine ⟨_, by simp only [keySnapshot, hdeps, hread]; rfl, fun snapshot h ↦ ?_⟩
          obtain rfl := Except.ok.inj h
          exact ⟨rfl, by simp [localKey, hdeps, hp]⟩

theorem keySnapshot_local (hgen : d.generation = false) :
    LocalTriple d call t A (keySnapshot d q)
      (Ends (fun snapshot w ↦ A w ∧ IsSnapshot d q snapshot) fun _ ↦ A) := by
  obtain ⟨v, hv, hsnapshot⟩ := keySnapshot_eq (D := D) (q := q) hgen
  rw [hv]
  refine Triple.done _ fun w _ h ↦ ?_
  cases v with
  | ok snapshot => exact ⟨h, hsnapshot snapshot rfl⟩
  | error x => exact h

/-- An update that makes the cache consistent. -/
theorem settle_local {u : Update} (hA : Protected A)
    (h : ∀ w r, A w → (updated t u r w).Consistent d call) :
    LocalTriple d call t (fun w ↦ Since t born (n + 1) w ∧ A w) (update u)
      fun _ w ↦ Since t born (n + 1) w ∧ w.Consistent d call := by
  refine (update_locked hA h).consequence (fun _ _ h ↦ h) fun v _ _ h ↦ ?_
  cases v with
  | ok => exact h
  | error x => exact h.elim

section Reads

theorem backendGet_local (hq : (call t).reads = some q) (hs : IsSnapshot d q snapshot)
    {state : CacheState} (hclear : state.clearFailed = false)
    (hkey : snapshot.key ∉ state.invalidatedKeys) :
    LocalTriple d call t
      (fun w ↦ Since t born 1 w ∧ w.Consistent d call ∧ w.state = state)
      (backendGet d snapshot)
      (Ends (fun cached w ↦ (Since t born 1 w ∧ w.Consistent d call) ∧
          ∀ rows, cached = some rows → Current d call born q rows)
        fun _ w ↦ Since t born 1 w ∧ w.Consistent d call) := by
  have hquiet : (.backendGet snapshot.key : CacheEffect Sql (Rows D)).Quiet := trivial
  refine (locked_quiet hquiet (protected_consistent.and (protected_state state))
    (F := fun r _ ↦ ∀ v, r = .ok (some (.rows v)) → Current d call born q v) ?_).andThen ?_
  · rintro w c r hsince ⟨hcons, rfl⟩ ha v rfl
    rcases act_backendGet ha with ⟨x, hx⟩ | hx
    · cases hx
    intro key names hlocal i u hi hhit
    obtain ⟨rfl, rfl⟩ := Prod.mk.inj (Option.some.inj (hlocal.symm.trans hs.2))
    exact hcons.2 q _ _ v ⟨⟨t, hq⟩, hs.2, (Except.ok.inj hx).symm⟩ hclear hkey i u
      (hi.advances hsince.1) trivial hhit
  · intro r
    match r with
    | .error x =>
        show LocalTriple d call t _ (if _ then _ else _) _
        rw [if_pos hs.1]
        exact Triple.throw x fun _ _ h ↦ ⟨h.1.1, h.1.2.1⟩
    | .ok none => exact Triple.pure none fun _ _ h ↦ ⟨⟨h.1.1, h.1.2.1⟩, by simp⟩
    | .ok (some stored) =>
        refine Triple.fact fun hcurrent ↦ ?_
        refine Triple.tryCatch ((respects_local.detach (stable_locked protected_consistent)
          stored).consequence (fun _ _ h ↦ ⟨h.1, h.2.1⟩) fun _ _ _ h ↦ h) (fun v _ _ h ↦ ?_)
          fun x ↦ Triple.pure none fun _ _ h ↦ ⟨h, by simp⟩
        exact ⟨h.1, fun rows hrows ↦ hcurrent rows (by rw [h.2 rows hrows])⟩

theorem lookup_local (hagree : KeysAgree d call) (hq : (call t).reads = some q)
    (hs : IsSnapshot d q snapshot) :
    LocalTriple d call t (fun w ↦ Since t born 1 w ∧ w.Consistent d call) (lookup d snapshot)
      (Ends (fun cached w ↦ (Since t born 1 w ∧ w.Consistent d call) ∧
          ∀ rows, cached = some rows → Current d call born q rows)
        fun _ w ↦ Since t born 1 w ∧ w.Consistent d call) := by
  refine (readState_locked protected_consistent).bind (fun state ↦ ?_) fun _ _ _ h ↦ h.elim
  split
  · rename_i hopen
    simp only [Bool.and_eq_true, Bool.not_eq_eq_eq_not, Bool.not_true, decide_eq_true_eq] at hopen
    refine (backendGet_local hq hs hopen.1 hopen.2).bind (fun cached ↦ ?_) fun _ _ _ h ↦ h
    cases cached with
    | none => exact Triple.pure none fun _ _ h ↦ h
    | some rows =>
        refine Triple.fact fun hcurrent ↦ ?_
        simp only [generationsMatch_eq hs.1]
        have hregister : LocalTriple d call t (fun w ↦ Since t born 1 w ∧ w.Consistent d call)
            (registerKey snapshot.key snapshot.names)
            (Ends (fun _ w ↦ Since t born 1 w ∧ w.Consistent d call) fun _ _ ↦ False) :=
          nested_update protected_consistent protected_consistent fun w r h ↦
            consistent_register hagree hq hs.2
              (fun q key names v hv _ ↦ h.1 q key names v hv trivial) h.2
        refine hregister.bind (fun _ ↦ ?_) fun _ _ _ h ↦ h.elim
        exact Triple.pure _ fun _ _ h ↦ ⟨h, hcurrent⟩
  · exact Triple.pure none fun _ _ h ↦ ⟨⟨h.1, h.2.1⟩, by simp⟩

theorem lookupFenced_local (hagree : KeysAgree d call) (hq : (call t).reads = some q)
    (hs : IsSnapshot d q snapshot) :
    LocalTriple d call t (fun w ↦ Since t born 1 w ∧ w.Consistent d call) (lookupFenced d snapshot)
      (Ends (fun found w ↦ Since t born 1 w ∧ (Began found.2 w ∧
          ∀ rows, found.1 = some rows → Current d call born q rows) ∧ w.Consistent d call)
        fun _ w ↦ Since t born 1 w ∧ w.Consistent d call) := by
  refine (lookup_local hagree hq hs).bind (fun cached ↦ Triple.fact fun hcurrent ↦ ?_)
    fun _ _ _ h ↦ h
  refine (readState_locked protected_consistent).bind (fun state ↦ ?_) fun _ _ _ h ↦ h.elim
  refine Triple.pure _ fun w _ h ↦ ⟨h.1, ⟨⟨w, ?_, .refl⟩, hcurrent⟩, h.2.1⟩
  rw [h.2.2]

theorem runSql_local (hA : Lasting A) :
    LocalTriple d call t (fun w ↦ Since t born 0 w ∧ A w) (runSql q)
      (Ends (fun v w ↦ (Since t born 0 w ∧ A w) ∧ Current d call born q v ∧
          ∀ i u, w.Bumped i u → i + 1 < v.readAt)
        fun _ ↦ Since t born 0) := by
  have hquiet : (.sql q : CacheEffect Sql (Rows D)).Quiet := trivial
  refine (respects_local.quiet_ask hquiet (stable_since hA) (F := fun r w ↦ ∀ v, r = .ok v →
    Current d call born q v ∧ ∀ i u, w.Bumped i u → i + 1 < v.readAt) ?_).consequence
    (fun _ _ h ↦ h) fun r _ _ h ↦ ?_
  · rintro w c r hw ⟨hsince, -⟩ ha v rfl
    rcases act_sql ha with ⟨x, hx⟩ | ⟨content, hx⟩
    · cases hx
    obtain rfl := Except.ok.inj hx
    have hnow : ∀ {i u}, w.Bumped i u → i + 1 < w.now := fun hi ↦ Nat.succ_lt_succ hi.lt
    exact ⟨fun _ _ _ i u hi _ ↦ hnow (hi.advances hsince.1),
      fun i u hi ↦ hnow (bumped_record (by simp) hi)⟩
  · cases r with
    | ok v => exact ⟨h.1, h.2 v rfl⟩
    | error x => exact h.1.1

end Reads

section Fills

theorem storeRows_local (hs : IsSnapshot d q snapshot) (hA : Protected A)
    (hstored : ∀ w, A w → w.Consistent d call ∧ ∀ i u, w.Bumped i u → i + 1 < v.readAt) :
    LocalTriple d call t (fun w ↦ Since t born 1 w ∧ A w)
      (QuerySetCache.backendSet d snapshot v)
      (Ends (fun stored w ↦ Since t born 1 w ∧ (stored = false → w.Consistent d call) ∧
          (stored = true → (w.Indexed d call (· ≠ snapshot.key) ∧ w.Guarded d call fun _ ↦ True) ∧
            Clean snapshot.key w))
        fun _ w ↦ Since t born 1 w ∧ w.Consistent d call) := by
  refine (respects_local.detachedResult (stable_locked hA) v).bind (fun copy ↦ ?_)
    fun _ _ _ h ↦ h.elim
  cases copy with
  | none => exact Triple.pure false fun w _ h ↦ ⟨h.1.1, fun _ ↦ (hstored w h.1.2).1, by simp⟩
  | some copy =>
      refine Triple.fact fun hcopy ↦ ?_
      obtain rfl := hcopy copy rfl
      refine (backendSet_locked hA hstored).andThen fun r ↦ ?_
      cases r with
      | ok => exact Triple.pure true fun _ _ h ↦ ⟨h.1, by simp, fun _ ↦ h.2⟩
      | error x =>
          show LocalTriple d call t _ (if _ then _ else _) _
          rw [if_pos hs.1]
          exact Triple.throw x fun _ _ h ↦ h

theorem publish_local (hagree : KeysAgree d call) (hq : (call t).reads = some q)
    (hs : IsSnapshot d q snapshot) {generation : ℕ} :
    LocalTriple d call t
      (fun w ↦ Since t born 1 w ∧ Fenced generation v w ∧ w.Consistent d call)
      (publish d q snapshot generation v)
      (fun _ w ↦ Since t born 1 w ∧ w.Consistent d call) := by
  have hA : Protected fun w : LocalWorld T Sql D ↦ Fenced generation v w ∧ w.Consistent d call :=
    (lasting_fenced generation v).protected.and protected_consistent
  refine (readState_locked hA).bind (fun state ↦ ?_) fun _ _ _ h ↦ h.elim
  refine triple_onlyIf (fun hopen ↦ ?_) fun _ _ _ h ↦ ⟨h.1, h.2.1.2⟩
  simp only [Bool.and_eq_true, decide_eq_true_eq] at hopen
  have htransactional : (.transactional q : CacheEffect Sql (Rows D)).Quiet := trivial
  have hstate := hA.and (protected_state state)
  refine Triple.bind (respects_local.quiet_ask' htransactional ((stable_locked hstate)))
    (fun b ↦ ?_) fun _ _ _ h ↦ ⟨h.1, h.2.1.2⟩
  refine triple_onlyIf (fun _ ↦ ?_) fun _ _ _ h ↦ ⟨h.1, h.2.1.2⟩
  simp only [generationsMatch_eq hs.1]
  show LocalTriple d call t _ (onlyIf (true = true) _) _
  refine triple_onlyIf (fun _ ↦ ?_) fun h ↦ absurd rfl h
  refine (storeRows_local hs hstate fun w h ↦ ⟨h.1.2, fun i u hi ↦ ?_⟩).bind (fun stored ↦ ?_)
    fun _ _ _ h ↦ h
  · exact h.1.1.bumps (by rw [h.2]; exact hopen.1.symm) hi
  · refine triple_onlyIf (fun hstored ↦ ?_)
      fun hstored _ _ h ↦ ⟨h.1, h.2.1 (by simpa using hstored)⟩
    have hregister : LocalTriple d call t
        (fun w ↦ Since t born 1 w ∧ (w.Indexed d call (· ≠ snapshot.key) ∧
          w.Guarded d call fun _ ↦ True) ∧ Clean snapshot.key w)
        (registerKey snapshot.key snapshot.names)
        (Ends (fun _ w ↦ Since t born 1 w ∧ w.Consistent d call ∧ Clean snapshot.key w)
          fun _ _ ↦ False) :=
      nested_update (((protected_indexed _).and (protected_guarded _)).and protected_clean)
        (protected_consistent.and protected_clean) fun w r h ↦
        ⟨consistent_register hagree hq hs.2 h.1.1 h.1.2, clean_updated (by simp) h.2⟩
    refine Triple.bind (hregister.consequence (fun _ _ h ↦ ⟨h.1, h.2.2 hstored⟩) fun _ _ _ h ↦ h)
      (fun _ ↦ ?_) fun _ _ _ h ↦ h.elim
    exact settle_local (protected_consistent.and protected_clean) fun _ _ h ↦
      consistent_unblock h.1 h.2

end Fills

section Calls

/-- A call of thread `t` in between its effects, and a fact that lasts. -/
theorem stable_ends_local {Q : α → LocalWorld T Sql D → Prop} (hQ : ∀ a, Lasting (Q a))
    (v : Except CacheError α) :
    (localProtocol d call).Stable t
      (Ends (fun a w ↦ Since t born 0 w ∧ Q a w) (fun _ ↦ Since t born 0) v) := by
  cases v with
  | ok a => exact stable_since (hQ a)
  | error x => exact fun w w' _ _ h hs ↦ hs.rely h

theorem setAttribute_local (hA : Lasting A) (span : Bool) :
    LocalTriple d call t (fun w ↦ Since t born 0 w ∧ A w) (setAttribute span)
      fun _ w ↦ Since t born 0 w ∧ A w :=
  respects_local.spans.setAttribute (stable_since hA) span

/-- A locked body in a span. -/
theorem span_lock_local {Q : α → LocalWorld T Sql D → Prop} (hQ : ∀ a, Lasting (Q a))
    {body : CacheProgram Sql (Rows D) α}
    (hbody : LocalTriple d call t (fun w ↦ Since t born 1 w ∧ w.Consistent d call) body
      (Ends (fun a w ↦ Since t born 1 w ∧ Q a w ∧ w.Consistent d call)
        fun _ w ↦ Since t born 1 w ∧ w.Consistent d call)) :
    LocalTriple d call t (Since t born 0)
      (novaSpan fun span ↦ do
        let a ← withLock body
        setAttribute span
        return a)
      (Ends (fun a w ↦ Since t born 0 w ∧ Q a w) fun _ ↦ Since t born 0) := by
  refine respects_local.spans.novaSpan (fun w w' _ _ h hs ↦ hs.rely h) (stable_ends_local hQ)
    fun span ↦ ?_
  have hlock : LocalTriple d call t (Since t born 0) (withLock body)
      (Ends (fun a w ↦ Since t born 0 w ∧ Q a w) fun _ ↦ Since t born 0) :=
    (withLock_local (.pure True) hQ
      (hbody.consequence (fun _ _ h ↦ ⟨h.1, h.2.2⟩) fun _ _ _ h ↦ h)).consequence
      (fun _ _ h ↦ ⟨h, trivial⟩) fun _ _ _ h ↦ h
  refine hlock.bind (fun a ↦ ?_) fun _ _ _ h ↦ h
  refine (setAttribute_local (hQ a) span).bind (fun _ ↦ ?_) fun _ _ _ h ↦ h.1
  exact Triple.pure a fun _ _ h ↦ h

theorem runSql_current :
    LocalTriple d call t (Since t born 0) (runSql q)
      (Ends (fun v _ ↦ Current d call born q v) fun _ _ ↦ True) := by
  refine (runSql_local (.pure True)).consequence (fun _ _ h ↦ ⟨h, trivial⟩) fun r _ _ h ↦ ?_
  cases r with
  | ok v => exact h.2.1
  | error x => trivial

theorem get_local (hagree : KeysAgree d call) (hgen : d.generation = false)
    (hq : (call t).reads = some q) :
    LocalTriple d call t (Since t born 0) (QuerySetCache.get d q)
      (Ends (fun cached _ ↦ ∀ rows, cached = some rows → Current d call born q rows)
        fun _ _ ↦ True) := by
  have htransactional : (.transactional q : CacheEffect Sql (Rows D)).Quiet := trivial
  refine (respects_local.quiet_ask' htransactional fun w w' _ _ h hs ↦ hs.rely h).bind
    (fun b ↦ ?_) fun _ _ _ _ ↦ trivial
  cases b with
  | true => exact Triple.pure none fun _ _ _ rows h ↦ by cases h
  | false =>
      refine (keySnapshot_local hgen).andThen fun v ↦ ?_
      match v with
      | .error .uncacheableQuery => exact Triple.pure none fun _ _ _ rows h ↦ by cases h
      | .error .generationUnavailable => exact Triple.pure none fun _ _ _ rows h ↦ by cases h
      | .error .typeError => exact Triple.throw _ fun _ _ _ ↦ trivial
      | .error (.raised k) => exact Triple.throw _ fun _ _ _ ↦ trivial
      | .ok snapshot =>
          refine Triple.fact fun hs ↦ ?_
          have hbody : LocalTriple d call t (fun w ↦ Since t born 1 w ∧ w.Consistent d call)
              (lookup d snapshot)
              (Ends (fun cached w ↦ Since t born 1 w ∧
                  (∀ rows, cached = some rows → Current d call born q rows) ∧ w.Consistent d call)
                fun _ w ↦ Since t born 1 w ∧ w.Consistent d call) := by
            refine (lookup_local hagree hq hs).consequence (fun _ _ h ↦ h) fun v _ _ h ↦ ?_
            cases v with
            | ok cached => exact ⟨h.1.1, h.2, h.1.2⟩
            | error x => exact h
          refine (span_lock_local (fun _ ↦ .pure _) hbody).consequence (fun _ _ h ↦ h)
            fun v _ _ h ↦ ?_
          cases v with
          | ok cached => exact h.2
          | error x => trivial

theorem fill_local (hagree : KeysAgree d call) (hq : (call t).reads = some q)
    (hs : IsSnapshot d q snapshot) {generation : ℕ} :
    LocalTriple d call t (fun w ↦ Since t born 0 w ∧ Began generation w)
      (fill d q snapshot generation)
      (Ends (fun v _ ↦ Current d call born q v) fun _ _ ↦ True) := by
  have hbody : ∀ span, LocalTriple d call t (fun w ↦ Since t born 0 w ∧ Began generation w)
      (do
        let result ← runSql q
        withLock (publish d q snapshot generation result)
        setAttribute span
        return result)
      (Ends (fun v w ↦ Since t born 0 w ∧ Current d call born q v) fun _ ↦ Since t born 0) := by
    intro span
    refine (runSql_local (lasting_began generation)).bind (fun v ↦ ?_) fun _ _ _ h ↦ h
    have hpublish : LocalTriple d call t (fun w ↦ Since t born 0 w ∧ Fenced generation v w)
        (withLock (publish d q snapshot generation v))
        (Ends (fun _ w ↦ Since t born 0 w ∧ True) fun _ ↦ Since t born 0) := by
      refine withLock_local (lasting_fenced generation v) (fun _ ↦ .pure True) ?_
      refine (publish_local hagree hq hs).consequence (fun _ _ h ↦ h) fun r _ _ h ↦ ?_
      cases r with
      | ok => exact ⟨h.1, trivial, h.2⟩
      | error x => exact h
    have htail : Current d call born q v → LocalTriple d call t
        (fun w ↦ Since t born 0 w ∧ Fenced generation v w)
        (do
          withLock (publish d q snapshot generation v)
          setAttribute span
          return v)
        (Ends (fun v w ↦ Since t born 0 w ∧ Current d call born q v) fun _ ↦ Since t born 0) := by
      intro hcurrent
      refine hpublish.bind (fun _ ↦ ?_) fun _ _ _ h ↦ h
      refine (setAttribute_local (.pure True) span).bind (fun _ ↦ ?_) fun _ _ _ h ↦ h.1
      exact Triple.pure v fun _ _ h ↦ ⟨h.1, hcurrent⟩
    intro w hw h
    obtain ⟨⟨hsince, w₀, hg, hadv⟩, hcurrent, hbumps⟩ := h
    exact htail hcurrent w hw
      ⟨hsince, w₀, hg, hadv, fun i u hi ↦ hbumps i u (hi.advances hadv)⟩
  refine (respects_local.spans.novaSpan (stable_since (lasting_began generation))
    (stable_ends_local fun _ ↦ .pure _) hbody).consequence (fun _ _ h ↦ h) fun v _ _ h ↦ ?_
  cases v with
  | ok v => exact h.2
  | error x => trivial

theorem getOrSet_local (hagree : KeysAgree d call) (hgen : d.generation = false)
    (hq : (call t).reads = some q) :
    LocalTriple d call t (Since t born 0) (getOrSet d q)
      (Ends (fun v _ ↦ Current d call born q v) fun _ _ ↦ True) := by
  have htransactional : (.transactional q : CacheEffect Sql (Rows D)).Quiet := trivial
  refine (respects_local.quiet_ask' htransactional fun w w' _ _ h hs ↦ hs.rely h).bind
    (fun b ↦ ?_) fun _ _ _ _ ↦ trivial
  cases b with
  | true => exact runSql_current
  | false =>
      refine (keySnapshot_local hgen).andThen fun v ↦ ?_
      match v with
      | .error .uncacheableQuery => exact runSql_current
      | .error .generationUnavailable => exact runSql_current
      | .error .typeError => exact Triple.throw _ fun _ _ _ ↦ trivial
      | .error (.raised k) => exact Triple.throw _ fun _ _ _ ↦ trivial
      | .ok snapshot =>
          refine Triple.fact fun hs ↦ ?_
          refine (span_lock_local (fun _ ↦ (lasting_began _).and (.pure _))
            (lookupFenced_local hagree hq hs)).bind (fun found ↦ ?_) fun _ _ _ _ ↦ trivial
          obtain ⟨cached, generation⟩ := found
          cases cached with
          | some rows => exact Triple.pure rows fun _ _ h ↦ h.2.2 rows rfl
          | none => exact fun w hw h ↦ fill_local hagree hq hs w hw ⟨h.1, h.2.1⟩

/-- The world in which the invalidation of `t` still has to be done. -/
def Broken (d : Deployment Sql) (call : T → CacheCall Sql) (t : T) (w : LocalWorld T Sql D) :
    Prop :=
  w.Indexed d call (fun _ ↦ True) ∧ w.Guarded d call (· ≠ t)

omit [DecidableEq T] in
theorem protected_broken : Protected (Broken d call t : LocalWorld T Sql D → Prop) :=
  (protected_indexed _).and (protected_guarded _)

theorem bump_local :
    LocalTriple d call t (fun w ↦ Since t born 1 w ∧ w.Consistent d call)
      (update .bumpGeneration)
      (Ends (fun _ w ↦ Since t born 1 w ∧ Broken d call t w) fun _ _ ↦ False) :=
  update_locked protected_consistent fun _ _ h ↦ consistent_bump h

theorem deleteKeys_local (keys : List Str) (deleted : ℕ) :
    LocalTriple d call t (fun w ↦ Since t born 1 w ∧ w.Consistent d call) (deleteKeys keys deleted)
      (Ends (fun _ w ↦ Since t born 1 w ∧ w.Consistent d call) fun _ _ ↦ False) := by
  induction keys generalizing deleted with
  | nil => exact Triple.pure deleted fun _ _ h ↦ h
  | cons key rest ih =>
      refine (backendDelete_locked protected_consistent).andThen fun r ↦ ?_
      cases r with
      | error x => exact ih deleted
      | ok found =>
          exact (nested_update (protected_consistent.and protected_noEntry) protected_consistent
            fun w r h ↦ consistent_unregister h.1 h.2).bind (fun _ ↦ ih _) fun _ _ _ h ↦ h.elim

theorem invalidateLocked_local (hgen : d.generation = false) {modelName db : Str}
    (hcall : call t = .invalidateModel modelName db) (span : Bool) :
    LocalTriple d call t (fun w ↦ Since t born 1 w ∧ w.Consistent d call)
      (invalidateLocked d span modelName db)
      (fun _ w ↦ Since t born 1 w ∧ w.Consistent d call) := by
  refine bump_local.bind (fun _ ↦ ?_) fun _ _ _ h ↦ h.elim
  simp only [hgen]
  show LocalTriple d call t _ (onlyIf (false = true) _ >>= _) _
  refine Triple.bind (triple_onlyIf (fun h ↦ by cases h) fun _ _ _ h ↦ h) (fun _ ↦ ?_)
    fun _ _ _ h ↦ h.elim
  refine (readState_locked protected_broken).bind (fun state ↦ ?_) fun _ _ _ h ↦ h.elim
  have hcover : ∀ w : LocalWorld T Sql D, w.Indexed d call (fun _ ↦ True) → w.state = state →
      Covering d call t (state.invalidationKeys d.databaseDigest
        (normalizeModelNames d.lower modelName) db) w := by
    rintro w hi rfl
    exact covering_invalidationKeys hcall hi
  show LocalTriple d call t _ (if _ then _ else _) _
  split
  · rename_i hempty
    refine Triple.bind ((respects_local.spans.setAttribute (stable_locked protected_consistent)
      span).consequence (fun w _ h ↦ ⟨h.1, ?_⟩) fun _ _ _ h ↦ h)
      (fun _ ↦ Triple.pure none fun _ _ h ↦ h) fun _ _ _ h ↦ h
    exact consistent_of_covering h.2.1.1 h.2.1.2 (hempty ▸ hcover w h.2.1.1 h.2.2)
  · refine Triple.bind (update_locked (protected_broken.and (protected_state state)) fun w r h ↦
      consistent_block h.1.1 h.1.2 (hcover w h.1.1 h.2)) (fun _ ↦ ?_) fun _ _ _ h ↦ h.elim
    have horder : (.keyOrder (state.invalidationKeys d.databaseDigest
        (normalizeModelNames d.lower modelName) db) : CacheEffect Sql (Rows D)).Quiet := trivial
    refine Triple.bind (respects_local.quiet_ask' horder (stable_locked protected_consistent))
      (fun order ↦ ?_) fun _ _ _ h ↦ h
    exact (deleteKeys_local order 0).bind (fun deleted ↦ Triple.pure (some deleted) fun _ _ h ↦ h)
      fun _ _ _ h ↦ h.elim

theorem clearLocked_local :
    LocalTriple d call t (fun w ↦ Since t born 1 w ∧ w.Consistent d call)
      clearLocked
      (fun _ w ↦ Since t born 1 w ∧ w.Consistent d call) := by
  refine bump_local.bind (fun _ ↦ ?_) fun _ _ _ h ↦ h.elim
  refine (backendClear_locked protected_broken).andThen fun r ↦ ?_
  cases r with
  | error x => exact settle_local protected_broken fun _ _ h ↦ consistent_failClear h.1
  | ok =>
      have hno : Protected fun w : LocalWorld T Sql D ↦ ∀ key, NoEntry key w :=
        fun w w' ha hs h key ↦ protected_noEntry w w' ha hs (h key)
      exact settle_local hno fun _ _ h ↦ consistent_reset h

theorem withLock_consistent {body : CacheProgram Sql (Rows D) α}
    (hbody : LocalTriple d call t (fun w ↦ Since t born 1 w ∧ w.Consistent d call) body
      fun _ w ↦ Since t born 1 w ∧ w.Consistent d call) :
    LocalTriple d call t (fun w ↦ Since t born 0 w ∧ True) (withLock body)
      (Ends (fun _ w ↦ Since t born 0 w ∧ True) fun _ ↦ Since t born 0) := by
  refine withLock_local (.pure True) (fun _ ↦ .pure True)
    (hbody.consequence (fun _ _ h ↦ ⟨h.1, h.2.2⟩) fun v _ _ h ↦ ?_)
  cases v with
  | ok a => exact ⟨h.1, trivial, h.2⟩
  | error x => exact h

theorem invalidateModel_local (hgen : d.generation = false) {modelName db : Str}
    (hcall : call t = .invalidateModel modelName db) :
    LocalTriple d call t (fun w ↦ Since t born 0 w ∧ True) (invalidateModel d modelName db)
      (Ends (fun _ w ↦ Since t born 0 w ∧ True) fun _ ↦ Since t born 0) := by
  refine respects_local.spans.novaSpan (stable_since (.pure True))
    (stable_ends_local fun _ ↦ .pure True)
    fun span ↦ ?_
  have hset : LocalTriple d call t (fun w ↦ Since t born 0 w ∧ True) (setAttribute span) _ :=
    setAttribute_local (.pure True) span
  show LocalTriple d call t _ (if _ then _ else _) _
  split
  · exact hset.bind (fun _ ↦ Triple.pure 0 fun _ _ h ↦ h) fun _ _ _ h ↦ h.1
  · refine (withLock_consistent (invalidateLocked_local hgen hcall span)).bind
      (fun counted ↦ ?_) fun _ _ _ h ↦ h
    cases counted with
    | none => exact Triple.pure 0 fun _ _ h ↦ h
    | some deleted => exact hset.bind (fun _ ↦ Triple.pure deleted fun _ _ h ↦ h) fun _ _ _ h ↦ h.1

/-- What a finished call tells about its rows. -/
def LocalAnswer (d : Deployment Sql) (call : T → CacheCall Sql) (born : LocalWorld T Sql D)
    (c : CacheCall Sql) : Except CacheError (CacheResult (Rows D)) → Prop
  | .ok (.rows v) => ∀ q, c.reads = some q → Current d call born q v
  | _ => True

theorem call_local (hagree : KeysAgree d call) (hgen : d.generation = false) :
    LocalTriple d call t (Since t born 0) ((call t).program d)
      fun v _ ↦ LocalAnswer d call born (call t) v := by
  cases hc : call t with
  | get q =>
      refine (get_local hagree hgen (by rw [hc]; rfl)).bind (fun v ↦ ?_) fun _ _ _ _ ↦ trivial
      cases v with
      | none => exact Triple.pure _ fun _ _ _ ↦ trivial
      | some rows =>
          refine Triple.pure _ fun _ _ h q' hq' ↦ ?_
          obtain rfl : q = q' := Option.some.inj hq'
          exact h rows rfl
  | getOrSet q =>
      refine (getOrSet_local hagree hgen (by rw [hc]; rfl)).bind (fun v ↦ ?_) fun _ _ _ _ ↦ trivial
      refine Triple.pure _ fun _ _ h q' hq' ↦ ?_
      obtain rfl : q = q' := Option.some.inj hq'
      exact h
  | invalidateModel modelName db =>
      refine Triple.bind ((invalidateModel_local hgen hc).consequence (fun _ _ h ↦ ⟨h, trivial⟩)
        fun _ _ _ h ↦ h) (fun k ↦ ?_) fun _ _ _ _ ↦ trivial
      exact Triple.pure _ fun _ _ _ ↦ trivial
  | clear =>
      refine Triple.bind ((withLock_consistent clearLocked_local).consequence
        (fun _ _ h ↦ ⟨h, trivial⟩) fun _ _ _ h ↦ h) (fun _ ↦ ?_) fun _ _ _ _ ↦ trivial
      exact Triple.pure _ fun _ _ _ ↦ trivial

omit [DecidableEq T] in
theorem consistent_initial : (initial : LocalWorld T Sql D).Consistent d call := by
  have hno : ∀ {q key names v},
      ¬(initial : LocalWorld T Sql D).Serves d call q key names v := by
    rintro q key names v ⟨-, -, hv⟩
    simp [initial] at hv
  exact ⟨fun q key names v hv ↦ absurd hv hno, fun q key names v hv ↦ absurd hv hno⟩

end Calls

end CacheWorld

end DjangoNova
