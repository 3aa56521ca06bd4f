import DjangoNova.Cache.SharedTokens

/-!
# The methods under the protocol of a shared backend

Rows that a call returns are recent: their SQL ran after every rotation
that had been installed when the call began, and after every attempt of
its own process. A hit owes this to its key, whose tokens the call read
itself; a fill is stored under tokens that were there before its SQL.
-/

namespace DjangoNova.CacheWorld

open Protocol QuerySetCache

variable {T P Sql D : Type}
variable {proc : T → P} {d : Deployment Sql} {t : T} {born w : CacheWorld T P Sql D} {n : ℕ}
variable {α : Type} {L : CacheWorld T P Sql D → Prop} {q : PreparedQuery Sql}
variable {snapshot : KeySnapshot}

/-- The scopes that the key of a query covers. -/
def queryScopes (d : Deployment Sql) (q : PreparedQuery Sql) : List Scope :=
  match q.dependencies with
  | .ok dependencies => scopesOf d q (dependencies.getD ([], [])).1
  | .error _ => []

/-- The rows are newer than all that thread `t` has to see. -/
def Recent (d : Deployment Sql) (proc : T → P) (t : T) (born : CacheWorld T P Sql D)
    (q : PreparedQuery Sql) (v : Rows D) : Prop :=
  ∀ scope ∈ queryScopes d q, born.latest scope < v.readAt ∧ born.floor (proc t) scope < v.readAt

/-- A snapshot whose key covers the scopes of the query by tokens that `t` has seen. -/
structure Covers (d : Deployment Sql) (proc : T → P) (t : T) (born : CacheWorld T P Sql D)
    (q : PreparedQuery Sql) (snapshot : KeySnapshot) (w : CacheWorld T P Sql D) : Prop where
  key : ∃ parts, snapshot.key = makeKey d q.db parts ∧ parts.generations = snapshot.generations
  scopes : snapshot.generations.map Prod.fst = queryScopes d q
  seen : AllSeen proc t born snapshot.generations w

theorem persistent_covers : Persistent proc d (Covers d proc t born q snapshot) :=
  fun w w' hw h hc ↦ ⟨hc.key, hc.scopes, persistent_allSeen _ w w' hw h hc.seen⟩

/-- What is stored under a covering key is recent. -/
theorem Covers.recent (hc : Covers d proc t born q snapshot w) (hw : SharedInv proc d w)
    {v : Rows D} (hv : w.entries snapshot.key = some (.rows v)) : Recent d proc t born q v := by
  obtain ⟨parts, hkey, hparts⟩ := hc.key
  have hbefore := hw.entry q.db parts v (hkey ▸ hv)
  intro scope hscope
  obtain ⟨st, hst, rfl⟩ := List.mem_map.mp (hc.scopes ▸ hscope)
  obtain ⟨m, hm, hlatest, hfloor⟩ := hc.seen st hst
  obtain ⟨m', hm', hlt⟩ := hbefore st (hparts ▸ hst)
  obtain rfl : m = m' := Option.some.inj (hm.symm.trans hm')
  exact ⟨hlatest.trans_lt hlt, hfloor.trans_lt hlt⟩

variable [DecidableEq P] [DecidableEq T]

section Rules

theorem quiet_at {e : CacheEffect Sql (Rows D)} (he : e.Quiet) (hL : Persistent proc d L) :
    SharedTriple proc d t (fun w ↦ At proc t born n w ∧ L w) (ask e)
      fun _ w ↦ At proc t born n w ∧ L w :=
  respects_shared.quiet_ask' he (stable_at_and hL)

/-- An update that leaves the pending scopes alone. -/
theorem update_with (hL : Persistent proc d L) {u : Update}
    (hu : ∀ st : CacheState, (u.apply st).pendingGenerations = st.pendingGenerations) :
    SharedTriple proc d t (fun w ↦ At proc t born (n + 1) w ∧ L w) (update u)
      (Ends (fun _ w ↦ At proc t born (n + 1) w ∧ L w) fun _ _ ↦ False) := by
  refine update_triple (stable_at_and hL) (fun _ h ↦ h.1) (fun w _ _ scope hmem hout ↦ ?_)
    fun w w' r hw hp hupdated hat ↦ ⟨hat, hL w _ hw (hupdated.evolves hw).record hp.2⟩
  exact absurd (hu (w.states (proc t)) ▸ hmem) hout

theorem locked_with (hL : Persistent proc d L) {u : Update}
    (hu : ∀ st : CacheState, (u.apply st).pendingGenerations = st.pendingGenerations) :
    SharedTriple proc d t (fun w ↦ At proc t born n w ∧ L w) (withLock (update u))
      (Ends (fun _ w ↦ At proc t born n w ∧ L w) fun _ w ↦ At proc t born n w ∧ L w) := by
  refine withLock_triple hL (fun _ ↦ hL) hL ?_
  refine (update_with hL hu).consequence (fun _ _ h ↦ h) fun v _ _ h ↦ ?_
  cases v with
  | ok => exact h
  | error x => exact h.elim

/-! The same rules for a body that only has to restore the lock. -/

/-- The thread is at depth `n`, whatever the outcome. -/
abbrev Balanced (proc : T → P) (d : Deployment Sql) (t : T) (born : CacheWorld T P Sql D) (n : ℕ)
    (p : CacheProgram Sql (Rows D) α) : Prop :=
  SharedTriple proc d t (At proc t born n) p fun _ ↦ At proc t born n

theorem balanced_update {u : Update}
    (hu : ∀ st : CacheState, (u.apply st).pendingGenerations = st.pendingGenerations) :
    Balanced proc d t born (n + 1) (update u) := by
  refine (update_with (.pure True) hu).consequence (fun _ _ h ↦ ⟨h, trivial⟩) fun v _ _ h ↦ ?_
  cases v with
  | ok => exact h.1
  | error x => exact h.elim

theorem balanced_withLock {body : CacheProgram Sql (Rows D) α}
    (hbody : Balanced proc d t born (n + 1) body) : Balanced proc d t born n (withLock body) := by
  have htrue : Persistent (T := T) (P := P) (D := D) proc d fun _ ↦ True := .pure True
  refine (withLock_triple htrue (fun _ ↦ htrue) htrue (hbody.consequence (fun _ _ h ↦ h.1)
    fun v _ _ h ↦ ?_)).consequence (fun _ _ h ↦ ⟨h, trivial⟩) fun v _ _ h ↦ ?_
  · cases v with
    | ok a => exact ⟨h, trivial⟩
    | error x => exact ⟨h, trivial⟩
  · cases v with
    | ok a => exact h.1
    | error x => exact h.1

theorem Balanced.bind {β : Type} {p : CacheProgram Sql (Rows D) α}
    {f : α → CacheProgram Sql (Rows D) β} (hp : Balanced proc d t born n p)
    (hf : ∀ a, Balanced proc d t born n (f a)) : Balanced proc d t born n (p >>= f) :=
  Triple.bind hp hf fun _ _ _ h ↦ h

theorem Balanced.pure (a : α) : Balanced proc d t born n (pure a) :=
  Triple.pure a fun _ _ h ↦ h

theorem setAttribute_balanced (span : Bool) : Balanced proc d t born n (setAttribute span) :=
  respects_shared.spans.setAttribute stable_at span

end Rules

section Reads

theorem keySnapshot_triple (hgen : d.generation = true) :
    SharedTriple proc d t (At proc t born n) (keySnapshot d q)
      (Ends (fun snapshot w ↦ At proc t born n w ∧ Covers d proc t born q snapshot w)
        fun _ ↦ At proc t born n) := by
  refine Triple.bind (Q := Ends (fun dependencies w ↦ At proc t born n w ∧
      q.dependencies = .ok dependencies) fun _ ↦ At proc t born n) ?_ (fun dependencies ↦ ?_)
    fun _ _ _ h ↦ h
  · refine Triple.done _ fun w _ h ↦ ?_
    cases hdeps : q.dependencies with
    | ok dependencies => exact ⟨h, rfl⟩
    | error x => exact h
  · refine Triple.fact fun hdeps ↦ ?_
    refine Triple.bind ((readGenerations_triple hgen (.pure True) _).consequence
      (fun _ _ h ↦ ⟨h, trivial⟩) fun _ _ _ h ↦ h) (fun generations ↦ ?_) fun _ _ _ h ↦ h.1
    refine Triple.pure _ fun w _ h ↦ ⟨h.1, ⟨_, rfl, rfl⟩, ?_, h.2.2.1⟩
    simp only [queryScopes, hdeps]
    exact h.2.2.2

theorem generationsMatch_triple (hgen : d.generation = true) (hL : Persistent proc d L) :
    SharedTriple proc d t (fun w ↦ At proc t born n w ∧ L w) (generationsMatch d snapshot)
      (fun _ w ↦ At proc t born n w ∧ L w) := by
  unfold generationsMatch
  split
  · exact Triple.pure true fun _ _ h ↦ h
  · refine (readGenerations_triple hgen hL _).andThen fun v ↦ ?_
    cases v with
    | ok current => exact Triple.pure _ fun _ _ h ↦ ⟨h.1, h.2.1⟩
    | error x =>
        cases x with
        | generationUnavailable => exact Triple.pure false fun _ _ h ↦ h
        | uncacheableQuery => exact Triple.throw _ fun _ _ h ↦ h
        | typeError => exact Triple.throw _ fun _ _ h ↦ h
        | raised k => exact Triple.throw _ fun _ _ h ↦ h

/-- The outcome of a read: its rows, if any, are recent. -/
def Fetched (d : Deployment Sql) (proc : T → P) (t : T) (born : CacheWorld T P Sql D)
    (q : PreparedQuery Sql) (v : Option (Rows D)) : Prop :=
  ∀ rows, v = some rows → Recent d proc t born q rows

/-- A guarded read keeps the snapshot usable for the fill that may follow it. -/
abbrev Found (d : Deployment Sql) (proc : T → P) (t : T) (born : CacheWorld T P Sql D) (n : ℕ)
    (q : PreparedQuery Sql) (snapshot : KeySnapshot) (v : Option (Rows D))
    (w : CacheWorld T P Sql D) : Prop :=
  At proc t born n w ∧ Covers d proc t born q snapshot w ∧ Fetched d proc t born q v

theorem backendGet_triple :
    SharedTriple proc d t (fun w ↦ At proc t born n w ∧ Covers d proc t born q snapshot w)
      (backendGet d snapshot)
      (Ends (Found d proc t born n q snapshot) fun _ ↦ At proc t born n) := by
  have hquiet : (.backendGet snapshot.key : CacheEffect Sql (Rows D)).Quiet := trivial
  refine (respects_shared.quiet_ask hquiet (stable_at_and persistent_covers)
    (F := fun r _ ↦ ∀ v, r = .ok (some (.rows v)) → Recent d proc t born q v) ?_).andThen ?_
  · rintro w c r hw ⟨-, hcovers⟩ ha v rfl
    rcases act_backendGet ha with ⟨x, hx⟩ | hx
    · cases hx
    · exact hcovers.recent hw (Except.ok.inj hx).symm
  · intro v
    match v with
    | .error x =>
        show SharedTriple proc d t _ (if _ then _ else _) _
        split
        · exact Triple.throw x fun _ _ h ↦ h.1.1
        · exact Triple.pure none fun _ _ h ↦ ⟨h.1.1, h.1.2, by simp [Fetched]⟩
    | .ok none => exact Triple.pure none fun _ _ h ↦ ⟨h.1.1, h.1.2, by simp [Fetched]⟩
    | .ok (some stored) =>
        refine Triple.fact fun hrecent ↦ ?_
        refine (respects_shared.detach (stable_at_and persistent_covers) stored).tryCatch
          (fun v _ _ h ↦ ?_)
          fun x ↦ Triple.pure none fun _ _ h ↦ ⟨h.1, h.2, by simp [Fetched]⟩
        exact ⟨h.1.1, h.1.2, fun rows hrows ↦ hrecent rows (by rw [h.2 rows hrows])⟩

theorem lookup_triple (hgen : d.generation = true) :
    SharedTriple proc d t (fun w ↦ At proc t born n w ∧ Covers d proc t born q snapshot w)
      (lookup d snapshot) (Ends (Found d proc t born n q snapshot) fun _ ↦ At proc t born n) := by
  have hquiet : (.readState : CacheEffect Sql (Rows D)).Quiet := trivial
  refine (quiet_at hquiet persistent_covers).bind (fun state ↦ ?_) fun _ _ _ h ↦ h.1
  split
  · refine backendGet_triple.bind (fun v ↦ ?_) fun _ _ _ h ↦ h
    cases v with
    | none => exact Triple.pure none fun _ _ h ↦ h
    | some rows =>
        have hfound : Persistent proc d fun w ↦
            Covers d proc t born q snapshot w ∧ Fetched d proc t born q (some rows) :=
          persistent_covers.and (.pure _)
        refine (generationsMatch_triple hgen hfound).bind (fun b ↦ ?_) fun _ _ _ h ↦ h.1
        cases b with
        | false => exact Triple.pure none fun _ _ h ↦ ⟨h.1, h.2.1, by simp [Fetched]⟩
        | true =>
            refine (locked_with hfound fun st ↦ rfl).bind (fun _ ↦ ?_) fun _ _ _ h ↦ h.1
            exact Triple.pure _ fun _ _ h ↦ h
  · exact Triple.pure none fun _ _ h ↦ ⟨h.1, h.2, by simp [Fetched]⟩

theorem lookupFenced_triple (hgen : d.generation = true) :
    SharedTriple proc d t (fun w ↦ At proc t born n w ∧ Covers d proc t born q snapshot w)
      (lookupFenced d snapshot)
      (Ends (fun found ↦ Found d proc t born n q snapshot found.1) fun _ ↦ At proc t born n) := by
  refine (lookup_triple hgen).bind (fun cached ↦ ?_) fun _ _ _ h ↦ h
  have hquiet : (.readState : CacheEffect Sql (Rows D)).Quiet := trivial
  refine (quiet_at hquiet (persistent_covers.and (.pure _))).bind (fun state ↦ ?_)
    fun _ _ _ h ↦ h.1
  exact Triple.pure _ fun _ _ h ↦ h

end Reads

section Fills

/-- The rows were read after every installed token. -/
def ReadLast (v : Rows D) (w : CacheWorld T P Sql D) : Prop :=
  ∀ s m, w.installedAt s = some m → m < v.readAt

theorem runSql_triple (hL : Persistent proc d L) :
    SharedTriple proc d t (fun w ↦ At proc t born n w ∧ L w) (runSql q)
      (Ends (fun v w ↦ (At proc t born n w ∧ L w) ∧ Recent d proc t born q v ∧ ReadLast v w)
        fun _ ↦ At proc t born n) := by
  have hquiet : (.sql q : CacheEffect Sql (Rows D)).Quiet := trivial
  refine (respects_shared.quiet_ask hquiet (stable_at_and hL)
    (F := fun r w ↦ ∀ v, r = .ok v → Recent d proc t born q v ∧ ReadLast v w) ?_).consequence
    (fun _ _ h ↦ h) fun v _ _ h ↦ ?_
  · rintro w c r hw ⟨hat, -⟩ ha v rfl
    rcases act_sql ha with ⟨x, hx⟩ | ⟨content, hx⟩
    · cases hx
    obtain rfl := Except.ok.inj hx
    refine ⟨fun scope _ ↦ ⟨?_, ?_⟩, fun s m hm ↦ (hw.installedPast s m hm).1⟩
    · exact (hat.1.latest scope).trans_lt (hw.latestPast scope)
    · exact (hat.1.floor _ scope).trans_lt (hw.floorPast _ scope)
  · cases v with
    | ok v => exact ⟨h.1, h.2 v rfl⟩
    | error x => exact h.1.1

theorem runSql_recent :
    SharedTriple proc d t (At proc t born n) (runSql q)
      (Ends (fun v w ↦ At proc t born n w ∧ Recent d proc t born q v)
        fun _ ↦ At proc t born n) := by
  refine (runSql_triple (.pure True)).consequence (fun _ _ h ↦ ⟨h, trivial⟩) fun v _ _ h ↦ ?_
  cases v with
  | ok v => exact ⟨h.1.1, h.2.1⟩
  | error x => exact h

/-- The snapshot covers the query and its tokens were there before the rows. -/
def Publishable (d : Deployment Sql) (proc : T → P) (t : T) (born : CacheWorld T P Sql D)
    (q : PreparedQuery Sql) (snapshot : KeySnapshot) (v : Rows D) (w : CacheWorld T P Sql D) :
    Prop :=
  Covers d proc t born q snapshot w ∧ w.TokensBefore snapshot.generations v.readAt

omit [DecidableEq P] [DecidableEq T] in
theorem Covers.publishable (h : Covers d proc t born q snapshot w) {v : Rows D}
    (hv : ReadLast v w) : Publishable d proc t born q snapshot v w := by
  refine ⟨h, fun st hst ↦ ?_⟩
  obtain ⟨m, hm, -⟩ := h.seen st hst
  exact ⟨m, hm, hv _ m hm⟩

omit [DecidableEq P] [DecidableEq T] in
theorem persistent_publishable {v : Rows D} :
    Persistent proc d (Publishable d proc t born q snapshot v) :=
  persistent_covers.and fun _ _ _ h hb ↦ hb.evolves h

theorem storeRows_triple (hd : d.KeyFaithful) {v : Rows D} :
    SharedTriple proc d t
      (fun w ↦ At proc t born (n + 1) w ∧ Publishable d proc t born q snapshot v w)
      (QuerySetCache.backendSet d snapshot v) (fun _ ↦ At proc t born (n + 1)) := by
  refine (respects_shared.detachedResult (stable_at_and persistent_publishable) v).bind
    (fun copy ↦ ?_)
    fun _ _ _ h ↦ h.elim
  cases copy with
  | none => exact Triple.pure false fun _ _ h ↦ h.1.1
  | some copy =>
      refine Triple.fact fun hcopy ↦ ?_
      obtain rfl := hcopy copy rfl
      have hset : SharedTriple proc d t
          (fun w ↦ At proc t born (n + 1) w ∧ Publishable d proc t born q snapshot copy w)
          (ask (.backendSet snapshot.key copy)) fun _ ↦ At proc t born (n + 1) := by
        intro w hw h
        obtain ⟨parts, hkey, hparts⟩ := h.2.1.key
        have hrule : SharedTriple proc d t
            (Held proc t born n fun _ w ↦ Publishable d proc t born q snapshot copy w)
            (ask (.backendSet (makeKey d q.db parts) copy)) _ :=
          backendSet_triple hd (fun _ ↦ persistent_publishable) fun _ w h ↦ hparts ▸ h.2
        exact Safe.mono (fun _ _ _ h ↦ h.1) hw (hkey ▸ hrule w hw h)
      refine hset.andThen fun r ↦ ?_
      cases r with
      | ok => exact Triple.pure true fun _ _ h ↦ h
      | error x =>
          show SharedTriple proc d t _ (if _ then _ else _) _
          split
          · exact Triple.throw x fun _ _ h ↦ h
          · exact Triple.pure false fun _ _ h ↦ h

theorem publish_triple (hd : d.KeyFaithful) (hgen : d.generation = true) {generation : ℕ}
    {v : Rows D} :
    SharedTriple proc d t
      (fun w ↦ At proc t born (n + 1) w ∧ Publishable d proc t born q snapshot v w)
      (publish d q snapshot generation v) (fun _ ↦ At proc t born (n + 1)) := by
  have hread : (.readState : CacheEffect Sql (Rows D)).Quiet := trivial
  have htransactional : (.transactional q : CacheEffect Sql (Rows D)).Quiet := trivial
  refine (quiet_at hread persistent_publishable).bind (fun state ↦ ?_) fun _ _ _ h ↦ h.1
  refine triple_onlyIf (fun _ ↦ ?_) fun _ _ _ h ↦ h.1
  refine (quiet_at htransactional persistent_publishable).bind (fun b ↦ ?_) fun _ _ _ h ↦ h.1
  refine triple_onlyIf (fun _ ↦ ?_) fun _ _ _ h ↦ h.1
  refine (generationsMatch_triple hgen persistent_publishable).bind (fun matching ↦ ?_)
    fun _ _ _ h ↦ h.1
  refine triple_onlyIf (fun _ ↦ ?_) fun _ _ _ h ↦ h.1
  refine (storeRows_triple hd).bind (fun stored ↦ ?_) fun _ _ _ h ↦ h
  refine triple_onlyIf (fun _ ↦ ?_) fun _ _ _ h ↦ h
  exact (balanced_withLock (balanced_update fun st ↦ rfl)).bind fun _ ↦
    balanced_update fun st ↦ rfl

end Fills

section Queries

theorem stable_ends {Q : α → CacheWorld T P Sql D → Prop} (hQ : ∀ a, Persistent proc d (Q a))
    (v : Except CacheError α) :
    SharedStable proc d t
      (Ends (fun a w ↦ At proc t born n w ∧ Q a w) (fun _ ↦ At proc t born n) v) := by
  cases v with
  | ok a => exact stable_at_and (hQ a)
  | error x => exact stable_at

/-- A locked body in a span. -/
theorem span_lock_triple {Q : α → CacheWorld T P Sql D → Prop}
    (hL : Persistent proc d L) (hQ : ∀ a, Persistent proc d (Q a))
    {body : CacheProgram Sql (Rows D) α}
    (hbody : SharedTriple proc d t (fun w ↦ At proc t born 1 w ∧ L w) body
      (Ends (fun a w ↦ At proc t born 1 w ∧ Q a w) fun _ ↦ At proc t born 1)) :
    SharedTriple proc d t (fun w ↦ At proc t born 0 w ∧ L w)
      (novaSpan fun span ↦ do
        let a ← withLock body
        setAttribute span
        return a)
      (Ends (fun a w ↦ At proc t born 0 w ∧ Q a w) fun _ ↦ At proc t born 0) := by
  refine respects_shared.spans.novaSpan (stable_at_and hL) (stable_ends hQ) fun span ↦ ?_
  have hlock := withLock_triple hL hQ (.pure True) (hbody.consequence (fun _ _ h ↦ h)
    fun v _ _ h ↦ by cases v with
      | ok a => exact h
      | error x => exact ⟨h, trivial⟩)
  refine hlock.bind (fun a ↦ ?_) fun _ _ _ h ↦ h.1
  refine (respects_shared.spans.setAttribute (stable_at_and (hQ a)) span).bind (fun _ ↦ ?_)
    fun _ _ _ h ↦ h.1
  exact Triple.pure a fun _ _ h ↦ h

theorem get_triple (hgen : d.generation = true) :
    SharedTriple proc d t (At proc t born 0) (QuerySetCache.get d q)
      (Ends (fun v w ↦ At proc t born 0 w ∧ Fetched d proc t born q v)
        fun _ ↦ At proc t born 0) := by
  have htransactional : (.transactional q : CacheEffect Sql (Rows D)).Quiet := trivial
  refine (respects_shared.quiet_ask' htransactional stable_at).bind (fun b ↦ ?_) fun _ _ _ h ↦ h
  cases b with
  | true => exact Triple.pure none fun _ _ h ↦ ⟨h, by simp [Fetched]⟩
  | false =>
      refine (keySnapshot_triple hgen).andThen fun v ↦ ?_
      match v with
      | .error .uncacheableQuery => exact Triple.pure none fun _ _ h ↦ ⟨h, by simp [Fetched]⟩
      | .error .generationUnavailable => exact Triple.pure none fun _ _ h ↦ ⟨h, by simp [Fetched]⟩
      | .error .typeError => exact Triple.throw _ fun _ _ h ↦ h
      | .error (.raised k) => exact Triple.throw _ fun _ _ h ↦ h
      | .ok snapshot =>
          exact span_lock_triple persistent_covers (fun _ ↦ .pure _)
            ((lookup_triple hgen).consequence (fun _ _ h ↦ h) fun v _ _ h ↦ by
              cases v with
              | ok v => exact ⟨h.1, h.2.2⟩
              | error x => exact h)

theorem fill_triple (hd : d.KeyFaithful) (hgen : d.generation = true) {generation : ℕ} :
    SharedTriple proc d t (fun w ↦ At proc t born 0 w ∧ Covers d proc t born q snapshot w)
      (fill d q snapshot generation)
      (Ends (fun v w ↦ At proc t born 0 w ∧ Recent d proc t born q v)
        fun _ ↦ At proc t born 0) := by
  refine respects_shared.spans.novaSpan (stable_at_and persistent_covers)
    (stable_ends fun _ ↦ .pure _) fun span ↦ ?_
  refine (runSql_triple persistent_covers).bind (fun v ↦ ?_) fun _ _ _ h ↦ h
  have hpublish : SharedTriple proc d t
      (fun w ↦ At proc t born 0 w ∧ Publishable d proc t born q snapshot v w)
      (withLock (publish d q snapshot generation v)) _ :=
    withLock_triple persistent_publishable (fun _ ↦ .pure True) (.pure True)
      ((publish_triple hd hgen).consequence (fun _ _ h ↦ h) fun r _ _ h ↦ by
        cases r with
        | ok => exact ⟨h, trivial⟩
        | error x => exact ⟨h, trivial⟩)
  intro w hw h
  refine Triple.bind hpublish (fun _ ↦ ?_) (fun _ _ _ h ↦ h.1) w hw
    ⟨h.1.1, h.1.2.publishable h.2.2⟩
  refine Triple.bind ((setAttribute_balanced span).consequence (fun _ _ h ↦ h.1) fun _ _ _ h ↦ h)
    (fun _ ↦ ?_) fun _ _ _ h ↦ h
  exact Triple.pure v fun _ _ hat ↦ ⟨hat, h.2.1⟩

theorem getOrSet_triple (hd : d.KeyFaithful) (hgen : d.generation = true) :
    SharedTriple proc d t (At proc t born 0) (getOrSet d q)
      (Ends (fun v w ↦ At proc t born 0 w ∧ Recent d proc t born q v)
        fun _ ↦ At proc t born 0) := by
  have htransactional : (.transactional q : CacheEffect Sql (Rows D)).Quiet := trivial
  refine (respects_shared.quiet_ask' htransactional stable_at).bind (fun b ↦ ?_) fun _ _ _ h ↦ h
  cases b with
  | true => exact runSql_recent
  | false =>
      refine (keySnapshot_triple hgen).andThen fun v ↦ ?_
      match v with
      | .error .uncacheableQuery => exact runSql_recent
      | .error .generationUnavailable => exact runSql_recent
      | .error .typeError => exact Triple.throw _ fun _ _ h ↦ h
      | .error (.raised k) => exact Triple.throw _ fun _ _ h ↦ h
      | .ok snapshot =>
          refine (span_lock_triple persistent_covers (fun _ ↦ persistent_covers.and (.pure _))
            (lookupFenced_triple hgen)).bind (fun found ↦ ?_) fun _ _ _ h ↦ h
          obtain ⟨cached, generation⟩ := found
          cases cached with
          | some rows => exact Triple.pure rows fun _ _ h ↦ ⟨h.1, h.2.2 rows rfl⟩
          | none => exact fun w hw h ↦ fill_triple hd hgen w hw ⟨h.1, h.2.1⟩

end Queries

section Writes

theorem rotateForWrite_balanced (scope : Scope) :
    Balanced proc d t born (n + 1) (rotateForWrite scope) := by
  have hadd : SharedTriple proc d t (Held proc t born n fun _ _ ↦ True) (update (.addPending scope))
      (Ends (fun _ ↦ Held proc t born n fun st _ ↦ scope ∈ st.pendingGenerations)
        fun _ _ ↦ False) := by
    refine update_held (fun _ ↦ (Persistent.pure True).kept) (fun _ ↦ .pure _) ?_ ?_
    · intro st w _ _ scope' hmem hout
      exact absurd (Finset.mem_insert_of_mem hmem) hout
    · exact fun st _ _ ↦ Finset.mem_insert_self scope st.pendingGenerations
  refine (hadd.consequence (fun _ _ h ↦ ⟨h, trivial⟩) fun _ _ _ h ↦ h).bind (fun _ ↦ ?_)
    fun _ _ _ h ↦ h.elim
  refine (rotateValidated_triple (fun _ ↦ .pure _) fun _ _ h ↦ h).andThen fun v ↦ ?_
  cases v with
  | ok =>
      refine (discardPending_triple (M := fun _ _ ↦ True) (fun _ ↦ .pure _) (fun _ ↦ .pure _)
        fun _ _ _ ↦ trivial).consequence (fun _ _ h ↦ h) fun v _ _ h ↦ ?_
      cases v with
      | ok => exact h.1
      | error x => exact h.elim
  | error x => exact Triple.pure () fun _ _ h ↦ h.1

theorem deleteKeys_balanced (keys : List Str) (deleted : ℕ) :
    Balanced proc d t born (n + 1) (deleteKeys keys deleted) := by
  induction keys generalizing deleted with
  | nil => exact .pure deleted
  | cons key rest ih =>
      have hdelete : Balanced proc d t born (n + 1) (ask (.backendDelete key)) :=
        (backendDelete_triple (K := fun _ _ ↦ True) fun _ ↦ .pure _).consequence
          (fun _ _ h ↦ ⟨h, trivial⟩) fun _ _ _ h ↦ h.1
      refine hdelete.andThen fun r ↦ ?_
      cases r with
      | error x => exact ih deleted
      | ok found =>
          exact (balanced_withLock (balanced_update fun st ↦ rfl)).bind fun _ ↦ ih _

theorem invalidateLocked_balanced (span : Bool) (modelName db : Str) :
    Balanced proc d t born (n + 1) (invalidateLocked d span modelName db) := by
  refine (balanced_update fun st ↦ rfl).bind fun _ ↦ ?_
  refine Balanced.bind (triple_onlyIf (fun _ ↦ rotateForWrite_balanced _) fun _ _ _ h ↦ h)
    fun _ ↦ ?_
  have hread : (.readState : CacheEffect Sql (Rows D)).Quiet := trivial
  refine Balanced.bind (respects_shared.quiet_ask' hread stable_at) fun state ↦ ?_
  show Balanced proc d t born (n + 1) (if _ then _ else _)
  split
  · exact (setAttribute_balanced span).bind fun _ ↦ .pure none
  · refine (balanced_update fun st ↦ rfl).bind fun _ ↦ ?_
    have horder : (.keyOrder (state.invalidationKeys d.databaseDigest
        (normalizeModelNames d.lower modelName) db) : CacheEffect Sql (Rows D)).Quiet := trivial
    refine Balanced.bind (respects_shared.quiet_ask' horder stable_at) fun order ↦ ?_
    exact (deleteKeys_balanced order 0).bind fun deleted ↦ .pure (some deleted)

theorem invalidateModel_balanced (modelName db : Str) :
    Balanced proc d t born 0 (invalidateModel d modelName db) := by
  refine respects_shared.spans.novaSpan stable_at (fun _ ↦ stable_at) fun span ↦ ?_
  show Balanced proc d t born 0 (if _ then _ else _)
  split
  · exact (setAttribute_balanced span).bind fun _ ↦ .pure 0
  · refine (balanced_withLock (invalidateLocked_balanced span modelName db)).bind
      fun counted ↦ ?_
    cases counted with
    | none => exact .pure 0
    | some deleted => exact (setAttribute_balanced span).bind fun _ ↦ .pure deleted

theorem clear_balanced :
    Balanced proc d t born 0 (QuerySetCache.clear : CacheProgram Sql (Rows D) Unit) := by
  refine balanced_withLock ((balanced_update fun st ↦ rfl).bind fun _ ↦ ?_)
  refine Triple.andThen ((backendClear_triple (K := fun _ _ ↦ True) fun _ ↦ .pure _).consequence
    (fun _ _ h ↦ ⟨h, trivial⟩) fun _ _ _ h ↦ h) fun v ↦ ?_
  cases v with
  | error x =>
      exact (balanced_update fun st ↦ rfl).consequence (fun _ _ h ↦ h.1) fun _ _ _ h ↦ h
  | ok =>
      refine (update_held (M := fun _ _ ↦ True) ?_ (fun _ ↦ .pure _) ?_
        fun _ _ _ ↦ trivial).consequence (fun _ _ h ↦ h) fun v _ _ h ↦ ?_
      · exact fun _ w w' hw he hf h ↦
          ⟨trivial, fun scope ↦ kept_fresh scope w w' hw he hf (h.2 scope)⟩
      · exact fun _ _ _ hk scope _ _ ↦ hk.2 scope
      · cases v with
        | ok => exact h.1
        | error x => exact h.elim

end Writes

end DjangoNova.CacheWorld
