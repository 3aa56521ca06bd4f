import DjangoNova.Cache.AnswerRules
import DjangoNova.Cache.DefaultCache

/-!
# The age of served rows

An entry of the default cache is served only within its time to live. So a
call returns rows that it has read itself, or rows that were stored less
than one time to live before the call began, whatever happened to the
database in the meantime.
-/

namespace DjangoNova

namespace DefaultCache

open Protocol QuerySetCache CacheWorld

variable {T Sql D : Type}

/-- The rows were stored under the key at the time `s`. -/
def StoredAt (key : Str) (rows : Rows D) (s : ℚ) (w : DefaultCache T Sql D) : Prop :=
  ∃ (i : ℕ) (u : T), w.cache.log[i]? = some ⟨u, .backendSet key rows, .ok ()⟩ ∧
    w.times[i]? = some s

structure Later (w w' : DefaultCache T Sql D) : Prop where
  log : w.cache.log <+: w'.cache.log
  times : w.times <+: w'.times
  now : w.now ≤ w'.now

/-- Every entry was stored one time to live before it expires. -/
structure Dated (ttl : ℤ) (w : DefaultCache T Sql D) : Prop where
  times : w.times.length = w.cache.log.length
  entries {key : Str} {entry : MemoryEntry (Rows D)} : (key, entry) ∈ w.data.items →
    ∃ s, StoredAt key entry.value s w ∧ entry.expiresAt = some (s + ttl)

/-- The call of `t`, which began in `born`, read the rows itself, or they
were stored less than one time to live before it began. -/
def Origin (ttl : ℤ) (d : Deployment Sql) (t : T) (born : DefaultCache T Sql D)
    (q : PreparedQuery Sql) (rows : Rows D) (w : DefaultCache T Sql D) : Prop :=
  (∃ i : ℕ, born.cache.log.length ≤ i ∧ w.cache.log[i]? = some ⟨t, .sql q, .ok rows⟩) ∨
    ∃ key names s, localKey d q = some (key, names) ∧ StoredAt key rows s w ∧ born.now < s + ttl

variable {w w' w'' born : DefaultCache T Sql D}

theorem Later.refl : Later w w := ⟨List.prefix_rfl, List.prefix_rfl, le_rfl⟩

theorem Later.trans (h : Later w w') (h' : Later w' w'') : Later w w'' :=
  ⟨h.log.trans h'.log, h.times.trans h'.times, h.now.trans h'.now⟩

theorem StoredAt.later (h : Later w w') {key : Str} {rows : Rows D} {s : ℚ}
    (hs : StoredAt key rows s w) : StoredAt key rows s w' := by
  obtain ⟨i, u, hlog, htime⟩ := hs
  exact ⟨i, u, getElem?_extends h.log hlog, getElem?_extends h.times htime⟩

theorem Origin.later {ttl : ℤ} {d : Deployment Sql} {t : T} {q : PreparedQuery Sql}
    {rows : Rows D} (h : Later w w') (ho : Origin ttl d t born q rows w) :
    Origin ttl d t born q rows w' := by
  refine ho.imp ?_ ?_
  · rintro ⟨i, hi, hlog⟩
    exact ⟨i, hi, getElem?_extends h.log hlog⟩
  · rintro ⟨key, names, s, hkey, hs, hlt⟩
    exact ⟨key, names, s, hkey, hs.later h, hlt⟩

/-- A call that begins later promises more. -/
theorem Origin.since {ttl : ℤ} {d : Deployment Sql} {t : T} {q : PreparedQuery Sql}
    {rows : Rows D} (h : Later w born) (ho : Origin ttl d t born q rows w') :
    Origin ttl d t w q rows w' := by
  refine ho.imp ?_ ?_
  · rintro ⟨i, hi, hlog⟩
    exact ⟨i, h.log.length_le.trans hi, hlog⟩
  · rintro ⟨key, names, s, hkey, hs, hlt⟩
    exact ⟨key, names, s, hkey, hs, h.now.trans_lt hlt⟩

section Steps

variable [DecidableEq T] {b : MemoryCacheBackend} {ttl : ℤ} {t : T}
variable {e : CacheEffect Sql (Rows D)} {r : Except CacheError e.Reply}

/-- What an effect adds to the stored entries. -/
theorem act_items {c : CacheChoice D} (h : w.act b ttl t e c = some (r, w')) {key : Str}
    {entry : MemoryEntry (Rows D)} (hmem : (key, entry) ∈ w'.data.items) :
    (key, entry) ∈ w.data.items ∨
      entry.expiresAt = some (w.now + ttl) ∧
        (⟨t, e, r⟩ : CacheEvent T Sql D) = ⟨t, .backendSet key entry.value, .ok ()⟩ := by
  by_cases he : Serving e
  · cases e with
    | backendGet key' =>
        cases c <;> simp only [act, reduceCtorEq, Option.some.injEq, Prod.mk.injEq] at h
        obtain ⟨rfl, rfl⟩ := h
        exact .inl (MemoryCacheBackend.mem_get.mp hmem).1
    | backendSet key' rows =>
        cases c <;> simp only [act, reduceCtorEq, Option.some.injEq, Prod.mk.injEq] at h
        obtain ⟨rfl, rfl⟩ := h
        rcases MemoryCacheBackend.mem_set hmem with ⟨rfl, rfl⟩ | ⟨-, hold⟩
        · exact .inr ⟨rfl, rfl⟩
        · exact .inl hold
    | backendDelete key' =>
        cases c <;> simp only [act, reduceCtorEq, Option.some.injEq, Prod.mk.injEq] at h
        obtain ⟨rfl, rfl⟩ := h
        exact .inl (MemoryCacheBackend.mem_delete.mp hmem).2
    | backendClear =>
        cases c <;> simp only [act, reduceCtorEq, Option.some.injEq, Prod.mk.injEq] at h
        obtain ⟨rfl, rfl⟩ := h
        exact absurd hmem List.not_mem_nil
    | generationWriter | newGeneration | tokenGet | tokenWrite =>
        cases c <;> simp [act] at h
    | _ => exact he.elim
  · rw [act_of_not_serving he] at h
    obtain ⟨q, -, heq⟩ := Option.map_eq_some_iff.mp h
    obtain ⟨-, rfl⟩ := Prod.mk.inj heq
    exact .inl hmem

theorem act_ghosts {c : CacheChoice D} (h : w.act b ttl t e c = some (r, w')) :
    w'.cache.log = w.cache.log ∧ w'.times = w.times ∧ w'.now = w.now := by
  by_cases he : Serving e
  · cases e with
    | backendGet | backendSet | backendDelete | backendClear =>
        cases c <;> simp only [act, reduceCtorEq, Option.some.injEq, Prod.mk.injEq] at h
        obtain ⟨-, rfl⟩ := h
        exact ⟨rfl, rfl, rfl⟩
    | generationWriter | newGeneration | tokenGet | tokenWrite =>
        cases c <;> simp [act] at h
    | _ => exact he.elim
  · rw [act_of_not_serving he] at h
    obtain ⟨⟨r', cache⟩, hcache, heq⟩ := Option.map_eq_some_iff.mp h
    obtain ⟨-, rfl⟩ := Prod.mk.inj heq
    exact ⟨act_log hcache, rfl, rfl⟩

/-- The time does not change during an effect, which is logged with it. -/
theorem act_record {c : CacheChoice D} (h : w.act b ttl t e c = some (r, w')) :
    (w'.record t e r).cache.log = w.cache.log ++ [⟨t, e, r⟩] ∧
      (w'.record t e r).times = w.times ++ [w.now] ∧ (w'.record t e r).now = w.now := by
  obtain ⟨hlog, htimes, hnow⟩ := act_ghosts h
  refine ⟨?_, ?_, hnow⟩
  · show w'.cache.log ++ _ = _
    rw [hlog]
  · show w'.times ++ [w'.now] = _
    rw [htimes, hnow]

theorem later_record {c : CacheChoice D} (h : w.act b ttl t e c = some (r, w')) :
    Later w (w'.record t e r) := by
  obtain ⟨hlog, htimes, hnow⟩ := act_record h
  refine ⟨?_, ?_, hnow.ge⟩
  · rw [hlog]
    exact List.prefix_append _ _
  · rw [htimes]
    exact List.prefix_append _ _

theorem dated_record {c : CacheChoice D} (h : w.act b ttl t e c = some (r, w'))
    (hw : Dated ttl w) : Dated ttl (w'.record t e r) := by
  have hlater := later_record h
  obtain ⟨hlog, htimes, -⟩ := act_record h
  refine ⟨by rw [hlog, htimes, List.length_append, List.length_append, hw.times]; rfl,
    fun {key entry} hmem ↦ ?_⟩
  rcases act_items h hmem with hold | ⟨hexpires, hevent⟩
  · obtain ⟨s, hs, hexpires⟩ := hw.entries hold
    exact ⟨s, hs.later hlater, hexpires⟩
  · refine ⟨w.now, ⟨w.cache.log.length, t, ?_, ?_⟩, hexpires⟩
    · rw [hlog, ← hevent, List.getElem?_concat_length]
    · rw [htimes, ← hw.times, List.getElem?_concat_length]

theorem perform_cases {c : DefaultCacheChoice D}
    (h : (machine b ttl).perform t e c w = some (r, w')) :
    ∃ c' w₁, w.act b ttl t e c' = some (r, w₁) ∧ w' = w₁.record t e r := by
  cases c with
  | wait seconds => cases h
  | effect c =>
      obtain ⟨⟨r', w₁⟩, hact, heq⟩ := Option.map_eq_some_iff.mp h
      obtain ⟨rfl, rfl⟩ := Prod.mk.inj heq
      exact ⟨c, w₁, hact, rfl⟩

omit [DecidableEq T] in
theorem dated_initial (now : ℚ) : Dated ttl (initial now : DefaultCache T Sql D) :=
  ⟨rfl, fun hmem ↦ absurd hmem List.not_mem_nil⟩

theorem environment_cases {c : DefaultCacheChoice D}
    (h : (machine b ttl : Machine T _ _ _ (DefaultCache T Sql D) _).environment c w = some w') :
    Later w w' ∧ (Dated ttl w → Dated ttl w') := by
  cases c with
  | effect c => cases h
  | wait seconds =>
      obtain ⟨hle, rfl⟩ := (Option.ite_none_right_eq_some.mp h).imp_right Option.some.inj
      exact ⟨⟨List.prefix_rfl, List.prefix_rfl, le_add_of_nonneg_right hle⟩,
        fun hw ↦ ⟨hw.times, hw.entries⟩⟩

variable (b ttl) in
/-- Any program of any thread keeps the dates. -/
def ageProtocol : Protocol T (CacheEffect Sql (Rows D)) CacheEffect.Reply CacheError
    (DefaultCache T Sql D) (DefaultCacheChoice D) where
  machine := machine b ttl
  allowed := fun _ _ _ _ ↦ True
  inv := Dated ttl
  rely := fun _ ↦ Later
  rely_refl := fun _ _ ↦ .refl
  rely_trans := fun _ _ _ _ ↦ .trans
  environment_inv := fun _ _ _ hw h ↦ (environment_cases h).2 hw
  environment_rely := fun _ _ _ _ _ h ↦ (environment_cases h).1

abbrev AgeTriple {α : Type} (b : MemoryCacheBackend) (ttl : ℤ) (t : T)
    (pre : DefaultCache T Sql D → Prop) (p : CacheProgram Sql (Rows D) α)
    (post : Except CacheError α → DefaultCache T Sql D → Prop) : Prop :=
  (ageProtocol b ttl).Triple t pre p post

theorem age_keeping : (ageProtocol b ttl : Protocol T (CacheEffect Sql (Rows D))
    CacheEffect.Reply CacheError (DefaultCache T Sql D) (DefaultCacheChoice D)).Keeping := by
  intro t e c w r w' hw hperform
  obtain ⟨c', w₁, hact, rfl⟩ := perform_cases hperform
  exact ⟨dated_record hact hw, fun _ ↦ later_record hact⟩

end Steps

section Methods

variable [DecidableEq T] {b : MemoryCacheBackend} {ttl : ℤ} {t : T} {d : Deployment Sql}
variable {q : PreparedQuery Sql} {snapshot : KeySnapshot} {A : DefaultCache T Sql D → Prop}

theorem stable_later : (ageProtocol b ttl).Stable t (Later born) :=
  fun _ _ _ _ h hborn ↦ Later.trans hborn h

theorem stable_origin (rows : Rows D) :
    (ageProtocol b ttl).Stable t (Origin ttl d t born q rows) :=
  fun _ _ _ _ h ho ↦ Origin.later h ho

theorem runSql_age :
    AgeTriple b ttl t (Later born) (runSql q)
      (Ends (Origin ttl d t born q) fun _ _ ↦ True) := by
  refine age_keeping.call stable_later fun w c r w' _ hborn hperform _ ↦ ?_
  cases r with
  | error x => trivial
  | ok rows =>
      obtain ⟨c', w₁, hact, rfl⟩ := perform_cases hperform
      refine .inl ⟨w.cache.log.length, hborn.log.length_le, ?_⟩
      rw [(act_record hact).1, List.getElem?_concat_length]

theorem detach_age (hA : (ageProtocol b ttl).Stable t A)
    (rows : Rows D) :
    AgeTriple b ttl t A (detach d (.rows rows))
      (Ends (fun cached w ↦ A w ∧ ∀ v, cached = some v → v = rows) fun _ ↦ A) := by
  refine Triple.bind (Q := fun _ ↦ A) (Triple.done _ fun _ _ h ↦ h) (fun detached ↦ ?_)
    fun _ _ _ h ↦ h
  cases detached with
  | true => exact Triple.pure _ fun _ _ h ↦ ⟨h, fun v hv ↦ (Option.some.inj hv).symm⟩
  | false =>
      have hcopy : AgeTriple b ttl t A (ask (.copyRows rows))
          (Ends (fun v w ↦ A w ∧ v = rows) fun _ ↦ A) := by
        refine age_keeping.call hA fun w c r w' _ _ hperform hA' ↦ ?_
        obtain ⟨c', w₁, hact, rfl⟩ := perform_cases hperform
        obtain ⟨⟨r', cache⟩, hcache, heq⟩ := Option.map_eq_some_iff.mp hact
        obtain ⟨rfl, rfl⟩ := Prod.mk.inj heq
        rcases act_copyRows hcache with ⟨x, rfl⟩ | rfl
        · exact hA'
        · exact ⟨hA', rfl⟩
      refine hcopy.bind (fun v ↦ ?_) fun _ _ _ h ↦ h
      refine Triple.fact fun hv ↦ Triple.pure _ fun _ _ h ↦ ⟨h, fun v' hv' ↦ ?_⟩
      rw [← Option.some.inj hv', hv]

/-- A served entry has not reached the end of its time to live. -/
theorem backendGet_age (hs : IsSnapshot d q snapshot) :
    AgeTriple b ttl t (Later born) (backendGet d snapshot)
      (Ends (Finds (Later born) (Origin ttl d t born q)) fun _ ↦ Later born) := by
  have hget : AgeTriple b ttl t (Later born) (ask (.backendGet snapshot.key)) fun r w ↦
      Later born w ∧ ∀ rows, r = .ok (some (.rows rows)) → Origin ttl d t born q rows w := by
    refine age_keeping.call stable_later fun w c r w' hw hborn hperform hborn' ↦ ⟨hborn', ?_⟩
    rintro rows rfl
    obtain ⟨c', w₁, hact, rfl⟩ := perform_cases hperform
    have hlater := later_record hact
    cases c' <;> simp only [act, reduceCtorEq, Option.some.injEq, Prod.mk.injEq] at hact
    obtain ⟨hreply, rfl⟩ := hact
    rw [MemoryCacheBackend.get_liveValue] at hreply
    obtain ⟨v, hv, hrows⟩ := Option.map_eq_some_iff.mp (Except.ok.inj hreply)
    obtain rfl := Stored.rows.inj hrows
    obtain ⟨entry, hmem, hlive, rfl⟩ := MemoryCacheBackend.liveValue_eq_some_iff.mp hv
    obtain ⟨s, hstored, hexpires⟩ := hw.entries hmem
    refine .inr ⟨snapshot.key, snapshot.names, s, hs.2, hstored.later hlater, ?_⟩
    exact hborn.now.trans_lt (MemoryCacheBackend.isExpired_eq_false.mp hlive _ hexpires)
  refine hget.andThen fun r ↦ ?_
  cases r with
  | error x =>
      show AgeTriple b ttl t _ (if _ then _ else _) _
      rw [if_pos hs.1]
      exact Triple.throw x fun _ _ h ↦ h.1
  | ok found =>
      cases found with
      | none => exact Triple.pure none fun _ _ h ↦ ⟨h.1, fun _ hrows ↦ by cases hrows⟩
      | some stored =>
          cases stored with
          | other => exact Triple.pure none fun _ _ h ↦ ⟨h.1, fun _ hrows ↦ by cases hrows⟩
          | rows v =>
              have hA : (ageProtocol b ttl).Stable t fun w ↦
                  Later born w ∧ Origin ttl d t born q v w :=
                fun w w' hw hw' h ha ↦ ⟨stable_later w w' hw hw' h ha.1, ha.2.later h⟩
              refine Triple.tryCatch ((detach_age hA v).consequence
                (fun _ _ h ↦ ⟨h.1, h.2 v rfl⟩) fun _ _ _ h ↦ h)
                (fun cached w _ h ↦ ⟨h.1.1, fun rows hrows ↦ ?_⟩)
                fun x ↦ Triple.pure none fun _ _ h ↦ ⟨h.1, fun _ hrows ↦ by cases hrows⟩
              rw [h.2 rows hrows]
              exact h.1.2

theorem lookup_age (hs : IsSnapshot d q snapshot) :
    AgeTriple b ttl t (Later born) (lookup d snapshot)
      (Ends (Finds (Later born) (Origin ttl d t born q)) fun _ _ ↦ True) := by
  have hmiss : AgeTriple b ttl t (Later born) (pure none)
      (Ends (Finds (Later born) (Origin ttl d t born q)) fun _ _ ↦ True) :=
    Triple.pure none fun _ _ h ↦ ⟨h, fun _ hrows ↦ by cases hrows⟩
  refine age_keeping.before stable_later (ask .readState) fun state ↦ ?_
  split
  · refine (backendGet_age hs).bind (fun cached ↦ ?_) fun _ _ _ _ ↦ trivial
    cases cached with
    | none => exact Triple.pure none fun _ _ h ↦ h
    | some rows =>
        refine Triple.bind (age_keeping.program (stable_finds stable_later stable_origin _) _)
          (fun matching ↦ ?_) fun _ _ _ _ ↦ trivial
        cases matching with
        | false => exact fun w hw h ↦ hmiss w hw h.1
        | true => exact age_keeping.returned (stable_finds stable_later stable_origin (some rows)) _
  · exact hmiss

theorem sourced_age (hgen : d.generation = false) :
    Sourced (ageProtocol b ttl) t d q (Later born) (Origin ttl d t born q) where
  stable := stable_later
  rows := stable_origin
  sql := runSql_age
  lookup := by
    obtain ⟨v, hv, hsnapshot⟩ := keySnapshot_eq (D := D) (q := q) hgen
    rw [hv]
    refine Triple.done _ fun w _ h ↦ ?_
    cases v with
    | ok snapshot => exact ⟨h, lookup_age (hsnapshot snapshot rfl)⟩
    | error x => exact h

end Methods

end DefaultCache

section Runs

open DefaultCache

variable {T Sql D : Type} [DecidableEq T] {b : MemoryCacheBackend} {ttl : ℤ}
variable {d : Deployment Sql} {call : T → CacheCall Sql}

/-- A call that had not begun in `p₀` returns rows that it has read itself,
or rows that were stored under its key less than one time to live before. -/
theorem default_cache_age (hgen : d.generation = false) {now : ℚ}
    {p₀ p : DefaultCachePool T Sql D}
    (h₀ : Transition.Reaches (defaultCacheStep b ttl d call) Transition.Always
      (Pool.start (DefaultCache.initial now)) p₀)
    (h : Transition.Reaches (defaultCacheStep b ttl d call) Transition.Always p₀ p)
    {reader : T} {q : PreparedQuery Sql} {rows : Rows D} (hq : (call reader).reads = some q)
    (hnone : p₀.threads reader = none)
    (hreader : p.outcome reader = some (.ok (.rows rows))) :
    Origin ttl d reader p₀.world q rows p.world := by
  have hstable : ∀ t (born : DefaultCache T Sql D) v, (ageProtocol b ttl).Stable t
      (Answered (Origin ttl d t born) (call t) v) :=
    fun t born v ↦ stable_answered (fun _ ↦ stable_origin) v
  have hbody : ∀ t (w : DefaultCache T Sql D), Dated ttl w → (ageProtocol b ttl).Safe t
      (Answered (Origin ttl d t w) (call t)) ((call t).program d) w := fun t w hw ↦
    answered_call age_keeping stable_later (fun _ _ ↦ sourced_age hgen) w hw .refl
  obtain ⟨th, hth, hanswer⟩ := Protocol.outcome_of_run (fun _ _ _ _ ↦ trivial)
    (dated_initial now) hstable hbody (h₀.trans h) hreader
  have hborn : Later p₀.world th.born := by
    refine (Pool.born_later (A := Later) (fun _ ↦ .refl) (fun _ _ _ ↦ .trans) ?_ ?_ h).2
      reader th hnone hth
    · intro t e c w r w' hperform
      obtain ⟨c', w₁, hact, rfl⟩ := perform_cases hperform
      exact later_record hact
    · exact fun c w w' hmove ↦ (environment_cases hmove).1
  exact Origin.since hborn (hanswer q hq)

/-- The entry of a fill is served 200 seconds later, and has to be less than
300 seconds old. -/
theorem default_cache_age_sample :
    ∃ p₀ p, Transition.Reaches memorySampleStep Transition.Always
        (Pool.start (DefaultCache.initial 0)) p₀ ∧
      Transition.Reaches memorySampleStep Transition.Always p₀ p ∧
      p.outcome .reader = some (.ok (.rows ⟨7, 9⟩)) ∧
      Origin 300 memoryDeployment .reader p₀.world sharedQuery ⟨7, 9⟩ p.world := by
  have hrun : ((Transition.run memorySampleStep (Pool.start (DefaultCache.initial 0))
      (memoryTurns .filler (fillChoices .ok 6) ++ [.environment (.wait 200)])).bind fun p₀ ↦
      (Transition.run memorySampleStep p₀
        (memoryTurns .reader ([.flag false, .flag false] ++ List.replicate 9 .ok))).map fun p ↦
        ((p₀.threads .reader).isNone, memoryAnswer p .reader)) =
      some (true, some (some ⟨7, 9⟩)) := by
    decide +kernel
  obtain ⟨p₀, h₀, hrun⟩ := Option.bind_eq_some_iff.mp hrun
  obtain ⟨p, h, hrun⟩ := Option.map_eq_some_iff.mp hrun
  simp only [Prod.mk.injEq, Option.isNone_iff_eq_none] at hrun
  obtain ⟨v, hv, hrows⟩ := memoryAnswer_some hrun.2
  obtain rfl := hrows _ rfl
  have hreach₀ : Transition.Reaches memorySampleStep Transition.Always
      (Pool.start (DefaultCache.initial 0)) p₀ :=
    Transition.reaches_of_run (fun _ _ _ ↦ trivial) h₀
  have hreach : Transition.Reaches memorySampleStep Transition.Always p₀ p :=
    Transition.reaches_of_run (fun _ _ _ ↦ trivial) h
  have hquery : (localCall .reader).reads = some sharedQuery := rfl
  exact ⟨p₀, p, hreach₀, hreach, hv,
    default_cache_age (d := memoryDeployment) rfl hreach₀ hreach hquery hrun.1 hv⟩

end Runs

end DjangoNova
