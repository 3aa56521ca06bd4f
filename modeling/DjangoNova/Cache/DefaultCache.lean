import DjangoNova.Cache.LocalFreshness
import DjangoNova.Concurrency.Simulation
import DjangoNova.Memory.LiveValues

/-!
# The default cache of a process

Without a configured backend the results of a process are in a
`MemoryCacheBackend`, whose entries expire and whose least recently used
entries are evicted. This cache implements one over a server that may lose
any entry at any time, and its backend never fails: all its runs are fresh.
-/

namespace DjangoNova

open CacheWorld QuerySetCache

/-- The state, the lock and the log are those of `cache`, the results are in `data`. -/
structure DefaultCache (T Sql D : Type) where
  cache : CacheWorld T Unit Sql D
  data : MemoryCacheBackend.Data (Rows D)
  now : ℚ
  /-- Ghost: the times of the logged effects. -/
  times : List ℚ

inductive DefaultCacheChoice (D : Type) where
  | effect (c : CacheChoice D)
  | wait (seconds : ℚ)

namespace CacheWorld

variable {T Sql D : Type}

def withEntries (w : LocalWorld T Sql D) (entries : Str → Option (Stored (Rows D))) :
    LocalWorld T Sql D :=
  { w with entries := entries }

variable [DecidableEq T]

/-- The effects on results and tokens. -/
def Serving : CacheEffect Sql (Rows D) → Prop
  | .backendGet _ | .backendSet _ _ | .backendDelete _ | .backendClear | .generationWriter
  | .newGeneration | .tokenGet _ | .tokenWrite _ _ _ => True
  | _ => False

/-- The other effects neither read nor change what the server has. -/
theorem act_withEntries {t : T} {w w' : LocalWorld T Sql D} {e : CacheEffect Sql (Rows D)}
    (he : ¬Serving e) {c : CacheChoice D} {r : Except CacheError e.Reply}
    (h : w.act (fun _ ↦ ()) t e c = some (r, w')) (entries : Str → Option (Stored (Rows D))) :
    (w.withEntries entries).act (fun _ ↦ ()) t e c = some (r, w'.withEntries entries) ∧
      w'.tokens = w.tokens := by
  have hlock : ∀ l, (w.withEntries entries).setLock () l = (w.setLock () l).withEntries entries :=
    fun _ ↦ rfl
  by_cases hquiet : e.Quiet
  · obtain rfl := act_quiet hquiet h
    refine ⟨?_, rfl⟩
    cases e with
    | readState | transactional | sql | copyRows | keyOrder | span =>
        cases c <;> simp only [act, reduceCtorEq, Option.ite_none_right_eq_some, Option.some.injEq,
          Prod.mk.injEq] at h ⊢ <;> grind [withEntries, now]
    | _ => first | exact absurd trivial he | exact absurd hquiet id
  · have hlocks : (w.withEntries entries).locks = w.locks := rfl
    cases e with
    | acquire | release =>
        cases c <;> simp only [act, reduceCtorEq, hlocks, hlock] at h ⊢
        cases hheld : w.locks () <;> simp only [hheld] at h ⊢ <;> grind [setLock]
    | update u =>
        obtain ⟨rfl, rfl⟩ := act_update h
        cases c <;> simp only [act, reduceCtorEq] at h
        cases u <;> exact ⟨rfl, rfl⟩
    | _ => first | exact absurd trivial he | exact absurd trivial hquiet

/-- A server may lose any entries. -/
theorem drifts_of_loss {w : LocalWorld T Sql D} {entries : Str → Option (Stored (Rows D))}
    {keys : List Str} (h : ∀ k, entries k = w.entries k ∨ (entries k = none ∧ k ∈ keys)) :
    (CacheWorld.machine fun _ ↦ ()).Drifts w (w.withEntries entries) := by
  induction keys generalizing w with
  | nil =>
      have hentries : entries = w.entries := funext fun k ↦ by simpa using h k
      rw [hentries]
      exact .refl
  | cons key rest ih =>
      by_cases hkey : entries key = w.entries key
      · refine ih fun k ↦ (h k).elim .inl fun hk ↦ ?_
        rcases List.mem_cons.mp hk.2 with rfl | hmem
        · exact .inl hkey
        · exact .inr ⟨hk.1, hmem⟩
      · refine .head (b := w.evictEntry key) ⟨.evictEntry key, rfl⟩
          (ih (w := w.evictEntry key) fun k ↦ ?_)
        have hnone : entries key = none := ((h key).resolve_left hkey).1
        by_cases hk : k = key
        · subst hk
          exact .inl (by simpa [evictEntry] using hnone)
        · have hother : (w.evictEntry key).entries k = w.entries k := by simp [evictEntry, hk]
          rw [hother]
          exact (h k).imp_right fun hlost ↦ ⟨hlost.1, List.mem_of_ne_of_mem hk hlost.2⟩

end CacheWorld

namespace DefaultCache

open CacheWorld

variable {T Sql D : Type}

def initial (now : ℚ) : DefaultCache T Sql D := ⟨CacheWorld.initial, .empty, now, []⟩

/-- The entries that the backend would serve. -/
def entries (w : DefaultCache T Sql D) (key : Str) : Option (Stored (Rows D)) :=
  (MemoryCacheBackend.liveValue w.now w.data key).map .rows

section Entries

variable {w : DefaultCache T Sql D} {key : Str}

theorem entries_eq_some_iff {x : Stored (Rows D)} : w.entries key = some x ↔
    ∃ rows, MemoryCacheBackend.liveValue w.now w.data key = some rows ∧ x = .rows rows := by
  simp [entries, eq_comm]

theorem mem_keys_of_entries (h : w.entries key ≠ none) : key ∈ w.data.keys := by
  obtain ⟨x, hx⟩ := Option.ne_none_iff_exists'.mp h
  obtain ⟨rows, hrows, -⟩ := entries_eq_some_iff.mp hx
  obtain ⟨entry, hmem, -⟩ := MemoryCacheBackend.liveValue_eq_some_iff.mp hrows
  exact OrderedDict.mem_keys.mpr ⟨entry, hmem⟩

end Entries

variable [DecidableEq T] (b : MemoryCacheBackend) (ttl : ℤ)

/-- One effect of thread `t`, apart from its entry in the log. -/
def act (t : T) (w : DefaultCache T Sql D) :
    (e : CacheEffect Sql (Rows D)) → CacheChoice D →
      Option (Except CacheError e.Reply × DefaultCache T Sql D)
  | .backendGet key, .ok =>
      let (v, data) := MemoryCacheBackend.get key none w.now w.data
      some (.ok (v.map .rows), { w with data := data })
  | .backendSet key v, .ok =>
      some (.ok (), { w with data := b.set key v (some ttl) w.now w.data })
  | .backendDelete key, .ok =>
      let (found, data) := MemoryCacheBackend.delete key w.now w.data
      some (.ok found, { w with data := data })
  | .backendClear, .ok => some (.ok (), { w with data := .empty })
  | .backendGet _, _ | .backendSet _ _, _ | .backendDelete _, _ | .backendClear, _
  | .generationWriter, _ | .newGeneration, _ | .tokenGet _, _ | .tokenWrite _ _ _, _ => none
  | e, c => (w.cache.act (fun _ ↦ ()) t e c).map fun q ↦ (q.1, { w with cache := q.2 })

def record (t : T) (e : CacheEffect Sql (Rows D)) (r : Except CacheError e.Reply)
    (w : DefaultCache T Sql D) : DefaultCache T Sql D :=
  { w with cache := w.cache.record t e r, times := w.times ++ [w.now] }

def machine : Machine T (CacheEffect Sql (Rows D)) CacheEffect.Reply CacheError
    (DefaultCache T Sql D) (DefaultCacheChoice D) where
  perform := fun t e c w ↦
    match c with
    | .effect c => (w.act b ttl t e c).map fun q ↦ (q.1, q.2.record t e q.1)
    | .wait _ => none
  environment := fun c w ↦
    match c with
    | .wait seconds => if 0 ≤ seconds then some { w with now := w.now + seconds } else none
    | .effect _ => none

/-- A server with the entries that the backend would serve. -/
structure Represents (w : DefaultCache T Sql D) (v : LocalWorld T Sql D) : Prop where
  world : v = w.cache.withEntries w.entries
  tokens : w.cache.tokens = fun _ ↦ none

variable {b ttl} {t : T} {w w₁ : DefaultCache T Sql D} {v : LocalWorld T Sql D}
variable {e : CacheEffect Sql (Rows D)} {c : CacheChoice D} {r : Except CacheError e.Reply}

theorem act_of_not_serving (he : ¬Serving e) :
    w.act b ttl t e c =
      (w.cache.act (fun _ ↦ ()) t e c).map fun q ↦ (q.1, { w with cache := q.2 }) := by
  cases e with
  | acquire | release | readState | update | transactional | sql | copyRows | keyOrder | span => rfl
  | _ => exact absurd trivial he

omit [DecidableEq T] in
/-- After a `set` the backend serves the new entry and the old ones, or less. -/
theorem entries_set {key : Str} {rows : Rows D} (k : Str) :
    let w₁ : DefaultCache T Sql D := { w with data := b.set key rows (some ttl) w.now w.data }
    w₁.entries k = Function.update w.entries key (some (.rows rows)) k ∨
      (w₁.entries k = none ∧ k ∈ key :: w.data.keys) := by
  intro w₁
  cases hk : w₁.entries k with
  | some x =>
      obtain ⟨found, hfound, rfl⟩ := entries_eq_some_iff.mp hk
      have hset := MemoryCacheBackend.liveValue_set hfound
      by_cases hkey : k = key
      · subst hkey
        rw [Function.update_self] at hset ⊢
        exact .inl (by rw [Option.some.inj hset])
      · rw [Function.update_of_ne hkey] at hset ⊢
        exact .inl (entries_eq_some_iff.mpr ⟨found, hset, rfl⟩).symm
  | none =>
      by_cases hkey : k = key
      · exact .inr ⟨rfl, hkey ▸ List.mem_cons_self⟩
      · rw [Function.update_of_ne hkey]
        by_cases hold : w.entries k = none
        · exact .inl hold.symm
        · exact .inr ⟨rfl, List.mem_cons_of_mem _ (mem_keys_of_entries hold)⟩

/-- A serving effect does what it does on a server, which then loses some entries. -/
theorem serving_act (he : Serving e) (hv : w.Represents v)
    (h : w.act b ttl t e c = some (r, w₁)) :
    ∃ entries, ∃ keys : List Str, v.act (fun _ ↦ ()) t e .ok = some (r, v.withEntries entries) ∧
      w₁.cache = w.cache ∧ ∀ k, w₁.entries k = entries k ∨ (w₁.entries k = none ∧ k ∈ keys) := by
  have hentries : v.entries = w.entries := by rw [hv.world, withEntries]
  cases e with
  | backendGet key =>
      cases c <;> simp only [act, reduceCtorEq, Option.some.injEq, Prod.mk.injEq] at h
      obtain ⟨rfl, rfl⟩ := h
      refine ⟨v.entries, [], ?_, rfl, fun k ↦ .inl ?_⟩
      · rw [MemoryCacheBackend.get_liveValue]
        show some (Except.ok (v.entries key), v) = some (Except.ok (w.entries key), v)
        rw [hentries]
      · rw [hentries]
        simp only [entries, MemoryCacheBackend.liveValue_get]
  | backendSet key rows =>
      cases c <;> simp only [act, reduceCtorEq, Option.some.injEq, Prod.mk.injEq] at h
      obtain ⟨rfl, rfl⟩ := h
      refine ⟨_, key :: w.data.keys, rfl, rfl, fun k ↦ ?_⟩
      rw [hentries]
      exact entries_set k
  | backendDelete key =>
      cases c <;> simp only [act, reduceCtorEq, Option.some.injEq, Prod.mk.injEq] at h
      obtain ⟨rfl, rfl⟩ := h
      refine ⟨Function.update v.entries key none, [], ?_, rfl, fun k ↦ .inl ?_⟩
      · rw [MemoryCacheBackend.delete_liveValue]
        simp [CacheWorld.act, hentries, entries, withEntries, evictEntry]
      · rw [hentries]
        simp only [entries, MemoryCacheBackend.liveValue_delete, Function.update_apply]
        split <;> rfl
  | backendClear =>
      cases c <;> simp only [act, reduceCtorEq, Option.some.injEq, Prod.mk.injEq] at h
      obtain ⟨rfl, rfl⟩ := h
      refine ⟨fun _ ↦ none, [], ?_, rfl, fun _ ↦ .inl rfl⟩
      have htokens : v.tokens = fun _ ↦ none := by
        rw [hv.world]
        exact hv.tokens
      simp only [CacheWorld.act, clearServer, withEntries, ← htokens]
  | generationWriter | newGeneration | tokenGet | tokenWrite =>
      cases c <;> simp [act] at h
  | _ => exact he.elim

/-- A serving effect of the cache is matched by a served one, and losses that follow. -/
theorem implements_serving (he : Serving e) (hv : w.Represents v)
    (h : w.act b ttl t e c = some (r, w₁)) :
    ∃ v₁ v₂, (CacheWorld.machine fun _ ↦ ()).perform t e .ok v = some (r, v₁) ∧
      (CacheWorld.machine fun _ ↦ ()).Drifts v₁ v₂ ∧ (w₁.record t e r).Represents v₂ := by
  obtain ⟨entries, keys, hact, hcache, hlost⟩ := serving_act he hv h
  obtain ⟨rfl, htokens⟩ := hv
  refine ⟨_, _, by simp only [CacheWorld.machine, hact, Option.map_some]; rfl,
    drifts_of_loss hlost, ?_, ?_⟩
  · simp only [record, hcache]
    rfl
  · rw [← htokens, ← hcache]
    rfl

theorem implements_other (he : ¬Serving e) (hv : w.Represents v)
    (h : w.act b ttl t e c = some (r, w₁)) :
    ∃ v₁, (CacheWorld.machine fun _ ↦ ()).perform t e c v = some (r, v₁) ∧
      (w₁.record t e r).Represents v₁ := by
  obtain ⟨rfl, htokens⟩ := hv
  rw [act_of_not_serving he] at h
  obtain ⟨⟨r', cache⟩, hcache, heq⟩ := Option.map_eq_some_iff.mp h
  obtain ⟨rfl, rfl⟩ := Prod.mk.inj heq
  obtain ⟨hact, hkept⟩ := act_withEntries he hcache w.entries
  exact ⟨_, by simp only [CacheWorld.machine, hact, Option.map_some]; rfl, rfl, hkept.trans htokens⟩

omit [DecidableEq T] in
/-- Entries that expire are lost. -/
theorem entries_later {seconds : ℚ} (hle : 0 ≤ seconds) (k : Str) :
    let w₁ : DefaultCache T Sql D := { w with now := w.now + seconds }
    w₁.entries k = w.entries k ∨ (w₁.entries k = none ∧ k ∈ w.data.keys) := by
  intro w₁
  cases hk : w₁.entries k with
  | some x =>
      obtain ⟨rows, hrows, rfl⟩ := entries_eq_some_iff.mp hk
      have hnow : w.now ≤ w₁.now := le_add_of_nonneg_right hle
      exact .inl (entries_eq_some_iff.mpr
        ⟨rows, MemoryCacheBackend.liveValue_later hnow hrows, rfl⟩).symm
  | none =>
      by_cases hold : w.entries k = none
      · exact .inl hold.symm
      · exact .inr ⟨rfl, mem_keys_of_entries hold⟩

/-- The default cache is one over a server that may lose entries, without
failing calls of the backend. -/
theorem machine_implements (d : Deployment Sql) (call : T → CacheCall Sql) :
    (machine b ttl).Implements (CacheWorld.machine fun _ ↦ ()) (Recoverable d call)
      (Represents : DefaultCache T Sql D → LocalWorld T Sql D → Prop) where
  perform {t e c w w₁ v r} hv h := by
    cases c with
    | wait seconds => cases h
    | effect c =>
        obtain ⟨⟨r', w'⟩, hact, heq⟩ := Option.map_eq_some_iff.mp h
        obtain ⟨rfl, rfl⟩ := Prod.mk.inj heq
        by_cases he : Serving e
        · obtain ⟨v₁, v₂, hperform, hdrift, hrel⟩ := implements_serving he hv hact
          refine ⟨.ok, v₁, v₂, ?_, hperform, hdrift, hrel⟩
          intro key rows x _ hc
          cases hc
        · obtain ⟨v₁, hperform, hrel⟩ := implements_other he hv hact
          refine ⟨c, v₁, v₁, ?_, hperform, .refl, hrel⟩
          rintro key rows x rfl
          exact absurd trivial he
  environment {c w w₁ v} hv h := by
    cases c with
    | effect c => cases h
    | wait seconds =>
        obtain ⟨hle, rfl⟩ := Option.ite_none_right_eq_some.mp h |>.imp_right Option.some.inj
        obtain ⟨rfl, htokens⟩ := hv
        exact ⟨_, drifts_of_loss (w := w.cache.withEntries w.entries) (entries_later hle),
          rfl, htokens⟩

end DefaultCache

abbrev DefaultCachePool (T Sql D : Type) : Type :=
  Pool T (CacheEffect Sql (Rows D)) CacheEffect.Reply CacheError (CacheResult (Rows D))
    (DefaultCache T Sql D)

section System

variable {T Sql D : Type} [DecidableEq T] {b : MemoryCacheBackend} {ttl : ℤ}
variable {d : Deployment Sql} {call : T → CacheCall Sql}

/-- One turn of the threads of a process, each a call on its default cache. -/
def defaultCacheStep (b : MemoryCacheBackend) (ttl : ℤ) (d : Deployment Sql)
    (call : T → CacheCall Sql) :
    DefaultCachePool T Sql D → Turn T (DefaultCacheChoice D) → Option (DefaultCachePool T Sql D) :=
  Pool.step (DefaultCache.machine b ttl) fun t ↦ (call t).program d

omit [DecidableEq T] in
theorem mirrors_initial (now : ℚ) :
    Pool.Mirrors DefaultCache.Represents
      (Pool.start (DefaultCache.initial now) : DefaultCachePool T Sql D)
      (Pool.start CacheWorld.initial) :=
  Pool.mirrors_start ⟨rfl, rfl⟩

/-- In every run over the default cache, with expiring and evicted entries
and with failures of SQL, of copying and of tracing, a reader that begins
after an invalidation has returned gets rows that were read after it. -/
theorem default_cache_fresh (hgen : d.generation = false) (hagree : CacheWorld.KeysAgree d call)
    {now : ℚ} {p₀ p : DefaultCachePool T Sql D}
    (h₀ : Transition.Reaches (defaultCacheStep b ttl d call) Transition.Always
      (Pool.start (DefaultCache.initial now)) p₀)
    (h : Transition.Reaches (defaultCacheStep b ttl d call) Transition.Always p₀ p)
    {reader writer : T} {q : PreparedQuery Sql} {key : Str} {names : Finset Str}
    {v : CacheResult (Rows D)} {rows : Rows D} (hq : (call reader).reads = some q)
    (hkey : localKey d q = some (key, names)) (hhits : (call writer).Hits d names q.db)
    (hwriter : p₀.outcome writer = some (.ok v)) (hnone : p₀.threads reader = none)
    (hreader : p.outcome reader = some (.ok (.rows rows))) :
    ∃ i, p₀.world.cache.Bumped i writer ∧ i + 1 < rows.readAt := by
  have himplements : (DefaultCache.machine b ttl).Implements (CacheWorld.machine fun _ ↦ ())
      (CacheWorld.Recoverable d call)
      (DefaultCache.Represents : DefaultCache T Sql D → LocalWorld T Sql D → Prop) :=
    DefaultCache.machine_implements d call
  obtain ⟨q₀, hq₀, hmirrors₀⟩ := Pool.mirrors_run himplements (mirrors_initial now) h₀
  obtain ⟨q₁, hq₁, hmirrors⟩ := Pool.mirrors_run himplements hmirrors₀ h
  obtain ⟨i, hi, hlt⟩ := local_freshness hgen hagree hq₀ hq₁ reader writer q key names v rows hq
    hkey hhits (hmirrors₀.outcome hwriter) (hmirrors₀.threads_none.mp hnone)
    (hmirrors.outcome hreader)
  rw [hmirrors₀.world.world] at hi
  exact ⟨i, hi, hlt⟩

end System

section Sample

/-! The run of a process-local cache with copies, in which time passes. -/

def memoryDeployment : Deployment Str :=
  { plainDeployment false with returnsDetached := .ok false, storesDetached := .ok false }

def memorySampleStep : DefaultCachePool Caller Str ℕ → Turn Caller (DefaultCacheChoice ℕ) →
    Option (DefaultCachePool Caller Str ℕ) :=
  defaultCacheStep ⟨1000, 60⟩ 300 memoryDeployment localCall

def memoryTurns (t : Caller) (choices : List (CacheChoice ℕ)) :
    List (Turn Caller (DefaultCacheChoice ℕ)) :=
  .begin t :: choices.map fun c ↦ .act t (.effect c)

/-- The rows that a finished call returned; none if it returned something else. -/
def memoryAnswer (p : DefaultCachePool Caller Str ℕ) (t : Caller) : Option (Option (Rows ℕ)) :=
  match p.outcome t with
  | some (.ok (.rows rows)) => some (some rows)
  | some (.ok _) => some none
  | _ => none

theorem memoryAnswer_some {p : DefaultCachePool Caller Str ℕ} {t : Caller} {x : Option (Rows ℕ)}
    (h : memoryAnswer p t = some x) :
    ∃ v, p.outcome t = some (.ok v) ∧ ∀ rows, x = some rows → v = .rows rows := by
  unfold memoryAnswer at h
  split at h
  · rename_i found hfound
    obtain rfl := Option.some.inj h
    exact ⟨_, hfound, fun rows hrows ↦ by rw [Option.some.inj hrows]⟩
  · rename_i v _ hv
    obtain rfl := Option.some.inj h
    exact ⟨v, hv, fun rows hrows ↦ by cases hrows⟩
  · cases h

theorem default_cache_fresh_sample :
    ∃ p₀ p, Transition.Reaches memorySampleStep Transition.Always
        (Pool.start (DefaultCache.initial 0)) p₀ ∧
      Transition.Reaches memorySampleStep Transition.Always p₀ p ∧
      p.outcome .reader = some (.ok (.rows ⟨7, 39⟩)) ∧
      ∃ i, p₀.world.cache.Bumped i .invalidator ∧ i + 1 < 39 := by
  have hrun : ((Transition.run memorySampleStep (Pool.start (DefaultCache.initial 0))
      (memoryTurns .filler (fillChoices .ok 6) ++ [.environment (.wait 10)] ++
        memoryTurns .invalidator ([.flag false, .ok, .ok, .ok, .ok,
        .order [makeKey memoryDeployment ['d'] ⟨['s', '.', 'a'], ['q'], [], []⟩]] ++
        List.replicate 5 .ok))).bind fun p₀ ↦
      (Transition.run memorySampleStep p₀ (memoryTurns .reader (fillChoices .ok 6))).map fun p ↦
        (memoryAnswer p₀ .invalidator, (p₀.threads .reader).isNone, memoryAnswer p .reader)) =
      some (some none, true, some (some ⟨7, 39⟩)) := by
    decide +kernel
  obtain ⟨p₀, h₀, hrun⟩ := Option.bind_eq_some_iff.mp hrun
  obtain ⟨p, h, hrun⟩ := Option.map_eq_some_iff.mp hrun
  simp only [Prod.mk.injEq, Option.isNone_iff_eq_none] at hrun
  obtain ⟨v, hv, -⟩ := memoryAnswer_some hrun.1
  obtain ⟨v', hv', hrows⟩ := memoryAnswer_some hrun.2.2
  obtain rfl := hrows _ rfl
  have hreach₀ : Transition.Reaches memorySampleStep Transition.Always
      (Pool.start (DefaultCache.initial 0)) p₀ :=
    Transition.reaches_of_run (fun _ _ _ ↦ trivial) h₀
  have hreach : Transition.Reaches memorySampleStep Transition.Always p₀ p :=
    Transition.reaches_of_run (fun _ _ _ ↦ trivial) h
  have hagree : KeysAgree memoryDeployment localCall := localCall_agree
  have hquery : (localCall .reader).reads = some sharedQuery := rfl
  have hhits : CacheCall.Hits memoryDeployment (namesOf memoryDeployment sharedQuery [])
      sharedQuery.db (localCall .invalidator) := sharedQuery_hits
  exact ⟨p₀, p, hreach₀, hreach, hv', default_cache_fresh (d := memoryDeployment) rfl hagree
    hreach₀ hreach hquery rfl hhits hv hrun.2.1 hv'⟩

end Sample

end DjangoNova
