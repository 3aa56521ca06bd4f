import DjangoNova.Cache.Rules

/-!
# The protocol of a process-local cache

One state, one lock and a backend without generations. While the lock is
free the cache is consistent: the index lists every stored entry under
all names of its queries, and an entry that may be served was read after
every invalidation that hits it. The holder of the lock may break this
until it releases; the others only see worlds in which it holds.
-/

namespace DjangoNova

variable {T Sql D : Type}

/-- The query of a reading call. -/
def CacheCall.reads : CacheCall Sql → Option (PreparedQuery Sql)
  | .get q | .getOrSet q => some q
  | _ => none

/-- The key of a query in a cache without generations and the names under
which it is registered; none for a query that cannot be cached. -/
def localKey (d : Deployment Sql) (q : PreparedQuery Sql) : Option (Str × Finset Str) :=
  match q.dependencies with
  | .ok dependencies =>
      let (models, prefetches) := dependencies.getD ([], [])
      some (QuerySetCache.makeKey d q.db ⟨q.model.fullName d.lower, q.sql, prefetches, []⟩,
        QuerySetCache.namesOf d q models)
  | .error _ => none

/-- The call invalidates the queries with these names on `db`. -/
def CacheCall.Hits (d : Deployment Sql) (names : Finset Str) (db : Str) : CacheCall Sql → Prop
  | .invalidateModel modelName target =>
      (∃ name ∈ normalizeModelNames d.lower modelName, name ∈ names) ∧
        (target = ['*'] ∨ target = db)
  | .clear => True
  | _ => False

namespace CacheWorld

abbrev LocalWorld (T Sql D : Type) : Type := CacheWorld T Unit Sql D

variable (d : Deployment Sql) (call : T → CacheCall Sql)

section Invariant

variable (w w' : LocalWorld T Sql D)

def state : CacheState := w.states ()

/-- Event `i` is the bump of an invalidation by `u`. -/
def Bumped (i : ℕ) (u : T) : Prop :=
  ∃ r, w.log[i]? = some ⟨u, .update .bumpGeneration, r⟩

/-- `v` is stored under the key of a query that some thread reads. -/
def Serves (q : PreparedQuery Sql) (key : Str) (names : Finset Str) (v : Rows D) : Prop :=
  (∃ t, (call t).reads = some q) ∧ localKey d q = some (key, names) ∧
    w.entries key = some (.rows v)

/-- The index lists the entries of the admitted keys under all their names. -/
def Indexed (admitted : Str → Prop) : Prop :=
  ∀ q key names v, w.Serves d call q key names v → admitted key →
    ∀ name ∈ names, key ∈ (w.state.modelKeys name).getD ∅

/-- What may be served was read after the invalidations by the admitted threads. -/
def Guarded (admitted : T → Prop) : Prop :=
  ∀ q key names v, w.Serves d call q key names v → w.state.clearFailed = false →
    key ∉ w.state.invalidatedKeys →
    ∀ i u, w.Bumped i u → admitted u → (call u).Hits d names q.db → i + 1 < v.readAt

def Consistent : Prop :=
  w.Indexed d call (fun _ ↦ True) ∧ w.Guarded d call fun _ ↦ True

/-- Entries disappear at most. -/
def Shrinks : Prop := ∀ key v, w'.entries key = some v → w.entries key = some v

/-- The log grows, and a bump shows in the generation. -/
structure Advances : Prop where
  log : w.log <+: w'.log
  generation : w.state.generation ≤ w'.state.generation
  bumps : w'.state.generation = w.state.generation → ∀ i u, w'.Bumped i u → w.Bumped i u

end Invariant

structure LocalRely (t : T) (w w' : LocalWorld T Sql D) : Prop extends Advances w w' where
  held : ∀ n, w.locks () = some (t, n) →
    w'.locks () = some (t, n) ∧ w'.states = w.states ∧ w.Shrinks w'
  idle : (∀ n, w.locks () ≠ some (t, n)) → ∀ n, w'.locks () ≠ some (t, n)

def LocalInv (w : LocalWorld T Sql D) : Prop := w.locks () = none → w.Consistent d call

variable {d call} {t : T} {w w' w'' : LocalWorld T Sql D}

theorem Shrinks.refl : w.Shrinks w := fun _ _ h ↦ h

theorem Shrinks.trans (h : w.Shrinks w') (h' : w'.Shrinks w'') : w.Shrinks w'' :=
  fun key v hv ↦ h key v (h' key v hv)

theorem Advances.refl : Advances w w := ⟨List.prefix_rfl, le_rfl, fun _ _ _ h ↦ h⟩

theorem Advances.trans (h : Advances w w') (h' : Advances w' w'') : Advances w w'' := by
  refine ⟨h.log.trans h'.log, h.generation.trans h'.generation, fun heq i u hi ↦ ?_⟩
  have hle := h.generation
  have hle' := h'.generation
  exact h.bumps (by omega) i u (h'.bumps (by omega) i u hi)

theorem Bumped.advances {i : ℕ} {u : T} (h : Advances w w') (hb : w.Bumped i u) :
    w'.Bumped i u := by
  obtain ⟨r, hr⟩ := hb
  exact ⟨r, getElem?_extends h.log hr⟩

theorem Bumped.lt {i : ℕ} {u : T} (h : w.Bumped i u) : i < w.log.length := by
  obtain ⟨r, hr⟩ := h
  exact (List.getElem?_eq_some_iff.mp hr).1

theorem LocalRely.refl : LocalRely t w w :=
  ⟨.refl, fun _ h ↦ ⟨h, rfl, .refl⟩, fun h ↦ h⟩

theorem LocalRely.trans (h : LocalRely t w w') (h' : LocalRely t w' w'') : LocalRely t w w'' where
  toAdvances := h.toAdvances.trans h'.toAdvances
  held n hn := by
    obtain ⟨hl, hs, he⟩ := h.held n hn
    obtain ⟨hl', hs', he'⟩ := h'.held n hl
    exact ⟨hl', hs'.trans hs, he.trans he'⟩
  idle hn := h'.idle (h.idle hn)

/-- A world in which the holder of the lock has changed nothing, apart
from evictions. -/
structure Same (w w' : LocalWorld T Sql D) : Prop where
  states : w'.states = w.states
  shrinks : w.Shrinks w'
  bumps : ∀ i u, w'.Bumped i u → w.Bumped i u

theorem Indexed.same {admitted : Str → Prop} (hs : Same w w')
    (h : w.Indexed d call admitted) : w'.Indexed d call admitted := by
  intro q key names v hv hkey name hname
  rw [state, hs.states]
  exact h q key names v ⟨hv.1, hv.2.1, hs.shrinks _ _ hv.2.2⟩ hkey name hname

theorem Guarded.same {admitted : T → Prop} (hs : Same w w') (h : w.Guarded d call admitted) :
    w'.Guarded d call admitted := by
  intro q key names v hv hclear hkey i u hi
  rw [state, hs.states] at hclear hkey
  exact h q key names v ⟨hv.1, hv.2.1, hs.shrinks _ _ hv.2.2⟩ hclear hkey i u (hs.bumps i u hi)

theorem Consistent.same (hs : Same w w') (h : w.Consistent d call) : w'.Consistent d call :=
  ⟨h.1.same hs, h.2.same hs⟩

/-- Logging an effect other than a bump. -/
theorem bumped_record {e : CacheEffect Sql (Rows D)} {r : Except CacheError e.Reply}
    (he : e ≠ .update .bumpGeneration) {i : ℕ} {u : T} (h : (w.record t e r).Bumped i u) :
    w.Bumped i u := by
  obtain ⟨r', hr⟩ := h
  simp only [record] at hr
  rcases Nat.lt_trichotomy i w.log.length with hi | rfl | hi
  · exact ⟨r', by rwa [List.getElem?_append_left hi] at hr⟩
  · simp only [List.getElem?_concat_length, Option.some.injEq] at hr
    exact absurd (congrArg CacheEvent.effect hr) he
  · rw [List.getElem?_eq_none (by simp; omega)] at hr
    exact absurd hr (by simp)

theorem Advances.record {e : CacheEffect Sql (Rows D)} {r : Except CacheError e.Reply}
    (hlog : w'.log = w.log) (hgen : w.state.generation ≤ w'.state.generation)
    (he : e = .update .bumpGeneration → w'.state.generation ≠ w.state.generation) :
    Advances w (w'.record t e r) := by
  refine ⟨by simp [CacheWorld.record, hlog], hgen, fun heq i u hi ↦ ?_⟩
  have hi' : w'.Bumped i u := bumped_record (fun h ↦ he h heq) hi
  simpa only [Bumped, hlog] using hi'

theorem Same.record {e : CacheEffect Sql (Rows D)} {r : Except CacheError e.Reply}
    (hlog : w'.log = w.log) (hstates : w'.states = w.states) (hshrinks : w.Shrinks w')
    (he : e ≠ .update .bumpGeneration) : Same w (w'.record t e r) := by
  refine ⟨hstates, hshrinks, fun i u hi ↦ ?_⟩
  simpa only [Bumped, hlog] using bumped_record he hi

theorem LocalRely.same (h : LocalRely t w w') {n : ℕ} (hn : w.locks () = some (t, n)) :
    Same w w' := by
  obtain ⟨-, hs, he⟩ := h.held n hn
  exact ⟨hs, he, h.bumps (by rw [state, state, hs])⟩

theorem shrinks_evict (key : Str) : w.Shrinks (w.evictEntry key) := by
  intro key' v hv
  by_cases hk : key' = key
  · simp [evictEntry, hk] at hv
  · simpa [evictEntry, hk] using hv

variable (d call)

/-- A failing `backend.set` takes effect only for a key that the index
already lists under all names of its queries. -/
def Recoverable (_ : T) (e : CacheEffect Sql (Rows D)) (c : CacheChoice D)
    (w : LocalWorld T Sql D) : Prop :=
  ∀ key v x, e = .backendSet key v → c = .fail x true →
    ∀ u q names, (call u).reads = some q → localKey d q = some (key, names) →
      ∀ name ∈ names, key ∈ (w.state.modelKeys name).getD ∅

variable [DecidableEq T]

def localProtocol : CacheProtocol T Unit Sql D where
  machine := machine fun _ ↦ ()
  allowed := Recoverable d call
  inv := LocalInv d call
  rely := LocalRely
  rely_refl := fun _ _ ↦ .refl
  rely_trans := fun _ _ _ _ ↦ .trans
  environment_inv := by
    intro c w w' hw h
    cases c <;> simp only [machine, Option.some.injEq, reduceCtorEq] at h <;> subst h
    · intro hfree
      exact Consistent.same (w := w) ⟨rfl, shrinks_evict _, fun _ _ h ↦ h⟩ (hw hfree)
    · intro hfree
      exact Consistent.same (w := w) ⟨rfl, .refl, fun _ _ h ↦ h⟩ (hw hfree)
  environment_rely := by
    intro c w w' t hw h
    cases c <;> simp only [machine, Option.some.injEq, reduceCtorEq] at h <;> subst h
    · exact ⟨⟨List.prefix_rfl, le_rfl, fun _ _ _ h ↦ h⟩, fun _ h ↦ ⟨h, rfl, shrinks_evict _⟩,
        fun h ↦ h⟩
    · exact ⟨⟨List.prefix_rfl, le_rfl, fun _ _ _ h ↦ h⟩, fun _ h ↦ ⟨h, rfl, .refl⟩, fun h ↦ h⟩

end CacheWorld

end DjangoNova
