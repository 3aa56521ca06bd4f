import DjangoNova.Cache.SharedMethods

/-!
# Freshness across processes

Every process keeps its own state over one server that stores result
entries and generation tokens. In every run, a call that begins after a
rotation was acknowledged returns no rows read before it. In the process
that attempted a rotation this holds even when the attempt failed.
-/

namespace DjangoNova

open Protocol QuerySetCache CacheWorld

variable {T P Sql D : Type} [DecidableEq P] [DecidableEq T]
variable {d : Deployment Sql} {proc : T → P} {call : T → CacheCall Sql}

/-- The dependencies of the query include the named model on `db`, where
`'*'` stands for any database. -/
def DependsOn (d : Deployment Sql) (q : PreparedQuery Sql) (modelName db : Str) : Prop :=
  ∃ dependencies m, q.dependencies = .ok dependencies ∧
    m ∈ dependencyModels q (dependencies.getD ([], [])).1 ∧
    m.shortName d.lower = shortModelName d.lower modelName ∧ (db = ['*'] ∨ db = q.db)

theorem DependsOn.mem_queryScopes {q : PreparedQuery Sql} {modelName db : Str}
    (h : DependsOn d q modelName db) :
    generationScope (shortModelName d.lower modelName) db ∈ queryScopes d q := by
  obtain ⟨dependencies, m, hdeps, hm, hname, hdb⟩ := h
  simp only [queryScopes, hdeps, scopesOf, Scope.mem_sorted, List.mem_flatMap]
  refine ⟨m, hm, ?_⟩
  rw [hname]
  rcases hdb with rfl | rfl
  · exact List.mem_cons_self
  · exact List.mem_cons_of_mem _ (List.mem_singleton_self _)

namespace CacheWorld

omit [DecidableEq P] [DecidableEq T] in
theorem sharedInv_initial : SharedInv (T := T) (P := P) (D := D) proc d initial := by
  constructor
  · simp [initial]
  · exact fun p scope ↦ .inr fun raw h ↦ by simp [initial] at h
  all_goals simp [initial, now]

/-- What a finished call tells about its rows. -/
def Answer (d : Deployment Sql) (proc : T → P) (t : T) (born : CacheWorld T P Sql D) :
    CacheCall Sql → Except CacheError (CacheResult (Rows D)) → Prop
  | .get q, .ok (.rows v) => Recent d proc t born q v
  | .getOrSet q, .ok (.rows v) => Recent d proc t born q v
  | _, _ => True

theorem call_triple (hd : d.KeyFaithful) (hgen : d.generation = true) (t : T)
    (born : CacheWorld T P Sql D) (c : CacheCall Sql) :
    SharedTriple proc d t (At proc t born 0) (c.program d)
      fun v _ ↦ Answer d proc t born c v := by
  cases c with
  | get q =>
      refine (get_triple hgen).bind (fun v ↦ ?_) fun _ _ _ _ ↦ trivial
      cases v with
      | none => exact Triple.pure _ fun _ _ _ ↦ trivial
      | some rows => exact Triple.pure _ fun _ _ h ↦ h.2 rows rfl
  | getOrSet q =>
      refine (getOrSet_triple hd hgen).bind (fun v ↦ ?_) fun _ _ _ _ ↦ trivial
      exact Triple.pure _ fun _ _ h ↦ h.2
  | invalidateModel modelName db =>
      refine Triple.bind (invalidateModel_balanced modelName db) (fun k ↦ ?_) fun _ _ _ _ ↦ trivial
      exact Triple.pure _ fun _ _ _ ↦ trivial
  | clear =>
      refine Triple.bind clear_balanced (fun _ ↦ ?_) fun _ _ _ _ ↦ trivial
      exact Triple.pure _ fun _ _ _ ↦ trivial

/-- Every finished call of a run has begun in a sound world and answers as
its program promises. -/
theorem answers (hd : d.KeyFaithful) (hgen : d.generation = true) {p : CachePool T P Sql D}
    (hp : CacheReaches d proc call p) {t : T} {th : Thread _ _ _ _ _}
    (hth : p.threads t = some th) {v : Except CacheError (CacheResult (Rows D))}
    (hv : th.code = .done v) :
    SharedInv proc d th.born ∧ Answer d proc t th.born (call t) v := by
  have hhealthy : (sharedProtocol proc d).Healthy (fun t ↦ Depth proc t 0)
      (fun t born v _ ↦ SharedInv proc d born ∧ Answer d proc t born (call t) v) p := by
    refine Protocol.sound sharedInv_initial (fun t n ↦ by simp [initial])
      (fun t _ _ _ _ h hd ↦ hd.rely h) (fun _ _ _ _ _ _ _ _ h ↦ h) (fun t w hw hidle ↦ ?_)
      (hp.weaken fun _ a _ ↦ by cases a <;> simp [Pool.Admits, sharedProtocol])
    exact Safe.mono (fun _ _ _ h ↦ ⟨hw, h⟩) hw
      (call_triple hd hgen t w (call t) w hw ⟨.refl, hidle⟩)
  have hsafe := hhealthy.safe t th hth
  rw [hv] at hsafe
  exact hsafe

end CacheWorld

/-- A call that began after event `i` of the log returns rows that were
read after it, when the event is an acknowledged rotation by
`invalidate_model` in any process, or an attempt at one in the process of
the call. -/
theorem shared_generation_freshness (hd : d.KeyFaithful) (hgen : d.generation = true)
    {p : CachePool T P Sql D} (hp : CacheReaches d proc call p)
    {reader : T} {q : PreparedQuery Sql} {modelName db : Str}
    (hread : call reader = .get q ∨ call reader = .getOrSet q)
    (hdep : DependsOn d q modelName db)
    {th : Thread _ _ _ _ _} (hth : p.threads reader = some th)
    {rows : Rows D} (hrows : th.code = .done (.ok (.rows rows))) :
    ∀ writer, call writer = .invalidateModel modelName db →
      (∀ i token, th.born.log[i]? = some ⟨writer,
          .tokenWrite (generationScope (shortModelName d.lower modelName) db) token false,
          .ok true⟩ → i + 1 < rows.readAt) ∧
        ∀ i e, th.born.log[i]? = some e → e.thread = writer → proc writer = proc reader →
          IsAttempt (generationScope (shortModelName d.lower modelName) db) e →
          i + 1 < rows.readAt := by
  intro writer _
  obtain ⟨hborn, hanswer⟩ := answers hd hgen hp hth hrows
  have hrecent : Recent d proc reader th.born q rows := by
    rcases hread with hc | hc <;> rwa [hc] at hanswer
  obtain ⟨hlatest, hfloor⟩ := hrecent _ hdep.mem_queryScopes
  refine ⟨fun i token hi ↦ ?_, fun i e hi he hproc hattempt ↦ ?_⟩
  · exact (hborn.acked i writer _ token hi).trans_lt hlatest
  · have hle := hborn.attempted i e _ hi hattempt
    rw [he, hproc] at hle
    exact hle.trans_lt hfloor

section Sample

/-! A run of two processes: one fills the cache with a query, the other
invalidates its model, and the first gets the query again. -/

def sampleQuery : PreparedQuery Str := ⟨⟨['s'], ['a']⟩, ['d'], ['q'], .ok none⟩

inductive Party where
  | filler
  | rotator
  | reader
  deriving DecidableEq

def sampleCall : Party → CacheCall Str
  | .rotator => .invalidateModel ['a'] ['d']
  | .filler | .reader => .getOrSet sampleQuery

/-- The rotator has a process of its own. -/
def sampleProc (t : Party) : Bool := t = .rotator

def sampleTurns : List (Turn Party (CacheChoice ℕ)) :=
  let turns (t : Party) (choices : List (CacheChoice ℕ)) := .begin t :: choices.map (Turn.act t)
  let oks (n : ℕ) := List.replicate n (.ok : CacheChoice ℕ)
  let token (c : Char) := CacheChoice.token (List.replicate 32 c)
  -- The lookup of a missing key, the query and the publication.
  let fill (content : ℕ) := [.flag false] ++ oks 5 ++ [.flag false, .content content] ++ oks 2 ++
    [.flag false] ++ oks 14
  turns .filler
      ([.flag false] ++ oks 5 ++ [token 'a'] ++ oks 4 ++ [token 'b'] ++ oks 3 ++ fill 7) ++
    turns .rotator ([.flag false] ++ oks 3 ++ [token 'c'] ++ oks 5) ++
    turns .reader ([.flag false] ++ oks 8 ++ fill 8)

/-- The rows that a thread returned, when it began after a write of the
scope by `writer` had been acknowledged as event `i`. -/
def rowsAfter (p : CachePool Party Bool Str ℕ) (t writer : Party) (scope : Scope) (i : ℕ) :
    Option (Rows ℕ) :=
  match p.threads t with
  | some ⟨born, .done (.ok (.rows rows))⟩ =>
      match born.log[i]? with
      | some ⟨u, .tokenWrite σ _ false, .ok true⟩ =>
          if u = writer ∧ σ = scope then some rows else none
      | _ => none
  | _ => none

theorem rowsAfter_some {p : CachePool Party Bool Str ℕ} {t writer : Party} {scope : Scope} {i : ℕ}
    {rows : Rows ℕ} (h : rowsAfter p t writer scope i = some rows) :
    ∃ th token, p.threads t = some th ∧ th.code = .done (.ok (.rows rows)) ∧
      th.born.log[i]? = some ⟨writer, .tokenWrite scope token false, .ok true⟩ := by
  unfold rowsAfter at h
  split at h
  · rename_i born v hth
    split at h
    · rename_i u σ token hlog
      obtain ⟨⟨rfl, rfl⟩, hv⟩ := Option.ite_none_right_eq_some.mp h
      obtain rfl := Option.some.inj hv
      exact ⟨_, token, hth, rfl, hlog⟩
    · cases h
  · cases h

/-- The key of the fill, with the tokens that it has created. -/
def filledKey : Str :=
  makeKey (plainDeployment true) ['d'] ⟨['s', '.', 'a'], ['q'], [],
    [(⟨['a'], ['*']⟩, List.replicate 32 'a'), (⟨['a'], ['d']⟩, List.replicate 32 'b')]⟩

/-- The rows of the filler are still stored, and the reader gets newer ones. -/
theorem shared_generation_freshness_sample :
    ∃ p rows, CacheReaches (plainDeployment true) sampleProc sampleCall p ∧
      p.world.entries filledKey = some (.rows ⟨7, 23⟩) ∧
      rowsAfter p .reader .rotator ⟨['a'], ['d']⟩ 46 = some rows ∧ 46 + 1 < rows.readAt := by
  have hrun : ((Transition.run (cacheStep (plainDeployment true) sampleProc sampleCall)
      (Pool.start CacheWorld.initial) sampleTurns).bind fun p ↦
        (rowsAfter p .reader .rotator ⟨['a'], ['d']⟩ 46).map fun rows ↦
          (rows, p.world.entries filledKey)) =
      some (⟨8, 67⟩, some (.rows ⟨7, 23⟩)) := by decide +kernel
  obtain ⟨p, hp, hrows⟩ := Option.bind_eq_some_iff.mp hrun
  obtain ⟨rows, hrows, hpair⟩ := Option.map_eq_some_iff.mp hrows
  obtain ⟨rfl, hentry⟩ := Prod.mk.inj hpair
  have hreach : CacheReaches (plainDeployment true) sampleProc sampleCall p :=
    Transition.reaches_of_run (fun _ _ _ ↦ trivial) hp
  refine ⟨p, _, hreach, hentry, hrows, ?_⟩
  obtain ⟨th, token, hth, hcode, hlog⟩ := rowsAfter_some hrows
  have hdep : DependsOn (plainDeployment true) sampleQuery ['a'] ['d'] :=
    ⟨none, ⟨['s'], ['a']⟩, rfl, List.mem_cons_self, by decide, .inr rfl⟩
  exact (shared_generation_freshness (plainDeployment_faithful true) rfl hreach (.inr rfl) hdep hth
    hcode .rotator rfl).1 46 token hlog

end Sample

end DjangoNova
