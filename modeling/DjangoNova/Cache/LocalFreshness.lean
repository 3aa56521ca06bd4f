import DjangoNova.Cache.LocalMethods
import DjangoNova.Cache.KeyDigest

/-!
# Freshness within one process

A cache whose backend has no generations serves no rows that were read
before a finished invalidation, as long as a `backend.set` that takes
effect and then raises meets a key that is already indexed. Otherwise the
stored entry is never registered, and the next invalidation misses it.
-/

namespace DjangoNova

open Protocol QuerySetCache CacheWorld

variable {T Sql D : Type}

abbrev LocalPool (T Sql D : Type) : Type := CachePool T Unit Sql D

/-- In `p`, the readers that had not begun in `p₀` return no rows read
before an invalidation of their query that had returned in `p₀`. -/
def FreshAfter (d : Deployment Sql) (call : T → CacheCall Sql) (p₀ p : LocalPool T Sql D) : Prop :=
  ∀ reader writer q key names v rows, (call reader).reads = some q →
    localKey d q = some (key, names) → (call writer).Hits d names q.db →
    p₀.outcome writer = some (.ok v) → p₀.threads reader = none →
    p.outcome reader = some (.ok (.rows rows)) →
      ∃ i, p₀.world.Bumped i writer ∧ i + 1 < rows.readAt

namespace Program

variable {α : Type} {e : CacheEffect Sql (Rows D)}

theorem performs_withLock {body : CacheProgram Sql (Rows D) α} (h : body.Performs e) :
    (withLock body).Performs e := by
  have hbody : (body.tryFinally (ask .release)).Performs e :=
    h.andThen fun x ↦ performs_bind (f := fun _ ↦ .done (.error x)) (fun _ ↦ trivial) _
  exact performs_bind (fun _ ↦ hbody) _

theorem performs_novaSpan {body : Bool → CacheProgram Sql (Rows D) α}
    (h : ∀ span, (body span).Performs e) : (novaSpan body).Performs e := by
  refine performs_bind (fun entered ↦ ?_) (Tracing.enterSpan spanCall)
  cases entered with
  | none => exact h false
  | some span =>
      refine (h span).andThen fun x ↦ ?_
      refine performs_bind (fun _ ↦ ?_) _
      exact performs_bind (f := fun _ ↦ raise x) (fun _ ↦ trivial) _

/-- An invalidation that hits anything bumps the generation before it returns. -/
theorem performs_bump {d : Deployment Sql} {c : CacheCall Sql} {names : Finset Str} {db : Str}
    (h : c.Hits d names db) :
    (c.program (V := Rows D) d).Performs (.update .bumpGeneration) := by
  have hupdate : (QuerySetCache.update .bumpGeneration : CacheProgram Sql (Rows D) Unit).Performs
      (.update .bumpGeneration) := performs_call
  cases c with
  | get q => exact h.elim
  | getOrSet q => exact h.elim
  | clear => exact (performs_withLock hupdate.bind).bind
  | invalidateModel modelName target =>
      obtain ⟨⟨name, hname, -⟩, -⟩ := h
      refine (performs_novaSpan fun span ↦ ?_).bind
      rw [if_neg (Finset.ne_empty_of_mem hname)]
      exact (performs_withLock hupdate.bind).bind

end Program

variable [DecidableEq T] {d : Deployment Sql} {call : T → CacheCall Sql}

/-- Every finished call of a recoverable run answers as its program promises. -/
theorem local_answers (hgen : d.generation = false) (hagree : KeysAgree d call)
    {p : LocalPool T Sql D}
    (hp : Transition.Reaches (cacheStep d (fun _ ↦ ()) call) (Pool.Admits (Recoverable d call))
      (Pool.start initial) p)
    {t : T} {th : Thread _ _ _ _ _} (hth : p.threads t = some th)
    {v : Except CacheError (CacheResult (Rows D))} (hv : th.code = .done v) :
    LocalAnswer d call th.born (call t) v := by
  have hhealthy : (localProtocol d call).Healthy (fun t ↦ Depth (fun _ ↦ ()) t 0)
      (fun t born v _ ↦ LocalAnswer d call born (call t) v) p := by
    apply Protocol.sound (P := localProtocol d call)
    · exact fun _ ↦ consistent_initial
    · exact fun t n ↦ by simp [initial]
    · exact fun t w w' _ _ hr hd ↦ LocalRely.idle hr hd
    · exact fun _ _ _ _ _ _ _ _ ha ↦ ha
    · exact fun t w hw hidle ↦ call_local hagree hgen w hw ⟨.refl, hidle⟩
    · exact hp
  have hsafe := hhealthy.safe t th hth
  rwa [hv] at hsafe

/-- In every run in which a failing `backend.set` takes effect for indexed
keys only, a reader that begins after an invalidation has returned gets
rows that were read after it. -/
theorem local_freshness (hgen : d.generation = false) (hagree : KeysAgree d call)
    {p₀ p : LocalPool T Sql D}
    (h₀ : Transition.Reaches (cacheStep d (fun _ ↦ ()) call) (Pool.Admits (Recoverable d call))
      (Pool.start initial) p₀)
    (h : Transition.Reaches (cacheStep d (fun _ ↦ ()) call) (Pool.Admits (Recoverable d call))
      p₀ p) : FreshAfter d call p₀ p := by
  intro reader writer q key names v rows hq hkey hhits hwriter hnone hreader
  obtain ⟨th, hth, hcode⟩ := Pool.outcome_some hreader
  have hanswer := local_answers hgen hagree (h₀.trans h) hth hcode
  obtain ⟨i, r, hi⟩ := did_of_outcome h₀ hwriter (Program.performs_bump hhits)
  have hborn : th.born.Bumped i writer :=
    ⟨r, getElem?_extends (log_born_later h hnone hth) hi⟩
  exact ⟨i, ⟨r, hi⟩, hanswer q hq key names hkey i writer hborn hhits⟩

section Sample

/-! A reader fills the cache, its model is invalidated, and another reader
gets the same query. -/

def sharedQuery : PreparedQuery Str := ⟨⟨['s'], ['a']⟩, ['d'], ['q'], .ok none⟩

inductive Caller where
  | filler
  | invalidator
  | refresher
  | reader
  deriving DecidableEq

def localCall : Caller → CacheCall Str
  | .filler | .refresher | .reader => .getOrSet sharedQuery
  | .invalidator => .invalidateModel ['a'] ['d']

def localStep : LocalPool (Caller) Str ℕ → Turn (Caller) (CacheChoice ℕ) →
    Option (LocalPool (Caller) Str ℕ) :=
  cacheStep (plainDeployment false) (fun _ ↦ ()) localCall

/-- Thread `t` begins and performs its effects in a row. -/
def turnsOf (t : Caller) (choices : List (CacheChoice ℕ)) : List (Turn (Caller) (CacheChoice ℕ)) :=
  .begin t :: choices.map (Turn.act t)

/-- A fill whose `backend.set` ends as chosen, with the effects after it. -/
def fillChoices (set : CacheChoice ℕ) (after : ℕ) : List (CacheChoice ℕ) :=
  [.flag false, .flag false, .ok, .ok, .ok, .ok, .ok, .flag false, .content 7, .ok, .ok,
    .flag false, set] ++ List.replicate after .ok

/-- The rows of the second reader, if it began after the invalidation returned. -/
def lateRows (p₀ p : LocalPool (Caller) Str ℕ) : Option (Rows ℕ) :=
  match p₀.outcome .invalidator, p₀.threads .reader, p.outcome .reader with
  | some (.ok _), none, some (.ok (.rows rows)) => some rows
  | _, _, _ => none

theorem lateRows_some {p₀ p : LocalPool (Caller) Str ℕ} {rows : Rows ℕ}
    (h : lateRows p₀ p = some rows) :
    (∃ v, p₀.outcome .invalidator = some (.ok v)) ∧ p₀.threads .reader = none ∧
      p.outcome .reader = some (.ok (.rows rows)) := by
  unfold lateRows at h
  split at h
  · rename_i v _ hv hnone hrows
    obtain rfl := Option.some.inj h
    exact ⟨⟨v, hv⟩, hnone, hrows⟩
  · cases h

theorem sharedQuery_hits : CacheCall.Hits (plainDeployment false)
    (namesOf (plainDeployment false) sharedQuery []) sharedQuery.db (localCall .invalidator) := by
  refine ⟨⟨['a'], ?_, ?_⟩, .inr rfl⟩
  · decide
  · decide

theorem localCall_agree : KeysAgree (plainDeployment false) localCall := by
  have hreads : ∀ t q, (localCall t).reads = some q → q = sharedQuery := by
    intro t q hq
    cases t <;> simp_all [localCall, CacheCall.reads]
  intro t u q q' key names names' hq hq' hkey hkey'
  obtain rfl := hreads t q hq
  obtain rfl := hreads u q' hq'
  exact (Prod.mk.inj (Option.some.inj (hkey.symm.trans hkey'))).2

/-- No fault of the turn takes effect. -/
def faultless : Turn (Caller) (CacheChoice ℕ) → Bool
  | .act _ (.fail _ true) => false
  | _ => true

theorem admits_of_faultless {a : Turn (Caller) (CacheChoice ℕ)} (h : faultless a)
    (p : LocalPool (Caller) Str ℕ) :
    Pool.Admits (Recoverable (plainDeployment false) localCall) p a := by
  cases a with
  | act t c =>
      intro born e k _ key v x _ hc
      rw [hc] at h
      cases h
  | _ => trivial

theorem reaches_of_faultless {as : List (Turn (Caller) (CacheChoice ℕ))}
    {p p' : LocalPool (Caller) Str ℕ} (has : as.all faultless)
    (h : Transition.run localStep p as = some p') :
    Transition.Reaches localStep
      (Pool.Admits (Recoverable (plainDeployment false) localCall)) p p' :=
  Transition.reaches_of_run
    (fun a ha p ↦ admits_of_faultless (List.all_eq_true.mp has a ha) p) h

/-- The index lists the key of the query under all its names. -/
def listed (p : LocalPool (Caller) Str ℕ) : Bool :=
  ∀ name ∈ namesOf (plainDeployment false) sharedQuery [],
    makeKey (plainDeployment false) ['d'] ⟨['s', '.', 'a'], ['q'], [], []⟩ ∈
      (p.world.state.modelKeys name).getD ∅

theorem admits_of_listed {p : LocalPool (Caller) Str ℕ} (h : listed p)
    (a : Turn (Caller) (CacheChoice ℕ)) :
    Pool.Admits (Recoverable (plainDeployment false) localCall) p a := by
  cases a with
  | act t c =>
      intro born e k _ key v x _ _ u q names hq hkey
      obtain rfl : q = sharedQuery := by
        cases u <;> simp_all [localCall, CacheCall.reads]
      obtain ⟨rfl, rfl⟩ := Prod.mk.inj (Option.some.inj hkey)
      exact of_decide_eq_true h
  | _ => trivial

/-- Thread `t` misses the blocked key and reads `content`, up to its `backend.set`. -/
def missTurns (t : Caller) (content : ℕ) : List (Turn (Caller) (CacheChoice ℕ)) :=
  turnsOf t [.flag false, .flag false, .ok, .ok, .ok, .ok, .flag false, .content content, .ok, .ok,
    .flag false]

/-- The `backend.delete` of the invalidation raises, so the rows stay stored
and blocked. The next `backend.set` takes effect and raises, and the reader
after it reads again. -/
theorem local_freshness_sample :
    ∃ p₀ p, CacheReaches (plainDeployment false) (fun _ ↦ ()) localCall p₀ ∧
      (∃ v, p₀.outcome .invalidator = some (.ok v)) ∧
      p.outcome .reader = some (.ok (.rows ⟨9, 47⟩)) ∧
      FreshAfter (plainDeployment false) localCall p₀ p := by
  have hrun : ((Transition.run localStep (Pool.start initial)
      (turnsOf .filler (fillChoices .ok 5) ++
        turnsOf .invalidator [.flag false, .ok, .ok, .ok, .ok,
        .order [makeKey (plainDeployment false) ['d'] ⟨['s', '.', 'a'], ['q'], [], []⟩],
        .fail (.raised 0) false, .ok])).bind fun p₀ ↦
      (Transition.run localStep p₀ (missTurns .refresher 8)).bind fun p₁ ↦
      (localStep p₁ (.act .refresher (.fail (.raised 0) true))).bind fun p₂ ↦
      (Transition.run localStep p₂ (.act .refresher .ok :: missTurns .reader 9 ++
        List.replicate 6 (.act .reader .ok))).map fun p ↦
      (lateRows p₀ p, listed p₁)) = some (some ⟨9, 47⟩, true) := by
    decide +kernel
  obtain ⟨p₀, h₀, hrun⟩ := Option.bind_eq_some_iff.mp hrun
  obtain ⟨p₁, h₁, hrun⟩ := Option.bind_eq_some_iff.mp hrun
  obtain ⟨p₂, h₂, hrun⟩ := Option.bind_eq_some_iff.mp hrun
  obtain ⟨p, h, hrun⟩ := Option.map_eq_some_iff.mp hrun
  obtain ⟨hlate, hlisted⟩ := Prod.mk.inj hrun
  have hreach₀ := reaches_of_faultless (by decide +kernel) h₀
  have hmiss := reaches_of_faultless (by decide +kernel) h₁
  have hlast := reaches_of_faultless (by decide +kernel) h
  have hreach := (hmiss.move _ (admits_of_listed hlisted _) h₂).trans hlast
  obtain ⟨⟨v, hv⟩, -, hrows⟩ := lateRows_some hlate
  exact ⟨p₀, p, Transition.reaches_of_run (fun _ _ _ ↦ trivial) h₀, ⟨v, hv⟩, hrows,
    local_freshness rfl localCall_agree hreach₀ hreach⟩

/-- The set of the fill stores the rows and raises: the invalidation then
finds no key, and the second reader gets the stored rows. -/
theorem local_freshness_fails :
    ∃ p₀ p, CacheReaches (plainDeployment false) (fun _ ↦ ()) localCall p₀ ∧
      Transition.Reaches localStep Transition.Always p₀ p ∧
      ¬FreshAfter (plainDeployment false) localCall p₀ p := by
  have hrun : ((Transition.run localStep (Pool.start initial)
      (turnsOf .filler (fillChoices (.fail (.raised 0) true) 1) ++
        turnsOf .invalidator (.flag false :: List.replicate 4 .ok))).bind fun p₀ ↦
      (Transition.run localStep p₀
        (turnsOf .reader ([.flag false, .flag false] ++ List.replicate 8 .ok))).bind fun p ↦
      (lateRows p₀ p).map fun rows ↦
        (rows, (p₀.world.log.take rows.readAt).all (·.thread ≠ .invalidator))) =
          some (⟨7, 9⟩, true) := by
    decide +kernel
  obtain ⟨p₀, h₀, hrun⟩ := Option.bind_eq_some_iff.mp hrun
  obtain ⟨p, h, hrun⟩ := Option.bind_eq_some_iff.mp hrun
  obtain ⟨rows, hlate, hrows⟩ := Option.map_eq_some_iff.mp hrun
  obtain ⟨rfl, hbefore⟩ := Prod.mk.inj hrows
  refine ⟨p₀, p, Transition.reaches_of_run (fun _ _ _ ↦ trivial) h₀,
    Transition.reaches_of_run (fun _ _ _ ↦ trivial) h, fun hfresh ↦ ?_⟩
  obtain ⟨⟨v, hv⟩, hnone, hreader⟩ := lateRows_some hlate
  obtain ⟨i, ⟨r, hi⟩, hlt⟩ :=
    hfresh .reader .invalidator sharedQuery _ _ v _ rfl rfl sharedQuery_hits hv hnone hreader
  have htake : i < (⟨7, 9⟩ : Rows ℕ).readAt := by omega
  have hmem := List.mem_of_getElem? ((List.getElem?_take_of_lt htake).trans hi)
  simpa using List.all_eq_true.mp hbefore _ hmem

end Sample

end DjangoNova
