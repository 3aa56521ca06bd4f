import DjangoNova.Redis.Isolation

/-!
# Clearing a namespace

A thread clears the namespace of a backend while other clients run any
programs and keys expire. The loop of `clear` deletes each page before it
asks for the next one, so a key that no one else removes is returned by
the scan at last, and then deleted.
-/

namespace DjangoNova

/-- A scan that was executed and returned the key. -/
def RedisEvent.Returns {T : Type} (key : Str) : RedisEvent T → Prop
  | ⟨_, _, .scan _ _, some (.ok page)⟩ => key ∈ page.2
  | _ => False

/-- A deletion of the key that was executed. -/
def RedisEvent.Deletes {T : Type} (key : Str) : RedisEvent T → Prop
  | ⟨_, _, .delete keys, some (.ok _)⟩ => key ∈ keys
  | _ => False

instance {T : Type} (key : Str) : DecidablePred (RedisEvent.Returns key : RedisEvent T → Prop)
  | ⟨_, _, .scan _ _, some (.ok page)⟩ => inferInstanceAs (Decidable (key ∈ page.2))
  | ⟨_, _, .scan _ _, some (.error _)⟩ | ⟨_, _, .scan _ _, none⟩ | ⟨_, _, .get _, _⟩
  | ⟨_, _, .mget _, _⟩ | ⟨_, _, .set _ _ _ _, _⟩ | ⟨_, _, .delete _, _⟩ | ⟨_, _, .unlock _ _, _⟩
  | ⟨_, _, .slidingWindow _ _ _ _ _, _⟩ => .isFalse id

instance {T : Type} (key : Str) : DecidablePred (RedisEvent.Deletes key : RedisEvent T → Prop)
  | ⟨_, _, .delete keys, some (.ok _)⟩ => inferInstanceAs (Decidable (key ∈ keys))
  | ⟨_, _, .delete _, some (.error _)⟩ | ⟨_, _, .delete _, none⟩ | ⟨_, _, .get _, _⟩
  | ⟨_, _, .mget _, _⟩ | ⟨_, _, .set _ _ _ _, _⟩ | ⟨_, _, .scan _ _, _⟩ | ⟨_, _, .unlock _ _, _⟩
  | ⟨_, _, .slidingWindow _ _ _ _ _, _⟩ => .isFalse id

/-- A command of `clear`: a scan with its pattern, or a deletion of keys of
the namespace. -/
def RedisCommand.Sweeps {V : Type} (b : RedisCacheBackend V) : RedisCommand → Prop
  | .scan _ pattern => pattern = b.pattern
  | .delete keys => ∀ key ∈ keys, cacheStem b.keyPrefix <+: key
  | _ => False

namespace RedisWorld

variable {T V : Type}

/-- Thread `t` has got the key from a scan. -/
def Returned (w : RedisWorld T) (t : T) (key : Str) : Prop :=
  ∃ e ∈ w.log, e.thread = t ∧ e.Returns key

/-- Thread `t` has deleted the key. -/
def Deleted (w : RedisWorld T) (t : T) (key : Str) : Prop :=
  ∃ e ∈ w.log, e.thread = t ∧ e.Deletes key

instance [DecidableEq T] (w : RedisWorld T) (t : T) : DecidablePred (w.Returned t) :=
  fun key ↦ inferInstanceAs (Decidable (∃ e ∈ w.log, e.thread = t ∧ e.Returns key))

instance [DecidableEq T] (w : RedisWorld T) (t : T) : DecidablePred (w.Deleted t) :=
  fun key ↦ inferInstanceAs (Decidable (∃ e ∈ w.log, e.thread = t ∧ e.Deletes key))

variable {w w' : RedisWorld T} {t u : T} {key : Str} {c : RedisCommand}
variable {executed : Option (Except RedisError c.Reply)} {s : RedisServer}

theorem exists_mem_issue {P : RedisEvent T → Prop} :
    (∃ e ∈ (w.issue u c executed s).log, e.thread = t ∧ P e) ↔
      (∃ e ∈ w.log, e.thread = t ∧ P e) ∨ (u = t ∧ P ⟨u, w.server.now, c, executed⟩) := by
  simp only [issue, List.mem_append, List.mem_singleton]
  constructor
  · rintro ⟨e, he | rfl, ht, hP⟩
    · exact .inl ⟨e, he, ht, hP⟩
    · exact .inr ⟨ht, hP⟩
  · rintro (⟨e, he, ht, hP⟩ | ⟨ht, hP⟩)
    · exact ⟨e, .inl he, ht, hP⟩
    · exact ⟨_, .inr (Eq.refl _), ht, hP⟩

end RedisWorld

section Sweep

variable {T V : Type} {b : RedisCacheBackend V} {w w' : RedisWorld T} {t : T}

open RedisCacheBackend

/-- Where `clear` stands: what its scans returned is deleted, apart from the
page at hand. -/
inductive SweepPhase (b : RedisCacheBackend V) (t : T) (w : RedisWorld T) : RedisProgram Unit → Prop
  | scanning (pages cursor : ℕ) (hdone : ∀ key, w.Returned t key → w.Deleted t key) :
      SweepPhase b t w (handled (b.clearLoop (pages + 1) cursor))
  | deleting (keys : List Str) (pages cursor : ℕ) (k : Except RedisError ℕ → RedisProgram Unit)
      (hnext : ∀ n, k (.ok n) =
        handled (if cursor = 0 then return () else b.clearLoop pages cursor))
      (hfailed : ∀ x, ∃ y, k (.error x) = .done (.error y))
      (hown : ∀ key ∈ keys, cacheStem b.keyPrefix <+: key)
      (hdone : ∀ key, w.Returned t key → w.Deleted t key ∨ key ∈ keys) :
      SweepPhase b t w (.step (.command (.delete keys)) k)
  | ended (v : Except RedisError Unit)
      (hdone : v = .ok () → ∀ key, w.Returned t key → w.Deleted t key) :
      SweepPhase b t w (.done v)

/-- The history and the phase of a clearing thread. -/
structure Sweeping (b : RedisCacheBackend V) (t : T) (w : RedisWorld T) (code : RedisProgram Unit) :
    Prop where
  own : ∀ e ∈ w.log, e.thread = t → e.command.Sweeps b
  phase : SweepPhase b t w code

/-- The loop goes on, or gives up after its last page. -/
theorem sweepPhase_loop (pages cursor : ℕ) (hdone : ∀ key, w.Returned t key → w.Deleted t key) :
    SweepPhase b t w (handled (b.clearLoop pages cursor)) := by
  cases pages with
  | zero => exact .ended (.error .other) nofun
  | succ pages => exact .scanning pages cursor hdone

theorem sweepPhase_next (pages cursor : ℕ) (hdone : ∀ key, w.Returned t key → w.Deleted t key) :
    SweepPhase b t w (handled (if cursor = 0 then return () else b.clearLoop pages cursor)) := by
  split
  · exact .ended (.ok ()) fun _ ↦ hdone
  · exact sweepPhase_loop pages cursor hdone

/-- Whatever else happens, the history of the thread stays. -/
theorem SweepPhase.mono {code : RedisProgram Unit} (h : SweepPhase b t w code)
    (hreturned : ∀ key, w'.Returned t key ↔ w.Returned t key)
    (hdeleted : ∀ key, w'.Deleted t key ↔ w.Deleted t key) : SweepPhase b t w' code := by
  cases h with
  | scanning pages cursor hdone =>
      exact .scanning pages cursor fun key hkey ↦
        (hdeleted key).mpr (hdone key ((hreturned key).mp hkey))
  | deleting keys pages cursor k hnext hfailed hown hdone =>
      exact .deleting keys pages cursor k hnext hfailed hown fun key hkey ↦
        (hdone key ((hreturned key).mp hkey)).imp_left (hdeleted key).mpr
  | ended v hdone =>
      exact .ended v fun hv key hkey ↦ (hdeleted key).mpr (hdone hv key ((hreturned key).mp hkey))

theorem Sweeping.other {code : RedisProgram Unit} (h : Sweeping b t w code) {u : T} (hu : u ≠ t)
    {c : RedisCommand} {executed : Option (Except RedisError c.Reply)} {s : RedisServer} :
    Sweeping b t (w.issue u c executed s) code := by
  constructor
  · intro e he ht
    rcases List.mem_append.mp he with he | he
    · exact h.own e he ht
    · obtain rfl := List.mem_singleton.mp he
      exact absurd ht hu
  · have hsame : ∀ P : RedisEvent T → Prop,
        (∃ e ∈ (w.issue u c executed s).log, e.thread = t ∧ P e) ↔
          ∃ e ∈ w.log, e.thread = t ∧ P e := by
      intro P
      rw [RedisWorld.exists_mem_issue]
      simp [hu]
    exact h.phase.mono (fun key ↦ hsame _) fun key ↦ hsame _


/-- Errors of a command end the operation. -/
theorem handled_throw (x : RedisError) :
    ∃ y, (handled (.throw x) : RedisProgram Unit) = .done (.error y) := by
  cases x <;> exact ⟨_, rfl⟩

/-- One round of the loop. -/
theorem clearLoop_step (pages cursor : ℕ) :
    ∃ k, handled (b.clearLoop (pages + 1) cursor) = .step (.command (.scan cursor b.pattern)) k ∧
      (∀ x, ∃ y, k (.error x) = .done (.error y)) ∧
      (∀ page, page.2 = [] →
        k (.ok page) = handled (if page.1 = 0 then return () else b.clearLoop pages page.1)) ∧
      ∀ page, page.2 ≠ [] → ∃ k', k (.ok page) = .step (.command (.delete page.2)) k' ∧
        (∀ n, k' (.ok n) = handled (if page.1 = 0 then return () else b.clearLoop pages page.1)) ∧
        ∀ x, ∃ y, k' (.error x) = .done (.error y) := by
  refine ⟨_, rfl, handled_throw, fun page hpage ↦ ?_, fun page hpage ↦ ?_⟩
  · obtain ⟨next, keys⟩ := page
    obtain rfl : keys = [] := hpage
    rfl
  · obtain ⟨next, keys⟩ := page
    cases keys with
    | nil => exact absurd (Eq.refl _) hpage
    | cons key rest => exact ⟨_, rfl, fun n ↦ rfl, handled_throw⟩

theorem own_issue {c : RedisCommand} (hown : ∀ e ∈ w.log, e.thread = t → e.command.Sweeps b)
    (hc : c.Sweeps b) (executed : Option (Except RedisError c.Reply)) (s : RedisServer) :
    ∀ e ∈ (w.issue t c executed s).log, e.thread = t → e.command.Sweeps b := by
  intro e he ht
  rcases List.mem_append.mp he with he | he
  · exact hown e he ht
  · obtain rfl := List.mem_singleton.mp he
    exact hc

/-- A scan that is executed returns keys of the namespace. -/
theorem execute_scan {s s' : RedisServer} {page : ℕ × List Str} {cursor : ℕ}
    {q : Except RedisError (ℕ × List Str)}
    (h : s.execute page (.scan cursor b.pattern) = some (q, s')) :
    ∃ page, q = .ok page ∧ ∀ key ∈ page.2, cacheStem b.keyPrefix <+: key := by
  simp only [RedisServer.execute] at h
  obtain ⟨hpage, h⟩ := Option.ite_none_right_eq_some.mp h
  obtain ⟨rfl, -⟩ := Prod.mk.inj (Option.some.inj h)
  refine ⟨page, Eq.refl _, fun key hkey ↦ ?_⟩
  have hmatch := List.all_eq_true.mp hpage key hkey
  exact (globMatch_pattern key).mp (Bool.and_eq_true_iff.mp hmatch).2

/-- One command of the clearing thread. -/
theorem Sweeping.command {c : RedisCommand}
    {k : Except RedisError (RedisEffect.Reply (.command c)) → RedisProgram Unit}
    (h : Sweeping b t w (.step (.command c) k)) {choice : RedisChoice}
    {r : Except RedisError c.Reply}
    (hperform : RedisWorld.machine.perform t (.command c) choice w = some (r, w')) :
    Sweeping b t w' (k r) := by
  obtain ⟨hown, hphase⟩ := h
  have herror : ∀ code : RedisProgram Unit, (∃ y, code = .done (.error y)) →
      SweepPhase b t w' code := by
    rintro code ⟨y, rfl⟩
    exact .ended _ nofun
  generalize hcode : Program.step (RedisEffect.command c) k = code at hphase
  cases hphase with
  | scanning pages cursor hdone =>
      obtain ⟨k₀, hstep, hfailed, hempty, hpage⟩ := clearLoop_step (b := b) pages cursor
      rw [hstep] at hcode
      obtain ⟨heq, hk⟩ := Program.step.inj hcode
      obtain rfl := RedisEffect.command.inj heq
      obtain rfl := eq_of_heq hk
      have hscan : (RedisCommand.scan cursor b.pattern).Sweeps b := Eq.refl _
      rcases RedisWorld.perform_command hperform with ⟨⟨x, rfl⟩, rfl⟩ | ⟨_, q, s', hq, rfl, hr⟩
      · exact ⟨own_issue hown hscan _ _, herror _ (hfailed x)⟩
      · refine ⟨own_issue hown hscan _ _, ?_⟩
        rcases hr with rfl | ⟨x, rfl⟩
        · obtain ⟨page, rfl, hkeys⟩ := execute_scan hq
          have hdone' : ∀ key,
            (w.issue t (.scan cursor b.pattern) (some (.ok page)) s').Returned t key →
              (w.issue t (.scan cursor b.pattern) (some (.ok page)) s').Deleted t key ∨
                key ∈ page.2 := by
            intro key hkey
            rcases RedisWorld.exists_mem_issue.mp hkey with hold | ⟨-, hnew⟩
            · exact .inl (RedisWorld.exists_mem_issue.mpr (.inl (hdone key hold)))
            · exact .inr hnew
          by_cases hnone : page.2 = []
          · rw [hempty page hnone]
            refine sweepPhase_next pages page.1 fun key hkey ↦ (hdone' key hkey).resolve_right ?_
            simp [hnone]
          · obtain ⟨k', hk', hnext, hlost⟩ := hpage page hnone
            rw [hk']
            exact .deleting page.2 pages page.1 k' hnext hlost hkeys hdone'
        · exact herror _ (hfailed x)
  | deleting keys pages cursor k₀ hnext hfailed hkeys hdone =>
      obtain ⟨heq, hk⟩ := Program.step.inj hcode
      obtain rfl := RedisEffect.command.inj heq
      obtain rfl := eq_of_heq hk
      have hdelete : (RedisCommand.delete keys).Sweeps b := hkeys
      rcases RedisWorld.perform_command hperform with ⟨⟨x, rfl⟩, rfl⟩ | ⟨page, q, s', hq, rfl, hr⟩
      · exact ⟨own_issue hown hdelete _ _, herror _ (hfailed x)⟩
      · refine ⟨own_issue hown hdelete _ _, ?_⟩
        rcases hr with rfl | ⟨x, rfl⟩
        · obtain ⟨rfl, -⟩ := Prod.mk.inj (Option.some.inj hq)
          rw [hnext]
          refine sweepPhase_next pages cursor fun key hkey ↦ ?_
          apply RedisWorld.exists_mem_issue.mpr
          rcases RedisWorld.exists_mem_issue.mp hkey with hold | ⟨-, hnew⟩
          · exact (hdone key hold).imp_right fun hmem ↦ ⟨Eq.refl _, hmem⟩
          · exact hnew.elim
        · exact herror _ (hfailed x)
  | ended v hdone => cases hcode

/-- The clearing thread sends commands only. -/
theorem SweepPhase.sends {e : RedisEffect} {k : Except RedisError e.Reply → RedisProgram Unit}
    (h : SweepPhase b t w (.step e k)) : ∃ c, e = .command c := by
  generalize hcode : Program.step e k = code at h
  cases h with
  | scanning pages cursor hdone =>
      obtain ⟨k₀, hstep, -⟩ := clearLoop_step (b := b) pages cursor
      rw [hstep] at hcode
      exact ⟨_, (Program.step.inj hcode).1⟩
  | deleting keys pages cursor k₀ hnext hfailed hown hdone => exact ⟨_, (Program.step.inj hcode).1⟩
  | ended v hdone => cases hcode

end Sweep

section Clear

variable {T V : Type} [DecidableEq T] {body : T → RedisProgram Unit} {s : RedisServer}
variable {b : RedisCacheBackend V} {t : T} {pages : ℕ} {p q : RedisPool T Unit}
variable {turns : List (Turn T RedisChoice)}

/-- One turn of clients that run any programs. -/
def redisStep (body : T → RedisProgram Unit) :
    RedisPool T Unit → Turn T RedisChoice → Option (RedisPool T Unit) :=
  Pool.step RedisWorld.machine body

/-- The pool is one at which the run comes while the call of `t` is in progress. -/
def DuringCall (body : T → RedisProgram Unit) (s : RedisServer) (turns : List (Turn T RedisChoice))
    (t : T) (q : RedisPool T Unit) : Prop :=
  (∃ before after, turns = before ++ after ∧
    Transition.run (redisStep body) (Pool.start ⟨s, []⟩) before = some q) ∧
    (q.threads t).isSome ∧ q.outcome t = none

theorem sweeping_reaches (hpre : b.keyPrefix ≠ []) (hbody : body t = b.clear pages)
    (h : Transition.Reaches (redisStep body) Transition.Always (Pool.start ⟨s, []⟩) p) :
    (p.threads t = none → ∀ e ∈ p.world.log, e.thread ≠ t) ∧
      ∀ th, p.threads t = some th → Sweeping b t p.world th.code := by
  refine h.invariant (I := fun p : RedisPool T Unit ↦
    (p.threads t = none → ∀ e ∈ p.world.log, e.thread ≠ t) ∧
      ∀ th, p.threads t = some th → Sweeping b t p.world th.code) ?_ ?_
  · exact ⟨fun _ e he ↦ by simp [Pool.start] at he, fun th hth ↦ by simp [Pool.start] at hth⟩
  rintro p a p' ⟨hidle, hsweep⟩ - hs
  rcases Pool.step_cases hs with ⟨u, hu, rfl⟩ | ⟨u, born, e, k, c, r, w', hu, hp, rfl⟩ |
    ⟨c, w', hw, rfl⟩
  · by_cases hut : t = u
    · subst hut
      refine ⟨fun hnone ↦ by simp at hnone, fun th hth ↦ ?_⟩
      obtain rfl : ⟨p.world, body t⟩ = th := by simpa using hth
      have hnone := hidle hu
      refine ⟨fun e he ht ↦ absurd ht (hnone e he), ?_⟩
      rw [hbody, RedisCacheBackend.clear, if_neg hpre]
      refine sweepPhase_loop pages 0 ?_
      rintro key ⟨e, he, ht, -⟩
      exact absurd ht (hnone e he)
    · exact ⟨fun hnone ↦ hidle (by simpa [hut] using hnone), fun th hth ↦
        hsweep th (by simpa [hut] using hth)⟩
  · by_cases hut : t = u
    · subst hut
      refine ⟨fun hnone ↦ by simp at hnone, fun th hth ↦ ?_⟩
      obtain rfl : ⟨born, k r⟩ = th := by simpa using hth
      have hnow := hsweep _ hu
      obtain ⟨command, rfl⟩ := hnow.phase.sends
      exact hnow.command hp
    · have hother : (Unexecuted p.world t → Unexecuted w' t) ∧
          ∀ code, Sweeping b t p.world code → Sweeping b t w' code := by
        cases e with
        | command command =>
            rcases RedisWorld.perform_command hp with ⟨-, rfl⟩ | ⟨page, q, s', hq, rfl, -⟩
            · exact ⟨fun hnone ↦ hnone.issue hut, fun code hcode ↦ hcode.other (Ne.symm hut)⟩
            · exact ⟨fun hnone ↦ hnone.issue hut, fun code hcode ↦ hcode.other (Ne.symm hut)⟩
        | clock => exact (RedisWorld.perform_clock hp).2 ▸ ⟨id, fun _ ↦ id⟩
        | deadlinePassed => exact RedisWorld.perform_deadlinePassed hp ▸ ⟨id, fun _ ↦ id⟩
      exact ⟨fun hnone ↦ hother.1 (hidle (by simpa [hut] using hnone)), fun th hth ↦
        hother.2 _ (hsweep th (by simpa [hut] using hth))⟩
  · obtain ⟨ms, -, rfl⟩ := RedisWorld.environment_tick hw
    refine ⟨hidle, fun th hth ↦ ?_⟩
    obtain ⟨hown, hphase⟩ := hsweep th hth
    exact ⟨hown, hphase.mono (fun _ ↦ Iff.rfl) fun _ ↦ Iff.rfl⟩

/-- The log of an earlier pool of a run is a part of the later ones. -/
theorem log_run {before after : List (Turn T RedisChoice)}
    (hq : Transition.run (redisStep body) (Pool.start ⟨s, []⟩) before = some q)
    (hp : Transition.run (redisStep body) (Pool.start ⟨s, []⟩) (before ++ after) = some p) :
    q.world.log <+: p.world.log := by
  have hrest : Transition.run (redisStep body) q after = some p := by
    rw [Transition.run_append, hq] at hp
    exact hp
  have hreach : Transition.Reaches (redisStep body) Transition.Always q p :=
    Transition.reaches_of_run (fun _ _ _ ↦ trivial) hrest
  refine (Pool.born_later (A := fun w w' : RedisWorld T ↦ w.log <+: w'.log)
    (fun _ ↦ List.prefix_rfl) (fun _ _ _ ↦ List.IsPrefix.trans) ?_ ?_ hreach).1
  · intro t e choice w r w' hperform
    cases e with
    | command c =>
        rcases RedisWorld.perform_command hperform with ⟨-, rfl⟩ | ⟨page, q, s', -, rfl, -⟩
        · exact List.prefix_append _ _
        · exact List.prefix_append _ _
    | clock => exact (RedisWorld.perform_clock hperform).2 ▸ List.prefix_rfl
    | deadlinePassed => exact RedisWorld.perform_deadlinePassed hperform ▸ List.prefix_rfl
  · intro choice w w' henv
    obtain ⟨ms, -, rfl⟩ := RedisWorld.environment_tick henv
    exact List.prefix_rfl

/-- The guarantee of `SCAN` for the call of `t`: a key of the pattern that is
present throughout the iteration is returned at least once. -/
def ScanComplete (b : RedisCacheBackend V) (body : T → RedisProgram Unit) (s : RedisServer)
    (turns : List (Turn T RedisChoice)) (t : T) (p : RedisPool T Unit) : Prop :=
  ∀ key, Glob.globMatch b.pattern key = true →
    (∀ q, DuringCall body s turns t q → (q.world.server.live key).isSome) → p.world.Returned t key

end Clear

section Sample

/-- Its prefix `p*` has a character that patterns treat specially. -/
def starBackend : RedisCacheBackend Unit := plainBackend ['p', '*']

def starKey (c : Char) : Str := ['p', '*', ':', c]

/-- A key outside the namespace that the unquoted prefix would match. -/
def outsideKey : Str := ['p', 'x', ':', 'k']

def starKeyspace : RedisServer :=
  ⟨0, fun key ↦ if key ∈ [starKey 'k', starKey 'm', outsideKey] then some ⟨.string [], none⟩
    else none⟩

/-- Thread `false` clears the namespace, and thread `true` writes a key of it. -/
def clearBody (t : Bool) : RedisProgram Unit :=
  if t then starBackend.set ['k'] () none else starBackend.clear 3

/-- The first page is empty. The key of the second page is written again and
then returned once more. -/
def clearTurns : List (Turn Bool RedisChoice) :=
  [.begin false, .act false (.reply (7, [])), .act false (.reply (4, [starKey 'k'])),
    .act false (.reply (0, [])), .begin true, .act true (.reply (0, [])),
    .act false (.reply (0, [starKey 'k', starKey 'm'])), .act false (.reply (0, []))]

/-- The call is not in progress, or the key is present or deleted. -/
def accounted (p : RedisPool Bool Unit) (key : Str) : Bool :=
  (p.threads false).isNone || (p.outcome false).isSome ||
    (p.world.server.live key).isSome || p.world.Deleted false key

theorem accounted_moments : ∀ n < 9,
    (Transition.run (redisStep clearBody) (Pool.start ⟨starKeyspace, []⟩) (clearTurns.take n)).all
      (fun p ↦ accounted p (starKey 'k') && accounted p (starKey 'm')) = true := by
  decide +kernel

theorem accounted_during {key : Str} (hkey : key = starKey 'k' ∨ key = starKey 'm')
    {q : RedisPool Bool Unit} (hq : DuringCall clearBody starKeyspace clearTurns false q) :
    (q.world.server.live key).isSome ∨ q.world.Deleted false key := by
  obtain ⟨⟨before, after, hturns, hbefore⟩, hbegan, hrunning⟩ := hq
  have htake : clearTurns.take before.length = before := by rw [hturns, List.take_left]
  have hlength : before.length < 9 := by
    have htotal := congrArg List.length hturns
    simp only [clearTurns, List.length_cons, List.length_nil, List.length_append] at htotal
    omega
  have hmoment := accounted_moments before.length hlength
  rw [htake, hbefore] at hmoment
  simp only [Option.all_some, Bool.and_eq_true] at hmoment
  have haccounted : accounted q key = true := by
    rcases hkey with rfl | rfl
    · exact hmoment.1
    · exact hmoment.2
  simp only [accounted, Bool.or_eq_true, decide_eq_true_eq] at haccounted
  rcases haccounted with ((hidle | hended) | hlive) | hdeleted
  · simp [Option.isNone_iff_eq_none.mp hidle] at hbegan
  · simp [hrunning] at hended
  · exact .inl hlive
  · exact .inr hdeleted

end Sample

end DjangoNova
