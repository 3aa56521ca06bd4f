import Mathlib.Tactic.Linarith
import DjangoNova.Redis.Server

/-!
# Distributed locks

The calls of `AsyncDistributedLock` as programs of Redis commands, and
mutual exclusion between the lock objects of one resource. An object owns
the key from a successful `SET` until it sends the unlock script or the
deadline of its own `SET` passes. The server executes a command before its
round trip ends, or never: what a client has given up on does not come later.
-/

namespace DjangoNova

/-- The fields that `__init__` sets; the timeout is in milliseconds. -/
structure DistributedLock where
  resource : Str
  identifier : Str
  timeout : ℤ

inductive LockCall where
  | acquire (polls : ℕ)
  | release

namespace DistributedLock

def lockPrefix : Str := "nova:lock:".toList

variable (o : DistributedLock)

def name : Str := lockPrefix ++ o.resource

/-- `SET name identifier NX PX timeout` -/
def setCommand : RedisCommand := .set o.name o.identifier true (some o.timeout)

def unlockCommand : RedisCommand := .unlock o.name o.identifier

/-- The loop of `acquire`, cut off after a number of polls, from the value
of `_acquired`: its new value and the outcome of the call. -/
def acquireLoop : ℕ → Bool → RedisProgram (Bool × Except RedisError Bool)
  | 0, acquired => return (acquired, .ok false)
  | polls + 1, acquired =>
      (redis o.setCommand).andThen fun
        | .error x => return (acquired, .error x)
        | .ok true => return (true, .ok true)
        | .ok false => do
            if ← deadlinePassed then return (false, .ok false)
            else acquireLoop polls false

def release (acquired : Bool) : RedisProgram (Bool × Except RedisError Unit) :=
  if acquired then
    (redis o.unlockCommand).andThen fun
      | .error x => return (acquired, .error x)
      | .ok _ => return (false, .ok ())
  else return (acquired, .ok ())

/-- The calls of one object in their order; the caller handles the
exceptions of each. -/
def session : List LockCall → Bool → RedisProgram Unit
  | [], _ => return ()
  | .acquire polls :: calls, acquired => do
      let (acquired, _) ← o.acquireLoop polls acquired
      session calls acquired
  | .release :: calls, acquired => do
      let (acquired, _) ← o.release acquired
      session calls acquired

/-- The effects of an object. -/
def Uses (e : RedisEffect) : Prop :=
  e = .command o.setCommand ∨ e = .command o.unlockCommand ∨ e = .deadlinePassed

section Within

variable {replies : (e : RedisEffect) → Except RedisError e.Reply → Prop}

theorem acquireLoop_within (polls : ℕ) (acquired : Bool) :
    (o.acquireLoop polls acquired).Within o.Uses replies := by
  induction polls generalizing acquired with
  | zero => trivial
  | succ polls ih =>
      have hset : (redis o.setCommand).Within o.Uses replies := Program.within_call (.inl rfl)
      apply hset.andThen
      intro v
      rcases v with x | _ | _
      · trivial
      · have hflag : deadlinePassed.Within o.Uses replies := Program.within_call (.inr (.inr rfl))
        apply hflag.bind
        intro passed
        cases passed with
        | true => trivial
        | false => exact ih false
      · trivial

theorem release_within (acquired : Bool) : (o.release acquired).Within o.Uses replies := by
  cases acquired with
  | false => trivial
  | true =>
      have hunlock : (redis o.unlockCommand).Within o.Uses replies :=
        Program.within_call (.inr (.inl rfl))
      apply hunlock.andThen
      intro v
      cases v <;> trivial

theorem session_within (calls : List LockCall) (acquired : Bool) :
    (o.session calls acquired).Within o.Uses replies := by
  induction calls generalizing acquired with
  | nil => trivial
  | cons call calls ih =>
      cases call with
      | acquire polls => exact (o.acquireLoop_within polls acquired).bind fun _ ↦ ih _
      | release => exact (o.release_within acquired).bind fun _ ↦ ih _

end Within

end DistributedLock

namespace RedisEvent

variable {T : Type}

/-- A `SET NX` that the server performed. -/
def granted : RedisEvent T → Bool
  | ⟨_, _, .set _ _ true _, some (.ok true)⟩ => true
  | _ => false

/-- An unlock script that deleted its key. -/
def deleted : RedisEvent T → Bool
  | ⟨_, _, .unlock _ _, some (.ok n)⟩ => n ≠ 0
  | _ => false

def unlocks : RedisEvent T → Bool
  | ⟨_, _, .unlock _ _, _⟩ => true
  | _ => false

theorem not_granted_of_none (t : T) (time : ℚ) (c : RedisCommand) :
    granted ⟨t, time, c, none⟩ = false := by
  cases c with
  | set key value onlyIfAbsent px => cases onlyIfAbsent <;> rfl
  | _ => rfl

theorem not_deleted_of_none (t : T) (time : ℚ) (c : RedisCommand) :
    deleted ⟨t, time, c, none⟩ = false := by
  cases c <;> rfl

end RedisEvent

namespace RedisServer

variable {s s' : RedisServer} {o : DistributedLock} {page : ℕ × List Str}

/-- A lock's `SET` is granted only when the key is free. -/
theorem execute_setCommand {r : Except RedisError Bool}
    (h : s.execute page o.setCommand = some (r, s')) :
    (r ≠ .ok true ∧ s' = s) ∨
    (s.live o.name = none ∧
      s' = s.put o.name ⟨.string o.identifier, some (s.now + o.timeout)⟩) := by
  simp only [DistributedLock.setCommand, execute] at h
  split at h
  · obtain ⟨rfl, rfl⟩ := Prod.mk.inj (Option.some.inj h)
    exact .inl ⟨by simp, rfl⟩
  split at h
  · obtain ⟨rfl, rfl⟩ := Prod.mk.inj (Option.some.inj h)
    exact .inl ⟨by simp, rfl⟩
  · rename_i hfree
    obtain ⟨-, rfl⟩ := Prod.mk.inj (Option.some.inj h)
    have hnone : s.live o.name = none := by simpa using hfree
    exact .inr ⟨hnone, rfl⟩

/-- The unlock script leaves a live key of another object alone. -/
theorem execute_unlockCommand {r : Except RedisError ℕ} {v : Str} {deadline : Option ℚ}
    (h : s.execute page o.unlockCommand = some (r, s'))
    (hlive : s.live o.name = some ⟨.string v, deadline⟩) (hne : v ≠ o.identifier) :
    r = .ok 0 ∧ s' = s := by
  simp only [DistributedLock.unlockCommand, execute, hlive, if_neg hne] at h
  obtain ⟨rfl, rfl⟩ := Prod.mk.inj (Option.some.inj h)
  exact ⟨rfl, rfl⟩

end RedisServer

section MutualExclusion

variable {T : Type} (o : T → DistributedLock)

/-- No event of the list is an unlock script of the thread. -/
def NotUnlocked (t : T) (events : List (RedisEvent T)) : Prop :=
  ∀ f ∈ events, f.thread = t → f.unlocks = false

/-- The key holds the identifier of the last object whose `SET` succeeded,
until it unlocks or its timeout passes. -/
def Holding (w : RedisWorld T) : Prop :=
  ∀ before e after, w.log = before ++ e :: after → e.granted = true →
    NotUnlocked e.thread after → w.server.now < e.time + (o e.thread).timeout →
    w.server.entries (o e.thread).name =
      some ⟨.string (o e.thread).identifier, some (e.time + (o e.thread).timeout)⟩

/-- No other object acquires the key meanwhile, and none deletes it. -/
def Exclusive (w : RedisWorld T) : Prop :=
  ∀ before (e : RedisEvent T) during (f : RedisEvent T) after,
    w.log = before ++ e :: (during ++ f :: after) → e.granted = true → NotUnlocked e.thread during →
      f.time < e.time + (o e.thread).timeout →
    f.thread ≠ e.thread → f.granted = false ∧ f.deleted = false

variable {o} {w : RedisWorld T} {resource : Str}

/-- While the key is held, the commands of other objects fail, and so does
another `SET` of the owner. -/
theorem held_command (hname : ∀ t, (o t).resource = resource)
    (hids : Function.Injective fun t ↦ (o t).identifier) {t u : T} {c : RedisCommand}
    (hc : (o u).Uses (.command c)) {page : ℕ × List Str} {q : Except RedisError c.Reply}
    {s' : RedisServer} (hexec : w.server.execute page c = some (q, s')) {deadline : ℚ}
    (hentry : w.server.entries (o t).name = some ⟨.string (o t).identifier, some deadline⟩)
    (hnow : w.server.now < deadline) :
    let f : RedisEvent T := ⟨u, w.server.now, c, some q⟩
    (u ≠ t → f.granted = false ∧ f.deleted = false) ∧
      (u ≠ t ∨ f.unlocks = false → s' = w.server) := by
  have hlive := RedisServer.live_of_entry hentry rfl hnow
  have hkey : (o u).name = (o t).name := by simp [DistributedLock.name, hname]
  rcases hc with heq | heq | heq
  · obtain rfl : c = (o u).setCommand := by simpa using heq
    rcases RedisServer.execute_setCommand hexec with ⟨hr, rfl⟩ | ⟨hfree, -⟩
    · have hgranted : q ≠ .ok true := hr
      have hflag : RedisEvent.granted ⟨u, w.server.now, (o u).setCommand, some q⟩ = false := by
        rcases q with x | _ | _
        · rfl
        · rfl
        · exact absurd rfl hgranted
      exact ⟨fun _ ↦ ⟨hflag, rfl⟩, fun _ ↦ rfl⟩
    · rw [hkey, hlive] at hfree
      cases hfree
  · obtain rfl : c = (o u).unlockCommand := by simpa using heq
    have hother : u ≠ t → q = (.ok 0 : Except RedisError ℕ) ∧ s' = w.server := by
      intro hne
      apply RedisServer.execute_unlockCommand hexec (hkey ▸ hlive)
      intro hid
      exact hne (hids hid).symm
    constructor
    · intro hne
      obtain ⟨rfl, -⟩ := hother hne
      exact ⟨rfl, rfl⟩
    · rintro (hne | hf)
      · exact (hother hne).2
      · cases hf
  · cases heq

/-- One command of an object keeps both facts. -/
theorem holding_step (hname : ∀ t, (o t).resource = resource)
    (hids : Function.Injective fun t ↦ (o t).identifier) {u : T} {c : RedisCommand}
    (hc : (o u).Uses (.command c)) {executed : Option (Except RedisError c.Reply)}
    {s' : RedisServer}
    (hexec : (executed = none ∧ s' = w.server) ∨
      ∃ page q, executed = some q ∧ w.server.execute page c = some (q, s'))
    (hI : Holding o w ∧ Exclusive o w) :
    Holding o (w.issue u c executed s') ∧ Exclusive o (w.issue u c executed s') := by
  obtain ⟨hholding, hexclusive⟩ := hI
  have hsame : s'.now = w.server.now := by
    rcases hexec with ⟨-, rfl⟩ | ⟨page, q, -, hq⟩
    · rfl
    · exact RedisServer.execute_now hq
  have hother : ∀ before e after, w.log = before ++ e :: after → e.granted = true →
      NotUnlocked e.thread after → w.server.now < e.time + (o e.thread).timeout →
      let f : RedisEvent T := ⟨u, w.server.now, c, executed⟩
      (u ≠ e.thread → f.granted = false ∧ f.deleted = false) ∧
        (u ≠ e.thread ∨ f.unlocks = false → s' = w.server) := by
    intro before e after hlog he hafter hnow
    have hentry := hholding before e after hlog he hafter hnow
    rcases hexec with ⟨rfl, rfl⟩ | ⟨page, q, rfl, hq⟩
    · exact ⟨fun _ ↦ ⟨RedisEvent.not_granted_of_none _ _ _, RedisEvent.not_deleted_of_none _ _ _⟩,
        fun _ ↦ rfl⟩
    · exact held_command hname hids hc hq hentry hnow
  constructor
  · intro before e after hlog he hafter hnow
    have hnow' : w.server.now < e.time + (o e.thread).timeout := hsame ▸ hnow
    rcases RedisWorld.issue_log hlog with ⟨-, rfl, -⟩ | ⟨after', rfl, hold⟩
    · -- The new event is the successful `SET` itself.
      rcases hexec with ⟨rfl, -⟩ | ⟨page, q, rfl, hq⟩
      · rw [RedisEvent.not_granted_of_none] at he
        cases he
      · rcases hc with heq | heq | heq
        · obtain rfl : c = (o u).setCommand := by simpa using heq
          rcases RedisServer.execute_setCommand hq with ⟨hr, -⟩ | ⟨-, rfl⟩
          · rcases q with x | _ | _
            · cases he
            · cases he
            · exact absurd rfl hr
          · exact RedisServer.put_entries_self
        · obtain rfl : c = (o u).unlockCommand := by simpa using heq
          cases he
        · cases heq
    · have hbefore : NotUnlocked e.thread after' :=
        fun f hf ↦ hafter f (List.mem_append_left _ hf)
      have hlast := hafter _ (List.mem_append_right _ (List.mem_singleton_self _))
      have hcase : u ≠ e.thread ∨
          (⟨u, w.server.now, c, executed⟩ : RedisEvent T).unlocks = false := by
        by_cases hut : u = e.thread
        · exact .inr (hlast hut)
        · exact .inl hut
      obtain rfl := (hother before e after' hold he hbefore hnow').2 hcase
      exact hholding before e after' hold he hbefore hnow'
  · intro before e during f after hlog he hduring htime hne
    have hlog' : (w.issue u c executed s').log = (before ++ e :: during) ++ f :: after := by
      simpa using hlog
    rcases RedisWorld.issue_log hlog' with ⟨hold, rfl, -⟩ | ⟨after', rfl, hold⟩
    · exact (hother before e during hold he hduring htime).1 hne
    · exact hexclusive before e during f after' (by simpa using hold) he hduring htime hne

theorem holding_reaches [DecidableEq T] (hname : ∀ t, (o t).resource = resource)
    (hids : Function.Injective fun t ↦ (o t).identifier) (calls : T → List LockCall)
    {s : RedisServer} {p : RedisPool T Unit}
    (h : Transition.Reaches
      (Pool.step RedisWorld.machine fun t ↦ (o t).session (calls t) false)
      Transition.Always (Pool.start ⟨s, []⟩) p) :
    Holding o p.world ∧ Exclusive o p.world := by
  have hstart : ∀ l : List (RedisEvent T), l ≠ [] → ([] : List (RedisEvent T)) ≠ l :=
    fun l hl ↦ hl.symm
  have hbody : ∀ t, ((o t).session (calls t) false).Within (o t).Uses fun _ _ ↦ True :=
    fun t ↦ (o t).session_within (calls t) false
  refine Pool.invariant_within (G := fun w ↦ Holding o w ∧ Exclusive o w) ?_ ?_ ?_ hbody h
  · constructor
    · intro before e after hlog
      exact absurd hlog (hstart _ (by simp))
    · intro before e during f after hlog
      exact absurd hlog (hstart _ (by simp))
  · intro t e choice w r w' he hI hperform
    refine ⟨trivial, ?_⟩
    cases e with
    | command c =>
        rcases RedisWorld.perform_command hperform with ⟨-, rfl⟩ | ⟨page, q, s', hq, rfl, -⟩
        · exact holding_step hname hids he (.inl ⟨rfl, rfl⟩) hI
        · exact holding_step hname hids he (.inr ⟨page, q, rfl, hq⟩) hI
    | clock => exact (RedisWorld.perform_clock hperform).2 ▸ hI
    | deadlinePassed => exact RedisWorld.perform_deadlinePassed hperform ▸ hI
  · intro choice w w' hI henv
    obtain ⟨ms, hms, rfl⟩ := RedisWorld.environment_tick henv
    refine ⟨fun before e after hlog he hafter hnow ↦ ?_, hI.2⟩
    have hearlier : w.server.now < e.time + (o e.thread).timeout := by
      have hlater : w.server.now + ms < e.time + (o e.thread).timeout := hnow
      linarith
    exact hI.1 before e after hlog he hafter hearlier

/-- After a successful `SET` of an object, until it sends the unlock script
or its timeout passes, the key holds its identifier, no other object
acquires it and no other object deletes it. -/
theorem lock_mutual_exclusion [DecidableEq T] (hname : ∀ t, (o t).resource = resource)
    (hids : Function.Injective fun t ↦ (o t).identifier) (calls : T → List LockCall)
    {s : RedisServer} {p : RedisPool T Unit}
    (h : Transition.Reaches
      (Pool.step RedisWorld.machine fun t ↦ (o t).session (calls t) false)
      Transition.Always (Pool.start ⟨s, []⟩) p)
    {before after : List (RedisEvent T)} {e : RedisEvent T}
    (hlog : p.world.log = before ++ e :: after) (he : e.granted = true) :
    (NotUnlocked e.thread after → p.world.server.now < e.time + (o e.thread).timeout →
      p.world.server.live (o e.thread).name =
        some ⟨.string (o e.thread).identifier, some (e.time + (o e.thread).timeout)⟩) ∧
    ∀ during f rest, after = during ++ f :: rest → NotUnlocked e.thread during →
      f.time < e.time + (o e.thread).timeout → f.thread ≠ e.thread →
      f.granted = false ∧ f.deleted = false := by
  obtain ⟨hholding, hexclusive⟩ := holding_reaches hname hids calls h
  constructor
  · intro hafter hnow
    have hentry := hholding before e after hlog he hafter hnow
    exact RedisServer.live_of_entry hentry rfl hnow
  · rintro during f rest rfl hduring htime hne
    exact hexclusive before e during f rest hlog he hduring htime hne

end MutualExclusion

section Sample

def sampleLock (t : Bool) : DistributedLock :=
  ⟨['r'], if t then ['a'] else ['b'], 5⟩

def sampleLockStep : RedisPool Bool Unit → Turn Bool RedisChoice → Option (RedisPool Bool Unit) :=
  Pool.step RedisWorld.machine fun t ↦ (sampleLock t).session [.acquire 2, .release] false

/-- The first object holds the key, and the second one has been refused. -/
def heldAndRefused (p : RedisPool Bool Unit) : Bool :=
  match p.world.log with
  | [e, f] => e.granted && !f.granted && !f.unlocks && p.world.server.now < e.time + 5
  | _ => false

theorem lock_mutual_exclusion_sample :
    ∃ (p : RedisPool Bool Unit) (e f : RedisEvent Bool), p.world.log = [e, f] ∧
      p.world.server.live (sampleLock e.thread).name =
        some ⟨.string (sampleLock e.thread).identifier, some (e.time + 5)⟩ := by
  have hrun : (Transition.run sampleLockStep (Pool.start RedisWorld.initial)
      [.begin true, .begin false, .act true (.reply (0, [])), .environment (.tick 3),
        .act false (.reply (0, []))]).any heldAndRefused = true := by
    decide +kernel
  obtain ⟨p, hp, hheld⟩ := (Option.any_eq_true _ _).mp hrun
  have hreach : Transition.Reaches sampleLockStep Transition.Always _ p :=
    Transition.reaches_of_run (fun _ _ _ ↦ trivial) hp
  have hids : Function.Injective fun t ↦ (sampleLock t).identifier := by
    intro t u htu
    cases t <;> cases u <;> simp_all [sampleLock]
  have hname : ∀ t, (sampleLock t).resource = ['r'] := fun _ ↦ rfl
  unfold heldAndRefused at hheld
  split at hheld
  · rename_i e f hlog
    simp only [Bool.and_eq_true, Bool.not_eq_true', decide_eq_true_eq] at hheld
    obtain ⟨⟨⟨he, -⟩, hf⟩, hnow⟩ := hheld
    have hafter : NotUnlocked e.thread [f] := by
      intro g hg _
      rwa [List.mem_singleton.mp hg]
    have hfirst : p.world.log = [] ++ e :: [f] := hlog
    have hmain := lock_mutual_exclusion hname hids _ hreach hfirst he
    exact ⟨p, e, f, hlog, hmain.1 hafter hnow⟩
  · cases hheld

end Sample

end DjangoNova
