import DjangoNova.Concurrency.Trace
import DjangoNova.Text.Str

/-!
# Single-attempt generation writes

`RedisGenerationWriter.write` sends one `SET` over a connection that it
borrows from the pool, or over the pinned one under its lock. The
environment has the replies that were not read yet, each with the number of
the write that it answers.
-/

namespace DjangoNova

open Program

/-- What a reply can be. -/
inductive SetReply where
  /-- `b"OK"` or `"OK"` -/
  | ok
  | nil
  | other
  deriving DecidableEq

structure GenerationWrite where
  key : Str
  token : Str
  onlyIfAbsent : Bool

/-- The calls of the transport; `C` is the type of the connections. -/
inductive TransportEffect (C : Type) where
  | acquireLock
  | getConnection (command : Option Str)
  | sendCommand (connection : C) (w : GenerationWrite)
  | readResponse (connection : C)
  | disconnect (connection : C)
  | releaseLock
  | release (connection : C)

/-- A response comes with the number of the write that it answers, which the
code cannot see. -/
abbrev TransportEffect.Reply {C : Type} : TransportEffect C → Type
  | .getConnection _ => C
  | .readResponse _ => ℕ × SetReply
  | .acquireLock | .sendCommand _ _ | .disconnect _ | .releaseLock | .release _ => Unit

/-- The pinned connection of the client, the signature of the pool, and the
exceptions: those that are an `Exception`, and `GenerationUnavailableError`. -/
structure RedisGenerationWriter (C X : Type) where
  pinned : Option C
  requiresCommand : Bool
  isException : X → Bool
  unavailable : X

namespace RedisGenerationWriter

variable {C X : Type}

abbrev Transport (C X α : Type) : Type :=
  Program (TransportEffect C) TransportEffect.Reply X α

abbrev Log (C X : Type) : Type := List (Event (TransportEffect C) TransportEffect.Reply X)

section Code

/-- Issue one call; an exception is raised. -/
abbrev ask (e : TransportEffect C) : Transport C X e.Reply := call e

variable (self : RedisGenerationWriter C X)

/-- The connection of a write. -/
def acquire : Transport C X C :=
  match self.pinned with
  | some connection => do
      ask .acquireLock
      return connection
  | none => ask (.getConnection (if self.requiresCommand then some "SET".toList else none))

/-- The `finally` clause. -/
def release (connection : C) : Transport C X Unit :=
  match self.pinned with
  | some _ => ask .releaseLock
  | none => ask (.release connection)

/-- The `try` clause. -/
def attempt (connection : C) (w : GenerationWrite) : Transport C X Bool := do
  ask (.sendCommand connection w)
  let (_, response) ← ask (.readResponse connection)
  if response = .ok then return true
  else if response = .nil ∧ w.onlyIfAbsent = true then return false
  else throw self.unavailable

/-- `with suppress(Exception): connection.disconnect()` -/
def discard (connection : C) : Transport C X Unit :=
  (ask (.disconnect connection)).tryCatch fun x ↦
    if self.isException x then pure () else throw x

def write (w : GenerationWrite) : Transport C X Bool := do
  let connection ← self.acquire
  ((self.attempt connection w).tryCatch fun x ↦ do
    self.discard connection
    throw x).tryFinally (self.release connection)

end Code

/-- The unread replies of each connection. -/
abbrev Unread (C : Type) : Type := C → List (ℕ × SetReply)

/-- What a call of the `n`-th write does to the connections. A command that
was sent will be answered, one whose sending failed may be; a read that
fails leaves the replies or some of them; disconnecting drops all, even if
it raises, and what was acquired can be released. -/
def Plays [DecidableEq C] (n : ℕ) (unread unread' : Unread C) :
    Event (TransportEffect C) TransportEffect.Reply X → Prop
  | ⟨.acquireLock, _⟩ | ⟨.getConnection _, _⟩ => unread' = unread
  | ⟨.sendCommand c _, .ok _⟩ =>
      ∃ r, unread' = Function.update unread c (unread c ++ [(n, r)])
  | ⟨.sendCommand c _, .error _⟩ =>
      unread' = unread ∨ ∃ r, unread' = Function.update unread c (unread c ++ [(n, r)])
  | ⟨.readResponse c, .ok reply⟩ =>
      ∃ rest, unread c = reply :: rest ∧ unread' = Function.update unread c rest
  | ⟨.readResponse c, .error _⟩ =>
      ∃ rest, rest <:+ unread c ∧ unread' = Function.update unread c rest
  | ⟨.disconnect c, _⟩ => unread' = Function.update unread c []
  | ⟨.releaseLock, reply⟩ | ⟨.release _, reply⟩ => reply = .ok () ∧ unread' = unread

/-- The events of a write, one after the other. -/
inductive PlaysAll [DecidableEq C] (n : ℕ) : Unread C → Log C X → Unread C → Prop
  | nil (unread : Unread C) : PlaysAll n unread [] unread
  | cons {unread unread' unread'' : Unread C}
      {e : Event (TransportEffect C) TransportEffect.Reply X} {log : Log C X}
      (he : Plays n unread unread' e) (hlog : PlaysAll n unread' log unread'') :
      PlaysAll n unread (e :: log) unread''

/-- A write that has ended, with what it did. -/
structure Written (C X : Type) where
  request : GenerationWrite
  log : Log C X
  outcome : Except X Bool

/-- The writes over one client, in sequence, on connections that have no
unread replies at first. -/
inductive Writes [DecidableEq C] (self : RedisGenerationWriter C X) :
    List (Written C X) → Unread C → Prop
  | nil : Writes self [] fun _ ↦ []
  | snoc {history : List (Written C X)} {unread unread' : Unread C} (h : Writes self history unread)
      (w : Written C X) (hyields : Yields (self.write w.request) w.log w.outcome)
      (hplays : PlaysAll history.length unread w.log unread') :
      Writes self (history ++ [w]) unread'

section Contract

/-- The connection, or else the lock, that an event has acquired. -/
def acquired : Event (TransportEffect C) TransportEffect.Reply X → Option (Option C)
  | ⟨.acquireLock, .ok _⟩ => some none
  | ⟨.getConnection _, .ok connection⟩ => some (some connection)
  | _ => none

def released : Event (TransportEffect C) TransportEffect.Reply X → Option (Option C)
  | ⟨.releaseLock, _⟩ => some none
  | ⟨.release connection, _⟩ => some (some connection)
  | _ => none

def sent : Event (TransportEffect C) TransportEffect.Reply X → Option GenerationWrite
  | ⟨.sendCommand _ w, _⟩ => some w
  | _ => none

variable (writer : RedisGenerationWriter C X) (n : ℕ) (w : Written C X)

/-- The exception with which an event ends the write. -/
def failure : Event (TransportEffect C) TransportEffect.Reply X → Option X
  | ⟨.acquireLock, .error x⟩ | ⟨.getConnection _, .error x⟩ => some x
  | ⟨.sendCommand _ _, .error x⟩ | ⟨.readResponse _, .error x⟩ => some x
  | ⟨.readResponse _, .ok (_, response)⟩ =>
      if response = .ok ∨ response = .nil ∧ w.request.onlyIfAbsent = true then none
      else some writer.unavailable
  | _ => none

/-- The exception of a failed cleanup. -/
def cleanupError : Event (TransportEffect C) TransportEffect.Reply X → Option X
  | ⟨.disconnect _, .error x⟩ => some x
  | _ => none

/-- What the `n`-th write of a sequence promises. -/
structure Contract : Prop where
  sends : (w.log.filterMap sent).length ≤ 1 ∧ ∀ request ∈ w.log.filterMap sent, request = w.request
  releases : w.log.filterMap released = w.log.filterMap acquired ∧
    (w.log.filterMap released).length ≤ 1
  acknowledged : w.outcome = .ok true → ∃ c, ⟨.readResponse c, .ok (n, .ok)⟩ ∈ w.log
  conflict : w.outcome = .ok false →
    w.request.onlyIfAbsent = true ∧ ∃ c, ⟨.readResponse c, .ok (n, .nil)⟩ ∈ w.log
  original : ∀ x ∈ w.log.filterMap (writer.failure w), w.outcome = .error x

/-- A failed cleanup raises an `Exception`, or the original exception again. -/
def QuietCleanup : Prop :=
  ∀ x ∈ w.log.filterMap cleanupError,
    writer.isException x = true ∨ x ∈ w.log.filterMap (writer.failure w)

/-- All writes keep their promise, and no connection has an unread reply. -/
def KeepsSync (history : List (Written C X)) (unread : Unread C) : Prop :=
  (∀ n w, history[n]? = some w → writer.Contract n w) ∧ ∀ c, unread c = []

end Contract

section Runs

variable {self : RedisGenerationWriter C X} {c : C} {w : GenerationWrite} {log : Log C X}
  {v : Except X Bool}

/-- The exception that is raised after the cleanup. -/
def raised (self : RedisGenerationWriter C X) (x : X) : Except X Unit → X
  | .ok _ => x
  | .error y => if self.isException y then x else y

/-- What the `try` statement can do, up to its `finally` clause. -/
inductive Attempted (self : RedisGenerationWriter C X) (c : C) (w : GenerationWrite) :
    Log C X → Except X Bool → Prop
  | unsent (x : X) (d : Except X Unit) : Attempted self c w
      [⟨.sendCommand c w, .error x⟩, ⟨.disconnect c, d⟩] (.error (self.raised x d))
  | unread (x : X) (d : Except X Unit) : Attempted self c w
      [⟨.sendCommand c w, .ok ()⟩, ⟨.readResponse c, .error x⟩, ⟨.disconnect c, d⟩]
      (.error (self.raised x d))
  | unexpected (m : ℕ) (response : SetReply) (d : Except X Unit)
      (h : ¬(response = .ok ∨ response = .nil ∧ w.onlyIfAbsent = true)) : Attempted self c w
      [⟨.sendCommand c w, .ok ()⟩, ⟨.readResponse c, .ok (m, response)⟩, ⟨.disconnect c, d⟩]
      (.error (self.raised self.unavailable d))
  | acknowledged (m : ℕ) : Attempted self c w
      [⟨.sendCommand c w, .ok ()⟩, ⟨.readResponse c, .ok (m, .ok)⟩] (.ok true)
  | conflict (m : ℕ) (h : w.onlyIfAbsent = true) : Attempted self c w
      [⟨.sendCommand c w, .ok ()⟩, ⟨.readResponse c, .ok (m, .nil)⟩] (.ok false)

theorem discard_yields {x : X} (h : Yields (do self.discard c; throw x) log v) :
    ∃ d, log = [⟨.disconnect c, d⟩] ∧ v = .error (self.raised x d) := by
  obtain ⟨d, rest, rfl, hd⟩ := yields_step_iff.mp h
  refine ⟨d, ?_⟩
  cases d with
  | ok u =>
      obtain ⟨rfl, rfl⟩ := yields_done_iff.mp hd
      exact ⟨rfl, rfl⟩
  | error y =>
      by_cases hy : self.isException y = true
      · have hthrow : Yields (throw x : Transport C X Bool) rest v := by
          simpa [andThen, hy, pure] using hd
        obtain ⟨rfl, rfl⟩ := yields_done_iff.mp hthrow
        exact ⟨rfl, by simp [raised, hy]⟩
      · have hthrow : Yields (throw y : Transport C X Bool) rest v := by
          simpa [andThen, hy, Program.throw] using hd
        obtain ⟨rfl, rfl⟩ := yields_done_iff.mp hthrow
        exact ⟨rfl, by simp [raised, hy]⟩

theorem attempted_of_yields
    (h : Yields ((self.attempt c w).tryCatch fun x ↦ do self.discard c; throw x) log v) :
    Attempted self c w log v := by
  obtain ⟨sending, rest, rfl, hsend⟩ := yields_step_iff.mp h
  cases sending with
  | error x =>
      obtain ⟨d, rfl, rfl⟩ := discard_yields hsend
      exact .unsent x d
  | ok u =>
      obtain ⟨reading, rest, rfl, hread⟩ := yields_step_iff.mp hsend
      cases reading with
      | error x =>
          obtain ⟨d, rfl, rfl⟩ := discard_yields hread
          exact .unread x d
      | ok reply =>
          obtain ⟨m, response⟩ := reply
          cases response with
          | ok =>
              obtain ⟨rfl, rfl⟩ := yields_done_iff.mp hread
              exact .acknowledged m
          | other =>
              obtain ⟨d, rfl, rfl⟩ := discard_yields hread
              exact .unexpected m .other d (by simp)
          | nil =>
              obtain ⟨key, token, onlyIfAbsent⟩ := w
              cases onlyIfAbsent with
              | false =>
                  obtain ⟨d, rfl, rfl⟩ := discard_yields hread
                  exact .unexpected m .nil d (by simp)
              | true =>
                  obtain ⟨rfl, rfl⟩ := yields_done_iff.mp hread
                  exact .conflict m rfl

/-- The call that acquires the connection, and the one that releases it. -/
inductive Borrowed (self : RedisGenerationWriter C X) (c : C) :
    Event (TransportEffect C) TransportEffect.Reply X → (Except X Unit →
      Event (TransportEffect C) TransportEffect.Reply X) → Prop
  | pinned (h : self.pinned = some c) :
      Borrowed self c ⟨.acquireLock, .ok ()⟩ fun r ↦ ⟨.releaseLock, r⟩
  | pooled (h : self.pinned = none) (command : Option Str) :
      Borrowed self c ⟨.getConnection command, .ok c⟩ fun r ↦ ⟨.release c, r⟩

/-- The outcome of the `try` statement after its `finally` clause. -/
def finished (u : Except X Bool) : Except X Unit → Except X Bool
  | .ok _ => u
  | .error x => .error x

theorem attempted_finally {last : Except X Unit → Event (TransportEffect C) TransportEffect.Reply X}
    (hlast : ∀ log v, Yields (self.release c) log v → log = [last v])
    (h : Yields (((self.attempt c w).tryCatch fun x ↦ do self.discard c; throw x).tryFinally
      (self.release c)) log v) :
    ∃ attempt r u, Attempted self c w attempt u ∧ log = attempt ++ [last r] ∧ v = finished u r := by
  obtain ⟨attempt, rest, u, rfl, hattempt, hrelease⟩ := yields_andThen_iff.mp h
  rcases Yields.bind hrelease with ⟨tr₁, tr₂, a, rfl, hrel, hdone⟩ | ⟨x, hrel, rfl⟩
  · obtain ⟨rfl, rfl⟩ := yields_done_iff.mp hdone
    refine ⟨attempt, .ok a, u, attempted_of_yields hattempt, ?_, rfl⟩
    rw [hlast _ _ hrel, List.append_nil]
  · exact ⟨attempt, .error x, u, attempted_of_yields hattempt, by rw [hlast _ _ hrel], rfl⟩

/-- A write acquires nothing, or it attempts the `SET` between an
acquisition and a release. -/
theorem write_cases (h : Yields (self.write w) log v) :
    (∃ x, v = .error x ∧
        (log = [⟨.acquireLock, .error x⟩] ∨
          ∃ command, log = [⟨.getConnection command, .error x⟩])) ∨
      ∃ c first last attempt r u, Borrowed self c first last ∧ Attempted self c w attempt u ∧
        log = first :: (attempt ++ [last r]) ∧ v = finished u r := by
  unfold write acquire at h
  cases hpinned : self.pinned with
  | some c =>
      have hlast : ∀ log v, Yields (self.release c) log v → log = [⟨.releaseLock, v⟩] := by
        intro log v hrelease
        rw [release, hpinned] at hrelease
        exact hrelease.call
      rw [hpinned] at h
      obtain ⟨reply, rest, rfl, hrest⟩ := yields_step_iff.mp h
      cases reply with
      | error x =>
          obtain ⟨rfl, rfl⟩ := yields_done_iff.mp hrest
          exact .inl ⟨x, rfl, .inl rfl⟩
      | ok u =>
          obtain ⟨attempt, r, u, hattempt, rfl, rfl⟩ := attempted_finally hlast hrest
          exact .inr ⟨c, _, _, attempt, r, u, .pinned hpinned, hattempt, rfl, rfl⟩
  | none =>
      have hlast : ∀ c log v, Yields (self.release c) log v → log = [⟨.release c, v⟩] := by
        intro c log v hrelease
        rw [release, hpinned] at hrelease
        exact hrelease.call
      rw [hpinned] at h
      obtain ⟨reply, rest, rfl, hrest⟩ := yields_step_iff.mp h
      cases reply with
      | error x =>
          obtain ⟨rfl, rfl⟩ := yields_done_iff.mp hrest
          exact .inl ⟨x, rfl, .inr ⟨_, rfl⟩⟩
      | ok c =>
          obtain ⟨attempt, r, u, hattempt, rfl, rfl⟩ := attempted_finally (hlast c) hrest
          exact .inr ⟨c, _, _, attempt, r, u, .pooled hpinned _, hattempt, rfl, rfl⟩

end Runs

section Environment

variable [DecidableEq C] {self : RedisGenerationWriter C X} {c : C} {n : ℕ} {w : GenerationWrite}
  {log log' : Log C X} {u : Except X Bool} {unread unread' : Unread C}

theorem playsAll_append (h : PlaysAll n unread (log ++ log') unread') :
    ∃ between, PlaysAll n unread log between ∧ PlaysAll n between log' unread' := by
  induction log generalizing unread with
  | nil => exact ⟨unread, .nil unread, h⟩
  | cons e log ih =>
      cases h with
      | cons he hlog =>
          obtain ⟨between, hfirst, hsecond⟩ := ih hlog
          exact ⟨between, .cons he hfirst, hsecond⟩

/-- At most the reply to the `n`-th write is unread. -/
def Pending (n : ℕ) (c : C) (unread : Unread C) : Prop :=
  ∃ replies, unread = Function.update (fun _ ↦ []) c replies ∧ replies.length ≤ 1 ∧
    ∀ reply ∈ replies, reply.1 = n

theorem pending_clear (n : ℕ) (c : C) : Pending n c fun _ ↦ [] :=
  ⟨[], (Function.update_eq_self c _).symm, by simp, by simp⟩

theorem pending_send {reply : Except X Unit}
    (h : Plays n (fun _ ↦ []) unread' ⟨.sendCommand c w, reply⟩) : Pending n c unread' := by
  have hanswer : ∀ r, Pending n c (Function.update (fun _ ↦ []) c [(n, r)]) := fun r ↦
    ⟨[(n, r)], rfl, by simp, by simp⟩
  cases reply with
  | ok _ =>
      obtain ⟨r, rfl⟩ := h
      exact hanswer r
  | error _ =>
      rcases h with rfl | ⟨r, rfl⟩
      · exact pending_clear n c
      · exact hanswer r

theorem Pending.read_error {x : X} (hp : Pending n c unread)
    (h : Plays n unread unread' ⟨.readResponse c, .error x⟩) : Pending n c unread' := by
  obtain ⟨replies, rfl, hlength, hown⟩ := hp
  obtain ⟨rest, hrest, rfl⟩ := h
  rw [Function.update_self] at hrest
  refine ⟨rest, Function.update_idem _ _ _, hrest.length_le.trans hlength, fun reply hreply ↦ ?_⟩
  exact hown reply (hrest.subset hreply)

/-- The reply that is read is the only one. -/
theorem Pending.read {m : ℕ} {response : SetReply} (hp : Pending n c unread)
    (h : Plays (X := X) n unread unread' ⟨.readResponse c, .ok (m, response)⟩) :
    m = n ∧ unread' = fun _ ↦ [] := by
  obtain ⟨replies, rfl, hlength, hown⟩ := hp
  obtain ⟨rest, hrest, rfl⟩ := h
  rw [Function.update_self] at hrest
  subst hrest
  obtain rfl : rest = [] := by
    rw [List.length_cons] at hlength
    exact List.length_eq_zero_iff.mp (by omega)
  refine ⟨hown (m, response) List.mem_cons_self, ?_⟩
  rw [Function.update_idem]
  exact Function.update_eq_self c _

theorem Pending.disconnect {d : Except X Unit} (hp : Pending n c unread)
    (h : Plays n unread unread' ⟨.disconnect c, d⟩) : unread' = fun _ ↦ [] := by
  obtain ⟨replies, rfl, -⟩ := hp
  obtain rfl : unread' = Function.update (Function.update (fun _ ↦ []) c replies) c [] := h
  rw [Function.update_idem]
  exact Function.update_eq_self c _

/-- An attempt on connections without unread replies leaves none, and reads
no reply but its own. -/
theorem Attempted.plays (h : Attempted self c w log u)
    (hplays : PlaysAll n (fun _ ↦ []) log unread') :
    unread' = (fun _ ↦ []) ∧ ∀ m response, ⟨.readResponse c, .ok (m, response)⟩ ∈ log → m = n := by
  cases h with
  | unsent x d =>
      obtain _ | ⟨hsend, _ | ⟨hdisconnect, ⟨⟩⟩⟩ := hplays
      exact ⟨(pending_send hsend).disconnect hdisconnect, by simp⟩
  | unread x d =>
      obtain _ | ⟨hsend, _ | ⟨hread, _ | ⟨hdisconnect, ⟨⟩⟩⟩⟩ := hplays
      exact ⟨((pending_send hsend).read_error hread).disconnect hdisconnect, by simp⟩
  | unexpected m response d h =>
      obtain _ | ⟨hsend, _ | ⟨hread, _ | ⟨hdisconnect, ⟨⟩⟩⟩⟩ := hplays
      obtain ⟨rfl, rfl⟩ := (pending_send hsend).read hread
      exact ⟨(pending_clear m c).disconnect hdisconnect, by simp⟩
  | acknowledged m =>
      obtain _ | ⟨hsend, _ | ⟨hread, ⟨⟩⟩⟩ := hplays
      obtain ⟨rfl, rfl⟩ := (pending_send hsend).read hread
      exact ⟨rfl, by simp⟩
  | conflict m h =>
      obtain _ | ⟨hsend, _ | ⟨hread, ⟨⟩⟩⟩ := hplays
      obtain ⟨rfl, rfl⟩ := (pending_send hsend).read hread
      exact ⟨rfl, by simp⟩

theorem Borrowed.acquire {first : Event (TransportEffect C) TransportEffect.Reply X}
    {last : Except X Unit → Event (TransportEffect C) TransportEffect.Reply X}
    (h : Borrowed self c first last) (hplays : Plays n unread unread' first) :
    unread' = unread := by
  cases h with
  | pinned h => exact hplays
  | pooled h command => exact hplays

theorem Borrowed.release {first : Event (TransportEffect C) TransportEffect.Reply X}
    {last : Except X Unit → Event (TransportEffect C) TransportEffect.Reply X} {r : Except X Unit}
    (h : Borrowed self c first last) (hplays : Plays n unread unread' (last r)) :
    r = .ok () ∧ unread' = unread := by
  cases h with
  | pinned h => exact hplays
  | pooled h command => exact hplays

end Environment

section Promise

variable {self : RedisGenerationWriter C X} {c : C} {w : Written C X} {log attempt : Log C X}
  {u : Except X Bool} {first : Event (TransportEffect C) TransportEffect.Reply X}
  {last : Except X Unit → Event (TransportEffect C) TransportEffect.Reply X} {r : Except X Unit}

/-- What is released is what was acquired. -/
theorem Borrowed.releases (h : Borrowed self c first last) (r : Except X Unit) :
    (∃ what, acquired first = some what ∧ released (last r) = some what) ∧
      released first = none ∧ acquired (last r) = none := by
  cases h with
  | pinned h => exact ⟨⟨none, rfl, rfl⟩, rfl, rfl⟩
  | pooled h command => exact ⟨⟨some c, rfl, rfl⟩, rfl, rfl⟩

/-- Nothing is sent outside of the attempt, and nothing fails there. -/
theorem Borrowed.silent (h : Borrowed self c first last) (w : Written C X) (r : Except X Unit) :
    (sent first = none ∧ sent (last r) = none) ∧
      (self.failure w first = none ∧ self.failure w (last r) = none) ∧
        cleanupError first = none ∧ cleanupError (last r) = none := by
  cases h with
  | pinned h => exact ⟨⟨rfl, rfl⟩, ⟨rfl, rfl⟩, rfl, rfl⟩
  | pooled h command => exact ⟨⟨rfl, rfl⟩, ⟨rfl, rfl⟩, rfl, rfl⟩

theorem Attempted.sends (h : Attempted self c w.request attempt u) :
    attempt.filterMap sent = [w.request] ∧ attempt.filterMap acquired = [] ∧
      attempt.filterMap released = [] := by
  cases h <;> exact ⟨rfl, rfl, rfl⟩

/-- The original exception is raised unless the cleanup replaces it. -/
theorem raised_eq_iff {x : X} {d : Except X Unit} (honly : log.filterMap (self.failure w) = [x])
    (hcleanup : log.filterMap cleanupError = [(⟨.disconnect c, d⟩ :
      Event (TransportEffect C) TransportEffect.Reply X)].filterMap cleanupError) :
    (∀ y ∈ log.filterMap (self.failure w), (.error (self.raised x d) : Except X Bool) = .error y) ↔
      ∀ y ∈ log.filterMap cleanupError,
        self.isException y = true ∨ y ∈ log.filterMap (self.failure w) := by
  rw [honly, hcleanup]
  cases d with
  | ok a => simp [raised, cleanupError]
  | error y =>
      by_cases hy : self.isException y = true
      · simp [raised, cleanupError, hy]
      · simp [raised, cleanupError, hy]

theorem Attempted.original (h : Attempted self c w.request attempt u) :
    (∀ x ∈ attempt.filterMap (self.failure w), u = .error x) ↔
      ∀ x ∈ attempt.filterMap cleanupError,
        self.isException x = true ∨ x ∈ attempt.filterMap (self.failure w) := by
  cases h with
  | unsent x d => exact raised_eq_iff (c := c) (d := d) rfl rfl
  | unread x d => exact raised_eq_iff (c := c) (d := d) rfl rfl
  | unexpected m response d hunexpected =>
      have hfailure : self.failure w ⟨.readResponse c, .ok (m, response)⟩ = some self.unavailable :=
        if_neg hunexpected
      refine raised_eq_iff (c := c) (d := d) ?_ rfl
      rw [List.filterMap_cons_none rfl, List.filterMap_cons_some hfailure]
      rfl
  | acknowledged m => simp [failure, cleanupError]
  | conflict m hnx => simp [failure, cleanupError, hnx]

variable [DecidableEq C] {n : ℕ} {unread' : Unread C}

/-- One write on connections without unread replies. -/
theorem write_contract (hyields : Yields (self.write w.request) w.log w.outcome)
    (hplays : PlaysAll n (fun _ ↦ []) w.log unread') :
    unread' = (fun _ ↦ []) ∧ (self.Contract n w ↔ self.QuietCleanup w) := by
  rcases write_cases hyields with ⟨x, houtcome, hlog⟩ |
    ⟨c, first, last, attempt, r, u, hborrowed, hattempt, hlog, houtcome⟩
  · have hnothing : unread' = (fun _ ↦ []) ∧ w.log.filterMap sent = [] ∧
        w.log.filterMap released = [] ∧ w.log.filterMap acquired = [] ∧
          w.log.filterMap (self.failure w) = [x] ∧ w.log.filterMap cleanupError = [] := by
      rcases hlog with hlog | ⟨command, hlog⟩
      · rw [hlog] at hplays ⊢
        obtain _ | ⟨hacquire, ⟨⟩⟩ := hplays
        exact ⟨hacquire, rfl, rfl, rfl, rfl, rfl⟩
      · rw [hlog] at hplays ⊢
        obtain _ | ⟨hacquire, ⟨⟩⟩ := hplays
        exact ⟨hacquire, rfl, rfl, rfl, rfl, rfl⟩
    obtain ⟨hunread, hsent, hreleased, hacquired, hfailure, hcleanup⟩ := hnothing
    refine ⟨hunread, iff_of_true ⟨?_, ?_, ?_, ?_, ?_⟩ ?_⟩
    · simp [hsent]
    · simp [hreleased, hacquired]
    · simp [houtcome]
    · simp [houtcome]
    · simp [hfailure, houtcome]
    · simp [QuietCleanup, hcleanup]
  · rw [hlog] at hplays
    obtain _ | ⟨hacquire, hrest⟩ := hplays
    obtain rfl := hborrowed.acquire hacquire
    obtain ⟨between, htry, hfinally⟩ := playsAll_append hrest
    obtain ⟨rfl, hown⟩ := hattempt.plays htry
    obtain _ | ⟨hrelease, ⟨⟩⟩ := hfinally
    obtain ⟨rfl, rfl⟩ := hborrowed.release hrelease
    obtain ⟨⟨what, hacquired, hreleased⟩, hfirst, hlast⟩ := hborrowed.releases (.ok ())
    obtain ⟨hsilent, hfailure, hcleanup⟩ := hborrowed.silent w (.ok ())
    obtain ⟨hsends, hacquires, hreleases⟩ := hattempt.sends
    have hmem : ∀ e ∈ attempt, e ∈ w.log := fun e he ↦
      hlog ▸ List.mem_cons_of_mem _ (List.mem_append_left _ he)
    have houtcome : w.outcome = u := houtcome
    have horiginal : (∀ x ∈ w.log.filterMap (self.failure w), w.outcome = .error x) ↔
        self.QuietCleanup w := by
      have hall := hattempt.original
      rw [QuietCleanup, houtcome, hlog]
      simpa [List.filterMap_cons_none hfailure.1, List.filterMap_cons_none hcleanup.1, hfailure.2,
        hcleanup.2] using hall
    refine ⟨rfl, fun h ↦ horiginal.mp h.original, fun h ↦ ⟨?_, ?_, ?_, ?_, horiginal.mpr h⟩⟩
    · have hone : w.log.filterMap sent = [w.request] := by
        rw [hlog]
        simp [List.filterMap_cons_none hsilent.1, hsilent.2, hsends]
      simp [hone]
    · have hwhat : w.log.filterMap released = [what] ∧ w.log.filterMap acquired = [what] := by
        rw [hlog]
        simp [List.filterMap_cons_none hfirst, List.filterMap_cons_some hacquired, hlast, hreleased,
          hacquires, hreleases]
      simp [hwhat.1, hwhat.2]
    · intro htrue
      rw [houtcome] at htrue
      subst htrue
      cases hattempt with
      | acknowledged m =>
          obtain rfl := hown m .ok (by simp)
          exact ⟨c, hmem _ (by simp)⟩
    · intro hfalse
      rw [houtcome] at hfalse
      subst hfalse
      cases hattempt with
      | conflict m hnx =>
          obtain rfl := hown m .nil (by simp)
          exact ⟨hnx, c, hmem _ (by simp)⟩

variable {history : List (Written C X)} {unread : Unread C}

/-- In every sequence of writes, all of them keep their promise and leave no
unread reply, if and only if no cleanup replaces an exception. -/
theorem generation_writer (h : Writes self history unread) :
    self.KeepsSync history unread ↔ ∀ w ∈ history, self.QuietCleanup w := by
  have hall : unread = (fun _ ↦ []) ∧
      ∀ n w, history[n]? = some w → (self.Contract n w ↔ self.QuietCleanup w) := by
    induction h with
    | nil => exact ⟨rfl, by simp⟩
    | @snoc history unread unread' h w hyields hplays ih =>
        obtain ⟨rfl, hhistory⟩ := ih
        obtain ⟨hunread, hcontract⟩ := write_contract hyields hplays
        refine ⟨hunread, fun n w' hw' ↦ ?_⟩
        rcases Nat.lt_trichotomy n history.length with hn | rfl | hn
        · rw [List.getElem?_append_left hn] at hw'
          exact hhistory n w' hw'
        · rw [List.getElem?_concat_length] at hw'
          exact Option.some.inj hw' ▸ hcontract
        · rw [List.getElem?_eq_none (by simp; omega)] at hw'
          cases hw'
  obtain ⟨rfl, hcontract⟩ := hall
  constructor
  · rintro ⟨hkept, -⟩ w hw
    obtain ⟨n, hn⟩ := List.getElem?_of_mem hw
    exact (hcontract n w hn).mp (hkept n w hn)
  · exact fun hquiet ↦ ⟨fun n w hw ↦ (hcontract n w hw).mpr (hquiet w (List.mem_of_getElem? hw)),
      fun _ ↦ rfl⟩

end Promise

section Sample

inductive TransportException where
  | osError
  | keyboardInterrupt
  | generationUnavailableError
  deriving DecidableEq

/-- A pool without a command argument. -/
def pooledWriter : RedisGenerationWriter Unit TransportException :=
  ⟨none, false, (· ≠ .keyboardInterrupt), .generationUnavailableError⟩

/-- A conditional write that finds the key, and a write whose reply is lost. -/
def lostReply (cleanup : Except TransportException Unit) (outcome : TransportException) :
    List (Written Unit TransportException) :=
  [⟨⟨['k'], ['t'], true⟩,
      [⟨.getConnection none, .ok ()⟩, ⟨.sendCommand () ⟨['k'], ['t'], true⟩, .ok ()⟩,
        ⟨.readResponse (), .ok (0, .nil)⟩, ⟨.release (), .ok ()⟩], .ok false⟩,
    ⟨⟨['k'], ['t'], false⟩,
      [⟨.getConnection none, .ok ()⟩, ⟨.sendCommand () ⟨['k'], ['t'], false⟩, .ok ()⟩,
        ⟨.readResponse (), .error .osError⟩, ⟨.disconnect (), cleanup⟩, ⟨.release (), .ok ()⟩],
      .error outcome⟩]

theorem writes_lostReply {cleanup : Except TransportException Unit} {outcome : TransportException}
    (hyields : Yields (pooledWriter.write ⟨['k'], ['t'], false⟩)
      [⟨.getConnection none, .ok ()⟩, ⟨.sendCommand () ⟨['k'], ['t'], false⟩, .ok ()⟩,
        ⟨.readResponse (), .error .osError⟩, ⟨.disconnect (), cleanup⟩, ⟨.release (), .ok ()⟩]
      (.error outcome)) :
    Writes pooledWriter (lostReply cleanup outcome) fun _ ↦ [] := by
  have hclear : ∀ unread : Unread Unit, Function.update unread () [] = fun _ ↦ [] :=
    fun unread ↦ funext fun _ ↦ rfl
  have hfirst : Yields (pooledWriter.write ⟨['k'], ['t'], true⟩)
      [⟨.getConnection none, .ok ()⟩, ⟨.sendCommand () ⟨['k'], ['t'], true⟩, .ok ()⟩,
        ⟨.readResponse (), .ok (0, .nil)⟩, ⟨.release (), .ok ()⟩] (.ok false) :=
    .step (.step (.step (.step (.refl _))))
  have hstart : Writes pooledWriter [⟨⟨['k'], ['t'], true⟩,
      [⟨.getConnection none, .ok ()⟩, ⟨.sendCommand () ⟨['k'], ['t'], true⟩, .ok ()⟩,
        ⟨.readResponse (), .ok (0, .nil)⟩, ⟨.release (), .ok ()⟩], .ok false⟩] fun _ ↦ [] := by
    refine Writes.nil.snoc ⟨⟨['k'], ['t'], true⟩, _, .ok false⟩ hfirst ?_
    refine .cons rfl (.cons ⟨.nil, rfl⟩ (.cons ⟨[], rfl, rfl⟩ (.cons ⟨rfl, rfl⟩ ?_)))
    rw [hclear]
    exact .nil _
  refine hstart.snoc ⟨⟨['k'], ['t'], false⟩, _, .error outcome⟩ hyields ?_
  refine .cons rfl (.cons ⟨.ok, rfl⟩ (.cons ⟨_, List.suffix_rfl, rfl⟩ (.cons rfl ?_)))
  refine .cons ⟨rfl, rfl⟩ ?_
  rw [hclear]
  exact .nil _

theorem generation_writer_sample :
    pooledWriter.KeepsSync (lostReply (.ok ()) .osError) fun _ ↦ [] := by
  have hwrites : Writes pooledWriter (lostReply (.ok ()) .osError) fun _ ↦ [] :=
    writes_lostReply (.step (.step (.step (.step (.step (.refl _))))))
  refine (generation_writer hwrites).mpr fun w hw ↦ ?_
  simp only [lostReply, List.mem_cons, List.not_mem_nil, or_false] at hw
  rcases hw with rfl | rfl <;> simp [QuietCleanup, cleanupError]

/-- An interruption of the cleanup replaces the original exception. -/
theorem generation_writer_fails :
    ∃ history unread,
      Writes pooledWriter history unread ∧ ¬pooledWriter.KeepsSync history unread := by
  refine ⟨lostReply (.error .keyboardInterrupt) .keyboardInterrupt, fun _ ↦ [],
    writes_lostReply (.step (.step (.step (.step (.step (.refl _)))))), fun h ↦ ?_⟩
  have hraised := (h.1 1 _ rfl).original .osError (by decide)
  cases hraised

end Sample

end RedisGenerationWriter

end DjangoNova
