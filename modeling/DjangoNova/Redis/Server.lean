import Mathlib.Algebra.Order.Ring.Rat
import DjangoNova.Concurrency.Pool
import DjangoNova.Redis.Glob

/-!
# A Redis server and its clients

The server executes one command at a time on a keyspace whose entries can
have a deadline. A client command is a round trip: it may fail before the
server executed it, or after. The log lists the issued commands with the
server time and, for executed ones, the reply of the server. All clocks
are synchronized with the one of the server.
-/

namespace DjangoNova

/-- The exceptions of a client: an error reply, a lost connection, the
errors of the library, and any other exception. -/
inductive RedisError where
  | response
  | connection
  | novaCache
  | novaRateLimit (limit windowSecs : ℤ)
  | other
  deriving DecidableEq

inductive RedisValue where
  | string (s : Str)
  | sortedSet (members : List (Str × ℚ))

structure RedisEntry where
  value : RedisValue
  deadline : Option ℚ

/-- The keyspace and the clock of the server, in milliseconds. -/
structure RedisServer where
  now : ℚ
  entries : Str → Option RedisEntry

inductive RedisCommand where
  | get (key : Str)
  | mget (keys : List Str)
  /-- `SET key value [NX] [PX px]` -/
  | set (key value : Str) (onlyIfAbsent : Bool) (px : Option ℤ)
  | delete (keys : List Str)
  /-- `SCAN cursor MATCH pattern` -/
  | scan (cursor : ℕ) (pattern : Str)
  /-- `EVAL UNLOCK_SCRIPT` -/
  | unlock (key identifier : Str)
  /-- `EVAL _SLIDING_WINDOW_LUA` -/
  | slidingWindow (key : Str) (window limit : ℤ) (now : ℚ) (requestId : Str)
  deriving DecidableEq

abbrev RedisCommand.Reply : RedisCommand → Type
  | .get _ => Option Str
  | .mget _ => List (Option Str)
  | .set _ _ _ _ | .slidingWindow _ _ _ _ _ => Bool
  | .delete _ | .unlock _ _ => ℕ
  | .scan _ _ => ℕ × List Str

namespace RedisServer

variable (s : RedisServer)

/-- The entry of a key, unless it has expired. -/
def live (key : Str) : Option RedisEntry :=
  (s.entries key).filter fun e ↦ e.deadline.all (s.now < ·)

def put (key : Str) (e : RedisEntry) : RedisServer :=
  { s with entries := Function.update s.entries key (some e) }

def remove (keys : List Str) : RedisServer :=
  { s with entries := fun key ↦ if key ∈ keys then none else s.entries key }

/-- `ZREMRANGEBYSCORE key 0 (now - window)` on the members. -/
def prune (members : List (Str × ℚ)) (bound : ℚ) : List (Str × ℚ) :=
  members.filter fun m ↦ !(decide (0 ≤ m.2) && decide (m.2 ≤ bound))

/-- The script of the rate limiter on the members of its key. -/
def slideWindow (key : Str) (members : List (Str × ℚ)) (deadline : Option ℚ) (window limit : ℤ)
    (now : ℚ) (requestId : Str) : Bool × RedisServer :=
  let kept := prune members (now - window)
  if (kept.length : ℤ) < limit then
    let added := (requestId, now) :: kept.filter fun m ↦ m.1 ≠ requestId
    -- `EXPIRE` with a time that is not positive deletes the key.
    if window ≤ 0 then (true, s.remove [key])
    else (true, s.put key ⟨.sortedSet added, some (s.now + 1000 * window)⟩)
  else if kept = [] then (false, s.remove [key])
  else (false, s.put key ⟨.sortedSet kept, deadline⟩)

/-- Execute a command. `page` is what a scan returns: the next cursor and
some of the matching keys. -/
def execute (page : ℕ × List Str) : (c : RedisCommand) →
    Option (Except RedisError c.Reply × RedisServer)
  | .get key =>
      match s.live key with
      | none => some (.ok none, s)
      | some ⟨.string v, _⟩ => some (.ok (some v), s)
      | some ⟨.sortedSet _, _⟩ => some (.error .response, s)
  | .mget keys =>
      some (.ok (keys.map fun key ↦
        match s.live key with
        | some ⟨.string v, _⟩ => some v
        | _ => none), s)
  | .set key value onlyIfAbsent px =>
      if px.any (· ≤ 0) then some (.error .response, s)
      else if onlyIfAbsent && (s.live key).isSome then some (.ok false, s)
      else some (.ok true, s.put key ⟨.string value, px.map fun ms ↦ s.now + ms⟩)
  | .delete keys =>
      some (.ok (keys.dedup.filter fun key ↦ (s.live key).isSome).length, s.remove keys)
  | .scan _ pattern =>
      if page.2.all fun key ↦ (s.live key).isSome && Glob.globMatch pattern key then
        some (.ok page, s)
      else none
  | .unlock key identifier =>
      match s.live key with
      | some ⟨.string v, _⟩ =>
          if v = identifier then some (.ok 1, s.remove [key]) else some (.ok 0, s)
      | some ⟨.sortedSet _, _⟩ => some (.error .response, s)
      | none => some (.ok 0, s)
  | .slidingWindow key window limit now requestId =>
      match s.live key with
      | none =>
          let (allowed, s') := s.slideWindow key [] none window limit now requestId
          some (.ok allowed, s')
      | some ⟨.sortedSet members, deadline⟩ =>
          let (allowed, s') := s.slideWindow key members deadline window limit now requestId
          some (.ok allowed, s')
      | some ⟨.string _, _⟩ => some (.error .response, s)

end RedisServer

/-- The keys that an executed command reads or writes; a scan reads the
keys that it returns. -/
def RedisCommand.touches : (c : RedisCommand) → Except RedisError c.Reply → List Str
  | .get key, _ | .set key _ _ _, _ | .unlock key _, _ | .slidingWindow key _ _ _ _, _ => [key]
  | .mget keys, _ | .delete keys, _ => keys
  | .scan _ _, .ok (_, keys) => keys
  | .scan _ _, .error _ => []

namespace RedisServer

variable {s s' : RedisServer} {key key' : Str}

@[simp] theorem put_entries_ne {e : RedisEntry} (h : key' ≠ key) :
    (s.put key e).entries key' = s.entries key' := Function.update_of_ne h _ _

@[simp] theorem put_entries_self {e : RedisEntry} : (s.put key e).entries key = some e :=
  Function.update_self _ _ _

@[simp] theorem remove_entries_of_not_mem {keys : List Str} (h : key' ∉ keys) :
    (s.remove keys).entries key' = s.entries key' := if_neg h

theorem live_of_entry {e : RedisEntry} {deadline : ℚ} (h : s.entries key = some e)
    (hdeadline : e.deadline = some deadline) (hnow : s.now < deadline) : s.live key = some e := by
  simp [live, h, hdeadline, hnow]

/-- Time only makes keys expire. -/
theorem live_earlier {now : ℚ} (hnow : s.now ≤ now) {e : RedisEntry}
    (he : ({ s with now := now } : RedisServer).live key = some e) : s.live key = some e := by
  obtain ⟨hentry, hdeadline⟩ := Option.filter_eq_some_iff.mp he
  refine Option.filter_eq_some_iff.mpr ⟨hentry, ?_⟩
  cases hd : e.deadline with
  | none => rfl
  | some deadline =>
      simp only [hd, Option.all_some, decide_eq_true_eq] at hdeadline ⊢
      exact hnow.trans_lt hdeadline

theorem slideWindow_shape (key : Str) (members : List (Str × ℚ)) (deadline : Option ℚ)
    (window limit : ℤ)
    (now : ℚ) (requestId : Str) :
    (s.slideWindow key members deadline window limit now requestId).2 = s.remove [key] ∨
      ∃ e, (s.slideWindow key members deadline window limit now requestId).2 = s.put key e := by
  unfold slideWindow
  dsimp only
  split
  · split
    · exact .inl rfl
    · exact .inr ⟨_, rfl⟩
  · split
    · exact .inl rfl
    · exact .inr ⟨_, rfl⟩

/-- A command leaves the server as it is, stores one of the keys that it
touches, or removes some of them. -/
theorem execute_shape {page : ℕ × List Str} {c : RedisCommand} {r : Except RedisError c.Reply}
    (h : s.execute page c = some (r, s')) :
    s' = s ∨ (∃ k ∈ c.touches r, ∃ e, s' = s.put k e) ∨
      ∃ ks, (∀ k ∈ ks, k ∈ c.touches r) ∧ s' = s.remove ks := by
  cases c with
  | get k =>
      simp only [execute] at h
      split at h <;> obtain ⟨-, rfl⟩ := Prod.mk.inj (Option.some.inj h) <;> exact .inl rfl
  | mget ks =>
      obtain ⟨-, rfl⟩ := Prod.mk.inj (Option.some.inj h)
      exact .inl rfl
  | set k v onlyIfAbsent px =>
      simp only [execute] at h
      split at h
      · obtain ⟨-, rfl⟩ := Prod.mk.inj (Option.some.inj h)
        exact .inl rfl
      split at h
      · obtain ⟨-, rfl⟩ := Prod.mk.inj (Option.some.inj h)
        exact .inl rfl
      · obtain ⟨-, rfl⟩ := Prod.mk.inj (Option.some.inj h)
        exact .inr (.inl ⟨k, List.mem_singleton_self k, _, rfl⟩)
  | delete ks =>
      obtain ⟨-, rfl⟩ := Prod.mk.inj (Option.some.inj h)
      exact .inr (.inr ⟨ks, fun _ hk ↦ hk, rfl⟩)
  | scan cursor pattern =>
      simp only [execute] at h
      obtain ⟨-, h⟩ := Option.ite_none_right_eq_some.mp h
      obtain ⟨-, rfl⟩ := Prod.mk.inj (Option.some.inj h)
      exact .inl rfl
  | unlock k identifier =>
      simp only [execute] at h
      split at h
      · split at h
        · obtain ⟨-, rfl⟩ := Prod.mk.inj (Option.some.inj h)
          exact .inr (.inr ⟨[k], fun _ hk ↦ hk, rfl⟩)
        · obtain ⟨-, rfl⟩ := Prod.mk.inj (Option.some.inj h)
          exact .inl rfl
      · obtain ⟨-, rfl⟩ := Prod.mk.inj (Option.some.inj h)
        exact .inl rfl
      · obtain ⟨-, rfl⟩ := Prod.mk.inj (Option.some.inj h)
        exact .inl rfl
  | slidingWindow k window limit now requestId =>
      have hslide : ∀ members deadline,
          s' = (s.slideWindow k members deadline window limit now requestId).2 →
          s' = s ∨ (∃ k' ∈ [k], ∃ e, s' = s.put k' e) ∨
            ∃ ks, (∀ k' ∈ ks, k' ∈ [k]) ∧ s' = s.remove ks := by
        rintro members deadline rfl
        rcases slideWindow_shape (s := s) k members deadline window limit now requestId
          with heq | ⟨e, heq⟩
        · exact .inr (.inr ⟨[k], fun _ hk ↦ hk, heq⟩)
        · exact .inr (.inl ⟨k, List.mem_singleton_self k, e, heq⟩)
      simp only [execute] at h
      split at h
      · obtain ⟨-, rfl⟩ := Prod.mk.inj (Option.some.inj h)
        exact hslide [] none rfl
      · rename_i members deadline _
        obtain ⟨-, rfl⟩ := Prod.mk.inj (Option.some.inj h)
        exact hslide members deadline rfl
      · obtain ⟨-, rfl⟩ := Prod.mk.inj (Option.some.inj h)
        exact .inl rfl

/-- The entries of the keys that a command does not touch stay as they are. -/
theorem execute_frame {page : ℕ × List Str} {c : RedisCommand} {r : Except RedisError c.Reply}
    (h : s.execute page c = some (r, s')) (hkey : key ∉ c.touches r) :
    s'.entries key = s.entries key := by
  rcases execute_shape h with rfl | ⟨k, hk, e, rfl⟩ | ⟨ks, hks, rfl⟩
  · rfl
  · exact put_entries_ne fun heq ↦ hkey (heq ▸ hk)
  · exact remove_entries_of_not_mem fun hmem ↦ hkey (hks key hmem)

/-- No command changes the clock. -/
theorem execute_now {page : ℕ × List Str} {c : RedisCommand} {r : Except RedisError c.Reply}
    (h : s.execute page c = some (r, s')) : s'.now = s.now := by
  rcases execute_shape h with rfl | ⟨k, -, e, rfl⟩ | ⟨ks, -, rfl⟩ <;> rfl

end RedisServer

/-- What a client does: a command, or a look at a clock. -/
inductive RedisEffect where
  | command (c : RedisCommand)
  /-- `time.time()`, in seconds -/
  | clock
  /-- `time.monotonic() >= deadline` -/
  | deadlinePassed

abbrev RedisEffect.Reply : RedisEffect → Type
  | .command c => c.Reply
  | .clock => ℚ
  | .deadlinePassed => Bool

abbrev RedisProgram (α : Type) : Type := Program RedisEffect RedisEffect.Reply RedisError α

def redis (c : RedisCommand) : RedisProgram c.Reply :=
  Program.call (RedisEffect.command c)

def clock : RedisProgram ℚ := Program.call RedisEffect.clock

def deadlinePassed : RedisProgram Bool := Program.call RedisEffect.deadlinePassed

/-- An issued command, with the server's reply if it was executed. -/
structure RedisEvent (T : Type) where
  thread : T
  time : ℚ
  command : RedisCommand
  executed : Option (Except RedisError command.Reply)

structure RedisWorld (T : Type) where
  server : RedisServer
  log : List (RedisEvent T)

/-- How a round trip ends: with a reply, where a scan returns `page`; or
with a lost connection, before or after execution. -/
inductive RedisChoice where
  | reply (page : ℕ × List Str)
  | lost (executed : Option (ℕ × List Str))
  | flag (b : Bool)
  | tick (ms : ℚ)

namespace RedisWorld

variable {T : Type}

def initial : RedisWorld T := ⟨⟨0, fun _ ↦ none⟩, []⟩

def issue (w : RedisWorld T) (t : T) (c : RedisCommand)
    (executed : Option (Except RedisError c.Reply)) (s : RedisServer) : RedisWorld T :=
  ⟨s, w.log ++ [⟨t, w.server.now, c, executed⟩]⟩

def machine : Machine T RedisEffect RedisEffect.Reply RedisError (RedisWorld T) RedisChoice where
  perform := fun t e choice w ↦
    match e, choice with
    | .command c, .reply page =>
        (w.server.execute page c).map fun q ↦ (q.1, w.issue t c (some q.1) q.2)
    | .command c, .lost (some page) =>
        (w.server.execute page c).map fun q ↦ (.error .connection, w.issue t c (some q.1) q.2)
    | .command c, .lost none => some (.error .connection, w.issue t c none w.server)
    | .clock, .reply _ => some (.ok (w.server.now / 1000), w)
    | .deadlinePassed, .flag b => some (.ok b, w)
    | _, _ => none
  environment := fun choice w ↦
    match choice with
    | .tick ms =>
        if 0 ≤ ms then some { w with server := { w.server with now := w.server.now + ms } }
        else none
    | _ => none

variable {w w' : RedisWorld T} {t : T} {choice : RedisChoice}

/-- A command fails before it is executed, or is executed and then answered
or lost. -/
theorem perform_command {c : RedisCommand} {r : Except RedisError c.Reply}
    (h : machine.perform t (.command c) choice w = some (r, w')) :
    ((∃ x, r = .error x) ∧ w' = w.issue t c none w.server) ∨
    ∃ page q s', w.server.execute page c = some (q, s') ∧ w' = w.issue t c (some q) s' ∧
      (r = q ∨ ∃ x, r = .error x) := by
  cases choice with
  | reply page =>
      simp only [machine, Option.map_eq_some_iff] at h
      obtain ⟨⟨q, s'⟩, hq, heq⟩ := h
      obtain ⟨rfl, rfl⟩ := Prod.mk.inj heq
      exact .inr ⟨page, q, s', hq, rfl, .inl rfl⟩
  | lost executed =>
      cases executed with
      | none =>
          obtain ⟨rfl, rfl⟩ := Prod.mk.inj (Option.some.inj h)
          exact .inl ⟨⟨_, rfl⟩, rfl⟩
      | some page =>
          simp only [machine, Option.map_eq_some_iff] at h
          obtain ⟨⟨q, s'⟩, hq, heq⟩ := h
          obtain ⟨rfl, rfl⟩ := Prod.mk.inj heq
          exact .inr ⟨page, q, s', hq, rfl, .inr ⟨_, rfl⟩⟩
  | flag b => cases h
  | tick ms => cases h

/-- Reading a clock leaves the world as it is. -/
theorem perform_clock {r : Except RedisError ℚ}
    (h : machine.perform t .clock choice w = some (r, w')) :
    r = .ok (w.server.now / 1000) ∧ w' = w := by
  cases choice with
  | reply page =>
      obtain ⟨rfl, rfl⟩ := Prod.mk.inj (Option.some.inj h)
      exact ⟨rfl, rfl⟩
  | _ => cases h

theorem perform_deadlinePassed {r : Except RedisError Bool}
    (h : machine.perform t .deadlinePassed choice w = some (r, w')) : w' = w := by
  cases choice with
  | flag b => exact (Prod.mk.inj (Option.some.inj h)).2.symm
  | _ => cases h

/-- The environment only lets time pass. -/
theorem environment_tick (h : machine.environment choice w = some w') :
    ∃ ms : ℚ, 0 ≤ ms ∧
      w' = { w with server := { w.server with now := w.server.now + ms } } := by
  cases choice with
  | tick ms =>
      simp only [machine] at h
      obtain ⟨hms, h⟩ := Option.ite_none_right_eq_some.mp h
      exact ⟨ms, hms, (Option.some.inj h).symm⟩
  | _ => cases h

/-- Where an event of the extended log stands. -/
theorem issue_log {c : RedisCommand} {executed : Option (Except RedisError c.Reply)}
    {s : RedisServer} {before after : List (RedisEvent T)} {e : RedisEvent T}
    (h : (w.issue t c executed s).log = before ++ e :: after) :
    (w.log = before ∧ e = ⟨t, w.server.now, c, executed⟩ ∧ after = []) ∨
    ∃ after', after = after' ++ [⟨t, w.server.now, c, executed⟩] ∧
      w.log = before ++ e :: after' := by
  rcases List.eq_nil_or_concat after with rfl | ⟨after', f, rfl⟩
  · obtain ⟨hlog, he⟩ := List.append_inj' h rfl
    exact .inl ⟨hlog, (List.singleton_inj.mp he).symm, rfl⟩
  · rw [List.concat_eq_append, ← List.cons_append, ← List.append_assoc] at h
    obtain ⟨hlog, hf⟩ := List.append_inj' h rfl
    obtain rfl := List.singleton_inj.mp hf
    exact .inr ⟨after', List.concat_eq_append, hlog⟩

end RedisWorld

abbrev RedisPool (T V : Type) : Type :=
  Pool T RedisEffect RedisEffect.Reply RedisError V (RedisWorld T)

end DjangoNova
