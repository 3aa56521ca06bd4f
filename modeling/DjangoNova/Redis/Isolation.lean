import DjangoNova.Fallible.Except
import DjangoNova.Redis.CacheBackend
import DjangoNova.Redis.Lock
import DjangoNova.Redis.RateLimit

/-!
# Isolation of the owners of one database

Cache backends, locks, rate limits and the replica lag share a Redis
database and tell their keys apart by prefixes only. A program is confined
to the keys of its owner, so two owners stay apart exactly when no key can
have the prefixes of both.
-/

namespace DjangoNova

def replicaLagKey : Str := "nova:replica_lag".toList

/-- `report_replica_lag`, of the text of a number; failures are ignored. -/
def reportReplicaLag (text : Str) (checkIntervalMs : ℤ) : RedisProgram Unit :=
  let ttl := max 2 (checkIntervalMs.tdiv 1000 + 1)
  (redis (.set replicaLagKey text false (some (1000 * ttl)))).andThen fun _ ↦ return ()

/-- The read of `_fetch_lag_from_redis`; `none` stands for an infinite lag. -/
def fetchLag : RedisProgram (Option (Option Str)) :=
  (redis (.get replicaLagKey)).andThen fun
    | .ok raw => return some raw
    | .error _ => return none

inductive Owner where
  | cache (keyPrefix : Str)
  | lock
  | rateLimit
  | replicaLag
  deriving DecidableEq

/-- The prefix of the keys of a cache backend. -/
def cacheStem (keyPrefix : Str) : Str := keyPrefix ++ [':']

def Owner.Owns : Owner → Str → Prop
  | .cache keyPrefix, key => cacheStem keyPrefix <+: key
  | .lock, key => DistributedLock.lockPrefix <+: key
  | .rateLimit, key => RateLimitCall.rateLimitPrefix <+: key
  | .replicaLag, key => key = replicaLagKey

/-- The clients of the database. -/
inductive RedisClient (V : Type) where
  | cache (b : RedisCacheBackend V) (call : BackendCall V)
  | lock (o : DistributedLock) (calls : List LockCall)
  | rateLimit (c : RateLimitCall)
  | reportLag (text : Str) (checkIntervalMs : ℤ)
  | fetchLag

namespace RedisClient

variable {V : Type}

def owner : RedisClient V → Owner
  | .cache b _ => .cache b.keyPrefix
  | .lock _ _ => .lock
  | .rateLimit _ => .rateLimit
  | .reportLag _ _ | .fetchLag => .replicaLag

def program : RedisClient V → RedisProgram Unit
  | .cache b call => do
      let _ ← call.program b
      return ()
  | .lock o calls => o.session calls false
  | .rateLimit c => do
      let _ ← c.checkRateLimit
      return ()
  | .reportLag text checkIntervalMs => reportReplicaLag text checkIntervalMs
  | .fetchLag => do
      let _ ← DjangoNova.fetchLag
      return ()

end RedisClient

/-- All keys that the command can touch are in the language `P`. -/
def RedisCommand.Confined (P : Str → Prop) : RedisCommand → Prop
  | .get key | .set key _ _ _ | .unlock key _ | .slidingWindow key _ _ _ _ => P key
  | .mget keys | .delete keys => ∀ key ∈ keys, P key
  | .scan _ pattern => ∀ key, Glob.globMatch pattern key = true → P key

def RedisEffect.Confined (P : Str → Prop) : RedisEffect → Prop
  | .command c => c.Confined P
  | _ => True

/-- A page that a scan returns has only keys of its pattern. -/
def ScanReplies (e : RedisEffect) (r : Except RedisError e.Reply) : Prop :=
  match e, r with
  | .command (.scan _ pattern), .ok page => ∀ key ∈ page.2, Glob.globMatch pattern key = true
  | _, _ => True

section Confined

variable {P : Str → Prop} {α : Type}

/-- A program all of whose commands are confined to `P`. -/
abbrev ConfinedProgram (P : Str → Prop) (p : RedisProgram α) : Prop :=
  p.Within (RedisEffect.Confined P) ScanReplies

theorem confined_redis {c : RedisCommand} (h : c.Confined P) : ConfinedProgram P (redis c) :=
  Program.within_call h

/-- What an executed command touches is confined with it. -/
theorem RedisCommand.Confined.touches {c : RedisCommand} (h : c.Confined P)
    {s s' : RedisServer} {page : ℕ × List Str} {r : Except RedisError c.Reply}
    (hexec : s.execute page c = some (r, s')) : ∀ key ∈ c.touches r, P key := by
  cases c with
  | scan cursor pattern =>
      simp only [RedisServer.execute] at hexec
      obtain ⟨hpage, hexec⟩ := Option.ite_none_right_eq_some.mp hexec
      obtain ⟨rfl, -⟩ := Prod.mk.inj (Option.some.inj hexec)
      intro key hkey
      have hmatch := List.all_eq_true.mp hpage key hkey
      exact h key (Bool.and_eq_true_iff.mp hmatch).2
  | mget keys => exact h
  | delete keys => exact h
  | get key =>
      intro key' hkey
      exact List.mem_singleton.mp hkey ▸ h
  | set key value onlyIfAbsent px =>
      intro key' hkey
      exact List.mem_singleton.mp hkey ▸ h
  | unlock key identifier =>
      intro key' hkey
      exact List.mem_singleton.mp hkey ▸ h
  | slidingWindow key window limit now requestId =>
      intro key' hkey
      exact List.mem_singleton.mp hkey ▸ h

/-- The replies of executed scans are the expected ones. -/
theorem scanReplies_of_execute {c : RedisCommand} {s s' : RedisServer} {page : ℕ × List Str}
    {q r : Except RedisError c.Reply} (hexec : s.execute page c = some (q, s'))
    (hr : r = q ∨ ∃ x, r = .error x) : ScanReplies (.command c) r := by
  cases c with
  | scan cursor pattern =>
      simp only [RedisServer.execute] at hexec
      obtain ⟨hpage, hexec⟩ := Option.ite_none_right_eq_some.mp hexec
      obtain ⟨rfl, -⟩ := Prod.mk.inj (Option.some.inj hexec)
      rcases hr with rfl | ⟨x, rfl⟩
      · intro key hkey
        have hmatch := List.all_eq_true.mp hpage key hkey
        exact (Bool.and_eq_true_iff.mp hmatch).2
      · trivial
  | _ => trivial

end Confined

namespace RedisCacheBackend

variable {V α : Type} {b : RedisCacheBackend V}

theorem owns_makeKey (hpre : b.keyPrefix ≠ []) (key : Str) :
    (Owner.cache b.keyPrefix).Owns (b.makeKey key) := by
  rw [makeKey, if_neg hpre]
  exact ⟨key, by simp [cacheStem]⟩

/-- The pattern of `clear` matches exactly the keys of the backend. -/
theorem globMatch_pattern (key : Str) :
    Glob.globMatch b.pattern key = true ↔ (Owner.cache b.keyPrefix).Owns key := by
  have hescape : b.pattern = Glob.escape (cacheStem b.keyPrefix) ++ ['*'] := by
    have hcolon : Glob.escapeChar ':' = [':'] := by decide
    simp [pattern, cacheStem, Glob.escape, hcolon]
  rw [hescape]
  exact Glob.globMatch_escape_star _ _

theorem confined_handled {P : Str → Prop} {p : RedisProgram α} (h : ConfinedProgram P p) :
    ConfinedProgram P (handled p) := by
  apply h.andThen
  intro v
  rcases v with x | a
  · cases x <;> trivial
  · trivial

variable (hpre : b.keyPrefix ≠ [])
include hpre

theorem confined_get (key : Str) :
    ConfinedProgram (Owner.cache b.keyPrefix).Owns (b.get key) := by
  have hget : RedisCommand.Confined (Owner.cache b.keyPrefix).Owns (.get (b.makeKey key)) :=
    owns_makeKey hpre key
  apply confined_handled
  apply (confined_redis hget).bind
  intro raw
  cases raw with
  | none => trivial
  | some raw =>
      have hloads : ConfinedProgram (Owner.cache b.keyPrefix).Owns
        (Program.done (b.loads raw) : RedisProgram V) := trivial
      exact hloads.bind fun _ ↦ trivial

theorem confined_deleteMade (keys : List Str) :
    ConfinedProgram (Owner.cache b.keyPrefix).Owns (redis (.delete (keys.map b.makeKey))) := by
  apply confined_redis
  intro key hkey
  obtain ⟨k, -, rfl⟩ := List.mem_map.mp hkey
  exact owns_makeKey hpre k

theorem confined_set (key : Str) (value : V) (ttl : Option ℚ) :
    ConfinedProgram (Owner.cache b.keyPrefix).Owns (b.set key value ttl) := by
  apply confined_handled
  have httl : ConfinedProgram (Owner.cache b.keyPrefix).Owns
    (Program.done (ttlMs ttl) : RedisProgram (Option ℤ)) := trivial
  apply httl.bind
  intro ms
  split
  · exact (confined_deleteMade hpre [key]).bind fun _ ↦ trivial
  · have hdumps : ConfinedProgram (Owner.cache b.keyPrefix).Owns
      (Program.done (b.dumps value) : RedisProgram Str) := trivial
    apply hdumps.bind
    intro payload
    have hset : RedisCommand.Confined (Owner.cache b.keyPrefix).Owns
        (.set (b.makeKey key) payload false (ms.map (max · 1))) :=
      owns_makeKey hpre key
    exact (confined_redis hset).bind fun _ ↦ trivial

theorem confined_delete (key : Str) :
    ConfinedProgram (Owner.cache b.keyPrefix).Owns (b.delete key) := by
  apply confined_handled
  exact (confined_deleteMade hpre [key]).bind fun _ ↦ trivial

omit hpre in
/-- The loop only deletes keys that a scan of the own pattern returned. -/
theorem confined_clearLoop (pages cursor : ℕ) :
    ConfinedProgram (Owner.cache b.keyPrefix).Owns (b.clearLoop pages cursor) := by
  induction pages generalizing cursor with
  | zero => trivial
  | succ pages ih =>
      have hscan : RedisEffect.Confined (Owner.cache b.keyPrefix).Owns
          (.command (.scan cursor b.pattern)) := fun key hkey ↦ (globMatch_pattern key).mp hkey
      apply Program.within_call_bind hscan
      intro page hpage
      have hdelete : ConfinedProgram (Owner.cache b.keyPrefix).Owns (deleteAll page.2) := by
        unfold deleteAll
        split
        · trivial
        · have hkeys : RedisCommand.Confined (Owner.cache b.keyPrefix).Owns (.delete page.2) :=
            fun key hkey ↦ (globMatch_pattern key).mp (hpage key hkey)
          exact (confined_redis hkeys).bind fun _ ↦ trivial
      apply hdelete.bind
      intro _
      split
      · trivial
      · exact ih page.1

theorem confined_clear (pages : ℕ) :
    ConfinedProgram (Owner.cache b.keyPrefix).Owns (b.clear pages) := by
  apply confined_handled
  rw [if_neg hpre]
  exact confined_clearLoop pages 0

theorem confined_getMany (keys : List Str) :
    ConfinedProgram (Owner.cache b.keyPrefix).Owns (b.getMany keys) := by
  apply confined_handled
  split
  · trivial
  · have hmget : RedisCommand.Confined (Owner.cache b.keyPrefix).Owns
        (.mget (keys.map b.makeKey)) := by
      intro key hkey
      obtain ⟨k, -, rfl⟩ := List.mem_map.mp hkey
      exact owns_makeKey hpre k
    exact (confined_redis hmget).bind fun _ ↦ trivial

omit hpre in
theorem confined_pipeline {P : Str → Prop} (error : Option RedisError)
    (commands : List RedisCommand)
    (h : ∀ c ∈ commands, c.Confined P) : ConfinedProgram P (pipeline error commands) := by
  induction commands generalizing error with
  | nil => trivial
  | cons c commands ih =>
      have hrest := fun e ↦ ih e fun c' hc' ↦ h c' (List.mem_cons_of_mem c hc')
      apply (confined_redis (h c List.mem_cons_self)).andThen
      intro v
      cases v <;> exact hrest _

theorem confined_dumpAll (px : Option ℤ) (values : List (Str × V)) {commands : List RedisCommand}
    (h : b.dumpAll px values = .ok commands) :
    ∀ c ∈ commands, c.Confined (Owner.cache b.keyPrefix).Owns := by
  induction values generalizing commands with
  | nil =>
      obtain rfl := Except.ok.inj h
      simp
  | cons entry values ih =>
      obtain ⟨key, value⟩ := entry
      obtain ⟨payload, -, hrest⟩ := bind_eq_ok.mp h
      obtain ⟨rest, hdump, heq⟩ := bind_eq_ok.mp hrest
      obtain rfl := Except.ok.inj heq
      intro c hc
      rcases List.mem_cons.mp hc with rfl | hc
      · exact owns_makeKey hpre key
      · exact ih hdump c hc

theorem confined_setMany (values : List (Str × V)) (ttl : Option ℚ) :
    ConfinedProgram (Owner.cache b.keyPrefix).Owns (b.setMany values ttl) := by
  apply confined_handled
  split
  · trivial
  have httl : ConfinedProgram (Owner.cache b.keyPrefix).Owns
    (Program.done (ttlMs ttl) : RedisProgram (Option ℤ)) := trivial
  apply httl.bind
  intro ms
  split
  · have hmap : (values.map fun entry ↦ b.makeKey entry.1) =
        (values.map Prod.fst).map b.makeKey := by simp
    rw [hmap]
    exact (confined_deleteMade hpre _).bind fun _ ↦ trivial
  · cases hdump : b.dumpAll (ms.map (max · 1)) values with
    | error x => trivial
    | ok commands => exact confined_pipeline none commands (confined_dumpAll hpre _ values hdump)

theorem confined_deleteMany (keys : List Str) :
    ConfinedProgram (Owner.cache b.keyPrefix).Owns (b.deleteMany keys) := by
  apply confined_handled
  split
  · trivial
  · exact confined_deleteMade hpre keys

theorem confined_program (call : BackendCall V) :
    ConfinedProgram (Owner.cache b.keyPrefix).Owns (call.program b) := by
  cases call with
  | get key => exact (confined_get hpre key).bind fun _ ↦ trivial
  | set key value ttl => exact (confined_set hpre key value ttl).bind fun _ ↦ trivial
  | delete key => exact (confined_delete hpre key).bind fun _ ↦ trivial
  | clear pages => exact (confined_clear hpre pages).bind fun _ ↦ trivial
  | getMany keys => exact (confined_getMany hpre keys).bind fun _ ↦ trivial
  | setMany values ttl => exact (confined_setMany hpre values ttl).bind fun _ ↦ trivial
  | deleteMany keys => exact (confined_deleteMany hpre keys).bind fun _ ↦ trivial

end RedisCacheBackend

namespace RedisClient

variable {V : Type}

theorem confined_lock (o : DistributedLock) (calls : List LockCall) :
    ConfinedProgram Owner.lock.Owns (o.session calls false) := by
  apply (o.session_within calls false).mono
  have hname : Owner.lock.Owns o.name := List.prefix_append _ _
  rintro e (rfl | rfl | rfl)
  · exact hname
  · exact hname
  · trivial

theorem confined_rateLimit (c : RateLimitCall) :
    ConfinedProgram Owner.rateLimit.Owns c.checkRateLimit := by
  have hclock : ConfinedProgram Owner.rateLimit.Owns clock := Program.within_call trivial
  apply hclock.bind
  intro now
  have hscript : RedisCommand.Confined Owner.rateLimit.Owns (c.script now) :=
    List.prefix_append _ _
  apply (confined_redis hscript).bind
  intro allowed
  cases allowed <;> trivial

/-- Every client is confined to the keys of its owner. -/
theorem confined_program {client : RedisClient V}
    (hpre : ∀ b call, client = .cache b call → b.keyPrefix ≠ []) :
    ConfinedProgram client.owner.Owns client.program := by
  cases client with
  | cache b call =>
      exact (RedisCacheBackend.confined_program (hpre b call rfl) call).bind fun _ ↦ trivial
  | lock o calls => exact confined_lock o calls
  | rateLimit c => exact (confined_rateLimit c).bind fun _ ↦ trivial
  | reportLag text checkIntervalMs =>
      have hset : RedisCommand.Confined Owner.replicaLag.Owns (.set replicaLagKey text false
          (some (1000 * max 2 (checkIntervalMs.tdiv 1000 + 1)))) := rfl
      exact (confined_redis hset).andThen fun _ ↦ trivial
  | fetchLag =>
      have hget : RedisCommand.Confined Owner.replicaLag.Owns (.get replicaLagKey) := rfl
      have hfetch : ConfinedProgram Owner.replicaLag.Owns DjangoNova.fetchLag := by
        apply (confined_redis hget).andThen
        intro v
        cases v <;> trivial
      exact hfetch.bind fun _ ↦ trivial

end RedisClient

/-- The keys that an executed command read or wrote. -/
def RedisEvent.touched {T : Type} (e : RedisEvent T) : List Str :=
  match e.executed with
  | some r => e.command.touches r
  | none => []

section Isolation

variable {T V : Type}

/-- The commands of a cache backend and of another owner touch no common key. -/
def Isolated (owner : T → Owner) (log : List (RedisEvent T)) : Prop :=
  ∀ e ∈ log, ∀ f ∈ log, (∃ keyPrefix, owner e.thread = .cache keyPrefix) →
    owner f.thread ≠ owner e.thread → ∀ key ∈ e.touched, key ∉ f.touched

/-- One of the texts starts with the other. -/
def Comparable (a b : Str) : Prop := a <+: b ∨ b <+: a

/-- The prefixes of the caches keep them apart from all other owners. -/
structure Separated (keyPrefixes : Set Str) : Prop where
  cache : ∀ p ∈ keyPrefixes, ∀ q ∈ keyPrefixes, p ≠ q → ¬Comparable (cacheStem p) (cacheStem q)
  lock : ∀ p ∈ keyPrefixes, ¬Comparable (cacheStem p) DistributedLock.lockPrefix
  rateLimit : ∀ p ∈ keyPrefixes, ¬Comparable (cacheStem p) RateLimitCall.rateLimitPrefix
  replicaLag : ∀ p ∈ keyPrefixes, ¬cacheStem p <+: replicaLagKey

theorem comparable_iff {a b : Str} : Comparable a b ↔ ∃ key, a <+: key ∧ b <+: key := by
  constructor
  · rintro (h | h)
    · exact ⟨b, h, List.prefix_rfl⟩
    · exact ⟨a, List.prefix_rfl, h⟩
  · rintro ⟨key, ha, hb⟩
    exact List.prefix_or_prefix_of_prefix ha hb

/-- Separated prefixes leave no key with two owners. -/
theorem Separated.disjoint {keyPrefixes : Set Str} (h : Separated keyPrefixes) {p : Str}
    (hp : p ∈ keyPrefixes) {o : Owner} (ho : ∀ q, o = .cache q → q ∈ keyPrefixes)
    (hne : o ≠ .cache p) {key : Str} (hkey : (Owner.cache p).Owns key) : ¬o.Owns key := by
  intro hother
  cases o with
  | cache q =>
      have hpq : p ≠ q := fun heq ↦ hne (heq ▸ rfl)
      exact h.cache p hp q (ho q rfl) hpq (comparable_iff.mpr ⟨key, hkey, hother⟩)
  | lock => exact h.lock p hp (comparable_iff.mpr ⟨key, hkey, hother⟩)
  | rateLimit => exact h.rateLimit p hp (comparable_iff.mpr ⟨key, hkey, hother⟩)
  | replicaLag =>
      obtain rfl : key = replicaLagKey := hother
      exact h.replicaLag p hp hkey

variable [DecidableEq T]

/-- One turn of the clients. -/
def clientStep (client : T → RedisClient V) :
    RedisPool T Unit → Turn T RedisChoice → Option (RedisPool T Unit) :=
  Pool.step RedisWorld.machine fun t ↦ (client t).program

/-- In every run, each command touches only keys of its owner. -/
theorem touched_owned {client : T → RedisClient V}
    (hpre : ∀ t b call, client t = .cache b call → b.keyPrefix ≠ []) {s : RedisServer}
    {p : RedisPool T Unit}
    (h : Transition.Reaches (clientStep client) Transition.Always (Pool.start ⟨s, []⟩) p) :
    ∀ e ∈ p.world.log, ∀ key ∈ e.touched, (client e.thread).owner.Owns key := by
  have hbody : ∀ t, ConfinedProgram (client t).owner.Owns (client t).program :=
    fun t ↦ RedisClient.confined_program (hpre t)
  have hempty : ∀ e ∈ ([] : List (RedisEvent T)), ∀ key ∈ e.touched,
      (client e.thread).owner.Owns key := by simp
  refine Pool.invariant_within (G := fun w ↦ ∀ e ∈ w.log, ∀ key ∈ e.touched,
    (client e.thread).owner.Owns key) hempty ?_ ?_ hbody h
  · intro t e choice w r w' he hG hperform
    cases e with
    | command c =>
        rcases RedisWorld.perform_command hperform with ⟨⟨x, rfl⟩, rfl⟩ | ⟨page, q, s', hq, rfl, hr⟩
        · refine ⟨?_, fun e hmem ↦ ?_⟩
          · cases c <;> trivial
          · rcases List.mem_append.mp hmem with hmem | hmem
            · exact hG e hmem
            · obtain rfl := List.mem_singleton.mp hmem
              intro key hkey
              cases hkey
        · refine ⟨scanReplies_of_execute hq hr, fun e hmem ↦ ?_⟩
          rcases List.mem_append.mp hmem with hmem | hmem
          · exact hG e hmem
          · obtain rfl := List.mem_singleton.mp hmem
            have hconfined : c.Confined (client t).owner.Owns := he
            exact hconfined.touches hq
    | clock =>
        obtain ⟨-, rfl⟩ := RedisWorld.perform_clock hperform
        exact ⟨trivial, hG⟩
    | deadlinePassed =>
        obtain rfl := RedisWorld.perform_deadlinePassed hperform
        exact ⟨trivial, hG⟩
  · intro choice w w' hG henv
    obtain ⟨ms, -, rfl⟩ := RedisWorld.environment_tick henv
    exact hG

/-- The first command of the program touches the key. -/
inductive Opens (key : Str) : RedisProgram Unit → Prop
  | command (c : RedisCommand) (k : Except RedisError c.Reply → RedisProgram Unit)
      (h : ∀ r, key ∈ c.touches r) : Opens key (.step (.command c) k)
  | clock (k : Except RedisError ℚ → RedisProgram Unit) (h : ∀ now, Opens key (k (.ok now))) :
      Opens key (.step .clock k)

/-- An empty page is a possible reply of every scan. -/
theorem execute_total (s : RedisServer) (c : RedisCommand) :
    ∃ r s', s.execute (0, []) c = some (r, s') := by
  cases c with
  | get key =>
      simp only [RedisServer.execute]
      split <;> exact ⟨_, _, rfl⟩
  | mget keys => exact ⟨_, _, rfl⟩
  | set key value onlyIfAbsent px =>
      simp only [RedisServer.execute]
      split_ifs <;> exact ⟨_, _, rfl⟩
  | delete keys => exact ⟨_, _, rfl⟩
  | scan cursor pattern => exact ⟨_, _, rfl⟩
  | unlock key identifier =>
      simp only [RedisServer.execute]
      split
      · split_ifs <;> exact ⟨_, _, rfl⟩
      · exact ⟨_, _, rfl⟩
      · exact ⟨_, _, rfl⟩
  | slidingWindow key window limit now requestId =>
      simp only [RedisServer.execute]
      split <;> exact ⟨_, _, rfl⟩

theorem clientStep_command (client : T → RedisClient V) {p : RedisPool T Unit} {t : T}
    {born : RedisWorld T} {c : RedisCommand} {k : Except RedisError c.Reply → RedisProgram Unit}
    (ht : p.threads t = some ⟨born, .step (.command c) k⟩) {page : ℕ × List Str}
    {r : Except RedisError c.Reply} {s' : RedisServer}
    (hexec : p.world.server.execute page c = some (r, s')) :
    clientStep client p (.act t (.reply page)) =
      some ⟨p.world.issue t c (some r) s', Function.update p.threads t (some ⟨born, k r⟩)⟩ := by
  simp [clientStep, Pool.step, ht, RedisWorld.machine, hexec]

/-- From any pool, a thread about to touch the key can do so. -/
theorem reaches_touch (client : T → RedisClient V) {key : Str} {code : RedisProgram Unit}
    (hopens : Opens key code) {p : RedisPool T Unit} {t : T} {born : RedisWorld T}
    (ht : p.threads t = some ⟨born, code⟩) :
    ∃ p', Transition.Reaches (clientStep client) Transition.Always p p' ∧
      (∃ e ∈ p'.world.log, e.thread = t ∧ key ∈ e.touched) ∧
      (∀ e ∈ p.world.log, e ∈ p'.world.log) ∧ ∀ u, u ≠ t → p'.threads u = p.threads u := by
  induction hopens generalizing p with
  | command c k h =>
      obtain ⟨r, s', hexec⟩ := execute_total p.world.server c
      refine ⟨_, .move _ .start trivial (clientStep_command client ht hexec),
        ⟨_, List.mem_append_right _ List.mem_cons_self, rfl,
        h r⟩, fun e he ↦ List.mem_append_left _ he, fun u hu ↦ Function.update_of_ne hu _ _⟩
  | clock k h ih =>
      have hstep : clientStep client p (.act t (.reply (0, []))) =
          some ⟨p.world, Function.update p.threads t
            (some ⟨born, k (.ok (p.world.server.now / 1000))⟩)⟩ := by
        simp [clientStep, Pool.step, ht, RedisWorld.machine]
      obtain ⟨p', hreach, htouch, hlog, hothers⟩ := ih (p.world.server.now / 1000)
        (p := ⟨p.world, Function.update p.threads t
          (some ⟨born, k (.ok (p.world.server.now / 1000))⟩)⟩) (Function.update_self t _ _)
      refine ⟨p', (Transition.Reaches.move _ .start trivial hstep).trans hreach, htouch, hlog, ?_⟩
      intro u hu
      rw [hothers u hu]
      exact Function.update_of_ne hu _ _

/-- A client that has not begun can begin and touch its first key. -/
theorem reaches_open {client : T → RedisClient V} {key : Str} {t : T}
    (hopens : Opens key (client t).program) {p : RedisPool T Unit} (ht : p.threads t = none) :
    ∃ p', Transition.Reaches (clientStep client) Transition.Always p p' ∧
      (∃ e ∈ p'.world.log, e.thread = t ∧ key ∈ e.touched) ∧
      (∀ e ∈ p.world.log, e ∈ p'.world.log) ∧ ∀ u, u ≠ t → p'.threads u = p.threads u := by
  have hstep : clientStep client p (.begin t) =
      some ⟨p.world, Function.update p.threads t (some ⟨p.world, (client t).program⟩)⟩ := by
    simp [clientStep, Pool.step, ht]
  obtain ⟨p', hreach, htouch, hlog, hothers⟩ := reaches_touch client hopens
    (p := ⟨p.world, Function.update p.threads t (some ⟨p.world, (client t).program⟩)⟩)
    (Function.update_self t _ _)
  refine ⟨p', (Transition.Reaches.move _ .start trivial hstep).trans hreach, htouch, hlog, ?_⟩
  intro u hu
  rw [hothers u hu]
  exact Function.update_of_ne hu _ _

/-- Two clients that begin with the same key do not stay apart. -/
theorem not_isolated (client : Bool → RedisClient V) {key : Str}
    (htrue : Opens key (client true).program) (hfalse : Opens key (client false).program)
    {keyPrefix : Str} (hcache : (client true).owner = .cache keyPrefix)
    (hne : (client false).owner ≠ (client true).owner) :
    ∃ p, Transition.Reaches (clientStep client) Transition.Always
      (Pool.start RedisWorld.initial) p ∧
      ¬Isolated (fun t ↦ (client t).owner) p.world.log := by
  obtain ⟨p₁, hreach₁, ⟨f, hf, hft, hfkey⟩, -, hothers⟩ := reaches_open hfalse
    (p := Pool.start RedisWorld.initial) rfl
  have hnone : p₁.threads true = none := hothers true (by decide)
  obtain ⟨p₂, hreach₂, ⟨e, he, het, hekey⟩, hlog, -⟩ := reaches_open htrue hnone
  refine ⟨p₂, hreach₁.trans hreach₂, ?_⟩
  intro h
  have hcache' : ∃ keyPrefix, (client e.thread).owner = .cache keyPrefix :=
    ⟨keyPrefix, het ▸ hcache⟩
  have hne' : (client f.thread).owner ≠ (client e.thread).owner := by
    rw [het, hft]
    exact hne
  exact h e he f (hlog f hf) hcache' hne' key hekey hfkey

end Isolation

section Converse

/-- A backend without values of its own. -/
def plainBackend (keyPrefix : Str) : RedisCacheBackend Unit :=
  ⟨keyPrefix, fun _ ↦ .ok [], fun _ ↦ .ok ()⟩

/-- Some client of the owner begins with the key. -/
def Owner.Reads (o : Owner) (key : Str) : Prop :=
  ∃ client : RedisClient Unit, client.owner = o ∧
    (∀ b call, client = .cache b call → o = .cache b.keyPrefix) ∧ Opens key client.program

theorem cache_reads {p key : Str} (hp : p ≠ []) (h : (Owner.cache p).Owns key) :
    (Owner.cache p).Reads key := by
  obtain ⟨rest, rfl⟩ := h
  have hkey : (plainBackend p).makeKey rest = cacheStem p ++ rest := by
    simp [RedisCacheBackend.makeKey, plainBackend, cacheStem, hp]
  refine ⟨.cache (plainBackend p) (.get rest), rfl, ?_, .command (.get _) _ fun r ↦ ?_⟩
  · rintro b call ⟨rfl, rfl⟩
    rfl
  · exact hkey ▸ List.mem_singleton_self _

theorem lock_reads {key : Str} (h : Owner.lock.Owns key) : Owner.lock.Reads key := by
  obtain ⟨resource, rfl⟩ := h
  refine ⟨.lock ⟨resource, [], 1⟩ [.acquire 1], rfl, ?_, .command _ _ fun r ↦ ?_⟩
  · intro b call hcall
    cases hcall
  · exact List.mem_singleton_self _

theorem rateLimit_reads {key : Str} (h : Owner.rateLimit.Owns key) : Owner.rateLimit.Reads key := by
  obtain ⟨rest, rfl⟩ := h
  refine ⟨.rateLimit ⟨rest, 1, 1, []⟩, rfl, ?_, .clock _ fun now ↦ .command _ _ fun r ↦ ?_⟩
  · intro b call hcall
    cases hcall
  · exact List.mem_singleton_self _

theorem replicaLag_reads : Owner.replicaLag.Reads replicaLagKey := by
  refine ⟨.fetchLag, rfl, ?_, .command _ _ fun r ↦ ?_⟩
  · intro b call hcall
    cases hcall
  · exact List.mem_singleton_self _

/-- Every run of every deployment with these cache prefixes is isolated. -/
def IsolatedRuns (keyPrefixes : Set Str) : Prop :=
  ∀ (T V : Type) [DecidableEq T] (client : T → RedisClient V),
    (∀ t b call, client t = .cache b call → b.keyPrefix ∈ keyPrefixes) →
    ∀ (s : RedisServer) (pool : RedisPool T Unit),
      Transition.Reaches (clientStep client) Transition.Always (Pool.start ⟨s, []⟩) pool →
      Isolated (fun t ↦ (client t).owner) pool.world.log

variable {keyPrefixes : Set Str}

/-- A key that a backend and another owner read makes some run not isolated. -/
theorem IsolatedRuns.not_reads (h : IsolatedRuns keyPrefixes) {p key : Str} (hp : p ∈ keyPrefixes)
    {o : Owner} (ho : ∀ q, o = .cache q → q ∈ keyPrefixes) (hne : o ≠ .cache p)
    (hread : (Owner.cache p).Reads key) : ¬o.Reads key := by
  rintro ⟨other, hother, hotherCache, hotherOpens⟩
  obtain ⟨own, hown, hownCache, hownOpens⟩ := hread
  let client : Bool → RedisClient Unit := fun t ↦ if t then own else other
  have hclient : ∀ t b call, client t = .cache b call → b.keyPrefix ∈ keyPrefixes := by
    intro t b call hcall
    cases t with
    | true =>
        have heq := Owner.cache.inj (hownCache b call hcall)
        exact heq ▸ hp
    | false => exact ho _ (hotherCache b call hcall)
  have hne' : (client false).owner ≠ (client true).owner := by
    show other.owner ≠ own.owner
    rw [hother, hown]
    exact hne
  obtain ⟨pool, hreach, hnot⟩ := not_isolated client hownOpens hotherOpens hown hne'
  exact hnot (h Bool Unit client hclient _ pool hreach)

/-- Runs with these cache prefixes are isolated exactly when no key can have
the prefixes of a backend and of another owner. -/
theorem redis_isolation (hpre : ∀ p ∈ keyPrefixes, p ≠ []) :
    IsolatedRuns keyPrefixes ↔ Separated keyPrefixes := by
  constructor
  · intro h
    constructor
    · intro p hp q hq hpq hcomparable
      obtain ⟨key, hkey, hother⟩ := comparable_iff.mp hcomparable
      have hne : Owner.cache q ≠ .cache p := fun heq ↦ hpq (Owner.cache.inj heq).symm
      have ho : ∀ r, Owner.cache q = .cache r → r ∈ keyPrefixes := by
        rintro r ⟨rfl⟩
        exact hq
      exact h.not_reads hp ho hne (cache_reads (hpre p hp) hkey)
        (cache_reads (hpre q hq) hother)
    · intro p hp hcomparable
      obtain ⟨key, hkey, hother⟩ := comparable_iff.mp hcomparable
      exact h.not_reads hp (by simp) (by simp) (cache_reads (hpre p hp) hkey) (lock_reads hother)
    · intro p hp hcomparable
      obtain ⟨key, hkey, hother⟩ := comparable_iff.mp hcomparable
      exact h.not_reads hp (by simp) (by simp) (cache_reads (hpre p hp) hkey)
        (rateLimit_reads hother)
    · intro p hp hkey
      exact h.not_reads hp (by simp) (by simp) (cache_reads (hpre p hp) hkey) replicaLag_reads
  · intro h T V _ client hclient s pool hreach e he f hf hcache hne key hkey hkey'
    have howned := touched_owned (fun t b call hcall ↦ hpre _ (hclient t b call hcall)) hreach
    have hin : ∀ t q, (client t).owner = .cache q → q ∈ keyPrefixes := by
      intro t q hq
      cases hct : client t with
      | cache b call =>
          rw [hct] at hq
          obtain rfl := Owner.cache.inj hq
          exact hclient t b call hct
      | lock o calls => simp [hct, RedisClient.owner] at hq
      | rateLimit c => simp [hct, RedisClient.owner] at hq
      | reportLag text checkIntervalMs => simp [hct, RedisClient.owner] at hq
      | fetchLag => simp [hct, RedisClient.owner] at hq
    obtain ⟨p, hp⟩ := hcache
    have hown : (Owner.cache p).Owns key := hp ▸ howned e he key hkey
    exact h.disjoint (hin _ p hp) (hin f.thread) (hp ▸ hne) hown (howned f hf key hkey')

/-- Two caches with prefixes that keep them apart from all other owners. -/
theorem redis_isolation_sample : IsolatedRuns {['a'], ['b']} := by
  apply (redis_isolation (by simp)).mpr
  constructor
  · rintro p (rfl | rfl) q (rfl | rfl) hpq
    · exact absurd rfl hpq
    · unfold Comparable
      decide
    · unfold Comparable
      decide
    · exact absurd rfl hpq
  · rintro p (rfl | rfl)
    all_goals
      unfold Comparable
      decide
  · rintro p (rfl | rfl)
    all_goals
      unfold Comparable
      decide
  · rintro p (rfl | rfl) <;> decide

def heldLock : DistributedLock := ⟨['r'], ['i'], 10000⟩

/-- A lock object, and a call of `clear` on the backend with the default prefix. -/
def novaClient (t : Bool) : RedisClient Unit :=
  if t then .cache (plainBackend "nova".toList) (.clear 1) else .lock heldLock [.acquire 1]

/-- `clear` on the backend with the default prefix deletes a held lock. -/
theorem redis_isolation_fails :
    ∃ pool : RedisPool Bool Unit, Transition.Reaches (clientStep novaClient) Transition.Always
        (Pool.start RedisWorld.initial) pool ∧
      pool.outcome false = some (.ok ()) ∧ pool.world.log.map RedisEvent.granted =
        [true, false, false] ∧ pool.world.server.now = 0 ∧
      pool.world.server.live heldLock.name = none := by
  have hlocked : ∃ p₁ p₂ : RedisPool Bool Unit,
      clientStep novaClient (Pool.start RedisWorld.initial) (.begin false) = some p₁ ∧
      clientStep novaClient p₁ (.act false (.reply (0, []))) = some p₂ ∧
      p₂.threads true = none ∧ p₂.outcome false = some (.ok ()) ∧
      p₂.world.log.map RedisEvent.granted = [true] ∧
      p₂.world.server.now = 0 ∧ (p₂.world.server.live heldLock.name).isSome = true :=
    ⟨_, _, rfl, rfl, rfl, rfl, rfl, rfl, by decide +kernel⟩
  obtain ⟨p₁, p₂, h₁, h₂, hidle, hdone, hlog, hnow, hlive⟩ := hlocked
  let backend : RedisCacheBackend Unit := plainBackend "nova".toList
  let page : ℕ × List Str := (0, [heldLock.name])
  have hprogram : ∃ k₁ k₂,
      (novaClient true).program = .step (.command (.scan 0 backend.pattern)) k₁ ∧
      k₁ (.ok page) = .step (.command (.delete [heldLock.name])) k₂ := ⟨_, _, rfl, rfl⟩
  obtain ⟨k₁, k₂, hscan, hdelete⟩ := hprogram
  let p₃ : RedisPool Bool Unit :=
    ⟨p₂.world, Function.update p₂.threads true (some ⟨p₂.world, (novaClient true).program⟩)⟩
  have h₃ : clientStep novaClient p₂ (.begin true) = some p₃ := by
    simp [clientStep, Pool.step, hidle, p₃]
  have hmatch : Glob.globMatch backend.pattern heldLock.name = true :=
    (RedisCacheBackend.globMatch_pattern _).mpr (by show cacheStem _ <+: _; decide)
  have hexec : p₃.world.server.execute page (.scan 0 backend.pattern) =
      some (.ok page, p₂.world.server) := by
    simp [RedisServer.execute, page, p₃, hlive, hmatch]
  have ht₃ : p₃.threads true =
      some ⟨p₂.world, .step (.command (.scan 0 backend.pattern)) k₁⟩ := by
    simp [p₃, hscan]
  have h₄ := clientStep_command novaClient ht₃ hexec
  let p₄ : RedisPool Bool Unit := ⟨p₂.world.issue true (.scan 0 backend.pattern)
    (some (.ok page)) p₂.world.server,
      Function.update p₃.threads true (some ⟨p₂.world, k₁ (.ok page)⟩)⟩
  have ht₄ : p₄.threads true =
      some ⟨p₂.world, .step (.command (.delete [heldLock.name])) k₂⟩ := by
    simp [p₄, hdelete]
  have hexec₄ : p₄.world.server.execute (0, []) (.delete [heldLock.name]) =
      some (.ok ([heldLock.name].dedup.filter fun key ↦ (p₂.world.server.live key).isSome).length,
        p₂.world.server.remove [heldLock.name]) := rfl
  have h₅ := clientStep_command novaClient ht₄ hexec₄
  refine ⟨_, .move _ (.move _ (.move _ (.move _ (.move _ .start trivial h₁) trivial h₂) trivial h₃)
    trivial h₄) trivial h₅, ?_, ?_, ?_, ?_⟩
  · have hsame : ∀ w th th', Pool.outcome (⟨w, Function.update (Function.update p₃.threads true th)
        true th'⟩ : RedisPool Bool Unit) false = p₂.outcome false := by
      intro w th th'
      simp [Pool.outcome, p₃]
    exact (hsame _ _ _).trans hdone
  · simp [RedisWorld.issue, p₄, hlog, RedisEvent.granted]
  · exact hnow
  · simp [RedisWorld.issue, RedisServer.live, RedisServer.remove]

end Converse

end DjangoNova
