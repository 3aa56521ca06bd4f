import Mathlib.Tactic.Linarith
import DjangoNova.Redis.Server

/-!
# The replica router

`using_replica` sets a flag of its thread, the router reads it together
with the replication lag, and the lag tracker caches what a monitor has
stored in Redis. The clock of the process and the one of the server agree.
-/

namespace DjangoNova

/-- A `float` of milliseconds. -/
inductive Lag where
  | finite (ms : ℚ)
  | infinity
  | negInfinity
  | nan
  deriving DecidableEq

namespace Lag

/-- `lag <= bound` -/
def le : Lag → ℤ → Bool
  | .finite ms, bound => ms ≤ bound
  | .negInfinity, _ => true
  | .infinity, _ | .nan, _ => false

/-- `lag > bound` -/
def gt : Lag → ℤ → Bool
  | .finite ms, bound => bound < ms
  | .infinity, _ => true
  | .negInfinity, _ | .nan, _ => false

theorem le_of_gt {lag : Lag} {bound : ℤ} (h : lag.gt bound = true) : lag.le bound = false := by
  cases lag with
  | finite ms => simpa [gt, le] using h
  | infinity => rfl
  | negInfinity => cases h
  | nan => cases h

end Lag

/-- The settings of the router, with `str` and `float` on lags. -/
structure ReplicaSettings where
  replicaDbAlias : Str
  replicaMaxLagMs : ℤ
  replicaLagCheckIntervalMs : ℕ
  str : Lag → Str
  /-- `none` for a `ValueError` -/
  float : Str → Option Lag

/-- The flags of the threads `T`, the lag tracker of the process and the server. -/
structure RouterState (T : Type) where
  useReplica : T → Bool
  lagMs : Lag
  lastCheckTs : ℚ
  server : RedisServer

/-- A call of Redis raises or returns; `stored` tells whether the report
took effect, and `answers` whether a refresh of the read would return. -/
inductive RouterEvent (T : Type) where
  /-- the entry of a `using_replica` block -/
  | enter (t : T)
  | exit (t : T) (raised : Bool)
  | write (t : T)
  | read (t : T) (answers : Bool)
  | report (lag : Lag) (stored : Bool)
  | tick (d : ℚ)

namespace Router

variable {T : Type}

def lagKey : Str := "nova:replica_lag".toList

section Code

variable (settings : ReplicaSettings)

/-- `time.monotonic()`, in seconds -/
def monotonic (s : RouterState T) : ℚ := s.server.now / 1000

def intervalSec : ℚ := settings.replicaLagCheckIntervalMs / 1000

/-- `_fetch_lag_from_redis` -/
def fetchLagFromRedis (answers : Bool) (s : RouterState T) : Lag :=
  if answers then
    match s.server.execute (0, []) (.get lagKey) with
    | some (.ok none, _) => .finite 0
    | some (.ok (some text), _) => (settings.float text).getD .infinity
    | _ => .infinity
  else .infinity

/-- `get_lag` -/
def getLag (answers : Bool) (s : RouterState T) : RouterState T :=
  if intervalSec settings ≤ monotonic s - s.lastCheckTs then
    { s with lastCheckTs := monotonic s, lagMs := fetchLagFromRedis settings answers s }
  else s

/-- `is_healthy` -/
def isHealthy (answers : Bool) (s : RouterState T) : Bool :=
  (getLag settings answers s).lagMs.le settings.replicaMaxLagMs

/-- The time to live of a report, in seconds. -/
def reportTtl : ℕ := max 2 (settings.replicaLagCheckIntervalMs / 1000 + 1)

/-- `report_replica_lag` -/
def reportReplicaLag (lag : Lag) (stored : Bool) (s : RouterState T) : RouterState T :=
  if stored then
    match s.server.execute (0, []) (.set lagKey (settings.str lag) false
        (some (1000 * (reportTtl settings : ℤ)))) with
    | some (_, server) => { s with server := server }
    | none => s
  else s

/-- `db_for_read` -/
def dbForRead (t : T) (answers : Bool) (s : RouterState T) : Option Str × RouterState T :=
  if s.useReplica t then
    (if isHealthy settings answers s then some settings.replicaDbAlias else none,
      getLag settings answers s)
  else (none, s)

variable [DecidableEq T]

/-- `set_read_from_replica` -/
def setReadFromReplica (t : T) (s : RouterState T) : RouterState T :=
  { s with useReplica := Function.update s.useReplica t true }

/-- `clear_replica_state` -/
def clearReplicaState (t : T) (s : RouterState T) : RouterState T :=
  { s with useReplica := Function.update s.useReplica t false }

/-- `db_for_write` -/
def dbForWrite (t : T) (s : RouterState T) : Option Str × RouterState T :=
  (none, clearReplicaState t s)

def step (s : RouterState T) : RouterEvent T → RouterState T
  | .enter t => setReadFromReplica t s
  | .exit t _ => clearReplicaState t s
  | .write t => (dbForWrite t s).2
  | .read t answers => (dbForRead settings t answers s).2
  | .report lag stored => reportReplicaLag settings lag stored s
  | .tick d => { s with server := { s.server with now := s.server.now + max 0 d } }

def run (s : RouterState T) (events : List (RouterEvent T)) : RouterState T :=
  events.foldl (step settings) s

end Code

/-- A process in which nothing was routed yet. -/
def start (server : RedisServer) : RouterState T := ⟨fun _ ↦ false, .finite 0, 0, server⟩

section Flags

variable {settings : ReplicaSettings} {t t' : T} (s : RouterState T)

@[simp] theorem useReplica_getLag (answers : Bool) :
    (getLag settings answers s).useReplica = s.useReplica := by
  unfold getLag
  split <;> rfl

@[simp] theorem useReplica_dbForRead (t : T) (answers : Bool) :
    (dbForRead settings t answers s).2.useReplica = s.useReplica := by
  unfold dbForRead
  split
  · exact useReplica_getLag s answers
  · rfl

@[simp] theorem useReplica_reportReplicaLag (lag : Lag) (stored : Bool) :
    (reportReplicaLag settings lag stored s).useReplica = s.useReplica := by
  unfold reportReplicaLag
  split
  · split <;> rfl
  · rfl

variable [DecidableEq T]

@[simp] theorem setReadFromReplica_self : (setReadFromReplica t s).useReplica t = true := by
  simp [setReadFromReplica]

@[simp] theorem setReadFromReplica_of_ne (h : t ≠ t') :
    (setReadFromReplica t' s).useReplica t = s.useReplica t := by
  simp [setReadFromReplica, h]

@[simp] theorem clearReplicaState_self : (clearReplicaState t s).useReplica t = false := by
  simp [clearReplicaState]

@[simp] theorem clearReplicaState_of_ne (h : t ≠ t') :
    (clearReplicaState t' s).useReplica t = s.useReplica t := by
  simp [clearReplicaState, h]

end Flags

section Nesting

variable [DecidableEq T] (t : T)

/-- The positions at which the open blocks of a thread were entered, the
innermost block first. Of the events the last one comes first. -/
def openBlocks : List (RouterEvent T) → List ℕ
  | [] => []
  | .enter t' :: past => if t' = t then past.length :: openBlocks past else openBlocks past
  | .exit t' _ :: past => if t' = t then (openBlocks past).tail else openBlocks past
  | .write _ :: past | .read _ _ :: past | .report _ _ :: past | .tick _ :: past => openBlocks past

/-- The position of the most recent write of a thread. -/
def lastWrite : List (RouterEvent T) → Option ℕ
  | [] => none
  | .write t' :: past => if t' = t then some past.length else lastWrite past
  | .enter _ :: past | .exit _ _ :: past | .read _ _ :: past | .report _ _ :: past
  | .tick _ :: past => lastWrite past

/-- Some block is still open that was entered after the most recent write. -/
def OpenSinceWrite (past : List (RouterEvent T)) : Prop :=
  ∃ i ∈ openBlocks t past, ∀ j ∈ lastWrite t past, j < i

/-- The thread has left a block, and has neither entered one nor written since. -/
def LeftBlock : List (RouterEvent T) → Prop
  | [] => False
  | .exit t' _ :: past => t' = t ∨ LeftBlock past
  | .enter t' :: past | .write t' :: past => t' ≠ t ∧ LeftBlock past
  | .read _ _ :: past | .report _ _ :: past | .tick _ :: past => LeftBlock past

/-- With a healthy tracker every read of the thread is routed by its blocks. -/
def FollowsNesting (settings : ReplicaSettings) (server : RedisServer)
    (events : List (RouterEvent T)) :
    Prop :=
  ∀ before answers after, events = before ++ .read t answers :: after →
    isHealthy settings answers (run settings (start server) before) = true →
      ((dbForRead settings t answers (run settings (start server) before)).1 =
          some settings.replicaDbAlias ↔ OpenSinceWrite t before.reverse)

variable {t} {settings : ReplicaSettings} {server : RedisServer} {past : List (RouterEvent T)}

theorem openBlocks_lt {i : ℕ} (h : i ∈ openBlocks t past) : i < past.length := by
  induction past with
  | nil => exact absurd h List.not_mem_nil
  | cons e past ih =>
      rw [List.length_cons]
      cases e with
      | enter t' =>
          simp only [openBlocks] at h
          split at h
          · rcases List.mem_cons.mp h with rfl | h
            · omega
            · exact (ih h).trans (Nat.lt_succ_self _)
          · exact (ih h).trans (Nat.lt_succ_self _)
      | exit t' raised =>
          simp only [openBlocks] at h
          split at h
          · exact (ih (List.mem_of_mem_tail h)).trans (Nat.lt_succ_self _)
          · exact (ih h).trans (Nat.lt_succ_self _)
      | write t' => exact (ih h).trans (Nat.lt_succ_self _)
      | read t' answers => exact (ih h).trans (Nat.lt_succ_self _)
      | report lag stored => exact (ih h).trans (Nat.lt_succ_self _)
      | tick d => exact (ih h).trans (Nat.lt_succ_self _)

theorem lastWrite_lt {j : ℕ} (h : j ∈ lastWrite t past) : j < past.length := by
  induction past with
  | nil => cases h
  | cons e past ih =>
      rw [List.length_cons]
      cases e with
      | write t' =>
          simp only [lastWrite] at h
          split at h
          · cases h
            omega
          · exact (ih h).trans (Nat.lt_succ_self _)
      | enter t' => exact (ih h).trans (Nat.lt_succ_self _)
      | exit t' raised => exact (ih h).trans (Nat.lt_succ_self _)
      | read t' answers => exact (ih h).trans (Nat.lt_succ_self _)
      | report lag stored => exact (ih h).trans (Nat.lt_succ_self _)
      | tick d => exact (ih h).trans (Nat.lt_succ_self _)

theorem openSinceWrite_enter (past : List (RouterEvent T)) :
    OpenSinceWrite t (.enter t :: past) :=
  ⟨past.length, by simp [openBlocks], fun _ (hj : _ ∈ lastWrite t past) ↦ lastWrite_lt hj⟩

theorem not_openSinceWrite_write (past : List (RouterEvent T)) :
    ¬OpenSinceWrite t (.write t :: past) := by
  rintro ⟨i, hi, hwrite⟩
  have hlt : i < past.length := openBlocks_lt hi
  have hlast := hwrite past.length (by simp [lastWrite])
  omega

theorem run_cons (s : RouterState T) (e : RouterEvent T) (past : List (RouterEvent T)) :
    run settings s (e :: past).reverse = step settings (run settings s past.reverse) e := by
  simp [run, List.foldl_append]

/-- The flag says that a block is open since the last write, except that it
is lost when a block is left. -/
theorem useReplica_run (past : List (RouterEvent T)) :
    ((run settings (start server) past.reverse).useReplica t = true ∧ OpenSinceWrite t past ∧
        ¬LeftBlock t past) ∨
      (run settings (start server) past.reverse).useReplica t = false ∧
        (LeftBlock t past ∨ ¬OpenSinceWrite t past) := by
  induction past with
  | nil => exact .inr ⟨rfl, .inr (by simp [OpenSinceWrite, openBlocks])⟩
  | cons e past ih =>
      rw [run_cons]
      cases e with
      | enter t' =>
          by_cases ht : t' = t
          · subst ht
            exact .inl ⟨setReadFromReplica_self _, openSinceWrite_enter past, by simp [LeftBlock]⟩
          · simpa [step, Ne.symm ht, OpenSinceWrite, openBlocks, lastWrite, LeftBlock, ht] using ih
      | exit t' raised =>
          by_cases ht : t' = t
          · subst ht
            exact .inr ⟨clearReplicaState_self _, .inl (.inl rfl)⟩
          · simpa [step, Ne.symm ht, OpenSinceWrite, openBlocks, lastWrite, LeftBlock, ht] using ih
      | write t' =>
          by_cases ht : t' = t
          · subst ht
            exact .inr ⟨clearReplicaState_self _, .inr (not_openSinceWrite_write past)⟩
          · simpa [step, dbForWrite, Ne.symm ht, OpenSinceWrite, openBlocks, lastWrite, LeftBlock,
              ht]
              using ih
      | read t' answers => simpa [step, OpenSinceWrite, openBlocks, lastWrite, LeftBlock] using ih
      | report lag stored => simpa [step, OpenSinceWrite, openBlocks, lastWrite, LeftBlock] using ih
      | tick d => exact ih

/-- Reads follow the blocks of a thread exactly if none of them comes after
the exit of a block while another one is open since the last write. -/
theorem replica_routing (settings : ReplicaSettings) (server : RedisServer) (t : T)
    (events : List (RouterEvent T)) :
    FollowsNesting t settings server events ↔
      ∀ before answers after, events = before ++ .read t answers :: after →
        isHealthy settings answers (run settings (start server) before) = true →
          LeftBlock t before.reverse → ¬OpenSinceWrite t before.reverse := by
  refine forall_congr' fun before ↦ forall_congr' fun answers ↦ forall_congr' fun after ↦
    imp_congr_right fun _ ↦ imp_congr_right fun hhealthy ↦ ?_
  have hflag := @useReplica_run T _ t settings server before.reverse
  rw [List.reverse_reverse] at hflag
  unfold dbForRead
  rcases hflag with ⟨hflag, hopen, hleft⟩ | ⟨hflag, hlost⟩
  · simp [hflag, hhealthy, hopen, hleft]
  · simp only [hflag, Bool.false_eq_true, if_false, false_iff, reduceCtorEq]
    exact ⟨fun h _ ↦ h, fun h ↦ hlost.elim h id⟩

end Nesting

section FailSafe

section Statement

variable [DecidableEq T]

/-- After the first events a lag above the bound is stored, and in the later
ones no lag at most the bound is; the texts of the stored lags are read
back as the same lags, and the clock is not negative. -/
structure KnownLagging (settings : ReplicaSettings) (server : RedisServer) (lag : Lag)
    (after : List (RouterEvent T)) : Prop where
  clock : 0 ≤ server.now
  above : lag.gt settings.replicaMaxLagMs = true
  later : ∀ lag', .report lag' true ∈ after → lag'.le settings.replicaMaxLagMs = false
  text : ∀ lag', lag' = lag ∨ .report lag' true ∈ after →
    settings.float (settings.str lag') = some lag'

/-- The report and all that happened until the read. -/
def lagRun (settings : ReplicaSettings) (server : RedisServer) (before : List (RouterEvent T))
    (lag : Lag)
    (after : List (RouterEvent T)) : RouterState T :=
  run settings (reportReplicaLag settings lag true (run settings (start server) before)) after

/-- No read at least one check interval after the report uses the replica. -/
def LagFailsSafe (T : Type) [DecidableEq T] (settings : ReplicaSettings) : Prop :=
  ∀ (server : RedisServer) (before : List (RouterEvent T)) (lag : Lag)
    (after : List (RouterEvent T))
    (t : T) (answers : Bool), KnownLagging settings server lag after →
      monotonic (run settings (start server) before) + intervalSec settings ≤
          monotonic (lagRun settings server before lag after) →
        (dbForRead settings t answers (lagRun settings server before lag after)).1 ≠
          some settings.replicaDbAlias

end Statement

variable {settings : ReplicaSettings} {s : RouterState T} {since : ℚ}

/-- The lag key has a lag that is not acceptable, and so has the cache if it
was refreshed after some instant. -/
structure Lagging (settings : ReplicaSettings) (since : ℚ) (s : RouterState T) : Prop where
  stored : ∃ text deadline lag, s.server.entries lagKey = some ⟨.string text, deadline⟩ ∧
    settings.float text = some lag ∧ lag.le settings.replicaMaxLagMs = false
  cached : since < s.lastCheckTs → s.lagMs.le settings.replicaMaxLagMs = false

theorem reportReplicaLag_stored (lag : Lag) (s : RouterState T) :
    reportReplicaLag settings lag true s = { s with
      server := s.server.put lagKey ⟨.string (settings.str lag),
        some (s.server.now + (1000 * (reportTtl settings : ℤ) : ℤ))⟩ } := by
  have hpositive : ¬1000 * (reportTtl settings : ℤ) ≤ 0 := by
    unfold reportTtl
    omega
  simp [reportReplicaLag, RedisServer.execute, hpositive]

theorem Lagging.report {lag : Lag} (hsince : s.lastCheckTs ≤ since ∨ Lagging settings since s)
    (hlag : lag.le settings.replicaMaxLagMs = false)
    (htext : settings.float (settings.str lag) = some lag) :
    Lagging settings since (reportReplicaLag settings lag true s) := by
  rw [reportReplicaLag_stored]
  refine ⟨⟨_, _, lag, RedisServer.put_entries_self, htext, hlag⟩, fun hlast ↦ ?_⟩
  rcases hsince with hle | h
  · exact absurd hlast (not_lt.mpr hle)
  · exact h.cached hlast

/-- While the key has not expired, a refresh finds no acceptable lag. -/
theorem Lagging.fetch (h : Lagging settings since s) (hlive : s.server.live lagKey ≠ none)
    (answers : Bool) :
    (fetchLagFromRedis settings answers s).le settings.replicaMaxLagMs = false := by
  obtain ⟨text, deadline, lag, hentry, htext, hlag⟩ := h.stored
  have hget : s.server.live lagKey = some ⟨.string text, deadline⟩ := by
    obtain ⟨e, he⟩ := Option.ne_none_iff_exists'.mp hlive
    obtain rfl := Option.some.inj (hentry.symm.trans (Option.filter_eq_some_iff.mp he).1)
    exact he
  cases answers with
  | false => rfl
  | true => simpa [fetchLagFromRedis, RedisServer.execute, hget, htext] using hlag

theorem Lagging.refresh (h : Lagging settings since s) (hlive : s.server.live lagKey ≠ none)
    (answers : Bool) : Lagging settings since (getLag settings answers s) := by
  unfold getLag
  split
  · exact ⟨h.stored, fun _ ↦ h.fetch hlive answers⟩
  · exact h

theorem Lagging.not_healthy (h : Lagging settings since s) (hlive : s.server.live lagKey ≠ none)
    (hinterval : since + intervalSec settings ≤ monotonic s) (answers : Bool) :
    isHealthy settings answers s = false := by
  unfold isHealthy getLag
  split
  · exact h.fetch hlive answers
  next hfresh => exact h.cached (by linarith)

variable [DecidableEq T]

/-- One step keeps a known lag known, unless the key expires or an acceptable
lag is reported. -/
theorem Lagging.step (h : Lagging settings since s) (hlive : s.server.live lagKey ≠ none)
    (e : RouterEvent T)
    (hreport : ∀ lag, e = .report lag true → lag.le settings.replicaMaxLagMs = false ∧
      settings.float (settings.str lag) = some lag) :
    Lagging settings since (step settings s e) := by
  cases e with
  | enter t => exact ⟨h.stored, h.cached⟩
  | exit t raised => exact ⟨h.stored, h.cached⟩
  | write t => exact ⟨h.stored, h.cached⟩
  | tick d => exact ⟨h.stored, h.cached⟩
  | read t answers =>
      simp only [Router.step, dbForRead]
      split
      · exact h.refresh hlive answers
      · exact h
  | report lag stored =>
      cases stored with
      | false => exact h
      | true =>
          obtain ⟨hlag, htext⟩ := hreport lag rfl
          exact .report (.inr h) hlag htext

theorem Lagging.run {after : List (RouterEvent T)} (h : Lagging settings since s)
    (hlive : ∀ past, past <+: after → (run settings s past).server.live lagKey ≠ none)
    (hreport : ∀ lag, .report lag true ∈ after → lag.le settings.replicaMaxLagMs = false ∧
      settings.float (settings.str lag) = some lag) :
    Lagging settings since (run settings s after) := by
  induction after generalizing s with
  | nil => exact h
  | cons e after ih =>
      refine ih (h.step (hlive [] List.nil_prefix) e fun lag he ↦ hreport lag ?_) ?_ ?_
      · exact he ▸ List.mem_cons_self
      · exact fun past hpast ↦ hlive (e :: past) ((List.prefix_cons_inj e).mpr hpast)
      · exact fun lag hlag ↦ hreport lag (List.mem_cons_of_mem _ hlag)

/-- The tracker was never refreshed in the future. -/
theorem lastCheckTs_le (events : List (RouterEvent T)) (h : s.lastCheckTs ≤ monotonic s) :
    (run settings s events).lastCheckTs ≤ monotonic (run settings s events) := by
  induction events generalizing s with
  | nil => exact h
  | cons e events ih =>
      refine ih ?_
      cases e with
      | enter t => exact h
      | exit t raised => exact h
      | write t => exact h
      | tick d =>
          have hd : 0 ≤ max 0 d := le_max_left 0 d
          have hnow : s.lastCheckTs ≤ s.server.now / 1000 := h
          show s.lastCheckTs ≤ (s.server.now + max 0 d) / 1000
          linarith
      | read t answers =>
          have hrefresh : (getLag settings answers s).lastCheckTs ≤
              monotonic (getLag settings answers s) := by
            unfold getLag
            split
            · exact le_refl (monotonic s)
            · exact h
          simp only [Router.step, dbForRead]
          split
          · exact hrefresh
          · exact h
      | report lag stored =>
          cases stored with
          | false => exact h
          | true =>
              simp only [Router.step, reportReplicaLag_stored]
              exact h

/-- A replica that is known to lag is not used one check interval later,
until an acceptable lag is stored or the stored one expires. -/
theorem replica_lag_fails_safe (server : RedisServer) (before : List (RouterEvent T)) (lag : Lag)
    (after : List (RouterEvent T)) (t : T) (answers : Bool)
    (hlagging : KnownLagging settings server lag after)
    (hlive : ∀ past, past <+: after →
      (lagRun settings server before lag past).server.live lagKey ≠ none)
    (hinterval : monotonic (run settings (start server) before) + intervalSec settings ≤
      monotonic (lagRun settings server before lag after)) :
    (dbForRead settings t answers (lagRun settings server before lag after)).1 ≠
      some settings.replicaDbAlias := by
  have hpast : (run settings (start server : RouterState T) before).lastCheckTs ≤
      monotonic (run settings (start server : RouterState T) before) :=
    lastCheckTs_le before (div_nonneg hlagging.clock (by norm_num))
  have hreported : Lagging settings (monotonic (run settings (start server : RouterState T) before))
      (reportReplicaLag settings lag true (run settings (start server) before)) :=
    .report (.inl hpast) (Lag.le_of_gt hlagging.above) (hlagging.text lag (.inl rfl))
  have hread := hreported.run hlive fun lag' hlag' ↦
    ⟨hlagging.later lag' hlag', hlagging.text lag' (.inr hlag')⟩
  have hunhealthy := hread.not_healthy (hlive after List.prefix_rfl) hinterval answers
  unfold lagRun dbForRead
  split
  · simp [hunhealthy]
  · simp

end FailSafe

section Sample

/-- The default settings, and a monitor that reports ten seconds. -/
def defaultSettings : ReplicaSettings where
  replicaDbAlias := "replica".toList
  replicaMaxLagMs := 500
  replicaLagCheckIntervalMs := 1000
  str _ := "10000.0".toList
  float text := if text = "10000.0".toList then some (.finite 10000) else none

def freshServer : RedisServer := ⟨5000, fun _ ↦ none⟩

theorem knownLagging_default {after : List (RouterEvent Unit)}
    (hafter : ∀ lag, .report lag true ∉ after) :
    KnownLagging defaultSettings freshServer (.finite 10000) after := by
  refine ⟨by decide +kernel, by decide +kernel, fun lag hlag ↦ absurd hlag (hafter lag), ?_⟩
  rintro lag (rfl | hlag)
  · rfl
  · exact absurd hlag (hafter lag)

/-- A read after the inner of two blocks goes to the primary database. -/
theorem replica_routing_fails : ¬FollowsNesting () defaultSettings freshServer
    [.enter (), .enter (), .exit () false, .read () true] := by
  intro h
  have hopen : OpenSinceWrite () [.exit () false, .enter (), .enter ()] :=
    ⟨0, by decide, by simp [lastWrite]⟩
  have hread := (h [.enter (), .enter (), .exit () false] true [] rfl (by decide +kernel)).mpr hopen
  revert hread
  decide +kernel

theorem replica_lag_fails_safe_sample :
    (dbForRead defaultSettings () true (lagRun defaultSettings freshServer [.enter ()]
      (.finite 10000) [.tick 1000])).1 ≠ some defaultSettings.replicaDbAlias := by
  refine replica_lag_fails_safe freshServer [.enter ()] (.finite 10000) [.tick 1000] () true
    (knownLagging_default (by simp)) ?_ (by decide +kernel)
  intro past hpast
  rcases List.prefix_cons_iff.mp hpast with rfl | ⟨rest, rfl, hrest⟩
  · exact Option.ne_none_iff_isSome.mpr (by decide +kernel)
  · obtain rfl := List.prefix_nil.mp hrest
    exact Option.ne_none_iff_isSome.mpr (by decide +kernel)

/-- Three seconds after the report the key has expired, and a missing lag is
no lag. -/
theorem replica_lag_fails : ¬LagFailsSafe Unit defaultSettings := by
  intro h
  refine h freshServer [.enter ()] (.finite 10000) [.tick 3000] () true
    (knownLagging_default (by simp)) (by decide +kernel) ?_
  decide +kernel

end Sample

end Router

end DjangoNova
