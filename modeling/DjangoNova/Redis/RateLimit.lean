import Mathlib.Data.List.Nodup
import Mathlib.Data.List.Perm.Subperm
import Mathlib.Tactic.Linarith
import DjangoNova.Redis.Server

/-!
# The sliding-window rate limiter

A call reads the clock and then has the script executed with that reading,
so the scripts of several clients may run in an order that is not the one
of their timestamps. The bound of a window survives as long as no script
runs after the sorted set has lost a request that is less than a window
away from it.
-/

namespace DjangoNova

/-- A call of `check_rate_limit`, or of its async sibling, with the UUID
that it generates. -/
structure RateLimitCall where
  key : Str
  limit : ℤ
  windowSecs : ℤ
  requestId : Str

namespace RateLimitCall

def rateLimitPrefix : Str := "nova:rl:".toList

variable (c : RateLimitCall)

def fullKey : Str := rateLimitPrefix ++ c.key

def script (now : ℚ) : RedisCommand :=
  .slidingWindow c.fullKey c.windowSecs c.limit now c.requestId

/-- The rest of the call after the clock was read. -/
def attempt (now : ℚ) : RedisProgram Bool := do
  let allowed : Bool ← redis (c.script now)
  if allowed then return true
  else .throw (.novaRateLimit c.limit c.windowSecs)

def checkRateLimit : RedisProgram Bool := do
  let now ← clock
  c.attempt now

/-- After the script the call ends. -/
theorem attempt_step (now : ℚ) : ∃ k, c.attempt now = .step (.command (c.script now)) k ∧
    ∀ r, ∃ v, k r = .done v := by
  refine ⟨_, rfl, fun r ↦ ?_⟩
  rcases r with x | _ | _
  all_goals exact ⟨_, rfl⟩

end RateLimitCall

/-- An allowed request on a key: its identifier and its timestamp. -/
def RedisEvent.allowedOn {T : Type} (key : Str) : RedisEvent T → Option (Str × ℚ)
  | ⟨_, _, .slidingWindow k _ _ now requestId, some (.ok true)⟩ =>
      if k = key then some (requestId, now) else none
  | _ => none

/-- The allowed requests on a key, in the order of their execution. -/
def RedisWorld.allowed {T : Type} (w : RedisWorld T) (key : Str) : List (Str × ℚ) :=
  w.log.filterMap (RedisEvent.allowedOn key)

/-- The members of a sorted set; none when the key is absent. -/
def RedisServer.members (s : RedisServer) (key : Str) : List (Str × ℚ) :=
  match s.live key with
  | some ⟨.sortedSet members, _⟩ => members
  | _ => []

/-- The requests of the window that ends at `t`. -/
def inWindow (window : ℚ) (t : ℚ) (requests : List (Str × ℚ)) : List (Str × ℚ) :=
  requests.filter fun x ↦ t - window < x.2 && x.2 ≤ t

/-- The sorted set still has the allowed requests that are less than a
window away from the timestamp of the script. -/
def Remembered (T : Type) (key : Str) (window : ℤ) (_ : T) (e : RedisEffect) (_ : RedisChoice)
    (w : RedisWorld T) : Prop :=
  match e with
  | .command (.slidingWindow k _ _ now _) => k = key →
      ∀ x ∈ w.allowed key, now - window < x.2 → x.2 < now + window →
        x ∈ w.server.members key
  | _ => True

instance {T : Type} (key : Str) (window : ℤ) (t : T) (c : RedisChoice) (w : RedisWorld T) :
    ∀ e, Decidable (Remembered T key window t e c w)
  | .command (.slidingWindow k _ _ _ _) =>
      inferInstanceAs (Decidable (k = key → ∀ x ∈ w.allowed key, _ → _ → _))
  | .command (.get _) | .command (.mget _) | .command (.set _ _ _ _) | .command (.delete _)
  | .command (.scan _ _) | .command (.unlock _ _) | .clock | .deadlinePassed => .isTrue trivial

namespace RedisServer

variable {s s' : RedisServer} {page : ℕ × List Str} {c : RateLimitCall} {now : ℚ}

theorem mem_prune {members : List (Str × ℚ)} {bound : ℚ} {x : Str × ℚ} :
    x ∈ prune members bound ↔ x ∈ members ∧ (0 ≤ x.2 → bound < x.2) := by
  simp [prune, imp_iff_not_or]

/-- The script allows a request when fewer than `limit` members are left
after the pruning. -/
theorem slideWindow_allowed {key : Str} {members : List (Str × ℚ)} {deadline : Option ℚ}
    {window limit : ℤ} {requestId : Str}
    (h : (s.slideWindow key members deadline window limit now requestId).1 = true) :
    ((prune members (now - window)).length : ℤ) < limit := by
  unfold slideWindow at h
  dsimp only at h
  split at h
  · assumption
  · split at h <;> cases h

theorem execute_script {r : Except RedisError Bool}
    (h : s.execute page (c.script now) = some (r, s')) (hr : r = .ok true) :
    ((prune (s.members c.fullKey) (now - c.windowSecs)).length : ℤ) < c.limit := by
  simp only [RateLimitCall.script, execute] at h
  unfold members
  split at h
  · rename_i hlive
    obtain ⟨rfl, -⟩ := Prod.mk.inj (Option.some.inj h)
    rw [hlive]
    exact slideWindow_allowed (Except.ok.inj hr)
  · rename_i members deadline hlive
    obtain ⟨rfl, -⟩ := Prod.mk.inj (Option.some.inj h)
    rw [hlive]
    exact slideWindow_allowed (Except.ok.inj hr)
  · obtain ⟨rfl, -⟩ := Prod.mk.inj (Option.some.inj h)
    cases hr

end RedisServer

section Window

variable {window : ℚ} {requests members : List (Str × ℚ)} {x : Str × ℚ} {limit : ℤ}

/-- Appending a request within a window of which all requests are members
that survive the pruning. -/
theorem inWindow_append (hnodup : requests.Nodup)
    (hmembers : ∀ y ∈ requests, x.2 - window < y.2 → y.2 < x.2 + window → y ∈ members)
    (hcount : ((RedisServer.prune members (x.2 - window)).length : ℤ) < limit)
    (hbound : ∀ t, ((inWindow window t requests).length : ℤ) ≤ limit) (t : ℚ) :
    ((inWindow window t (requests ++ [x])).length : ℤ) ≤ limit := by
  have happend : inWindow window t (requests ++ [x]) =
      inWindow window t requests ++ inWindow window t [x] := List.filter_append ..
  by_cases hx : t - window < x.2 ∧ x.2 ≤ t
  · have hsubset : inWindow window t requests ⊆ RedisServer.prune members (x.2 - window) := by
      intro y hy
      simp only [inWindow, List.mem_filter, Bool.and_eq_true, decide_eq_true_eq] at hy
      obtain ⟨hmem, hlow, hhigh⟩ := hy
      have hafter : x.2 - window < y.2 := by linarith
      have hbefore : y.2 < x.2 + window := by linarith
      exact RedisServer.mem_prune.mpr ⟨hmembers y hmem hafter hbefore, fun _ ↦ hafter⟩
    have hle := (List.subperm_of_subset (hnodup.filter _) hsubset).length_le
    have hone : (inWindow window t [x]).length = 1 := by simp [inWindow, hx]
    have hle' : (inWindow window t requests).length ≤
      (RedisServer.prune members (x.2 - window)).length := hle
    rw [happend, List.length_append, hone]
    omega
  · have hnone : inWindow window t [x] = [] := by
      simpa [inWindow] using hx
    rw [happend, hnone, List.append_nil]
    exact hbound t

end Window

section RateLimit

variable {T : Type} (c : T → RateLimitCall)

/-- The thread has executed no script yet. -/
def Unexecuted (w : RedisWorld T) (t : T) : Prop := ∀ e ∈ w.log, e.thread ≠ t

/-- A call that has not executed its script yet, or one that has ended. -/
def CallPhase (w : RedisWorld T) (t : T) (code : RedisProgram Bool) : Prop :=
  (Unexecuted w t ∧ (code = (c t).checkRateLimit ∨ ∃ now, code = (c t).attempt now)) ∨
    ∃ v, code = .done v

/-- Each thread executed its own script once, and every window has at most
`limit` allowed requests. -/
structure Bounded (key : Str) (limit window : ℤ) (w : RedisWorld T) : Prop where
  own : ∀ e ∈ w.log, ∃ now, e.command = (c e.thread).script now
  once : (w.log.map RedisEvent.thread).Nodup
  bound : ∀ t, ((inWindow window t (w.allowed key)).length : ℤ) ≤ limit

variable {c} {w : RedisWorld T} {key : Str} {limit window : ℤ}

/-- An allowed request of the log has the identifier of its thread. -/
theorem allowedOn_eq {e : RedisEvent T} {now : ℚ} (hown : e.command = (c e.thread).script now)
    {x : Str × ℚ} (h : e.allowedOn key = some x) :
    x = ((c e.thread).requestId, now) ∧ (c e.thread).fullKey = key := by
  obtain ⟨t, time, command, executed⟩ := e
  obtain rfl : command = (c t).script now := hown
  unfold RedisEvent.allowedOn at h
  split at h
  · rename_i heq
    cases heq
    obtain ⟨hkey, hx⟩ := Option.ite_none_right_eq_some.mp h
    exact ⟨(Option.some.inj hx).symm, hkey⟩
  · cases h

theorem Bounded.nodup (hids : Function.Injective fun t ↦ (c t).requestId)
    (h : Bounded c key limit window w) : (w.allowed key).Nodup := by
  have honce : w.log.Pairwise fun e f ↦ e.thread ≠ f.thread := List.pairwise_map.mp h.once
  apply List.pairwise_filterMap.mpr
  refine honce.imp_of_mem fun {e f} he hf hne x hx y hy hxy ↦ ?_
  obtain ⟨now, hown⟩ := h.own e he
  obtain ⟨now', hown'⟩ := h.own f hf
  have hex := (allowedOn_eq hown hx).1
  have hfy := (allowedOn_eq hown' hy).1
  have hid : (c e.thread).requestId = (c f.thread).requestId := by
    have heq := hex.symm.trans (hxy.trans hfy)
    exact (Prod.mk.inj heq).1
  exact hne (hids hid)

/-- One executed script keeps the bound when the set has forgotten nothing
within a window. -/
theorem Bounded.issue (hids : Function.Injective fun t ↦ (c t).requestId)
    (hcalls : ∀ t, (c t).fullKey = key → (c t).limit = limit ∧ (c t).windowSecs = window)
    (h : Bounded c key limit window w) {t : T} (ht : Unexecuted w t) {now : ℚ}
    (hmembers : (c t).fullKey = key → ∀ x ∈ w.allowed key, now - window < x.2 →
      x.2 < now + window → x ∈ w.server.members key)
    {executed : Option (Except RedisError Bool)} {s' : RedisServer}
    (hexec : ∀ r, executed = some r →
      ∃ page, w.server.execute page ((c t).script now) = some (r, s')) :
    Bounded c key limit window (w.issue t ((c t).script now) executed s') := by
  constructor
  · intro e he
    rcases List.mem_append.mp he with he | he
    · exact h.own e he
    · obtain rfl := List.mem_singleton.mp he
      exact ⟨now, rfl⟩
  · have hnew : t ∉ w.log.map RedisEvent.thread := by
      intro hmem
      obtain ⟨e, he, het⟩ := List.mem_map.mp hmem
      exact ht e he het
    simp only [RedisWorld.issue, List.map_append, List.map_singleton]
    exact List.nodup_append.mpr ⟨h.once, List.nodup_singleton t, fun u hu v hv huv ↦
      hnew (List.mem_singleton.mp hv ▸ huv ▸ hu)⟩
  · have hsplit : (w.issue t ((c t).script now) executed s').allowed key = w.allowed key ++
        [(⟨t, w.server.now, (c t).script now, executed⟩ : RedisEvent T)].filterMap
          (RedisEvent.allowedOn key) := List.filterMap_append ..
    rw [hsplit]
    cases hx : RedisEvent.allowedOn key ⟨t, w.server.now, (c t).script now, executed⟩ with
    | none =>
        simp only [List.filterMap_cons, List.filterMap_nil, hx, List.append_nil]
        exact h.bound
    | some x =>
        obtain ⟨rfl, hkey⟩ := allowedOn_eq rfl hx
        obtain ⟨hlimit, hwindow⟩ := hcalls t hkey
        have hallowed : executed = some (.ok true) := by
          rcases executed with _ | x | _ | _
          · cases hx
          · cases hx
          · cases hx
          · rfl
        obtain ⟨page, hpage⟩ := hexec _ hallowed
        have hcount := RedisServer.execute_script hpage rfl
        rw [hkey, hlimit, hwindow] at hcount
        simp only [List.filterMap_cons, List.filterMap_nil, hx]
        exact inWindow_append (h.nodup hids) (hmembers hkey) hcount h.bound

/-- The invariant of a run: the bound, and where each call stands. -/
structure Metered (c : T → RateLimitCall) (key : Str) (limit window : ℤ)
    (p : RedisPool T Bool) : Prop where
  bounded : Bounded c key limit window p.world
  idle : ∀ t, p.threads t = none → Unexecuted p.world t
  phase : ∀ t th, p.threads t = some th → CallPhase c p.world t th.code

theorem Unexecuted.issue {t u : T} (h : Unexecuted w u) (hne : u ≠ t) {command : RedisCommand}
    {executed : Option (Except RedisError command.Reply)} {s' : RedisServer} :
    Unexecuted (w.issue t command executed s') u := by
  intro e he
  rcases List.mem_append.mp he with he | he
  · exact h e he
  · obtain rfl := List.mem_singleton.mp he
    exact hne.symm

variable [DecidableEq T]

/-- A thread has moved on, and the others have executed nothing. -/
theorem Metered.resume {p : RedisPool T Bool} (hI : Metered c key limit window p) {t : T}
    {born w' : RedisWorld T} {code : RedisProgram Bool} (hbounded : Bounded c key limit window w')
    (hothers : ∀ u, u ≠ t → Unexecuted p.world u → Unexecuted w' u)
    (hphase : CallPhase c w' t code) :
    Metered c key limit window ⟨w', Function.update p.threads t (some ⟨born, code⟩)⟩ := by
  constructor
  · exact hbounded
  · intro u hu
    by_cases hut : u = t
    · simp [hut] at hu
    · exact hothers u hut (hI.idle u (by simpa [hut] using hu))
  · intro u th hu
    by_cases hut : u = t
    · subst hut
      obtain rfl : ⟨born, code⟩ = th := by simpa using hu
      exact hphase
    · have hold := hI.phase u th (by simpa [hut] using hu)
      exact hold.imp_left fun hfresh ↦ ⟨hothers u hut hfresh.1, hfresh.2⟩

theorem metered_step (hids : Function.Injective fun t ↦ (c t).requestId)
    (hcalls : ∀ t, (c t).fullKey = key → (c t).limit = limit ∧ (c t).windowSecs = window)
    {p p' : RedisPool T Bool} {a : Turn T RedisChoice} (hI : Metered c key limit window p)
    (hok : Pool.Admits (Remembered T key window) p a)
    (hs : Pool.step RedisWorld.machine (fun t ↦ (c t).checkRateLimit) p a = some p') :
    Metered c key limit window p' := by
  cases a with
  | begin t =>
      cases ht : p.threads t with
      | some th => simp [Pool.step, ht] at hs
      | none =>
          simp only [Pool.step, ht, Option.some.injEq] at hs
          subst hs
          exact hI.resume hI.bounded (fun _ _ hu ↦ hu) (.inl ⟨hI.idle t ht, .inl rfl⟩)
  | act t choice =>
      cases ht : p.threads t with
      | none => simp [Pool.step, ht] at hs
      | some th =>
          obtain ⟨born, code⟩ := th
          rcases hI.phase t _ ht with ⟨hfresh, hcode | ⟨now, hcode⟩⟩ | ⟨v, hcode⟩
          · -- The call reads the clock.
            obtain rfl : code = .step .clock _ := hcode
            simp only [Pool.step, ht, Option.map_eq_some_iff] at hs
            obtain ⟨⟨r, w'⟩, hperform, rfl⟩ := hs
            obtain ⟨rfl, rfl⟩ := RedisWorld.perform_clock hperform
            exact hI.resume hI.bounded (fun _ _ hu ↦ hu) (.inl ⟨hfresh, .inr ⟨_, rfl⟩⟩)
          · -- The server gets the script.
            obtain ⟨k, hk, hend⟩ := (c t).attempt_step now
            obtain rfl : code = .step (.command ((c t).script now)) k := hcode.trans hk
            simp only [Pool.step, ht, Option.map_eq_some_iff] at hs
            obtain ⟨⟨r, w'⟩, hperform, rfl⟩ := hs
            have hmembers := hok born _ _ ht
            rcases RedisWorld.perform_command hperform with ⟨-, rfl⟩ | ⟨page, q, s', hq, rfl, -⟩
            · have hbounded : Bounded c key limit window
                  (p.world.issue t ((c t).script now) none p.world.server) :=
                hI.bounded.issue hids hcalls hfresh hmembers (by simp)
              exact hI.resume hbounded (fun u hut hu ↦ hu.issue hut) (.inr (hend r))
            · have hbounded : Bounded c key limit window
                  (p.world.issue t ((c t).script now) (some q) s') :=
                hI.bounded.issue hids hcalls hfresh hmembers
                  fun r hr ↦ ⟨page, Option.some.inj hr ▸ hq⟩
              exact hI.resume hbounded (fun u hut hu ↦ hu.issue hut) (.inr (hend r))
          · obtain rfl := hcode
            simp [Pool.step, ht] at hs
  | environment choice =>
      simp only [Pool.step, Option.map_eq_some_iff] at hs
      obtain ⟨w', hw', rfl⟩ := hs
      obtain ⟨ms, -, rfl⟩ := RedisWorld.environment_tick hw'
      exact ⟨⟨hI.bounded.own, hI.bounded.once, hI.bounded.bound⟩, hI.idle, hI.phase⟩

/-- A run in which no script of the key comes after a request within its
window was pruned or expired allows at most `limit` requests in a window. -/
theorem rate_limit_window (hids : Function.Injective fun t ↦ (c t).requestId)
    (hcalls : ∀ t, (c t).key = key → (c t).limit = limit ∧ (c t).windowSecs = window)
    (hlimit : 0 ≤ limit) {s : RedisServer} {p : RedisPool T Bool}
    (h : Transition.Reaches (Pool.step RedisWorld.machine fun t ↦ (c t).checkRateLimit)
      (Pool.Admits (Remembered T (RateLimitCall.rateLimitPrefix ++ key) window))
      (Pool.start ⟨s, []⟩) p) (t : ℚ) :
    ((inWindow window t (p.world.allowed (RateLimitCall.rateLimitPrefix ++ key))).length : ℤ) ≤
      limit := by
  have hcalls' : ∀ t, (c t).fullKey = RateLimitCall.rateLimitPrefix ++ key →
      (c t).limit = limit ∧ (c t).windowSecs = window :=
    fun t ht ↦ hcalls t (List.append_cancel_left ht)
  have hstart : Metered c (RateLimitCall.rateLimitPrefix ++ key) limit window
      (Pool.start ⟨s, []⟩) := by
    refine ⟨⟨by simp [Pool.start], by simp [Pool.start], fun _ ↦ hlimit⟩, ?_, ?_⟩
    · intro t _ e he
      cases he
    · intro t th ht
      cases ht
  have hmetered := h.invariant hstart fun p a p' hI hok hs ↦ metered_step hids hcalls' hI hok hs
  exact hmetered.bounded.bound t

end RateLimit

section Sample

/-- Four calls on one key, two allowed in five seconds. -/
def sampleRequest (t : Fin 4) : RateLimitCall := ⟨['k'], 2, 5, [Char.ofNat (97 + t)]⟩

def sampleRateKey : Str := RateLimitCall.rateLimitPrefix ++ ['k']

def sampleLimitStep : RedisPool (Fin 4) Bool → Turn (Fin 4) RedisChoice →
    Option (RedisPool (Fin 4) Bool) :=
  Pool.step RedisWorld.machine fun t ↦ (sampleRequest t).checkRateLimit

/-- Two calls get stamp 10, and the third is refused at 12. When the first
two have left the window, the fourth is allowed. -/
def sampleLimitTurns : List (Turn (Fin 4) RedisChoice) :=
  [.environment (.tick 10000), .begin 0, .begin 1, .act 0 (.reply (0, [])),
    .act 1 (.reply (0, [])), .environment (.tick 2000), .begin 2, .act 1 (.reply (0, [])),
    .act 2 (.reply (0, [])), .act 0 (.reply (0, [])), .act 2 (.reply (0, [])),
    .environment (.tick 4000), .begin 3, .act 3 (.reply (0, [])), .act 3 (.reply (0, []))]

theorem rate_limit_window_sample :
    ∃ p : RedisPool (Fin 4) Bool,
      p.world.allowed sampleRateKey = [(['b'], 10), (['a'], 10), (['d'], 16)] ∧
      p.outcome 2 = some (.error (.novaRateLimit 2 5)) ∧
      ∀ t : ℚ, ((inWindow ((5 : ℤ) : ℚ) t (p.world.allowed sampleRateKey)).length : ℤ) ≤ 2 := by
  have hrun : (Transition.run (fun p a ↦ if Pool.Admits (Remembered (Fin 4) sampleRateKey 5) p a
      then sampleLimitStep p a else none) (Pool.start RedisWorld.initial) sampleLimitTurns).any
      (fun p ↦ p.world.allowed sampleRateKey = [(['b'], 10), (['a'], 10), (['d'], 16)] ∧
        p.outcome 2 = some (.error (.novaRateLimit 2 5))) = true := by
    decide +kernel
  obtain ⟨p, hp, hoc⟩ := (Option.any_eq_true _ _).mp hrun
  obtain ⟨hallowed, hrefused⟩ := of_decide_eq_true hoc
  have hids : Function.Injective fun t ↦ (sampleRequest t).requestId := by
    show ∀ t u : Fin 4, (sampleRequest t).requestId = (sampleRequest u).requestId → t = u
    decide
  have hmain := rate_limit_window hids (fun _ _ ↦ ⟨rfl, rfl⟩) (by decide)
    (Transition.reaches_of_guarded_run hp)
  exact ⟨p, hallowed, hrefused, hmain⟩

/-- Two requests are stamped 10. The script of a call stamped 15 prunes them,
and then the script of a call stamped 12 is executed. -/
theorem rate_limit_window_fails :
    ∃ p : RedisPool (Fin 4) Bool,
      Transition.Reaches sampleLimitStep Transition.Always (Pool.start RedisWorld.initial) p ∧
      ∃ t : ℚ, (2 : ℤ) < (inWindow ((5 : ℤ) : ℚ) t (p.world.allowed sampleRateKey)).length := by
  have hrun : (Transition.run sampleLimitStep (Pool.start RedisWorld.initial)
      [.environment (.tick 10000), .begin 0, .begin 1, .act 0 (.reply (0, [])),
        .act 1 (.reply (0, [])), .environment (.tick 2000), .act 0 (.reply (0, [])),
        .act 1 (.reply (0, [])), .begin 2, .act 2 (.reply (0, [])), .environment (.tick 3000),
        .begin 3, .act 3 (.reply (0, [])), .act 3 (.reply (0, [])),
        .act 2 (.reply (0, []))]).any
      (fun p ↦ 2 < (inWindow 5 12 (p.world.allowed sampleRateKey)).length) = true := by
    decide +kernel
  obtain ⟨p, hp, hcount⟩ := (Option.any_eq_true _ _).mp hrun
  refine ⟨p, Transition.reaches_of_run (fun _ _ _ ↦ trivial) hp, 12, ?_⟩
  have hlt := of_decide_eq_true hcount
  exact_mod_cast hlt

end Sample

end DjangoNova
