import DjangoNova.Redis.RateLimit

/-!
# The sliding window on a server of one clock

Requests on one key, each executed at the instant of its timestamp. The
sorted set may lose requests to the pruning and the whole key to its
expiry, but none that still counts: the decision is the one of the
reference count over the whole history.
-/

namespace DjangoNova

/-- The arguments that the requests on a key share. -/
structure RateLimit where
  key : Str
  limit : ℤ
  windowSecs : ℤ

/-- The server and, for the reference count, the requests so far: all
identifiers, and the allowed requests with the last one first. -/
structure RequestHistory where
  server : RedisServer
  seen : List Str
  allowed : List (Str × ℚ)

namespace RateLimit

def start (server : RedisServer) : RequestHistory := ⟨server, [], []⟩

variable (l : RateLimit)

def call (requestId : Str) : RateLimitCall := ⟨l.key, l.limit, l.windowSecs, requestId⟩

def fullKey : Str := RateLimitCall.rateLimitPrefix ++ l.key

/-- The server at the instant of a timestamp, which is in seconds. -/
def clockAt (s : RedisServer) (now : ℚ) : RedisServer := { s with now := 1000 * now }

/-- Execute the script of a request at the instant of its timestamp. -/
def serve (s : RedisServer) (request : Str × ℚ) :
    Option (Except RedisError Bool × RedisServer) :=
  (clockAt s request.2).execute (0, []) ((l.call request.1).script request.2)

def step (h : RequestHistory) (request : Str × ℚ) : Option RequestHistory :=
  match l.serve h.server request with
  | some (.ok allowed, server) =>
      some ⟨server, request.1 :: h.seen, if allowed then request :: h.allowed else h.allowed⟩
  | _ => none

/-- The timestamp is positive and not before the clock, and the identifier is new. -/
def Timely (h : RequestHistory) (request : Str × ℚ) : Prop :=
  0 < request.2 ∧ h.server.now ≤ 1000 * request.2 ∧ request.1 ∉ h.seen

/-- The members of the key that survive the pruning at an instant. -/
def kept (s : RedisServer) (now : ℚ) : List (Str × ℚ) :=
  RedisServer.prune (s.members l.fullKey) (now - l.windowSecs)

/-- The key has the allowed requests that still count, and its deadline is
after the last instant at which one of them does. -/
structure Covers (h : RequestHistory) : Prop where
  past : ∀ x ∈ h.allowed, 0 < x.2 ∧ 1000 * x.2 ≤ h.server.now
  seen : ∀ x ∈ h.allowed, x.1 ∈ h.seen
  nodup : h.allowed.Nodup
  absent : h.server.live l.fullKey = none →
    ∀ x ∈ h.allowed, 1000 * (x.2 + l.windowSecs) ≤ h.server.now
  present : ∀ e, h.server.live l.fullKey = some e →
    ∃ members deadline, e = ⟨.sortedSet members, some deadline⟩ ∧ members.Nodup ∧
      members ⊆ h.allowed ∧
      (∀ x ∈ h.allowed, h.server.now < 1000 * (x.2 + l.windowSecs) → x ∈ members) ∧
      ∀ x ∈ h.allowed, 1000 * (x.2 + l.windowSecs) ≤ deadline

section Exactness

variable {l : RateLimit} {h h' : RequestHistory} {request : Str × ℚ} {key : Str}

/-- Waiting until the instant of a request loses nothing that still counts. -/
theorem Covers.wait (hc : l.Covers h) {now : ℚ} (hnow : h.server.now ≤ 1000 * now) :
    l.Covers { h with server := clockAt h.server now } := by
  have hlater : h.server.now ≤ (clockAt h.server now).now := hnow
  refine ⟨fun x hx ↦ ?_, hc.seen, hc.nodup, fun hnone x hx ↦ ?_, fun e he ↦ ?_⟩
  · obtain ⟨hpos, hpast⟩ := hc.past x hx
    exact ⟨hpos, hpast.trans hlater⟩
  · cases hlive : h.server.live l.fullKey with
    | none => exact (hc.absent hlive x hx).trans hlater
    | some e =>
        obtain ⟨members, deadline, rfl, -, -, -, hdeadline⟩ := hc.present e hlive
        obtain ⟨hentry, -⟩ := Option.filter_eq_some_iff.mp hlive
        have hexpired : ¬(clockAt h.server now).now < deadline := by
          intro hlt
          rw [RedisServer.live_of_entry (s := clockAt h.server now) hentry rfl hlt] at hnone
          cases hnone
        exact (hdeadline x hx).trans (not_lt.mp hexpired)
  · obtain ⟨members, deadline, heq, hnodup, hsub, hcounts, hdeadline⟩ :=
      hc.present e (RedisServer.live_earlier hnow he)
    refine ⟨members, deadline, heq, hnodup, hsub, fun x hx hlt ↦ hcounts x hx ?_, hdeadline⟩
    exact hlater.trans_lt hlt

/-- What survives the pruning is what counts in the window. -/
theorem Covers.counted (hc : l.Covers h) {now : ℚ} (hnow : h.server.now = 1000 * now)
    (x : Str × ℚ) :
    x ∈ l.kept h.server now ↔
      x ∈ inWindow l.windowSecs now h.allowed := by
  have hpast : ∀ y ∈ h.allowed, 0 < y.2 ∧ y.2 ≤ now := by
    intro y hy
    obtain ⟨hpos, hle⟩ := hc.past y hy
    exact ⟨hpos, by linarith⟩
  simp only [kept, RedisServer.mem_prune, inWindow, List.mem_filter, Bool.and_eq_true,
    decide_eq_true_eq]
  unfold RedisServer.members
  cases hlive : h.server.live l.fullKey with
  | none =>
      have hold := hc.absent hlive
      simp only [List.not_mem_nil, false_and, false_iff, not_and]
      intro hx hcounts
      have hle := hold x hx
      exact absurd hle (by linarith)
  | some e =>
      obtain ⟨members, deadline, rfl, -, hsub, hcounts, -⟩ := hc.present e hlive
      constructor
      · rintro ⟨hx, hkept⟩
        obtain ⟨hpos, hle⟩ := hpast x (hsub hx)
        exact ⟨hsub hx, hkept hpos.le, hle⟩
      · rintro ⟨hx, hlow, -⟩
        exact ⟨hcounts x hx (by linarith), fun _ ↦ hlow⟩

theorem Covers.members_nodup (hc : l.Covers h) : (h.server.members l.fullKey).Nodup := by
  unfold RedisServer.members
  cases hlive : h.server.live l.fullKey with
  | none => exact List.nodup_nil
  | some e =>
      obtain ⟨members, deadline, rfl, hnodup, -⟩ := hc.present e hlive
      exact hnodup

theorem Covers.count (hc : l.Covers h) {now : ℚ} (hnow : h.server.now = 1000 * now) :
    (l.kept h.server now).length =
      (inWindow l.windowSecs now h.allowed).length := by
  have hkept : (l.kept h.server now).Nodup :=
    hc.members_nodup.filter _
  have hreference : (inWindow l.windowSecs now h.allowed).Nodup := hc.nodup.filter _
  exact ((List.perm_ext_iff_of_nodup hkept hreference).mpr (hc.counted hnow)).length_eq

/-- The script runs on the members of the key, whose deadline it keeps
when it refuses. -/
theorem Covers.execute (hc : l.Covers h) (requestId : Str) (now : ℚ) :
    ∃ deadline, (h.server.live l.fullKey = none ∨
        ∃ members, h.server.live l.fullKey = some ⟨.sortedSet members, deadline⟩) ∧
      h.server.execute (0, []) ((l.call requestId).script now) =
        some (.ok (h.server.slideWindow l.fullKey (h.server.members l.fullKey) deadline
            l.windowSecs l.limit now requestId).1,
          (h.server.slideWindow l.fullKey (h.server.members l.fullKey) deadline
            l.windowSecs l.limit now requestId).2) := by
  have hkey : (l.call requestId).fullKey = l.fullKey := Eq.refl _
  unfold RedisServer.members
  cases hlive : h.server.live l.fullKey with
  | none =>
      refine ⟨none, .inl (Eq.refl _), ?_⟩
      simp only [RateLimitCall.script, RedisServer.execute, hkey, hlive]
      exact Eq.refl _
  | some e =>
      obtain ⟨members, deadline, rfl, -⟩ := hc.present e hlive
      refine ⟨some deadline, .inr ⟨members, Eq.refl _⟩, ?_⟩
      simp only [RateLimitCall.script, RedisServer.execute, hkey, hlive]
      exact Eq.refl _

/-- An allowed request joins the set, which lives on for a whole window. -/
theorem Covers.admit (hc : l.Covers h) (hwindow : 1 ≤ l.windowSecs)
    (hnow : h.server.now = 1000 * request.2) (hpos : 0 < request.2) (hnew : request.1 ∉ h.seen) :
    l.Covers ⟨h.server.put l.fullKey
        ⟨.sortedSet (request :: (l.kept h.server request.2).filter fun m ↦ m.1 ≠ request.1),
          some (h.server.now + 1000 * l.windowSecs)⟩,
            request.1 :: h.seen, request :: h.allowed⟩ := by
  have hwindow' : (1 : ℚ) ≤ l.windowSecs := by exact_mod_cast hwindow
  have hold : ∀ x ∈ h.allowed, x.1 ≠ request.1 := by
    rintro x hx heq
    exact hnew (heq ▸ hc.seen x hx)
  have hfresh : request ∉ h.allowed := fun hmem ↦ hold request hmem (Eq.refl _)
  have hkept : ∀ x, x ∈ (l.kept h.server request.2).filter (fun m ↦ m.1 ≠ request.1) ↔
        x ∈ inWindow l.windowSecs request.2 h.allowed := by
    intro x
    rw [List.mem_filter, hc.counted hnow]
    simp only [decide_eq_true_eq, and_iff_left_iff_imp]
    exact fun hx ↦ hold x (List.mem_of_mem_filter hx)
  have hdeadline : ∀ x ∈ request :: h.allowed,
      1000 * (x.2 + l.windowSecs) ≤ h.server.now + 1000 * l.windowSecs := by
    intro x hx
    rcases List.mem_cons.mp hx with rfl | hx
    · linarith
    · have hpast := (hc.past x hx).2
      linarith
  refine ⟨fun x hx ↦ ?_, fun x hx ↦ ?_, List.nodup_cons.mpr ⟨hfresh, hc.nodup⟩, fun hnone ↦ ?_,
    fun e he ↦ ?_⟩
  · rcases List.mem_cons.mp hx with rfl | hx
    · exact ⟨hpos, hnow.ge⟩
    · exact hc.past x hx
  · rcases List.mem_cons.mp hx with rfl | hx
    · exact List.mem_cons_self
    · exact List.mem_cons_of_mem _ (hc.seen x hx)
  · have hlive := RedisServer.live_of_entry (s := h.server.put l.fullKey
      ⟨.sortedSet (request :: (l.kept h.server request.2).filter fun m ↦ m.1 ≠ request.1),
          some (h.server.now + 1000 * l.windowSecs)⟩) RedisServer.put_entries_self (Eq.refl _)
      (show h.server.now < h.server.now + 1000 * l.windowSecs by linarith)
    rw [hlive] at hnone
    cases hnone
  · obtain ⟨hentry, -⟩ := Option.filter_eq_some_iff.mp he
    rw [RedisServer.put_entries_self] at hentry
    obtain rfl := Option.some.inj hentry
    refine ⟨_, _, Eq.refl _, ?_, ?_, ?_, hdeadline⟩
    · refine List.nodup_cons.mpr ⟨fun hmem ↦ ?_, (hc.members_nodup.filter _).filter _⟩
      simpa using (List.mem_filter.mp hmem).2
    · intro x hx
      rcases List.mem_cons.mp hx with rfl | hx
      · exact List.mem_cons_self
      · exact List.mem_cons_of_mem _ (List.mem_of_mem_filter ((hkept x).mp hx))
    · intro x hx hcounts
      rcases List.mem_cons.mp hx with rfl | hx
      · exact List.mem_cons_self
      · have hpast := (hc.past x hx).2
        have hcounts' : h.server.now < 1000 * (x.2 + l.windowSecs) := hcounts
        refine List.mem_cons_of_mem _ ((hkept x).mpr (List.mem_filter.mpr ⟨hx, ?_⟩))
        simp only [Bool.and_eq_true, decide_eq_true_eq]
        constructor <;> linarith

/-- A refused request leaves what still counts in the set. -/
theorem Covers.refuse (hc : l.Covers h) (hnow : h.server.now = 1000 * request.2)
    {deadline : Option ℚ} (hdeadline : h.server.live l.fullKey = none ∨
      ∃ members, h.server.live l.fullKey = some ⟨.sortedSet members, deadline⟩) :
    l.Covers ⟨if l.kept h.server request.2 = [] then
          h.server.remove [l.fullKey]
        else h.server.put l.fullKey ⟨.sortedSet (l.kept h.server request.2), deadline⟩,
      request.1 :: h.seen, h.allowed⟩ := by
  have hseen : ∀ x ∈ h.allowed, x.1 ∈ request.1 :: h.seen :=
    fun x hx ↦ List.mem_cons_of_mem _ (hc.seen x hx)
  have hcounts : ∀ x ∈ h.allowed, h.server.now < 1000 * (x.2 + l.windowSecs) →
      x ∈ l.kept h.server request.2 := by
    intro x hx hlt
    have hpast := (hc.past x hx).2
    refine (hc.counted hnow x).mpr (List.mem_filter.mpr ⟨hx, ?_⟩)
    simp only [Bool.and_eq_true, decide_eq_true_eq]
    constructor <;> linarith
  by_cases hempty : l.kept h.server request.2 = []
  · rw [if_pos hempty]
    rw [hempty] at hcounts
    refine ⟨hc.past, hseen, hc.nodup, fun _ x hx ↦ ?_, fun e he ↦ ?_⟩
    · by_contra hlt
      exact List.not_mem_nil (hcounts x hx (not_le.mp hlt))
    · simp [RedisServer.live, RedisServer.remove] at he
  · rw [if_neg hempty]
    obtain ⟨y, hy⟩ := List.exists_mem_of_ne_nil _ hempty
    have hmember : y ∈ h.server.members l.fullKey := (RedisServer.mem_prune.mp hy).1
    have hheld : ∃ members, h.server.live l.fullKey = some ⟨.sortedSet members, deadline⟩ := by
      refine hdeadline.resolve_left fun hnone ↦ ?_
      unfold RedisServer.members at hmember
      rw [hnone] at hmember
      exact List.not_mem_nil hmember
    obtain ⟨members, hlive⟩ := hheld
    obtain ⟨members', t, heq, -, -, -, hlast⟩ := hc.present _ hlive
    obtain ⟨hvalue, rfl⟩ := RedisEntry.mk.inj heq
    obtain ⟨hentry, hbefore⟩ := Option.filter_eq_some_iff.mp hlive
    simp only [Option.all_some, decide_eq_true_eq] at hbefore
    refine ⟨hc.past, hseen, hc.nodup, fun hnone ↦ ?_, fun e he ↦ ?_⟩
    · have hput := RedisServer.live_of_entry (s := h.server.put l.fullKey
        ⟨.sortedSet (l.kept h.server request.2),
          some t⟩) RedisServer.put_entries_self (Eq.refl _) hbefore
      rw [hput] at hnone
      cases hnone
    · obtain ⟨hput, -⟩ := Option.filter_eq_some_iff.mp he
      rw [RedisServer.put_entries_self] at hput
      obtain rfl := Option.some.inj hput
      refine ⟨_, _, Eq.refl _, hc.members_nodup.filter _, fun x hx ↦ ?_, hcounts, hlast⟩
      exact List.mem_of_mem_filter ((hc.counted hnow x).mp hx)

/-- One request: the decision of the script is the one of the reference
count, and what still counts stays in the set. -/
theorem Covers.step (hc : l.Covers h) (hwindow : 1 ≤ l.windowSecs) (htimely : Timely h request) :
    ∃ allowed server, l.serve h.server request = some (.ok allowed, server) ∧
      (allowed = true ↔ ((inWindow l.windowSecs request.2 h.allowed).length : ℤ) < l.limit) ∧
      l.Covers ⟨server, request.1 :: h.seen,
        if allowed then request :: h.allowed else h.allowed⟩ := by
  obtain ⟨hpos, hlater, hnew⟩ := htimely
  have hw := hc.wait hlater
  have hnow : (clockAt h.server request.2).now = 1000 * request.2 := Eq.refl _
  obtain ⟨deadline, hdeadline, hexec⟩ := hw.execute request.1 request.2
  have hcount := hw.count hnow
  refine ⟨_, _, hexec, ?_, ?_⟩
  · have hkept : (RedisServer.prune ((clockAt h.server request.2).members l.fullKey)
        (request.2 - l.windowSecs)).length =
          (inWindow l.windowSecs request.2 h.allowed).length := hcount
    unfold RedisServer.slideWindow
    dsimp only
    rw [hkept]
    split
    · rename_i hfewer
      simp [hfewer, show ¬l.windowSecs ≤ 0 by omega]
    · rename_i hmany
      simp only [hmany, iff_false]
      split <;> simp
  · unfold RedisServer.slideWindow
    dsimp only
    split
    · rw [if_neg (by omega)]
      exact hw.admit hwindow hnow hpos hnew
    · have hrefuse := hw.refuse hnow hdeadline
      unfold kept at hrefuse
      split
      · rename_i hempty
        rw [if_pos hempty] at hrefuse
        exact hrefuse
      · rename_i hempty
        rw [if_neg hempty] at hrefuse
        exact hrefuse

/-- After any requests on the key, the next one is allowed if and only if
fewer than `limit` allowed requests have a timestamp in its window, and the
set still has all of these. -/
theorem sliding_window_exact (hwindow : 1 ≤ l.windowSecs) {server : RedisServer}
    (habsent : server.live l.fullKey = none)
    (hreach : Transition.Reaches l.step Timely (start server) h) (htimely : Timely h request) :
    ∃ allowed server', l.serve h.server request = some (.ok allowed, server') ∧
      (allowed = true ↔ ((inWindow l.windowSecs request.2 h.allowed).length : ℤ) < l.limit) ∧
      ∀ x ∈ inWindow l.windowSecs request.2 h.allowed,
        x ∈ (clockAt h.server request.2).members l.fullKey := by
  have hstart : l.Covers (start server) := by
    refine ⟨by simp [start], by simp [start], List.nodup_nil, fun _ ↦ by simp [start],
      fun e he ↦ ?_⟩
    have hnone : server.live l.fullKey = some e := he
    rw [habsent] at hnone
    cases hnone
  have hc : l.Covers h := by
    refine hreach.invariant hstart fun g r g' hg hok hstep ↦ ?_
    obtain ⟨allowed, server', hserve, -, hnext⟩ := hg.step hwindow hok
    simp only [RateLimit.step, hserve, Option.some.injEq] at hstep
    exact hstep ▸ hnext
  obtain ⟨allowed, server', hserve, hiff, -⟩ := hc.step hwindow htimely
  refine ⟨allowed, server', hserve, hiff, fun x hx ↦ ?_⟩
  exact (RedisServer.mem_prune.mp (((hc.wait htimely.2.1).counted (Eq.refl _) x).mpr hx)).1

end Exactness

end RateLimit

section Sample

/-- One request in five seconds. -/
def singleRequest : RateLimit := ⟨['k'], 1, 5⟩

/-- After a request at 1 the next one, at 3, is refused. -/
theorem sliding_window_exact_sample : ∃ h : RequestHistory, h.allowed = [(['a'], 1)] ∧
    ∃ server', singleRequest.serve h.server (['b'], 3) = some (.ok false, server') := by
  have hrun : ∃ h, singleRequest.step (RateLimit.start ⟨0, fun _ ↦ none⟩) (['a'], 1) = some h ∧
      h.allowed = [(['a'], 1)] ∧ h.seen = [['a']] ∧ h.server.now = 1000 :=
    ⟨_, rfl, by decide +kernel, by decide +kernel, by decide +kernel⟩
  obtain ⟨h, hstep, hallowed, hseen, hnow⟩ := hrun
  have hfirst : RateLimit.Timely (RateLimit.start ⟨0, fun _ ↦ none⟩) (['a'], 1) := by
    refine ⟨by norm_num, ?_, by simp [RateLimit.start]⟩
    show (0 : ℚ) ≤ 1000 * 1
    norm_num
  have hreach : Transition.Reaches singleRequest.step RateLimit.Timely
      (RateLimit.start ⟨0, fun _ ↦ none⟩) h := .move _ .start hfirst hstep
  have hnext : RateLimit.Timely h (['b'], 3) := by
    refine ⟨by norm_num, ?_, by simp [hseen]⟩
    rw [hnow]
    norm_num
  obtain ⟨allowed, server', hserve, hiff, -⟩ :=
    RateLimit.sliding_window_exact (l := singleRequest) (by decide) (Eq.refl _) hreach hnext
  have hrefused : allowed = false := by
    rw [hallowed] at hiff
    have hcount :
      ((inWindow singleRequest.windowSecs 3 [((['a'] : Str), (1 : ℚ))]).length : ℤ) = 1 := by
      decide +kernel
    rw [hcount] at hiff
    cases allowed with
    | false => exact Eq.refl _
    | true => exact absurd (hiff.mp (Eq.refl _)) (by decide)
  exact ⟨h, hallowed, server', hrefused ▸ hserve⟩

end Sample

end DjangoNova
