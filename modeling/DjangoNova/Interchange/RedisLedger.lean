import DjangoNova.Interchange.Redis

/-!
# The Redis backend keeps the ledger

The live keys of the namespace are the records of the ledger that the server
still has. Reads and deletions find exactly these. A time to live whose
product with `1000` is infinite makes a call raise.
-/

namespace DjangoNova

open RedisServer

/-- The call as a program, with so many pages for `clear`. -/
def ContractCall.redis (b : RedisCacheBackend PyObject) (pages : ℕ) :
    ContractCall → RedisProgram ContractAnswer
  | .get key default => do
      let v ← b.get key
      return .value (v.getD default)
  | .set key value ttl => do
      let _ ← b.set key value (some ttl)
      return .done
  | .delete key => do
      let found ← b.delete key
      return .deleted found
  | .clear => do
      let _ ← b.clear pages
      return .done
  | .getMany keys => do
      let values ← b.getMany keys
      return ContractCall.valuesOf values
  | .setMany values ttl => do
      let _ ← b.setMany values.items (some ttl)
      return .done
  | .deleteMany keys => do
      let n ← b.deleteMany keys
      return .count n

def RedisServer.at (s : RedisServer) (now : ℚ) : RedisServer := { s with now := 1000 * now }

/-- The answers of the backend, each call at its own time; an error ends
them. A call of `clear` has as many pages as it needs. -/
inductive RedisCacheBackend.Answers (b : RedisCacheBackend PyObject) :
    TimedCalls → RedisServer → List ContractAnswer → Prop
  | nil (s : RedisServer) : Answers b [] s []
  | cons {now : ℚ} {call : ContractCall} {rest : TimedCalls} {s s' : RedisServer} {pages : ℕ}
      {served : List RedisServed} {answer : ContractAnswer} {answers : List ContractAnswer} :
      Serves (s.at now) (call.redis b pages) served (.ok answer) s' →
      (call = .clear → b.ScanComplete served s') → Answers b rest s' answers →
      Answers b ((now, call) :: rest) s (answer :: answers)
  | raised {now : ℚ} {call : ContractCall} {rest : TimedCalls} {s s' : RedisServer}
      {served : List RedisServed} {x : RedisError} : call ≠ .clear →
      Serves (s.at now) (call.redis b 0) served (.error x) s' →
      Answers b ((now, call) :: rest) s [.raised]

namespace RedisCacheBackend

variable {b : RedisCacheBackend PyObject} {s s' : RedisServer} {served : List RedisServed}
  {now t : ℚ} {l : Ledger} {key : Str}

theorem makeKey_injective : Function.Injective b.makeKey := by
  intro key key' h
  unfold makeKey at h
  split at h
  · exact h
  · exact List.cons_injective (List.append_cancel_left h)

/-- The backend keeps a ledger at a time. -/
structure Keeps (b : RedisCacheBackend PyObject) (now : ℚ) (s : RedisServer)
    (l : Ledger) : Prop where
  clock : s.now = 1000 * now
  entries : ∀ key,
    Option.Rel b.EntryOf ((l key).filter (holds now)) (s.live (b.makeKey key))

/-- Records and their entries expire together. -/
theorem Keeps.later (h : b.Keeps now s l) (hle : now ≤ t) : b.Keeps t (s.at t) l := by
  refine ⟨rfl, fun key ↦ ?_⟩
  have hlive : (s.at t).live (b.makeKey key) =
      (s.live (b.makeKey key)).filter fun e ↦ e.deadline.all (1000 * t < ·) := by
    refine Option.ext fun e ↦ ?_
    rw [Option.filter_eq_some_iff]
    constructor
    · intro he
      have hnow : s.now ≤ 1000 * t := by rw [h.clock]; linarith
      exact ⟨live_earlier hnow he, (Option.filter_eq_some_iff.mp he).2⟩
    · rintro ⟨he, hdeadline⟩
      exact Option.filter_eq_some_iff.mpr ⟨(Option.filter_eq_some_iff.mp he).1, hdeadline⟩
  have hrecord : (l key).filter (holds t) =
      ((l key).filter (holds now)).filter (holds t) := by
    refine Option.ext fun r ↦ ?_
    simp only [Option.filter_eq_some_iff]
    refine ⟨fun ⟨hr, hcurrent⟩ ↦ ⟨⟨hr, ?_⟩, hcurrent⟩, fun ⟨⟨hr, _⟩, hcurrent⟩ ↦ ⟨hr, hcurrent⟩⟩
    have hlt : 1000 * t < serverDeadline r := of_decide_eq_true hcurrent
    exact decide_eq_true (lt_of_le_of_lt (by linarith) hlt)
  have hentry := h.entries key
  rw [hlive, hrecord]
  generalize s.live (b.makeKey key) = e at hentry
  generalize (l key).filter (holds now) = r at hentry
  cases hentry with
  | none => exact .none
  | @some r e he =>
      have hdeadline : e.deadline.all (1000 * t < ·) = holds t r := by
        simp [he.deadline, holds]
      rw [Option.filter_some, Option.filter_some, hdeadline]
      cases holds t r with
      | true => exact .some he
      | false => exact .none

theorem Keeps.isSome_live (h : b.Keeps now s l) (key : Str) :
    (s.live (b.makeKey key)).isSome = (l key).any (holds now) := by
  have hentry := h.entries key
  generalize s.live (b.makeKey key) = e at hentry
  cases hr : l key with
  | none =>
      rw [hr] at hentry
      cases hentry
      rfl
  | some r =>
      rw [hr, Option.filter_some] at hentry
      cases hcurrent : holds now r <;> rw [hcurrent] at hentry <;> cases hentry <;>
        simp [hcurrent]

theorem Keeps.remove (h : b.Keeps now s l) (keys : List Str) :
    b.Keeps now (s.remove (keys.map b.makeKey)) (l.forget keys) := by
  refine ⟨h.clock, fun key ↦ ?_⟩
  by_cases hkey : key ∈ keys
  · have hmem : b.makeKey key ∈ keys.map b.makeKey := List.mem_map_of_mem hkey
    have hlive : (s.remove (keys.map b.makeKey)).live (b.makeKey key) = none := by
      unfold RedisServer.live
      rw [show (s.remove (keys.map b.makeKey)).entries (b.makeKey key) = none from if_pos hmem]
      rfl
    rw [hlive, show l.forget keys key = none from if_pos hkey]
    exact .none
  · have hmem : b.makeKey key ∉ keys.map b.makeKey :=
      fun hmem ↦ hkey ((List.mem_map_of_injective makeKey_injective).mp hmem)
    have hlive : (s.remove (keys.map b.makeKey)).live (b.makeKey key) = s.live (b.makeKey key) := by
      unfold RedisServer.live
      rw [remove_entries_of_not_mem hmem]
      rfl
    rw [hlive, show l.forget keys key = l key from if_neg hkey]
    exact h.entries key

theorem Keeps.put (h : b.Keeps now s l) {ttl : ℚ} (hpos : 0 < ttl) {value : PyObject} {raw : Str}
    (hloads : b.loads raw = .ok value) :
    b.Keeps now (s.put (b.makeKey key) ⟨.string raw, some (s.now + sentMs ttl)⟩)
      (l.write now ttl (key, value)) := by
  refine ⟨h.clock, fun key' ↦ ?_⟩
  by_cases hkey : key' = key
  · subst hkey
    have hms : (0 : ℚ) < sentMs ttl := Int.cast_pos.mpr (sentMs_pos ttl)
    have hcurrent : holds now ⟨value, now, ttl, hpos⟩ = true :=
      decide_eq_true (lt_add_of_pos_right (1000 * now) hms)
    have hlive : (s.put (b.makeKey key') ⟨.string raw, some (s.now + sentMs ttl)⟩).live
        (b.makeKey key') = some ⟨.string raw, some (s.now + sentMs ttl)⟩ :=
      live_of_entry put_entries_self rfl (lt_add_of_pos_right s.now hms)
    rw [Ledger.write_of_pos hpos, hlive, Option.filter_some, if_pos hcurrent]
    have hdeadline : s.now + sentMs ttl = serverDeadline ⟨value, now, ttl, hpos⟩ := by
      rw [h.clock]
      rfl
    exact .some ⟨congrArg some hdeadline, raw, rfl, hloads⟩
  · have hne : b.makeKey key' ≠ b.makeKey key := fun heq ↦ hkey (makeKey_injective heq)
    have hlive : (s.put (b.makeKey key) ⟨.string raw, some (s.now + sentMs ttl)⟩).live
        (b.makeKey key') = s.live (b.makeKey key') := by
      unfold RedisServer.live
      rw [put_entries_ne hne]
      rfl
    rw [Ledger.write_ne hkey, hlive]
    exact h.entries key'

theorem Keeps.set (h : b.Keeps now s l) {value : PyObject} (hvalue : b.Survives value) {ttl : ℚ}
    (hfits : ¬Overflows ttl) {v : Except RedisError Unit}
    (hserves : Serves s (b.set key value (some ttl)) served v s') :
    v = .ok () ∧ b.Keeps now s' (l.write now ttl (key, value)) := by
  obtain ⟨rfl, ⟨hnonpos, rfl⟩ | ⟨hpos, raw, hloads, rfl⟩⟩ := serves_set hvalue hfits hserves
  · rw [Ledger.write_of_nonpos hnonpos]
    exact ⟨rfl, h.remove [key]⟩
  · exact ⟨rfl, h.put hpos hloads⟩

theorem Keeps.delete (h : b.Keeps now s l) {v : Except RedisError Bool}
    (hserves : Serves s (b.delete key) served v s') :
    v = .ok ((l key).any (holds now)) ∧ b.Keeps now s' (l.forget [key]) := by
  obtain ⟨rfl, rfl⟩ := serves_deleteOne hserves
  refine ⟨congrArg Except.ok ?_, h.remove [key]⟩
  rw [← h.isSome_live key]

theorem Keeps.deleteMany (h : b.Keeps now s l) {keys : List Str} {v : Except RedisError ℕ}
    (hserves : Serves s (b.deleteMany keys) served v s') :
    v = .ok (l.found (holds now) keys).card ∧ b.Keeps now s' (l.forget keys) := by
  obtain ⟨rfl, rfl⟩ := serves_deleteMany hserves
  refine ⟨congrArg Except.ok ?_, h.remove keys⟩
  rw [List.dedup_map_of_injective makeKey_injective, List.filter_map, List.length_map,
    ← List.toFinset_card_of_nodup ((List.nodup_dedup keys).filter _)]
  congr 1
  ext key
  simp [Ledger.found, h.isSome_live]

theorem dumpAll_ok {items : List (Str × PyObject)} (hitems : ∀ x ∈ items, b.Survives x.2)
    (px : Option ℤ) : ∃ commands, b.dumpAll px items = .ok commands := by
  induction items with
  | nil => exact ⟨[], rfl⟩
  | cons x rest ih =>
      obtain ⟨raw, hdumps, -⟩ := hitems x List.mem_cons_self
      obtain ⟨commands, hrest⟩ := ih fun y hy ↦ hitems y (List.mem_cons_of_mem _ hy)
      exact ⟨_, bind_eq_ok.mpr ⟨raw, hdumps, bind_eq_ok.mpr ⟨commands, hrest, rfl⟩⟩⟩

/-- The commands of a pipeline store the items one after the other. -/
theorem Keeps.storeAll (h : b.Keeps now s l) {items : List (Str × PyObject)}
    (hitems : ∀ x ∈ items, b.Survives x.2) {ttl : ℚ} (hpos : 0 < ttl)
    {commands : List RedisCommand}
    (hdump : b.dumpAll (some (sentMs ttl)) items = .ok commands) {v : Except RedisError Unit}
    (hserves : Serves s (pipeline none commands) served v s') :
    v = .ok () ∧ b.Keeps now s' (items.foldl (fun l x ↦ l.write now ttl x) l) := by
  induction items generalizing s l served commands with
  | nil =>
      obtain rfl := Except.ok.inj hdump
      obtain ⟨-, rfl, rfl⟩ := serves_done_iff.mp hserves
      exact ⟨rfl, h⟩
  | cons x rest ih =>
      obtain ⟨key, value⟩ := x
      obtain ⟨raw, hraw, hloads⟩ := hitems _ List.mem_cons_self
      obtain ⟨payload, hdumps, hcommands⟩ := bind_eq_ok.mp hdump
      obtain ⟨commands, hdumpRest, heq⟩ := bind_eq_ok.mp hcommands
      obtain rfl := Except.ok.inj heq
      obtain rfl := Except.ok.inj (hraw.symm.trans hdumps)
      obtain ⟨page, q, s₁, others, hexecute, hrest, -⟩ := serves_command_iff.mp hserves
      rw [execute_set (sentMs_pos ttl)] at hexecute
      obtain ⟨rfl, rfl⟩ := Prod.mk.inj (Option.some.inj hexecute)
      exact ih (h.put hpos hloads) (fun y hy ↦ hitems y (List.mem_cons_of_mem _ hy)) hdumpRest
        hrest

theorem serves_handled {α : Type} {p : RedisProgram α} {v : Except RedisError α}
    (h : Serves s (handled p) served v s') :
    ∃ first u s₁, Serves s p first u s₁ ∧ ∀ a, u = .ok a → v = .ok a ∧ s' = s₁ := by
  obtain ⟨first, u, s₁, second, hfirst, hsecond, -⟩ := serves_andThen.mp h
  refine ⟨first, u, s₁, hfirst, ?_⟩
  rintro a rfl
  obtain ⟨-, hv, hs⟩ := serves_done_iff.mp hsecond
  exact ⟨hv, hs⟩

theorem Keeps.setMany (h : b.Keeps now s l) {items : List (Str × PyObject)}
    (hitems : ∀ x ∈ items, b.Survives x.2) {ttl : ℚ} (hfits : items ≠ [] → ¬Overflows ttl)
    {v : Except RedisError Unit}
    (hserves : Serves s (b.setMany items (some ttl)) served v s') :
    v = .ok () ∧ b.Keeps now s' (items.foldl (fun l x ↦ l.write now ttl x) l) := by
  unfold RedisCacheBackend.setMany at hserves
  by_cases hempty : items = []
  · subst hempty
    obtain ⟨-, hv, rfl⟩ := serves_done_iff.mp hserves
    exact ⟨hv, h⟩
  rw [if_neg hempty] at hserves
  rcases le_or_gt ttl 0 with hnonpos | hpos
  · have hkeys : (items.map fun x ↦ b.makeKey x.1) = (items.map Prod.fst).map b.makeKey := by simp
    rw [ttlMs_of_nonpos hnonpos, hkeys] at hserves
    obtain ⟨rest, hrest⟩ := serves_delete hserves
    obtain ⟨-, hv, rfl⟩ := serves_done_iff.mp hrest
    rw [Ledger.writeAll_of_nonpos hnonpos]
    exact ⟨hv, h.remove _⟩
  · have hms := sentMs_pos ttl
    have hany : (some (sentMs ttl)).any (· ≤ 0) = false := by simpa using hms
    have hpx : (some (sentMs ttl)).map (max · 1) = some (sentMs ttl) :=
      congrArg some (max_eq_left hms)
    obtain ⟨commands, hdump⟩ := dumpAll_ok hitems (some (sentMs ttl))
    rw [ttlMs_of_pos hpos (hfits hempty), handled_done_bind, if_neg (by simp [hany]), hpx,
      hdump, handled_done_bind] at hserves
    obtain ⟨first, u, s₁, hfirst, hend⟩ := serves_handled hserves
    obtain ⟨rfl, h'⟩ := h.storeAll hitems hpos hdump hfirst
    obtain ⟨hv, rfl⟩ := hend () rfl
    exact ⟨hv, h'⟩

/-- What a clearing loop leaves: keys that were live throughout, and that no
scan has returned. -/
structure ClearLeaves (s : RedisServer) (served : List RedisServed) (s' : RedisServer) : Prop where
  clock : s'.now = s.now
  live : ∀ key, (s'.live key).isSome → (s.live key).isSome ∧
    ∀ e ∈ served, (e.before.live key).isSome ∧ ¬e.Returns key

theorem ClearLeaves.cons {s₁ : RedisServer} {e : RedisServed} (h : ClearLeaves s₁ served s')
    (hbefore : e.before = s)
    (hclock : s₁.now = s.now) (hlive : ∀ key, (s₁.live key).isSome → (s.live key).isSome)
    (hreturns : ∀ key, (s'.live key).isSome → ¬e.Returns key) : ClearLeaves s (e :: served) s' := by
  refine ⟨h.clock.trans hclock, fun key hkey ↦ ?_⟩
  obtain ⟨hfirst, hserved⟩ := h.live key hkey
  refine ⟨hlive key hfirst, ?_⟩
  rintro e' he'
  rcases List.mem_cons.mp he' with rfl | he'
  · exact ⟨hbefore ▸ hlive key hfirst, hreturns key hkey⟩
  · exact hserved e' he'

theorem serves_clearLoop {pages cursor : ℕ}
    (h : Serves s (handled (b.clearLoop pages cursor)) served (.ok ()) s') :
    ClearLeaves s served s' := by
  induction pages generalizing s cursor served with
  | zero => cases (serves_done_iff.mp h).2.1
  | succ pages ih =>
      have hnext : ∀ {next served s}, Serves s (handled
          (if next = 0 then return () else b.clearLoop pages next)) served (.ok ()) s' →
          ClearLeaves s served s' := by
        intro next served s h
        by_cases hzero : next = 0
        · rw [if_pos hzero] at h
          obtain ⟨rfl, -, rfl⟩ := serves_done_iff.mp h
          exact ⟨rfl, fun key hkey ↦ ⟨hkey, fun e he ↦ by cases he⟩⟩
        · rw [if_neg hzero] at h
          exact ih h
      obtain ⟨k, hstep, -, hempty, hpage⟩ := clearLoop_step (b := b) pages cursor
      rw [hstep] at h
      obtain ⟨page, q, s₁, rest, hexecute, hrest, rfl⟩ := serves_command_iff.mp h
      simp only [execute] at hexecute
      obtain ⟨-, hexecute⟩ := Option.ite_none_right_eq_some.mp hexecute
      obtain ⟨rfl, rfl⟩ := Prod.mk.inj (Option.some.inj hexecute)
      by_cases hnone : page.2 = []
      · rw [hempty page hnone] at hrest
        refine (hnext hrest).cons rfl rfl (fun _ ↦ id) fun key _ hreturns ↦ ?_
        have hmem : key ∈ page.2 := hreturns
        rw [hnone] at hmem
        cases hmem
      · obtain ⟨k', hk', hdeleted, -⟩ := hpage page hnone
        rw [hk'] at hrest
        obtain ⟨page', q, s₂, others, hdelete, hothers, rfl⟩ := serves_command_iff.mp hrest
        obtain ⟨rfl, rfl⟩ := Prod.mk.inj (Option.some.inj hdelete)
        rw [hdeleted] at hothers
        have hrest := hnext hothers
        have hremoved : ∀ key, ((s.remove page.2).live key).isSome →
            key ∉ page.2 ∧ (s.live key).isSome := by
          intro key hkey
          obtain ⟨e, he⟩ := Option.isSome_iff_exists.mp hkey
          obtain ⟨hentry, hdeadline⟩ := Option.filter_eq_some_iff.mp he
          simp only [RedisServer.remove] at hentry
          split at hentry
          · cases hentry
          · rename_i hmem
            exact ⟨hmem, Option.isSome_iff_exists.mpr
              ⟨e, Option.filter_eq_some_iff.mpr ⟨hentry, hdeadline⟩⟩⟩
        have hdeleting : ∀ q, ClearLeaves s (⟨s, .delete page.2, q⟩ :: others) s' := fun q ↦
          hrest.cons rfl rfl (fun key hkey ↦ (hremoved key hkey).2) fun _ _ hreturns ↦ hreturns
        refine (hdeleting _).cons rfl rfl (fun _ ↦ id) fun key hkey hreturns ↦ ?_
        exact (hremoved key (hrest.live key hkey).1).1 hreturns

theorem Keeps.clear (h : b.Keeps now s l) (hpre : b.keyPrefix ≠ []) {pages : ℕ}
    (hserves : Serves s (b.clear pages) served (.ok ()) s') (hscan : b.ScanComplete served s') :
    b.Keeps now s' .empty := by
  rw [RedisCacheBackend.clear, if_neg hpre] at hserves
  obtain ⟨hclock, hlive⟩ := serves_clearLoop hserves
  refine ⟨hclock.trans h.clock, fun key ↦ ?_⟩
  cases hkey : s'.live (b.makeKey key) with
  | none => exact .none
  | some e =>
      have hsome : (s'.live (b.makeKey key)).isSome := by rw [hkey]; rfl
      have hmatch := (globMatch_pattern _).mpr (owns_makeKey hpre key)
      obtain ⟨e, he, hreturns⟩ := hscan _ hmatch hsome fun e he ↦ ((hlive _ hsome).2 e he).1
      exact absurd hreturns ((hlive _ hsome).2 e he).2

/-- No time to live that the call sends overflows. -/
def Fits (call : ContractCall) : Prop :=
  ∀ ttl ∈ call.ttl, call.values ≠ [] → ¬Overflows ttl

/-- One call: the answer of the ledger. -/
theorem Keeps.call (h : b.Keeps now s l) (hpre : b.keyPrefix ≠ []) {call : ContractCall}
    (hvalues : ∀ v ∈ call.values, b.Survives v) (hfits : Fits call)
    {pages : ℕ} {v : Except RedisError ContractAnswer}
    (hserves : Serves s (call.redis b pages) served v s')
    (hclear : call = .clear → (∃ a, v = .ok a) ∧ b.ScanComplete served s') :
    v = .ok (call.answer now l finding) ∧ b.Keeps now s' (call.record now l) := by
  cases call with
  | get key default =>
      obtain ⟨u, hget, rfl⟩ := serves_map.mp hserves
      obtain ⟨rfl, rfl⟩ := serves_get (h.entries key) hget
      exact ⟨rfl, h⟩
  | set key value ttl =>
      obtain ⟨u, hset, rfl⟩ := serves_map.mp hserves
      obtain ⟨rfl, h'⟩ := h.set (hvalues value (List.mem_singleton_self value))
        (hfits ttl rfl (List.cons_ne_nil _ _)) hset
      exact ⟨rfl, h'⟩
  | delete key =>
      obtain ⟨u, hdelete, rfl⟩ := serves_map.mp hserves
      obtain ⟨rfl, h'⟩ := h.delete hdelete
      exact ⟨rfl, h'⟩
  | clear =>
      obtain ⟨⟨a, hv⟩, hscan⟩ := hclear rfl
      obtain ⟨u, hsweep, rfl⟩ := serves_map.mp hserves
      cases u with
      | error x => cases hv
      | ok u => exact ⟨rfl, h.clear hpre hsweep hscan⟩
  | getMany keys =>
      obtain ⟨u, hget, rfl⟩ := serves_map.mp hserves
      obtain ⟨rfl, rfl⟩ := serves_getMany h.entries hget
      exact ⟨rfl, h⟩
  | setMany values ttl =>
      obtain ⟨u, hset, rfl⟩ := serves_map.mp hserves
      obtain ⟨rfl, h'⟩ := h.setMany (fun x hx ↦ hvalues x.2 (List.mem_map_of_mem hx))
        (fun hne ↦ hfits ttl rfl fun hnil ↦ hne (List.map_eq_nil_iff.mp hnil)) hset
      exact ⟨rfl, h'⟩
  | deleteMany keys =>
      obtain ⟨u, hdelete, rfl⟩ := serves_map.mp hserves
      obtain ⟨rfl, h'⟩ := h.deleteMany hdelete
      exact ⟨rfl, h'⟩

/-- All answers of the backend are those of the ledger. -/
theorem answers_eq {calls : TimedCalls} {answers : List ContractAnswer} (h : b.Keeps now s l)
    (hpre : b.keyPrefix ≠ []) (hvalues : ∀ x ∈ calls, ∀ v ∈ x.2.values, b.Survives v)
    (hfits : ∀ x ∈ calls, Fits x.2)
    (hordered : (calls.map Prod.fst).Pairwise (· ≤ ·)) (hnow : ∀ x ∈ calls, now ≤ x.1)
    (hanswers : b.Answers calls s answers) :
    answers = calls.answers finding l := by
  induction hanswers generalizing now l with
  | nil s => rfl
  | @cons t call rest s s' pages served answer answers hserves hscan _ ih =>
      obtain ⟨hfirst, hrest⟩ := List.pairwise_cons.mp hordered
      obtain ⟨hanswer, h'⟩ := (h.later (hnow _ List.mem_cons_self)).call hpre
        (hvalues _ List.mem_cons_self) (hfits _ List.mem_cons_self) hserves
        fun hclear ↦ ⟨⟨_, rfl⟩, hscan hclear⟩
      have htail := ih h' (fun y hy ↦ hvalues y (List.mem_cons_of_mem _ hy))
        (fun y hy ↦ hfits y (List.mem_cons_of_mem _ hy)) hrest
        fun y hy ↦ hfirst y.1 (List.mem_map_of_mem hy)
      exact List.cons_eq_cons.mpr ⟨Except.ok.inj hanswer, htail⟩
  | raised hcall hserves =>
      obtain ⟨hanswer, -⟩ := (h.later (hnow _ List.mem_cons_self)).call hpre
        (hvalues _ List.mem_cons_self) (hfits _ List.mem_cons_self) hserves
        fun hclear ↦ absurd hclear hcall
      cases hanswer

/-- A call with a time to live that overflows raises. -/
theorem serves_overflow {call : ContractCall} (h : ¬Fits call) {pages : ℕ}
    {v : Except RedisError ContractAnswer} (hserves : Serves s (call.redis b pages) served v s') :
    ∃ x, v = .error x := by
  simp only [Fits, not_forall, not_not] at h
  obtain ⟨ttl, httl, hvalues, hoverflow⟩ := h
  cases call with
  | set key value ttl =>
      obtain rfl := Option.some.inj httl
      obtain ⟨u, hset, rfl⟩ := serves_map.mp hserves
      unfold RedisCacheBackend.set at hset
      rw [ttlMs_of_overflows hoverflow] at hset
      obtain ⟨-, rfl, -⟩ := serves_done_iff.mp hset
      exact ⟨.other, rfl⟩
  | setMany values ttl =>
      obtain rfl := Option.some.inj httl
      obtain ⟨u, hset, rfl⟩ := serves_map.mp hserves
      have hne : values.items ≠ [] := fun hnil ↦ hvalues (List.map_eq_nil_iff.mpr hnil)
      unfold RedisCacheBackend.setMany at hset
      rw [if_neg hne, ttlMs_of_overflows hoverflow] at hset
      obtain ⟨-, rfl, -⟩ := serves_done_iff.mp hset
      exact ⟨.other, rfl⟩
  | _ => cases httl

/-- So the answers to calls with such a time to live end in an error. -/
theorem raised_of_overflow {calls : TimedCalls} {answers : List ContractAnswer}
    (h : ∃ x ∈ calls, ¬Fits x.2) (hanswers : b.Answers calls s answers) : .raised ∈ answers := by
  induction hanswers with
  | nil s =>
      obtain ⟨x, hx, -⟩ := h
      cases hx
  | cons hserves _ _ ih =>
      obtain ⟨x, hx, hfits⟩ := h
      rcases List.mem_cons.mp hx with rfl | hx
      · obtain ⟨x, hx⟩ := serves_overflow hfits hserves
        cases hx
      · exact List.mem_cons_of_mem _ (ih ⟨x, hx, hfits⟩)
  | raised _ _ => exact List.mem_cons_self

/-- One page that returns all live keys of the namespace is enough. -/
theorem exists_serves_clear (h : b.Keeps now s l) (hpre : b.keyPrefix ≠ []) {room : Finset Str}
    (hl : l.Within room) :
    ∃ served s', Serves s (b.clear 1) served (.ok ()) s' ∧ b.ScanComplete served s' := by
  rw [RedisCacheBackend.clear, if_neg hpre]
  obtain ⟨k, hstep, -, hempty, hpage⟩ := clearLoop_step (b := b) 0 0
  obtain ⟨keys, hkeys⟩ : ∃ keys : List Str, ∀ key,
      key ∈ keys ↔ (∃ key' ∈ room, b.makeKey key' = key) ∧ (s.live key).isSome :=
    ⟨(room.toList.map b.makeKey).filter fun key ↦ (s.live key).isSome, fun key ↦ by simp⟩
  have hscan : s.execute (0, keys) (.scan 0 b.pattern) = some (.ok (0, keys), s) := by
    refine if_pos (List.all_eq_true.mpr fun key hkey ↦ Bool.and_eq_true_iff.mpr ?_)
    obtain ⟨⟨key', -, rfl⟩, hlive⟩ := (hkeys key).mp hkey
    exact ⟨hlive, (globMatch_pattern _).mpr (owns_makeKey hpre key')⟩
  have hrest : ∃ rest s', Serves s (k (.ok (0, keys))) rest (.ok ()) s' := by
    by_cases hnone : keys = []
    · rw [hempty (0, keys) hnone]
      exact ⟨[], s, .done s _⟩
    · obtain ⟨k', hk', hdeleted, -⟩ := hpage (0, keys) hnone
      rw [hk']
      have hend : ∀ n, Serves (s.remove keys) (k' (.ok n)) [] (.ok ()) (s.remove keys) := by
        intro n
        rw [hdeleted]
        exact .done _ _
      have hdelete : s.execute (0, []) (.delete keys) =
        some (.ok (keys.dedup.filter fun key ↦ (s.live key).isSome).length, s.remove keys) := rfl
      exact ⟨_, _, .command hdelete (hend _)⟩
  obtain ⟨rest, s', hrest⟩ := hrest
  rw [hstep]
  refine ⟨_, s', .command hscan hrest, fun key hmatch _ hthroughout ↦ ?_⟩
  have hlive := hthroughout _ List.mem_cons_self
  obtain ⟨key', rfl⟩ := (globMatch_pattern key).mp hmatch
  have hmade : cacheStem b.keyPrefix ++ key' = b.makeKey key' := by
    rw [makeKey, if_neg hpre]
    simp [cacheStem]
  rw [hmade] at hlive ⊢
  have hrecord : (l key').any (holds now) = true := by rwa [← h.isSome_live]
  obtain ⟨r, hr, -⟩ := (Option.any_eq_true _ _).mp hrecord
  have hmem : b.makeKey key' ∈ keys := (hkeys _).mpr ⟨⟨key', hl key' r hr, rfl⟩, hlive⟩
  exact ⟨_, List.mem_cons_self, hmem⟩

/-- The backend has answers to all calls. -/
theorem exists_answers {calls : TimedCalls} {room : Finset Str} (h : b.Keeps now s l)
    (hpre : b.keyPrefix ≠ []) (hl : l.Within room)
    (hkeys : ∀ x ∈ calls, ∀ key ∈ x.2.keys, key ∈ room)
    (hvalues : ∀ x ∈ calls, ∀ v ∈ x.2.values, b.Survives v)
    (hfits : ∀ x ∈ calls, Fits x.2)
    (hordered : (calls.map Prod.fst).Pairwise (· ≤ ·)) (hnow : ∀ x ∈ calls, now ≤ x.1) :
    ∃ answers, b.Answers calls s answers := by
  induction calls generalizing now s l with
  | nil => exact ⟨[], .nil s⟩
  | cons x rest ih =>
      obtain ⟨t, call⟩ := x
      obtain ⟨hfirst, hrest⟩ := List.pairwise_cons.mp hordered
      have hlater := h.later (hnow _ List.mem_cons_self)
      obtain ⟨pages, served, v, s', hserves, hclear⟩ : ∃ pages served v s',
          Serves (s.at t) (call.redis b pages) served v s' ∧
            (call = .clear → (∃ a, v = .ok a) ∧ b.ScanComplete served s') := by
        by_cases hcall : call = .clear
        · subst hcall
          obtain ⟨served, s', hserves, hscan⟩ := exists_serves_clear hlater hpre hl
          exact ⟨1, served, .ok .done, s', serves_map.mpr ⟨.ok (), hserves, rfl⟩,
            fun _ ↦ ⟨⟨_, rfl⟩, hscan⟩⟩
        · obtain ⟨served, v, s', hserves⟩ := exists_serves (s.at t) (call.redis b 0)
          exact ⟨0, served, v, s', hserves, fun hclear ↦ absurd hclear hcall⟩
      obtain ⟨rfl, h'⟩ := hlater.call hpre (hvalues _ List.mem_cons_self)
        (hfits _ List.mem_cons_self) hserves hclear
      obtain ⟨answers, hanswers⟩ := ih h' (hl.record (hkeys _ List.mem_cons_self))
        (fun y hy ↦ hkeys y (List.mem_cons_of_mem _ hy))
        (fun y hy ↦ hvalues y (List.mem_cons_of_mem _ hy))
        (fun y hy ↦ hfits y (List.mem_cons_of_mem _ hy)) hrest
        fun y hy ↦ hfirst y.1 (List.mem_map_of_mem hy)
      exact ⟨_, .cons hserves (fun hcall ↦ (hclear hcall).2) hanswers⟩

end RedisCacheBackend

end DjangoNova
