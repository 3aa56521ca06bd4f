import Mathlib.Data.Option.Basic
import DjangoNova.Interchange.Ledger
import DjangoNova.Redis.ClearNamespace

/-!
# The Redis backend keeps the ledger

The programs of the backend run alone on a server that answers every
command. The live keys of its namespace are the records of the ledger whose
time in milliseconds, as the backend sends it to the server, is not over.
-/

namespace DjangoNova

/-- A command that the server has executed, and the state before it. -/
structure RedisServed where
  before : RedisServer
  command : RedisCommand
  reply : Except RedisError command.Reply

/-- A scan that has returned the key. -/
def RedisServed.Returns (key : Str) : RedisServed → Prop
  | ⟨_, .scan _ _, .ok page⟩ => key ∈ page.2
  | _ => False

/-- The program runs alone on the server, at one instant, and ends. -/
inductive RedisServer.Serves {α : Type} :
    RedisServer → RedisProgram α → List RedisServed → Except RedisError α → RedisServer → Prop
  | done (s : RedisServer) (v : Except RedisError α) : Serves s (.done v) [] v s
  | clock {s s' : RedisServer} {k : Except RedisError ℚ → RedisProgram α}
      {served : List RedisServed} {v : Except RedisError α} :
      Serves s (k (.ok (s.now / 1000))) served v s' → Serves s (.step .clock k) served v s'
  | deadlinePassed {s s' : RedisServer} {k : Except RedisError Bool → RedisProgram α} (flag : Bool)
      {served : List RedisServed} {v : Except RedisError α} :
      Serves s (k (.ok flag)) served v s' → Serves s (.step .deadlinePassed k) served v s'
  | command {s s' s'' : RedisServer} {c : RedisCommand}
      {k : Except RedisError (RedisEffect.Reply (.command c)) → RedisProgram α}
      {page : ℕ × List Str} {q : Except RedisError c.Reply} {served : List RedisServed}
      {v : Except RedisError α} : s.execute page c = some (q, s') → Serves s' (k q) served v s'' →
      Serves s (.step (.command c) k) (⟨s, c, q⟩ :: served) v s''

/-- The guarantee of `SCAN`: a key of the pattern that is present throughout
the iteration is returned. -/
def RedisCacheBackend.ScanComplete {V : Type} (b : RedisCacheBackend V) (served : List RedisServed)
    (after : RedisServer) : Prop :=
  ∀ key, Glob.globMatch b.pattern key = true → (after.live key).isSome →
    (∀ e ∈ served, (e.before.live key).isSome) → ∃ e ∈ served, e.Returns key

section Serving

variable {α : Type} {s s' : RedisServer} {served : List RedisServed} {v : Except RedisError α}

open RedisServer

theorem serves_done_iff {u : Except RedisError α} :
    Serves s (.done u) served v s' ↔ served = [] ∧ v = u ∧ s' = s := by
  constructor
  · intro h
    cases h
    exact ⟨rfl, rfl, rfl⟩
  · rintro ⟨rfl, rfl, rfl⟩
    exact .done _ _

theorem serves_command_iff {c : RedisCommand}
    {k : Except RedisError (RedisEffect.Reply (.command c)) → RedisProgram α} :
    Serves s (.step (.command c) k) served v s' ↔
      ∃ page q s₁ rest, s.execute page c = some (q, s₁) ∧ Serves s₁ (k q) rest v s' ∧
        served = ⟨s, c, q⟩ :: rest := by
  constructor
  · intro h
    cases h with
    | command hexecute hrest => exact ⟨_, _, _, _, hexecute, hrest, rfl⟩
  · rintro ⟨page, q, s₁, rest, hexecute, hrest, rfl⟩
    exact .command hexecute hrest

theorem serves_andThen {β : Type} {p : RedisProgram α} {f : Except RedisError α → RedisProgram β}
    {u : Except RedisError β} : Serves s (p.andThen f) served u s' ↔
      ∃ first v s₁ second, Serves s p first v s₁ ∧ Serves s₁ (f v) second u s' ∧
        served = first ++ second := by
  constructor
  · intro h
    induction p generalizing s served with
    | done v => exact ⟨[], v, s, served, .done s v, h, rfl⟩
    | step e k ih =>
        cases h with
        | command hexecute hrest =>
            obtain ⟨first, v, s₁, second, hfirst, hsecond, rfl⟩ := ih _ hrest
            exact ⟨_, v, s₁, second, .command hexecute hfirst, hsecond, rfl⟩
        | clock hrest =>
            obtain ⟨first, v, s₁, second, hfirst, hsecond, rfl⟩ := ih _ hrest
            exact ⟨first, v, s₁, second, .clock hfirst, hsecond, rfl⟩
        | deadlinePassed flag hrest =>
            obtain ⟨first, v, s₁, second, hfirst, hsecond, rfl⟩ := ih _ hrest
            exact ⟨first, v, s₁, second, .deadlinePassed flag hfirst, hsecond, rfl⟩
  · rintro ⟨first, v, s₁, second, hfirst, hsecond, rfl⟩
    induction hfirst with
    | done s v => exact hsecond
    | command hexecute _ ih => exact .command hexecute (ih hsecond)
    | clock _ ih => exact .clock (ih hsecond)
    | deadlinePassed flag _ ih => exact .deadlinePassed flag (ih hsecond)

/-- A result that is passed on through a function. -/
theorem serves_map {β : Type} {p : RedisProgram α} {f : α → β} {u : Except RedisError β} :
    Serves s (p >>= fun a ↦ return f a) served u s' ↔
      ∃ v, Serves s p served v s' ∧ u = v.map f := by
  have hmap : ∀ v : Except RedisError α, ∀ s₁ second,
      Serves s₁ (Program.bind (Program.done v) fun a ↦ return f a) second u s' ↔
        second = [] ∧ u = v.map f ∧ s' = s₁ := by
    intro v s₁ second
    cases v <;> exact serves_done_iff
  constructor
  · intro h
    obtain ⟨first, v, s₁, second, hfirst, hsecond, rfl⟩ := serves_andThen.mp h
    obtain ⟨rfl, rfl, rfl⟩ := (hmap v s₁ second).mp hsecond
    exact ⟨v, by rwa [List.append_nil], rfl⟩
  · rintro ⟨v, hv, rfl⟩
    exact serves_andThen.mpr ⟨served, v, s', [], hv, (hmap v s' []).mpr ⟨rfl, rfl, rfl⟩,
      (List.append_nil _).symm⟩

/-- A command is executed whenever scans may return nothing. -/
theorem exists_execute (s : RedisServer) (c : RedisCommand) :
    ∃ q s', s.execute (0, []) c = some (q, s') := by
  cases c with
  | get key =>
      simp only [execute]
      split <;> exact ⟨_, _, rfl⟩
  | set key value onlyIfAbsent px =>
      simp only [execute]
      split
      · exact ⟨_, _, rfl⟩
      · split <;> exact ⟨_, _, rfl⟩
  | unlock key identifier =>
      simp only [execute]
      split
      · split <;> exact ⟨_, _, rfl⟩
      · exact ⟨_, _, rfl⟩
      · exact ⟨_, _, rfl⟩
  | slidingWindow key window limit now requestId =>
      simp only [execute]
      split <;> exact ⟨_, _, rfl⟩
  | _ => exact ⟨_, _, rfl⟩

theorem exists_serves (s : RedisServer) (p : RedisProgram α) :
    ∃ served v s', Serves s p served v s' := by
  induction p generalizing s with
  | done v => exact ⟨[], v, s, .done s v⟩
  | step e k ih =>
      cases e with
      | command c =>
          obtain ⟨q, s₁, hexecute⟩ := exists_execute s c
          obtain ⟨served, v, s', hrest⟩ := ih q s₁
          exact ⟨_, v, s', .command hexecute hrest⟩
      | clock =>
          obtain ⟨served, v, s', hrest⟩ := ih _ s
          exact ⟨served, v, s', .clock hrest⟩
      | deadlinePassed =>
          obtain ⟨served, v, s', hrest⟩ := ih (.ok false) s
          exact ⟨served, v, s', .deadlinePassed false hrest⟩

end Serving

namespace RedisCacheBackend

variable {α : Type} {b : RedisCacheBackend PyObject} {s s' : RedisServer}
  {served : List RedisServed}
  {key : Str}

open RedisServer

/-- The time of a positive time to live, in milliseconds, that the backend
sends to the server. -/
def sentMs (ttl : ℚ) : ℤ := (Binary64.nearest (ttl * 1000)).elim 1 fun product ↦ max 1 ⌊product⌋

/-- The product with `1000` is infinite. -/
def Overflows (ttl : ℚ) : Prop := 0 < ttl ∧ Binary64.nearest (ttl * 1000) = none

theorem sentMs_pos (ttl : ℚ) : 0 < sentMs ttl := by
  unfold sentMs
  cases Binary64.nearest (ttl * 1000) with
  | none => exact one_pos
  | some product => exact one_pos.trans_le (le_max_left 1 _)

theorem ttlMs_of_nonpos {ttl : ℚ} (h : ttl ≤ 0) : ttlMs (some ttl) = .ok (some 0) := if_pos h

theorem ttlMs_of_pos {ttl : ℚ} (h : 0 < ttl) (hfits : ¬Overflows ttl) :
    ttlMs (some ttl) = .ok (some (sentMs ttl)) := by
  rw [ttlMs, if_neg (not_le.mpr h), sentMs]
  cases hproduct : Binary64.nearest (ttl * 1000) with
  | none => exact absurd ⟨h, hproduct⟩ hfits
  | some product => rfl

theorem ttlMs_of_overflows {ttl : ℚ} (h : Overflows ttl) : ttlMs (some ttl) = .error .other := by
  rw [ttlMs, if_neg (not_le.mpr h.1), h.2]

/-- The end of the time of a record on the server. -/
def serverDeadline (r : LedgerRecord) : ℚ := 1000 * r.time + sentMs r.ttl

/-- The server still has the entry of a record. -/
def holds (now : ℚ) (r : LedgerRecord) : Bool := 1000 * now < serverDeadline r

/-- Reads and deletions find what the server has. -/
def finding : Finding := ⟨holds, holds⟩

/-- The entry of a record. -/
structure EntryOf (b : RedisCacheBackend PyObject) (r : LedgerRecord) (e : RedisEntry) : Prop where
  deadline : e.deadline = some (serverDeadline r)
  payload : ∃ raw, e.value = .string raw ∧ b.loads raw = .ok r.value

theorem serves_get {r : Option LedgerRecord} {v : Except RedisError (Option PyObject)}
    (hr : Option.Rel b.EntryOf r (s.live (b.makeKey key))) (h : Serves s (b.get key) served v s') :
    v = .ok (r.map LedgerRecord.value) ∧ s' = s := by
  obtain ⟨page, q, s₁, rest, hexecute, hrest, -⟩ := serves_command_iff.mp h
  simp only [execute] at hexecute
  generalize s.live (b.makeKey key) = entry at hr hexecute
  cases hr with
  | none =>
      obtain ⟨rfl, rfl⟩ := Prod.mk.inj (Option.some.inj hexecute)
      obtain ⟨-, hv, hs⟩ := serves_done_iff.mp hrest
      exact ⟨hv, hs⟩
  | @some r e hr =>
      obtain ⟨value, deadline⟩ := e
      obtain ⟨raw, rfl, hloads⟩ := hr.payload
      obtain ⟨rfl, rfl⟩ := Prod.mk.inj (Option.some.inj hexecute)
      have hend : Serves s (handled (Program.done (b.loads raw) >>= fun value ↦ return some value))
        rest v s' := hrest
      rw [hloads] at hend
      obtain ⟨-, hv, hs⟩ := serves_done_iff.mp hend
      exact ⟨hv, hs⟩

/-- A value that survives the serializer. -/
def Survives (b : RedisCacheBackend PyObject) (value : PyObject) : Prop :=
  ∃ raw, b.dumps value = .ok raw ∧ b.loads raw = .ok value

theorem serves_delete {keys : List Str} {k : Except RedisError ℕ → RedisProgram α}
    {v : Except RedisError α}
    (h : Serves s (.step (.command (.delete keys)) k) served v s') :
    ∃ rest, Serves (s.remove keys)
      (k (.ok (keys.dedup.filter fun key ↦ (s.live key).isSome).length))
      rest v s' := by
  obtain ⟨page, q, s₁, rest, hexecute, hrest, -⟩ := serves_command_iff.mp h
  obtain ⟨rfl, rfl⟩ := Prod.mk.inj (Option.some.inj hexecute)
  exact ⟨rest, hrest⟩

theorem serves_deleteOne {v : Except RedisError Bool} (h : Serves s (b.delete key) served v s') :
    v = .ok (s.live (b.makeKey key)).isSome ∧ s' = s.remove [b.makeKey key] := by
  obtain ⟨rest, hrest⟩ := serves_delete h
  obtain ⟨-, hv, hs⟩ := serves_done_iff.mp hrest
  refine ⟨hv.trans ?_, hs⟩
  cases hlive : (s.live (b.makeKey key)).isSome <;> simp [hlive]

theorem serves_deleteMany {keys : List Str} {v : Except RedisError ℕ}
    (h : Serves s (b.deleteMany keys) served v s') :
    v = .ok ((keys.map b.makeKey).dedup.filter fun key ↦ (s.live key).isSome).length ∧
      s' = s.remove (keys.map b.makeKey) := by
  unfold RedisCacheBackend.deleteMany at h
  by_cases hkeys : keys = []
  · rw [if_pos hkeys] at h
    obtain ⟨-, hv, rfl⟩ := serves_done_iff.mp h
    subst hkeys
    exact ⟨hv, by simp [RedisServer.remove]⟩
  · rw [if_neg hkeys] at h
    obtain ⟨rest, hrest⟩ := serves_delete h
    obtain ⟨-, hv, hs⟩ := serves_done_iff.mp hrest
    exact ⟨hv, hs⟩

theorem execute_set {page : ℕ × List Str} {raw : Str} {n : ℤ} (hn : 0 < n) :
    s.execute page (.set key raw false (some n)) =
      some (.ok true, s.put key ⟨.string raw, some (s.now + n)⟩) := by
  have hpositive : ¬(some n).any (· ≤ 0) = true := by simpa using hn
  simp [execute, hpositive]

theorem handled_done_bind {β : Type} (a : β) (f : β → RedisProgram α) :
    handled ((Program.done (.ok a) : RedisProgram β) >>= f) = handled (f a) := rfl

/-- A key is stored with its deadline, or deleted if its time is over. -/
theorem serves_set {value : PyObject} (hvalue : b.Survives value) {ttl : ℚ}
    (hfits : ¬Overflows ttl) {v : Except RedisError Unit}
    (h : Serves s (b.set key value (some ttl)) served v s') :
    v = .ok () ∧ ((ttl ≤ 0 ∧ s' = s.remove [b.makeKey key]) ∨ 0 < ttl ∧ ∃ raw,
      b.loads raw = .ok value ∧
        s' = s.put (b.makeKey key) ⟨.string raw, some (s.now + sentMs ttl)⟩) := by
  obtain ⟨raw, hdumps, hloads⟩ := hvalue
  unfold RedisCacheBackend.set at h
  rcases le_or_gt ttl 0 with hnonpos | hpos
  · rw [ttlMs_of_nonpos hnonpos] at h
    obtain ⟨rest, hrest⟩ := serves_delete h
    obtain ⟨-, hv, hs⟩ := serves_done_iff.mp hrest
    exact ⟨hv, .inl ⟨hnonpos, hs⟩⟩
  · have hms := sentMs_pos ttl
    have hany : ¬(some (sentMs ttl)).any (· ≤ 0) = true := by simpa using hms
    have hpx : (some (sentMs ttl)).map (max · 1) = some (sentMs ttl) :=
      congrArg some (max_eq_left hms)
    rw [ttlMs_of_pos hpos hfits, handled_done_bind, if_neg hany, hdumps, hpx] at h
    obtain ⟨page, q, s₁, rest, hexecute, hrest, -⟩ := serves_command_iff.mp h
    rw [execute_set hms] at hexecute
    obtain ⟨rfl, rfl⟩ := Prod.mk.inj (Option.some.inj hexecute)
    obtain ⟨-, hv, hs⟩ := serves_done_iff.mp hrest
    exact ⟨hv, .inr ⟨hpos, raw, hloads, hs⟩⟩

theorem loadAll_eq {record : Str → Option LedgerRecord} {raw : Str → Option Str} (keys : List Str)
    (h : ∀ key, Option.Rel (fun r p ↦ b.loads p = .ok r.value) (record key) (raw key)) :
    b.loadAll (keys.zip (keys.map raw)) =
      .ok (keys.map fun key ↦ (key, (record key).map LedgerRecord.value)) := by
  induction keys with
  | nil => rfl
  | cons key rest ih =>
      have hkey := h key
      rw [List.map_cons, List.zip_cons_cons, List.map_cons]
      generalize raw key = p at hkey
      generalize record key = r at hkey
      cases hkey with
      | none => simp [loadAll, ih, bind, Except.bind, pure, Except.pure]
      | some hloads => simp [loadAll, ih, hloads, bind, Except.bind, pure, Except.pure]

/-- What a reader of strings gets for an entry. -/
def storedString : Option RedisEntry → Option Str
  | some ⟨.string v, _⟩ => some v
  | _ => none

theorem serves_getMany {keys : List Str} {record : Str → Option LedgerRecord}
    {v : Except RedisError (List (Str × Option PyObject))}
    (hrecord : ∀ key, Option.Rel b.EntryOf (record key) (s.live (b.makeKey key)))
    (h : Serves s (b.getMany keys) served v s') :
    v = .ok (keys.map fun key ↦ (key, (record key).map LedgerRecord.value)) ∧ s' = s := by
  unfold RedisCacheBackend.getMany at h
  by_cases hkeys : keys = []
  · subst hkeys
    obtain ⟨-, hv, hs⟩ := serves_done_iff.mp h
    exact ⟨hv, hs⟩
  · rw [if_neg hkeys] at h
    obtain ⟨page, q, s₁, rest, hexecute, hrest, -⟩ := serves_command_iff.mp h
    have hstrings : s.execute page (.mget (keys.map b.makeKey)) =
        some (.ok ((keys.map b.makeKey).map fun key ↦ storedString (s.live key)), s) := rfl
    obtain ⟨rfl, rfl⟩ := Prod.mk.inj (Option.some.inj (hstrings.symm.trans hexecute))
    have hstored : ∀ key, Option.Rel (fun r p ↦ b.loads p = .ok r.value) (record key)
        (storedString (s.live (b.makeKey key))) := by
      intro key
      have hkey := hrecord key
      generalize s.live (b.makeKey key) = entry at hkey
      generalize record key = r at hkey
      cases hkey with
      | none => exact .none
      | @some r e he =>
          obtain ⟨value, deadline⟩ := e
          obtain ⟨raw, rfl, hloads⟩ := he.payload
          exact .some hloads
    have hloads := loadAll_eq keys hstored
    have hend : Serves s (handled (Program.done (b.loadAll (keys.zip ((keys.map b.makeKey).map
        fun key ↦ storedString (s.live key)))))) rest v s' := hrest
    rw [List.map_map] at hend
    rw [show b.loadAll (keys.zip (keys.map ((fun key ↦ storedString (s.live key)) ∘ b.makeKey))) = _
      from hloads] at hend
    obtain ⟨-, hv, hs⟩ := serves_done_iff.mp hend
    exact ⟨hv, hs⟩

end RedisCacheBackend

end DjangoNova
