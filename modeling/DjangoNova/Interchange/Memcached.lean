import Mathlib.Data.Option.Basic
import DjangoNova.Interchange.Ledger

/-!
# The Memcached backend keeps the ledger

Every record of the ledger is an item of the server, with its envelope. The
server holds an item until its drop time, which is not before the end of
the time to live, and a deletion finds the items that it holds.
-/

namespace DjangoNova

open MemcachedServer MemcachedCacheBackend

namespace MemcachedCacheBackend

variable {B : Type}

/-- A call at one time. -/
def perform (b : MemcachedCacheBackend B) (now : ℚ) :
    ContractCall → MemcachedServer B → Except MemcachedError (ContractAnswer × MemcachedServer B)
  | .get key default, s => do
      let v ← b.get now key default s
      return (.value v, s)
  | .set key value ttl, s => do
      let s ← b.set ⟨now, now, now⟩ key value (some ttl) s
      return (.done, s)
  | .delete key, s => .ok (.deleted (delete now key s).1, (delete now key s).2)
  | .clear, _ => .ok (.done, clear)
  | .getMany keys, s => do
      let d ← b.getMany now keys s
      return (.values d.items, s)
  | .setMany values ttl, s => do
      let s ← b.setMany ⟨now, now, now⟩ (some ttl) values.items s
      return (.done, s)
  | .deleteMany keys, s => .ok (.count (deleteMany now keys s).1, (deleteMany now keys s).2)

/-- The answers of the backend, each call at its own time; an error ends them. -/
def answers (b : MemcachedCacheBackend B) : TimedCalls → MemcachedServer B → List ContractAnswer
  | [], _ => []
  | (now, call) :: rest, s =>
      match b.perform now call s with
      | .ok (answer, s) => answer :: answers b rest s
      | .error _ => [.raised]

/-- When the server drops the item of a record. -/
def drop (r : LedgerRecord) : Option ℚ := dropTime r.time (memcachedExpire r.time (some r.ttl))

/-- The server still holds the item of a record. -/
def holds (now : ℚ) (r : LedgerRecord) : Bool := (drop r).all (now < ·)

theorem holds_of_current {now : ℚ} {r : LedgerRecord} (htime : 0 ≤ r.time)
    (h : r.current now = true) : holds now r = true := by
  have hcurrent : now < r.deadline := of_decide_eq_true h
  have hpos : ∀ seconds ∈ some r.ttl, 0 < seconds := by simpa using r.positive
  refine (Option.all_eq_true _ _).mpr fun d hd ↦ decide_eq_true ?_
  have hdrop : d ∈ dropTime (SetTimes.received ⟨r.time, r.time, r.time⟩)
    (memcachedExpire (SetTimes.expired ⟨r.time, r.time, r.time⟩) (some r.ttl)) := hd
  obtain ⟨seconds, hseconds, hle⟩ := dropTime_expire hpos htime le_rfl le_rfl d hdrop
  obtain rfl := Option.some.inj hseconds
  exact hcurrent.trans_le hle

/-- Reads look at the deadline of the envelope, deletions do not. -/
def finding : Finding := ⟨LedgerRecord.current, holds⟩

/-- A value whose envelopes survive the serializer. -/
def Survives (b : MemcachedCacheBackend B) (value : PyObject) : Prop :=
  ∀ d : ℚ, ∃ payload, b.serializer.dumps (envelope (.float (.finite d)) value) = .ok payload ∧
    b.serializer.loads payload = envelope (.float (.finite d)) value

/-- The item of a record. -/
structure ItemOf (b : MemcachedCacheBackend B) (r : LedgerRecord) (item : B × Option ℚ) : Prop where
  payload : b.serializer.loads item.1 = envelope (deadline r.time (some r.ttl)) r.value
  dropped : item.2 = drop r

/-- The items are those of the records of the ledger, whose times are not negative. -/
structure Keeps (b : MemcachedCacheBackend B) (s : MemcachedServer B) (l : Ledger) : Prop where
  items : ∀ key, Option.Rel b.ItemOf (l key) (s.items key)
  times : ∀ key, ∀ r ∈ l key, 0 ≤ r.time

section Calls

variable {b : MemcachedCacheBackend B} {s : MemcachedServer B} {l : Ledger} {now ttl : ℚ}
  {key : Str}
  {value : PyObject}

/-- What the server returns for a key. -/
theorem Keeps.live_cases (h : b.Keeps s l) (now : ℚ) (key : Str) :
    (l key = none ∧ s.live now key = none) ∨
      ∃ r payload, l key = some r ∧
        b.serializer.loads payload = envelope (deadline r.time (some r.ttl)) r.value ∧
          s.live now key = if holds now r then some payload else none := by
  have hitem := h.items key
  unfold MemcachedServer.live
  generalize s.items key = item at hitem
  generalize l key = r at hitem
  cases hitem with
  | none => exact .inl ⟨rfl, rfl⟩
  | @some r item hitem =>
      refine .inr ⟨r, item.1, rfl, hitem.payload, ?_⟩
      rw [Option.filter_some, hitem.dropped]
      show Option.map Prod.fst (if holds now r = true then some item else none) = _
      cases holds now r <;> rfl

theorem Keeps.live (h : b.Keeps s l) (now : ℚ) (key : Str) :
    (s.live now key).isSome = (l key).any (holds now) := by
  obtain ⟨hnone, hlive⟩ | ⟨r, payload, hr, -, hlive⟩ := h.live_cases now key
  · rw [hnone, hlive]
    rfl
  · rw [hr, hlive]
    cases hheld : holds now r <;> simp [hheld]

theorem Keeps.get (h : b.Keeps s l) (now : ℚ) (key : Str) (default : PyObject) :
    b.get now key default s =
      .ok ((l.value (LedgerRecord.current now) key).getD default) := by
  unfold MemcachedCacheBackend.get Ledger.value
  obtain ⟨hnone, hlive⟩ | ⟨r, payload, hr, hloads, hlive⟩ := h.live_cases now key
  · rw [hnone, hlive]
    rfl
  · rw [hr, hlive, Option.filter_some]
    cases hcurrent : r.current now with
    | true =>
        have hnow : now < r.time + r.ttl := of_decide_eq_true hcurrent
        rw [if_pos (holds_of_current (h.times key r hr) hcurrent)]
        simp only [unpack, hloads, unpackObject_envelope]
        simp [hnow, bind, Except.bind, pure, Except.pure]
    | false =>
        have hnow : ¬now < r.time + r.ttl := of_decide_eq_false hcurrent
        cases holds now r with
        | true =>
            simp only [if_true, unpack, hloads, unpackObject_envelope]
            simp [hnow, bind, Except.bind, pure, Except.pure]
        | false => rfl

theorem Keeps.remove (h : b.Keeps s l) (key : Str) : b.Keeps (s.remove key) (l.forget [key]) := by
  constructor
  · intro key'
    by_cases hkey : key' = key
    · subst hkey
      simp [Ledger.forget, MemcachedServer.remove]
    · simpa [Ledger.forget, MemcachedServer.remove, hkey] using h.items key'
  · intro key' r hr
    by_cases hkey : key' = key
    · simp [Ledger.forget, hkey] at hr
    · exact h.times key' r (by simpa [Ledger.forget, hkey] using hr)

theorem Keeps.set (h : b.Keeps s l) (hnow : 0 ≤ now) (hvalue : b.Survives value) (key : Str)
    (ttl : ℚ) : ∃ s', b.set ⟨now, now, now⟩ key value (some ttl) s = .ok s' ∧
      b.Keeps s' (l.write now ttl (key, value)) := by
  unfold MemcachedCacheBackend.set
  by_cases hpos : 0 < ttl
  · obtain ⟨payload, hdumps, hloads⟩ : ∃ payload, b.serializer.dumps
        (envelope (deadline now (some ttl)) value) = .ok payload ∧
          b.serializer.loads payload = envelope (deadline now (some ttl)) value :=
        hvalue (now + ttl)
    have hany : (some ttl).any (· ≤ 0) = false := by simpa using hpos
    refine ⟨s.put now key payload (memcachedExpire now (some ttl)), ?_, ?_, ?_⟩
    · simp [hany, pack, hdumps, bind, Except.bind, pure, Except.pure]
    · intro key'
      by_cases hkey : key' = key
      · subst hkey
        have hitem : (s.put now key' payload (memcachedExpire now (some ttl))).items key' =
          some (payload, dropTime now (memcachedExpire now (some ttl))) := Function.update_self ..
        rw [Ledger.write_of_pos hpos, hitem]
        exact .some ⟨hloads, rfl⟩
      · have hitem : (s.put now key payload (memcachedExpire now (some ttl))).items key' =
          s.items key' := Function.update_of_ne hkey ..
        rw [Ledger.write_ne hkey, hitem]
        exact h.items key'
    · intro key' r hr
      by_cases hkey : key' = key
      · subst hkey
        rw [Ledger.write_of_pos hpos, Option.mem_some_iff] at hr
        exact hr ▸ hnow
      · rw [Ledger.write_ne hkey] at hr
        exact h.times key' r hr
  · have hany : (some ttl).any (· ≤ 0) = true := by simpa using hpos
    refine ⟨s.remove key, by simp [hany], ?_⟩
    rw [Ledger.write_of_nonpos (not_lt.mp hpos)]
    exact h.remove key

theorem Keeps.getEach (h : b.Keeps s l) (now : ℚ) (keys : List Str) :
    b.getEach now s keys =
      .ok (keys.map fun key ↦ (key, (l.value (LedgerRecord.current now) key).getD .none)) := by
  induction keys with
  | nil => rfl
  | cons key rest ih =>
      simp [MemcachedCacheBackend.getEach, h.get, ih, bind, Except.bind, pure, Except.pure]

theorem Keeps.setMany (h : b.Keeps s l) (hnow : 0 ≤ now) {items : List (Str × PyObject)}
    (hitems : ∀ x ∈ items, b.Survives x.2) (ttl : ℚ) :
    ∃ s', b.setMany ⟨now, now, now⟩ (some ttl) items s = .ok s' ∧
      b.Keeps s' (items.foldl (fun l x ↦ l.write now ttl x) l) := by
  induction items generalizing s l with
  | nil => exact ⟨s, rfl, h⟩
  | cons x rest ih =>
      obtain ⟨s', hset, h'⟩ := h.set hnow (hitems x List.mem_cons_self) x.1 ttl
      obtain ⟨s'', hrest, h''⟩ := ih h' fun y hy ↦ hitems y (List.mem_cons_of_mem _ hy)
      exact ⟨s'', by simp [MemcachedCacheBackend.setMany, hset, hrest, bind, Except.bind], h''⟩

theorem Keeps.deleteMany (h : b.Keeps s l) (now : ℚ) (keys : List Str) :
    (deleteMany now keys s).1 = (l.found (holds now) keys).card ∧
      b.Keeps (deleteMany now keys s).2 (l.forget keys) := by
  induction keys generalizing s l with
  | nil => exact ⟨rfl, Ledger.forget_nil.symm ▸ h⟩
  | cons key rest ih =>
      obtain ⟨hcount, h'⟩ := ih (h.remove key)
      rw [Ledger.forget_cons] at h'
      refine ⟨?_, h'⟩
      rw [Ledger.card_found_cons, ← hcount, ← h.live now key]
      show (if (s.live now key).isSome = true
        then (MemcachedCacheBackend.deleteMany now rest _).1 + 1
        else (MemcachedCacheBackend.deleteMany now rest _).1) = _
      split
      · exact Nat.add_comm _ _
      · exact (Nat.zero_add _).symm

end Calls

section Runs

variable {b : MemcachedCacheBackend B} {s : MemcachedServer B} {l : Ledger} {now : ℚ}

/-- One call: the answer of the ledger. -/
theorem Keeps.call (h : b.Keeps s l) (hnow : 0 ≤ now) {call : ContractCall}
    (hvalues : ∀ v ∈ call.values, b.Survives v) :
    ∃ s', b.perform now call s = .ok (call.answer now l finding, s') ∧
      b.Keeps s' (call.record now l) := by
  cases call with
  | get key default =>
      refine ⟨s, ?_, h⟩
      simp [perform, h.get, ContractCall.answer, finding, bind, Except.bind, pure, Except.pure]
  | set key value ttl =>
      obtain ⟨s', hset, h'⟩ := h.set hnow (hvalues value (List.mem_singleton_self value)) key ttl
      refine ⟨s', ?_, h'⟩
      simp [perform, hset, ContractCall.answer, bind, Except.bind, pure, Except.pure]
  | delete key =>
      refine ⟨_, ?_, h.remove key⟩
      rw [perform, delete, h.live now key]
      rfl
  | clear => exact ⟨clear, rfl, fun _ ↦ .none, fun key r hr ↦ by cases hr⟩
  | getMany keys =>
      refine ⟨s, ?_, h⟩
      have hempty : (OrderedDict.empty : OrderedDict Str PyObject).items =
        (OrderedDict.empty : OrderedDict Str (Option PyObject)).items.map
          (fun x ↦ (x.1, x.2.getD .none)) := rfl
      have hvalues := OrderedDict.items_setItems_map (fun v : Option PyObject ↦ v.getD .none)
        (keys.map fun key ↦ (key, l.value (LedgerRecord.current now) key)) hempty
      rw [List.map_map] at hvalues
      simp only [perform, getMany, h.getEach, ContractCall.answer, ContractCall.valuesOf, finding,
        bind, Except.bind, pure, Except.pure]
      rw [← hvalues]
      rfl
  | setMany values ttl =>
      have hitems : ∀ x ∈ values.items, b.Survives x.2 := fun x hx ↦
        hvalues x.2 (List.mem_map_of_mem hx)
      obtain ⟨s', hset, h'⟩ := h.setMany hnow hitems ttl
      refine ⟨s', ?_, h'⟩
      simp [perform, hset, ContractCall.answer, bind, Except.bind, pure, Except.pure]
  | deleteMany keys =>
      obtain ⟨hcount, h'⟩ := h.deleteMany now keys
      exact ⟨_, by rw [perform, hcount]; rfl, h'⟩

theorem answers_eq {calls : TimedCalls} (h : b.Keeps s l) (hcalls : ∀ x ∈ calls, 0 ≤ x.1)
    (hvalues : ∀ x ∈ calls, ∀ v ∈ x.2.values, b.Survives v) :
    b.answers calls s = calls.answers finding l := by
  induction calls generalizing s l with
  | nil => rfl
  | cons x rest ih =>
      obtain ⟨now, call⟩ := x
      obtain ⟨s', hperform, h'⟩ := h.call (hcalls _ List.mem_cons_self)
        (hvalues _ List.mem_cons_self)
      have hrest := ih h' (fun y hy ↦ hcalls y (List.mem_cons_of_mem _ hy))
        fun y hy ↦ hvalues y (List.mem_cons_of_mem _ hy)
      rw [answers, hperform]
      exact List.cons_eq_cons.mpr ⟨rfl, hrest⟩

theorem keeps_empty : b.Keeps clear .empty := ⟨fun _ ↦ .none, fun key r hr ↦ by cases hr⟩

end Runs

end MemcachedCacheBackend

end DjangoNova
