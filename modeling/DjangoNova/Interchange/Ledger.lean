import Mathlib.Data.Finset.Dedup
import DjangoNova.Collections.OrderedDict
import DjangoNova.Memcached.CacheBackend

/-!
# A ledger of cache writes

What the calls of a cache mean, apart from any backend: for each key the
last write that was not deleted since, with its time and its time to live.
Which records a read or a deletion finds is left open: it is where the
backends differ. A `Finding` fixes it.
-/

namespace DjangoNova

/-- The calls that every backend offers. Times to live are in seconds. -/
inductive ContractCall where
  | get (key : Str) (default : PyObject)
  | set (key : Str) (value : PyObject) (ttl : ℚ)
  | delete (key : Str)
  | clear
  | getMany (keys : List Str)
  | setMany (values : OrderedDict Str PyObject) (ttl : ℚ)
  | deleteMany (keys : List Str)

/-- What a call returns: a value, whether a key was deleted, a dictionary or
a count; or that it raises. -/
inductive ContractAnswer where
  | value (v : PyObject)
  | deleted (found : Bool)
  | values (items : List (Str × PyObject))
  | count (n : ℕ)
  | done
  | raised

structure LedgerRecord where
  value : PyObject
  time : ℚ
  ttl : ℚ
  positive : 0 < ttl

/-- The end of the time to live. -/
def LedgerRecord.deadline (r : LedgerRecord) : ℚ := r.time + r.ttl

def LedgerRecord.current (now : ℚ) (r : LedgerRecord) : Bool := now < r.deadline

abbrev Ledger : Type := Str → Option LedgerRecord

/-- The records that the reads and the deletions of a backend find at a time. -/
structure Finding where
  read : ℚ → LedgerRecord → Bool
  delete : ℚ → LedgerRecord → Bool

/-- Reads and deletions find what is not over. -/
def Finding.current : Finding := ⟨LedgerRecord.current, LedgerRecord.current⟩

namespace Ledger

def empty : Ledger := fun _ ↦ none

variable (l : Ledger) (now : ℚ)

def write (ttl : ℚ) (x : Str × PyObject) : Ledger :=
  Function.update l x.1 (if h : 0 < ttl then some ⟨x.2, now, ttl, h⟩ else none)

def forget (keys : List Str) : Ledger := fun key ↦ if key ∈ keys then none else l key

/-- The value of a key to a read that finds some records. -/
def value (read : LedgerRecord → Bool) (key : Str) : Option PyObject :=
  ((l key).filter read).map LedgerRecord.value

/-- The keys among some whose records a deletion finds. -/
def found (held : LedgerRecord → Bool) (keys : List Str) : Finset Str :=
  keys.toFinset.filter fun key ↦ (l key).any held

/-- All records are those of some keys. -/
def Within (keys : Finset Str) : Prop := ∀ key, ∀ r ∈ l key, key ∈ keys

end Ledger

namespace ContractCall

/-- The dictionary of the values of some keys, with `None` for misses. -/
def valuesOf (values : List (Str × Option PyObject)) : ContractAnswer :=
  .values ((OrderedDict.empty.setItems values).items.map fun x ↦ (x.1, x.2.getD .none))

variable (now : ℚ) (l : Ledger)

/-- The ledger after a call. -/
def record : ContractCall → Ledger
  | .get _ _ | .getMany _ => l
  | .set key value ttl => l.write now ttl (key, value)
  | .delete key => l.forget [key]
  | .clear => .empty
  | .setMany values ttl => values.items.foldl (fun l x ↦ l.write now ttl x) l
  | .deleteMany keys => l.forget keys

/-- The answer to a call of a backend with such a finding of records. -/
def answer (F : Finding) : ContractCall → ContractAnswer
  | .get key default => .value ((l.value (F.read now) key).getD default)
  | .delete key => .deleted ((l key).any (F.delete now))
  | .getMany keys => valuesOf (keys.map fun key ↦ (key, l.value (F.read now) key))
  | .deleteMany keys => .count (l.found (F.delete now) keys).card
  | .set _ _ _ | .clear | .setMany _ _ => .done

/-- Two findings part at a call. A read parts at a record whose value is not
the default when one of them finds it, and a deletion at any such record; a
deletion of several keys when one finds more records than the other does that
the other does not find. -/
def Parts (F F' : Finding) : ContractCall → Prop
  | .get key default => ∃ r ∈ l key, r.value ≠ default ∧ F.read now r ≠ F'.read now r
  | .getMany keys =>
      ∃ key ∈ keys, ∃ r ∈ l key, r.value ≠ .none ∧ F.read now r ≠ F'.read now r
  | .delete key => ∃ r ∈ l key, F.delete now r ≠ F'.delete now r
  | .deleteMany keys =>
      (l.found (fun r ↦ F.delete now r && !F'.delete now r) keys).card ≠
        (l.found (fun r ↦ F'.delete now r && !F.delete now r) keys).card
  | .set _ _ _ | .clear | .setMany _ _ => False

def ttl : ContractCall → Option ℚ
  | .set _ _ ttl | .setMany _ ttl => some ttl
  | _ => none

/-- The values that a call stores. -/
def values : ContractCall → List PyObject
  | .set _ value _ => [value]
  | .setMany values _ => values.items.map Prod.snd
  | _ => []

/-- All keys that a call names. -/
def keys : ContractCall → List Str
  | .get key _ | .set key _ _ | .delete key => [key]
  | .clear => []
  | .getMany keys | .deleteMany keys => keys
  | .setMany values _ => values.keys

end ContractCall

/-- Calls with the times at which they are made. -/
abbrev TimedCalls : Type := List (ℚ × ContractCall)

namespace TimedCalls

/-- The answers to some calls. -/
def answers (F : Finding) : TimedCalls → Ledger → List ContractAnswer
  | [], _ => []
  | (now, call) :: rest, l => call.answer now l F :: answers F rest (call.record now l)

/-- Two findings part at some call. -/
def Parts (F F' : Finding) : TimedCalls → Ledger → Prop
  | [], _ => False
  | (now, call) :: rest, l => call.Parts now l F F' ∨ Parts F F' rest (call.record now l)

end TimedCalls

section Records

variable {l : Ledger} {now ttl : ℚ} {key key' : Str} {value : PyObject} {held : LedgerRecord → Bool}
  {room : Finset Str}

theorem Ledger.write_ne (h : key' ≠ key) : l.write now ttl (key, value) key' = l key' :=
  Function.update_of_ne h _ _

theorem Ledger.write_of_nonpos (h : ttl ≤ 0) : l.write now ttl (key, value) = l.forget [key] := by
  funext key'
  by_cases hkey : key' = key
  · subst hkey
    simp [Ledger.write, Ledger.forget, h.not_gt]
  · rw [Ledger.write_ne hkey]
    simp [Ledger.forget, hkey]

theorem Ledger.write_of_pos (h : 0 < ttl) :
    l.write now ttl (key, value) key = some ⟨value, now, ttl, h⟩ := by
  simp [Ledger.write, h]

theorem Ledger.forget_nil : l.forget [] = l := by
  funext key
  simp [Ledger.forget]

theorem Ledger.forget_cons (keys : List Str) :
    (l.forget [key]).forget keys = l.forget (key :: keys) := by
  funext key'
  by_cases hkey : key' = key <;> simp [Ledger.forget, hkey]

theorem Ledger.writeAll_of_nonpos (h : ttl ≤ 0) (items : List (Str × PyObject)) :
    items.foldl (fun l x ↦ l.write now ttl x) l = l.forget (items.map Prod.fst) := by
  induction items generalizing l with
  | nil => exact Ledger.forget_nil.symm
  | cons x rest ih =>
      rw [List.foldl_cons, Ledger.write_of_nonpos h, ih, Ledger.forget_cons, List.map_cons]

/-- Deleting one key after the other counts a repeated key once. -/
theorem Ledger.card_found_cons (keys : List Str) :
    (l.found held (key :: keys)).card =
      (if (l key).any held then 1 else 0) + ((l.forget [key]).found held keys).card := by
  have hrest : (l.forget [key]).found held keys = (l.found held keys).erase key := by
    ext key'
    by_cases hkey : key' = key <;> simp [Ledger.found, Ledger.forget, hkey]
  have hall : l.found held (key :: keys) =
      if (l key).any held then insert key ((l.found held keys).erase key)
      else (l.found held keys).erase key := by
    ext key'
    by_cases hkey : key' = key
    · subst hkey
      split <;> simp [Ledger.found, *]
    · split <;> simp [Ledger.found, hkey]
  rw [hrest, hall]
  split
  · rw [Finset.card_insert_of_notMem (Finset.notMem_erase _ _), Nat.add_comm]
  · rw [Nat.zero_add]

theorem Ledger.Within.forget (h : l.Within room) (keys : List Str) :
    (l.forget keys).Within room := by
  intro key r hr
  simp only [Ledger.forget, Option.mem_def] at hr
  split at hr
  · cases hr
  · exact h key r hr

theorem Ledger.Within.write (h : l.Within room) {x : Str × PyObject} (hx : x.1 ∈ room) :
    (l.write now ttl x).Within room := by
  intro key r hr
  by_cases hkey : key = x.1
  · exact hkey ▸ hx
  · rw [Ledger.write_ne hkey] at hr
    exact h key r hr

theorem Ledger.Within.writeAll (h : l.Within room) {items : List (Str × PyObject)}
    (hitems : ∀ x ∈ items, x.1 ∈ room) :
    (items.foldl (fun l x ↦ l.write now ttl x) l).Within room := by
  induction items generalizing l with
  | nil => exact h
  | cons x rest ih =>
      exact ih (h.write (hitems x List.mem_cons_self))
        fun y hy ↦ hitems y (List.mem_cons_of_mem _ hy)

theorem Ledger.Within.record (h : l.Within room) {call : ContractCall}
    (hkeys : ∀ key ∈ call.keys, key ∈ room) :
    (call.record now l).Within room := by
  cases call with
  | get key default => exact h
  | getMany keys => exact h
  | set key value ttl => exact h.write (hkeys key (List.mem_singleton_self key))
  | delete key => exact h.forget [key]
  | deleteMany keys => exact h.forget keys
  | clear => exact fun key r hr ↦ by cases hr
  | setMany values ttl => exact h.writeAll fun x hx ↦ hkeys x.1 (List.mem_map_of_mem hx)

end Records

section Agreement

variable {F F' : Finding} {l : Ledger} {now : ℚ}

theorem ContractCall.valuesOf_eq_iff {keys : List Str} {f g : Str → Option PyObject} :
    valuesOf (keys.map fun key ↦ (key, f key)) = valuesOf (keys.map fun key ↦ (key, g key)) ↔
      ∀ key ∈ keys, (f key).getD .none = (g key).getD .none := by
  have hitems : ∀ f : Str → Option PyObject, valuesOf (keys.map fun key ↦ (key, f key)) =
      .values (OrderedDict.empty.setItems
        (keys.map fun key ↦ (key, (f key).getD .none))).items := by
    intro f
    have hempty : (OrderedDict.empty : OrderedDict Str PyObject).items =
      (OrderedDict.empty : OrderedDict Str (Option PyObject)).items.map
        (fun x ↦ (x.1, x.2.getD .none)) := rfl
    have hmap := OrderedDict.items_setItems_map (fun v : Option PyObject ↦ v.getD .none)
      (keys.map fun key ↦ (key, f key)) hempty
    rw [List.map_map] at hmap
    exact congrArg ContractAnswer.values hmap.symm
  rw [hitems f, hitems g, ContractAnswer.values.injEq]
  constructor
  · intro heq key hkey
    have hfirst : (key, (f key).getD .none) ∈ (OrderedDict.empty.setItems
        (keys.map fun key ↦ (key, (f key).getD .none))).items := by
      refine OrderedDict.mem_setItems (.inr (List.mem_map_of_mem hkey)) fun v hv ↦ ?_
      obtain ⟨key', -, hpair⟩ := List.mem_map.mp hv
      obtain ⟨rfl, rfl⟩ := Prod.mk.inj hpair
      rfl
    rw [heq] at hfirst
    rcases OrderedDict.mem_of_mem_setItems hfirst with hnone | hsecond
    · cases hnone
    · obtain ⟨key', -, hpair⟩ := List.mem_map.mp hsecond
      obtain ⟨rfl, hvalue⟩ := Prod.mk.inj hpair
      exact hvalue.symm
  · intro heq
    rw [List.map_congr_left fun key hkey ↦ by rw [heq key hkey]]

/-- A read of one key, with a default value, by two findings. -/
theorem Ledger.getD_value_eq_iff {read read' : LedgerRecord → Bool} {key : Str}
    {default : PyObject} :
    (l.value read key).getD default = (l.value read' key).getD default ↔
      ¬∃ r ∈ l key, r.value ≠ default ∧ read r ≠ read' r := by
  cases hr : l key with
  | none => simp [Ledger.value, hr]
  | some r =>
      cases hread : read r <;> cases hread' : read' r <;>
        simp [Ledger.value, hr, Option.filter_some, hread, hread', eq_comm]

/-- Two findings answer a call alike unless they part at it. -/
theorem ContractCall.answer_eq_iff (call : ContractCall) :
    call.answer now l F = call.answer now l F' ↔ ¬call.Parts now l F F' := by
  cases call with
  | get key default =>
      rw [ContractCall.answer, ContractCall.answer, ContractAnswer.value.injEq,
        Ledger.getD_value_eq_iff]
      rfl
  | getMany keys =>
      rw [ContractCall.answer, ContractCall.answer, valuesOf_eq_iff]
      simp only [Ledger.getD_value_eq_iff, ContractCall.Parts]
      push Not
      rfl
  | delete key =>
      rw [ContractCall.answer, ContractCall.answer, ContractAnswer.deleted.injEq,
        ContractCall.Parts]
      cases hr : l key with
      | none => simp
      | some r => simp
  | deleteMany keys =>
      have hsdiff : ∀ P Q : LedgerRecord → Bool, l.found P keys \ l.found Q keys =
          l.found (fun r ↦ P r && !Q r) keys := by
        intro P Q
        ext key
        simp only [Ledger.found, Finset.mem_sdiff, Finset.mem_filter, not_and,
          Bool.not_eq_true]
        cases hr : l key with
        | none => simp
        | some r => by_cases hkey : key ∈ keys.toFinset <;> simp [hkey]
      rw [ContractCall.answer, ContractCall.answer, ContractAnswer.count.injEq,
        ← Finset.card_sdiff_eq_card_sdiff_iff, hsdiff, hsdiff, ContractCall.Parts, not_ne_iff]
  | _ => simp [ContractCall.answer, ContractCall.Parts]

/-- Over whole runs. -/
theorem TimedCalls.answers_eq_iff (calls : TimedCalls) :
    calls.answers F l = calls.answers F' l ↔ ¬calls.Parts F F' l := by
  induction calls generalizing l with
  | nil => simp [TimedCalls.answers, TimedCalls.Parts]
  | cons x rest ih =>
      simp only [TimedCalls.answers, TimedCalls.Parts, List.cons.injEq,
        ContractCall.answer_eq_iff, ih, not_or]

theorem ContractCall.answer_ne_raised (call : ContractCall) :
    call.answer now l F ≠ .raised := by
  cases call <;> simp [ContractCall.answer, ContractCall.valuesOf]

theorem TimedCalls.raised_not_mem_answers (calls : TimedCalls) :
    .raised ∉ calls.answers F l := by
  induction calls generalizing l with
  | nil => exact List.not_mem_nil
  | cons x rest ih =>
      intro hmem
      rcases List.mem_cons.mp hmem with hfirst | hrest
      · exact x.2.answer_ne_raised hfirst.symm
      · exact ih hrest

end Agreement

end DjangoNova
