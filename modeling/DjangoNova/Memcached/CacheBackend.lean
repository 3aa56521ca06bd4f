import Mathlib.Algebra.Order.Ring.Rat
import Mathlib.Data.Rat.Floor
import Mathlib.Tactic.Linarith
import DjangoNova.Collections.OrderedDict
import DjangoNova.Text.Str

/-!
# The operations of MemcachedCacheBackend

A stored payload is an envelope of the value with its logical deadline.
The server drops items at deadlines of its own, which are whole seconds
and count from the receipt of the item or, for long times to live, are
absolute. Times are in seconds of one clock.
-/

namespace DjangoNova

inductive PyFloat where
  | finite (q : ℚ)
  | infinite (negative : Bool)
  | nan

/-- What unpickling can yield, as far as `_unpack` looks at it. Another
object may compare equal to the tag of an envelope. -/
inductive PyObject where
  | none
  | bool (b : Bool)
  | int (n : ℤ)
  | float (x : PyFloat)
  | text (s : Str)
  | tuple (items : List PyObject)
  | other (equalsTag : Bool)

inductive MemcachedError where
  /-- `math.isfinite` of an integer that no float can hold -/
  | overflow
  | pickling
  deriving DecidableEq

structure CacheSerializer (B : Type) where
  dumps : PyObject → Except MemcachedError B
  loads : B → PyObject

/-- The items of the server, each with the time at which it is dropped. -/
structure MemcachedServer (B : Type) where
  items : Str → Option (B × Option ℚ)

namespace MemcachedServer

variable {B : Type} (s : MemcachedServer B)

def live (now : ℚ) (key : Str) : Option B :=
  ((s.items key).filter fun item ↦ item.2.all (now < ·)).map Prod.fst

/-- `_MAX_RELATIVE_TTL`, the longest relative expiration of the protocol. -/
def maxRelativeTtl : ℤ := 60 * 60 * 24 * 30

/-- When an item received at a time is dropped; never for `expire = 0`. -/
def dropTime (received : ℚ) (expire : ℤ) : Option ℚ :=
  if expire = 0 then none
  else if expire ≤ maxRelativeTtl then some (received + expire)
  else some expire

def put (received : ℚ) (key : Str) (payload : B) (expire : ℤ) : MemcachedServer B :=
  ⟨Function.update s.items key (some (payload, dropTime received expire))⟩

def remove (key : Str) : MemcachedServer B := ⟨Function.update s.items key none⟩

end MemcachedServer

/-- The clock readings of one `set`: in `_pack`, in `_memcached_expire` and
at the receipt by the server. -/
structure SetTimes where
  packed : ℚ
  expired : ℚ
  received : ℚ

def envelopeVersion : Str := "nova:memcached:v2".toList

namespace PyObject

/-- `envelope[0] == _ENVELOPE_VERSION` -/
def isEnvelopeVersion : PyObject → Bool
  | .text s => s = envelopeVersion
  | .other equalsTag => equalsTag
  | _ => false

/-- A finite number that is not a boolean. -/
def finiteNumber : PyObject → Option ℚ
  | .int n => some n
  | .float (.finite q) => some q
  | _ => Option.none

/-- `math.isfinite` of a number, after the test for booleans: its value. -/
def finiteDeadline : PyObject → Except MemcachedError (Option ℚ)
  | .int n => if 2 ^ 1024 - 2 ^ 970 ≤ n.natAbs then .error .overflow else .ok (some n)
  | o => .ok o.finiteNumber

end PyObject

structure MemcachedCacheBackend (B : Type) where
  serializer : CacheSerializer B

namespace MemcachedCacheBackend

open MemcachedServer

variable {B : Type} (b : MemcachedCacheBackend B)

/-- `_memcached_expire`, of a time to live in seconds. -/
def memcachedExpire (now : ℚ) : Option ℚ → ℤ
  | none => 0
  | some seconds =>
      if seconds ≤ 0 then 0
      else if seconds > maxRelativeTtl then ⌈now + seconds⌉
      else max 1 ⌈seconds⌉

def deadline (now : ℚ) : Option ℚ → PyObject
  | none => .none
  | some seconds => .float (.finite (now + seconds))

/-- The envelope that `_pack` serializes. -/
def envelope (deadline value : PyObject) : PyObject :=
  .tuple [.text envelopeVersion, deadline, value]

def pack (now : ℚ) (value : PyObject) (ttl : Option ℚ) : Except MemcachedError B :=
  b.serializer.dumps (envelope (deadline now ttl) value)

/-- The deadline of a current envelope, checked against the clock. -/
def unpackCurrent (now : ℚ) (expiresAt value : PyObject) :
    Except MemcachedError (Option PyObject) :=
  match expiresAt, expiresAt.finiteDeadline with
  | .none, _ => .ok (some value)
  | _, .error x => .error x
  | _, .ok none => .ok none
  | _, .ok (some d) => .ok (if now ≥ d then none else some value)

/-- `_unpack` after deserialization; `none` stands for `_MISSING`. -/
def unpackObject (now : ℚ) : PyObject → Except MemcachedError (Option PyObject)
  | .tuple [.none, value] => .ok (some value)
  | .tuple [version, expiresAt, value] =>
      if version.isEnvelopeVersion then unpackCurrent now expiresAt value else .ok none
  | _ => .ok none

def unpack (now : ℚ) : Option B → Except MemcachedError (Option PyObject)
  | none => .ok none
  | some raw => unpackObject now (b.serializer.loads raw)

def get (now : ℚ) (key : Str) (default : PyObject) (s : MemcachedServer B) :
    Except MemcachedError PyObject := do
  let value ← b.unpack now (s.live now key)
  return value.getD default

def set (times : SetTimes) (key : Str) (value : PyObject) (ttl : Option ℚ)
    (s : MemcachedServer B) : Except MemcachedError (MemcachedServer B) :=
  if ttl.any (· ≤ 0) then .ok (s.remove key)
  else do
    let payload ← b.pack times.packed value ttl
    return s.put times.received key payload (memcachedExpire times.expired ttl)

/-- `bool(self._client.delete(key))`, with a client that acknowledges deletions. -/
def delete (now : ℚ) (key : Str) (s : MemcachedServer B) : Bool × MemcachedServer B :=
  ((s.live now key).isSome, s.remove key)

/-- `flush_all` -/
def clear : MemcachedServer B := ⟨fun _ ↦ none⟩

/-! The bulk operations, with one reading of the clock. -/

def getEach (now : ℚ) (s : MemcachedServer B) : List Str → Except MemcachedError
    (List (Str × PyObject))
  | [] => .ok []
  | key :: rest => do
      let value ← b.get now key .none s
      let values ← getEach now s rest
      return (key, value) :: values

def getMany (now : ℚ) (keys : List Str) (s : MemcachedServer B) :
    Except MemcachedError (OrderedDict Str PyObject) := do
  let values ← b.getEach now s keys
  return OrderedDict.empty.setItems values

def setMany (times : SetTimes) (ttl : Option ℚ) :
    List (Str × PyObject) → MemcachedServer B → Except MemcachedError (MemcachedServer B)
  | [], s => .ok s
  | x :: rest, s => do
      let s ← b.set times x.1 x.2 ttl s
      setMany times ttl rest s

def deleteMany (now : ℚ) : List Str → MemcachedServer B → ℕ × MemcachedServer B
  | [], s => (0, s)
  | key :: rest, s =>
      let (found, s) := delete now key s
      let (n, s) := deleteMany now rest s
      (if found then n + 1 else n, s)

section Expiry

variable {times : SetTimes} {ttl : Option ℚ} {now : ℚ}

/-- The server keeps an item at least as long as its logical deadline allows. -/
theorem dropTime_expire (hpos : ∀ seconds ∈ ttl, 0 < seconds) (hpacked : 0 ≤ times.packed)
    (hexpired : times.packed ≤ times.expired) (hreceived : times.expired ≤ times.received) :
    ∀ d ∈ dropTime times.received (memcachedExpire times.expired ttl),
      ∃ seconds ∈ ttl, times.packed + seconds ≤ d := by
  intro d hd
  cases ttl with
  | none => simp [memcachedExpire, dropTime] at hd
  | some seconds =>
      refine ⟨seconds, Eq.refl _, ?_⟩
      have hseconds : 0 < seconds := hpos seconds (Eq.refl _)
      simp only [memcachedExpire, if_neg hseconds.not_ge] at hd
      by_cases hlong : seconds > maxRelativeTtl
      · -- An absolute expiration: it exceeds the limit because the clock is not negative.
        rw [if_pos hlong] at hd
        have hceil : times.expired + seconds ≤ ⌈times.expired + seconds⌉ := Int.le_ceil _
        have hlimit : maxRelativeTtl < ⌈times.expired + seconds⌉ := by
          have hlt : (maxRelativeTtl : ℚ) < ⌈times.expired + seconds⌉ := by linarith
          exact_mod_cast hlt
        have hnonzero : ⌈times.expired + seconds⌉ ≠ 0 := by
          have : (0 : ℤ) < maxRelativeTtl := by decide
          omega
        simp only [dropTime, if_neg hnonzero, if_neg hlimit.not_ge, Option.mem_some_iff] at hd
        linarith
      · -- A relative expiration, rounded up.
        rw [if_neg hlong] at hd
        have hceil : seconds ≤ ⌈seconds⌉ := Int.le_ceil _
        have hlimit : ⌈seconds⌉ ≤ maxRelativeTtl := Int.ceil_le.mpr (not_lt.mp hlong)
        have hone : 1 ≤ max 1 ⌈seconds⌉ := le_max_left _ _
        have hmax : max 1 ⌈seconds⌉ ≤ maxRelativeTtl := max_le (by decide) hlimit
        have hround : (⌈seconds⌉ : ℚ) ≤ (max 1 ⌈seconds⌉ : ℤ) := by exact_mod_cast le_max_right _ _
        simp only [dropTime, if_neg (show max 1 ⌈seconds⌉ ≠ 0 by omega), if_pos hmax,
          Option.mem_some_iff] at hd
        linarith

theorem finiteNumber_of_deadline {o : PyObject} {d : Option ℚ} (h : o.finiteDeadline = .ok d) :
    o.finiteNumber = d := by
  unfold PyObject.finiteDeadline at h
  split at h
  · split at h
    · cases h
    · exact Except.ok.inj h
  · exact Except.ok.inj h

theorem unpackCurrent_some {expiresAt value w : PyObject}
    (h : unpackCurrent now expiresAt value = .ok (some w)) :
    w = value ∧ (expiresAt = .none ∨ ∃ d, expiresAt.finiteNumber = some d ∧ now < d) := by
  unfold unpackCurrent at h
  split at h
  · exact ⟨(Option.some.inj (Except.ok.inj h)).symm, .inl (Eq.refl _)⟩
  · cases h
  · cases h
  · rename_i d _ hdeadline
    have hvalue : (if now ≥ d then none else some value) = some w := Except.ok.inj h
    split at hvalue
    · cases hvalue
    · rename_i hlater
      exact ⟨(Option.some.inj hvalue).symm,
        .inr ⟨d, finiteNumber_of_deadline hdeadline, not_le.mp hlater⟩⟩

/-- A value is unpacked from a current envelope whose deadline, if any, is
a later finite number, or from a legacy envelope without a deadline. -/
theorem unpackObject_some {o value : PyObject} (h : unpackObject now o = .ok (some value)) :
    (∃ version expiresAt, o = .tuple [version, expiresAt, value] ∧
      version.isEnvelopeVersion = true ∧
      (expiresAt = .none ∨ ∃ d, expiresAt.finiteNumber = some d ∧ now < d)) ∨
    o = .tuple [.none, value] := by
  unfold unpackObject at h
  split at h
  · obtain rfl := Option.some.inj (Except.ok.inj h)
    exact .inr (Eq.refl _)
  · rename_i version expiresAt w
    split at h
    · rename_i hversion
      obtain ⟨rfl, hdeadline⟩ := unpackCurrent_some h
      exact .inl ⟨version, expiresAt, Eq.refl _, hversion, hdeadline⟩
    · cases h
  · cases h

/-- An envelope of the backend is current until its deadline. -/
theorem unpackObject_envelope (packed : ℚ) (value : PyObject) :
    unpackObject now (envelope (deadline packed ttl) value) =
      .ok (if ttl.all (now < packed + ·) then some value else none) := by
  have hversion : (PyObject.text envelopeVersion).isEnvelopeVersion = true := by
    simp [PyObject.isEnvelopeVersion]
  have hcurrent : unpackObject now (envelope (deadline packed ttl) value) =
      unpackCurrent now (deadline packed ttl) value := by
    simp only [unpackObject, envelope, hversion, if_true]
  rw [hcurrent]
  cases ttl with
  | none => rfl
  | some seconds =>
      have hdeadline : unpackCurrent now (deadline packed (some seconds)) value =
        .ok (if now ≥ packed + seconds then none else some value) := Eq.refl _
      rw [hdeadline]
      by_cases hlater : now < packed + seconds
      · simp [hlater, hlater.not_ge]
      · simp [hlater, not_lt.mp hlater]

/-- The server keeps an item until its deadline, a value is read exactly
until its deadline, and nothing else is read as a value. -/
theorem memcached_expiry {key : Str} {value : PyObject}
    (hround : ∀ expiresAt, ∃ payload, b.serializer.dumps (envelope expiresAt value) = .ok payload ∧
      b.serializer.loads payload = envelope expiresAt value)
    (hpos : ∀ seconds ∈ ttl, 0 < seconds) (hpacked : 0 ≤ times.packed)
    (hexpired : times.packed ≤ times.expired) (hreceived : times.expired ≤ times.received)
    (s : MemcachedServer B) :
    (∃ s', b.set times key value ttl s = .ok s' ∧
      (∃ payload drop, s'.items key = some (payload, drop) ∧
        ∀ d ∈ drop, ∃ seconds ∈ ttl, times.packed + seconds ≤ d) ∧
      ∀ t, times.received ≤ t → ∀ default, b.get t key default s' =
        .ok (if ttl.all (t < times.packed + ·) then value else default)) ∧
    ∀ o t v, unpackObject t o = .ok (some v) →
      (∃ version expiresAt, o = .tuple [version, expiresAt, v] ∧
        version.isEnvelopeVersion = true ∧
        (expiresAt = .none ∨ ∃ d, expiresAt.finiteNumber = some d ∧ t < d)) ∨
      o = .tuple [.none, v] := by
  refine ⟨?_, fun o t v ↦ unpackObject_some⟩
  obtain ⟨payload, hdumps, hloads⟩ := hround (deadline times.packed ttl)
  have hpositive : ¬ttl.any (· ≤ 0) = true := by
    cases ttl with
    | none => simp
    | some seconds => simpa using hpos seconds (Eq.refl _)
  have hdrop := dropTime_expire hpos hpacked hexpired hreceived
  refine ⟨s.put times.received key payload (memcachedExpire times.expired ttl), ?_, ?_, ?_⟩
  · simp only [set, if_neg hpositive, pack, hdumps]
    rfl
  · exact ⟨payload, _, Function.update_self _ _ _, hdrop⟩
  · intro t ht default
    have hitem : (s.put times.received key payload (memcachedExpire times.expired ttl)).items key =
      some (payload, dropTime times.received (memcachedExpire times.expired ttl)) :=
        Function.update_self _ _ _
    by_cases hlater : ttl.all (t < times.packed + ·) = true
    · have hkept :
        (dropTime times.received (memcachedExpire times.expired ttl)).all (t < ·) = true := by
        rw [Option.all_eq_true]
        intro d hd
        obtain ⟨seconds, hseconds, hle⟩ := hdrop d hd
        have hlt : t < times.packed + seconds := by
          simpa using (Option.all_eq_true _ _).mp hlater seconds hseconds
        exact decide_eq_true (hlt.trans_le hle)
      have hlive :
        (s.put times.received key payload (memcachedExpire times.expired ttl)).live t key =
          some payload := by
        simp [live, hitem, hkept]
      simp only [get, hlive, unpack, hloads, unpackObject_envelope, hlater, if_true]
      rfl
    · have hstored :
        (s.put times.received key payload (memcachedExpire times.expired ttl)).live t key =
          some payload ∨
          (s.put times.received key payload (memcachedExpire times.expired ttl)).live t key =
            none := by
        simp only [live, hitem, Option.filter_some]
        split
        · exact .inl (Eq.refl _)
        · exact .inr (Eq.refl _)
      rcases hstored with hlive | hlive
      · simp only [get, hlive, unpack, hloads, unpackObject_envelope, hlater]
        rfl
      · simp only [get, hlive, unpack, hlater]
        rfl

end Expiry

end MemcachedCacheBackend

section Sample

/-- Payloads that are the objects themselves. -/
def plainMemcached : MemcachedCacheBackend PyObject := ⟨⟨.ok, id⟩⟩

def sampleTimes : SetTimes := ⟨10, 11, 12⟩

/-- A value with a time to live of half a second and one of thirty-one days. -/
theorem memcached_expiry_sample :
    (∃ s', plainMemcached.set sampleTimes ['k'] (.int 1) (some (1 / 2)) ⟨fun _ ↦ none⟩ = .ok s' ∧
      plainMemcached.get 12 ['k'] .none s' = .ok .none) ∧
    ∃ s', plainMemcached.set sampleTimes ['k'] (.int 1) (some 2678400) ⟨fun _ ↦ none⟩ = .ok s' ∧
      plainMemcached.get 2678409 ['k'] .none s' = .ok (.int 1) := by
  have hround : ∀ expiresAt, ∃ payload, plainMemcached.serializer.dumps
      (MemcachedCacheBackend.envelope expiresAt (.int 1)) = .ok payload ∧
        plainMemcached.serializer.loads payload =
          MemcachedCacheBackend.envelope expiresAt (.int 1) :=
    fun expiresAt ↦ ⟨_, rfl, rfl⟩
  have hordered : 0 ≤ sampleTimes.packed ∧ sampleTimes.packed ≤ sampleTimes.expired ∧
      sampleTimes.expired ≤ sampleTimes.received := by
    refine ⟨?_, ?_, ?_⟩ <;> norm_num [sampleTimes]
  obtain ⟨hpacked, hexpired, hreceived⟩ := hordered
  have hshort : ∀ seconds ∈ some (1 / 2 : ℚ), 0 < seconds := by simp
  have hlong : ∀ seconds ∈ some (2678400 : ℚ), 0 < seconds := by simp
  constructor
  · obtain ⟨⟨s', hset, -, hget⟩, -⟩ :=
      plainMemcached.memcached_expiry hround hshort hpacked hexpired hreceived ⟨fun _ ↦ none⟩
    refine ⟨s', hset, (hget 12 (by norm_num [sampleTimes]) .none).trans ?_⟩
    norm_num [sampleTimes]
  · obtain ⟨⟨s', hset, -, hget⟩, -⟩ :=
      plainMemcached.memcached_expiry hround hlong hpacked hexpired hreceived ⟨fun _ ↦ none⟩
    refine ⟨s', hset, (hget 2678409 (by norm_num [sampleTimes]) .none).trans ?_⟩
    norm_num [sampleTimes]

end Sample

end DjangoNova
