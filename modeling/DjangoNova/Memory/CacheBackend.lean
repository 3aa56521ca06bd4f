import DjangoNova.Collections.LruMap
import DjangoNova.Collections.OrderedDict
import DjangoNova.Text.Str
import Mathlib.Algebra.Order.Ring.Rat
import Mathlib.Tactic.Linarith

/-!
# The operations of MemoryCacheBackend

The bulk operations go through their keys one by one, each with the clock
of its own instant. The stored entries are those of a
bounded map that forgets the least recently used key, in order of use, up
to entries that have expired.
-/

namespace DjangoNova

structure MemoryEntry (V : Type) where
  value : V
  expiresAt : Option ℚ

inductive MemoryCall (V : Type) where
  | get (key : Str) (default : Option V)
  | set (key : Str) (value : V) (ttl : Option ℚ)
  | delete (key : Str)
  | clear
  | getMany (keys : List Str)
  | setMany (values : OrderedDict Str V) (ttl : Option ℚ)
  | deleteMany (keys : List Str)
  | size

/-- The call stores some key, unless its time to live is over. -/
def MemoryCall.Stores {V : Type} : MemoryCall V → Prop
  | .set _ _ _ => True
  | .setMany values _ => values.items ≠ []
  | _ => False

inductive MemoryReply (V : Type) where
  | value (v : Option V)
  | values (d : OrderedDict Str (Option V))
  | deleted (found : Bool)
  | count (n : ℕ)
  | none

structure MemoryCacheBackend where
  maxsize : ℕ
  defaultTtl : ℤ

namespace MemoryCacheBackend

variable {V : Type} (b : MemoryCacheBackend)

abbrev Data (V : Type) : Type := OrderedDict Str (MemoryEntry V)

/-- `_ttl_seconds`, of a time to live in seconds. -/
def ttlSeconds : Option ℚ → Option ℚ
  | none => some b.defaultTtl
  | some seconds => some seconds

def isExpired (entry : MemoryEntry V) (now : ℚ) : Bool := entry.expiresAt.any (now ≥ ·)

def purgeExpired (now : ℚ) (data : Data V) : Data V := data.filter fun x ↦ !isExpired x.2 now

def get (key : Str) (default : Option V) (now : ℚ) (data : Data V) : Option V × Data V :=
  match data.lookup key with
  | none => (default, data)
  | some entry =>
      if isExpired entry now then (default, data.erase key)
      else (some entry.value, data.moveToEnd key)

/-- `while len(self._data) > self._maxsize: self._data.popitem(last=False)` -/
def popOldest (data : Data V) : Data V :=
  if b.maxsize < data.length then popOldest (data.drop 1) else data
termination_by data.length
decreasing_by
  have hpos : 0 < data.length := by omega
  simpa [OrderedDict.length] using hpos

def store (key : Str) (value : V) (expiresAt : Option ℚ) (data : Data V) : Data V :=
  b.popOldest ((data.setItem key ⟨value, expiresAt⟩).moveToEnd key)

def set (key : Str) (value : V) (ttl : Option ℚ) (now : ℚ) (data : Data V) : Data V :=
  match b.ttlSeconds ttl with
  | none => b.store key value none (purgeExpired now data)
  | some seconds =>
      if seconds ≤ 0 then data.erase key
      else b.store key value (some (now + seconds)) (purgeExpired now data)

def delete (key : Str) (now : ℚ) (data : Data V) : Bool × Data V :=
  match data.lookup key with
  | none => (false, data)
  | some entry => (!isExpired entry now, data.erase key)

def size (now : ℚ) (data : Data V) : ℕ × Data V :=
  ((purgeExpired now data).length, purgeExpired now data)

/-- The data of a backend, and how many operations it has performed. -/
structure World (V : Type) where
  data : Data V
  performed : ℕ

variable (clock : ℕ → ℚ)

/-- One operation, at the time of its own. -/
def single {β : Type} (op : ℚ → Data V → β × Data V) (w : World V) : β × World V :=
  let (y, data) := op (clock w.performed) w.data
  (y, ⟨data, w.performed + 1⟩)

/-- The same operation for each of a list. -/
def each {α β : Type} (op : α → ℚ → Data V → β × Data V) : List α → World V → List β × World V
  | [], w => ([], w)
  | x :: rest, w =>
      let (y, w) := single clock (op x) w
      let (ys, w) := each op rest w
      (y :: ys, w)

def getMany (keys : List Str) (w : World V) : OrderedDict Str (Option V) × World V :=
  let (values, w) := each clock (fun key ↦ get key none) keys w
  (OrderedDict.empty.setItems (keys.zip values), w)

def setMany (values : OrderedDict Str V) (ttl : Option ℚ) (w : World V) : World V :=
  (each clock (fun x now data ↦ ((), b.set x.1 x.2 ttl now data)) values.items w).2

def deleteMany (keys : List Str) (w : World V) : ℕ × World V :=
  let (flags, w) := each clock delete keys w
  (flags.count true, w)

def perform : MemoryCall V → World V → MemoryReply V × World V
  | .get key default, w =>
      let (v, w) := single clock (get key default) w
      (.value v, w)
  | .set key value ttl, w =>
      let (_, w) := single clock (fun now data ↦ ((), b.set key value ttl now data)) w
      (.none, w)
  | .delete key, w =>
      let (found, w) := single clock (delete key) w
      (.deleted found, w)
  | .clear, w =>
      let (_, w) := single clock (fun _ _ ↦ ((), .empty)) w
      (.none, w)
  | .getMany keys, w =>
      let (d, w) := getMany clock keys w
      (.values d, w)
  | .setMany values ttl, w => (.none, b.setMany clock values ttl w)
  | .deleteMany keys, w =>
      let (n, w) := deleteMany clock keys w
      (.count n, w)
  | .size, w =>
      let (n, w) := single clock size w
      (.count n, w)

/-- The time to live that a call asks for: its own, or else the default one. -/
def lifetime (ttl : Option ℚ) : ℚ := ttl.getD b.defaultTtl

/-- The operations on one key that a call stands for. Every entry has a
deadline, at the lifetime that its call asks for. -/
def ops : MemoryCall V → List (LruOp Str V ℚ)
  | .get key _ => [.get key]
  | .set key value ttl => [.set key value (some (b.lifetime ttl))]
  | .delete key => [.delete key]
  | .clear => [.clear]
  | .getMany keys => keys.map .get
  | .setMany values ttl => values.items.map fun x ↦ .set x.1 x.2 (some (b.lifetime ttl))
  | .deleteMany keys => keys.map .delete
  | .size => [.size]

/-- What a call answers, given the replies to its operations. -/
inductive Answers : MemoryCall V → List (LruReply V) → MemoryReply V → Prop
  | get (key : Str) (default v : Option V) :
      Answers (.get key default) [.value v] (.value (v.or default))
  | set (key : Str) (value : V) (ttl : Option ℚ) : Answers (.set key value ttl) [.stored] .none
  | delete (key : Str) (found : Bool) : Answers (.delete key) [.deleted found] (.deleted found)
  | clear : Answers .clear [.cleared] .none
  | getMany (keys : List Str) (values : List (Option V)) :
      Answers (.getMany keys) (values.map .value)
        (.values (OrderedDict.empty.setItems (keys.zip values)))
  | setMany (values : OrderedDict Str V) (ttl : Option ℚ) (replies : List (LruReply V)) :
      Answers (.setMany values ttl) replies .none
  | deleteMany (keys : List Str) (flags : List Bool) :
      Answers (.deleteMany keys) (flags.map .deleted) (.count (flags.count true))
  | size (n : ℕ) : Answers .size [.size n] (.count n)

/-- A call on the bounded map. -/
def LruCall (n : ℕ) (m : LruMap Str V ℚ) (call : MemoryCall V) (reply : MemoryReply V)
    (m' : LruMap Str V ℚ) : Prop :=
  ∃ replies, LruMap.Steps b.maxsize clock n m (b.ops call) replies m' ∧ Answers call replies reply

/-- The backend is within its bound and stores the live entries of a map,
from the time of the last operation on. -/
def Agrees (w : World V) (m : LruMap Str V ℚ) : Prop :=
  w.data.length ≤ b.maxsize ∧ ∀ now, (∀ n < w.performed, clock n ≤ now) → ∀ key,
    ((w.data.lookup key).filter fun entry ↦ !isExpired entry now).map MemoryEntry.value =
      m.live now key

/-- Some calls on the backend follow the same calls on the map. -/
def Follows : List (MemoryCall V) → World V → LruMap Str V ℚ → Prop
  | [], w, m => b.Agrees clock w m
  | call :: rest, w, m => b.Agrees clock w m ∧
      ∃ m', b.LruCall clock w.performed m call (b.perform clock call w).1 m' ∧
        Follows rest (b.perform clock call w).2 m'

/-- The stored entries are those of the map in order of use, except that
expired ones may be missing. -/
structure Simulates (now : ℚ) (data : Data V) (m : LruMap Str V ℚ) : Prop where
  stored {key : Str} {entry : MemoryEntry V} : (key, entry) ∈ data.items →
    m.entry key = some (entry.value, entry.expiresAt)
  kept {key : Str} {entry : MemoryEntry V} : m.entry key = some (entry.value, entry.expiresAt) →
    isExpired entry now = false → (key, entry) ∈ data.items
  ordered : data.items.Pairwise fun x y ↦ m.used x.1 < m.used y.1
  recent : ∀ x ∈ data.items, m.used x.1 < m.clock

variable {b clock} {now later : ℚ} {data data' : Data V} {m : LruMap Str V ℚ} {key : Str}

theorem isExpired_eq_false {entry : MemoryEntry V} :
    isExpired entry now = false ↔ ∀ t ∈ entry.expiresAt, now < t := by
  cases h : entry.expiresAt <;> simp [isExpired, h]

namespace Simulates

theorem empty : Simulates now (OrderedDict.empty : Data V) .empty := by
  refine ⟨fun hmem ↦ ?_, fun hentry _ ↦ ?_, List.Pairwise.nil, fun x hx ↦ ?_⟩
  · exact absurd hmem List.not_mem_nil
  · simp [LruMap.empty] at hentry
  · exact absurd hx List.not_mem_nil

theorem mono (h : Simulates now data m) (hle : now ≤ later) : Simulates later data m := by
  refine ⟨h.stored, fun hentry hlive ↦ h.kept hentry ?_, h.ordered, h.recent⟩
  rw [isExpired_eq_false] at hlive ⊢
  exact fun t ht ↦ hle.trans_lt (hlive t ht)

theorem mem_iff (h : Simulates now data m) {entry : MemoryEntry V}
    (hlive : isExpired entry now = false) :
    (key, entry) ∈ data.items ↔ m.entry key = some (entry.value, entry.expiresAt) :=
  ⟨h.stored, fun hentry ↦ h.kept hentry hlive⟩

theorem live (h : Simulates now data m) (key : Str) :
    ((data.lookup key).filter fun entry ↦ !isExpired entry now).map MemoryEntry.value =
      m.live now key := by
  ext v
  rw [LruMap.live_eq_some_iff]
  simp only [Option.map_eq_some_iff, Option.filter_eq_some_iff, OrderedDict.lookup_eq_some_iff,
    Bool.not_eq_true']
  constructor
  · rintro ⟨entry, ⟨hmem, hlive⟩, rfl⟩
    exact ⟨_, h.stored hmem, isExpired_eq_false.mp hlive⟩
  · rintro ⟨deadline, hentry, hlive⟩
    have hlive' : isExpired ⟨v, deadline⟩ now = false := isExpired_eq_false.mpr hlive
    exact ⟨⟨v, deadline⟩, ⟨h.kept hentry hlive', hlive'⟩, Eq.refl _⟩

/-- Expired entries can go. -/
theorem filter (h : Simulates now data m) {p : Str × MemoryEntry V → Bool}
    (hp : ∀ x ∈ data.items, p x = false → isExpired x.2 now = true) :
    Simulates now (data.filter p) m := by
  refine ⟨fun hmem ↦ h.stored (List.mem_of_mem_filter hmem), fun hentry hlive ↦ ?_,
    h.ordered.sublist List.filter_sublist, fun x hx ↦ h.recent x (List.mem_of_mem_filter hx)⟩
  have hmem := h.kept hentry hlive
  refine List.mem_filter.mpr ⟨hmem, Bool.of_not_eq_false fun hfalse ↦ ?_⟩
  exact Bool.false_ne_true (hlive.symm.trans (hp _ hmem hfalse))

theorem erase (h : Simulates now data m) (key : Str) :
    Simulates now (data.erase key) (m.erase key) := by
  constructor
  · intro j entry hmem
    obtain ⟨hne, hmem⟩ := OrderedDict.mem_erase.mp hmem
    exact (LruMap.entry_erase hne).trans (h.stored hmem)
  · intro j entry hentry hlive
    have hne : j ≠ key := by
      rintro rfl
      simp at hentry
    rw [LruMap.entry_erase hne] at hentry
    exact OrderedDict.mem_erase.mpr ⟨hne, h.kept hentry hlive⟩
  · exact h.ordered.sublist List.filter_sublist
  · exact fun x hx ↦ h.recent x (List.mem_of_mem_filter hx)

/-- The key that was put is the last one. -/
theorem put (h : Simulates now data m) {value : V} {expiresAt : Option ℚ}
    (hitems : data'.items = (data.erase key).items ++ [(key, ⟨value, expiresAt⟩)]) :
    Simulates now data' (m.put key value expiresAt) := by
  have hmem : ∀ {j entry}, (j, entry) ∈ data'.items ↔
      (j ≠ key ∧ (j, entry) ∈ data.items) ∨ (j = key ∧ entry = ⟨value, expiresAt⟩) := by
    intro j entry
    rw [hitems, List.mem_append, OrderedDict.mem_erase, List.mem_singleton, Prod.mk.injEq]
  have hold : ∀ x ∈ (data.erase key).items, x.1 ≠ key ∧ m.used x.1 < m.clock := by
    intro x hx
    obtain ⟨hne, hx⟩ := OrderedDict.mem_erase.mp (show (x.1, x.2) ∈ _ from hx)
    exact ⟨hne, h.recent _ hx⟩
  constructor
  · intro j entry hj
    obtain ⟨hne, hj⟩ | ⟨rfl, rfl⟩ := hmem.mp hj
    · exact (LruMap.entry_put _ _ hne).trans (h.stored hj)
    · exact LruMap.entry_put_self ..
  · intro j entry hentry hlive
    by_cases hj : j = key
    · subst hj
      rw [LruMap.entry_put_self] at hentry
      obtain ⟨hvalue, hexpires⟩ := Prod.mk.inj (Option.some.inj hentry)
      exact hmem.mpr (.inr ⟨Eq.refl _, by rw [hvalue, hexpires]⟩)
    · rw [LruMap.entry_put _ _ hj] at hentry
      exact hmem.mpr (.inl ⟨hj, h.kept hentry hlive⟩)
  · rw [hitems, List.pairwise_append]
    refine ⟨?_, List.pairwise_singleton _ _, ?_⟩
    · refine (h.ordered.sublist List.filter_sublist).imp_of_mem fun {x y} hx hy hlt ↦ ?_
      rw [LruMap.used_put _ _ (hold x hx).1, LruMap.used_put _ _ (hold y hy).1]
      exact hlt
    · intro x hx y hy
      obtain rfl := List.mem_singleton.mp hy
      rw [LruMap.used_put _ _ (hold x hx).1, LruMap.used_put_self]
      exact (hold x hx).2
  · intro x hx
    rw [LruMap.clock_put]
    rw [hitems, List.mem_append, List.mem_singleton] at hx
    rcases hx with hx | rfl
    · rw [LruMap.used_put _ _ (hold x hx).1]
      exact (hold x hx).2.trans (Nat.lt_succ_self _)
    · rw [LruMap.used_put_self]
      exact Nat.lt_succ_self _

theorem purge (h : Simulates now data m) : Simulates now (purgeExpired now data) m :=
  h.filter fun x _ hx ↦ by simpa using hx

/-- After a purge the keys are the live ones. -/
theorem mem_purge (h : Simulates now data m) :
    key ∈ (purgeExpired now data).keys ↔ key ∈ m.liveKeys now := by
  have hmem : (∃ entry, (key, entry) ∈ (purgeExpired now data).items) ↔
      ∃ entry, (key, entry) ∈ data.items ∧ isExpired entry now = false := by
    simp [purgeExpired]
  show _ ↔ (m.live now key).isSome
  rw [OrderedDict.mem_keys, hmem, ← h.live key, Option.isSome_map, Option.isSome_iff_exists]
  simp [Option.filter_eq_some_iff, OrderedDict.lookup_eq_some_iff]

end Simulates

theorem popOldest_eq (data : Data V) : b.popOldest data = data.drop (data.length - b.maxsize) := by
  induction data using popOldest.induct b with
  | case1 data hlt ih =>
      rw [popOldest, if_pos hlt, ih]
      refine OrderedDict.ext ?_
      simp only [OrderedDict.items_drop, List.drop_drop]
      congr 1
      simp only [OrderedDict.length, OrderedDict.items_drop, List.length_drop] at hlt ⊢
      omega
  | case2 data hle =>
      rw [popOldest, if_neg hle, Nat.sub_eq_zero_of_le (not_lt.mp hle)]
      exact OrderedDict.ext (List.drop_zero).symm

theorem length_popOldest (data : Data V) : (b.popOldest data).length ≤ b.maxsize := by
  rw [popOldest_eq]
  simp only [OrderedDict.length, OrderedDict.items_drop, List.length_drop]
  omega

variable (b) in
/-- An operation of the backend does what one of the map does. -/
def Refines {β : Type} (op : ℚ → Data V → β × Data V) (o : LruOp Str V ℚ) (r : β → LruReply V) :
    Prop :=
  ∀ now data m, Simulates now data m → data.length ≤ b.maxsize →
    ∃ m', LruMap.Step b.maxsize now m o (r (op now data).1) m' ∧
      Simulates now (op now data).2 m' ∧ (op now data).2.length ≤ b.maxsize

theorem get_default (key : Str) (default : Option V) (now : ℚ) (data : Data V) :
    get key default now data =
      ((get key none now data).1.or default, (get key none now data).2) := by
  cases hlookup : data.lookup key with
  | none => simp [get, hlookup]
  | some entry => by_cases hexpired : isExpired entry now = true <;> simp [get, hlookup, hexpired]

theorem get_refines (key : Str) : b.Refines (V := V) (get key none) (.get key) .value := by
  intro now data m hsim hle
  have hlive := hsim.live key
  cases hlookup : data.lookup key with
  | none =>
      rw [hlookup] at hlive
      simp only [get, hlookup]
      exact ⟨m, .miss hlive.symm, hsim, hle⟩
  | some entry =>
      have hmem := OrderedDict.lookup_eq_some_iff.mp hlookup
      rw [hlookup, Option.filter_some] at hlive
      by_cases hexpired : isExpired entry now = true
      · simp only [get, hlookup, if_pos hexpired]
        have hnone : m.live now key = none := by simpa [hexpired] using hlive.symm
        refine ⟨m, .miss hnone, ?_, (OrderedDict.length_erase_le _ _).trans hle⟩
        refine hsim.filter fun x hx hfalse ↦ ?_
        have hkey : x.1 = key := by simpa using hfalse
        subst hkey
        have heq : x.2 = entry := OrderedDict.value_unique hx hmem
        rwa [heq]
      · simp only [get, hlookup, if_neg hexpired]
        have hsome : m.live now key = some entry.value := by simpa [hexpired] using hlive.symm
        have hitems := OrderedDict.moveToEnd_of_mem hmem
        refine ⟨m.touch key, .hit hsome, ?_, ?_⟩
        · rw [LruMap.touch_eq_put (hsim.stored hmem)]
          exact hsim.put hitems
        · have hlt := OrderedDict.length_erase_lt (OrderedDict.mem_keys.mpr ⟨_, hmem⟩)
          have hlength : (data.moveToEnd key).length = (data.erase key).length + 1 := by
            simp [OrderedDict.length, hitems]
          omega

theorem delete_refines (key : Str) : b.Refines (V := V) (delete key) (.delete key) .deleted := by
  intro now data m hsim hle
  have hlive := hsim.live key
  have hfound : (delete key now data).1 = (m.live now key).isSome := by
    rw [← hlive]
    cases hlookup : data.lookup key with
    | none => simp [delete, hlookup]
    | some entry => cases hexpired : isExpired entry now <;> simp [delete, hlookup, hexpired]
  have hdata : (delete key now data).2 = data.erase key := by
    cases hlookup : data.lookup key with
    | some entry => simp [delete, hlookup]
    | none =>
        have habsent := OrderedDict.lookup_eq_none_iff.mp hlookup
        simp only [delete, hlookup]
        refine (OrderedDict.ext (List.filter_eq_self.mpr fun x hx ↦ ?_)).symm
        have hne : x.1 ≠ key := by
          rintro rfl
          exact habsent (List.mem_map_of_mem hx)
        simpa using hne
  rw [hfound, hdata]
  exact ⟨m.erase key, .delete key, hsim.erase key, (OrderedDict.length_erase_le _ _).trans hle⟩

theorem size_refines : b.Refines (V := V) size .size .size := by
  intro now data m hsim hle
  refine ⟨m, .size ?_, hsim.purge, (List.length_filter_le _ _).trans hle⟩
  have hkeys : m.liveKeys now = {key | key ∈ (purgeExpired now data).keys} := by
    ext key
    exact hsim.mem_purge.symm
  rw [hkeys, OrderedDict.encard_keys]
  rfl

theorem clear_refines : b.Refines (V := V) (fun _ _ ↦ ((), .empty)) .clear fun _ ↦ .cleared :=
  fun _ _ _ _ _ ↦ ⟨.empty, .clear, .empty, Nat.zero_le _⟩

/-- Storing a key evicts the least recently used of the other live keys if
these fill the map, and nothing otherwise. -/
theorem store_refines (hmaxsize : 1 ≤ b.maxsize) (hsim : Simulates now data m)
    (hle : data.length ≤ b.maxsize) (key : Str) (value : V) {lifetime : Option ℚ}
    (hpositive : ∀ s ∈ lifetime, 0 < s) :
    ∃ m', LruMap.Step b.maxsize now m (.set key value lifetime) .stored m' ∧
      Simulates now (b.store key value (lifetime.map (now + ·)) (purgeExpired now data)) m' := by
  have hpurge := hsim.purge
  have hothers : m.others now key = {j | j ∈ ((purgeExpired now data).erase key).keys} := by
    ext j
    exact (and_congr_right fun _ ↦ hsim.mem_purge.symm).trans OrderedDict.mem_keys_erase.symm
  have hcard : (m.others now key).encard = ((purgeExpired now data).erase key).length := by
    rw [hothers, OrderedDict.encard_keys]
  have hroom : ((purgeExpired now data).erase key).length ≤ b.maxsize :=
    (OrderedDict.length_erase_le _ _).trans ((List.length_filter_le _ _).trans hle)
  generalize purgeExpired now data = purged at hpurge hothers hcard hroom ⊢
  generalize hdeadline : lifetime.map (now + ·) = deadline
  have hitems := OrderedDict.moveToEnd_setItem (d := purged) (k := key) (b := ⟨value, deadline⟩)
  unfold store
  generalize (purged.setItem key ⟨value, deadline⟩).moveToEnd key = written at hitems ⊢
  have hlength : written.length = (purged.erase key).length + 1 := by
    simp [OrderedDict.length, hitems]
  rw [popOldest_eq, hlength]
  rcases hroom.lt_or_eq with hlt | hfull
  · have hzero : (purged.erase key).length + 1 - b.maxsize = 0 := by omega
    refine ⟨_, .store hpositive (by rw [hcard]; exact_mod_cast hlt), ?_⟩
    rw [hdeadline, hzero]
    exact hpurge.put ((List.drop_zero).trans hitems)
  · have hone : (purged.erase key).length + 1 - b.maxsize = 1 := by omega
    cases hrest : (purged.erase key).items with
    | nil =>
        have hnil : (purged.erase key).length = 0 := by simp [OrderedDict.length, hrest]
        omega
    | cons victim rest =>
        have hvictim : victim.1 ∈ m.others now key := by
          rw [hothers]
          simp [OrderedDict.keys, hrest]
        have hordered : (purged.erase key).items.Pairwise fun x y ↦ m.used x.1 < m.used y.1 :=
          (hpurge.erase key).ordered
        rw [hrest] at hordered
        have holdest : ∀ j ∈ m.others now key, j ≠ victim.1 → m.used victim.1 < m.used j := by
          intro j hj hne
          rw [hothers] at hj
          obtain ⟨entry, hj⟩ := OrderedDict.mem_keys.mp hj
          rw [hrest, List.mem_cons] at hj
          rcases hj with rfl | hj
          · exact absurd (Eq.refl _) hne
          · exact (List.pairwise_cons.mp hordered).1 _ hj
        refine ⟨_, .evict hpositive (by rw [hcard, hfull]) hvictim holdest, ?_⟩
        rw [hdeadline, hone]
        refine (hpurge.erase victim.1).put ?_
        rw [OrderedDict.items_drop, hitems, hrest, OrderedDict.erase_comm,
          OrderedDict.erase_head hrest, OrderedDict.items_drop, hrest]
        rfl

theorem ttlSeconds_eq (ttl : Option ℚ) : b.ttlSeconds ttl = some (b.lifetime ttl) := by
  cases ttl <;> rfl

/-- Setting a key gives it the deadline that the call asks for; a lifetime
that is not positive removes it. -/
theorem set_refines (hmaxsize : 1 ≤ b.maxsize) (key : Str) (value : V) (ttl : Option ℚ) :
    b.Refines (fun now data ↦ ((), b.set key value ttl now data))
      (.set key value (some (b.lifetime ttl))) fun _ ↦ .stored := by
  intro now data m hsim hle
  unfold set
  simp only [ttlSeconds_eq]
  by_cases hpositive : b.lifetime ttl ≤ 0
  · simp only [if_pos hpositive]
    exact ⟨_, .refuse hpositive, hsim.erase key, (OrderedDict.length_erase_le _ _).trans hle⟩
  · simp only [if_neg hpositive]
    obtain ⟨m', hstep, hsim'⟩ := store_refines hmaxsize hsim hle key value
      (show ∀ s ∈ some (b.lifetime ttl), 0 < s by simpa using hpositive)
    exact ⟨m', hstep, hsim', length_popOldest _⟩

variable (b clock) in
/-- The data simulate the map from the time of the last operation on. -/
def Tracks (w : World V) (m : LruMap Str V ℚ) : Prop :=
  w.data.length ≤ b.maxsize ∧
    ∀ now, (∀ n < w.performed, clock n ≤ now) → Simulates now w.data m

variable {w : World V}

theorem Tracks.agrees (h : b.Tracks clock w m) : b.Agrees clock w m :=
  ⟨h.1, fun now hnow ↦ (h.2 now hnow).live⟩

theorem single_refines {β : Type} {op : ℚ → Data V → β × Data V} {o : LruOp Str V ℚ}
    {r : β → LruReply V} (hop : b.Refines op o r) (hclock : Monotone clock)
    (h : b.Tracks clock w m) :
    ∃ m', LruMap.Step b.maxsize (clock w.performed) m o (r (single clock op w).1) m' ∧
      b.Tracks clock (single clock op w).2 m' := by
  obtain ⟨hle, hsim⟩ := h
  have hpast : ∀ n < w.performed, clock n ≤ clock w.performed := fun n hn ↦ hclock hn.le
  obtain ⟨m', hstep, hsim', hle'⟩ := hop _ _ m (hsim _ hpast) hle
  refine ⟨m', hstep, hle', fun now hnow ↦ hsim'.mono ?_⟩
  exact hnow w.performed (Nat.lt_succ_self _)

theorem each_refines {α β : Type} {op : α → ℚ → Data V → β × Data V} {o : α → LruOp Str V ℚ}
    {r : β → LruReply V} {xs : List α} (hop : ∀ x ∈ xs, b.Refines (op x) (o x) r)
    (hclock : Monotone clock) (h : b.Tracks clock w m) :
    ∃ m', LruMap.Steps b.maxsize clock w.performed m (xs.map o) ((each clock op xs w).1.map r) m' ∧
      b.Tracks clock (each clock op xs w).2 m' := by
  induction xs generalizing w m with
  | nil => exact ⟨m, .nil _ _, h⟩
  | cons x rest ih =>
      obtain ⟨m', hstep, h'⟩ := single_refines (hop x List.mem_cons_self) hclock h
      obtain ⟨m'', hsteps, h''⟩ := ih (fun y hy ↦ hop y (List.mem_cons_of_mem _ hy)) h'
      exact ⟨m'', .cons hstep hsteps, h''⟩

/-- One call follows the same call on the map; to store a key takes room. -/
theorem perform_refines {call : MemoryCall V} (hmaxsize : call.Stores → 1 ≤ b.maxsize)
    (hclock : Monotone clock)
    (h : b.Tracks clock w m) :
    ∃ m', b.LruCall clock w.performed m call (b.perform clock call w).1 m' ∧
      b.Tracks clock (b.perform clock call w).2 m' := by
  have hone : ∀ {β : Type} {op : ℚ → Data V → β × Data V} {o : LruOp Str V ℚ}
      {r : β → LruReply V}, b.Refines op o r →
      ∃ m', LruMap.Steps b.maxsize clock w.performed m [o] [r (single clock op w).1] m' ∧
        b.Tracks clock (single clock op w).2 m' := by
    intro β op o r hop
    obtain ⟨m', hstep, h'⟩ := single_refines hop hclock h
    exact ⟨m', .cons hstep (.nil _ _), h'⟩
  cases call with
  | get key default =>
      obtain ⟨m', hsteps, h'⟩ := hone (get_refines key)
      have hget : single clock (get key default) w =
          ((single clock (get key none) w).1.or default, (single clock (get key none) w).2) := by
        simp only [single, get_default key default]
      simp only [perform, hget]
      exact ⟨m', ⟨_, hsteps, .get _ _ _⟩, h'⟩
  | set key value ttl =>
      obtain ⟨m', hsteps, h'⟩ := hone (set_refines (hmaxsize trivial) key value ttl)
      exact ⟨m', ⟨_, hsteps, .set _ _ _⟩, h'⟩
  | delete key =>
      obtain ⟨m', hsteps, h'⟩ := hone (delete_refines key)
      exact ⟨m', ⟨_, hsteps, .delete _ _⟩, h'⟩
  | clear =>
      obtain ⟨m', hsteps, h'⟩ := hone clear_refines
      exact ⟨m', ⟨_, hsteps, .clear⟩, h'⟩
  | getMany keys =>
      obtain ⟨m', hsteps, h'⟩ := each_refines (fun key _ ↦ get_refines key) hclock h
      exact ⟨m', ⟨_, hsteps, .getMany _ _⟩, h'⟩
  | setMany values ttl =>
      have hset : ∀ x ∈ values.items, b.Refines (fun now data ↦ ((), b.set x.1 x.2 ttl now data))
          (.set x.1 x.2 (some (b.lifetime ttl))) fun _ ↦ .stored := fun x hx ↦
        set_refines (hmaxsize (List.ne_nil_of_mem hx)) x.1 x.2 ttl
      obtain ⟨m', hsteps, h'⟩ := each_refines hset hclock h
      exact ⟨m', ⟨_, hsteps, .setMany _ _ _⟩, h'⟩
  | deleteMany keys =>
      obtain ⟨m', hsteps, h'⟩ := each_refines (fun key _ ↦ delete_refines key) hclock h
      exact ⟨m', ⟨_, hsteps, .deleteMany _ _⟩, h'⟩
  | size =>
      obtain ⟨m', hsteps, h'⟩ := hone size_refines
      exact ⟨m', ⟨_, hsteps, .size _⟩, h'⟩

theorem Tracks.follows (hmaxsize : 1 ≤ b.maxsize) (hclock : Monotone clock)
    (calls : List (MemoryCall V)) (h : b.Tracks clock w m) : b.Follows clock calls w m := by
  induction calls generalizing w m with
  | nil => exact h.agrees
  | cons call rest ih =>
      obtain ⟨m', hcall, h'⟩ := perform_refines (fun _ ↦ hmaxsize) hclock h
      exact ⟨h.agrees, m', hcall, ih h'⟩

/-- Any calls on a fresh backend, at times that do not decrease, follow a
bounded map with deadlines that forgets the least recently used key. -/
theorem memory_refines_lru (hmaxsize : 1 ≤ b.maxsize) (hclock : Monotone clock)
    (calls : List (MemoryCall V)) : b.Follows clock calls ⟨.empty, 0⟩ .empty :=
  Tracks.follows hmaxsize hclock calls ⟨Nat.zero_le _, fun _ _ ↦ .empty⟩

/-- A hit keeps the first key, and the second one is evicted; the third key is
over at its deadline, and the first is removed by a time to live of zero. -/
theorem memory_refines_lru_sample : Follows ⟨2, 60⟩ (fun n ↦ (n : ℚ))
    [.set ['a'] 1 none, .set ['b'] 2 none, .get ['a'] none, .set ['c'] 3 (some 2), .get ['b'] none,
      .get ['c'] none, .set ['a'] 4 (some 0), .get ['a'] none]
    ⟨.empty, 0⟩ .empty :=
  memory_refines_lru (by decide) Nat.mono_cast _

end MemoryCacheBackend

end DjangoNova
