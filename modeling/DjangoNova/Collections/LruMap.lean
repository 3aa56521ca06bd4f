import Mathlib.Algebra.Order.Group.Defs
import Mathlib.Data.Set.Card
import Mathlib.Logic.Function.Basic

/-!
# Bounded maps with deadlines that forget the least recently used key

A map knows when each key was last used, counted in uses. An entry counts
as long as its deadline is in the future. A full map makes room for a new
key by forgetting the live key that was used least recently.
-/

namespace DjangoNova

structure LruMap (K V T : Type*) where
  entry : K → Option (V × Option T)
  used : K → ℕ
  clock : ℕ

inductive LruOp (K V T : Type*) where
  | get (key : K)
  | set (key : K) (value : V) (lifetime : Option T)
  | delete (key : K)
  | clear
  | size

inductive LruReply (V : Type*) where
  | value (v : Option V)
  | stored
  | deleted (found : Bool)
  | cleared
  | size (n : ℕ)

namespace LruMap

variable {K V T : Type*}

def empty : LruMap K V T := ⟨fun _ ↦ none, fun _ ↦ 0, 0⟩

variable [DecidableEq K]

def erase (m : LruMap K V T) (key : K) : LruMap K V T :=
  { m with entry := Function.update m.entry key none }

/-- Use a key without changing its entry. -/
def touch (m : LruMap K V T) (key : K) : LruMap K V T :=
  { m with used := Function.update m.used key m.clock, clock := m.clock + 1 }

def put (m : LruMap K V T) (key : K) (value : V) (deadline : Option T) : LruMap K V T :=
  touch { m with entry := Function.update m.entry key (some (value, deadline)) } key

variable [LinearOrder T]

/-- The value of a key whose deadline is in the future. -/
def live (m : LruMap K V T) (now : T) (key : K) : Option V :=
  ((m.entry key).filter fun x ↦ x.2.all (now < ·)).map Prod.fst

def liveKeys (m : LruMap K V T) (now : T) : Set K := {key | (m.live now key).isSome}

/-- The other live keys. -/
def others (m : LruMap K V T) (now : T) (key : K) : Set K := {j | j ≠ key ∧ j ∈ m.liveKeys now}

/-- One operation at a time, for a map with room for some live keys. -/
inductive Step [AddMonoid T] (maxsize : ℕ) (now : T) (m : LruMap K V T) :
    LruOp K V T → LruReply V → LruMap K V T → Prop
  | hit {key : K} {v : V} : m.live now key = some v →
      Step maxsize now m (.get key) (.value (some v)) (m.touch key)
  | miss {key : K} : m.live now key = none → Step maxsize now m (.get key) (.value none) m
  | refuse {key : K} {v : V} {s : T} : s ≤ 0 →
      Step maxsize now m (.set key v (some s)) .stored (m.erase key)
  | store {key : K} {v : V} {lifetime : Option T} : (∀ s ∈ lifetime, 0 < s) →
      (m.others now key).encard < maxsize →
      Step maxsize now m (.set key v lifetime) .stored (m.put key v (lifetime.map (now + ·)))
  | evict {key : K} {v : V} {lifetime : Option T} {victim : K} : (∀ s ∈ lifetime, 0 < s) →
      (m.others now key).encard = maxsize → victim ∈ m.others now key →
      (∀ j ∈ m.others now key, j ≠ victim → m.used victim < m.used j) →
      Step maxsize now m (.set key v lifetime) .stored
        ((m.erase victim).put key v (lifetime.map (now + ·)))
  | delete (key : K) :
      Step maxsize now m (.delete key) (.deleted (m.live now key).isSome) (m.erase key)
  | clear : Step maxsize now m .clear .cleared empty
  | size {n : ℕ} : (m.liveKeys now).encard = n → Step maxsize now m .size (.size n) m

/-- Operations one after the other, the first one at the `n`-th instant of a clock. -/
inductive Steps [AddMonoid T] (maxsize : ℕ) (clock : ℕ → T) :
    ℕ → LruMap K V T → List (LruOp K V T) → List (LruReply V) → LruMap K V T → Prop
  | nil (n : ℕ) (m : LruMap K V T) : Steps maxsize clock n m [] [] m
  | cons {n : ℕ} {m m' m'' : LruMap K V T} {op : LruOp K V T} {ops : List (LruOp K V T)}
      {reply : LruReply V} {replies : List (LruReply V)} : Step maxsize (clock n) m op reply m' →
      Steps maxsize clock (n + 1) m' ops replies m'' →
      Steps maxsize clock n m (op :: ops) (reply :: replies) m''

section Lemmas

variable {m : LruMap K V T} {now : T} {key : K}

section Fields

omit [LinearOrder T]

variable {j : K} (v : V) (deadline : Option T)

theorem entry_erase (hne : j ≠ key) : (m.erase key).entry j = m.entry j :=
  Function.update_of_ne hne _ _

@[simp] theorem entry_erase_self : (m.erase key).entry key = none := Function.update_self ..

theorem entry_put (hne : j ≠ key) : (m.put key v deadline).entry j = m.entry j :=
  Function.update_of_ne hne _ _

@[simp] theorem entry_put_self : (m.put key v deadline).entry key = some (v, deadline) :=
  Function.update_self ..

theorem used_put (hne : j ≠ key) : (m.put key v deadline).used j = m.used j :=
  Function.update_of_ne hne _ _

@[simp] theorem used_put_self : (m.put key v deadline).used key = m.clock :=
  Function.update_self ..

@[simp] theorem clock_put : (m.put key v deadline).clock = m.clock + 1 := rfl

end Fields

omit [DecidableEq K] in
theorem live_eq_some_iff {v : V} : m.live now key = some v ↔
    ∃ deadline, m.entry key = some (v, deadline) ∧ ∀ t ∈ deadline, now < t := by
  unfold live
  cases hentry : m.entry key with
  | none => simp
  | some x =>
      obtain ⟨w, deadline⟩ := x
      cases deadline with
      | none => simp
      | some t =>
          by_cases ht : now < t
          · simp [ht]
          · simp [Option.filter_some, ht]

omit [LinearOrder T] in
theorem touch_eq_put {v : V} {deadline : Option T} (h : m.entry key = some (v, deadline)) :
    m.touch key = m.put key v deadline := by
  have hentry : Function.update m.entry key (some (v, deadline)) = m.entry :=
    Function.update_eq_self_iff.mpr h.symm
  simp only [put, hentry]

end Lemmas

end LruMap

end DjangoNova
