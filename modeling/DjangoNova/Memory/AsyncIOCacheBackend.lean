import Mathlib.Algebra.Group.Nat.Defs
import DjangoNova.Collections.OrderedDict
import DjangoNova.Text.Str

/-!
# The operations of AsyncIOCacheBackend

The store evicts the oldest key when a new one comes to a full store.
`set_many` updates the store as a whole and evicts nothing, so it keeps
the bound, and agrees with `set`, exactly while its new keys fit. The time
to live is ignored by the source.
-/

namespace DjangoNova

/-- `next(iter(self._store))` of an empty store. -/
inductive StoreError where
  | stopIteration
  deriving DecidableEq

inductive AsyncIOCall (V : Type) where
  | get (key : Str) (default : Option V)
  | set (key : Str) (value : V)
  | delete (key : Str)
  | clear
  | getMany (keys : List Str)
  | setMany (values : OrderedDict Str V)
  | deleteMany (keys : List Str)

structure AsyncIOCacheBackend where
  maxsize : ℕ

namespace AsyncIOCacheBackend

variable {V : Type} (b : AsyncIOCacheBackend)

abbrev Store (V : Type) : Type := OrderedDict Str V

def get (key : Str) (default : Option V) (store : Store V) : Option V :=
  (store.lookup key).or default

def set (key : Str) (value : V) (store : Store V) : Except StoreError (Store V) :=
  if b.maxsize ≤ store.length ∧ key ∉ store.keys then
    match store.items with
    | [] => .error .stopIteration
    | (oldest, _) :: _ => .ok ((store.erase oldest).setItem key value)
  else .ok (store.setItem key value)

def delete (key : Str) (store : Store V) : Bool × Store V :=
  if key ∈ store.keys then (true, store.erase key) else (false, store)

def getMany (keys : List Str) (store : Store V) : OrderedDict Str (Option V) :=
  OrderedDict.empty.setItems (keys.map fun k ↦ (k, store.lookup k))

def setMany (values : OrderedDict Str V) (store : Store V) : Store V := store.update values

def deleteMany : List Str → Store V → ℕ × Store V
  | [], store => (0, store)
  | k :: rest, store =>
      if k ∈ store.keys then
        let (count, store) := deleteMany rest (store.erase k)
        (count + 1, store)
      else deleteMany rest store

/-- The store after a call. -/
def perform : AsyncIOCall V → Store V → Except StoreError (Store V)
  | .get _ _, store | .getMany _, store => .ok store
  | .set key value, store => b.set key value store
  | .delete key, store => .ok (delete key store).2
  | .clear, _ => .ok .empty
  | .setMany values, store => .ok (setMany values store)
  | .deleteMany keys, store => .ok (deleteMany keys store).2

/-- The store of a fresh backend after some calls. -/
def after (calls : List (AsyncIOCall V)) : Except StoreError (Store V) :=
  calls.foldlM (fun store call ↦ b.perform call store) OrderedDict.empty

/-- Set the items one after the other. -/
def setEach (entries : List (Str × V)) (store : Store V) : Except StoreError (Store V) :=
  entries.foldlM (fun store x ↦ b.set x.1 x.2 store) store

/-- Every call keeps the bound, and every `set_many` agrees with `set`. -/
def Bounded (calls : List (AsyncIOCall V)) : Prop :=
  ∀ before call rest, calls = before ++ call :: rest →
    ∃ store store', b.after before = .ok store ∧ b.perform call store = .ok store' ∧
      store'.length ≤ b.maxsize ∧
      ∀ values, call = .setMany values → b.setEach values.items store = .ok store'

/-- The new keys of every `set_many` fit into the store. -/
def Fits (calls : List (AsyncIOCall V)) : Prop :=
  ∀ before values rest, calls = before ++ .setMany values :: rest →
    ∃ store, b.after before = .ok store ∧
      store.length + (store.newKeys values.items).length ≤ b.maxsize

variable {b} {store : Store V} {calls : List (AsyncIOCall V)}

theorem after_snoc (calls : List (AsyncIOCall V)) (call : AsyncIOCall V) :
    b.after (calls ++ [call]) = b.after calls >>= b.perform call := by
  simp [after, List.foldlM_append]

theorem set_length (hmaxsize : 1 ≤ b.maxsize) (hle : store.length ≤ b.maxsize) (key : Str)
    (value : V) : ∃ store', b.set key value store = .ok store' ∧ store'.length ≤ b.maxsize := by
  unfold set
  by_cases hfull : b.maxsize ≤ store.length ∧ key ∉ store.keys
  · rw [if_pos hfull]
    cases hitems : store.items with
    | nil =>
        have hzero : store.length = 0 := by simp [OrderedDict.length, hitems]
        omega
    | cons x rest =>
        obtain ⟨oldest, v⟩ := x
        refine ⟨_, Eq.refl _, ?_⟩
        have holdest : oldest ∈ store.keys := by simp [OrderedDict.keys, hitems]
        have hlt := OrderedDict.length_erase_lt holdest
        rw [OrderedDict.length_setItem]
        split <;> omega
  · rw [if_neg hfull]
    refine ⟨_, Eq.refl _, ?_⟩
    rw [OrderedDict.length_setItem]
    split
    · exact hle
    · rename_i hnew
      have hroom : ¬b.maxsize ≤ store.length := fun h ↦ hfull ⟨h, hnew⟩
      omega

theorem deleteMany_length (keys : List Str) (store : Store V) :
    (deleteMany keys store).2.length ≤ store.length := by
  induction keys generalizing store with
  | nil => exact le_refl _
  | cons k rest ih =>
      unfold deleteMany
      split
      · rename_i hk
        exact (ih _).trans (OrderedDict.length_erase_lt hk).le
      · exact ih _

/-- While the new keys fit, setting the items one by one evicts nothing. -/
theorem setEach_eq {entries : List (Str × V)} (hnodup : (entries.map Prod.fst).Nodup)
    (hfits : store.length + (store.newKeys entries).length ≤ b.maxsize) :
    b.setEach entries store = .ok (store.setItems entries) := by
  induction entries generalizing store with
  | nil => rfl
  | cons x rest ih =>
      obtain ⟨hx, hrest⟩ := List.nodup_cons.mp hnodup
      rw [OrderedDict.newKeys_cons hx] at hfits
      have hset : b.set x.1 x.2 store = .ok (store.setItem x.1 x.2) := by
        refine if_neg ?_
        rintro ⟨hfull, hnew⟩
        rw [if_neg hnew] at hfits
        omega
      have hlength : (store.setItem x.1 x.2).length +
          ((store.setItem x.1 x.2).newKeys rest).length ≤ b.maxsize := by
        rw [OrderedDict.length_setItem]
        split at hfits <;> rename_i hk <;> simp only [hk, if_true, if_false] <;> omega
      show (b.set x.1 x.2 store >>= fun store ↦ b.setEach rest store) = _
      rw [hset]
      exact ih hrest hlength

/-- One call on a store within the bound. -/
theorem perform_length (hmaxsize : 1 ≤ b.maxsize) (hle : store.length ≤ b.maxsize)
    (call : AsyncIOCall V) (hfits : ∀ values, call = .setMany values →
      store.length + (store.newKeys values.items).length ≤ b.maxsize) :
    ∃ store', b.perform call store = .ok store' ∧ store'.length ≤ b.maxsize := by
  cases call with
  | get key default => exact ⟨store, Eq.refl _, hle⟩
  | getMany keys => exact ⟨store, Eq.refl _, hle⟩
  | set key value => exact set_length hmaxsize hle key value
  | delete key =>
      refine ⟨_, Eq.refl _, ?_⟩
      unfold delete
      split
      · rename_i hk
        exact (OrderedDict.length_erase_lt hk).le.trans hle
      · exact hle
  | clear => exact ⟨_, Eq.refl _, Nat.zero_le _⟩
  | setMany values =>
      refine ⟨_, Eq.refl _, ?_⟩
      have hlength := OrderedDict.length_setItems (d := store) values.nodup
      exact hlength.le.trans (hfits values (Eq.refl _))
  | deleteMany keys => exact ⟨_, Eq.refl _, (deleteMany_length keys store).trans hle⟩

theorem Fits.after_length (h : b.Fits calls) (hmaxsize : 1 ≤ b.maxsize) :
    ∀ before rest, calls = before ++ rest →
      ∃ store, b.after before = .ok store ∧ store.length ≤ b.maxsize := by
  intro before
  induction before using List.reverseRecOn with
  | nil => exact fun rest _ ↦ ⟨.empty, Eq.refl _, Nat.zero_le _⟩
  | append_singleton before call ih =>
      intro rest hcalls
      obtain ⟨store, hafter, hle⟩ := ih (call :: rest) (by simpa using hcalls)
      have hfits : ∀ values, call = .setMany values →
          store.length + (store.newKeys values.items).length ≤ b.maxsize := by
        rintro values rfl
        obtain ⟨store', hafter', hroom⟩ := h before values rest (by simpa using hcalls)
        obtain rfl := Except.ok.inj (hafter.symm.trans hafter')
        exact hroom
      obtain ⟨store', hperform, hle'⟩ := perform_length hmaxsize hle call hfits
      refine ⟨store', ?_, hle'⟩
      rw [after_snoc, hafter]
      exact hperform

/-- Any calls on a fresh backend keep the bound, and its bulk path agrees
with the single one, if and only if the new keys of every `set_many` fit. -/
theorem asyncio_bounded (hmaxsize : 1 ≤ b.maxsize) (calls : List (AsyncIOCall V)) :
    b.Bounded calls ↔ b.Fits calls := by
  constructor
  · intro h before values rest hcalls
    obtain ⟨store, store', hafter, hperform, hle, -⟩ := h before (.setMany values) rest hcalls
    obtain rfl := Except.ok.inj hperform
    refine ⟨store, hafter, ?_⟩
    have hlength := OrderedDict.length_setItems (d := store) values.nodup
    exact hlength.ge.trans hle
  · intro h before call rest hcalls
    obtain ⟨store, hafter, hle⟩ := h.after_length hmaxsize before (call :: rest) hcalls
    have hfits : ∀ values, call = .setMany values →
        store.length + (store.newKeys values.items).length ≤ b.maxsize := by
      rintro values rfl
      obtain ⟨store', hafter', hroom⟩ := h before values rest hcalls
      obtain rfl := Except.ok.inj (hafter.symm.trans hafter')
      exact hroom
    obtain ⟨store', hperform, hle'⟩ := perform_length hmaxsize hle call hfits
    refine ⟨store, store', hafter, hperform, hle', ?_⟩
    rintro values rfl
    rw [setEach_eq values.nodup (hfits values (Eq.refl _))]
    exact hperform

theorem asyncio_bounded_sample : Bounded ⟨2⟩
    [AsyncIOCall.setMany ⟨[(['a'], 0), (['b'], 1)], by decide⟩] := by
  refine (asyncio_bounded (by decide) _).mpr fun before values rest hcalls ↦ ?_
  cases before with
  | nil =>
      obtain ⟨hvalues, -⟩ := List.cons.inj hcalls
      obtain rfl := AsyncIOCall.setMany.inj hvalues
      exact ⟨.empty, Eq.refl _, by decide⟩
  | cons call before => simp at hcalls

/-- Two items in one `set_many` on a store for one. -/
theorem asyncio_bounded_fails :
    ¬Bounded ⟨1⟩ [AsyncIOCall.setMany ⟨[(['a'], 0), (['b'], 1)], by decide⟩] := by
  intro h
  obtain ⟨store, store', hafter, hperform, hle, -⟩ := h [] _ [] (Eq.refl _)
  obtain rfl := Except.ok.inj hafter
  obtain rfl := Except.ok.inj hperform
  exact absurd hle (by decide)

end AsyncIOCacheBackend

end DjangoNova
