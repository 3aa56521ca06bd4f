import Mathlib.Data.Fintype.Basic
import DjangoNova.Redis.Lock

/-!
# The ownership flag of lock objects

Tasks call `acquire` and `release` on shared lock objects. Between the
execution of a command at the server and the assignment of `_acquired` a
task is suspended, and other tasks run. The flag agrees with the server
while the calls on an object do not overlap and no `acquire` gives up on
a key that its own object holds.
-/

namespace DjangoNova

namespace RedisServer

variable {s s' : RedisServer} {x y : DistributedLock} {page : ℕ × List Str}

/-- The key of the object stores its identifier. -/
def StoresId (s : RedisServer) (x : DistributedLock) : Prop :=
  ∃ deadline, s.live x.name = some ⟨.string x.identifier, deadline⟩

/-- The `SET` of an object stores no other identifier. -/
theorem storesId_of_set {r : Except RedisError Bool}
    (h : s.execute page y.setCommand = some (r, s')) (hne : x.identifier ≠ y.identifier)
    (hx : s'.StoresId x) : s.StoresId x := by
  rcases execute_setCommand h with ⟨-, rfl⟩ | ⟨-, rfl⟩
  · exact hx
  obtain ⟨deadline, hlive⟩ := hx
  by_cases hname : x.name = y.name
  · rw [hname] at hlive
    obtain ⟨hentry, -⟩ := Option.filter_eq_some_iff.mp hlive
    rw [put_entries_self] at hentry
    have hid : y.identifier = x.identifier := by
      simpa using congrArg RedisEntry.value (Option.some.inj hentry)
    exact absurd hid.symm hne
  · refine ⟨deadline, ?_⟩
    unfold live at hlive ⊢
    rwa [put_entries_ne hname] at hlive

/-- The unlock script stores nothing, and leaves no key with the identifier
of its object. -/
theorem storesId_of_unlock {r : Except RedisError ℕ}
    (h : s.execute page y.unlockCommand = some (r, s')) (hr : ∃ n, r = .ok n) :
    (s'.StoresId x → s.StoresId x) ∧ ¬s'.StoresId y := by
  have hremove : s.remove [y.name] = s' ∨ s' = s ∧ ¬s.StoresId y := by
    simp only [DistributedLock.unlockCommand, execute] at h
    split at h
    · rename_i v deadline hlive
      split at h
      · obtain ⟨-, rfl⟩ := Prod.mk.inj (Option.some.inj h)
        exact .inl rfl
      · rename_i hne
        obtain ⟨-, rfl⟩ := Prod.mk.inj (Option.some.inj h)
        refine .inr ⟨rfl, ?_⟩
        rintro ⟨deadline', hlive'⟩
        have heq := Option.some.inj (hlive.symm.trans hlive')
        exact hne (by simpa using congrArg RedisEntry.value heq)
    · obtain ⟨rfl, -⟩ := Prod.mk.inj (Option.some.inj h)
      obtain ⟨n, hn⟩ := hr
      cases hn
    · rename_i hlive
      obtain ⟨-, rfl⟩ := Prod.mk.inj (Option.some.inj h)
      refine .inr ⟨rfl, ?_⟩
      rintro ⟨deadline, hlive'⟩
      rw [hlive] at hlive'
      cases hlive'
  rcases hremove with rfl | ⟨rfl, hnone⟩
  · constructor
    · rintro ⟨deadline, hlive⟩
      refine ⟨deadline, ?_⟩
      unfold live at hlive ⊢
      have hname : x.name ∉ [y.name] := by
        intro hmem
        simp only [remove, if_pos hmem, Option.filter_none, reduceCtorEq] at hlive
      rwa [remove_entries_of_not_mem hname] at hlive
    · rintro ⟨deadline, hlive⟩
      simp [live, remove] at hlive
  · exact ⟨id, hnone⟩

/-- The passing of time stores nothing. -/
theorem storesId_of_tick {ms : ℚ} (hms : 0 ≤ ms)
    (hx : ({ s with now := s.now + ms } : RedisServer).StoresId x) : s.StoresId x := by
  obtain ⟨deadline, hlive⟩ := hx
  exact ⟨deadline, live_earlier (by linarith) hlive⟩

end RedisServer

instance (s : RedisServer) (x : DistributedLock) : Decidable (s.StoresId x) :=
  match h : s.live x.name with
  | some ⟨.string v, deadline⟩ =>
      decidable_of_iff (v = x.identifier)
        ⟨fun hv ↦ ⟨deadline, hv ▸ h⟩, fun ⟨_, h'⟩ ↦ by cases h.symm.trans h'; exact Eq.refl _⟩
  | some ⟨.sortedSet _, _⟩ => .isFalse fun ⟨_, h'⟩ ↦ by cases h.symm.trans h'
  | none => .isFalse fun ⟨_, h'⟩ ↦ by cases h.symm.trans h'

/-- Where a call on a lock object stands. -/
inductive LockPhase where
  /-- about to send the `SET` -/
  | requesting
  /-- suspended with the reply of the `SET` -/
  | answered (granted : Bool)
  /-- refused, about to look at the clock -/
  | polling
  | unlocking
  | unlocked
  | returned
  deriving DecidableEq

inductive LockMethod where
  | acquire
  | release
  deriving DecidableEq

/-- A task makes one call on one object. -/
structure LockTask (O : Type) where
  object : O
  method : LockMethod

structure LockSystem (T O : Type) where
  server : RedisServer
  /-- `_acquired` -/
  acquired : O → Bool
  phase : T → Option LockPhase

inductive LockMove (T : Type) where
  | begin (t : T)
  /-- The server executes the command of the task. -/
  | serve (t : T)
  /-- The task gets the reply. -/
  | resume (t : T)
  /-- `time.monotonic() >= deadline` -/
  | check (t : T) (passed : Bool)
  | tick (ms : ℚ)

namespace LockSystem

variable {T O : Type} [DecidableEq T]

def start (server : RedisServer) : LockSystem T O := ⟨server, fun _ ↦ false, fun _ ↦ none⟩

def setPhase (s : LockSystem T O) (t : T) (φ : LockPhase) : LockSystem T O :=
  { s with phase := Function.update s.phase t (some φ) }

def setAcquired [DecidableEq O] (s : LockSystem T O) (x : O) (acquired : Bool) : LockSystem T O :=
  { s with acquired := Function.update s.acquired x acquired }

variable (o : O → DistributedLock) (task : T → LockTask O)

def step [DecidableEq O] (s : LockSystem T O) : LockMove T → Option (LockSystem T O)
  | .begin t =>
      match s.phase t, (task t).method with
      | some _, _ => none
      | none, .acquire => some (s.setPhase t .requesting)
      | none, .release =>
          some (s.setPhase t (if s.acquired (task t).object then .unlocking else .returned))
  | .serve t =>
      match s.phase t with
      | some .requesting =>
          match s.server.execute (0, []) (o (task t).object).setCommand with
          | some (.ok granted, server) => some ({ s with server }.setPhase t (.answered granted))
          | _ => none
      | some .unlocking =>
          match s.server.execute (0, []) (o (task t).object).unlockCommand with
          | some (.ok _, server) => some ({ s with server }.setPhase t .unlocked)
          | _ => none
      | _ => none
  | .resume t =>
      match s.phase t with
      | some (.answered true) => some ((s.setAcquired (task t).object true).setPhase t .returned)
      | some (.answered false) => some ((s.setAcquired (task t).object false).setPhase t .polling)
      | some .unlocked => some ((s.setAcquired (task t).object false).setPhase t .returned)
      | _ => none
  | .check t passed =>
      match s.phase t with
      | some .polling => some (s.setPhase t (if passed then .returned else .requesting))
      | _ => none
  | .tick ms =>
      if 0 ≤ ms then some { s with server := { s.server with now := s.server.now + ms } } else none

/-- The task has begun its call and has not returned from it. -/
def InProgress (s : LockSystem T O) (t : T) : Prop :=
  ∃ φ, s.phase t = some φ ∧ φ ≠ .returned

instance (s : LockSystem T O) : DecidablePred s.InProgress := fun t ↦
  match h : s.phase t with
  | some φ =>
      decidable_of_iff (φ ≠ .returned)
        ⟨fun hne ↦ ⟨φ, h, hne⟩, fun ⟨_, h', hne⟩ ↦ by cases h.symm.trans h'; exact hne⟩
  | none => .isFalse fun ⟨_, h', _⟩ ↦ by cases h.symm.trans h'

/-- No call on the object is in progress. -/
def Idle (s : LockSystem T O) (x : O) : Prop := ∀ t, (task t).object = x → ¬s.InProgress t

instance [Fintype T] [DecidableEq O] (s : LockSystem T O) : DecidablePred (s.Idle task) :=
  fun x ↦ inferInstanceAs (Decidable (∀ t, (task t).object = x → ¬s.InProgress t))

/-- The key stores the identifier of the object. -/
def Stores (s : LockSystem T O) (x : O) : Prop := s.server.StoresId (o x)

instance (s : LockSystem T O) : DecidablePred (s.Stores o) :=
  fun x ↦ inferInstanceAs (Decidable (s.server.StoresId (o x)))

/-- A call begins when the others on its object have returned, and no
`acquire` gives up while the key stores the identifier of its object. -/
def Orderly (s : LockSystem T O) : LockMove T → Prop
  | .begin t => s.Idle task (task t).object
  | .check t true => ¬s.Stores o (task t).object
  | _ => True

instance [Fintype T] [DecidableEq O] (s : LockSystem T O) : DecidablePred (s.Orderly o task)
  | .begin t => inferInstanceAs (Decidable (s.Idle task (task t).object))
  | .check t true => inferInstanceAs (Decidable ¬s.Stores o (task t).object)
  | .check _ false | .serve _ | .resume _ | .tick _ => .isTrue trivial

section Invariant

variable {o : O → DistributedLock} {task : T → LockTask O} {s s' : LockSystem T O} {t u : T} {x : O}

theorem inProgress_setPhase {φ : LockPhase} :
    (s.setPhase t φ).InProgress u ↔ (u = t ∧ φ ≠ .returned) ∨ (u ≠ t ∧ s.InProgress u) := by
  unfold InProgress setPhase
  by_cases hut : u = t
  · subst hut
    simp
  · simp [hut]

/-- Calls on one object do not overlap, an idle object whose identifier is
stored has the flag, and an unlocked key does not have the identifier. -/
structure Agrees (o : O → DistributedLock) (task : T → LockTask O) (s : LockSystem T O) : Prop where
  alone : ∀ t u, (task t).object = (task u).object → s.InProgress t → s.InProgress u → t = u
  owned : ∀ x, s.Stores o x → s.Idle task x → s.acquired x = true
  freed : ∀ t, s.phase t = some .unlocked → ¬s.Stores o (task t).object

/-- A task in progress moves on and stays in progress; the server forgets
identifiers at most, apart from the one of the object of the task. -/
theorem Agrees.advance (hs : Agrees o task s) (ht : s.InProgress t) (φ : LockPhase)
    {server : RedisServer}
    (hstores : ∀ x, x ≠ (task t).object → server.StoresId (o x) → s.Stores o x)
    (hfreed : φ = .unlocked → ¬server.StoresId (o (task t).object)) (hφ : φ ≠ .returned)
    (acquired : O → Bool) (hacquired : ∀ x, x ≠ (task t).object → acquired x = s.acquired x) :
    Agrees o task ((⟨server, acquired, s.phase⟩ : LockSystem T O).setPhase t φ) := by
  have hprogress : ∀ u,
      ((⟨server, acquired, s.phase⟩ : LockSystem T O).setPhase t φ).InProgress u →
        s.InProgress u := by
    intro u hu
    rcases inProgress_setPhase.mp hu with ⟨rfl, -⟩ | ⟨-, hu⟩
    · exact ht
    · exact hu
  have hself : ((⟨server, acquired, s.phase⟩ : LockSystem T O).setPhase t φ).InProgress t :=
    inProgress_setPhase.mpr (.inl ⟨rfl, hφ⟩)
  refine ⟨fun v w hvw hv hw ↦ hs.alone v w hvw (hprogress v hv) (hprogress w hw), ?_, ?_⟩
  · intro x hx hidle
    have hne : x ≠ (task t).object := by
      rintro rfl
      exact hidle t rfl hself
    rw [show ((⟨server, acquired, s.phase⟩ : LockSystem T O).setPhase t φ).acquired x = s.acquired x
      from hacquired x hne]
    refine hs.owned x (hstores x hne hx) fun u hu hprog ↦ ?_
    by_cases hut : u = t
    · exact hne (hut ▸ hu.symm)
    · exact hidle u hu (inProgress_setPhase.mpr (.inr ⟨hut, hprog⟩))
  · intro u hu
    by_cases hut : u = t
    · subst hut
      have hφ' : φ = .unlocked := by simpa [setPhase] using hu
      exact hfreed hφ'
    · have hold : s.phase u = some .unlocked := by simpa [setPhase, hut] using hu
      have hother : (task u).object ≠ (task t).object := by
        intro heq
        exact hut (hs.alone u t heq ⟨_, hold, by decide⟩ ht)
      exact fun hx ↦ hs.freed u hold (hstores _ hother hx)

/-- A call returns with the flag, or when the key does not store the
identifier of its object. -/
theorem Agrees.finish (hs : Agrees o task s) (ht : s.InProgress t) (acquired : O → Bool)
    (hacquired : ∀ x, x ≠ (task t).object → acquired x = s.acquired x)
    (hflag : s.Stores o (task t).object → acquired (task t).object = true) :
    Agrees o task ((⟨s.server, acquired, s.phase⟩ : LockSystem T O).setPhase t .returned) := by
  have hprogress : ∀ u,
      ((⟨s.server, acquired, s.phase⟩ : LockSystem T O).setPhase t .returned).InProgress u ↔
        u ≠ t ∧ s.InProgress u := by
    intro u
    rw [inProgress_setPhase]
    simp [InProgress]
  refine ⟨fun v w hvw hv hw ↦ ?_, fun x hx hidle ↦ ?_, fun u hu ↦ ?_⟩
  · exact hs.alone v w hvw ((hprogress v).mp hv).2 ((hprogress w).mp hw).2
  · by_cases hxt : x = (task t).object
    · subst hxt
      exact hflag hx
    · rw [show ((⟨s.server, acquired, s.phase⟩ : LockSystem T O).setPhase t .returned).acquired x =
        s.acquired x from hacquired x hxt]
      refine hs.owned x hx fun u hu hprog ↦ ?_
      have hut : u ≠ t := by
        rintro rfl
        exact hxt hu.symm
      exact hidle u hu ((hprogress u).mpr ⟨hut, hprog⟩)
  · have hut : u ≠ t := by
      rintro rfl
      simp [setPhase] at hu
    exact hs.freed u (by simpa [setPhase, hut] using hu)

variable [DecidableEq O]

theorem agrees_step (hids : Function.Injective fun x ↦ (o x).identifier) (hs : Agrees o task s)
    {a : LockMove T} (hok : s.Orderly o task a) (h : s.step o task a = some s') :
    Agrees o task s' := by
  have hne : ∀ {x y}, x ≠ y → (o x).identifier ≠ (o y).identifier := fun hxy heq ↦ hxy (hids heq)
  cases a with
  | begin t =>
      have hnew : s.phase t = none := by
        cases hphase : s.phase t with
        | none => rfl
        | some φ => simp [step, hphase] at h
      have hfresh : ∀ u, s.InProgress u → (task u).object ≠ (task t).object :=
        fun u hu heq ↦ hok u heq hu
      have hbegin : ∀ φ, φ ≠ .unlocked →
          (φ = .returned → s.Stores o (task t).object → s.acquired (task t).object = true) →
          Agrees o task (s.setPhase t φ) := by
        intro φ hφ hflag
        refine ⟨fun v w hvw hv hw ↦ ?_, fun x hx hidle ↦ ?_, fun u hu ↦ ?_⟩
        · rcases inProgress_setPhase.mp hv with ⟨hvt, -⟩ | ⟨-, hv⟩ <;>
            rcases inProgress_setPhase.mp hw with ⟨hwt, -⟩ | ⟨-, hw⟩
          · exact hvt.trans hwt.symm
          · exact absurd (hvt ▸ hvw.symm) (hfresh w hw)
          · exact absurd (hwt ▸ hvw) (hfresh v hv)
          · exact hs.alone v w hvw hv hw
        · by_cases hxt : x = (task t).object
          · subst hxt
            by_cases hφ' : φ = .returned
            · exact hflag hφ' hx
            · exact absurd (inProgress_setPhase.mpr (.inl ⟨rfl, hφ'⟩)) (hidle t rfl)
          · refine hs.owned x hx fun u hu hprog ↦ hidle u hu
              (inProgress_setPhase.mpr (.inr ⟨?_, hprog⟩))
            rintro rfl
            exact hxt hu.symm
        · have hut : u ≠ t := by
            rintro rfl
            exact hφ (by simpa [setPhase] using hu)
          exact hs.freed u (by simpa [setPhase, hut] using hu)
      cases hmethod : (task t).method with
      | acquire =>
          simp only [step, hnew, hmethod, Option.some.injEq] at h
          subst h
          exact hbegin .requesting (by decide) (fun h ↦ by cases h)
      | release =>
          simp only [step, hnew, hmethod, Option.some.injEq] at h
          subst h
          refine hbegin _ (by split <;> decide) fun _ hx ↦ hs.owned _ hx hok
  | serve t =>
      simp only [step] at h
      split at h
      · rename_i hphase
        split at h
        · rename_i granted server hexec
          obtain rfl := Option.some.inj h
          exact hs.advance ⟨_, hphase, by decide⟩ (.answered granted)
            (fun x hx ↦ RedisServer.storesId_of_set hexec (hne hx)) (by simp) (by simp)
            s.acquired fun _ _ ↦ rfl
        · cases h
      · rename_i hphase
        split at h
        · rename_i n server hexec
          obtain rfl := Option.some.inj h
          have hunlock : ∀ x, (server.StoresId x → s.server.StoresId x) ∧
              ¬server.StoresId (o (task t).object) :=
            fun x ↦ RedisServer.storesId_of_unlock hexec ⟨n, rfl⟩
          exact hs.advance ⟨_, hphase, by decide⟩ .unlocked (fun x _ ↦ (hunlock (o x)).1)
            (fun _ ↦ (hunlock (o (task t).object)).2) (by simp) s.acquired fun _ _ ↦ rfl
        · cases h
      · cases h
  | resume t =>
      simp only [step] at h
      split at h
      · rename_i hphase
        obtain rfl := Option.some.inj h
        exact hs.finish ⟨_, hphase, by decide⟩ _ (fun x hx ↦ Function.update_of_ne hx _ _)
          fun _ ↦ Function.update_self _ _ _
      · rename_i hphase
        obtain rfl := Option.some.inj h
        exact hs.advance ⟨_, hphase, by decide⟩ .polling (fun _ _ hx ↦ hx) (by simp) (by simp)
          (Function.update s.acquired (task t).object false) fun x hx ↦ Function.update_of_ne hx _ _
      · rename_i hphase
        obtain rfl := Option.some.inj h
        exact hs.finish ⟨_, hphase, by decide⟩ _ (fun x hx ↦ Function.update_of_ne hx _ _)
          fun hx ↦ absurd hx (hs.freed t hphase)
      · cases h
  | check t passed =>
      simp only [step] at h
      split at h
      · rename_i hphase
        obtain rfl := Option.some.inj h
        cases passed with
        | true =>
            exact hs.finish ⟨_, hphase, by decide⟩ s.acquired (fun _ _ ↦ rfl) fun hx ↦ absurd hx hok
        | false =>
            exact hs.advance ⟨_, hphase, by decide⟩ .requesting (fun _ _ hx ↦ hx) (by simp)
              (by simp)
              s.acquired fun _ _ ↦ rfl
      · cases h
  | tick ms =>
      simp only [step] at h
      obtain ⟨hms, h⟩ := Option.ite_none_right_eq_some.mp h
      obtain rfl := Option.some.inj h
      exact ⟨hs.alone, fun x hx ↦ hs.owned x (RedisServer.storesId_of_tick hms hx),
        fun t ht hx ↦ hs.freed t ht (RedisServer.storesId_of_tick hms hx)⟩

/-- A release by the flag executes the unlock script, and the key is free. -/
theorem release_frees (hflag : s.acquired x = true) (hstores : s.Stores o x)
    (hnew : s.phase t = none)
    (htask : task t = ⟨x, .release⟩) :
    ∃ s₁ s₂, s.step o task (.begin t) = some s₁ ∧ s₁.step o task (.serve t) = some s₂ ∧
      s₂.server.live (o x).name = none := by
  obtain ⟨deadline, hlive⟩ := hstores
  obtain rfl : (task t).object = x := by rw [htask]
  have hmethod : (task t).method = .release := by rw [htask]
  have hexec : s.server.execute (0, []) (o (task t).object).unlockCommand =
      some (.ok (1 : ℕ), s.server.remove [(o (task t).object).name]) := by
    simp only [DistributedLock.unlockCommand, RedisServer.execute, hlive, if_true]
  have hbegin : s.step o task (.begin t) = some (s.setPhase t .unlocking) := by
    simp only [step, hnew, hmethod, hflag, if_true]
  have hserve : (s.setPhase t .unlocking).step o task (.serve t) = some
      (LockSystem.setPhase ⟨s.server.remove [(o (task t).object).name], s.acquired,
        (s.setPhase t .unlocking).phase⟩ t .unlocked) := by
    have hphase : (s.setPhase t .unlocking).phase t = some .unlocking := Function.update_self _ _ _
    have hserver : (s.setPhase t .unlocking).server.execute (0, [])
        (o (task t).object).unlockCommand =
      some (.ok (1 : ℕ), s.server.remove [(o (task t).object).name]) := hexec
    simp only [step, hphase, hserver]
    exact Eq.refl _
  refine ⟨_, _, hbegin, hserve, ?_⟩
  simp [setPhase, RedisServer.live, RedisServer.remove]

/-- In an orderly run the flag of an idle object is set while the key stores
its identifier, and its next release frees the key. -/
theorem ownership_flag (hids : Function.Injective fun x ↦ (o x).identifier) {server : RedisServer}
    (hfresh : ∀ x, ¬server.StoresId (o x))
    (h : Transition.Reaches (step o task) (Orderly o task) (start server) s)
    (hidle : s.Idle task x) (hstores : s.Stores o x) :
    s.acquired x = true ∧ ∀ t, s.phase t = none → task t = ⟨x, .release⟩ →
      ∃ s₁ s₂, s.step o task (.begin t) = some s₁ ∧ s₁.step o task (.serve t) = some s₂ ∧
        s₂.server.live (o x).name = none := by
  have hstart : Agrees o task (start server) := by
    refine ⟨fun t u _ ht ↦ ?_, fun x hx ↦ absurd hx (hfresh x), fun t ht ↦ by cases ht⟩
    obtain ⟨φ, hφ, -⟩ := ht
    cases hφ
  have hagrees := h.invariant hstart fun s a s' hs hok hstep ↦ agrees_step hids hs hok hstep
  have hflag := hagrees.owned x hstores hidle
  exact ⟨hflag, fun t hnew htask ↦ release_frees hflag hstores hnew htask⟩

end Invariant

end LockSystem

section Sample

theorem sampleServer_fresh (x : DistributedLock) :
    ¬(⟨0, fun _ ↦ none⟩ : RedisServer).StoresId x := by
  rintro ⟨deadline, hlive⟩
  cases hlive

/-- The holder acquires and later releases; the other object is refused. -/
def contendTask (t : Fin 3) : LockTask Bool := ⟨t ≠ 1, if t = 2 then .release else .acquire⟩

def contendStep : LockSystem (Fin 3) Bool → LockMove (Fin 3) → Option (LockSystem (Fin 3) Bool) :=
  LockSystem.step sampleLock contendTask

/-- The second object is refused twice, and then it gives up. -/
def contendMoves : List (LockMove (Fin 3)) :=
  [.begin 0, .serve 0, .begin 1, .resume 0, .serve 1, .resume 1, .check 1 false, .serve 1,
    .resume 1, .check 1 true]

theorem ownership_flag_sample : ∃ s : LockSystem (Fin 3) Bool,
    s.phase 1 = some .returned ∧ s.acquired false = false ∧ s.acquired true = true ∧
    ∀ t, s.phase t = none → contendTask t = ⟨true, .release⟩ →
      ∃ s₁ s₂, contendStep s (.begin t) = some s₁ ∧ contendStep s₁ (.serve t) = some s₂ ∧
        s₂.server.live (sampleLock true).name = none := by
  have hrun : (Transition.run (fun s a ↦ if LockSystem.Orderly sampleLock contendTask s a
      then contendStep s a else none) (.start ⟨0, fun _ ↦ none⟩) contendMoves).any
      (fun s ↦ s.Idle contendTask true ∧ s.Stores sampleLock true ∧
        s.phase 1 = some .returned ∧ s.acquired false = false) = true := by
    decide +kernel
  obtain ⟨s, hs, hend⟩ := (Option.any_eq_true _ _).mp hrun
  obtain ⟨hidle, hstores, hreturned, hrefused⟩ := of_decide_eq_true hend
  have hids : Function.Injective fun x ↦ (sampleLock x).identifier := by
    show ∀ x y, (sampleLock x).identifier = (sampleLock y).identifier → x = y
    decide
  exact ⟨s, hreturned, hrefused, LockSystem.ownership_flag hids
    (fun x ↦ sampleServer_fresh (sampleLock x)) (Transition.reaches_of_guarded_run hs) hidle
    hstores⟩

/-- Two calls of `acquire` and one of `release`, on one object. -/
def ownershipTask (t : Fin 3) : LockTask Unit := ⟨(), if t = 2 then .release else .acquire⟩

def ownershipStep : LockSystem (Fin 3) Unit → LockMove (Fin 3) → Option (LockSystem (Fin 3) Unit) :=
  LockSystem.step (fun _ ↦ sampleLock true) ownershipTask

/-- The object acquires the lock, and acquires it again until it gives up:
the flag is lost while the key stores its identifier. -/
theorem ownership_flag_fails : ∃ s : LockSystem (Fin 3) Unit,
    Transition.Reaches ownershipStep Transition.Always (.start ⟨0, fun _ ↦ none⟩) s ∧
      s.Idle ownershipTask () ∧ s.Stores (fun _ ↦ sampleLock true) () ∧ s.acquired () = false := by
  have hrun : (Transition.run ownershipStep (.start ⟨0, fun _ ↦ none⟩)
      [.begin 0, .serve 0, .resume 0, .begin 1, .serve 1, .resume 1, .check 1 true]).any
      (fun s ↦ s.Idle ownershipTask () ∧ s.Stores (fun _ ↦ sampleLock true) () ∧
        s.acquired () = false) = true := by
    decide +kernel
  obtain ⟨s, hs, hlost⟩ := (Option.any_eq_true _ _).mp hrun
  exact ⟨s, Transition.reaches_of_run (fun _ _ _ ↦ trivial) hs, of_decide_eq_true hlost⟩

end Sample

end DjangoNova
