import DjangoNova.Cache.Rules
import DjangoNova.Cache.KeyDigest

/-!
# The protocol of a shared generation backend

The invariant ties every stored entry to the stamps of the tokens in its
key: the rows were read after all of them had been installed. A process
whose rotation failed keeps the scope pending until the stored token is
newer than its floor. Neither fact mentions the key index, which only
decides what is deleted, never what a key means.
-/

namespace DjangoNova

variable {T P Sql D : Type}

namespace CacheWorld

section Ghosts

variable (w w' : CacheWorld T P Sql D)

/-- What never goes back: the ghosts grow, and a token that appears was
installed after the earlier world. -/
structure Evolves : Prop where
  log : w.log.length ≤ w'.log.length
  installed : ∀ token n, w.installedAt token = some n → w'.installedAt token = some n
  latest : ∀ scope, w.latest scope ≤ w'.latest scope
  floor : ∀ p scope, w.floor p scope ≤ w'.floor p scope
  tokens : ∀ scope raw, w'.tokens scope = some raw →
    w.tokens scope = some raw ∨ w.now ≤ w'.latest scope

/-- The stored token of the scope, if any, is newer than the floor of `p`. -/
def Fresh (p : P) (scope : Scope) : Prop :=
  ∀ raw, w.tokens scope = some raw → w.floor p scope < w.latest scope

/-- The rows of an entry were read after its tokens had been installed. -/
def TokensBefore (generations : List (Scope × Str)) (stamp : ℕ) : Prop :=
  ∀ st ∈ generations, ∃ n, w.installedAt st.2 = some n ∧ n < stamp

variable {w w'}

theorem Evolves.refl : Evolves w w :=
  ⟨le_rfl, fun _ _ h ↦ h, fun _ ↦ le_rfl, fun _ _ ↦ le_rfl, fun _ _ h ↦ .inl h⟩

theorem Evolves.trans {w'' : CacheWorld T P Sql D} (h : Evolves w w') (h' : Evolves w' w'') :
    Evolves w w'' where
  log := h.log.trans h'.log
  installed token n hn := h'.installed token n (h.installed token n hn)
  latest scope := (h.latest scope).trans (h'.latest scope)
  floor p scope := (h.floor p scope).trans (h'.floor p scope)
  tokens scope raw hraw := by
    rcases h'.tokens scope raw hraw with hold | hnew
    · exact (h.tokens scope raw hold).imp_right (·.trans (h'.latest scope))
    · exact .inr ((Nat.succ_le_succ h.log).trans hnew)

theorem TokensBefore.evolves {generations : List (Scope × Str)} {stamp : ℕ}
    (h : w.TokensBefore generations stamp) (hw : Evolves w w') :
    w'.TokensBefore generations stamp := by
  intro st hst
  obtain ⟨n, hn, hlt⟩ := h st hst
  exact ⟨n, hw.installed st.2 n hn, hlt⟩

end Ghosts

/-- A logged attempt to rotate a scope: marking it as pending, or a write
that was not acknowledged. -/
def IsAttempt (scope : Scope) (e : CacheEvent T Sql D) : Prop :=
  (∃ u r, e = ⟨u, .update (.addPending scope), r⟩) ∨
    ∃ u token r, e = ⟨u, .tokenWrite scope token false, r⟩ ∧ r ≠ .ok true

variable (proc : T → P) (d : Deployment Sql)

structure SharedInv (w : CacheWorld T P Sql D) : Prop where
  /-- A stored token is the one installed last in its scope. -/
  token : ∀ scope raw, w.tokens scope = some raw → ∃ s, raw = .bytes (encodeAscii s) ∧
    IsGeneration s ∧ w.installedAt s = some (w.latest scope)
  /-- A scope that is no longer pending has a token newer than the floor. -/
  fenced : ∀ p scope, scope ∈ (w.states p).pendingGenerations ∨ w.Fresh p scope
  entry : ∀ db parts v, w.entries (QuerySetCache.makeKey d db parts) = some (.rows v) →
    w.TokensBefore parts.generations v.readAt
  installedPast : ∀ s n, w.installedAt s = some n → n < w.now ∧ w.reserved s ≠ none
  latestPast : ∀ scope, w.latest scope < w.now
  floorPast : ∀ p scope, w.floor p scope < w.now
  acked : ∀ i u scope s, w.log[i]? = some ⟨u, .tokenWrite scope s false, .ok true⟩ →
    i + 1 ≤ w.latest scope
  attempted : ∀ i e scope, w.log[i]? = some e → IsAttempt scope e →
    i + 1 ≤ w.floor (proc e.thread) scope

/-- The interference that thread `t` tolerates: the world evolves, the
lock protects the state of its process while `t` holds it, and the
tokens that `t` has generated are written by `t` alone. -/
structure SharedRely (t : T) (w w' : CacheWorld T P Sql D) : Prop extends Evolves w w' where
  held : ∀ n, w.locks (proc t) = some (t, n) → w'.locks (proc t) = some (t, n) ∧
    w'.states (proc t) = w.states (proc t) ∧ w'.floor (proc t) = w.floor (proc t)
  idle : (∀ n, w.locks (proc t) ≠ some (t, n)) → ∀ n, w'.locks (proc t) ≠ some (t, n)
  own : ∀ s, w.reserved s = some t → w'.reserved s = some t ∧ w'.installedAt s = w.installedAt s

variable {proc d} {t : T} {w w' w'' : CacheWorld T P Sql D}

theorem SharedRely.refl : SharedRely proc t w w :=
  ⟨Evolves.refl, fun _ h ↦ ⟨h, rfl, rfl⟩, fun h ↦ h, fun _ h ↦ ⟨h, rfl⟩⟩

theorem SharedRely.trans (h : SharedRely proc t w w') (h' : SharedRely proc t w' w'') :
    SharedRely proc t w w'' where
  toEvolves := h.toEvolves.trans h'.toEvolves
  held n hn := by
    obtain ⟨hl, hs, hf⟩ := h.held n hn
    obtain ⟨hl', hs', hf'⟩ := h'.held n hl
    exact ⟨hl', hs'.trans hs, hf'.trans hf⟩
  idle hn := h'.idle (h.idle hn)
  own s hs := by
    obtain ⟨hr, hi⟩ := h.own s hs
    obtain ⟨hr', hi'⟩ := h'.own s hr
    exact ⟨hr', hi'.trans hi⟩

/-- The invariant in the middle of an effect: its change is made and it is
not logged yet, so stamps may be present. -/
structure SharedPresent (proc : T → P) (d : Deployment Sql) (w : CacheWorld T P Sql D) : Prop where
  token : ∀ scope raw, w.tokens scope = some raw → ∃ s, raw = .bytes (encodeAscii s) ∧
    IsGeneration s ∧ w.installedAt s = some (w.latest scope)
  fenced : ∀ p scope, scope ∈ (w.states p).pendingGenerations ∨ w.Fresh p scope
  entry : ∀ db parts v, w.entries (QuerySetCache.makeKey d db parts) = some (.rows v) →
    w.TokensBefore parts.generations v.readAt
  installed : ∀ s n, w.installedAt s = some n → n ≤ w.now ∧ w.reserved s ≠ none
  latest : ∀ scope, w.latest scope ≤ w.now
  floor : ∀ p scope, w.floor p scope ≤ w.now

theorem SharedInv.present (h : SharedInv proc d w) : SharedPresent proc d w :=
  ⟨h.token, h.fenced, h.entry,
    fun s n hn ↦ ⟨(h.installedPast s n hn).1.le, (h.installedPast s n hn).2⟩,
    fun scope ↦ (h.latestPast scope).le, fun p scope ↦ (h.floorPast p scope).le⟩

/-- An effect is logged after its change; stamps of the present become
stamps of the past. -/
theorem SharedInv.record {e : CacheEffect Sql (Rows D)} {r : Except CacheError e.Reply}
    (h : SharedInv proc d w) (he : Evolves w w') (hlog : w'.log = w.log)
    (hpresent : SharedPresent proc d w')
    (hacked : ∀ scope s, (⟨t, e, r⟩ : CacheEvent T Sql D) =
      ⟨t, .tokenWrite scope s false, .ok true⟩ →
      w.now ≤ w'.latest scope)
    (hattempt : ∀ scope, IsAttempt scope (⟨t, e, r⟩ : CacheEvent T Sql D) →
      w.now ≤ w'.floor (proc t) scope) :
    SharedInv proc d (w'.record t e r) := by
  have hnow : (w'.record t e r).now = w'.now + 1 := by simp [now, CacheWorld.record]
  have hget : ∀ (i : ℕ) (x : CacheEvent T Sql D), (w'.record t e r).log[i]? = some x →
      w.log[i]? = some x ∨ i + 1 = w.now ∧ x = ⟨t, e, r⟩ := by
    intro i x hx
    simp only [CacheWorld.record, hlog] at hx
    rcases Nat.lt_trichotomy i w.log.length with hi | rfl | hi
    · exact .inl (by rwa [List.getElem?_append_left hi] at hx)
    · exact .inr ⟨rfl, by simpa using hx.symm⟩
    · rw [List.getElem?_eq_none (by simp; omega)] at hx
      exact absurd hx (by simp)
  refine ⟨hpresent.token, hpresent.fenced, hpresent.entry, fun s n hn ↦ ?_, fun scope ↦ ?_,
    fun p scope ↦ ?_, fun i u scope s hi ↦ ?_, fun i x scope hi hx ↦ ?_⟩
  · rw [hnow]
    exact ⟨Nat.lt_succ_of_le (hpresent.installed s n hn).1, (hpresent.installed s n hn).2⟩
  · rw [hnow]
    exact Nat.lt_succ_of_le (hpresent.latest scope)
  · rw [hnow]
    exact Nat.lt_succ_of_le (hpresent.floor p scope)
  · rcases hget i _ hi with hold | ⟨hi', hx⟩
    · exact (h.acked i u scope s hold).trans (he.latest scope)
    · obtain rfl : u = t := congrArg CacheEvent.thread hx
      exact hi' ▸ hacked scope s hx.symm
  · rcases hget i _ hi with hold | ⟨hi', rfl⟩
    · exact (h.attempted i x scope hold hx).trans (he.floor _ scope)
    · exact hi' ▸ hattempt scope hx

theorem Evolves.record {e : CacheEffect Sql (Rows D)} {r : Except CacheError e.Reply}
    (h : Evolves w w') : Evolves w (w'.record t e r) :=
  ⟨h.log.trans (by simp [CacheWorld.record]), h.installed, h.latest, h.floor, h.tokens⟩

/-- A change that leaves the locks alone stays within what `u` relies on. -/
theorem SharedRely.of_locks {u : T} (h : Evolves w w') (hlocks : w'.locks = w.locks)
    (hheld : ∀ n, w.locks (proc u) = some (u, n) →
      w'.states (proc u) = w.states (proc u) ∧ w'.floor (proc u) = w.floor (proc u))
    (hown : ∀ s, w.reserved s = some u →
      w'.reserved s = some u ∧ w'.installedAt s = w.installedAt s) :
    SharedRely proc u w w' :=
  ⟨h, fun n hn ↦ ⟨hlocks ▸ hn, hheld n hn⟩, fun hn ↦ hlocks ▸ hn, hown⟩

theorem Fresh.evolves {p : P} {scope : Scope} (hw : SharedInv proc d w)
    (h : w.Fresh p scope) (he : Evolves w w') (hfloor : w'.floor p = w.floor p) :
    w'.Fresh p scope := by
  intro raw hraw
  rw [hfloor]
  rcases he.tokens scope raw hraw with hold | hnew
  · exact (h raw hold).trans_le (he.latest scope)
  · exact (hw.floorPast p scope).trans_le hnew

theorem evictEntry_some {key key' : Str} {v : Stored (Rows D)}
    (h : (w.evictEntry key).entries key' = some v) : w.entries key' = some v := by
  by_cases hk : key' = key
  · simp [evictEntry, hk] at h
  · simpa [evictEntry, hk] using h

theorem evictToken_some {scope scope' : Scope} {raw : Raw}
    (h : (w.evictToken scope).tokens scope' = some raw) : w.tokens scope' = some raw := by
  by_cases hk : scope' = scope
  · simp [evictToken, hk] at h
  · simpa [evictToken, hk] using h

theorem SharedInv.evictEntry (h : SharedInv proc d w) (key : Str) :
    SharedInv proc d (w.evictEntry key) :=
  { h with entry := fun db parts v hv ↦ h.entry db parts v (evictEntry_some hv) }

theorem SharedInv.evictToken (h : SharedInv proc d w) (scope : Scope) :
    SharedInv proc d (w.evictToken scope) :=
  { h with
    token := fun s raw hraw ↦ h.token s raw (evictToken_some hraw)
    fenced := fun p s ↦ (h.fenced p s).imp_right fun hf raw hraw ↦ hf raw (evictToken_some hraw) }

theorem Evolves.evictEntry (key : Str) : Evolves w (w.evictEntry key) :=
  ⟨le_rfl, fun _ _ h ↦ h, fun _ ↦ le_rfl, fun _ _ ↦ le_rfl, fun _ _ h ↦ .inl h⟩

theorem Evolves.evictToken (scope : Scope) : Evolves w (w.evictToken scope) :=
  ⟨le_rfl, fun _ _ h ↦ h, fun _ ↦ le_rfl, fun _ _ ↦ le_rfl,
    fun _ _ h ↦ .inl (evictToken_some h)⟩

variable [DecidableEq P] [DecidableEq T]

/-- The two evictions of the environment. -/
theorem environment_cases {c : CacheChoice D}
    (h : (machine proc).environment c w = some w') :
    (∃ key, w' = w.evictEntry key) ∨ ∃ scope, w' = w.evictToken scope := by
  cases c <;> simp only [machine, Option.some.injEq, reduceCtorEq] at h
  · exact .inl ⟨_, h.symm⟩
  · exact .inr ⟨_, h.symm⟩

variable (proc d)

def sharedProtocol : CacheProtocol T P Sql D where
  machine := machine proc
  allowed := fun _ _ _ _ ↦ True
  inv := SharedInv proc d
  rely := SharedRely proc
  rely_refl := fun _ _ ↦ SharedRely.refl
  rely_trans := fun _ _ _ _ ↦ SharedRely.trans
  environment_inv := by
    intro c w w' hw h
    obtain ⟨key, rfl⟩ | ⟨scope, rfl⟩ := environment_cases h
    · exact hw.evictEntry key
    · exact hw.evictToken scope
  environment_rely := by
    intro c w w' t hw h
    obtain ⟨key, rfl⟩ | ⟨scope, rfl⟩ := environment_cases h
    · exact .of_locks (.evictEntry key) rfl (fun _ _ ↦ ⟨rfl, rfl⟩) fun _ hs ↦ ⟨hs, rfl⟩
    · exact .of_locks (.evictToken scope) rfl (fun _ _ ↦ ⟨rfl, rfl⟩) fun _ hs ↦ ⟨hs, rfl⟩

end CacheWorld

end DjangoNova
