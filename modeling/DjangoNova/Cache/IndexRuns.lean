import DjangoNova.Cache.KeyDigest
import DjangoNova.Cache.KeyIndex
import DjangoNova.Cache.LockDiscipline
import DjangoNova.Cache.SpanRules

/-!
# The key index under any interleaving

Threads call the methods of caches that share one state. The backend, the
database and the tracing provider answer as they like; only the lock, the
state and the order of a set are what they are. Each thread notes how it
found the state when it took the lock, which deletions it tried, and how
it left the state.
-/

namespace DjangoNova

open Program

/-- What a thread did under the lock that it took last. -/
structure Visit where
  entered : Option CacheState
  deletes : List (Str × Except CacheError Bool)
  left : Option CacheState

/-- One `_QuerySetCacheState` with its lock; the visits are ghosts. -/
structure IndexWorld (T : Type) where
  state : CacheState
  lock : Option (T × ℕ)
  visits : T → Visit

namespace IndexWorld

variable {T Sql V : Type}

def initial : IndexWorld T := ⟨CacheState.initial, none, fun _ ↦ ⟨none, [], none⟩⟩

/-- Thread `t` holds the lock exactly `n` times. -/
def Depth (t : T) : ℕ → IndexWorld T → Prop
  | 0, w => ∀ n, w.lock ≠ some (t, n)
  | n + 1, w => w.lock = some (t, n + 1)

section Machine

variable [DecidableEq T]

def setVisit (w : IndexWorld T) (t : T) (v : Visit) : IndexWorld T :=
  { w with visits := Function.update w.visits t v }

def enter (w : IndexWorld T) (t : T) : IndexWorld T :=
  { w.setVisit t ⟨some w.state, [], none⟩ with lock := some (t, 1) }

def leave (w : IndexWorld T) (t : T) : IndexWorld T :=
  { w.setVisit t { w.visits t with left := some w.state } with lock := none }

def tried (w : IndexWorld T) (t : T) (key : Str) (r : Except CacheError Bool) : IndexWorld T :=
  w.setVisit t { w.visits t with deletes := (w.visits t).deletes ++ [(key, r)] }

/-- One effect of thread `t`; what is not the state's own is answered by `reply`. -/
def act (t : T) (w : IndexWorld T) (e : CacheEffect Sql V)
    (reply : (e : CacheEffect Sql V) → Except CacheError e.Reply) :
    Option (Except CacheError e.Reply × IndexWorld T) :=
  match e with
  | .acquire =>
      match w.lock with
      | none => some (.ok (), w.enter t)
      | some (u, n) => if u = t then some (.ok (), { w with lock := some (t, n + 1) }) else none
  | .release =>
      match w.lock with
      | some (u, n) =>
          if u = t then
            some (.ok (), if n ≤ 1 then w.leave t else { w with lock := some (t, n - 1) })
          else none
      | none => none
  | .readState => some (.ok w.state, w)
  | .update u => some (.ok (), { w with state := u.apply w.state })
  | .keyOrder keys =>
      match reply (.keyOrder keys) with
      | .ok l => if l.Nodup ∧ l.toFinset = keys then some (.ok l, w) else none
      | .error _ => none
  | .backendDelete key =>
      some (reply (.backendDelete key), w.tried t key (reply (.backendDelete key)))
  | e => some (reply e, w)

def machine : Machine T (CacheEffect Sql V) CacheEffect.Reply CacheError (IndexWorld T)
    ((e : CacheEffect Sql V) → Except CacheError e.Reply) where
  perform t e reply w := w.act t e reply
  environment _ _ := none

end Machine

section Rely

/-- Others leave the notes of `t` alone, and the state while `t` holds the lock. -/
structure Rely (t : T) (w w' : IndexWorld T) : Prop where
  visits : w'.visits t = w.visits t
  depth : ∀ n, w.Depth t n → w'.Depth t n
  state : ∀ n, w.Depth t (n + 1) → w'.state = w.state

variable {t u : T} {n : ℕ} {w w' w'' : IndexWorld T}

theorem Rely.refl (t : T) (w : IndexWorld T) : Rely t w w := ⟨rfl, fun _ ↦ id, fun _ _ ↦ rfl⟩

theorem Rely.trans (h : Rely t w w') (h' : Rely t w' w'') : Rely t w w'' where
  visits := h'.visits.trans h.visits
  depth n hn := h'.depth n (h.depth n hn)
  state n hn := (h'.state n (h.depth _ hn)).trans (h.state n hn)

/-- The thread that holds the lock is alone. -/
theorem Depth.alone (h : w.Depth t (n + 1)) (hu : u ≠ t) : w.Depth u 0 := by
  intro m hm
  have heq := hm.symm.trans h
  simp only [Option.some.injEq, Prod.mk.injEq] at heq
  exact hu heq.1

/-- A thread that is outside before and after relies on its notes only. -/
theorem Rely.outside (hvisits : w'.visits t = w.visits t) (h : w.Depth t 0) (h' : w'.Depth t 0) :
    Rely t w w' := by
  refine ⟨hvisits, fun n hn ↦ ?_, fun n hn ↦ absurd hn (h _)⟩
  cases n with
  | zero => exact h'
  | succ n => exact absurd hn (h _)

theorem Rely.of_eq (hvisits : w'.visits t = w.visits t) (hlock : w'.lock = w.lock)
    (hstate : w'.state = w.state) : Rely t w w' := by
  refine ⟨hvisits, fun n hn ↦ ?_, fun _ _ ↦ hstate⟩
  cases n with
  | zero => exact fun m ↦ hlock ▸ hn m
  | succ n => exact hlock.trans hn

theorem rely_lock {m : ℕ} (hn : w.Depth t (n + 1)) (hu : u ≠ t) :
    Rely u w { w with lock := some (t, m + 1) } := by
  have h : Depth t (m + 1) { w with lock := some (t, m + 1) } := Eq.refl _
  exact .outside (Eq.refl _) (hn.alone hu) (h.alone hu)

end Rely

section Steps

variable [DecidableEq T]
variable {t u : T} {n : ℕ} {w w' w'' : IndexWorld T}

theorem visits_setVisit_self {v : Visit} : (w.setVisit t v).visits t = v :=
  Function.update_self _ _ _

theorem visits_setVisit (hu : u ≠ t) {v : Visit} : (w.setVisit t v).visits u = w.visits u :=
  Function.update_of_ne hu _ _

variable {reply : (e : CacheEffect Sql V) → Except CacheError e.Reply}

/-! The reentrant lock: its outermost holds are the visits. -/

theorem act_acquire_outer {r : Except CacheError Unit} (hn : w.Depth t 0)
    (h : w.act t .acquire reply = some (r, w')) : r = .ok () ∧ w' = w.enter t := by
  unfold act at h
  dsimp only at h
  split at h
  next => simpa using h.symm
  next v m hl =>
    split at h
    next hv =>
      subst hv
      exact absurd hl (hn m)
    next => cases h

theorem act_acquire_inner {r : Except CacheError Unit} (hn : w.Depth t (n + 1))
    (h : w.act t .acquire reply = some (r, w')) :
    r = .ok () ∧ w' = { w with lock := some (t, n + 2) } := by
  have hl : w.lock = some (t, n + 1) := hn
  simpa [act, hl, eq_comm] using h

theorem act_release_outer {r : Except CacheError Unit} (hn : w.Depth t 1)
    (h : w.act t .release reply = some (r, w')) : r = .ok () ∧ w' = w.leave t := by
  have hl : w.lock = some (t, 1) := hn
  simpa [act, hl, eq_comm] using h

theorem act_release_inner {r : Except CacheError Unit} (hn : w.Depth t (n + 2))
    (h : w.act t .release reply = some (r, w')) :
    r = .ok () ∧ w' = { w with lock := some (t, n + 1) } := by
  have hl : w.lock = some (t, n + 2) := hn
  simpa [act, hl, eq_comm] using h

theorem enter_depth : (w.enter t).Depth t 1 := Eq.refl _

theorem leave_depth (u : T) : (w.leave t).Depth u 0 := fun _ ↦ nofun

theorem rely_enter (hl : w.lock = none) (hu : u ≠ t) : Rely u w (w.enter t) := by
  refine .outside (visits_setVisit hu) (fun m hm ↦ ?_) (enter_depth.alone hu)
  rw [hl] at hm
  cases hm

theorem rely_leave (hn : w.Depth t (n + 1)) (hu : u ≠ t) : Rely u w (w.leave t) :=
  .outside (visits_setVisit hu) (hn.alone hu) (leave_depth u)

/-- What an effect does to the lock, and to the other threads. -/
theorem act_rely {e : CacheEffect Sql V} {r : Except CacheError e.Reply} (hn : w.Depth t n)
    (hlock : e.NeedsLock → 0 < n) (h : w.act t e reply = some (r, w')) :
    w'.Depth t (e.depth n r) ∧ ∀ u, u ≠ t → Rely u w w' := by
  cases e with
  | acquire =>
      cases n with
      | zero =>
          have hl : w.lock = none := by
            cases hl : w.lock with
            | none => rfl
            | some held =>
                obtain ⟨v, m⟩ := held
                have hv : v ≠ t := fun hv ↦ hn m (hv ▸ hl)
                simp [act, hl, hv] at h
          obtain ⟨rfl, rfl⟩ := act_acquire_outer hn h
          exact ⟨enter_depth, fun u hu ↦ rely_enter hl hu⟩
      | succ n =>
          obtain ⟨rfl, rfl⟩ := act_acquire_inner hn h
          exact ⟨Eq.refl _, fun u hu ↦ rely_lock hn hu⟩
  | release =>
      obtain ⟨n, rfl⟩ := Nat.exists_eq_succ_of_ne_zero (hlock trivial).ne'
      cases n with
      | zero =>
          obtain ⟨rfl, rfl⟩ := act_release_outer hn h
          exact ⟨leave_depth t, fun u hu ↦ rely_leave hn hu⟩
      | succ n =>
          obtain ⟨rfl, rfl⟩ := act_release_inner hn h
          exact ⟨Eq.refl _, fun u hu ↦ rely_lock hn hu⟩
  | update u =>
      obtain ⟨n, rfl⟩ := Nat.exists_eq_succ_of_ne_zero (hlock trivial).ne'
      simp only [act, Option.some.injEq, Prod.mk.injEq] at h
      obtain ⟨-, rfl⟩ := h
      have h' : Depth t (n + 1) { w with state := u.apply w.state } := hn
      exact ⟨h', fun v hv ↦ .outside (Eq.refl _) (hn.alone hv) (h'.alone hv)⟩
  | backendDelete key =>
      simp only [act, Option.some.injEq, Prod.mk.injEq] at h
      obtain ⟨-, rfl⟩ := h
      have hkept : ∀ v, v ≠ t → Rely v w (w.tried t key (reply (.backendDelete key))) :=
        fun v hv ↦ .of_eq (visits_setVisit hv) (Eq.refl _) (Eq.refl _)
      refine ⟨?_, hkept⟩
      cases n <;> exact hn
  | keyOrder keys =>
      simp only [act] at h
      split at h
      · simp only [Option.ite_none_right_eq_some, Option.some.injEq, Prod.mk.injEq] at h
        obtain ⟨-, -, rfl⟩ := h
        exact ⟨hn, fun v _ ↦ .refl v w⟩
      · cases h
  | _ =>
      simp only [act, Option.some.injEq, Prod.mk.injEq] at h
      obtain ⟨-, rfl⟩ := h
      exact ⟨hn, fun v _ ↦ .refl v w⟩

theorem act_state {e : CacheEffect Sql V} {r : Except CacheError e.Reply}
    (h : w.act t e reply = some (r, w')) :
    w'.state = w.state ∨ ∃ u, e = .update u ∧ w'.state = u.apply w.state := by
  cases e with
  | acquire =>
      simp only [act] at h
      split at h
      · obtain ⟨-, rfl⟩ := Prod.mk.inj (Option.some.inj h)
        exact .inl rfl
      · obtain ⟨-, h⟩ := Option.ite_none_right_eq_some.mp h
        obtain ⟨-, rfl⟩ := Prod.mk.inj (Option.some.inj h)
        exact .inl rfl
  | release =>
      simp only [act] at h
      split at h
      · obtain ⟨-, h⟩ := Option.ite_none_right_eq_some.mp h
        obtain ⟨-, rfl⟩ := Prod.mk.inj (Option.some.inj h)
        left
        split <;> rfl
      · cases h
  | update u =>
      simp only [act, Option.some.injEq, Prod.mk.injEq] at h
      obtain ⟨-, rfl⟩ := h
      exact .inr ⟨u, rfl, rfl⟩
  | keyOrder keys =>
      simp only [act] at h
      split at h
      · simp only [Option.ite_none_right_eq_some, Option.some.injEq, Prod.mk.injEq] at h
        obtain ⟨-, -, rfl⟩ := h
        exact .inl rfl
      · cases h
  | _ =>
      simp only [act, Option.some.injEq, Prod.mk.injEq] at h
      obtain ⟨-, rfl⟩ := h
      exact .inl rfl

theorem act_mirrored {e : CacheEffect Sql V} {r : Except CacheError e.Reply}
    (hw : w.state.Mirrored) (he : ∀ keys, e ≠ .update (.block keys))
    (h : w.act t e reply = some (r, w')) : w'.state.Mirrored := by
  rcases act_state h with hs | ⟨u, rfl, hs⟩
  · rw [hs]
    exact hw
  · rw [hs]
    exact u.mirrored hw fun keys hu ↦ he keys (congrArg _ hu)

end Steps

end IndexWorld

namespace KeyIndex

section Judgements

open IndexWorld Protocol QuerySetCache CacheState

variable {T Sql V α : Type} [DecidableEq T]

/-- The index is mirrored at every moment, also inside the locked blocks. -/
def indexProtocol (T Sql V : Type) [DecidableEq T] :
    Protocol T (CacheEffect Sql V) CacheEffect.Reply CacheError (IndexWorld T)
      ((e : CacheEffect Sql V) → Except CacheError e.Reply) where
  machine := machine
  allowed _ _ _ _ := True
  inv w := w.state.Mirrored
  rely := Rely
  rely_refl := Rely.refl
  rely_trans _ _ _ _ := Rely.trans
  environment_inv _ _ _ _ h := nomatch h
  environment_rely _ _ _ _ _ h := nomatch h

abbrev IndexTriple (t : T) (pre : IndexWorld T → Prop) (p : CacheProgram Sql V α)
    (post : Except CacheError α → IndexWorld T → Prop) : Prop :=
  (indexProtocol T Sql V).Triple t pre p post

variable {t : T} {n : ℕ} {s : CacheState} {v : Visit}

theorem index_effect {e : CacheEffect Sql V} {pre : IndexWorld T → Prop}
    {post : Except CacheError e.Reply → IndexWorld T → Prop}
    (hdepth : ∀ w, pre w → w.Depth t n) (hlock : e.NeedsLock → 0 < n)
    (h : ∀ w reply r w', w.state.Mirrored → pre w → w.act t e reply = some (r, w') →
      w'.Depth t (e.depth n r) → w'.state.Mirrored ∧ post r w') :
    (indexProtocol T Sql V).Effect t pre e post := by
  intro w reply r w' hw hpre _ ha
  obtain ⟨hn, hrely⟩ := act_rely (hdepth w hpre) hlock ha
  obtain ⟨hw', hpost⟩ := h w reply r w' hw hpre ha hn
  exact ⟨hw', hrely, hpost⟩

/-- A family of assertions, one for each count of the lock, that the allowed
effects keep holds along a disciplined program. -/
theorem triple_disciplined {allowed : CacheEffect Sql V → Prop} (pre : ℕ → IndexWorld T → Prop)
    (hstable : ∀ n, (indexProtocol T Sql V).Stable t (pre n))
    (heffect : ∀ n e, allowed e → (e.NeedsLock → 0 < n) →
      (indexProtocol T Sql V).Effect t (pre n) e fun r ↦ pre (e.depth n r))
    {p : CacheProgram Sql V α} {m : ℕ} (hp : Disciplined allowed p n m) :
    IndexTriple t (pre n) p fun _ ↦ pre m := by
  induction p generalizing n with
  | done r =>
      obtain rfl : n = m := hp
      exact fun _ _ h ↦ h
  | step e k ih =>
      intro w hw hpre w₁ hw₁ hrely c r w₂ _ ha
      have hpre₁ := hstable n w w₁ hw hw₁ hrely hpre
      obtain ⟨hw₂, hothers, hpost⟩ := heffect n e hp.1 hp.2.1 w₁ c r w₂ hw₁ hpre₁ trivial ha
      exact ⟨hw₂, hothers, ih r (hp.2.2 r) w₂ hw₂ hpost⟩

theorem stable_depth : (indexProtocol T Sql V).Stable t (Depth t n) :=
  fun _ _ _ _ h ↦ h.depth n

/-- Between its locked blocks a method need not know anything of the state. -/
theorem triple_depth {p : CacheProgram Sql V α} {m : ℕ}
    (hp : Disciplined CacheEffect.Unguarded p n m) :
    IndexTriple t (Depth t n) p fun _ ↦ Depth t m := by
  refine triple_disciplined (Depth t) (fun n ↦ stable_depth) (fun n e he hlock ↦ ?_) hp
  exact index_effect (fun _ h ↦ h) hlock fun _ _ _ _ hw _ ha hn ↦ ⟨act_mirrored hw he ha, hn⟩

theorem quietSpans : QuietSpans (indexProtocol T Sql V) t := by
  intro pre hpre c
  refine Triple.call hpre fun w reply r w' hw h _ ha ↦ ?_
  obtain ⟨-, rfl⟩ := Prod.mk.inj (Option.some.inj ha)
  exact ⟨hw, fun u _ ↦ Rely.refl u w, h⟩

/-! Inside a locked block of an invalidation. -/

/-- The thread holds the lock `n + 1` times and has these notes, and the
index is that of `s`. -/
structure Inside (t : T) (n : ℕ) (s : CacheState) (v : Visit) (w : IndexWorld T) : Prop where
  depth : w.Depth t (n + 1)
  visits : w.visits t = v
  index : SameIndex s w.state

theorem stable_inside : (indexProtocol T Sql V).Stable t (Inside t n s v) := by
  intro w w' _ _ hrely h
  have hstate : w'.state = w.state := Rely.state hrely n h.depth
  exact ⟨Rely.depth hrely _ h.depth, (Rely.visits hrely).trans h.visits, hstate ▸ h.index⟩

theorem inside_ask {e : CacheEffect Sql V} {post : Except CacheError e.Reply → IndexWorld T → Prop}
    (h : ∀ w reply r w', w.state.Mirrored → Inside t n s v w → w.act t e reply = some (r, w') →
      w'.Depth t (e.depth (n + 1) r) → w'.state.Mirrored ∧ post r w') :
    IndexTriple t (Inside t n s v) (ask e) post :=
  Triple.call stable_inside (index_effect (fun _ hw ↦ hw.depth) (fun _ ↦ n.succ_pos) h)

theorem inside_update {u : Update} {s' : CacheState}
    (hs : ∀ x, SameIndex s x → SameIndex s' (u.apply x))
    (hm : ∀ x, x.Mirrored → SameIndex s x → (u.apply x).Mirrored) :
    IndexTriple t (Inside t n s v) (update u : CacheProgram Sql V Unit)
      (Ends (fun _ ↦ Inside t n s' v) fun _ _ ↦ False) := by
  refine inside_ask fun w reply r w' hw h ha hdepth ↦ ?_
  simp only [act, Option.some.injEq, Prod.mk.injEq] at ha
  obtain ⟨rfl, rfl⟩ := ha
  exact ⟨hm _ hw h.index, hdepth, h.visits, hs _ h.index⟩

theorem inside_readState :
    IndexTriple t (Inside t n s v) (ask .readState : CacheProgram Sql V CacheState)
      (Ends (fun x w ↦ Inside t n s v w ∧ SameIndex s x) fun _ _ ↦ False) := by
  refine inside_ask fun w reply r w' hw h ha _ ↦ ?_
  simp only [act, Option.some.injEq, Prod.mk.injEq] at ha
  obtain ⟨rfl, rfl⟩ := ha
  exact ⟨hw, h, h.index⟩

theorem inside_keyOrder (keys : Finset Str) :
    IndexTriple t (Inside t n s v) (ask (.keyOrder keys) : CacheProgram Sql V (List Str))
      (Ends (fun l w ↦ Inside t n s v w ∧ l.Nodup ∧ l.toFinset = keys) fun _ _ ↦ False) := by
  refine inside_ask fun w reply r w' hw h ha _ ↦ ?_
  simp only [act] at ha
  split at ha
  next l hl =>
    obtain ⟨hkeys, ha⟩ := Option.ite_none_right_eq_some.mp ha
    obtain ⟨rfl, rfl⟩ := Prod.mk.inj (Option.some.inj ha)
    exact ⟨hw, h, hkeys⟩
  next => cases ha

theorem inside_backendDelete (key : Str) :
    IndexTriple t (Inside t n s v) (ask (.backendDelete key) : CacheProgram Sql V Bool)
      fun r ↦ Inside t n s { v with deletes := v.deletes ++ [(key, r)] } := by
  refine inside_ask fun w reply r w' hw h ha hdepth ↦ ?_
  simp only [act, Option.some.injEq, Prod.mk.injEq] at ha
  obtain ⟨rfl, rfl⟩ := ha
  refine ⟨hw, hdepth, ?_, h.index⟩
  rw [tried, visits_setVisit_self, h.visits]

theorem inside_unregisterKey (key : Str) :
    IndexTriple t (Inside t n s v) (unregisterKey key : CacheProgram Sql V Unit)
      (Ends (fun _ ↦ Inside t n (s.unregister key) v) fun _ _ ↦ False) := by
  have hacquire : IndexTriple t (Inside t n s v) (ask .acquire : CacheProgram Sql V Unit)
      (Ends (fun _ ↦ Inside t (n + 1) s v) fun _ _ ↦ False) := by
    refine inside_ask fun w reply r w' hw h ha _ ↦ ?_
    obtain ⟨rfl, rfl⟩ := act_acquire_inner h.depth ha
    exact ⟨hw, Eq.refl _, h.visits, h.index⟩
  have hrelease : IndexTriple t (Inside t (n + 1) (s.unregister key) v)
      (ask .release : CacheProgram Sql V Unit)
      (Ends (fun _ ↦ Inside t n (s.unregister key) v) fun _ _ ↦ False) := by
    refine inside_ask fun w reply r w' hw h ha _ ↦ ?_
    obtain ⟨rfl, rfl⟩ := act_release_inner h.depth ha
    exact ⟨hw, Eq.refl _, h.visits, h.index⟩
  have hupdate : IndexTriple t (Inside t (n + 1) s v)
      (update (.unregister key) : CacheProgram Sql V Unit)
      (Ends (fun _ ↦ Inside t (n + 1) (s.unregister key) v) fun _ _ ↦ False) :=
    inside_update (fun x hx ↦ hx.unregister key) fun x hx _ ↦ hx.unregister key
  refine hacquire.bind (fun _ ↦ ?_) fun _ _ _ h ↦ h.elim
  refine hupdate.andThen fun r ↦ ?_
  cases r with
  | error x => exact fun _ _ h ↦ h.elim
  | ok _ => exact hrelease.bind (fun _ ↦ Triple.done _ fun _ _ h ↦ h) fun _ _ _ h ↦ h.elim

/-- A rotation leaves the index and the notes as they are. -/
theorem inside_rotating {p : CacheProgram Sql V α} (hp : Disciplined CacheEffect.Rotating p 1 1) :
    IndexTriple t (Inside t 0 s v) p fun _ ↦ Inside t 0 s v := by
  refine (triple_disciplined (t := t) (fun k w ↦ k = 1 ∧ Inside t 0 s v w) ?_ ?_ hp).consequence
    (fun _ _ h ↦ ⟨Eq.refl _, h⟩) fun _ _ _ h ↦ h.2
  · exact fun k w w' hw hw' hrely h ↦ ⟨h.1, stable_inside w w' hw hw' hrely h.2⟩
  · intro k e he hlock
    refine index_effect (n := 1) (fun w h ↦ h.2.depth) (fun _ ↦ Nat.one_pos) ?_
    rintro w reply r w' hw ⟨rfl, h⟩ ha hdepth
    cases e with
    | update u =>
        simp only [act, Option.some.injEq, Prod.mk.injEq] at ha
        obtain ⟨-, rfl⟩ := ha
        have hsame : SameIndex w.state (u.apply w.state) := by
          cases u with
          | addPending _ | discardPending _ => exact ⟨rfl, rfl, rfl⟩
          | _ => exact he.elim
        exact ⟨hsame.mirrored hw, Eq.refl _, hdepth, h.visits, h.index.trans hsame⟩
    | generationWriter | newGeneration | tokenWrite _ _ _ =>
        simp only [act, Option.some.injEq, Prod.mk.injEq] at ha
        obtain ⟨-, rfl⟩ := ha
        exact ⟨hw, Eq.refl _, h⟩
    | _ => exact he.elim

theorem inside_rotateForWrite (scope : Scope) :
    IndexTriple t (Inside t 0 s v) (rotateForWrite scope : CacheProgram Sql V Unit)
      (Ends (fun _ ↦ Inside t 0 s v) fun _ _ ↦ False) := by
  have hadd : IndexTriple t (Inside t 0 s v) (update (.addPending scope) : CacheProgram Sql V Unit)
      (Ends (fun _ ↦ Inside t 0 s v) fun _ _ ↦ False) :=
    inside_update (fun x hx ↦ hx.trans ⟨rfl, rfl, rfl⟩)
      fun x hx _ ↦ Update.mirrored hx (.addPending scope) fun _ ↦ nofun
  refine hadd.bind (fun _ ↦ ?_) fun _ _ _ h ↦ h.elim
  refine (inside_rotating (disciplined_rotateValidated scope)).andThen fun r ↦ ?_
  cases r with
  | error x => exact Triple.pure () fun _ _ h ↦ h
  | ok _ =>
      exact inside_update (fun x hx ↦ hx.trans ⟨rfl, rfl, rfl⟩)
        fun x hx _ ↦ Update.mirrored hx (.discardPending scope) fun _ ↦ nofun

theorem deleteKeys_triple (deletes : List (Str × Except CacheError Bool)) (keys : List Str) :
    IndexTriple t (Inside t 0 (s.unregisterAll (removed deletes)) { v with deletes := deletes })
      (deleteKeys keys (hits deletes) : CacheProgram Sql V ℕ)
      fun r w ↦ ∃ deletes', deletes'.map Prod.fst = deletes.map Prod.fst ++ keys ∧
        r = .ok (hits deletes') ∧
        Inside t 0 (s.unregisterAll (removed deletes')) { v with deletes := deletes' } w := by
  induction keys generalizing deletes with
  | nil => exact Triple.pure _ fun w _ h ↦ ⟨deletes, by simp, Eq.refl _, h⟩
  | cons key rest ih =>
      refine (inside_backendDelete key).andThen fun r ↦ ?_
      have hkeys : (deletes ++ [(key, r)]).map Prod.fst ++ rest =
          deletes.map Prod.fst ++ key :: rest := by simp
      rw [← hkeys]
      cases r with
      | error x =>
          have hremoved : removed (deletes ++ [(key, .error x)]) = removed deletes := by
            simp [removed]
          have hhits : hits (deletes ++ [(key, .error x)]) = hits deletes := by
            simp [hits]
          have hrest := ih (deletes ++ [(key, .error x)])
          rw [hremoved, hhits] at hrest
          exact hrest
      | ok found =>
          have hremoved : removed (deletes ++ [(key, .ok found)]) = removed deletes ++ [key] := by
            simp [removed]
          have hhits : hits (deletes ++ [(key, .ok found)]) =
              if found then hits deletes + 1 else hits deletes := by
            cases found <;> simp [hits]
          have hrest := ih (deletes ++ [(key, .ok found)])
          rw [hremoved, hhits, unregisterAll_append] at hrest
          exact (inside_unregisterKey key).bind (fun _ ↦ hrest) fun _ _ _ h ↦ h.elim

variable (d : Deployment Sql) (modelName db : Str)

/-- The keys that an invalidation of the model selects. -/
abbrev selected (s : CacheState) : Finset Str :=
  s.invalidationKeys d.databaseDigest (normalizeModelNames d.lower modelName) db

/-- The locked block has tried the selected keys, and counts the hits. -/
def Attempted (t : T) (s : CacheState) (r : Except CacheError (Option ℕ)) (w : IndexWorld T) :
    Prop :=
  ∃ deletes, Swept (selected d modelName db s) s w.state deletes ∧ w.Depth t 1 ∧
    w.visits t = ⟨some s, deletes, none⟩ ∧ ∀ o, r = .ok o → o.getD 0 = hits deletes

theorem invalidateLocked_triple (span : Bool) (hs : s.Mirrored) :
    IndexTriple t (Inside t 0 s ⟨some s, [], none⟩)
      (invalidateLocked d span modelName db : CacheProgram Sql V (Option ℕ))
      (Attempted d modelName db t s) := by
  have hlisted : ∀ key ∈ selected d modelName db s, ∃ name, s.Lists name key := by
    intro key hkey
    obtain ⟨⟨name, -, hname⟩, -⟩ := mem_invalidationKeys.mp hkey
    exact ⟨name, hname⟩
  have hbump : IndexTriple t (Inside t 0 s ⟨some s, [], none⟩)
      (update .bumpGeneration : CacheProgram Sql V Unit)
      (Ends (fun _ ↦ Inside t 0 s ⟨some s, [], none⟩) fun _ _ ↦ False) :=
    inside_update (fun x hx ↦ hx.trans ⟨rfl, rfl, rfl⟩)
      fun x hx _ ↦ Update.mirrored hx .bumpGeneration fun _ ↦ nofun
  refine hbump.bind (fun _ ↦ ?_) fun _ _ _ h ↦ h.elim
  refine (triple_onlyIf (fun _ ↦ inside_rotateForWrite _) fun _ _ _ h ↦ h).bind (fun _ ↦ ?_)
    fun _ _ _ h ↦ h.elim
  refine inside_readState.bind (fun state ↦ ?_) fun _ _ _ h ↦ h.elim
  refine Triple.fact fun hstate ↦ ?_
  dsimp only
  rw [hstate.invalidationKeys]
  split
  next hempty =>
    have hattempted : ∀ w, Inside t 0 s ⟨some s, [], none⟩ w → ∀ r, (∀ o, r = .ok o → o = none) →
        Attempted d modelName db t s r w := by
      intro w h r hr
      refine ⟨[], ?_, h.depth, h.visits, fun o ho ↦ by rw [hr o ho]; rfl⟩
      rw [selected, hempty]
      have hnone : SameIndex ((s.block ∅).unregisterAll (removed [])) s :=
        ⟨rfl, rfl, (Finset.union_empty _).symm⟩
      exact swept_of_removed hs (by simp) List.nodup_nil rfl (hnone.trans h.index)
    refine (quietSpans.setAttribute stable_inside span).bind (fun _ ↦ ?_)
      fun x w _ h ↦ hattempted w h _ nofun
    exact Triple.pure none fun w _ h ↦ hattempted w h _ fun o ho ↦ (Except.ok.inj ho).symm
  next =>
    have hblock : IndexTriple t (Inside t 0 s ⟨some s, [], none⟩)
        (update (.block (selected d modelName db s)) : CacheProgram Sql V Unit)
        (Ends (fun _ ↦ Inside t 0 (s.block (selected d modelName db s)) ⟨some s, [], none⟩)
          fun _ _ ↦ False) := by
      refine inside_update (fun x hx ↦ ?_) fun x hx hsame ↦ hx.block fun key hkey ↦ ?_
      · refine ⟨hx.modelKeys, hx.keyModels, ?_⟩
        simp only [block, Update.apply, hx.invalidatedKeys]
      · obtain ⟨name, hname⟩ := hlisted key hkey
        exact hx.named (hsame.lists.mpr hname)
    refine hblock.bind (fun _ ↦ ?_) fun _ _ _ h ↦ h.elim
    refine (inside_keyOrder _).bind (fun order ↦ ?_) fun _ _ _ h ↦ h.elim
    refine Triple.fact fun horder ↦ ?_
    refine (deleteKeys_triple (s := s.block (selected d modelName db s)) (v := ⟨some s, [], none⟩)
      [] order).bind (fun deleted ↦ Triple.pure (some deleted) ?_) ?_
    · rintro w - ⟨deletes, rfl, hdeleted, h⟩
      refine ⟨deletes, swept_of_removed hs hlisted horder.1 horder.2 h.index, h.depth, h.visits, ?_⟩
      rintro o ⟨⟩
      exact Except.ok.inj hdeleted
    · rintro x w - ⟨deletes, -, hx, -⟩
      cases hx

/-- The visit swept the keys that the invalidation selected when it entered;
a blank name does not enter. -/
def Invalidated (visit : Visit) : Prop :=
  if normalizeModelNames d.lower modelName = ∅ then
    visit = ⟨none, [], none⟩
  else
    ∃ s s', visit.entered = some s ∧ visit.left = some s' ∧
      Swept (selected d modelName db s) s s' visit.deletes

/-- The invalidation is over, and returns its hits unless it raises. -/
def Done (t : T) (r : Except CacheError ℕ) (w : IndexWorld T) : Prop :=
  Invalidated d modelName db (w.visits t) ∧ ∀ n, r = .ok n → n = hits (w.visits t).deletes

theorem stable_done (r : Except CacheError ℕ) :
    (indexProtocol T Sql V).Stable t (Done d modelName db t r) := by
  intro w w' _ _ hrely h
  unfold Done
  rw [Rely.visits hrely]
  exact h

theorem invalidate_withLock (span : Bool) (hnames : normalizeModelNames d.lower modelName ≠ ∅) :
    IndexTriple t (Depth t 0)
      (withLock (invalidateLocked d span modelName db) : CacheProgram Sql V (Option ℕ))
      fun r ↦ Done d modelName db t (r.map (·.getD 0)) := by
  have hacquire : IndexTriple t (Depth t 0) (ask .acquire : CacheProgram Sql V Unit)
      (Ends (fun _ w ↦ ∃ s, s.Mirrored ∧ Inside t 0 s ⟨some s, [], none⟩ w) fun _ _ ↦ False) := by
    refine Triple.call stable_depth (index_effect (fun _ h ↦ h) nofun ?_)
    intro w reply r w' hw h ha hdepth
    obtain ⟨rfl, rfl⟩ := act_acquire_outer h ha
    exact ⟨hw, w.state, hw, enter_depth, visits_setVisit_self, SameIndex.refl _⟩
  have hrelease : ∀ s r, IndexTriple t (Attempted d modelName db t s r)
      (ask .release : CacheProgram Sql V Unit)
      (Ends (fun _ ↦ Done d modelName db t (r.map (·.getD 0))) fun _ _ ↦ False) := by
    intro s r
    have hstable : (indexProtocol T Sql V).Stable t (Attempted d modelName db t s r) := by
      rintro w w' - - hrely ⟨deletes, hswept, hdepth, hvisits, hr⟩
      refine ⟨deletes, ?_, Rely.depth hrely _ hdepth, (Rely.visits hrely).trans hvisits, hr⟩
      rw [Rely.state hrely 0 hdepth]
      exact hswept
    refine Triple.call hstable (index_effect (fun _ ⟨_, _, h, _⟩ ↦ h) (fun _ ↦ Nat.one_pos) ?_)
    rintro w reply r' w' hw ⟨deletes, hswept, hdepth, hvisits, hr⟩ ha -
    obtain ⟨rfl, rfl⟩ := act_release_outer hdepth ha
    have hleft : (w.leave t).visits t = ⟨some s, deletes, some w.state⟩ := by
      rw [← show { w.visits t with left := some w.state } = Visit.mk (some s) deletes (some w.state)
        by rw [hvisits]]
      exact visits_setVisit_self
    refine ⟨hw, ?_, ?_⟩
    · rw [hleft, Invalidated, if_neg hnames]
      exact ⟨s, w.state, rfl, rfl, hswept⟩
    · rw [hleft]
      cases r with
      | error x => exact nofun
      | ok o =>
          rintro n ⟨⟩
          exact hr o rfl
  refine hacquire.bind (fun _ w hw h ↦ ?_) fun _ _ _ h ↦ h.elim
  obtain ⟨s, hs, hinside⟩ := h
  refine (invalidateLocked_triple d modelName db span hs).andThen (fun r ↦ ?_) w hw hinside
  exact (hrelease s r).bind (fun _ ↦ Triple.done r fun _ _ h ↦ h) fun _ _ _ h ↦ h.elim

/-- A thread that has not begun. -/
def Fresh (t : T) (w : IndexWorld T) : Prop := w.Depth t 0 ∧ w.visits t = ⟨none, [], none⟩

theorem stable_fresh : (indexProtocol T Sql V).Stable t (Fresh t) := fun _ _ _ _ hrely h ↦
  ⟨Rely.depth hrely 0 h.1, (Rely.visits hrely).trans h.2⟩

theorem invalidateModel_triple :
    IndexTriple t (Fresh t) (invalidateModel d modelName db : CacheProgram Sql V ℕ)
      (Done d modelName db t) := by
  refine quietSpans.novaSpan stable_fresh (stable_done d modelName db) fun span ↦ ?_
  split
  next hempty =>
    have hdone : ∀ w, Fresh t w → ∀ r, (∀ n, r = .ok n → n = 0) → Done d modelName db t r w := by
      intro w h r hr
      unfold Done Invalidated
      rw [if_pos hempty, h.2]
      exact ⟨rfl, hr⟩
    refine (quietSpans.setAttribute stable_fresh span).bind (fun _ ↦ ?_)
      fun x w _ h ↦ hdone w h _ nofun
    exact Triple.pure 0 fun w _ h ↦ hdone w h _ fun n hn ↦ (Except.ok.inj hn).symm
  next hnames =>
    have hlocked : IndexTriple t (Fresh t)
        (withLock (invalidateLocked d span modelName db) : CacheProgram Sql V (Option ℕ))
        fun r ↦ Done d modelName db t (r.map (·.getD 0)) :=
      (invalidate_withLock d modelName db span hnames).consequence (fun _ _ h ↦ h.1)
        fun _ _ _ h ↦ h
    refine hlocked.bind (fun counted ↦ ?_) fun _ _ _ h ↦ h
    cases counted with
    | none => exact Triple.pure 0 fun _ _ h ↦ h
    | some deleted =>
        exact (quietSpans.setAttribute (stable_done d modelName db (.ok deleted)) span).bind
          (fun _ ↦ Triple.pure deleted fun _ _ h ↦ h) fun x w _ h ↦ ⟨h.1, nofun⟩

end Judgements

section Runs

open IndexWorld Protocol QuerySetCache CacheState

variable {T Sql V : Type} [DecidableEq T]

abbrev IndexPool (T Sql V : Type) : Type :=
  Pool T (CacheEffect Sql V) CacheEffect.Reply CacheError (CacheResult V) (IndexWorld T)

/-- One turn of threads that each make one call on the shared state. -/
def indexStep (d : Deployment Sql) (call : T → CacheCall Sql) :
    IndexPool T Sql V → Turn T ((e : CacheEffect Sql V) → Except CacheError e.Reply) →
      Option (IndexPool T Sql V) :=
  Pool.step machine fun t ↦ (call t).program d

/-- The pools that some interleaving reaches, whatever the backend answers. -/
def IndexReaches (d : Deployment Sql) (call : T → CacheCall Sql) : IndexPool T Sql V → Prop :=
  Transition.Reaches (indexStep d call) Transition.Always (Pool.start IndexWorld.initial)

/-- What a finished call leaves behind, if it is an invalidation. -/
def CallDone (d : Deployment Sql) (call : CacheCall Sql) (t : T)
    (r : Except CacheError (CacheResult V)) (w : IndexWorld T) : Prop :=
  ∀ modelName db, call = .invalidateModel modelName db →
    Invalidated d modelName db (w.visits t) ∧
      ∀ n, r = .ok (.count n) → n = hits (w.visits t).deletes

theorem callDone_triple (d : Deployment Sql) (call : CacheCall Sql) (t : T) :
    IndexTriple t (Fresh t) (call.program d : CacheProgram Sql V (CacheResult V))
      (CallDone d call t) := by
  have hother : ∀ call : CacheCall Sql, (∀ modelName db, call ≠ .invalidateModel modelName db) →
      Disciplined CacheEffect.Unguarded (call.program d : CacheProgram Sql V (CacheResult V)) 0 0 →
      IndexTriple t (Fresh t) (call.program d : CacheProgram Sql V (CacheResult V))
        (CallDone d call t) :=
    fun call hcall hp ↦ (triple_depth hp).consequence (fun _ _ h ↦ h.1)
      fun _ _ _ _ modelName db heq ↦ absurd heq (hcall modelName db)
  cases call with
  | get q =>
      refine hother (.get q) (fun _ _ ↦ nofun) ((disciplined_get d q).bind fun found ↦ ?_)
      cases found <;> exact disciplined_done _
  | getOrSet q =>
      exact hother (.getOrSet q) (fun _ _ ↦ nofun)
        ((disciplined_getOrSet d q).bind fun _ ↦ disciplined_done _)
  | clear =>
      exact hother .clear (fun _ _ ↦ nofun)
        ((disciplined_clear.mono CacheEffect.Plain.unguarded).bind fun _ ↦ disciplined_done _)
  | invalidateModel modelName db =>
      refine (invalidateModel_triple d modelName db).bind (fun deleted ↦ ?_) ?_
      · refine Triple.pure _ fun w _ h modelName' db' heq ↦ ?_
        cases heq
        refine ⟨h.1, fun n hn ↦ ?_⟩
        cases hn
        exact h.2 deleted rfl
      · intro x w _ h modelName' db' heq
        cases heq
        exact ⟨h.1, nofun⟩

/-- In every run the index is mirrored at every moment, and an invalidation
that is over has swept the keys that it selected and counts its hits. -/
theorem key_index {d : Deployment Sql} {call : T → CacheCall Sql} {p : IndexPool T Sql V}
    (h : IndexReaches d call p) :
    p.world.state.Mirrored ∧
      ∀ t modelName db r, call t = .invalidateModel modelName db → p.outcome t = some r →
        Invalidated d modelName db (p.world.visits t) ∧
          ∀ n, r = .ok (.count n) → n = hits (p.world.visits t).deletes := by
  have hadmits : Transition.Reaches (Pool.step (indexProtocol T Sql V).machine
      fun t ↦ (call t).program d) (Pool.Admits (indexProtocol T Sql V).allowed)
      (Pool.start IndexWorld.initial) p := by
    refine h.weaken fun s a _ ↦ ?_
    cases a with
    | act t c => exact fun _ _ _ _ ↦ trivial
    | begin _ | environment _ => trivial
  have hstable : ∀ t, IndexWorld T → ∀ r : Except CacheError (CacheResult V),
      (indexProtocol T Sql V).Stable t (CallDone d (call t) t r) := by
    intro t _ r w w' _ _ hrely hdone modelName db hcall
    rw [Rely.visits hrely]
    exact hdone modelName db hcall
  have hfresh : ∀ t : T, Fresh t IndexWorld.initial :=
    fun _ ↦ ⟨fun _ ↦ (Option.some_ne_none _).symm, rfl⟩
  have hhealthy : (indexProtocol T Sql V).Healthy Fresh (fun t _ ↦ CallDone d (call t) t) p :=
    sound mirrored_initial hfresh (fun _ ↦ stable_fresh) hstable
      (fun t w hw hidle ↦ callDone_triple d (call t) t w hw hidle) hadmits
  refine ⟨hhealthy.inv, fun t modelName db r hcall hr ↦ ?_⟩
  obtain ⟨th, hth, hcode⟩ := Pool.outcome_some hr
  have hsafe := hhealthy.safe t th hth
  rw [hcode] at hsafe
  exact hsafe modelName db hcall

end Runs

section Sample

open QuerySetCache CacheState

/-! A fill, and then an invalidation that finds the filled key. -/

def indexQuery : PreparedQuery Str := ⟨⟨['s'], ['a']⟩, ['d'], ['q'], .ok none⟩

def indexCalls : Bool → CacheCall Str
  | false => .getOrSet indexQuery
  | true => .invalidateModel [' ', 'a'] ['*']

def indexKey : Str := makeKey (plainDeployment false) ['d'] ⟨['s', '.', 'a'], ['q'], [], []⟩

def indexReply : (e : CacheEffect Str Unit) → Except CacheError e.Reply
  | .acquire | .release | .update _ | .backendSet _ _ | .backendClear | .generationWriter => .ok ()
  | .readState => .ok CacheState.initial
  | .transactional _ | .span _ => .ok false
  | .backendDelete _ | .tokenWrite _ _ _ => .ok true
  | .sql _ | .copyRows _ => .ok ()
  | .backendGet _ | .tokenGet _ => .ok none
  | .newGeneration => .ok []
  | .keyOrder _ => .ok [indexKey]

def indexTurns : List (Turn Bool ((e : CacheEffect Str Unit) → Except CacheError e.Reply)) :=
  .begin false :: List.replicate 18 (.act false indexReply) ++
    .begin true :: List.replicate 11 (.act true indexReply)

theorem key_index_sample : ∃ p : IndexPool Bool Str Unit,
    IndexReaches (plainDeployment false) indexCalls p ∧ p.world.state.Mirrored ∧
      Invalidated (plainDeployment false) [' ', 'a'] ['*'] (p.world.visits true) ∧
      1 = hits (p.world.visits true).deletes := by
  have hrun : ∃ p : IndexPool Bool Str Unit,
      Transition.run (indexStep (plainDeployment false) indexCalls) (Pool.start IndexWorld.initial)
        indexTurns = some p ∧ p.outcome true = some (.ok (.count 1)) := ⟨_, rfl, rfl⟩
  obtain ⟨p, hp, houtcome⟩ := hrun
  have hreach : IndexReaches (plainDeployment false) indexCalls p :=
    Transition.reaches_of_run (fun _ _ _ ↦ trivial) hp
  obtain ⟨hmirrored, hcalls⟩ := key_index hreach
  obtain ⟨hswept, hcount⟩ := hcalls true _ _ _ rfl houtcome
  exact ⟨p, hreach, hmirrored, hswept, hcount 1 rfl⟩

end Sample

end KeyIndex

end DjangoNova
