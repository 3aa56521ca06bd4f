import DjangoNova.Cache.SharedProtocol

/-!
# Effects under the protocol of a shared backend

One rule for each effect that changes the world. The assertions are about
a thread that began in the world `born` and holds the lock of its process
`n` times; the facts that it carries past other threads are persistent,
that is, kept by every evolution of the world.
-/

namespace DjangoNova.CacheWorld

open Protocol QuerySetCache

variable {T P Sql D : Type}
variable (proc : T → P) (d : Deployment Sql) (t : T)

/-- The thread began in `born` and now holds its lock `n` times. -/
def At (born : CacheWorld T P Sql D) (n : ℕ) (w : CacheWorld T P Sql D) : Prop :=
  Evolves born w ∧ Depth proc t n w

/-- A fact that no evolution of the world takes back. -/
def Persistent (K : CacheWorld T P Sql D → Prop) : Prop :=
  ∀ w w', SharedInv proc d w → Evolves w w' → K w → K w'

variable {proc d t} {born w w' : CacheWorld T P Sql D} {n : ℕ} {α : Type}

theorem Depth.rely (h : SharedRely proc t w w') (hd : Depth proc t n w) : Depth proc t n w' := by
  cases n with
  | zero => exact h.idle hd
  | succ n => exact (h.held _ hd).1

theorem At.rely (h : SharedRely proc t w w') (ha : At proc t born n w) : At proc t born n w' :=
  ⟨ha.1.trans h.toEvolves, ha.2.rely h⟩

theorem Persistent.and {K L : CacheWorld T P Sql D → Prop} (hK : Persistent proc d K)
    (hL : Persistent proc d L) : Persistent proc d fun w ↦ K w ∧ L w :=
  fun w w' hw h hKL ↦ ⟨hK w w' hw h hKL.1, hL w w' hw h hKL.2⟩

theorem Persistent.pure (p : Prop) : Persistent (T := T) (P := P) (D := D) proc d fun _ ↦ p :=
  fun _ _ _ _ h ↦ h

/-- Kept by every evolution that leaves the floor of `t`'s process alone. -/
def Kept (proc : T → P) (d : Deployment Sql) (t : T) (K : CacheWorld T P Sql D → Prop) : Prop :=
  ∀ w w', SharedInv proc d w → Evolves w w' → w'.floor (proc t) = w.floor (proc t) → K w → K w'

theorem Persistent.kept {K : CacheWorld T P Sql D → Prop} (hK : Persistent proc d K) :
    Kept proc d t K :=
  fun w w' hw h _ ↦ hK w w' hw h

theorem Kept.and {K L : CacheWorld T P Sql D → Prop} (hK : Kept proc d t K)
    (hL : Kept proc d t L) : Kept proc d t fun w ↦ K w ∧ L w :=
  fun w w' hw h hf hKL ↦ ⟨hK w w' hw h hf hKL.1, hL w w' hw h hf hKL.2⟩

theorem kept_fresh (scope : Scope) :
    Kept (D := D) proc d t fun w ↦ w.Fresh (proc t) scope :=
  fun _ _ hw h hf hfresh ↦ hfresh.evolves hw h hf

/-- The thread holds the lock, and `K` holds of the state that it protects. -/
def Held (proc : T → P) (t : T) (born : CacheWorld T P Sql D) (n : ℕ)
    (K : CacheState → CacheWorld T P Sql D → Prop) (w : CacheWorld T P Sql D) : Prop :=
  At proc t born (n + 1) w ∧ K (w.states (proc t)) w

/-- The thread has generated the token and not yet written it. -/
def Owned (t : T) (s : Str) (w : CacheWorld T P Sql D) : Prop :=
  w.reserved s = some t ∧ w.installedAt s = none ∧ IsGeneration s

/-- Logging an effect that is neither an acknowledged rotation nor an attempt. -/
theorem SharedInv.logged {e : CacheEffect Sql (Rows D)} {r : Except CacheError e.Reply}
    (h : SharedInv proc d w) (he : Evolves w w') (hlog : w'.log = w.log)
    (hpresent : SharedPresent proc d w')
    (hacked : ∀ scope s, e ≠ .tokenWrite scope s false)
    (hattempt : ∀ scope, ¬IsAttempt scope (⟨t, e, r⟩ : CacheEvent T Sql D)) :
    SharedInv proc d (w'.record t e r) :=
  h.record he hlog hpresent
    (fun scope s hevent ↦ absurd (congrArg CacheEvent.effect hevent) (hacked scope s))
    fun scope hevent ↦ absurd hevent (hattempt scope)

/-- Effects other than metadata writes and pending marks are neither
acknowledged rotations nor attempts. -/
theorem not_attempt {e : CacheEffect Sql (Rows D)} {r : Except CacheError e.Reply}
    (hw : ∀ scope s, e ≠ .tokenWrite scope s false)
    (hu : ∀ scope, e ≠ .update (.addPending scope)) (scope : Scope) :
    ¬IsAttempt scope (⟨t, e, r⟩ : CacheEvent T Sql D) := by
  rintro (⟨u, r', he⟩ | ⟨u, s, r', he, -⟩)
  · exact hu scope (congrArg CacheEvent.effect he)
  · exact hw scope s (congrArg CacheEvent.effect he)

/-- What a change made by `t` under its lock leaves to the other threads. -/
structure Local (proc : T → P) (t : T) (w w' : CacheWorld T P Sql D) : Prop where
  evolves : Evolves w w'
  log : w'.log = w.log
  locks : w'.locks = w.locks
  others : ∀ p, p ≠ proc t → w'.states p = w.states p ∧ w'.floor p = w.floor p
  own : ∀ u s, u ≠ t → w.reserved s = some u →
    w'.reserved s = some u ∧ w'.installedAt s = w.installedAt s

theorem Local.refl : Local proc t w w :=
  ⟨.refl, rfl, rfl, fun _ _ ↦ ⟨rfl, rfl⟩, fun _ _ _ h ↦ ⟨h, rfl⟩⟩

variable [DecidableEq P] [DecidableEq T]

abbrev SharedTriple (proc : T → P) (d : Deployment Sql) (t : T) {α : Type}
    (pre : CacheWorld T P Sql D → Prop) (p : CacheProgram Sql (Rows D) α)
    (post : Except CacheError α → CacheWorld T P Sql D → Prop) : Prop :=
  (sharedProtocol proc d).Triple t pre p post

abbrev SharedStable (proc : T → P) (d : Deployment Sql) (t : T)
    (pre : CacheWorld T P Sql D → Prop) : Prop :=
  (sharedProtocol proc d).Stable t pre

theorem stable_at : SharedStable proc d t (At proc t born n) :=
  fun _ _ _ _ h ha ↦ ha.rely h

theorem stable_at_and {K : CacheWorld T P Sql D → Prop} (hK : Persistent proc d K) :
    SharedStable proc d t fun w ↦ At proc t born n w ∧ K w :=
  fun w w' hw _ h ha ↦ ⟨ha.1.rely h, hK w w' hw h.toEvolves ha.2⟩

theorem stable_held {K : CacheState → CacheWorld T P Sql D → Prop}
    (hK : ∀ s, Kept proc d t (K s)) : SharedStable proc d t (Held proc t born n K) := by
  intro w w' hw hw' h ha
  obtain ⟨-, hs, hf⟩ := h.held _ ha.1.2
  refine ⟨ha.1.rely h, ?_⟩
  rw [hs]
  exact hK _ w w' hw h.toEvolves hf ha.2

theorem stable_owned {K : CacheState → CacheWorld T P Sql D → Prop}
    (hK : ∀ s, Kept proc d t (K s)) (s : Str) :
    SharedStable proc d t fun w ↦ Held proc t born n K w ∧ Owned t s w := by
  intro w w' hw hw' h ha
  obtain ⟨hr, hi⟩ := h.own s ha.2.1
  exact ⟨stable_held hK w w' hw hw' h ha.1, hr, hi.trans ha.2.2.1, ha.2.2.2⟩

theorem respects_shared : Respects proc (sharedProtocol (D := D) proc d) where
  machine := rfl
  quiet t u e r w he hw := by
    have hwrite : ∀ scope s, e ≠ .tokenWrite scope s false := by
      rintro scope s rfl
      exact he
    refine ⟨hw.logged Evolves.refl rfl hw.present hwrite (not_attempt hwrite ?_), ?_⟩
    · rintro scope rfl
      exact he
    · exact .of_locks Evolves.refl.record rfl (fun _ _ ↦ ⟨rfl, rfl⟩) fun _ hs ↦ ⟨hs, rfl⟩

/-- An effect under the lock is judged on its change before it is logged. -/
theorem held_call {e : CacheEffect Sql (Rows D)} {pre : CacheWorld T P Sql D → Prop}
    {post : Except CacheError e.Reply → CacheWorld T P Sql D → Prop}
    (hpre : SharedStable proc d t pre) (hat : ∀ w, pre w → At proc t born (n + 1) w)
    (h : ∀ w c r w', SharedInv proc d w → pre w → w.act proc t e c = some (r, w') →
      Local proc t w w' ∧ SharedPresent proc d w' ∧
        (∀ scope s, (⟨t, e, r⟩ : CacheEvent T Sql D) = ⟨t, .tokenWrite scope s false, .ok true⟩ →
          w.now ≤ w'.latest scope) ∧
        (∀ scope, IsAttempt scope (⟨t, e, r⟩ : CacheEvent T Sql D) →
          w.now ≤ w'.floor (proc t) scope) ∧
        (At proc t born (n + 1) (w'.record t e r) → post r (w'.record t e r))) :
    SharedTriple proc d t pre (ask e) post := by
  refine Triple.call hpre (respects_shared.effect fun w c r w' hw hp _ ha ↦ ?_)
  obtain ⟨hl, hpresent, hacked, hattempt, hpost⟩ := h w c r w' hw hp ha
  obtain ⟨hborn, hheld⟩ := hat w hp
  have he : Evolves w (w'.record t e r) := hl.evolves.record
  refine ⟨hw.record hl.evolves hl.log hpresent hacked hattempt, fun u hu ↦ ?_, hpost ?_⟩
  · refine .of_locks he hl.locks (fun m hm ↦ hl.others (proc u) fun hp ↦ ?_) fun s ↦ hl.own u s hu
    rw [hp, show w.locks (proc t) = some (t, n + 1) from hheld] at hm
    exact hu (Prod.mk.inj (Option.some.inj hm)).1.symm
  · exact ⟨hborn.trans he, by rw [depth_record, Depth, hl.locks]; exact hheld⟩

section Lock

omit [DecidableEq T] in
theorem SharedInv.setLock (h : SharedInv proc d w) (p : P) (l : Option (T × ℕ)) :
    SharedInv proc d (w.setLock p l) :=
  ⟨h.token, h.fenced, h.entry, h.installedPast, h.latestPast, h.floorPast, h.acked, h.attempted⟩

omit [DecidableEq T] in
theorem Evolves.setLock (p : P) (l : Option (T × ℕ)) : Evolves w (w.setLock p l) :=
  ⟨le_rfl, fun _ _ h ↦ h, fun _ ↦ le_rfl, fun _ _ ↦ le_rfl, fun _ _ h ↦ .inl h⟩

omit [DecidableEq T] in
/-- The lock of `t`'s process passes between free and held by `t`. -/
theorem SharedRely.setLock {u : T} {l : Option (T × ℕ)} {e : CacheEffect Sql (Rows D)}
    {r : Except CacheError e.Reply} (hold : ∀ m, w.locks (proc t) ≠ some (u, m))
    (hnew : ∀ m, l ≠ some (u, m)) :
    SharedRely proc u w ((w.setLock (proc t) l).record t e r) := by
  refine ⟨(Evolves.setLock _ _).record, fun m hm ↦ ?_, fun hidle m ↦ ?_, fun s hs ↦ ⟨hs, rfl⟩⟩
  · by_cases hp : proc u = proc t
    · exact absurd (hp ▸ hm) (hold m)
    · exact ⟨by simpa [CacheWorld.record, CacheWorld.setLock, hp] using hm, rfl, rfl⟩
  · by_cases hp : proc u = proc t
    · simpa [CacheWorld.record, CacheWorld.setLock, hp] using hnew m
    · simpa [CacheWorld.record, CacheWorld.setLock, hp] using hidle m

theorem acquire_triple {K : CacheWorld T P Sql D → Prop} (hK : Persistent proc d K) :
    SharedTriple proc d t (fun w ↦ At proc t born n w ∧ K w) (ask .acquire)
      (Ends (fun _ w ↦ At proc t born (n + 1) w ∧ K w) fun _ _ ↦ False) := by
  refine Triple.call (stable_at_and hK) (respects_shared.effect fun w c r w' hw hpre _ ha ↦ ?_)
  obtain ⟨rfl, rfl, hother⟩ := acquire_cases ha hpre.1.2
  have he : Evolves w ((w.setLock (proc t) (some (t, n + 1))).record t .acquire (.ok ())) :=
    (Evolves.setLock _ _).record
  refine ⟨hw.logged (Evolves.setLock _ _) rfl (hw.setLock _ _).present (fun _ _ ↦ by simp)
    (not_attempt (fun _ _ ↦ by simp) fun _ ↦ by simp), fun u hu ↦ ?_, ?_⟩
  · exact .setLock (hother u hu) fun m ↦ by simp [Ne.symm hu]
  · exact ⟨⟨hpre.1.1.trans he, by simp [Depth, CacheWorld.record, CacheWorld.setLock]⟩,
      hK w _ hw he hpre.2⟩

theorem release_triple {K : CacheWorld T P Sql D → Prop} (hK : Persistent proc d K) :
    SharedTriple proc d t (fun w ↦ At proc t born (n + 1) w ∧ K w) (ask .release)
      (Ends (fun _ w ↦ At proc t born n w ∧ K w) fun _ _ ↦ False) := by
  refine Triple.call (stable_at_and hK) (respects_shared.effect fun w c r w' hw hpre _ ha ↦ ?_)
  obtain ⟨rfl, l, rfl, hn, hnew⟩ := release_cases ha hpre.1.2
  have he : Evolves w ((w.setLock (proc t) l).record t .release (.ok ())) :=
    (Evolves.setLock _ _).record
  refine ⟨hw.logged (Evolves.setLock _ _) rfl (hw.setLock _ _).present (fun _ _ ↦ by simp)
    (not_attempt (fun _ _ ↦ by simp) fun _ ↦ by simp), fun u hu ↦ ?_, ?_⟩
  · refine .setLock (fun m hm ↦ hu ?_) (hnew u hu)
    have hm' := (show w.locks (proc t) = some (t, n + 1) from hpre.1.2).symm.trans hm
    exact (Prod.mk.inj (Option.some.inj hm')).1.symm
  · exact ⟨⟨hpre.1.1.trans he, depth_record.mpr hn⟩, hK w _ hw he hpre.2⟩

/-- `with state.lock` adds one level around a body that restores it. -/
theorem withLock_triple {K E : CacheWorld T P Sql D → Prop} (hK : Persistent proc d K)
    {Q : α → CacheWorld T P Sql D → Prop} (hQ : ∀ a, Persistent proc d (Q a))
    (hE : Persistent proc d E) {body : CacheProgram Sql (Rows D) α}
    (hbody : SharedTriple proc d t (fun w ↦ At proc t born (n + 1) w ∧ K w) body
      (Ends (fun a w ↦ At proc t born (n + 1) w ∧ Q a w)
        fun _ w ↦ At proc t born (n + 1) w ∧ E w)) :
    SharedTriple proc d t (fun w ↦ At proc t born n w ∧ K w) (withLock body)
      (Ends (fun a w ↦ At proc t born n w ∧ Q a w) fun _ w ↦ At proc t born n w ∧ E w) := by
  refine Triple.bind (acquire_triple hK) (fun _ ↦ hbody.andThen fun v ↦ ?_) fun _ _ _ h ↦ h.elim
  cases v with
  | ok a => exact Triple.bind (release_triple (hQ a)) (fun _ _ _ h ↦ h) fun _ _ _ h ↦ h.elim
  | error x => exact Triple.bind (release_triple hE) (fun _ _ _ h ↦ h) fun _ _ _ h ↦ h.elim

end Lock

section State

/-- The state of the process after an update, with everything else that
an update leaves alone. -/
structure Updated (p : P) (u : Update) (w w' : CacheWorld T P Sql D) : Prop where
  state : w'.states p = u.apply (w.states p)
  other : ∀ q, q ≠ p → w'.states q = w.states q ∧ w'.floor q = w.floor q
  floor : (∀ scope, u ≠ .addPending scope) → w'.floor = w.floor
  raised : ∀ scope, u = .addPending scope →
    w'.floor p = Function.update (w.floor p) scope w.now
  locks : w'.locks = w.locks
  entries : w'.entries = w.entries
  tokens : w'.tokens = w.tokens
  log : w'.log = w.log
  reserved : w'.reserved = w.reserved
  installedAt : w'.installedAt = w.installedAt
  latest : w'.latest = w.latest

omit [DecidableEq T] in
theorem updated_applyUpdate (p : P) (u : Update) : Updated p u w (w.applyUpdate p u) := by
  cases u <;> refine ⟨?_, ?_, ?_, ?_, rfl, rfl, rfl, rfl, rfl, rfl, rfl⟩ <;>
    simp +contextual [applyUpdate, setState, raiseFloor, now, Function.update_of_ne]

omit [DecidableEq T] in
theorem Updated.evolves {p : P} {u : Update} (h : Updated p u w w') (hw : SharedInv proc d w) :
    Evolves w w' := by
  refine ⟨h.log ▸ le_rfl, fun s n hn ↦ h.installedAt ▸ hn, fun scope ↦ h.latest ▸ le_rfl,
    fun q scope ↦ ?_, fun scope raw hraw ↦ .inl (h.tokens ▸ hraw)⟩
  by_cases hq : q = p
  · subst hq
    by_cases hu : ∃ added, u = .addPending added
    · obtain ⟨added, rfl⟩ := hu
      rw [h.raised added rfl]
      by_cases hs : scope = added
      · simpa [hs] using (hw.floorPast q added).le
      · simp [hs]
    · exact (h.floor fun added ha ↦ hu ⟨added, ha⟩) ▸ le_rfl
  · exact (h.other q hq).2 ▸ le_rfl

omit [DecidableEq T] in
theorem Updated.floor_eq {p q : P} {u : Update} {scope : Scope} (h : Updated p u w w')
    (hu : ¬(q = p ∧ u = .addPending scope)) : w'.floor q scope = w.floor q scope := by
  by_cases hq : q = p
  · subst hq
    by_cases hadd : ∃ added, u = .addPending added
    · obtain ⟨added, rfl⟩ := hadd
      have hne : scope ≠ added := fun hs ↦ hu ⟨rfl, by rw [hs]⟩
      simp [h.raised added rfl, hne]
    · rw [h.floor fun added ha ↦ hadd ⟨added, ha⟩]
  · rw [(h.other q hq).2]

omit [DecidableEq T] in
/-- Dropping a pending scope needs a fresh token; marking one is free. -/
theorem Updated.present {p : P} {u : Update} (h : Updated p u w w') (hw : SharedInv proc d w)
    (hdrop : ∀ scope ∈ (w.states p).pendingGenerations,
      scope ∉ (u.apply (w.states p)).pendingGenerations → w.Fresh p scope) :
    SharedPresent proc d w' := by
  have hnow : w'.now = w.now := by rw [now, now, h.log]
  refine ⟨?_, ?_, ?_, ?_, ?_, ?_⟩
  · intro scope raw hraw
    rw [h.installedAt, h.latest]
    exact hw.token scope raw (h.tokens ▸ hraw)
  · intro q scope
    by_cases hu : q = p ∧ u = .addPending scope
    · obtain ⟨rfl, rfl⟩ := hu
      exact .inl (by simp [h.state, Update.apply])
    have keep : w.Fresh q scope → w'.Fresh q scope := by
      intro hf raw hraw
      rw [h.floor_eq hu, h.latest]
      exact hf raw (h.tokens ▸ hraw)
    by_cases hq : q = p
    · subst hq
      rcases hw.fenced q scope with hmem | hf
      · by_cases hstill : scope ∈ (u.apply (w.states q)).pendingGenerations
        · exact .inl (h.state ▸ hstill)
        · exact .inr (keep (hdrop scope hmem hstill))
      · exact .inr (keep hf)
    · rw [(h.other q hq).1]
      exact (hw.fenced q scope).imp_right keep
  · intro db parts v hv
    exact (hw.entry db parts v (h.entries ▸ hv)).evolves (h.evolves hw)
  · intro s n hn
    rw [hnow, h.reserved]
    exact hw.present.installed s n (h.installedAt ▸ hn)
  · intro scope
    rw [hnow, h.latest]
    exact hw.present.latest scope
  · intro q scope
    rw [hnow]
    by_cases hu : q = p ∧ u = .addPending scope
    · obtain ⟨rfl, rfl⟩ := hu
      simp [h.raised scope rfl]
    · rw [h.floor_eq hu]
      exact hw.present.floor q scope

theorem update_triple {u : Update} {pre : CacheWorld T P Sql D → Prop}
    {post : CacheWorld T P Sql D → Prop} (hpre : SharedStable proc d t pre)
    (hat : ∀ w, pre w → At proc t born (n + 1) w)
    (hdrop : ∀ w, SharedInv proc d w → pre w → ∀ scope ∈ (w.states (proc t)).pendingGenerations,
      scope ∉ (u.apply (w.states (proc t))).pendingGenerations → w.Fresh (proc t) scope)
    (hpost : ∀ w w' r, SharedInv proc d w → pre w → Updated (proc t) u w w' →
      At proc t born (n + 1) (w'.record t (.update u) r) → post (w'.record t (.update u) r)) :
    SharedTriple proc d t pre (update u) (Ends (fun _ ↦ post) fun _ _ ↦ False) := by
  refine held_call hpre hat fun w c r w' hw hp ha ↦ ?_
  obtain ⟨rfl, rfl⟩ := act_update ha
  have hu := updated_applyUpdate (w := w) (proc t) u
  refine ⟨⟨hu.evolves hw, hu.log, hu.locks, hu.other, fun v s _ hs ↦ ?_⟩,
    hu.present hw (hdrop w hw hp), ?_, ?_, hpost w _ _ hw hp hu⟩
  · exact ⟨hu.reserved ▸ hs, congrFun hu.installedAt s⟩
  · intro scope s hevent
    cases hevent
  · rintro scope (⟨v, r', hevent⟩ | ⟨v, s, r', hevent, -⟩)
    · obtain rfl : u = .addPending scope :=
        CacheEffect.update.inj (congrArg CacheEvent.effect hevent)
      simp [hu.raised scope rfl]
    · cases hevent

end State

section Tokens

variable {K : CacheState → CacheWorld T P Sql D → Prop} {scope : Scope} {s : Str}

theorem readState_triple (hK : ∀ s, Kept proc d t (K s)) :
    SharedTriple proc d t (Held proc t born n K) (ask .readState)
      (Ends (fun s w ↦ Held proc t born n K w ∧ w.states (proc t) = s) fun _ _ ↦ False) := by
  have hquiet : (.readState : CacheEffect Sql (Rows D)).Quiet := trivial
  refine (respects_shared.quiet_ask hquiet (stable_held hK)
    (F := fun r w ↦ r = .ok (w.states (proc t))) ?_).consequence (fun _ _ h ↦ h) ?_
  · intro w c r _ _ ha
    show r = .ok (w.states (proc t))
    exact act_readState ha
  · rintro v w _ ⟨hw, rfl⟩
    exact ⟨hw, rfl⟩

theorem newGeneration_triple (hK : ∀ s, Kept proc d t (K s)) :
    SharedTriple proc d t (Held proc t born n K) (ask .newGeneration)
      (Ends (fun s w ↦ Held proc t born n K w ∧ Owned t s w) fun _ _ ↦ False) := by
  refine Triple.call (stable_held hK) (respects_shared.effect fun w c r w' hw hp _ ha ↦ ?_)
  obtain ⟨s, rfl, hs, hfree, rfl⟩ := act_newGeneration ha
  have hnone : w.installedAt s = none := by
    cases hi : w.installedAt s with
    | none => rfl
    | some m => exact absurd hfree (hw.installedPast s m hi).2
  have he : Evolves w ({ w with reserved := Function.update w.reserved s (some t) }.record t
      (.newGeneration) (.ok s)) :=
    ⟨by simp [CacheWorld.record], fun _ _ h ↦ h, fun _ ↦ le_rfl, fun _ _ ↦ le_rfl,
      fun _ _ h ↦ .inl h⟩
  have hpresent : SharedPresent proc d
      { w with reserved := Function.update w.reserved s (some t) } := by
    refine { hw.present with installed := fun s' m hm ↦ ⟨(hw.present.installed s' m hm).1, ?_⟩ }
    by_cases hs' : s' = s
    · simp [hs']
    · simpa [hs'] using (hw.present.installed s' m hm).2
  refine ⟨hw.logged (e := .newGeneration) ⟨le_rfl, fun _ _ h ↦ h, fun _ ↦ le_rfl,
      fun _ _ ↦ le_rfl, fun _ _ h ↦ .inl h⟩ rfl hpresent (fun _ _ ↦ by simp)
    (not_attempt (fun _ _ ↦ by simp) (fun _ ↦ by simp)), fun u hu ↦ ?_, ?_⟩
  · refine .of_locks he rfl (fun _ _ ↦ ⟨rfl, rfl⟩) fun s' hs' ↦ ⟨?_, rfl⟩
    have hne : s' ≠ s := fun h ↦ by simp [h, hfree] at hs'
    simpa [CacheWorld.record, hne] using hs'
  · exact ⟨⟨⟨hp.1.1.trans he, hp.1.2⟩, hK _ w _ hw he rfl hp.2⟩,
      by simp [CacheWorld.record], hnone, hs⟩

omit [DecidableEq P] [DecidableEq T] in
theorem Evolves.install (hw : SharedInv proc d w) (hs : w.installedAt s = none) :
    Evolves w (w.install scope s) := by
  refine ⟨le_rfl, fun s' m hm ↦ ?_, fun scope' ↦ ?_, fun _ _ ↦ le_rfl, fun scope' raw hraw ↦ ?_⟩
  · have hne : s' ≠ s := fun h ↦ by simp [h, hs] at hm
    simpa [CacheWorld.install, hne] using hm
  · by_cases h : scope' = scope
    · simpa [CacheWorld.install, h] using (hw.latestPast scope).le
    · simp [CacheWorld.install, h]
  · by_cases h : scope' = scope
    · exact .inr (by simp [CacheWorld.install, h])
    · exact .inl (by simpa [CacheWorld.install, h] using hraw)

omit [DecidableEq P] [DecidableEq T] in
theorem SharedPresent.install (hw : SharedInv proc d w) (hs : w.installedAt s = none)
    (hr : w.reserved s ≠ none) (hform : IsGeneration s) :
    SharedPresent proc d (w.install scope s) := by
  have he : Evolves w (w.install scope s) := .install hw hs
  refine ⟨?_, ?_, fun db parts v hv ↦ (hw.entry db parts v hv).evolves he, ?_, ?_,
    hw.present.floor⟩
  · intro scope' raw hraw
    by_cases h : scope' = scope
    · subst h
      exact ⟨s, by simpa [CacheWorld.install] using hraw.symm, hform, by simp [CacheWorld.install]⟩
    · obtain ⟨s', rfl, hform', hs'⟩ := hw.token scope' raw
        (by simpa [CacheWorld.install, h] using hraw)
      refine ⟨s', rfl, hform', ?_⟩
      rw [show (w.install scope s).latest scope' = w.latest scope' by simp [CacheWorld.install, h]]
      exact he.installed s' _ hs'
  · intro p scope'
    by_cases h : scope' = scope
    · subst h
      refine .inr fun _ _ ↦ ?_
      simpa [CacheWorld.install] using hw.floorPast p scope'
    · refine (hw.fenced p scope').imp_right fun hf raw hraw ↦ ?_
      have hlt := hf raw (by simpa [CacheWorld.install, h] using hraw)
      simpa [CacheWorld.install, h] using hlt
  · intro s' m hm
    by_cases h : s' = s
    · subst h
      obtain rfl : w.now = m := by simpa [CacheWorld.install] using hm
      exact ⟨le_rfl, hr⟩
    · exact hw.present.installed s' m (by simpa [CacheWorld.install, h] using hm)
  · intro scope'
    by_cases h : scope' = scope
    · subst h
      simp [CacheWorld.install, now]
    · simpa [CacheWorld.install, h, now] using hw.present.latest scope'

omit [DecidableEq T] in
theorem SharedPresent.raiseFloor {p : P} (h : SharedPresent proc d w)
    (hpending : scope ∈ (w.states p).pendingGenerations) :
    SharedPresent proc d (w.raiseFloor p scope) := by
  refine { h with fenced := fun q scope' ↦ ?_, floor := fun q scope' ↦ ?_ }
  · by_cases hq : q = p ∧ scope' = scope
    · obtain ⟨rfl, rfl⟩ := hq
      exact .inl hpending
    · refine (h.fenced q scope').imp_right fun hf raw hraw ↦ ?_
      have hlt := hf raw hraw
      by_cases hp : q = p
      · subst hp
        simpa [CacheWorld.raiseFloor, show scope' ≠ scope from fun h ↦ hq ⟨rfl, h⟩] using hlt
      · simpa [CacheWorld.raiseFloor, hp] using hlt
  · have hle := h.floor q scope'
    by_cases hp : q = p
    · subst hp
      by_cases hs : scope' = scope
      · simp [CacheWorld.raiseFloor, hs, now]
      · simpa [CacheWorld.raiseFloor, hs, now] using hle
    · simpa [CacheWorld.raiseFloor, hp, now] using hle

omit [DecidableEq T] in
theorem Evolves.raiseFloor {p : P} (h : ∀ q scope', w.floor q scope' ≤ w.now) :
    Evolves w (w.raiseFloor p scope) := by
  refine ⟨le_rfl, fun _ _ h ↦ h, fun _ ↦ le_rfl, fun q scope' ↦ ?_, fun _ _ h ↦ .inl h⟩
  by_cases hp : q = p
  · subst hp
    by_cases hs : scope' = scope
    · simpa [CacheWorld.raiseFloor, hs] using h q scope
    · simp [CacheWorld.raiseFloor, hs]
  · simp [CacheWorld.raiseFloor, hp]

/-- An acknowledged write makes the scope fresh; an overwrite that is not
acknowledged needs the scope to be pending. -/
theorem tokenWrite_triple {onlyIfAbsent : Bool} (hK : ∀ s, Persistent proc d (K s))
    (hpending : onlyIfAbsent = false → ∀ st w, K st w → scope ∈ st.pendingGenerations) :
    SharedTriple proc d t (fun w ↦ Held proc t born n K w ∧ Owned t s w)
      (ask (.tokenWrite scope s onlyIfAbsent))
      (Ends (fun ok ↦ Held proc t born n fun st w ↦ K st w ∧ (ok = true → w.Fresh (proc t) scope))
        fun _ ↦ Held proc t born n K) := by
  refine held_call (stable_owned (fun s ↦ (hK s).kept) s) (fun _ h ↦ h.1.1) ?_
  rintro w c r w' hw ⟨⟨hat, hk⟩, hr, hs, hform⟩ ha
  have hinstall : Local proc t w (w.install scope s) := by
    refine ⟨.install hw hs, rfl, rfl, fun _ _ ↦ ⟨rfl, rfl⟩, fun u s' hu hs' ↦ ⟨hs', ?_⟩⟩
    have hne : s' ≠ s := by
      rintro rfl
      exact hu (Option.some.inj (hs'.symm.trans hr))
    simp [CacheWorld.install, hne]
  have hpresent : SharedPresent proc d (w.install scope s) :=
    .install hw hs (by simp [hr]) hform
  rcases act_tokenWrite ha with ⟨rfl, rfl⟩ | ⟨hne, w₁, hw₁, rfl⟩
  · refine ⟨hinstall, hpresent, ?_, ?_, fun hat' ↦ ⟨hat', ?_, fun _ raw _ ↦ ?_⟩⟩
    · rintro scope' s' hevent
      cases hevent
      simp [CacheWorld.install]
    · rintro scope' (⟨u, r', hevent⟩ | ⟨u, s', r', hevent, hr'⟩)
      · cases hevent
      · cases hevent
        exact absurd rfl hr'
    · exact hK _ w _ hw hinstall.evolves.record hk
    · simpa [CacheWorld.install, CacheWorld.record] using hw.floorPast (proc t) scope
  · have hw₁' : Local proc t w w₁ ∧ SharedPresent proc d w₁ ∧ w₁.states = w.states := by
      rcases hw₁ with rfl | rfl
      · exact ⟨.refl, hw.present, rfl⟩
      · exact ⟨hinstall, hpresent, rfl⟩
    obtain ⟨hl, hp₁, hstates⟩ := hw₁'
    have hpost : ∀ w₂, Local proc t w w₂ → w₂.states = w.states →
        At proc t born (n + 1) (w₂.record t _ r) →
        Ends (fun ok ↦ Held proc t born n fun st w ↦ K st w ∧ (ok = true → w.Fresh (proc t) scope))
          (fun _ ↦ Held proc t born n K) r (w₂.record t (.tokenWrite scope s onlyIfAbsent) r) := by
      intro w₂ hl₂ hstates hat'
      have hk' : K ((w₂.record t (.tokenWrite scope s onlyIfAbsent) r).states (proc t))
          (w₂.record t (.tokenWrite scope s onlyIfAbsent) r) := by
        rw [show (w₂.record t _ r).states = w.states from hstates]
        exact hK _ w _ hw hl₂.evolves.record hk
      cases r with
      | ok b => exact ⟨hat', hk', fun hb ↦ absurd (congrArg Except.ok hb) hne⟩
      | error x => exact ⟨hat', hk'⟩
    cases onlyIfAbsent with
    | true =>
        refine ⟨hl, hp₁, ?_, ?_, hpost w₁ hl hstates⟩
        · rintro scope' s' hevent
          cases hevent
        · rintro scope' (⟨u, r', hevent⟩ | ⟨u, s', r', hevent, -⟩)
          · cases hevent
          · cases hevent
    | false =>
        have hraise : Evolves w₁ (w₁.raiseFloor (proc t) scope) := .raiseFloor hp₁.floor
        have hl' : Local proc t w (w₁.raiseFloor (proc t) scope) := by
          refine ⟨hl.evolves.trans hraise, hl.log, hl.locks, fun p hp ↦ ?_, hl.own⟩
          obtain ⟨hs', hf⟩ := hl.others p hp
          exact ⟨hs', by simpa [CacheWorld.raiseFloor, hp] using hf⟩
        refine ⟨hl', hp₁.raiseFloor ?_, ?_, ?_, hpost _ hl' hstates⟩
        · rw [hstates]
          exact hpending rfl _ _ hk
        · rintro scope' s' hevent
          cases hevent
          exact absurd rfl hne
        · rintro scope' (⟨u, r', hevent⟩ | ⟨u, s', r', hevent, -⟩)
          · cases hevent
          · cases hevent
            simp [CacheWorld.raiseFloor, now, hl.log]

end Tokens

section Backend

variable {K : CacheState → CacheWorld T P Sql D → Prop} {key : Str} {v : Rows D}

/-- An effect on the entries and tokens alone keeps a persistent fact. -/
theorem backend_call {e : CacheEffect Sql (Rows D)} (hK : ∀ s, Persistent proc d (K s))
    (hwrite : ∀ scope s, e ≠ .tokenWrite scope s false)
    (hupdate : ∀ scope, e ≠ .update (.addPending scope))
    {F : Except CacheError e.Reply → CacheWorld T P Sql D → Prop}
    (h : ∀ w c r w', SharedInv proc d w → K (w.states (proc t)) w →
      w.act proc t e c = some (r, w') →
      Local proc t w w' ∧ SharedPresent proc d w' ∧ w'.states = w.states ∧ F r (w'.record t e r)) :
    SharedTriple proc d t (Held proc t born n K) (ask e)
      fun r w ↦ Held proc t born n K w ∧ F r w := by
  refine held_call (stable_held fun s ↦ (hK s).kept) (fun _ h ↦ h.1) fun w c r w' hw hp ha ↦ ?_
  obtain ⟨hl, hpresent, hstates, hF⟩ := h w c r w' hw hp.2 ha
  refine ⟨hl, hpresent, fun scope s hevent ↦ ?_, fun scope hevent ↦ ?_, fun hat ↦ ⟨⟨hat, ?_⟩, hF⟩⟩
  · exact absurd (congrArg CacheEvent.effect hevent) (hwrite scope s)
  · exact absurd hevent (not_attempt hwrite hupdate scope)
  · rw [show (w'.record t e r).states = w.states from hstates]
    exact hK _ w _ hw hl.evolves.record hp.2

omit [DecidableEq P] [DecidableEq T] in
theorem SharedPresent.putEntry (hd : d.KeyFaithful) (h : SharedPresent proc d w) {db : Str}
    {parts : KeyParts Sql} (hbefore : w.TokensBefore parts.generations v.readAt) :
    SharedPresent proc d (w.putEntry (makeKey d db parts) v) := by
  refine { h with entry := fun db' parts' v' hv ↦ ?_ }
  by_cases hk : makeKey d db' parts' = makeKey d db parts
  · obtain rfl := makeKey_parts hd hk
    obtain rfl : v = v' := by simpa [CacheWorld.putEntry, hk] using hv
    exact hbefore
  · exact h.entry db' parts' v' (by simpa [CacheWorld.putEntry, hk] using hv)

theorem backendSet_triple (hd : d.KeyFaithful) (hK : ∀ s, Persistent proc d (K s)) {db : Str}
    {parts : KeyParts Sql} (hbefore : ∀ st w, K st w → w.TokensBefore parts.generations v.readAt) :
    SharedTriple proc d t (Held proc t born n K) (ask (.backendSet (makeKey d db parts) v))
      fun _ ↦ Held proc t born n K := by
  refine (backend_call hK (fun _ _ ↦ by simp) (fun _ ↦ by simp) (F := fun _ _ ↦ True)
    fun w c r w' hw hk ha ↦ ?_).consequence (fun _ _ h ↦ h) fun _ _ _ h ↦ h.1
  have hput : Local proc t w (w.putEntry (makeKey d db parts) v) :=
    ⟨⟨le_rfl, fun _ _ h ↦ h, fun _ ↦ le_rfl, fun _ _ ↦ le_rfl, fun _ _ h ↦ .inl h⟩, rfl, rfl,
      fun _ _ ↦ ⟨rfl, rfl⟩, fun _ _ _ h ↦ ⟨h, rfl⟩⟩
  have hpresent : SharedPresent proc d (w.putEntry (makeKey d db parts) v) :=
    hw.present.putEntry hd (hbefore _ w hk)
  rcases act_backendSet ha with ⟨rfl, rfl⟩ | ⟨x, applied, rfl, rfl, rfl⟩
  · exact ⟨hput, hpresent, rfl, trivial⟩
  · cases applied with
    | true => exact ⟨hput, hpresent, rfl, trivial⟩
    | false => exact ⟨.refl, hw.present, rfl, trivial⟩

theorem backendDelete_triple (hK : ∀ s, Persistent proc d (K s)) :
    SharedTriple proc d t (Held proc t born n K) (ask (.backendDelete key))
      fun _ ↦ Held proc t born n K := by
  refine (backend_call hK (fun _ _ ↦ by simp) (fun _ ↦ by simp) (F := fun _ _ ↦ True)
    fun w c r w' hw hk ha ↦ ?_).consequence (fun _ _ h ↦ h) fun _ _ _ h ↦ h.1
  have hevict : Local proc t w (w.evictEntry key) :=
    ⟨.evictEntry key, rfl, rfl, fun _ _ ↦ ⟨rfl, rfl⟩, fun _ _ _ h ↦ ⟨h, rfl⟩⟩
  rcases act_backendDelete ha with ⟨-, rfl⟩ | ⟨-, rfl | rfl⟩
  · exact ⟨hevict, (hw.evictEntry key).present, rfl, trivial⟩
  · exact ⟨.refl, hw.present, rfl, trivial⟩
  · exact ⟨hevict, (hw.evictEntry key).present, rfl, trivial⟩

/-- After a successful clear no scope has a token. -/
theorem backendClear_triple (hK : ∀ s, Persistent proc d (K s)) :
    SharedTriple proc d t (Held proc t born n K) (ask .backendClear)
      (Ends (fun _ ↦ Held proc t born n fun st w ↦ K st w ∧ ∀ scope, w.Fresh (proc t) scope)
        fun _ ↦ Held proc t born n K) := by
  refine (backend_call hK (fun _ _ ↦ by simp) (fun _ ↦ by simp)
    (F := fun r w ↦ r = .ok () → ∀ scope, w.Fresh (proc t) scope)
    fun w c r w' hw hk ha ↦ ?_).consequence (fun _ _ h ↦ h) fun r w _ h ↦ ?_
  · have hclear : Local proc t w w.clearServer := by
      refine ⟨⟨le_rfl, fun _ _ h ↦ h, fun _ ↦ le_rfl, fun _ _ ↦ le_rfl, fun scope raw h ↦ ?_⟩, rfl,
        rfl, fun _ _ ↦ ⟨rfl, rfl⟩, fun _ _ _ h ↦ ⟨h, rfl⟩⟩
      simp [CacheWorld.clearServer] at h
    have hpresent : SharedPresent proc d w.clearServer := by
      refine { hw.present with
        token := fun scope raw h ↦ by simp [CacheWorld.clearServer] at h
        fenced := fun p scope ↦ .inr fun raw h ↦ by simp [CacheWorld.clearServer] at h
        entry := fun db parts v h ↦ by simp [CacheWorld.clearServer] at h }
    have hfresh : ∀ r : Except CacheError Unit, ∀ scope,
        (w.clearServer.record t .backendClear r).Fresh (proc t) scope := by
      intro r scope raw h
      simp [CacheWorld.clearServer, CacheWorld.record] at h
    rcases act_backendClear ha with ⟨rfl, rfl⟩ | ⟨⟨x, rfl⟩, rfl | rfl⟩
    · exact ⟨hclear, hpresent, rfl, fun _ ↦ hfresh _⟩
    · exact ⟨.refl, hw.present, rfl, by simp⟩
    · exact ⟨hclear, hpresent, rfl, by simp⟩
  · cases r with
    | ok => exact ⟨h.1.1, h.1.2, h.2 rfl⟩
    | error x => exact h.1

end Backend

end DjangoNova.CacheWorld
