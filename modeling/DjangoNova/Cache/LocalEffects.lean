import DjangoNova.Cache.LocalProtocol

/-!
# The methods under the protocol of a process-local cache

Inside the lock every method leads from a consistent cache to a consistent
cache, and breaks the consistency in between: an invalidation between its
bump and the blocking of the keys, a fill between the storing of an entry
and its registration, `clear` until its outcome is recorded.
-/

namespace DjangoNova.CacheWorld

open Protocol QuerySetCache

variable {T Sql D : Type}
variable {d : Deployment Sql} {call : T → CacheCall Sql} {t : T}
variable {born w w' : LocalWorld T Sql D} {n : ℕ} {α : Type}
variable {A B : LocalWorld T Sql D → Prop} {q : PreparedQuery Sql}

/-- Thread `t`, begun in `born`, holds the lock `n` times. -/
def Since (t : T) (born : LocalWorld T Sql D) (n : ℕ) (w : LocalWorld T Sql D) : Prop :=
  Advances born w ∧ Depth (fun _ ↦ ()) t n w

/-- Kept by whatever the other threads do. -/
def Lasting (A : LocalWorld T Sql D → Prop) : Prop := ∀ w w', Advances w w' → A w → A w'

/-- Kept by whatever the others do while the lock is held. -/
def Protected (A : LocalWorld T Sql D → Prop) : Prop :=
  ∀ w w', Advances w w' → Same w w' → A w → A w'

theorem Lasting.protected (h : Lasting A) : Protected A := fun w w' ha _ ↦ h w w' ha

theorem Lasting.pure (p : Prop) : Lasting fun _ : LocalWorld T Sql D ↦ p := fun _ _ _ h ↦ h

theorem Lasting.and (hA : Lasting A) (hB : Lasting B) : Lasting fun w ↦ A w ∧ B w :=
  fun w w' h hab ↦ ⟨hA w w' h hab.1, hB w w' h hab.2⟩

theorem Protected.and (hA : Protected A) (hB : Protected B) : Protected fun w ↦ A w ∧ B w :=
  fun w w' h hs hab ↦ ⟨hA w w' h hs hab.1, hB w w' h hs hab.2⟩

theorem protected_consistent : Protected (Consistent d call : LocalWorld T Sql D → Prop) :=
  fun _ _ _ hs h ↦ h.same hs

theorem protected_state (s : CacheState) :
    Protected fun w : LocalWorld T Sql D ↦ w.state = s := by
  rintro w w' _ hs rfl
  rw [state, state, hs.states]

theorem Since.rely (h : LocalRely t w w') (hs : Since t born n w) : Since t born n w' := by
  refine ⟨hs.1.trans h.toAdvances, ?_⟩
  cases n with
  | zero => exact h.idle hs.2
  | succ n => exact (h.held _ hs.2).1

variable [DecidableEq T]

abbrev LocalTriple (d : Deployment Sql) (call : T → CacheCall Sql) (t : T)
    (pre : LocalWorld T Sql D → Prop) (p : CacheProgram Sql (Rows D) α)
    (post : Except CacheError α → LocalWorld T Sql D → Prop) : Prop :=
  (localProtocol d call).Triple t pre p post

theorem stable_since (hA : Lasting A) :
    (localProtocol d call).Stable t fun w ↦ Since t born n w ∧ A w :=
  fun w w' _ _ h hs ↦ ⟨hs.1.rely h, hA w w' h.toAdvances hs.2⟩

theorem stable_locked (hA : Protected A) :
    (localProtocol d call).Stable t fun w ↦ Since t born (n + 1) w ∧ A w :=
  fun w w' _ _ h hs ↦ ⟨hs.1.rely h, hA w w' h.toAdvances (h.same hs.1.2) hs.2⟩

section Effects

theorem respects_local :
    Respects (fun _ ↦ ()) (localProtocol d call : CacheProtocol T Unit Sql D) where
  machine := rfl
  quiet t u e r w he hw := by
    have hne : e ≠ .update .bumpGeneration := by
      rintro rfl
      exact he
    have hadv : Advances w (w.record t e r) := .record rfl le_rfl fun h ↦ absurd h hne
    refine ⟨fun hfree ↦ (hw hfree).same (.record rfl rfl .refl hne), hadv, fun _ h ↦ ?_, fun h ↦ h⟩
    exact ⟨h, rfl, .refl⟩

/-- An effect under the lock owes the others nothing but its log entry. -/
theorem locked_call {e : CacheEffect Sql (Rows D)} (hA : Protected A)
    {F : Except CacheError e.Reply → LocalWorld T Sql D → Prop}
    (h : ∀ w c r w', A w → Recoverable d call t e c w →
      w.act (fun _ ↦ ()) t e c = some (r, w') →
      w'.locks = w.locks ∧ Advances w (w'.record t e r) ∧ F r (w'.record t e r)) :
    LocalTriple d call t (fun w ↦ Since t born (n + 1) w ∧ A w) (ask e)
      fun r w ↦ Since t born (n + 1) w ∧ F r w := by
  refine Triple.call (stable_locked hA) (respects_local.effect fun w c r w' hw hp hc ha ↦ ?_)
  obtain ⟨hlocks, hadv, hpost⟩ := h w c r w' hp.2 hc ha
  have hheld : w.locks () = some (t, n + 1) := hp.1.2
  refine ⟨fun hfree ↦ ?_, fun u hu ↦ ⟨hadv, fun m hm ↦ ?_, fun hidle ↦ ?_⟩,
    ⟨hp.1.1.trans hadv, ?_⟩, hpost⟩
  · have hfree' : w'.locks () = none := hfree
    rw [hlocks, hheld] at hfree'
    cases hfree'
  · rw [hheld] at hm
    exact absurd (Prod.mk.inj (Option.some.inj hm)).1.symm hu
  · show ∀ n, w'.locks () ≠ some (u, n)
    rwa [hlocks]
  · rw [depth_record, Depth, hlocks]
    exact hheld

/-- A quiet effect under the lock, and what its reply tells. -/
theorem locked_quiet {e : CacheEffect Sql (Rows D)} (he : e.Quiet) (hA : Protected A)
    {F : Except CacheError e.Reply → LocalWorld T Sql D → Prop}
    (hF : ∀ w c r, Since t born (n + 1) w → A w → w.act (fun _ ↦ ()) t e c = some (r, w) →
      F r (w.record t e r)) :
    LocalTriple d call t (fun w ↦ Since t born (n + 1) w ∧ A w) (ask e)
      fun r w ↦ (Since t born (n + 1) w ∧ A w) ∧ F r w :=
  respects_local.quiet_ask he (stable_locked hA) fun w c r _ hp ha ↦ hF w c r hp.1 hp.2 ha

/-- `state` is read under the lock. -/
theorem readState_locked (hA : Protected A) :
    LocalTriple d call t (fun w ↦ Since t born (n + 1) w ∧ A w) (ask .readState)
      (Ends (fun s w ↦ Since t born (n + 1) w ∧ A w ∧ w.state = s) fun _ _ ↦ False) := by
  have hquiet : (.readState : CacheEffect Sql (Rows D)).Quiet := trivial
  refine (locked_quiet hquiet hA (F := fun r w ↦ r = .ok w.state) ?_).consequence
    (fun _ _ h ↦ h) fun r w _ h ↦ ?_
  · intro w c r _ _ ha
    show r = .ok w.state
    exact act_readState ha
  · obtain ⟨⟨hs, ha⟩, rfl⟩ := h
    exact ⟨hs, ha, rfl⟩

theorem update_locked {u : Update} (hA : Protected A)
    (h : ∀ w r, A w → B ((w.applyUpdate () u).record t (.update u) r)) :
    LocalTriple d call t (fun w ↦ Since t born (n + 1) w ∧ A w) (update u)
      (Ends (fun _ w ↦ Since t born (n + 1) w ∧ B w) fun _ _ ↦ False) := by
  refine (locked_call hA (F := fun r w ↦ r = .ok () ∧ B w) ?_).consequence
    (fun _ _ h ↦ h) fun r w _ hr ↦ ?_
  · intro w c r w' hw _ ha
    obtain ⟨rfl, rfl⟩ := act_update ha
    refine ⟨by cases u <;> rfl, .record (by cases u <;> rfl) ?_ ?_, rfl, h w _ hw⟩
    · cases u <;> simp [applyUpdate, setState, raiseFloor, state, Update.apply,
        CacheState.register, CacheState.unregister]
    · rintro heq
      obtain rfl : u = .bumpGeneration := CacheEffect.update.inj heq
      simp [applyUpdate, setState, state, Update.apply]
  · obtain ⟨hs, rfl, hb⟩ := hr
    exact ⟨hs, hb⟩

end Effects

section Lock

/-- The first acquisition finds the lock free, so the cache is consistent. -/
theorem acquire_local (hA : Lasting A) :
    LocalTriple d call t (fun w ↦ Since t born 0 w ∧ A w) (ask .acquire)
      (Ends (fun _ w ↦ Since t born 1 w ∧ A w ∧ w.Consistent d call) fun _ _ ↦ False) := by
  refine Triple.call (stable_since hA) (respects_local.effect fun w c r w' hw hp _ ha ↦ ?_)
  obtain ⟨rfl, rfl, hother⟩ := acquire_cases ha hp.1.2
  have hfree : w.locks () = none := by
    cases hl : w.locks () with
    | none => rfl
    | some x =>
        obtain ⟨u, m⟩ := x
        by_cases hu : u = t
        · exact absurd (hu ▸ hl) (hp.1.2 m)
        · exact absurd hl (hother u hu m)
  have hadv : Advances w ((w.setLock () (some (t, 0 + 1))).record t .acquire (.ok ())) :=
    .record rfl le_rfl (by simp)
  refine ⟨fun h ↦ ?_, fun u hu ↦ ⟨hadv, fun m hm ↦ ?_, fun _ m ↦ ?_⟩, ⟨hp.1.1.trans hadv, ?_⟩,
    hA w _ hadv hp.2, ?_⟩
  · simp [CacheWorld.record, setLock] at h
  · rw [hfree] at hm
    cases hm
  · simp [CacheWorld.record, setLock, Ne.symm hu]
  · simp [Depth, CacheWorld.record, setLock]
  · exact Consistent.same (w := w) (.record rfl rfl .refl (by simp)) (hw hfree)

/-- The last release needs a consistent cache. -/
theorem release_local (hA : Lasting A) :
    LocalTriple d call t (fun w ↦ Since t born 1 w ∧ A w ∧ w.Consistent d call) (ask .release)
      (Ends (fun _ w ↦ Since t born 0 w ∧ A w) fun _ _ ↦ False) := by
  refine Triple.call (stable_locked (hA.protected.and protected_consistent))
    (respects_local.effect fun w c r w' hw hp _ ha ↦ ?_)
  obtain ⟨rfl, l, rfl, hn, hnew⟩ := release_cases ha hp.1.2
  have hheld : w.locks () = some (t, 1) := hp.1.2
  have hadv : Advances w ((w.setLock () l).record t .release (.ok ())) :=
    .record rfl le_rfl (by simp)
  refine ⟨fun _ ↦ ?_, fun u hu ↦ ⟨hadv, fun m hm ↦ ?_, fun _ m ↦ ?_⟩, ⟨hp.1.1.trans hadv, ?_⟩,
    hA w _ hadv hp.2.1⟩
  · exact Consistent.same (w := w) (.record rfl rfl .refl (by simp)) hp.2.2
  · rw [hheld] at hm
    exact absurd (Prod.mk.inj (Option.some.inj hm)).1.symm hu
  · simpa [CacheWorld.record, setLock] using hnew u hu m
  · exact depth_record.mpr hn

theorem withLock_local (hA : Lasting A) {Q : α → LocalWorld T Sql D → Prop}
    (hQ : ∀ a, Lasting (Q a)) {body : CacheProgram Sql (Rows D) α}
    (hbody : LocalTriple d call t (fun w ↦ Since t born 1 w ∧ A w ∧ w.Consistent d call) body
      (Ends (fun a w ↦ Since t born 1 w ∧ Q a w ∧ w.Consistent d call)
        fun _ w ↦ Since t born 1 w ∧ w.Consistent d call)) :
    LocalTriple d call t (fun w ↦ Since t born 0 w ∧ A w) (withLock body)
      (Ends (fun a w ↦ Since t born 0 w ∧ Q a w) fun _ ↦ Since t born 0) := by
  refine Triple.bind (acquire_local hA) (fun _ ↦ hbody.andThen fun v ↦ ?_) fun _ _ _ h ↦ h.elim
  cases v with
  | ok a => exact Triple.bind (release_local (hQ a)) (fun _ _ _ h ↦ h) fun _ _ _ h ↦ h.elim
  | error x =>
      refine Triple.bind ((release_local (.pure True)).consequence
        (fun _ _ h ↦ ⟨h.1, trivial, h.2⟩) fun _ _ _ h ↦ h) (fun _ _ _ h ↦ h.1) fun _ _ _ h ↦ h.elim

/-- An acquisition or release by the holder that leaves it the holder. -/
theorem relock {e : CacheEffect Sql (Rows D)} (he : e ≠ .update .bumpGeneration) (hA : Protected A)
    {m : ℕ} {F : Except CacheError e.Reply → Prop}
    (h : ∀ (w : LocalWorld T Sql D) c r w', Depth (fun _ ↦ ()) t (n + 1) w →
      w.act (fun _ ↦ ()) t e c = some (r, w') → F r ∧ w' = w.setLock () (some (t, m + 1))) :
    LocalTriple d call t (fun w ↦ Since t born (n + 1) w ∧ A w) (ask e)
      fun r w ↦ (Since t born (m + 1) w ∧ A w) ∧ F r := by
  refine Triple.call (stable_locked hA) (respects_local.effect fun w c r w' hw hp _ ha ↦ ?_)
  obtain ⟨hr, rfl⟩ := h w c r w' hp.1.2 ha
  have hheld : w.locks () = some (t, n + 1) := hp.1.2
  have hadv : Advances w ((w.setLock () (some (t, m + 1))).record t e r) :=
    .record rfl le_rfl fun heq ↦ absurd heq he
  refine ⟨fun h ↦ ?_, fun u hu ↦ ⟨hadv, fun k hk ↦ ?_, fun _ k ↦ ?_⟩, ⟨⟨hp.1.1.trans hadv, ?_⟩,
    hA w _ hadv (.record rfl rfl .refl he) hp.2⟩, hr⟩
  · simp [CacheWorld.record, setLock] at h
  · rw [hheld] at hk
    exact absurd (Prod.mk.inj (Option.some.inj hk)).1.symm hu
  · simp [CacheWorld.record, setLock, Ne.symm hu]
  · simp [Depth, CacheWorld.record, setLock]

/-- `with state.lock` around an update, by the holder of the lock. -/
theorem nested_update {u : Update} (hA : Protected A) (hB : Protected B)
    (h : ∀ w r, A w → B ((w.applyUpdate () u).record t (.update u) r)) :
    LocalTriple d call t (fun w ↦ Since t born (n + 1) w ∧ A w) (withLock (update u))
      (Ends (fun _ w ↦ Since t born (n + 1) w ∧ B w) fun _ _ ↦ False) := by
  have hacquire : LocalTriple d call t (fun w ↦ Since t born (n + 1) w ∧ A w) (ask .acquire)
      fun r w ↦ (Since t born (n + 1 + 1) w ∧ A w) ∧ r = .ok () :=
    relock (by simp) hA fun w c r w' hd ha ↦ by
      obtain ⟨rfl, rfl, -⟩ := acquire_cases ha hd
      exact ⟨rfl, rfl⟩
  have hrelease : LocalTriple d call t (fun w ↦ Since t born (n + 1 + 1) w ∧ B w) (ask .release)
      fun r w ↦ (Since t born (n + 1) w ∧ B w) ∧ r = .ok () :=
    relock (by simp) hB fun w c r w' hd ha ↦ by
      obtain ⟨rfl, l, rfl, hn, -⟩ := release_cases ha hd
      refine ⟨rfl, ?_⟩
      rw [show l = some (t, n + 1) by simpa [Depth, setLock] using hn]
  refine Triple.bind hacquire (fun _ ↦ ?_) fun _ _ _ h ↦ by simp at h
  refine Triple.andThen ((update_locked hA h).consequence (fun _ _ h ↦ h.1) fun _ _ _ h ↦ h)
    fun v ↦ ?_
  cases v with
  | error x => exact fun _ _ h ↦ h.elim
  | ok => exact Triple.bind hrelease (fun _ _ _ h ↦ h.1) fun _ _ _ h ↦ by simp at h

end Lock

section Updates

variable {key : Str} {names : Finset Str}

omit [DecidableEq T]

/-- Queries of the calls that share a key carry the same names. -/
def KeysAgree (d : Deployment Sql) (call : T → CacheCall Sql) : Prop :=
  ∀ t u q q' key names names', (call t).reads = some q → (call u).reads = some q' →
    localKey d q = some (key, names) → localKey d q' = some (key, names') → names = names'

/-- What is stored under the key was read after every bump. -/
def Clean (key : Str) (w : LocalWorld T Sql D) : Prop :=
  ∀ v, w.entries key = some (.rows v) → ∀ i u, w.Bumped i u → i + 1 < v.readAt

def NoEntry (key : Str) (w : LocalWorld T Sql D) : Prop := w.entries key = none

theorem protected_indexed (admitted : Str → Prop) :
    Protected fun w : LocalWorld T Sql D ↦ w.Indexed d call admitted := fun _ _ _ hs h ↦ h.same hs

theorem protected_guarded (admitted : T → Prop) :
    Protected fun w : LocalWorld T Sql D ↦ w.Guarded d call admitted := fun _ _ _ hs h ↦ h.same hs

theorem protected_clean : Protected (Clean key : LocalWorld T Sql D → Prop) :=
  fun _ _ _ hs h v hv i u hi ↦ h v (hs.shrinks _ _ hv) i u (hs.bumps i u hi)

theorem protected_noEntry : Protected (NoEntry key : LocalWorld T Sql D → Prop) := by
  intro w w' _ hs h
  cases hv : w'.entries key with
  | none => exact hv
  | some v => exact absurd (hs.shrinks key v hv) (by rw [h]; simp)

/-- The world after an update and its log entry. -/
abbrev updated (t : T) (u : Update) (r : Except CacheError Unit) (w : LocalWorld T Sql D) :
    LocalWorld T Sql D :=
  (w.applyUpdate () u).record t (.update u) r

@[simp] theorem state_updated (u : Update) (r : Except CacheError Unit) :
    (updated t u r w).state = u.apply w.state := by
  cases u <;> simp [state, CacheWorld.record, applyUpdate, setState, raiseFloor]

@[simp] theorem entries_updated (u : Update) (r : Except CacheError Unit) :
    (updated t u r w).entries = w.entries := by
  cases u <;> rfl

theorem serves_updated {u : Update} {r : Except CacheError Unit} {v : Rows D}
    (h : (updated t u r w).Serves d call q key names v) : w.Serves d call q key names v :=
  ⟨h.1, h.2.1, by simpa using h.2.2⟩

theorem bumped_updated {u : Update} {r : Except CacheError Unit} {i : ℕ} {v : T}
    (hu : u ≠ .bumpGeneration) (h : (updated t u r w).Bumped i v) : w.Bumped i v := by
  have hlog : (w.applyUpdate () u).log = w.log := by cases u <;> rfl
  have h' := bumped_record (fun he ↦ hu (CacheEffect.update.inj he)) h
  simpa only [Bumped, hlog] using h'

/-- A bump leaves the invalidation of the bumping thread to be done. -/
theorem consistent_bump {r : Except CacheError Unit} (h : w.Consistent d call) :
    (updated t .bumpGeneration r w).Indexed d call (fun _ ↦ True) ∧
      (updated t .bumpGeneration r w).Guarded d call (· ≠ t) := by
  refine ⟨fun q key names v hv hkey ↦ ?_, fun q key names v hv hclear hkey i u hi hu hhit ↦ ?_⟩
  · simpa [Update.apply] using h.1 q key names v (serves_updated hv) trivial
  · refine h.2 q key names v (serves_updated hv) (by simpa [Update.apply] using hclear)
      (by simpa [Update.apply] using hkey) i u ?_ trivial hhit
    obtain ⟨r', hr⟩ := hi
    simp only [CacheWorld.record] at hr
    rcases Nat.lt_trichotomy i w.log.length with hlt | rfl | hlt
    · exact ⟨r', by rwa [List.getElem?_append_left (by exact hlt)] at hr⟩
    · have hlast : (w.applyUpdate () .bumpGeneration).log = w.log := rfl
      rw [hlast, List.getElem?_concat_length] at hr
      exact absurd (congrArg CacheEvent.thread (Option.some.inj hr)).symm hu
    · rw [List.getElem?_eq_none (by simp [applyUpdate, setState]; omega)] at hr
      exact absurd hr (by simp)

/-- The keys include what the call of `t` hits. -/
def Covering (d : Deployment Sql) (call : T → CacheCall Sql) (t : T) (keys : Finset Str)
    (w : LocalWorld T Sql D) : Prop :=
  ∀ q key names v, w.Serves d call q key names v → (call t).Hits d names q.db → key ∈ keys

/-- The index finds every stored entry that `invalidate_model` hits. -/
theorem covering_invalidationKeys {modelName db : Str}
    (hcall : call t = .invalidateModel modelName db) (h : w.Indexed d call fun _ ↦ True) :
    Covering d call t (w.state.invalidationKeys d.databaseDigest
      (normalizeModelNames d.lower modelName) db) w := by
  intro q key names v hv hhit
  rw [hcall] at hhit
  obtain ⟨⟨name, hname, hmem⟩, hdb⟩ := hhit
  refine CacheState.mem_invalidationKeys.mpr
    ⟨⟨name, hname, h q key names v hv trivial name hmem⟩, ?_⟩
  refine hdb.imp_right fun hq ↦ ?_
  obtain ⟨-, hkey, -⟩ := hv
  unfold localKey at hkey
  split at hkey
  · simp only [Option.some.injEq, Prod.mk.injEq] at hkey
    rw [← hkey.1, hq]
    exact List.prefix_append _ _
  · cases hkey

theorem consistent_of_covering (hi : w.Indexed d call fun _ ↦ True)
    (hg : w.Guarded d call (· ≠ t)) (hc : Covering d call t ∅ w) : w.Consistent d call := by
  refine ⟨hi, fun q key names v hv hclear hkey i u hb _ hhit ↦ ?_⟩
  by_cases hu : u = t
  · subst hu
    exact absurd (hc q key names v hv hhit) (by simp)
  · exact hg q key names v hv hclear hkey i u hb hu hhit

/-- Blocking the keys completes the invalidation. -/
theorem consistent_block {keys : Finset Str} {r : Except CacheError Unit}
    (hi : w.Indexed d call fun _ ↦ True) (hg : w.Guarded d call (· ≠ t))
    (hc : Covering d call t keys w) : (updated t (.block keys) r w).Consistent d call := by
  refine ⟨fun q key names v hv _ ↦ ?_, fun q key names v hv hclear hkey i u hb _ hhit ↦ ?_⟩
  · simpa [Update.apply] using hi q key names v (serves_updated hv) trivial
  · simp only [state_updated, Update.apply, Finset.mem_union, not_or] at hclear hkey
    by_cases hu : u = t
    · subst hu
      exact absurd (hc q key names v (serves_updated hv) hhit) hkey.2
    · exact hg q key names v (serves_updated hv) hclear hkey.1 i u
        (bumped_updated (by simp) hb) hu hhit

theorem consistent_unregister {r : Except CacheError Unit} (h : w.Consistent d call)
    (hnone : NoEntry key w) : (updated t (.unregister key) r w).Consistent d call := by
  have hne : ∀ {q key' names v}, w.Serves d call q key' names v → key' ≠ key := by
    rintro q key' names v hv rfl
    exact absurd hv.2.2 (by rw [hnone]; simp)
  refine ⟨fun q key' names v hv _ name hname ↦ ?_, fun q key' names v hv hclear hkey i u hb _ ↦ ?_⟩
  · have hold := h.1 q key' names v (serves_updated hv) trivial name hname
    have hne' := hne (serves_updated hv)
    simp only [state_updated, Update.apply, CacheState.unregister]
    split
    · cases hb : w.state.modelKeys name with
      | none => simp [hb] at hold
      | some bucket =>
          simp only [hb, Option.getD_some] at hold ⊢
          have hmem : key' ∈ bucket.erase key := Finset.mem_erase.mpr ⟨hne', hold⟩
          rw [if_neg (Finset.ne_empty_of_mem hmem)]
          exact hmem
    · exact hold
  · simp only [state_updated, Update.apply, CacheState.unregister] at hclear hkey
    refine h.2 q key' names v (serves_updated hv) hclear (fun hmem ↦ hkey ?_) i u
      (bumped_updated (by simp) hb) trivial
    exact Finset.mem_erase.mpr ⟨hne (serves_updated hv), hmem⟩

/-- Registration only adds to the index, and it adds all names of the key. -/
theorem consistent_register {r : Except CacheError Unit} (hagree : KeysAgree d call)
    (hq : (call t).reads = some q) (hkey : localKey d q = some (key, names))
    (hi : w.Indexed d call (· ≠ key)) (hg : w.Guarded d call fun _ ↦ True) :
    (updated t (.register key names) r w).Consistent d call := by
  refine ⟨fun q' key' names' v hv _ name hname ↦ ?_,
    fun q' key' names' v hv hclear hblock i u hb ↦ ?_⟩
  · simp only [state_updated, Update.apply, CacheState.register]
    by_cases hk : key' = key
    · subst hk
      obtain ⟨⟨u, hu⟩, hkey', -⟩ := hv
      obtain rfl := hagree t u q q' key' names names' hq hu hkey hkey'
      simp [hname]
    · have hold := hi q' key' names' v (serves_updated hv) hk name hname
      split
      · exact Finset.mem_insert_of_mem hold
      · exact hold
  · simp only [state_updated, Update.apply, CacheState.register] at hclear hblock
    exact hg q' key' names' v (serves_updated hv) hclear hblock i u (bumped_updated (by simp) hb)

theorem clean_updated {u : Update} {r : Except CacheError Unit} (hu : u ≠ .bumpGeneration)
    (h : Clean key w) : Clean key (updated t u r w) :=
  fun v hv i x hb ↦ h v (by simpa using hv) i x (bumped_updated hu hb)

theorem consistent_unblock {r : Except CacheError Unit} (h : w.Consistent d call)
    (hclean : Clean key w) : (updated t (.unblock key) r w).Consistent d call := by
  refine ⟨fun q key' names v hv _ ↦ ?_, fun q key' names v hv hclear hkey i u hb _ hhit ↦ ?_⟩
  · simpa [Update.apply] using h.1 q key' names v (serves_updated hv) trivial
  · have hb' := bumped_updated (by simp) hb
    have hv' := serves_updated hv
    by_cases hk : key' = key
    · subst hk
      exact hclean v hv'.2.2 i u hb'
    · simp only [state_updated, Update.apply] at hclear hkey
      refine h.2 q key' names v hv' hclear (fun hmem ↦ hkey ?_) i u hb' trivial hhit
      exact Finset.mem_erase.mpr ⟨hk, hmem⟩

/-- After a failed `clear` nothing is served. -/
theorem consistent_failClear {r : Except CacheError Unit} (hi : w.Indexed d call fun _ ↦ True) :
    (updated t .failClear r w).Consistent d call := by
  refine ⟨fun q key names v hv _ ↦ ?_, fun q key names v hv hclear ↦ ?_⟩
  · simpa [Update.apply] using hi q key names v (serves_updated hv) trivial
  · simp [Update.apply] at hclear

theorem consistent_reset {r : Except CacheError Unit} (h : ∀ key, NoEntry key w) :
    (updated t .reset r w).Consistent d call := by
  have hno : ∀ {q key names v}, ¬(updated t .reset r w).Serves d call q key names v := by
    intro q key names v hv
    have hv' := (serves_updated hv).2.2
    rw [h key] at hv'
    cases hv'
  exact ⟨fun q key names v hv ↦ absurd hv hno, fun q key names v hv ↦ absurd hv hno⟩

end Updates

section Backend

variable {key : Str} {v : Rows D}

/-- An effect on the entries alone that only removes some of them. -/
theorem removal_locked {e : CacheEffect Sql (Rows D)} (hne : e ≠ .update .bumpGeneration)
    (hA : Protected A) {F : Except CacheError e.Reply → LocalWorld T Sql D → Prop}
    (h : ∀ (w : LocalWorld T Sql D) c r w', w.act (fun _ ↦ ()) t e c = some (r, w') →
      w'.locks = w.locks ∧ w'.log = w.log ∧ w'.states = w.states ∧ w.Shrinks w' ∧
        F r (w'.record t e r)) :
    LocalTriple d call t (fun w ↦ Since t born (n + 1) w ∧ A w) (ask e)
      fun r w ↦ Since t born (n + 1) w ∧ A w ∧ F r w := by
  refine locked_call hA fun w c r w' hw _ ha ↦ ?_
  obtain ⟨hlocks, hlog, hstates, hshrinks, hF⟩ := h w c r w' ha
  have hadv : Advances w (w'.record t e r) :=
    .record hlog (by rw [state, state, hstates]) fun heq ↦ absurd heq hne
  exact ⟨hlocks, hadv, hA w _ hadv (.record hlog hstates hshrinks hne) hw, hF⟩

theorem backendDelete_locked (hA : Protected A) :
    LocalTriple d call t (fun w ↦ Since t born (n + 1) w ∧ A w) (ask (.backendDelete key))
      (Ends (fun _ w ↦ Since t born (n + 1) w ∧ A w ∧ NoEntry key w)
        fun _ w ↦ Since t born (n + 1) w ∧ A w) := by
  refine (removal_locked (by simp) hA
    (F := fun r w ↦ (∃ b, r = .ok b) → NoEntry key w) ?_).consequence
    (fun _ _ h ↦ h) fun r w _ h ↦ ?_
  · intro w c r w' ha
    rcases act_backendDelete ha with ⟨-, rfl⟩ | ⟨⟨x, rfl⟩, rfl | rfl⟩
    · exact ⟨rfl, rfl, rfl, shrinks_evict key, fun _ ↦ by
        simp [NoEntry, CacheWorld.record, evictEntry]⟩
    · exact ⟨rfl, rfl, rfl, .refl, by simp⟩
    · exact ⟨rfl, rfl, rfl, shrinks_evict key, by simp⟩
  · cases r with
    | ok b => exact ⟨h.1, h.2.1, h.2.2 ⟨b, rfl⟩⟩
    | error x => exact ⟨h.1, h.2.1⟩

theorem backendClear_locked (hA : Protected A) :
    LocalTriple d call t (fun w ↦ Since t born (n + 1) w ∧ A w) (ask .backendClear)
      (Ends (fun _ w ↦ Since t born (n + 1) w ∧ ∀ key, NoEntry key w)
        fun _ w ↦ Since t born (n + 1) w ∧ A w) := by
  refine (removal_locked (by simp) hA (F := fun r w ↦ r = .ok () → ∀ key, NoEntry key w)
    ?_).consequence
    (fun _ _ h ↦ h) fun r w _ h ↦ ?_
  · intro w c r w' ha
    have hshrinks : w.Shrinks w.clearServer := fun key v hv ↦ by simp [clearServer] at hv
    rcases act_backendClear ha with ⟨rfl, rfl⟩ | ⟨⟨x, rfl⟩, rfl | rfl⟩
    · exact ⟨rfl, rfl, rfl, hshrinks, fun _ _ ↦ rfl⟩
    · exact ⟨rfl, rfl, rfl, .refl, by simp⟩
    · exact ⟨rfl, rfl, rfl, hshrinks, by simp⟩
  · cases r with
    | ok => exact ⟨h.1, h.2.2 rfl⟩
    | error x => exact ⟨h.1, h.2.1⟩

omit [DecidableEq T] in
/-- The new entry is consistent but for its missing registration. -/
theorem consistent_put (key : Str) (r : Except CacheError Unit) (h : w.Consistent d call)
    (hv : ∀ i u, w.Bumped i u → i + 1 < v.readAt) :
    let w' := (w.putEntry key v).record t (.backendSet key v) r
    (w'.Indexed d call (· ≠ key) ∧ w'.Guarded d call fun _ ↦ True) ∧ Clean key w' := by
  intro w'
  have hb : ∀ {i u}, w'.Bumped i u → w.Bumped i u := fun hi ↦ bumped_record (by simp) hi
  have hserves : ∀ {q key' names v'}, key' ≠ key → w'.Serves d call q key' names v' →
      w.Serves d call q key' names v' := fun hk hs ↦
    ⟨hs.1, hs.2.1, by simpa [w', CacheWorld.record, putEntry, hk] using hs.2.2⟩
  refine ⟨⟨fun q key' names v' hs hk ↦ ?_, fun q key' names v' hs hclear hblock i u hi _ hhit ↦ ?_⟩,
    fun v' hv' i u hi ↦ ?_⟩
  · exact h.1 q key' names v' (hserves hk hs) trivial
  · by_cases hk : key' = key
    · subst hk
      obtain rfl : v = v' := by simpa [w', CacheWorld.record, putEntry] using hs.2.2
      exact hv i u (hb hi)
    · exact h.2 q key' names v' (hserves hk hs) hclear hblock i u (hb hi) trivial hhit
  · obtain rfl : v = v' := by simpa [w', CacheWorld.record, putEntry] using hv'
    exact hv i u (hb hi)

/-- `backend.set` of rows read after every bump. A set that raises leaves
the cache consistent, since it may take effect for indexed keys only. -/
theorem backendSet_locked (hA : Protected A)
    (hstored : ∀ w, A w → w.Consistent d call ∧ ∀ i u, w.Bumped i u → i + 1 < v.readAt) :
    LocalTriple d call t (fun w ↦ Since t born (n + 1) w ∧ A w) (ask (.backendSet key v))
      (Ends (fun _ w ↦ Since t born (n + 1) w ∧
          (w.Indexed d call (· ≠ key) ∧ w.Guarded d call fun _ ↦ True) ∧ Clean key w)
        fun _ w ↦ Since t born (n + 1) w ∧ w.Consistent d call) := by
  refine (locked_call hA (F := Ends
    (fun _ w ↦ (w.Indexed d call (· ≠ key) ∧ w.Guarded d call fun _ ↦ True) ∧ Clean key w)
    fun _ w ↦ w.Consistent d call) ?_).consequence (fun _ _ h ↦ h) fun r w _ h ↦ ?_
  · intro w c r w' hw hc ha
    obtain ⟨hcons, hv⟩ := hstored w hw
    have hput : ∀ r, Advances w ((w.putEntry key v).record t (.backendSet key v) r) :=
      fun r ↦ .record rfl le_rfl (by simp)
    rcases act_backendSet ha with ⟨rfl, rfl⟩ | ⟨x, applied, rfl, rfl, rfl⟩
    · exact ⟨rfl, hput _, consistent_put key _ hcons hv⟩
    · cases applied with
      | false =>
          exact ⟨rfl, .record rfl le_rfl (by simp),
            hcons.same (w := w) (.record rfl rfl .refl (by simp))⟩
      | true =>
          refine ⟨rfl, hput _, ?_⟩
          obtain ⟨⟨hi, hg⟩, -⟩ := consistent_put (t := t) key (.error x) hcons hv
          refine ⟨fun q key' names v' hs _ name hname ↦ ?_, hg⟩
          by_cases hk : key' = key
          · subst hk
            obtain ⟨⟨u, hu⟩, hkey, -⟩ := hs
            exact hc key' v x rfl rfl u q names hu hkey name hname
          · exact hi q key' names v' hs hk name hname
  · cases r with
    | ok => exact h
    | error x => exact h

end Backend

end DjangoNova.CacheWorld
