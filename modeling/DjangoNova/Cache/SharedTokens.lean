import DjangoNova.Cache.SharedEffects

/-!
# Reading and rotating shared tokens

The judgements of the generation methods. A token that a thread reads for
a scope was installed no earlier than the last one that was there when
the thread began, and after every attempt of its own process.
-/

namespace DjangoNova.CacheWorld

open Protocol QuerySetCache

variable {T P Sql D : Type}
variable {proc : T → P} {d : Deployment Sql} {t : T} {born w : CacheWorld T P Sql D} {n : ℕ}
variable {K M : CacheState → CacheWorld T P Sql D → Prop} {scope : Scope}

/-- The token is at least as new as all that `t` has to see. -/
def Seen (proc : T → P) (t : T) (born : CacheWorld T P Sql D) (st : Scope × Str)
    (w : CacheWorld T P Sql D) : Prop :=
  ∃ m, w.installedAt st.2 = some m ∧ born.latest st.1 ≤ m ∧ born.floor (proc t) st.1 ≤ m

def AllSeen (proc : T → P) (t : T) (born : CacheWorld T P Sql D) (tokens : List (Scope × Str))
    (w : CacheWorld T P Sql D) : Prop :=
  ∀ st ∈ tokens, Seen proc t born st w

theorem persistent_seen (st : Scope × Str) : Persistent proc d (Seen proc t born st) := by
  rintro w w' - h ⟨m, hm, hle⟩
  exact ⟨m, h.installed _ m hm, hle⟩

theorem persistent_allSeen (tokens : List (Scope × Str)) :
    Persistent proc d (AllSeen proc t born tokens) :=
  fun w w' hw h hs st hst ↦ persistent_seen st w w' hw h (hs st hst)

/-- A stored token of a scope that is not pending is recent and valid. -/
theorem seen_of_stored (hw : SharedInv proc d w) (hborn : Evolves born w)
    (hpending : scope ∉ (w.states (proc t)).pendingGenerations) {raw : Raw}
    (hraw : w.tokens scope = some raw) :
    ∃ s, validateGeneration raw = .ok s ∧ Seen proc t born (scope, s) w := by
  obtain ⟨s, rfl, hform, hs⟩ := hw.token scope raw hraw
  refine ⟨s, validateGeneration_encode hform, _, hs, hborn.latest scope, ?_⟩
  have hfresh := (hw.fenced (proc t) scope).resolve_left hpending
  exact (hborn.floor (proc t) scope).trans (hfresh _ hraw).le

theorem Held.mono {w : CacheWorld T P Sql D} (h : ∀ st, K st w → M st w)
    (hw : Held proc t born n K w) : Held proc t born n M w :=
  ⟨hw.1, h _ hw.2⟩

variable [DecidableEq P] [DecidableEq T]

section Rules

/-- A quiet effect under the lock. -/
theorem held_quiet {e : CacheEffect Sql (Rows D)} (he : e.Quiet)
    (hK : ∀ s, Persistent proc d (K s)) :
    SharedTriple proc d t (Held proc t born n K) (ask e) fun _ ↦ Held proc t born n K :=
  respects_shared.quiet_ask' he (stable_held fun s ↦ (hK s).kept)

theorem orUnavailable_triple {α : Type} {p : CacheProgram Sql (Rows D) α}
    {pre : CacheWorld T P Sql D → Prop} {post : Except CacheError α → CacheWorld T P Sql D → Prop}
    (hp : SharedTriple proc d t pre p post)
    (herr : ∀ x w, post (.error x) w → post (.error .generationUnavailable) w) :
    SharedTriple proc d t pre (orUnavailable p) post :=
  hp.tryCatch (fun _ _ _ h ↦ h) fun x ↦ Triple.throw _ fun w _ h ↦ herr x w h

/-- An update under the lock maps what is known of the state. -/
theorem update_held {u : Update} (hK : ∀ s, Kept proc d t (K s))
    (hM : ∀ s, Persistent proc d (M s))
    (hdrop : ∀ st w, SharedInv proc d w → K st w → ∀ scope ∈ st.pendingGenerations,
      scope ∉ (u.apply st).pendingGenerations → w.Fresh (proc t) scope)
    (h : ∀ st w, K st w → M (u.apply st) w) :
    SharedTriple proc d t (Held proc t born n K) (update u)
      (Ends (fun _ ↦ Held proc t born n M) fun _ _ ↦ False) := by
  refine update_triple (stable_held hK) (fun _ h ↦ h.1) (fun w hw hp ↦ hdrop _ w hw hp.2)
    fun w w' r hw hp hu hat ↦ ⟨hat, ?_⟩
  rw [show (w'.record t (.update u) r).states (proc t) = _ from hu.state]
  exact hM _ w _ hw (hu.evolves hw).record (h _ w hp.2)

end Rules

section Rotation

/-- A rotation ends with a fresh token of the pending scope, or raises. -/
theorem rotateGeneration_triple (hK : ∀ s, Persistent proc d (K s))
    (hpending : ∀ st w, K st w → scope ∈ st.pendingGenerations) :
    SharedTriple proc d t (Held proc t born n K) (rotateGeneration scope)
      (Ends (fun _ ↦ Held proc t born n fun st w ↦ K st w ∧ w.Fresh (proc t) scope)
        fun _ ↦ Held proc t born n K) := by
  refine (newGeneration_triple fun s ↦ (hK s).kept).bind (fun s ↦ ?_) fun _ _ _ h ↦ h.elim
  refine orUnavailable_triple ?_ fun _ _ h ↦ h
  have hwriter : (.generationWriter : CacheEffect Sql (Rows D)).Quiet := trivial
  refine (respects_shared.quiet_ask' hwriter (stable_owned (fun s ↦ (hK s).kept) s)).bind
    (fun _ ↦ ?_) fun _ _ _ h ↦ h.1
  refine (tokenWrite_triple hK fun _ ↦ hpending).bind (fun ok ↦ ?_) fun _ _ _ h ↦ h
  cases ok with
  | true => exact Triple.pure s fun _ _ h ↦ h.mono fun _ hk ↦ ⟨hk.1, hk.2 rfl⟩
  | false => exact Triple.throw _ fun _ _ h ↦ h.mono fun _ hk ↦ hk.1

theorem rotateValidated_triple (hK : ∀ s, Persistent proc d (K s))
    (hpending : ∀ st w, K st w → scope ∈ st.pendingGenerations) :
    SharedTriple proc d t (Held proc t born n K) (rotateValidated scope)
      (Ends (fun _ ↦ Held proc t born n fun st w ↦ K st w ∧ w.Fresh (proc t) scope)
        fun _ ↦ Held proc t born n K) := by
  refine (rotateGeneration_triple hK hpending).bind (fun s ↦ ?_) fun _ _ _ h ↦ h
  cases validateGeneration (.str s) with
  | ok s' => exact fun _ _ h ↦ h
  | error x => exact fun _ _ h ↦ h.mono fun _ hk ↦ hk.1

/-- Once its token is fresh, a scope leaves the pending set. -/
theorem discardPending_triple (hK : ∀ s, Persistent proc d (K s))
    (hM : ∀ s, Persistent proc d (M s))
    (h : ∀ st w, K st w → M { st with pendingGenerations := st.pendingGenerations.erase scope } w) :
    SharedTriple proc d t
      (Held proc t born n fun st w ↦ K st w ∧ w.Fresh (proc t) scope)
      (update (.discardPending scope)) (Ends (fun _ ↦ Held proc t born n M) fun _ _ ↦ False) := by
  refine update_held (fun s ↦ (hK s).kept.and (kept_fresh scope)) hM ?_ fun st w hk ↦ h st w hk.1
  intro st w _ hk scope' hmem hout
  obtain rfl : scope' = scope := by
    by_contra hne
    exact hout (Finset.mem_erase.mpr ⟨hne, hmem⟩)
  exact hk.2

/-- None of the scopes is pending. -/
def Settled (scopes : List Scope) (st : CacheState) : Prop :=
  ∀ scope ∈ scopes, scope ∉ st.pendingGenerations

theorem Settled.discard {scopes : List Scope} {st : CacheState} (h : Settled scopes st)
    (scope : Scope) :
    Settled (scope :: scopes)
      { st with pendingGenerations := st.pendingGenerations.erase scope } := by
  intro scope' hmem hpending
  obtain ⟨hne, hpending⟩ := Finset.mem_erase.mp hpending
  exact h scope' ((List.mem_cons.mp hmem).resolve_left hne) hpending

/-- After `rotatePending` none of the requested scopes is pending. -/
theorem rotatePending_triple {L : CacheWorld T P Sql D → Prop} (hL : Persistent proc d L)
    (scopes visited : List Scope) :
    SharedTriple proc d t (Held proc t born n fun st w ↦ Settled visited st ∧ L w)
      (rotatePending scopes)
      (Ends (fun _ ↦ Held proc t born n fun st w ↦ Settled scopes st ∧ Settled visited st ∧ L w)
        fun _ w ↦ At proc t born (n + 1) w ∧ L w) := by
  have hK : ∀ (l : List Scope) (s : CacheState), Persistent proc d fun w ↦ Settled l s ∧ L w :=
    fun _ _ ↦ (Persistent.pure _).and hL
  induction scopes generalizing visited with
  | nil => exact Triple.pure () fun _ _ h ↦ h.mono fun _ hk ↦ ⟨by simp [Settled], hk⟩
  | cons scope rest ih =>
      refine (readState_triple fun s ↦ (hK visited s).kept).bind (fun s ↦ ?_) fun _ _ _ h ↦ h.elim
      refine Triple.bind (Q := Ends (fun _ ↦ Held proc t born n fun st w ↦
          Settled (scope :: visited) st ∧ L w) fun _ w ↦ At proc t born (n + 1) w ∧ L w)
            ?_ (fun _ ↦ ?_)
        fun _ _ _ h ↦ h
      · refine triple_onlyIf (fun hs ↦ ?_) fun hs w _ h ↦ ⟨h.1.1, ?_, h.1.2.2⟩
        · have hrotate : SharedTriple proc d t
              (Held proc t born n fun st w ↦ (Settled visited st ∧ L w) ∧ st = s)
              (rotateValidated scope) _ :=
            rotateValidated_triple (fun st ↦ (hK visited st).and (.pure _)) fun st w h ↦ h.2 ▸ hs
          refine (hrotate.consequence (fun w _ h ↦ ⟨h.1.1, h.1.2, h.2⟩) fun _ _ _ h ↦ h).bind
            (fun _ ↦ ?_) fun _ _ _ h ↦ ⟨h.1, h.2.1.2⟩
          refine (discardPending_triple (fun st ↦ (hK visited st).and (.pure _)) (hK _)
            fun st _ hk ↦ ⟨hk.1.1.discard scope, hk.1.2⟩).consequence (fun _ _ h ↦ h)
            fun v _ _ h ↦ ?_
          cases v with
          | ok => exact h
          | error x => exact h.elim
        · intro scope' hmem
          rcases List.mem_cons.mp hmem with rfl | hmem
          · rwa [h.2]
          · exact h.1.2.1 scope' hmem
      · refine (ih (scope :: visited)).consequence (fun _ _ h ↦ h) fun v _ _ h ↦ ?_
        cases v with
        | ok =>
            refine h.mono fun _ hk ↦ ⟨fun scope' hmem ↦ ?_, fun scope' hmem ↦ ?_, hk.2.2⟩
            · rcases List.mem_cons.mp hmem with rfl | hmem
              · exact hk.2.1 scope' List.mem_cons_self
              · exact hk.1 scope' hmem
            · exact hk.2.1 scope' (List.mem_cons_of_mem _ hmem)
        | error x => exact h

end Rotation

section Reading

theorem tokenGet_triple (hK : ∀ s, Persistent proc d (K s))
    (hsettled : ∀ st w, K st w → scope ∉ st.pendingGenerations) :
    SharedTriple proc d t (Held proc t born n K) (ask (.tokenGet scope))
      (Ends (fun raw w ↦ Held proc t born n K w ∧
          ∀ b, raw = some b → ∃ s, validateGeneration b = .ok s ∧ Seen proc t born (scope, s) w)
        fun _ ↦ Held proc t born n K) := by
  have hquiet : (.tokenGet scope : CacheEffect Sql (Rows D)).Quiet := trivial
  refine (respects_shared.quiet_ask hquiet (stable_held fun s ↦ (hK s).kept)
    (F := fun r w ↦ ∀ b, r = .ok (some b) →
      ∃ s, validateGeneration b = .ok s ∧ Seen proc t born (scope, s) w) ?_).consequence
    (fun _ _ h ↦ h) ?_
  · rintro w c r hw ⟨hat, hk⟩ ha b rfl
    rcases act_tokenGet ha with ⟨x, hx⟩ | hx
    · cases hx
    · exact seen_of_stored hw hat.1 (hsettled _ _ hk) (Except.ok.inj hx).symm
  · rintro v w _ ⟨hw, hseen⟩
    cases v with
    | ok raw => exact ⟨hw, fun b hb ↦ hseen b (congrArg Except.ok hb)⟩
    | error x => exact hw

/-- The facts `K` and the tokens that have been read so far. -/
def WithSeen (proc : T → P) (t : T) (born : CacheWorld T P Sql D)
    (K : CacheState → CacheWorld T P Sql D → Prop) (tokens : List (Scope × Str))
    (st : CacheState) (w : CacheWorld T P Sql D) : Prop :=
  K st w ∧ AllSeen proc t born tokens w

omit [DecidableEq P] [DecidableEq T] in
theorem persistent_withSeen (hK : ∀ s, Persistent proc d (K s)) (tokens : List (Scope × Str)) :
    ∀ s, Persistent proc d (WithSeen proc t born K tokens s) :=
  fun s ↦ (hK s).and (persistent_allSeen tokens)

theorem getGenerationLoop_triple (hK : ∀ s, Persistent proc d (K s))
    (hsettled : ∀ st w, K st w → scope ∉ st.pendingGenerations) (attempts : ℕ) :
    SharedTriple proc d t (Held proc t born n K) (getGenerationLoop scope attempts)
      (Ends (fun s ↦ Held proc t born n (WithSeen proc t born K [(scope, s)]))
        fun _ ↦ Held proc t born n K) := by
  induction attempts with
  | zero => exact Triple.throw _ fun _ _ h ↦ h
  | succ attempts ih =>
      refine (tokenGet_triple hK hsettled).bind (fun raw ↦ ?_) fun _ _ _ h ↦ h
      cases raw with
      | some raw =>
          refine Triple.done _ fun w _ h ↦ ?_
          obtain ⟨hw, hraw⟩ := h
          obtain ⟨s, hs, hseen⟩ := hraw raw rfl
          rw [hs]
          exact hw.mono fun _ hk ↦ ⟨hk, by simpa [AllSeen] using hseen⟩
      | none =>
          refine ((newGeneration_triple fun s ↦ (hK s).kept).consequence (fun _ _ h ↦ h.1)
            fun _ _ _ h ↦ h).bind (fun s ↦ ?_) fun _ _ _ h ↦ h.elim
          refine (tokenWrite_triple hK fun h ↦ by cases h).bind (fun _ ↦ ?_) fun _ _ _ h ↦ h
          exact ih.consequence (fun _ _ h ↦ h.mono fun _ hk ↦ hk.1) fun _ _ _ h ↦ h

theorem getGeneration_triple (hK : ∀ s, Persistent proc d (K s))
    (hsettled : ∀ st w, K st w → scope ∉ st.pendingGenerations) :
    SharedTriple proc d t (Held proc t born n K) (getGeneration scope)
      (Ends (fun s ↦ Held proc t born n (WithSeen proc t born K [(scope, s)]))
        fun _ ↦ Held proc t born n K) := by
  refine orUnavailable_triple ?_ fun _ _ h ↦ h
  have hwriter : (.generationWriter : CacheEffect Sql (Rows D)).Quiet := trivial
  exact (held_quiet hwriter hK).bind (fun _ ↦ getGenerationLoop_triple hK hsettled 3)
    fun _ _ _ h ↦ h

theorem getEach_triple (hK : ∀ s, Persistent proc d (K s)) (scopes : List Scope)
    (hsettled : ∀ st w, K st w → Settled scopes st) :
    SharedTriple proc d t (Held proc t born n K) (getEach scopes)
      (Ends (fun tokens ↦ Held proc t born n (WithSeen proc t born K tokens))
        fun _ ↦ Held proc t born n K) := by
  induction scopes generalizing K with
  | nil => exact Triple.pure [] fun _ _ h ↦ h.mono fun _ hk ↦ ⟨hk, by simp [AllSeen]⟩
  | cons scope rest ih =>
      refine (getGeneration_triple hK fun st w hk ↦ hsettled st w hk scope List.mem_cons_self).bind
        (fun s ↦ ?_) fun _ _ _ h ↦ h
      refine (ih (persistent_withSeen hK [(scope, s)]) fun st w hk scope' hmem ↦
        hsettled st w hk.1 scope' (List.mem_cons_of_mem _ hmem)).bind (fun tokens ↦ ?_)
        fun _ _ _ h ↦ h.mono fun _ hk ↦ hk.1
      refine Triple.pure _ fun _ _ h ↦ h.mono fun _ hk ↦ ⟨hk.1.1, fun st hst ↦ ?_⟩
      rcases List.mem_cons.mp hst with rfl | hst
      · exact hk.1.2 _ (List.mem_singleton_self _)
      · exact hk.2 st hst

/-- What a batch read tells about each value that it found. -/
def RawSeen (proc : T → P) (t : T) (born : CacheWorld T P Sql D) (raws : List (Scope × Option Raw))
    (w : CacheWorld T P Sql D) : Prop :=
  ∀ scope raw, (scope, some raw) ∈ raws →
    ∃ s, validateGeneration raw = .ok s ∧ Seen proc t born (scope, s) w

omit [DecidableEq P] [DecidableEq T] in
theorem persistent_rawSeen (raws : List (Scope × Option Raw)) :
    Persistent proc d (RawSeen proc t born raws) := by
  intro w w' hw h hs scope raw hmem
  obtain ⟨s, hv, hseen⟩ := hs scope raw hmem
  exact ⟨s, hv, persistent_seen _ w w' hw h hseen⟩

theorem readRaw_triple (hK : ∀ s, Persistent proc d (K s)) (scopes : List Scope)
    (hsettled : ∀ st w, K st w → Settled scopes st) :
    SharedTriple proc d t (Held proc t born n K) (readRaw scopes)
      (Ends (fun raws ↦ Held proc t born n fun st w ↦
          (K st w ∧ RawSeen proc t born raws w) ∧ raws.map Prod.fst = scopes)
        fun _ ↦ Held proc t born n K) := by
  induction scopes generalizing K with
  | nil => exact Triple.pure [] fun _ _ h ↦ h.mono fun _ hk ↦ ⟨⟨hk, by simp [RawSeen]⟩, rfl⟩
  | cons scope rest ih =>
      refine (tokenGet_triple hK fun st w hk ↦ hsettled st w hk scope List.mem_cons_self).bind
        (fun raw ↦ ?_) fun _ _ _ h ↦ h
      have hM : ∀ s, Persistent proc d fun w ↦ K s w ∧ RawSeen proc t born [(scope, raw)] w :=
        fun s ↦ (hK s).and (persistent_rawSeen _)
      refine ((ih hM fun st w hk scope' hmem ↦
        hsettled st w hk.1 scope' (List.mem_cons_of_mem _ hmem)).consequence ?_
          fun _ _ _ h ↦ h).bind (fun raws ↦ ?_) fun _ _ _ h ↦ h.mono fun _ hk ↦ hk.1
      · rintro w _ ⟨hw, hraw⟩
        refine hw.mono fun _ hk ↦ ⟨hk, fun scope' b hmem ↦ ?_⟩
        obtain ⟨rfl, rfl⟩ := Prod.mk.inj (List.mem_singleton.mp hmem)
        exact hraw b rfl
      · refine Triple.pure _ fun _ _ h ↦ h.mono fun _ hk ↦ ⟨⟨hk.1.1.1, fun scope' b hmem ↦ ?_⟩, ?_⟩
        · rcases List.mem_cons.mp hmem with heq | hmem
          · exact hk.1.1.2 scope' b (heq ▸ List.mem_singleton_self _)
          · exact hk.1.2 scope' b hmem
        · simp [hk.2]

omit [DecidableEq P] [DecidableEq T] in
theorem validatePresent_seen {raws : List (Scope × Option Raw)} {tokens : List (Scope × Str)}
    (h : RawSeen proc t born raws w) (hv : validatePresent raws = .ok tokens) :
    AllSeen proc t born tokens w := by
  induction raws generalizing tokens with
  | nil =>
      obtain rfl : [] = tokens := Except.ok.inj hv
      simp [AllSeen]
  | cons r rest ih =>
      obtain ⟨scope, raw⟩ := r
      have hrest : RawSeen proc t born rest w :=
        fun scope' b hmem ↦ h scope' b (List.mem_cons_of_mem _ hmem)
      cases raw with
      | none => exact ih hrest hv
      | some raw =>
          obtain ⟨s, hs, hseen⟩ := h scope raw List.mem_cons_self
          simp only [validatePresent, hs, bind, Except.bind] at hv
          cases hp : validatePresent rest with
          | error x => simp [hp] at hv
          | ok tail =>
              simp only [hp, pure, Except.pure] at hv
              obtain rfl := Except.ok.inj hv
              intro st hst
              rcases List.mem_cons.mp hst with rfl | hst
              · exact hseen
              · exact ih hrest hp st hst

theorem getGenerations_triple (hK : ∀ s, Persistent proc d (K s)) (readMany : Bool)
    (scopes : List Scope) (hsettled : ∀ st w, K st w → Settled scopes st) :
    SharedTriple proc d t (Held proc t born n K) (getGenerations readMany scopes)
      (Ends (fun tokens ↦ Held proc t born n (WithSeen proc t born K tokens))
        fun _ ↦ Held proc t born n K) := by
  have hdups : ∀ st w, K st w → Settled scopes.eraseDups st :=
    fun st w hk scope hmem ↦ hsettled st w hk scope (by simpa using hmem)
  unfold getGenerations
  split
  · exact Triple.pure [] fun _ _ h ↦ h.mono fun _ hk ↦ ⟨hk, by simp [AllSeen]⟩
  · refine orUnavailable_triple ?_ fun _ _ h ↦ h
    have hwriter : (.generationWriter : CacheEffect Sql (Rows D)).Quiet := trivial
    refine (held_quiet hwriter hK).bind (fun _ ↦ ?_) fun _ _ _ h ↦ h
    cases readMany with
    | false => exact getEach_triple hK _ hdups
    | true =>
        refine (readRaw_triple hK _ hdups).bind (fun raws ↦ ?_) fun _ _ _ h ↦ h
        refine Triple.bind (Q := Ends (fun tokens ↦ Held proc t born n fun st w ↦
          WithSeen proc t born K tokens st w ∧ raws.map Prod.fst = scopes.eraseDups)
          fun _ ↦ Held proc t born n K) ?_ (fun present ↦ ?_) fun _ _ _ h ↦ h
        · refine Triple.done _ fun w _ h ↦ ?_
          cases hv : validatePresent raws with
          | ok tokens =>
              exact h.mono fun _ hk ↦ ⟨⟨hk.1.1, validatePresent_seen hk.1.2 hv⟩, hk.2⟩
          | error x => exact h.mono fun _ hk ↦ hk.1.1
        · let M := fun st w ↦
            WithSeen proc t born K present st w ∧ raws.map Prod.fst = scopes.eraseDups
          have hM : ∀ s, Persistent proc d (M s) :=
            fun s ↦ (persistent_withSeen hK present s).and (.pure _)
          refine (getEach_triple hM _ fun st w hk scope hmem ↦ ?_).bind (fun missing ↦ ?_)
            fun _ _ _ h ↦ h.mono fun _ hk ↦ hk.1.1
          · obtain ⟨r, hr, rfl⟩ := List.mem_map.mp hmem
            refine hdups st w hk.1.1 _ (hk.2 ▸ List.mem_map_of_mem (List.mem_of_mem_filter hr))
          · refine Triple.pure _ fun _ _ h ↦ h.mono fun _ hk ↦ ⟨hk.1.1.1, fun st hst ↦ ?_⟩
            rcases List.mem_append.mp hst with hst | hst
            · exact hk.1.1.2 st hst
            · exact hk.2 st hst

/-- Selecting tokens keeps one valid token for each scope, in order. -/
theorem selectTokens_ok {tokens selected : List (Scope × Str)} {scopes : List Scope}
    (h : selectTokens tokens scopes = .ok selected) :
    (∀ st ∈ selected, st ∈ tokens) ∧ selected.map Prod.fst = scopes := by
  induction scopes generalizing selected with
  | nil =>
      obtain rfl : [] = selected := Except.ok.inj h
      simp
  | cons scope rest ih =>
      simp only [selectTokens] at h
      cases hl : tokens.lookup scope with
      | none => simp [hl] at h
      | some token =>
          simp only [hl, bind, Except.bind] at h
          cases hv : validateGeneration (.str token) with
          | error x => simp [hv] at h
          | ok token' =>
              obtain rfl : token = token' := by
                simp only [validateGeneration] at hv
                split at hv
                · exact Except.ok.inj hv
                · cases hv
              cases hs : selectTokens tokens rest with
              | error x => simp [hv, hs] at h
              | ok tail =>
                  simp only [hv, hs, pure, Except.pure] at h
                  obtain rfl := Except.ok.inj h
                  obtain ⟨hsub, hfst⟩ := ih hs
                  refine ⟨fun st hst ↦ ?_, by simp [hfst]⟩
                  rcases List.mem_cons.mp hst with rfl | hst
                  · obtain ⟨l₁, l₂, rfl, -⟩ := List.lookup_eq_some_iff.mp hl
                    simp
                  · exact hsub st hst

theorem readTokens_triple (hK : ∀ s, Persistent proc d (K s)) (scopes : List Scope)
    (hsettled : ∀ st w, K st w → Settled scopes st) :
    SharedTriple proc d t (Held proc t born n K) (readTokens d scopes)
      (Ends (fun tokens ↦ Held proc t born n (WithSeen proc t born K tokens))
        fun _ ↦ Held proc t born n K) := by
  unfold readTokens
  split
  · exact getGenerations_triple hK d.readMany scopes hsettled
  · exact getEach_triple hK scopes hsettled

/-- A vector of tokens is read while no requested scope is pending. -/
theorem readGenerations_triple (hgen : d.generation = true) {L : CacheWorld T P Sql D → Prop}
    (hL : Persistent proc d L) (scopes : List Scope) :
    SharedTriple proc d t (fun w ↦ At proc t born n w ∧ L w) (readGenerations d scopes)
      (Ends (fun tokens w ↦ At proc t born n w ∧ L w ∧ AllSeen proc t born tokens w ∧
          tokens.map Prod.fst = scopes)
        fun _ w ↦ At proc t born n w ∧ L w) := by
  unfold readGenerations
  rw [if_pos hgen]
  refine withLock_triple hL
    (fun tokens ↦ hL.and ((persistent_allSeen tokens).and (.pure _))) hL ?_
  refine orUnavailable_triple ?_ fun _ _ h ↦ h
  refine Triple.bind ((rotatePending_triple hL scopes []).consequence
    (fun w _ h ↦ ⟨h.1, by simp [Settled], h.2⟩) fun _ _ _ h ↦ h) (fun _ ↦ ?_) fun _ _ _ h ↦ h
  have hK : ∀ s : CacheState, Persistent proc d fun w ↦ Settled scopes s ∧ Settled [] s ∧ L w :=
    fun s ↦ (Persistent.pure _).and ((Persistent.pure _).and hL)
  refine (readTokens_triple hK scopes fun _ _ hk ↦ hk.1).bind
    (fun tokens ↦ Triple.done _ fun w _ h ↦ ?_)
    fun _ _ _ h ↦ ⟨h.1, h.2.2.2⟩
  cases hs : selectTokens tokens scopes with
  | error x => exact ⟨h.1, h.2.1.2.2⟩
  | ok selected =>
      obtain ⟨hsub, hfst⟩ := selectTokens_ok hs
      exact ⟨h.1, h.2.1.2.2, fun st hst ↦ h.2.2 st (hsub st hst), hfst⟩

end Reading

end DjangoNova.CacheWorld
