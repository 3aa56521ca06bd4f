import DjangoNova.Cache.CalmReads
import DjangoNova.Cache.SharedFreshness

/-!
# Calls around a calm server

What each public call of a cache gives, and how it leaves the server and
the state of its process, when nothing fails.
-/

namespace DjangoNova

open Program QuerySetCache CacheWorld
open Tracing (onlyIf)

namespace PreparedQuery

variable {Sql : Type}

/-- The models and prefetch texts that the dependency analysis adds. -/
def tracked (q : PreparedQuery Sql) : List ModelLabel × List Str :=
  match q.dependencies with
  | .ok dependencies => dependencies.getD ([], [])
  | .error _ => ([], [])

variable (d : Deployment Sql)

/-- What identifies the result of a query besides the tokens. -/
def parts (q : PreparedQuery Sql) (tokens : List (Scope × Str)) : KeyParts Sql :=
  ⟨q.model.fullName d.lower, q.sql, q.tracked.2, tokens⟩

def key (q : PreparedQuery Sql) (tokens : List (Scope × Str)) : Str :=
  makeKey d q.db (q.parts d tokens)

def snapshot (q : PreparedQuery Sql) (tokens : List (Scope × Str)) : KeySnapshot :=
  ⟨q.key d tokens, q.model.shortName d.lower, namesOf d q q.tracked.1, tokens⟩

end PreparedQuery

namespace CalmServer

variable {P Sql D : Type} [DecidableEq P] {p : P} {inside : Bool} {c c' : CalmServer P D}
  {d : Deployment Sql} {q : PreparedQuery Sql} {own : Bool}

theorem gives_transactional :
    Gives (acts p inside) (ask (.transactional q) : CacheProgram Sql (Rows D) Bool) c
      fun b c' ↦ b = inside ∧ c' = c := gives_ask fun _ _ h ↦ h

theorem gives_runSql :
    Gives (acts p inside) (runSql q : CacheProgram Sql (Rows D) (Rows D)) c
      fun _ c' ↦ c' = c := gives_ask fun _ _ h ↦ h

theorem gives_keySnapshot (h : c.ValidTokens) (hp : (c.states p).pendingGenerations = ∅)
    {dependencies : Option (List ModelLabel × List Str)} (hq : q.dependencies = .ok dependencies) :
    Gives (acts p inside) (keySnapshot d q : CacheProgram Sql (Rows D) KeySnapshot) c
      fun snapshot c' ↦ ∃ tokens, snapshot = q.snapshot d tokens ∧ Grows c c' ∧
        c'.VectorOf d (queryScopes d q) tokens := by
  have hscopes : queryScopes d q = scopesOf d q (dependencies.getD ([], [])).1 := by
    rw [queryScopes, hq]
  unfold keySnapshot
  rw [hq]
  refine (gives_readGenerations h hp _).bind ?_
  rintro tokens c₁ ⟨hgrows, hvector⟩
  refine gives_pure ⟨tokens, ?_, hgrows, hscopes ▸ hvector⟩
  simp only [PreparedQuery.snapshot, PreparedQuery.key, PreparedQuery.parts,
    PreparedQuery.tracked, hq]
  rfl

section Get

theorem gives_get_inside :
    Gives (acts p true) (QuerySetCache.get d q : CacheProgram Sql (Rows D) (Option (Rows D))) c
      fun cached c' ↦ cached = none ∧ c' = c := by
  refine gives_transactional.bind ?_
  rintro b c₁ ⟨rfl, rfl⟩
  exact gives_pure ⟨rfl, rfl⟩

theorem gives_get (hd : d.returnsDetached = .ok own) (h : c.ValidTokens)
    (hp : Tidy (c.states p)) {dependencies : Option (List ModelLabel × List Str)}
    (hq : q.dependencies = .ok dependencies) :
    Gives (acts p false) (QuerySetCache.get d q : CacheProgram Sql (Rows D) (Option (Rows D))) c
      fun cached c' ↦ ∃ tokens c₁, Grows c c₁ ∧ c₁.VectorOf d (queryScopes d q) tokens ∧
        AfterLookup p (q.snapshot d tokens) c₁ cached c' := by
  refine gives_transactional.bind ?_
  rintro b c₀ ⟨rfl, rfl⟩
  refine (gives_keySnapshot h hp.settled hq).andThen ?_
  rintro snapshot c₁ ⟨tokens, rfl, hgrows, hvector⟩
  refine gives_novaSpan fun span ↦ ?_
  refine (gives_withLock (gives_lookup hd hgrows.valid (hgrows.states ▸ hp) hvector)).bind ?_
  rintro cached c₂ hlookup
  refine (gives_setAttribute span).bind ?_
  rintro - c₃ rfl
  exact gives_pure ⟨tokens, c₁, hgrows, hvector, hlookup⟩

end Get

section GetOrSet

omit [DecidableEq P] in
@[simp] theorem putEntry_states (c : CalmServer P D) (key : Str) (v : Rows D) :
    (c.putEntry key v).states = c.states := rfl

@[simp] theorem setState_setState (c : CalmServer P D) (p : P) (s s' : CacheState) :
    (c.setState p s).setState p s' = c.setState p s' := by
  simp [setState]

@[simp] theorem setState_states (c : CalmServer P D) (p : P) (s : CacheState) :
    (c.setState p s).states p = s := by
  simp [setState]

/-- A fill publishes its rows and registers their key. -/
def stored (c : CalmServer P D) (p : P) (snapshot : KeySnapshot) (v : Rows D) :
    CalmServer P D :=
  (c.putEntry snapshot.key v).setState p ((c.states p).register snapshot.key snapshot.names)

theorem gives_backendSet (snapshot : KeySnapshot) (v : Rows D) :
    Gives (acts p inside) (backendSet d snapshot v : CacheProgram Sql (Rows D) Bool) c
      fun published c' ↦ published = true ∧ c' = c.putEntry snapshot.key v := by
  have hdetached : Gives (acts p inside)
      (detachedResult d v : CacheProgram Sql (Rows D) (Option (Rows D))) c
      fun result c' ↦ result = some v ∧ c' = c := by
    unfold detachedResult
    split
    · exact gives_pure ⟨rfl, rfl⟩
    · refine (gives_copyRows v).andThen ?_
      rintro copy c₁ ⟨hcopy, hsame⟩
      exact gives_pure ⟨congrArg some hcopy, hsame⟩
  refine hdetached.bind ?_
  rintro result c₁ ⟨rfl, rfl⟩
  have hset : Gives (acts p inside)
      (ask (.backendSet snapshot.key v) : CacheProgram Sql (Rows D) Unit) c₁
      fun _ c' ↦ c' = c₁.putEntry snapshot.key v := gives_ask fun _ _ h ↦ h
  refine hset.andThen ?_
  rintro - c₂ rfl
  exact gives_pure ⟨rfl, rfl⟩

theorem gives_publish (h : c.ValidTokens) (hp : Tidy (c.states p)) {snapshot : KeySnapshot}
    {scopes : List Scope} (hs : c.VectorOf d scopes snapshot.generations) (v : Rows D) :
    Gives (acts p false)
      (publish d q snapshot (c.states p).generation v : CacheProgram Sql (Rows D) Unit) c
      fun _ c' ↦ ∃ c₁, Grows c c₁ ∧ c' = c₁.stored p snapshot v := by
  refine gives_readState.bind ?_
  rintro s c₀ ⟨rfl, rfl⟩
  simp only [onlyIf, hp.readable, Bool.not_false, decide_true, Bool.and_self, if_true]
  refine gives_transactional.bind ?_
  rintro b c₁ ⟨rfl, rfl⟩
  rw [if_pos rfl]
  refine (gives_generationsMatch h hp.settled hs).bind ?_
  rintro matching c₂ ⟨rfl, hgrows⟩
  rw [if_pos rfl]
  refine (gives_backendSet snapshot v).bind ?_
  rintro published c₃ ⟨rfl, rfl⟩
  rw [if_pos rfl]
  refine (gives_registerKey snapshot.key snapshot.names).bind ?_
  rintro - c₄ rfl
  refine gives_update.mono ?_
  rintro - c₅ rfl
  refine ⟨c₂, hgrows, ?_⟩
  have hunblock : (Update.unblock snapshot.key).apply
      ((c₂.states p).register snapshot.key snapshot.names) =
      (c₂.states p).register snapshot.key snapshot.names := by
    simp only [Update.apply, CacheState.register, hgrows.states, hp.unblocked,
      Finset.erase_empty]
  rw [setState_states, setState_setState, putEntry_states, hunblock, stored]

theorem gives_getOrSet_inside :
    Gives (acts p true) (getOrSet d q : CacheProgram Sql (Rows D) (Rows D)) c
      fun _ c' ↦ c' = c := by
  refine gives_transactional.bind ?_
  rintro b c₁ ⟨rfl, rfl⟩
  exact gives_runSql

/-- A hit returns the entry, and a miss publishes what SQL read. -/
theorem gives_getOrSet (hd : d.returnsDetached = .ok own) (h : c.ValidTokens)
    (hp : Tidy (c.states p)) {dependencies : Option (List ModelLabel × List Str)}
    (hq : q.dependencies = .ok dependencies) :
    Gives (acts p false) (getOrSet d q : CacheProgram Sql (Rows D) (Rows D)) c
      fun v c' ↦ ∃ tokens c₁, Grows c c₁ ∧ c₁.VectorOf d (queryScopes d q) tokens ∧
        (AfterLookup p (q.snapshot d tokens) c₁ (some v) c' ∨
          c₁.entries (q.key d tokens) = none ∧
            ∃ c₂, Grows c₁ c₂ ∧ c' = c₂.stored p (q.snapshot d tokens) v) := by
  refine gives_transactional.bind ?_
  rintro b c₀ ⟨rfl, rfl⟩
  refine (gives_keySnapshot h hp.settled hq).andThen ?_
  rintro snapshot c₁ ⟨tokens, rfl, hgrows, hvector⟩
  have hp₁ : Tidy (c₁.states p) := hgrows.states ▸ hp
  have hfenced : Gives (acts p false)
      (lookupFenced d (q.snapshot d tokens) : CacheProgram Sql (Rows D) (Option (Rows D) × ℕ)) c₁
      fun found c' ↦ AfterLookup p (q.snapshot d tokens) c₁ found.1 c' ∧
        found.2 = (c'.states p).generation := by
    refine (gives_lookup hd hgrows.valid hp₁ hvector).bind ?_
    rintro cached c₂ hlookup
    refine gives_readState.bind ?_
    rintro s c₃ ⟨rfl, rfl⟩
    exact gives_pure ⟨hlookup, rfl⟩
  refine Gives.bind (gives_novaSpan (Q := fun found c' ↦
    AfterLookup p (q.snapshot d tokens) c₁ found.1 c' ∧
      found.2 = (c'.states p).generation) fun span ↦ ?_) ?_
  · refine (gives_withLock hfenced).bind ?_
    rintro found c₂ hfound
    refine (gives_setAttribute span).bind ?_
    rintro - c₃ rfl
    exact gives_pure hfound
  rintro ⟨cached, generation⟩ c₂ ⟨hlookup, rfl⟩
  cases cached with
  | some v => exact gives_pure ⟨tokens, c₁, hgrows, hvector, .inl hlookup⟩
  | none =>
      obtain ⟨hmiss, c₃, hgrows₃, hsame⟩ := hlookup
      obtain rfl : c₂ = c₃ := hsame
      have hp₂ : Tidy (c₂.states p) := hgrows₃.states ▸ hp₁
      have hvector₂ : c₂.VectorOf d (queryScopes d q) tokens :=
        ⟨hvector.1, hgrows₃.current hvector.2⟩
      refine gives_novaSpan fun span ↦ gives_runSql.bind ?_
      rintro v c₃ hsame
      obtain rfl : c₃ = c₂ := hsame
      refine (gives_withLock (gives_publish hgrows₃.valid hp₂ hvector₂ v)).bind ?_
      rintro - c₄ ⟨c₅, hgrows₅, rfl⟩
      refine (gives_setAttribute span).bind ?_
      rintro - c₆ rfl
      exact gives_pure ⟨tokens, c₁, hgrows, hvector,
        .inr ⟨hmiss.symm, c₅, hgrows₃.trans hgrows₅, rfl⟩⟩

end GetOrSet

section Invalidation

omit [DecidableEq P] in
/-- The scope has a new token, if the backend has generations at all. -/
def Rotated (d : Deployment Sql) (scope : Scope) (c c' : CalmServer P D) : Prop :=
  if d.generation then
    ∃ token, IsGeneration token ∧ token ∉ c.used ∧ c' = (c.draw token).putToken scope token
  else c' = c

omit [DecidableEq P] in
/-- Process `p` deleted these entries and forgot their keys. -/
structure Dropped (p : P) (keys : Finset Str) (c c' : CalmServer P D) : Prop where
  tokens : c'.tokens = c.tokens
  used : c'.used = c.used
  entries : ∀ key, c'.entries key = if key ∈ keys then none else c.entries key
  others : ∀ p', p' ≠ p → c'.states p' = c.states p'
  tidy : Tidy (c'.states p)
  lists : ∀ name key, (c'.states p).Lists name key ↔ key ∉ keys ∧ (c.states p).Lists name key

@[simp] theorem setState_self (c : CalmServer P D) (p : P) : c.setState p (c.states p) = c := by
  simp [setState]

theorem gives_rotateValidated (scope : Scope) :
    Gives (acts p inside) (rotateValidated scope : CacheProgram Sql (Rows D) Unit) c
      fun _ c' ↦ ∃ token, IsGeneration token ∧ token ∉ c.used ∧
        c' = (c.draw token).putToken scope token := by
  have hrotate : Gives (acts p inside) (rotateGeneration scope : CacheProgram Sql (Rows D) Str) c
      fun token c' ↦ IsGeneration token ∧ token ∉ c.used ∧
        c' = (c.draw token).putToken scope token := by
    refine gives_newGeneration.bind ?_
    rintro token c₁ ⟨htoken, hnew, rfl⟩
    apply gives_orUnavailable
    refine gives_generationWriter.bind ?_
    rintro - c₂ rfl
    refine (gives_tokenWrite scope token false).bind ?_
    rintro written c₃ ⟨rfl, rfl⟩
    exact gives_pure ⟨htoken, hnew, rfl⟩
  refine hrotate.bind ?_
  rintro token c₁ ⟨htoken, hnew, rfl⟩
  have hvalid : validateGeneration (.str token) = .ok token := by
    simp only [validateGeneration, htoken, if_true]
  rw [hvalid]
  exact gives_done ⟨token, htoken, hnew, rfl⟩

theorem gives_rotateForWrite (hp : (c.states p).pendingGenerations = ∅) (scope : Scope) :
    Gives (acts p inside) (rotateForWrite scope : CacheProgram Sql (Rows D) Unit) c
      fun _ c' ↦ ∃ token, IsGeneration token ∧ token ∉ c.used ∧
        c' = (c.draw token).putToken scope token := by
  refine gives_update.bind ?_
  rintro - c₁ rfl
  refine (gives_rotateValidated scope).andThen ?_
  rintro - c₂ ⟨token, htoken, hnew, rfl⟩
  refine gives_update.mono ?_
  rintro - c₃ rfl
  refine ⟨token, htoken, hnew, ?_⟩
  have hpending : (Update.discardPending scope).apply
      ((Update.addPending scope).apply (c.states p)) = c.states p := by
    simp only [Update.apply, hp, Finset.insert_empty, Finset.erase_singleton]
    rw [← hp]
  have hstates : (((c.setState p ((Update.addPending scope).apply (c.states p))).draw
      token).putToken scope token).states p = (Update.addPending scope).apply (c.states p) :=
    setState_states c p _
  rw [hstates, hpending]
  show ((c.draw token).putToken scope token |>.setState p _ |>.setState p _) = _
  rw [setState_setState]
  exact setState_self ((c.draw token).putToken scope token) p

/-- The deletions of `invalidate_model`, in their order. -/
def dropKeys (p : P) (order : List Str) (c : CalmServer P D) : CalmServer P D :=
  { c with
    entries := fun key ↦ if key ∈ order then none else c.entries key
    states := Function.update c.states p ((c.states p).unregisterAll order) }

theorem dropKeys_cons (key : Str) (rest : List Str) :
    dropKeys p (key :: rest) c =
      dropKeys p rest ((c.dropEntry key).setState p ((c.states p).unregister key)) := by
  simp only [dropKeys, dropEntry, setState, Function.update_self, Function.update_idem,
    CalmServer.mk.injEq, and_true]
  refine ⟨rfl, ?_⟩
  funext k
  simp only [List.mem_cons, Function.update_apply]
  grind

theorem gives_deleteKeys (order : List Str) (n : ℕ) :
    Gives (acts p inside) (deleteKeys order n : CacheProgram Sql (Rows D) ℕ) c
      fun _ c' ↦ c' = dropKeys p order c := by
  induction order generalizing c n with
  | nil =>
      refine gives_pure ?_
      simp [dropKeys, CacheState.unregisterAll]
  | cons key rest ih =>
      have hdelete : Gives (acts p inside)
          (ask (.backendDelete key) : CacheProgram Sql (Rows D) Bool) c
          fun _ c' ↦ c' = c.dropEntry key := gives_ask fun _ _ h ↦ h.2
      refine hdelete.andThen ?_
      rintro found c₁ rfl
      refine (gives_withLock gives_update).bind ?_
      rintro - c₂ rfl
      rw [dropKeys_cons]
      exact ih _

omit [DecidableEq P] in
theorem Rotated.states {scope : Scope} (h : Rotated d scope c c') : c'.states = c.states := by
  unfold Rotated at h
  split at h
  · obtain ⟨token, -, -, rfl⟩ := h
    rfl
  · rw [h]

omit [DecidableEq P] in
theorem Rotated.entries {scope : Scope} (h : Rotated d scope c c') : c'.entries = c.entries := by
  unfold Rotated at h
  split at h
  · obtain ⟨token, -, -, rfl⟩ := h
    rfl
  · rw [h]

/-- A state with the same index and guards is as tidy. -/
theorem Tidy.sameIndex {s s' : CacheState} (h : Tidy s) (hsame : s.SameIndex s')
    (hclear : s'.clearFailed = s.clearFailed)
    (hpending : s'.pendingGenerations = s.pendingGenerations) : Tidy s' :=
  ⟨hsame.mirrored h.mirrored, hclear.trans h.readable, hsame.invalidatedKeys.trans h.unblocked,
    hpending.trans h.settled⟩

theorem dropped_nothing {s : CacheState} (hp : Tidy (c.states p))
    (hsame : (c.states p).SameIndex s) (hclear : s.clearFailed = (c.states p).clearFailed)
    (hpending : s.pendingGenerations = (c.states p).pendingGenerations) :
    Dropped p ∅ c (c.setState p s) where
  tokens := rfl
  used := rfl
  entries _ := by simp [setState]
  others p' hne := Function.update_of_ne hne _ _
  tidy := by
    rw [setState_states]
    exact hp.sameIndex hsame hclear hpending
  lists name key := by
    rw [setState_states, hsame.lists]
    simp

theorem gives_keyOrder (keys : Finset Str) :
    Gives (acts p inside) (ask (.keyOrder keys) : CacheProgram Sql (Rows D) (List Str)) c
      fun (order : List Str) c' ↦ order.toFinset = keys ∧ c' = c := gives_ask fun _ _ h ↦ h.2

theorem unregisterAll_flags (order : List Str) (s : CacheState) :
    (s.unregisterAll order).clearFailed = s.clearFailed ∧
      (s.unregisterAll order).pendingGenerations = s.pendingGenerations := by
  induction order generalizing s with
  | nil => exact ⟨rfl, rfl⟩
  | cons key rest ih => exact ih (s.unregister key)

theorem dropped_keys {keys : Finset Str} {s : CacheState} {order : List Str}
    (hp : Tidy (c.states p)) (hsame : (c.states p).SameIndex s)
    (hclear : s.clearFailed = (c.states p).clearFailed)
    (hpending : s.pendingGenerations = (c.states p).pendingGenerations)
    (hkeys : ∀ key ∈ keys, ∃ name, (c.states p).Lists name key)
    (horder : order.toFinset = keys) :
    Dropped p keys c (dropKeys p order (c.setState p (s.block keys))) := by
  have hmem : ∀ key, key ∈ order ↔ key ∈ keys := fun key ↦ by rw [← horder, List.mem_toFinset]
  have hstate : (dropKeys p order (c.setState p (s.block keys))).states p =
      (s.block keys).unregisterAll order := by
    simp [dropKeys, setState]
  have hblock : (s.block keys).Mirrored := by
    refine (hsame.mirrored hp.mirrored).block fun key hkey ↦ ?_
    obtain ⟨name, hname⟩ := hkeys key hkey
    exact (hsame.mirrored hp.mirrored).named (hsame.lists.mpr hname)
  have hrest := unregisterAll_flags order (s.block keys)
  refine ⟨rfl, rfl, fun key ↦ ?_, fun p' hne ↦ ?_, ?_, fun name key ↦ ?_⟩
  · simp only [dropKeys, setState, hmem]
  · simp [dropKeys, setState, hne]
  · rw [hstate]
    refine ⟨hblock.unregisterAll order, ?_, ?_, ?_⟩
    · exact hrest.1.trans (hclear.trans hp.readable)
    · refine Finset.eq_empty_of_forall_notMem fun key hkey ↦ ?_
      obtain ⟨hout, hin⟩ := (CacheState.mem_invalidatedKeys_unregisterAll order).mp hkey
      rw [hmem] at hout
      simp only [CacheState.block, hsame.invalidatedKeys, hp.unblocked, Finset.empty_union] at hin
      exact hout hin
    · exact hrest.2.trans (hpending.trans hp.settled)
  · rw [hstate, CacheState.lists_unregisterAll hblock, hmem]
    exact and_congr_right fun _ ↦ hsame.lists

theorem gives_invalidateLocked (hp : Tidy (c.states p)) (span : Bool) (modelName db : Str) :
    Gives (acts p inside)
      (invalidateLocked d span modelName db : CacheProgram Sql (Rows D) (Option ℕ)) c
      fun _ c' ↦ ∃ c₁, Rotated d (generationScope (shortModelName d.lower modelName) db) c c₁ ∧
        Dropped p ((c.states p).invalidationKeys d.databaseDigest
          (normalizeModelNames d.lower modelName) db) c₁ c' := by
  refine gives_update.bind ?_
  rintro - c₁ rfl
  generalize hs : Update.bumpGeneration.apply (c.states p) = s
  have hsame : (c.states p).SameIndex s := hs ▸ ⟨rfl, rfl, rfl⟩
  have hclear : s.clearFailed = (c.states p).clearFailed := hs ▸ rfl
  have hpending : s.pendingGenerations = (c.states p).pendingGenerations := hs ▸ rfl
  have hrotate : Gives (acts p inside)
      (onlyIf d.generation (rotateForWrite (generationScope (shortModelName d.lower modelName) db))
        : CacheProgram Sql (Rows D) Unit) (c.setState p s)
      fun _ c' ↦ ∃ c₁, Rotated d (generationScope (shortModelName d.lower modelName) db) c c₁ ∧
        c' = c₁.setState p s := by
    unfold onlyIf Rotated
    split
    · refine (gives_rotateForWrite (by rw [setState_states, hpending, hp.settled]) _).mono ?_
      rintro - c' ⟨token, htoken, hnew, rfl⟩
      exact ⟨_, ⟨token, htoken, hnew, rfl⟩, rfl⟩
    · exact gives_pure ⟨c, rfl, rfl⟩
  refine hrotate.bind ?_
  rintro - c₂ ⟨c₁, hrotated, rfl⟩
  refine gives_readState.bind ?_
  rintro s' c₃ ⟨hs', rfl⟩
  rw [setState_states] at hs'
  subst hs'
  rw [← hrotated.states] at hp hsame hclear hpending ⊢
  rw [hsame.invalidationKeys]
  generalize hkeys : (c₁.states p).invalidationKeys d.databaseDigest
    (normalizeModelNames d.lower modelName) db = keys
  dsimp only
  split
  · rename_i hempty
    refine (gives_setAttribute span).bind ?_
    rintro - c₄ rfl
    exact gives_pure ⟨c₁, hrotated, hempty ▸ dropped_nothing hp hsame hclear hpending⟩
  · refine gives_update.bind ?_
    rintro - c₄ rfl
    rw [setState_states, setState_setState]
    refine (gives_keyOrder keys).bind ?_
    rintro order c₅ ⟨htoFinset, rfl⟩
    refine (gives_deleteKeys order 0).bind ?_
    rintro deleted c₆ rfl
    have hlisted : ∀ key ∈ keys, ∃ name, (c₁.states p).Lists name key := by
      intro key hkey
      rw [← hkeys] at hkey
      obtain ⟨⟨name, -, hname⟩, -⟩ := CacheState.mem_invalidationKeys.mp hkey
      exact ⟨name, hname⟩
    exact gives_pure ⟨c₁, hrotated, dropped_keys hp hsame hclear hpending hlisted htoFinset⟩

/-- A blank name changes nothing. -/
theorem gives_invalidateModel (hp : Tidy (c.states p)) (modelName db : Str) :
    Gives (acts p inside) (invalidateModel d modelName db : CacheProgram Sql (Rows D) ℕ) c
      fun _ c' ↦ normalizeModelNames d.lower modelName = ∅ ∧ c' = c ∨
        normalizeModelNames d.lower modelName ≠ ∅ ∧
        ∃ c₁, Rotated d (generationScope (shortModelName d.lower modelName) db) c c₁ ∧
          Dropped p ((c.states p).invalidationKeys d.databaseDigest
            (normalizeModelNames d.lower modelName) db) c₁ c' := by
  refine gives_novaSpan fun span ↦ ?_
  split
  · rename_i hblank
    refine (gives_setAttribute span).bind ?_
    rintro - c₁ rfl
    exact gives_pure (.inl ⟨hblank, rfl⟩)
  · rename_i hname
    refine (gives_withLock (gives_invalidateLocked hp span modelName db)).bind ?_
    rintro counted c₁ hdropped
    cases counted with
    | none => exact gives_pure (.inr ⟨hname, hdropped⟩)
    | some deleted =>
        refine (gives_setAttribute span).bind ?_
        rintro - c₂ rfl
        exact gives_pure (.inr ⟨hname, hdropped⟩)

end Invalidation

theorem gives_clear :
    Gives (acts p inside) (clear : CacheProgram Sql (Rows D) Unit) c
      fun _ c' ↦ ∃ generation, c' = c.wipe.setState p
        { CacheState.initial with generation := generation } := by
  refine gives_withLock (gives_update.bind ?_)
  rintro - c₁ rfl
  have hclear : Gives (acts p inside) (ask .backendClear : CacheProgram Sql (Rows D) Unit)
      (c.setState p (Update.bumpGeneration.apply (c.states p)))
      fun _ c' ↦ c' = (c.setState p (Update.bumpGeneration.apply (c.states p))).wipe :=
    gives_ask fun _ _ h ↦ h
  refine hclear.andThen ?_
  rintro - c₂ rfl
  refine gives_update.mono ?_
  rintro - c₃ rfl
  exact ⟨_, setState_setState c.wipe p _ _⟩

end CalmServer

end DjangoNova
