import DjangoNova.Cache.CalmServer
import DjangoNova.Cache.KeyIndex

/-!
# Reads around a calm server

What the metadata reads, the key snapshot and the guarded lookup give when
nothing fails. A read may create the tokens that are missing; it changes no
token that is there.
-/

namespace DjangoNova

open Program QuerySetCache
open Tracing (onlyIf suppress enterSpan)

namespace CalmServer

variable {P Sql D α : Type} {c c' c'' : CalmServer P D}

/-- The stored tokens are valid and were drawn. -/
def ValidTokens (c : CalmServer P D) : Prop :=
  ∀ scope s, c.tokens scope = some s → IsGeneration s ∧ s ∈ c.used

/-- The tokens of the vector are the stored ones. -/
def Current (c : CalmServer P D) (tokens : List (Scope × Str)) : Prop :=
  ∀ st ∈ tokens, c.tokens st.1 = some st.2

/-- The second server is the first one with new tokens where there were none. -/
structure Grows (c c' : CalmServer P D) : Prop where
  states : c'.states = c.states
  entries : c'.entries = c.entries
  used : c.used ⊆ c'.used
  kept : ∀ scope s, c.tokens scope = some s → c'.tokens scope = some s
  fresh : ∀ scope s, c'.tokens scope = some s → c.tokens scope = some s ∨ s ∉ c.used
  valid : c'.ValidTokens

theorem Grows.refl (h : c.ValidTokens) : Grows c c :=
  ⟨rfl, rfl, subset_rfl, fun _ _ ↦ id, fun _ _ ↦ .inl, h⟩

theorem Grows.trans (h : Grows c c') (h' : Grows c' c'') : Grows c c'' where
  states := h'.states.trans h.states
  entries := h'.entries.trans h.entries
  used := h.used.trans h'.used
  kept scope s hs := h'.kept scope s (h.kept scope s hs)
  fresh scope s hs := by
    rcases h'.fresh scope s hs with hold | hnew
    · exact h.fresh scope s hold
    · exact .inr fun hmem ↦ hnew (h.used hmem)
  valid := h'.valid

theorem Grows.current (h : Grows c c') {tokens : List (Scope × Str)} (ht : c.Current tokens) :
    c'.Current tokens := fun st hst ↦ h.kept _ _ (ht st hst)

theorem grows_putToken (h : c.ValidTokens) {scope : Scope} {s : Str} (hs : IsGeneration s)
    (hnew : s ∉ c.used) (habsent : c.tokens scope = none) :
    Grows c ((c.draw s).putToken scope s) where
  states := rfl
  entries := rfl
  used := Set.subset_insert s c.used
  kept scope' s' hs' := by
    have hne : scope' ≠ scope := by
      rintro rfl
      rw [habsent] at hs'
      cases hs'
    simpa [putToken, draw, hne] using hs'
  fresh scope' s' hs' := by
    by_cases hscope : scope' = scope
    · subst hscope
      obtain rfl : s = s' := by simpa [putToken] using hs'
      exact .inr hnew
    · exact .inl (by simpa [putToken, draw, hscope] using hs')
  valid scope' s' hs' := by
    by_cases hscope : scope' = scope
    · subst hscope
      obtain rfl : s = s' := by simpa [putToken] using hs'
      exact ⟨hs, Set.mem_insert s c.used⟩
    · obtain ⟨hvalid, hused⟩ := h scope' s' (by simpa [putToken, draw, hscope] using hs')
      exact ⟨hvalid, Set.mem_insert_of_mem s hused⟩

variable [DecidableEq P] {p : P} {inside : Bool} {Q : α → CalmServer P D → Prop}

theorem gives_ask {e : CacheEffect Sql (Rows D)} {Qe : e.Reply → CalmServer P D → Prop}
    (h : ∀ a c', Serves p inside c e a c' → Qe a c') : Gives (acts p inside) (ask e) c Qe := by
  refine gives_call ?_
  rintro r c' ⟨a, rfl, ha⟩
  exact ⟨a, rfl, h a c' ha⟩

theorem gives_update {u : Update} :
    Gives (acts p inside) (update u : CacheProgram Sql (Rows D) Unit) c
      fun _ c' ↦ c' = c.setState p (u.apply (c.states p)) :=
  gives_ask fun _ _ h ↦ h

theorem gives_acquire :
    Gives (acts p inside) (ask .acquire : CacheProgram Sql (Rows D) Unit) c
      fun _ c' ↦ c' = c := gives_ask fun _ _ h ↦ h

theorem gives_withLock {body : CacheProgram Sql (Rows D) α} (h : Gives (acts p inside) body c Q) :
    Gives (acts p inside) (withLock body) c Q := by
  refine gives_acquire.bind ?_
  rintro - c' rfl
  refine h.tryFinally fun a c₁ ha ↦ (gives_ask fun _ c₂ hc ↦ ?_)
  obtain rfl : c₂ = c₁ := hc
  exact ha

section Spans

theorem gives_spanCall (s : SpanCall) :
    Gives (acts p inside) (spanCall s : CacheProgram Sql (Rows D) Bool) c
      fun _ c' ↦ c' = c := gives_ask fun _ _ h ↦ h

theorem gives_suppress (s : SpanCall) :
    Gives (acts p inside) (suppress (spanCall s) : CacheProgram Sql (Rows D) Unit) c
      fun _ c' ↦ c' = c := by
  refine (gives_spanCall s).andThen ?_
  rintro - c' rfl
  exact gives_pure rfl

theorem gives_setAttribute (span : Bool) :
    Gives (acts p inside) (setAttribute span : CacheProgram Sql (Rows D) Unit) c
      fun _ c' ↦ c' = c := by
  cases span with
  | false => exact gives_pure rfl
  | true =>
      refine (gives_spanCall _).bind ?_
      rintro - c' rfl
      exact gives_pure rfl

theorem gives_enterSpan :
    Gives (acts p inside) (enterSpan spanCall : CacheProgram Sql (Rows D) (Option Bool)) c
      fun _ c' ↦ c' = c := by
  refine Gives.tryCatch ((gives_spanCall .getTracer).tryCatch.bind ?_)
  rintro available c' rfl
  cases available with
  | false => exact gives_pure rfl
  | true =>
      refine (gives_spanCall .start).bind ?_
      rintro - c' rfl
      refine (gives_spanCall .enter).bind ?_
      rintro span c' rfl
      exact gives_pure rfl

/-- A span adds nothing to a block that raises nothing. -/
theorem gives_novaSpan {body : Bool → CacheProgram Sql (Rows D) α}
    (h : ∀ span, Gives (acts p inside) (body span) c Q) :
    Gives (acts p inside) (novaSpan body) c Q := by
  refine gives_enterSpan.bind ?_
  rintro entered c' rfl
  cases entered with
  | none => exact h false
  | some span =>
      refine (h span).andThen fun a c₁ ha ↦ ?_
      have hstatus : Gives (acts p inside)
          (onlyIf span (suppress (spanCall .setStatus)) : CacheProgram Sql (Rows D) Unit) c₁
          fun _ c' ↦ c' = c₁ := by
        cases span with
        | false => exact gives_pure rfl
        | true => exact gives_suppress _
      refine hstatus.bind ?_
      rintro - c' rfl
      refine (gives_suppress .exit).bind ?_
      rintro - c' rfl
      exact gives_pure ha

end Spans

section Tokens

theorem gives_tokenGet (scope : Scope) :
    Gives (acts p inside) (ask (.tokenGet scope) : CacheProgram Sql (Rows D) (Option Raw)) c
      fun raw c' ↦ raw = (c.tokens scope).map (.bytes ∘ encodeAscii) ∧ c' = c :=
  gives_ask fun _ _ h ↦ h

theorem gives_generationWriter :
    Gives (acts p inside) (ask .generationWriter : CacheProgram Sql (Rows D) Unit) c
      fun _ c' ↦ c' = c := gives_ask fun _ _ h ↦ h

theorem gives_newGeneration :
    Gives (acts p inside) (ask .newGeneration : CacheProgram Sql (Rows D) Str) c
      fun token c' ↦ IsGeneration token ∧ token ∉ c.used ∧ c' = c.draw token :=
  gives_ask fun _ _ h ↦ h

theorem gives_tokenWrite (scope : Scope) (token : Str) (onlyIfAbsent : Bool) :
    Gives (acts p inside)
      (ask (.tokenWrite scope token onlyIfAbsent) : CacheProgram Sql (Rows D) Bool) c
      fun written c' ↦
        if onlyIfAbsent && (c.tokens scope).isSome then written = false ∧ c' = c
        else written = true ∧ c' = c.putToken scope token :=
  gives_ask fun _ _ h ↦ h

theorem gives_orUnavailable {body : CacheProgram Sql (Rows D) α}
    (h : Gives (acts p inside) body c Q) : Gives (acts p inside) (orUnavailable body) c Q :=
  h.tryCatch

theorem gives_present (h : c.ValidTokens) {scope : Scope} {s : Str} (hs : c.tokens scope = some s)
    (attempts : ℕ) :
    Gives (acts p inside)
      (getGenerationLoop scope (attempts + 1) : CacheProgram Sql (Rows D) Str) c
      fun token c' ↦ token = s ∧ c' = c := by
  refine (gives_tokenGet scope).bind ?_
  rintro raw c' ⟨rfl, rfl⟩
  rw [hs]
  show Gives _ (.done (validateGeneration (.bytes (encodeAscii s)))) _ _
  rw [validateGeneration_encode (h scope s hs).1]
  exact gives_done ⟨rfl, rfl⟩

theorem gives_getGeneration (h : c.ValidTokens) (scope : Scope) :
    Gives (acts p inside) (getGeneration scope : CacheProgram Sql (Rows D) Str) c
      fun token c' ↦ Grows c c' ∧ c'.tokens scope = some token := by
  apply gives_orUnavailable
  refine gives_generationWriter.bind ?_
  rintro - c' rfl
  cases hs : c'.tokens scope with
  | some s =>
      refine (gives_present h hs 2).mono ?_
      rintro token c' ⟨rfl, rfl⟩
      exact ⟨.refl h, hs⟩
  | none =>
      refine (gives_tokenGet scope).bind ?_
      rintro raw c₁ ⟨rfl, rfl⟩
      rw [hs]
      refine gives_newGeneration.bind ?_
      rintro token c₂ ⟨htoken, hnew, rfl⟩
      refine (gives_tokenWrite scope token true).bind ?_
      rintro written c₃ hwrite
      have habsent : (c₁.draw token).tokens scope = none := hs
      rw [habsent, Option.isSome_none, Bool.and_false, if_neg Bool.false_ne_true] at hwrite
      obtain ⟨-, rfl⟩ := hwrite
      have hgrows := grows_putToken h htoken hnew hs
      have hstored : ((c₁.draw token).putToken scope token).tokens scope = some token :=
        Function.update_self ..
      refine (gives_present hgrows.valid hstored 1).mono ?_
      rintro s c' ⟨rfl, rfl⟩
      exact ⟨hgrows, hstored⟩

theorem gives_getEach (h : c.ValidTokens) (scopes : List Scope) :
    Gives (acts p inside) (getEach scopes : CacheProgram Sql (Rows D) (List (Scope × Str))) c
      fun tokens c' ↦ Grows c c' ∧ tokens.map Prod.fst = scopes ∧ c'.Current tokens := by
  induction scopes generalizing c with
  | nil => exact gives_pure ⟨.refl h, rfl, fun st hst ↦ absurd hst List.not_mem_nil⟩
  | cons scope rest ih =>
      refine (gives_getGeneration h scope).bind ?_
      rintro token c₁ ⟨hgrows, htoken⟩
      refine (ih hgrows.valid).bind ?_
      rintro tokens c₂ ⟨hrest, hscopes, htokens⟩
      refine gives_pure ⟨hgrows.trans hrest, by rw [List.map_cons, hscopes], fun st hst ↦ ?_⟩
      rcases List.mem_cons.mp hst with rfl | hst
      · exact hrest.kept _ _ htoken
      · exact htokens st hst

theorem gives_readRaw (scopes : List Scope) :
    Gives (acts p inside)
      (readRaw scopes : CacheProgram Sql (Rows D) (List (Scope × Option Raw))) c
      fun raws c' ↦ c' = c ∧
        raws = scopes.map fun s ↦ (s, (c.tokens s).map (.bytes ∘ encodeAscii)) := by
  induction scopes with
  | nil => exact gives_pure ⟨rfl, rfl⟩
  | cons scope rest ih =>
      refine (gives_tokenGet scope).bind ?_
      rintro raw c₁ ⟨rfl, rfl⟩
      refine ih.bind ?_
      rintro raws c₂ ⟨rfl, rfl⟩
      exact gives_pure ⟨rfl, rfl⟩

omit [DecidableEq P] in
/-- The valid values of a batch read. -/
theorem validatePresent_stored (h : c.ValidTokens) (scopes : List Scope) :
    ∃ tokens, validatePresent (scopes.map fun s ↦ (s, (c.tokens s).map (.bytes ∘ encodeAscii))) =
      .ok tokens ∧ ∀ scope s, (scope, s) ∈ tokens ↔ scope ∈ scopes ∧ c.tokens scope = some s := by
  induction scopes with
  | nil => exact ⟨[], rfl, fun _ _ ↦ by simp⟩
  | cons scope rest ih =>
      obtain ⟨tokens, htokens, hmem⟩ := ih
      cases hs : c.tokens scope with
      | none =>
          refine ⟨tokens, ?_, fun scope' s ↦ ?_⟩
          · simp only [List.map_cons, hs, Option.map_none, validatePresent]
            exact htokens
          · rw [hmem, List.mem_cons]
            grind
      | some s =>
          refine ⟨(scope, s) :: tokens, ?_, fun scope' s' ↦ ?_⟩
          · simp only [List.map_cons, hs, Option.map_some, validatePresent, Function.comp_apply,
              validateGeneration_encode (h scope s hs).1, htokens]
            rfl
          · rw [List.mem_cons, hmem, List.mem_cons]
            grind

/-- The tokens of a vector, one for each scope and in their order. -/
theorem gives_getGenerations (h : c.ValidTokens) (readMany : Bool) (scopes : List Scope) :
    Gives (acts p inside)
      (getGenerations readMany scopes : CacheProgram Sql (Rows D) (List (Scope × Str))) c
      fun tokens c' ↦ Grows c c' ∧ c'.Current tokens ∧
        ∀ scope ∈ scopes, scope ∈ tokens.map Prod.fst := by
  unfold getGenerations
  have hdups : ∀ scope ∈ scopes, scope ∈ scopes.eraseDups := fun _ ↦ List.mem_eraseDups.mpr
  generalize scopes.eraseDups = distinct at hdups
  split
  · refine gives_pure ⟨.refl h, fun st hst ↦ ?_, fun scope hscope ↦ ?_⟩
    · exact absurd hst List.not_mem_nil
    · exact absurd (hdups scope hscope) List.not_mem_nil
  · apply gives_orUnavailable
    refine gives_generationWriter.bind ?_
    rintro - c₀ rfl
    cases readMany with
    | false =>
        refine (gives_getEach h distinct).mono ?_
        rintro tokens c₁ ⟨hgrows, hscopes, htokens⟩
        exact ⟨hgrows, htokens, fun scope hscope ↦ hscopes ▸ hdups scope hscope⟩
    | true =>
        refine (gives_readRaw distinct).bind ?_
        rintro raws c₁ ⟨rfl, rfl⟩
        obtain ⟨present, hpresent, hmem⟩ := validatePresent_stored h distinct
        rw [hpresent]
        refine (gives_done (Q := fun tokens c' ↦ tokens = present ∧ c' = c₁) ⟨rfl, rfl⟩).bind ?_
        rintro tokens c₂ ⟨rfl, rfl⟩
        refine (gives_getEach h _).bind ?_
        rintro missing c₃ ⟨hgrows, hscopes, hmissing⟩
        refine gives_pure ⟨hgrows, fun st hst ↦ ?_, fun scope hscope ↦ ?_⟩
        · rcases List.mem_append.mp hst with hst | hst
          · exact hgrows.kept _ _ ((hmem _ _).mp hst).2
          · exact hmissing st hst
        · rw [List.map_append, List.mem_append, hscopes]
          cases hs : c₂.tokens scope with
          | some s =>
              exact .inl (List.mem_map_of_mem ((hmem scope s).mpr ⟨hdups scope hscope, hs⟩))
          | none =>
              refine .inr (List.mem_map.mpr ⟨(scope, none), List.mem_filter.mpr ⟨?_, rfl⟩, rfl⟩)
              exact List.mem_map.mpr ⟨scope, hdups scope hscope, by rw [hs, Option.map_none]⟩

variable {d : Deployment Sql}

theorem gives_readTokens (h : c.ValidTokens) (scopes : List Scope) :
    Gives (acts p inside)
      (readTokens d scopes : CacheProgram Sql (Rows D) (List (Scope × Str))) c
      fun tokens c' ↦ Grows c c' ∧ c'.Current tokens ∧
        ∀ scope ∈ scopes, scope ∈ tokens.map Prod.fst := by
  unfold readTokens
  split
  · exact gives_getGenerations h d.readMany scopes
  · refine (gives_getEach h scopes).mono ?_
    rintro tokens c₁ ⟨hgrows, hscopes, htokens⟩
    exact ⟨hgrows, htokens, fun scope hscope ↦ hscopes.symm ▸ hscope⟩

omit [DecidableEq P] in
theorem selectTokens_current (h : c.ValidTokens) {tokens : List (Scope × Str)}
    (htokens : c.Current tokens) (scopes : List Scope)
    (hscopes : ∀ scope ∈ scopes, scope ∈ tokens.map Prod.fst) :
    ∃ selected, selectTokens tokens scopes = .ok selected ∧ selected.map Prod.fst = scopes ∧
      c.Current selected := by
  induction scopes with
  | nil => exact ⟨[], rfl, rfl, fun st hst ↦ absurd hst List.not_mem_nil⟩
  | cons scope rest ih =>
      obtain ⟨selected, hselected, hrest, hcurrent⟩ :=
        ih fun s hs ↦ hscopes s (List.mem_cons_of_mem scope hs)
      obtain ⟨s, hs⟩ : ∃ s, tokens.lookup scope = some s := by
        cases hlookup : tokens.lookup scope with
        | some s => exact ⟨s, rfl⟩
        | none =>
            obtain ⟨st, hst, rfl⟩ := List.mem_map.mp (hscopes scope List.mem_cons_self)
            simpa using List.lookup_eq_none_iff.mp hlookup st hst
      have hstored : c.tokens scope = some s := by
        obtain ⟨before, after, rfl, -⟩ := List.lookup_eq_some_iff.mp hs
        exact htokens (scope, s) (by simp)
      refine ⟨(scope, s) :: selected, ?_, by rw [List.map_cons, hrest], ?_⟩
      · simp only [selectTokens, hs, validateGeneration, (h scope s hstored).1, if_true, hselected]
        rfl
      · rintro st hst
        rcases List.mem_cons.mp hst with rfl | hst
        · exact hstored
        · exact hcurrent st hst

/-- The tokens of a vector, as a snapshot of the scopes holds them. -/
def VectorOf (d : Deployment Sql) (c : CalmServer P D) (scopes : List Scope)
    (tokens : List (Scope × Str)) : Prop :=
  tokens.map Prod.fst = (if d.generation then scopes else []) ∧ c.Current tokens

omit [DecidableEq P] in
theorem Current.unique {tokens tokens' : List (Scope × Str)} (h : c.Current tokens)
    (h' : c.Current tokens') (hscopes : tokens.map Prod.fst = tokens'.map Prod.fst) :
    tokens = tokens' := by
  induction tokens generalizing tokens' with
  | nil => exact (List.map_eq_nil_iff.mp hscopes.symm).symm
  | cons st rest ih =>
      cases tokens' with
      | nil => cases hscopes
      | cons st' rest' =>
          obtain ⟨hscope, hrest⟩ := List.cons.inj hscopes
          have htoken := h st List.mem_cons_self
          rw [hscope, h' st' List.mem_cons_self] at htoken
          rw [Prod.ext hscope (Option.some.inj htoken).symm,
            ih (fun st hst ↦ h st (List.mem_cons_of_mem _ hst))
              (fun st hst ↦ h' st (List.mem_cons_of_mem _ hst)) hrest]

omit [DecidableEq P] in
theorem VectorOf.unique {scopes : List Scope} {tokens tokens' : List (Scope × Str)}
    (h : c.VectorOf d scopes tokens) (h' : c.VectorOf d scopes tokens') : tokens = tokens' :=
  h.2.unique h'.2 (h.1.trans h'.1.symm)

theorem gives_readState :
    Gives (acts p inside) (ask .readState : CacheProgram Sql (Rows D) CacheState) c
      fun s c' ↦ s = c.states p ∧ c' = c := gives_ask fun _ _ h ↦ h

theorem gives_rotatePending (h : (c.states p).pendingGenerations = ∅) (scopes : List Scope) :
    Gives (acts p inside) (rotatePending scopes : CacheProgram Sql (Rows D) Unit) c
      fun _ c' ↦ c' = c := by
  induction scopes with
  | nil => exact gives_pure rfl
  | cons scope rest ih =>
      refine gives_readState.bind ?_
      rintro s c₁ ⟨rfl, rfl⟩
      rw [h, onlyIf, if_neg (Finset.notMem_empty scope)]
      refine (gives_pure (Q := fun _ c' ↦ c' = c₁) rfl).bind ?_
      rintro - c₂ rfl
      exact ih

theorem gives_readGenerations (h : c.ValidTokens) (hp : (c.states p).pendingGenerations = ∅)
    (scopes : List Scope) :
    Gives (acts p inside)
      (readGenerations d scopes : CacheProgram Sql (Rows D) (List (Scope × Str))) c
      fun tokens c' ↦ Grows c c' ∧ c'.VectorOf d scopes tokens := by
  unfold readGenerations
  split
  · rename_i hd
    apply gives_withLock
    apply gives_orUnavailable
    refine (gives_rotatePending hp scopes).bind ?_
    rintro - c₁ rfl
    refine (gives_readTokens h scopes).bind ?_
    rintro tokens c₂ ⟨hgrows, htokens, hscopes⟩
    obtain ⟨selected, hselected, hmap, hcurrent⟩ :=
      selectTokens_current hgrows.valid htokens scopes hscopes
    rw [hselected]
    exact gives_done ⟨hgrows, by rw [hmap, if_pos hd], hcurrent⟩
  · rename_i hd
    exact gives_pure ⟨.refl h, by simp [hd], fun st hst ↦ absurd hst List.not_mem_nil⟩

theorem gives_generationsMatch (h : c.ValidTokens) (hp : (c.states p).pendingGenerations = ∅)
    {snapshot : KeySnapshot} {scopes : List Scope}
    (hs : c.VectorOf d scopes snapshot.generations) :
    Gives (acts p inside) (generationsMatch d snapshot : CacheProgram Sql (Rows D) Bool) c
      fun matching c' ↦ matching = true ∧ Grows c c' := by
  unfold generationsMatch
  split
  · exact gives_pure ⟨rfl, .refl h⟩
  · rename_i hne
    have hd : d.generation = true := by
      by_contra hd
      exact hne (List.map_eq_nil_iff.mp (hs.1.trans (if_neg hd)))
    refine (gives_readGenerations h hp _).andThen ?_
    rintro current c₁ ⟨hgrows, hmap, hcurrent⟩
    rw [if_pos hd] at hmap
    exact gives_pure ⟨decide_eq_true (hcurrent.unique (hgrows.current hs.2) hmap), hgrows⟩

end Tokens

section Lookups

variable {d : Deployment Sql}

/-- A process whose earlier calls have left nothing to repair. -/
structure Tidy (s : CacheState) : Prop where
  mirrored : s.Mirrored
  readable : s.clearFailed = false
  unblocked : s.invalidatedKeys = ∅
  settled : s.pendingGenerations = ∅

theorem gives_copyRows (v : Rows D) :
    Gives (acts p inside) (ask (.copyRows v) : CacheProgram Sql (Rows D) (Rows D)) c
      fun copy c' ↦ copy = v ∧ c' = c := gives_ask fun _ _ h ↦ h

theorem gives_backendGet {own : Bool} (hd : d.returnsDetached = .ok own) (snapshot : KeySnapshot) :
    Gives (acts p inside) (backendGet d snapshot : CacheProgram Sql (Rows D) (Option (Rows D))) c
      fun cached c' ↦ cached = c.entries snapshot.key ∧ c' = c := by
  have hget : Gives (acts p inside)
      (ask (.backendGet snapshot.key) : CacheProgram Sql (Rows D) (Option (Stored (Rows D)))) c
      fun stored c' ↦ stored = (c.entries snapshot.key).map .rows ∧ c' = c :=
    gives_ask fun _ _ h ↦ h
  refine hget.andThen ?_
  rintro stored c₁ ⟨rfl, rfl⟩
  cases hentry : c₁.entries snapshot.key with
  | none => exact gives_pure ⟨rfl, rfl⟩
  | some v =>
      apply Gives.tryCatch
      unfold detach
      rw [hd]
      cases own with
      | true => exact gives_pure ⟨rfl, rfl⟩
      | false =>
          refine (gives_copyRows v).bind ?_
          rintro copy c₂ ⟨hcopy, hsame⟩
          exact gives_pure ⟨congrArg some hcopy, hsame⟩

theorem gives_registerKey (key : Str) (names : Finset Str) :
    Gives (acts p inside) (registerKey key names : CacheProgram Sql (Rows D) Unit) c
      fun _ c' ↦ c' = c.setState p ((c.states p).register key names) :=
  gives_withLock gives_update

/-- A hit also registers its key. -/
def AfterLookup (p : P) (snapshot : KeySnapshot) (c : CalmServer P D) (cached : Option (Rows D))
    (c' : CalmServer P D) : Prop :=
  cached = c.entries snapshot.key ∧ ∃ c₁, Grows c c₁ ∧
    c' = if cached.isSome then
        c₁.setState p ((c₁.states p).register snapshot.key snapshot.names)
      else c₁

theorem gives_lookup {own : Bool} (hd : d.returnsDetached = .ok own) (h : c.ValidTokens)
    (hp : Tidy (c.states p)) {snapshot : KeySnapshot} {scopes : List Scope}
    (hs : c.VectorOf d scopes snapshot.generations) :
    Gives (acts p inside) (lookup d snapshot : CacheProgram Sql (Rows D) (Option (Rows D))) c
      fun cached c' ↦ AfterLookup p snapshot c cached c' := by
  refine gives_readState.bind ?_
  rintro s c₁ ⟨rfl, rfl⟩
  simp only [hp.readable, hp.unblocked, Finset.notMem_empty, not_false_eq_true, Bool.not_false,
    decide_true, Bool.and_self, if_true]
  refine (gives_backendGet hd snapshot).bind ?_
  rintro cached c₂ ⟨rfl, rfl⟩
  cases hentry : c₂.entries snapshot.key with
  | none => exact gives_pure ⟨hentry.symm, c₂, .refl h, rfl⟩
  | some v =>
      refine (gives_generationsMatch h hp.settled hs).bind ?_
      rintro matching c₃ ⟨rfl, hgrows⟩
      refine (gives_registerKey snapshot.key snapshot.names).bind ?_
      rintro - c₄ rfl
      exact gives_pure ⟨hentry.symm, c₃, hgrows, rfl⟩

end Lookups

end CalmServer

end DjangoNova
