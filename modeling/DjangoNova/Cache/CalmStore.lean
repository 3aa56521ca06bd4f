import DjangoNova.Cache.CalmCalls
import DjangoNova.Cache.ModelNames

/-!
# What a calm server holds

A query holds rows when the server has its tokens and an entry under the
key that they give. Each call has one lemma that says which queries hold
which rows afterwards. The filled queries are those whose names the index
of a process without generations has under their key.
-/

namespace DjangoNova

open Program QuerySetCache CacheWorld

namespace PreparedQuery

variable {Sql : Type}

def Cacheable (q : PreparedQuery Sql) : Prop := ∃ dependencies, q.dependencies = .ok dependencies

variable (d : Deployment Sql)

/-- The query and its dependencies have plain model names. -/
def Named (q : PreparedQuery Sql) : Prop :=
  ∀ m ∈ dependencyModels q q.tracked.1, m.Plain d.lower

/-- Two queries that the cache gives one key. With generations the scopes are
a part of it. -/
structure SameKey (q q' : PreparedQuery Sql) : Prop where
  db : q.db = q'.db
  parts : q.parts d [] = q'.parts d []
  scopes : d.generation = true → queryScopes d q = queryScopes d q'

/-- Two queries of which one can take the rows of the other. -/
structure SameResult (q q' : PreparedQuery Sql) : Prop where
  db : q.db = q'.db
  parts : q.parts d [] = q'.parts d []
  scopes : queryScopes d q = queryScopes d q'

variable {d} {q q' : PreparedQuery Sql}

theorem SameResult.sameKey (h : q.SameResult d q') : q.SameKey d q' :=
  ⟨h.db, h.parts, fun _ ↦ h.scopes⟩

theorem SameKey.refl (q : PreparedQuery Sql) : q.SameKey d q := ⟨rfl, rfl, fun _ ↦ rfl⟩

theorem SameKey.symm (h : q.SameKey d q') : q'.SameKey d q :=
  ⟨h.db.symm, h.parts.symm, fun hd ↦ (h.scopes hd).symm⟩

theorem SameKey.key (h : q.SameKey d q') (tokens : List (Scope × Str)) :
    q.key d tokens = q'.key d tokens := by
  have hparts := h.parts
  simp only [PreparedQuery.parts, KeyParts.mk.injEq] at hparts
  simp only [PreparedQuery.key, PreparedQuery.parts, h.db, hparts.1, hparts.2.1, hparts.2.2.1]

theorem Cacheable.queryScopes (hq : q.Cacheable) : queryScopes d q = scopesOf d q q.tracked.1 := by
  obtain ⟨dependencies, hdeps⟩ := hq
  simp only [CacheWorld.queryScopes, tracked, hdeps]

theorem Cacheable.dependsOn_iff (hq : q.Cacheable) {modelName db : Str} :
    DependsOn d q modelName db ↔ (∃ m ∈ dependencyModels q q.tracked.1,
      m.shortName d.lower = shortModelName d.lower modelName) ∧ (db = ['*'] ∨ db = q.db) := by
  obtain ⟨dependencies, hdeps⟩ := hq
  unfold DependsOn
  simp only [tracked, hdeps, Except.ok.injEq]
  constructor
  · rintro ⟨_, m, rfl, hm, hname, hdb⟩
    exact ⟨⟨m, hm, hname⟩, hdb⟩
  · rintro ⟨⟨m, hm, hname⟩, hdb⟩
    exact ⟨_, m, rfl, hm, hname, hdb⟩

/-- The scopes of a query are those that reach it. -/
theorem Cacheable.mem_queryScopes (hq : q.Cacheable) {modelName db : Str} :
    generationScope (shortModelName d.lower modelName) db ∈ CacheWorld.queryScopes d q ↔
      DependsOn d q modelName db := by
  refine ⟨fun h ↦ ?_, DependsOn.mem_queryScopes⟩
  rw [hq.queryScopes, scopesOf, Scope.mem_sorted, List.mem_flatMap] at h
  obtain ⟨m, hm, hscope⟩ := h
  simp only [generationScope, List.mem_cons, Scope.mk.injEq, List.not_mem_nil, or_false] at hscope
  rw [hq.dependsOn_iff]
  rcases hscope with ⟨hname, hdb⟩ | ⟨hname, hdb⟩
  · exact ⟨⟨m, hm, hname.symm⟩, .inl hdb⟩
  · exact ⟨⟨m, hm, hname.symm⟩, .inr hdb⟩

theorem dependsOn_of_scopes (h : CacheWorld.queryScopes d q = CacheWorld.queryScopes d q')
    (hq : q.Cacheable) (hq' : q'.Cacheable) {modelName db : Str} :
    DependsOn d q modelName db ↔ DependsOn d q' modelName db := by
  rw [← hq.mem_queryScopes, ← hq'.mem_queryScopes, h]

/-- The key index selects by the names that the generation scopes stand for. -/
theorem Named.names_iff (hn : q.Named d) (hq : q.Cacheable) {modelName db : Str} :
    (∃ name ∈ normalizeModelNames d.lower modelName, name ∈ namesOf d q q.tracked.1) ∧
      (db = ['*'] ∨ db = q.db) ↔ DependsOn d q modelName db := by
  rw [hq.dependsOn_iff]
  refine and_congr_left fun _ ↦ ?_
  constructor
  · rintro ⟨name, hname, hmem⟩
    obtain ⟨m, hm, hmem⟩ := Finset.mem_biUnion.mp hmem
    have hm := List.mem_toFinset.mp hm
    exact ⟨m, hm, (names_meet_iff (hn m hm)).mp ⟨name, hname, hmem⟩⟩
  · rintro ⟨m, hm, hshort⟩
    obtain ⟨name, hname, hmem⟩ := (names_meet_iff (hn m hm)).mpr hshort
    exact ⟨name, hname, Finset.mem_biUnion.mpr ⟨m, List.mem_toFinset.mpr hm, hmem⟩⟩

end PreparedQuery

namespace CalmServer

variable {P Sql D : Type} {d : Deployment Sql} {known filled : PreparedQuery Sql → Prop}
  {c c' : CalmServer P D} {q q' : PreparedQuery Sql} {v : Rows D}

/-- The server has these rows for the query. -/
def Holds (d : Deployment Sql) (c : CalmServer P D) (q : PreparedQuery Sql) (v : Rows D) : Prop :=
  ∃ tokens, c.VectorOf d (queryScopes d q) tokens ∧ c.entries (q.key d tokens) = some v

theorem Holds.unique {v' : Rows D} (h : Holds d c q v) (h' : Holds d c q v') : v = v' := by
  obtain ⟨tokens, hvector, hentry⟩ := h
  obtain ⟨tokens', hvector', hentry'⟩ := h'
  rw [hvector'.unique hvector, hentry] at hentry'
  exact Option.some.inj hentry'

theorem VectorOf.same {tokens : List (Scope × Str)} (h : c.VectorOf d (queryScopes d q) tokens)
    (hsame : q.SameKey d q') : c.VectorOf d (queryScopes d q') tokens := by
  refine ⟨h.1.trans ?_, h.2⟩
  split
  · rename_i hd
    exact hsame.scopes hd
  · rfl

theorem Holds.same (h : Holds d c q v) (hsame : q.SameKey d q') : Holds d c q' v := by
  obtain ⟨tokens, hvector, hentry⟩ := h
  exact ⟨tokens, hvector.same hsame, hsame.key tokens ▸ hentry⟩

/-- The call reaches a filled query with the same key, or with generations
any such query. -/
def Reached (d : Deployment Sql) (filled : PreparedQuery Sql → Prop) (q : PreparedQuery Sql)
    (modelName db : Str) : Prop :=
  ∃ q', (d.generation = false → filled q') ∧ q'.Cacheable ∧ q'.SameKey d q ∧
    DependsOn d q' modelName db

theorem reached_iff_dependsOn (hd : d.generation = true) (hq : q.Cacheable) {modelName db : Str} :
    Reached d filled q modelName db ↔ DependsOn d q modelName db := by
  constructor
  · rintro ⟨q', -, hq', hsame, hdep⟩
    exact (PreparedQuery.dependsOn_of_scopes (hsame.scopes hd) hq' hq).mp hdep
  · exact fun hdep ↦ ⟨q, by simp [hd], hq, .refl q, hdep⟩

/-- The key of a query under tokens that were drawn. -/
structure Made (d : Deployment Sql) (known : PreparedQuery Sql → Prop) (used : Set Str) (key : Str)
    (q : PreparedQuery Sql) (tokens : List (Scope × Str)) : Prop where
  known : known q
  cacheable : q.Cacheable
  key : key = q.key d tokens
  scopes : tokens.map Prod.fst = if d.generation then queryScopes d q else []
  used : ∀ st ∈ tokens, st.2 ∈ used

/-- The invariant between calls: each entry and each indexed key comes from
a known query, and without generations from a filled one. The server holds
rows for the filled queries, and without generations their names are indexed. -/
structure Sound (d : Deployment Sql) (known filled : PreparedQuery Sql → Prop)
    (c : CalmServer P D) : Prop where
  valid : c.ValidTokens
  tidy : ∀ p, Tidy (c.states p)
  entries : ∀ key v, c.entries key = some v → ∃ q tokens, Made d known c.used key q tokens ∧
    (d.generation = false → filled q)
  listed : ∀ p name key, (c.states p).Lists name key → ∃ q tokens,
    Made d known c.used key q tokens ∧ name ∈ namesOf d q q.tracked.1 ∧
      (d.generation = false → filled q)
  held : ∀ q, filled q → known q ∧ q.Cacheable ∧ ∃ v, Holds d c q v
  indexed : d.generation = false → ∀ q, filled q → ∀ p, ∀ name ∈ namesOf d q q.tracked.1,
    (c.states p).Lists name (q.key d [])

/-- What the deployment and the queries of a run have to satisfy. Without
generations there is one process. -/
structure Suits (P : Type) (d : Deployment Sql) (known : PreparedQuery Sql → Prop) : Prop where
  faithful : d.KeyFaithful
  databases : Function.Injective d.databaseDigest
  named : ∀ q, known q → q.Named d
  alone : d.generation = false → ∀ p p' : P, p = p'

/-- Without generations the key determines the scopes. -/
def KeyScopes (d : Deployment Sql) (known : PreparedQuery Sql → Prop) : Prop :=
  d.generation = false → ∀ q q', known q → known q' → q.Cacheable → q'.Cacheable →
    q.db = q'.db → q.parts d [] = q'.parts d [] → queryScopes d q = queryScopes d q'

theorem KeyScopes.same (h : KeyScopes d known) (hsame : q.SameKey d q') (hknown : known q)
    (hknown' : known q') (hq : q.Cacheable) (hq' : q'.Cacheable) : q.SameResult d q' := by
  refine ⟨hsame.db, hsame.parts, ?_⟩
  cases hd : d.generation with
  | false => exact h hd q q' hknown hknown' hq hq' hsame.db hsame.parts
  | true => exact hsame.scopes hd

theorem Made.mono {used used' : Set Str} {key : Str} {tokens : List (Scope × Str)}
    (h : Made d known used key q tokens) (hused : used ⊆ used') :
    Made d known used' key q tokens := ⟨h.1, h.2, h.3, h.4, fun st hst ↦ hused (h.5 st hst)⟩

/-- Without generations a query has one key. -/
theorem Made.of_index (hd : d.generation = false) (hknown : known q) (hq : q.Cacheable)
    (used : Set Str) : Made d known used (q.key d []) q [] :=
  ⟨hknown, hq, rfl, by simp [hd], fun _ hst ↦ absurd hst List.not_mem_nil⟩

theorem Made.key_of_index {used : Set Str} {key : Str} {tokens : List (Scope × Str)}
    (h : Made d known used key q tokens) (hd : d.generation = false) : key = q.key d [] := by
  have htokens : tokens = [] := List.map_eq_nil_iff.mp (h.scopes.trans (by simp [hd]))
  rw [h.key, htokens]

theorem VectorOf.made (hc : c.ValidTokens) {tokens : List (Scope × Str)}
    (h : c.VectorOf d (queryScopes d q) tokens) (hknown : known q) (hq : q.Cacheable) :
    Made d known c.used (q.key d tokens) q tokens :=
  ⟨hknown, hq, rfl, h.1, fun st hst ↦ (hc _ _ (h.2 st hst)).2⟩

/-- Equal keys have equal tokens. -/
theorem Suits.same (hs : Suits P d known) {used used' : Set Str} {key : Str}
    {tokens tokens' : List (Scope × Str)} (h : Made d known used key q tokens)
    (h' : Made d known used' key q' tokens') : tokens = tokens' ∧ q.SameKey d q' := by
  have hkey : makeKey d q.db (q.parts d tokens) = makeKey d q'.db (q'.parts d tokens') :=
    h.key.symm.trans h'.key
  have hdb := makeKey_db hs.faithful hs.databases hkey
  have hparts := makeKey_parts hs.faithful hkey
  simp only [PreparedQuery.parts, KeyParts.mk.injEq] at hparts
  obtain ⟨hname, hsql, hprefetch, htokens⟩ := hparts
  refine ⟨htokens, hdb, ?_, fun hd ↦ ?_⟩
  · simp only [PreparedQuery.parts, hname, hsql, hprefetch]
  · have hscopes := h.scopes
    rw [htokens, h'.scopes, if_pos hd, if_pos hd] at hscopes
    exact hscopes.symm

/-- The entry under a key of drawn tokens is not under a newer token. -/
theorem Sound.tokens_used (hc : Sound d known filled c) (hs : Suits P d known) {used : Set Str}
    {tokens : List (Scope × Str)} (hmade : Made d known used (q.key d tokens) q tokens)
    (hentry : c.entries (q.key d tokens) = some v) : ∀ st ∈ tokens, st.2 ∈ c.used := by
  obtain ⟨q₀, tokens₀, hmade₀, -⟩ := hc.entries _ _ hentry
  obtain ⟨rfl, -⟩ := hs.same hmade hmade₀
  exact hmade₀.used

section Growth

theorem Grows.holds (h : Grows c c') (hs : Suits P d known) (hc : Sound d known filled c)
    (hknown : known q) (hq : q.Cacheable) : Holds d c' q v ↔ Holds d c q v := by
  constructor
  · rintro ⟨tokens, hvector, hentry⟩
    rw [h.entries] at hentry
    have hused := hc.tokens_used hs (hvector.made h.valid hknown hq) hentry
    refine ⟨tokens, ⟨hvector.1, fun st hst ↦ ?_⟩, hentry⟩
    exact (h.fresh _ _ (hvector.2 st hst)).resolve_right fun hnew ↦ hnew (hused st hst)
  · rintro ⟨tokens, hvector, hentry⟩
    exact ⟨tokens, ⟨hvector.1, h.current hvector.2⟩, h.entries ▸ hentry⟩

theorem Grows.sound (h : Grows c c') (hs : Suits P d known) (hc : Sound d known filled c) :
    Sound d known filled c' where
  valid := h.valid
  tidy p := h.states ▸ hc.tidy p
  entries key v hentry := by
    rw [h.entries] at hentry
    obtain ⟨q, tokens, hmade, hfilled⟩ := hc.entries key v hentry
    exact ⟨q, tokens, hmade.mono h.used, hfilled⟩
  listed p name key hl := by
    rw [h.states] at hl
    obtain ⟨q, tokens, hmade, hname⟩ := hc.listed p name key hl
    exact ⟨q, tokens, hmade.mono h.used, hname⟩
  held q hq := by
    obtain ⟨hknown, hcacheable, v, hv⟩ := hc.held q hq
    exact ⟨hknown, hcacheable, v, (h.holds hs hc hknown hcacheable).mpr hv⟩
  indexed hd q hq p name hname := h.states ▸ hc.indexed hd q hq p name hname

end Growth

section Changes

variable [DecidableEq P] {p : P} {tokens : List (Scope × Str)}

theorem Tidy.register {s : CacheState} (h : Tidy s) (key : Str) (names : Finset Str) :
    Tidy (s.register key names) :=
  ⟨h.mirrored.register key names, h.readable, h.unblocked, h.settled⟩

theorem lists_stored {p' : P} {name key : Str} {snapshot : KeySnapshot} :
    ((c.stored p snapshot v).states p').Lists name key ↔
      (c.states p').Lists name key ∨ p' = p ∧ key = snapshot.key ∧ name ∈ snapshot.names := by
  unfold stored
  by_cases hp : p' = p
  · subst hp
    rw [setState_states, CacheState.lists_register]
    simp
  · simp [setState, putEntry, hp]

/-- A fill gives its rows to the queries with the same key. -/
theorem holds_stored (hs : Suits P d known) (hc : Sound d known filled c) (hknown : known q)
    (hq : q.Cacheable) (hvector : c.VectorOf d (queryScopes d q) tokens) (hknown' : known q')
    (hq' : q'.Cacheable) {v' : Rows D} :
    Holds d (c.stored p (q.snapshot d tokens) v) q' v' ↔
      q'.SameKey d q ∧ v' = v ∨ ¬q'.SameKey d q ∧ Holds d c q' v' := by
  have hentries : ∀ key, (c.stored p (q.snapshot d tokens) v).entries key =
      if key = q.key d tokens then some v else c.entries key := Function.update_apply _ _ _
  by_cases hsame : q'.SameKey d q
  · simp only [hsame, true_and, not_true_eq_false, false_and, or_false]
    constructor
    · rintro ⟨tokens', hvector', hentry⟩
      have hvector₀ : c.VectorOf d (queryScopes d q) tokens' := hvector'.same hsame
      rw [hvector₀.unique hvector, hsame.key, hentries, if_pos rfl] at hentry
      exact (Option.some.inj hentry).symm
    · rintro rfl
      refine ⟨tokens, hvector.same hsame.symm, ?_⟩
      rw [hsame.key, hentries, if_pos rfl]
  · simp only [hsame, false_and, not_false_eq_true, true_and, false_or]
    refine exists_congr fun tokens' ↦ and_congr_right fun hvector' ↦ ?_
    have hne : q'.key d tokens' ≠ q.key d tokens := by
      intro hkey
      have hmade' := VectorOf.made hc.valid hvector' hknown' hq'
      rw [hkey] at hmade'
      exact hsame (hs.same hmade' (hvector.made hc.valid hknown hq)).2
    rw [hentries, if_neg hne]

theorem Sound.stored (hc : Sound d known filled c) (hs : Suits P d known) (hknown : known q)
    (hq : q.Cacheable) (hvector : c.VectorOf d (queryScopes d q) tokens) :
    Sound d known (fun q' ↦ filled q' ∨ q' = q) (c.stored p (q.snapshot d tokens) v) where
  valid := hc.valid
  tidy p' := by
    by_cases hp : p' = p
    · subst hp
      rw [CalmServer.stored, setState_states]
      exact (hc.tidy p').register _ _
    · simpa [CalmServer.stored, putEntry, setState, hp] using hc.tidy p'
  entries key v' hentry := by
    by_cases hkey : key = q.key d tokens
    · subst hkey
      exact ⟨q, tokens, hvector.made hc.valid hknown hq, fun _ ↦ .inr rfl⟩
    · have hold : c.entries key = some v' := by
        rw [← hentry]
        exact (Function.update_of_ne hkey _ _).symm
      obtain ⟨q₀, tokens₀, hmade, hfilled⟩ := hc.entries key v' hold
      exact ⟨q₀, tokens₀, hmade, fun hd ↦ .inl (hfilled hd)⟩
  listed p' name key hl := by
    rcases lists_stored.mp hl with hl | ⟨-, rfl, hname⟩
    · obtain ⟨q₀, tokens₀, hmade, hname, hfilled⟩ := hc.listed p' name key hl
      exact ⟨q₀, tokens₀, hmade, hname, fun hd ↦ .inl (hfilled hd)⟩
    · exact ⟨q, tokens, hvector.made hc.valid hknown hq, hname, fun _ ↦ .inr rfl⟩
  held q' hq' := by
    have hrest : known q' ∧ q'.Cacheable ∧ (q'.SameKey d q ∨ ∃ v', Holds d c q' v') := by
      rcases hq' with hfilled | rfl
      · obtain ⟨hknown', hcacheable, v', hv'⟩ := hc.held q' hfilled
        exact ⟨hknown', hcacheable, .inr ⟨v', hv'⟩⟩
      · exact ⟨hknown, hq, .inl (.refl q')⟩
    obtain ⟨hknown', hcacheable, hv'⟩ := hrest
    refine ⟨hknown', hcacheable, ?_⟩
    simp only [holds_stored hs hc hknown hq hvector hknown' hcacheable]
    by_cases hsame : q'.SameKey d q
    · exact ⟨v, .inl ⟨hsame, rfl⟩⟩
    · obtain ⟨v', hv'⟩ := hv'.resolve_left hsame
      exact ⟨v', .inr ⟨hsame, hv'⟩⟩
  indexed hd q' hq' p' name hname := by
    rw [lists_stored]
    rcases hq' with hfilled | rfl
    · exact .inl (hc.indexed hd q' hfilled p' name hname)
    · exact .inr ⟨hs.alone hd p' p,
        ((hvector.made hc.valid hknown hq).key_of_index hd).symm, hname⟩

/-- A hit registers its key, as a fill with the same rows does. -/
theorem AfterLookup.cases {snapshot : KeySnapshot} {cached : Option (Rows D)}
    (h : AfterLookup p snapshot c cached c') :
    cached = c.entries snapshot.key ∧ ∃ c₁, Grows c c₁ ∧
      ((∃ v, cached = some v ∧ c' = c₁.stored p snapshot v) ∨ cached = none ∧ c' = c₁) := by
  obtain ⟨hcached, c₁, hgrows, rfl⟩ := h
  refine ⟨hcached, c₁, hgrows, ?_⟩
  cases cached with
  | none => exact .inr ⟨rfl, rfl⟩
  | some v =>
      refine .inl ⟨v, rfl, ?_⟩
      have hput : c₁.putEntry snapshot.key v = c₁ := by
        have hentry : c₁.entries snapshot.key = some v := by rw [hgrows.entries, hcached]
        rw [putEntry, ← hentry, Function.update_eq_self]
      rw [stored, hput]
      rfl

end Changes

section Invalidation

variable {p : P} {c₁ : CalmServer P D} {modelName db : Str} {scope : Scope}

theorem Rotated.used (h : Rotated d scope c c₁) : c.used ⊆ c₁.used := by
  unfold Rotated at h
  split at h
  · obtain ⟨token, -, -, rfl⟩ := h
    exact Set.subset_insert token c.used
  · rw [h]

theorem Rotated.valid (h : Rotated d scope c c₁) (hc : c.ValidTokens) : c₁.ValidTokens := by
  unfold Rotated at h
  split at h
  · obtain ⟨token, htoken, -, rfl⟩ := h
    intro scope' s hs
    by_cases hscope : scope' = scope
    · subst hscope
      obtain rfl : token = s := by simpa [putToken] using hs
      exact ⟨htoken, Set.mem_insert token c.used⟩
    · obtain ⟨hvalid, hused⟩ := hc scope' s (by simpa [putToken, draw, hscope] using hs)
      exact ⟨hvalid, Set.mem_insert_of_mem token hused⟩
  · rw [h]
    exact hc

/-- A vector of drawn tokens is current after a rotation exactly if it was
before and does not cover the scope. -/
theorem Rotated.vectorOf_iff (h : Rotated d scope c c₁) {scopes : List Scope}
    {tokens : List (Scope × Str)} (hused : ∀ st ∈ tokens, st.2 ∈ c.used) :
    c₁.VectorOf d scopes tokens ↔
      c.VectorOf d scopes tokens ∧ (d.generation = true → scope ∉ scopes) := by
  unfold Rotated at h
  split at h
  · rename_i hd
    obtain ⟨token, -, hnew, rfl⟩ := h
    simp only [VectorOf, hd, if_true, forall_const, and_assoc]
    refine and_congr_right fun hmap ↦ ?_
    have hother : ∀ st : Scope × Str, st.1 ≠ scope →
        ((c.draw token).putToken scope token).tokens st.1 = c.tokens st.1 :=
      fun st hne ↦ Function.update_of_ne hne _ _
    constructor
    · intro hcurrent
      have hout : scope ∉ scopes := by
        intro hmem
        rw [← hmap] at hmem
        obtain ⟨st, hst, rfl⟩ := List.mem_map.mp hmem
        have htoken := hcurrent st hst
        simp only [putToken, Function.update_self, Option.some.injEq] at htoken
        exact hnew (htoken ▸ hused st hst)
      refine ⟨fun st hst ↦ ?_, hout⟩
      rw [← hcurrent st hst, hother st]
      rintro rfl
      exact hout (hmap ▸ List.mem_map_of_mem hst)
    · rintro ⟨hcurrent, hout⟩ st hst
      rw [hother st, hcurrent st hst]
      rintro rfl
      exact hout (hmap ▸ List.mem_map_of_mem hst)
  · rename_i hd
    subst h
    exact ⟨fun h ↦ ⟨h, fun hg ↦ absurd hg hd⟩, And.left⟩

variable (hs : Suits P d known) (hc : Sound d known filled c)

include hs hc in
/-- A key that the index selects is the one of a query that the call reaches. -/
theorem Sound.selected {tokens : List (Scope × Str)}
    (hmade : Made d known c.used (q.key d tokens) q tokens)
    (hkey : q.key d tokens ∈ (c.states p).invalidationKeys d.databaseDigest
      (normalizeModelNames d.lower modelName) db) : Reached d filled q modelName db := by
  obtain ⟨⟨name, hname, hl⟩, hdb⟩ := CacheState.mem_invalidationKeys.mp hkey
  obtain ⟨q₀, tokens₀, hmade₀, hmem, hfilled⟩ := hc.listed p name _ hl
  have hsame : q₀.SameKey d q := (hs.same hmade₀ hmade).2
  refine ⟨q₀, hfilled, hmade₀.cacheable, hsame, ?_⟩
  rw [← (hs.named q₀ hmade₀.known).names_iff hmade₀.cacheable]
  refine ⟨⟨name, hname, hmem⟩, hdb.imp_right fun htag ↦ ?_⟩
  rw [hsame.db]
  exact (databaseTag_prefix_iff hs.faithful hs.databases).mp htag

include hs hc in
/-- Without generations the index selects every key that the call reaches. -/
theorem Sound.selects (hd : d.generation = false) (hreached : Reached d filled q modelName db) :
    q.key d [] ∈ (c.states p).invalidationKeys d.databaseDigest
      (normalizeModelNames d.lower modelName) db := by
  obtain ⟨q₀, hfilled, hq₀, hsame, hdep⟩ := hreached
  have hnamed := hs.named q₀ (hc.held q₀ (hfilled hd)).1
  obtain ⟨⟨name, hname, hmem⟩, hdb⟩ := (hnamed.names_iff hq₀).mpr hdep
  rw [← hsame.key]
  refine CacheState.mem_invalidationKeys.mpr
    ⟨⟨name, hname, hc.indexed hd q₀ (hfilled hd) p name hmem⟩, ?_⟩
  exact hdb.imp_right fun hdb ↦ (databaseTag_prefix_iff hs.faithful hs.databases).mpr hdb

variable (hrotated : Rotated d (generationScope (shortModelName d.lower modelName) db) c c₁)
  (hdropped : Dropped p ((c.states p).invalidationKeys d.databaseDigest
    (normalizeModelNames d.lower modelName) db) c₁ c')
include hs hc hrotated hdropped

/-- Exactly the queries that the call reaches lose their rows. -/
theorem holds_invalidated (hknown : known q) (hq : q.Cacheable) :
    Holds d c' q v ↔ Holds d c q v ∧ ¬Reached d filled q modelName db := by
  have hentries : ∀ key, c'.entries key = if key ∈ (c.states p).invalidationKeys
      d.databaseDigest (normalizeModelNames d.lower modelName) db then none else c.entries key :=
    fun key ↦ by rw [hdropped.entries, hrotated.entries]
  have hvectors : ∀ tokens, c'.VectorOf d (queryScopes d q) tokens ↔
      c₁.VectorOf d (queryScopes d q) tokens := by
    intro tokens
    unfold VectorOf Current
    rw [hdropped.tokens]
  constructor
  · rintro ⟨tokens, hvector, hentry⟩
    rw [hentries] at hentry
    split at hentry
    · cases hentry
    rename_i hkey
    rw [hvectors] at hvector
    have hmade := VectorOf.made (hrotated.valid hc.valid) hvector hknown hq
    have hused := hc.tokens_used hs hmade hentry
    obtain ⟨hvector, hscope⟩ := (hrotated.vectorOf_iff hused).mp hvector
    refine ⟨⟨tokens, hvector, hentry⟩, fun hreached ↦ ?_⟩
    cases hd : d.generation with
    | true => exact hscope hd (hq.mem_queryScopes.mpr ((reached_iff_dependsOn hd hq).mp hreached))
    | false => exact hkey (hmade.key_of_index hd ▸ hc.selects hs hd hreached)
  · rintro ⟨⟨tokens, hvector, hentry⟩, hreached⟩
    have hmade := hvector.made hc.valid hknown hq
    refine ⟨tokens, (hvectors tokens).mpr ?_, ?_⟩
    · refine (hrotated.vectorOf_iff hmade.used).mpr ⟨hvector, fun hd hscope ↦ hreached ?_⟩
      exact (reached_iff_dependsOn hd hq).mpr (hq.mem_queryScopes.mp hscope)
    · rw [hentries, if_neg fun hkey ↦ hreached (hc.selected hs hmade hkey), hentry]

theorem Sound.invalidated :
    Sound d known (fun q ↦ filled q ∧ ¬Reached d filled q modelName db) c' where
  valid scope s htoken := by
    rw [hdropped.tokens] at htoken
    rw [hdropped.used]
    exact hrotated.valid hc.valid scope s htoken
  tidy p' := by
    by_cases hp : p' = p
    · exact hp ▸ hdropped.tidy
    · rw [hdropped.others p' hp, hrotated.states]
      exact hc.tidy p'
  entries key v hentry := by
    rw [hdropped.entries, hrotated.entries] at hentry
    split at hentry
    · cases hentry
    rename_i hkey
    obtain ⟨q, tokens, hmade, hfilled⟩ := hc.entries key v hentry
    refine ⟨q, tokens, hdropped.used ▸ hmade.mono hrotated.used, fun hd ↦ ⟨hfilled hd, ?_⟩⟩
    exact fun hreached ↦ hkey (hmade.key_of_index hd ▸ hc.selects hs hd hreached)
  listed p' name key hl := by
    have hold : (c.states p').Lists name key ∧ (d.generation = false →
        key ∉ (c.states p).invalidationKeys d.databaseDigest
          (normalizeModelNames d.lower modelName) db) := by
      by_cases hp : p' = p
      · subst hp
        rw [hdropped.lists, hrotated.states] at hl
        exact ⟨hl.2, fun _ ↦ hl.1⟩
      · rw [hdropped.others p' hp, hrotated.states] at hl
        exact ⟨hl, fun hd ↦ absurd (hs.alone hd p' p) hp⟩
    obtain ⟨q, tokens, hmade, hname, hfilled⟩ := hc.listed p' name key hold.1
    refine ⟨q, tokens, hdropped.used ▸ hmade.mono hrotated.used, hname,
      fun hd ↦ ⟨hfilled hd, fun hreached ↦ hold.2 hd ?_⟩⟩
    exact hmade.key_of_index hd ▸ hc.selects hs hd hreached
  held q hq := by
    obtain ⟨hknown, hcacheable, v, hv⟩ := hc.held q hq.1
    exact ⟨hknown, hcacheable, v,
      (holds_invalidated hs hc hrotated hdropped hknown hcacheable).mpr ⟨hv, hq.2⟩⟩
  indexed hd q hq p' name hname := by
    obtain ⟨hknown, hcacheable, -⟩ := hc.held q hq.1
    have hout : q.key d [] ∉ (c.states p).invalidationKeys d.databaseDigest
        (normalizeModelNames d.lower modelName) db := fun hkey ↦
      hq.2 (hc.selected hs (.of_index hd hknown hcacheable c.used) hkey)
    obtain rfl := hs.alone hd p p'
    rw [hdropped.lists, hrotated.states]
    exact ⟨hout, hc.indexed hd q hq.1 p name hname⟩

end Invalidation

theorem not_reached_blank (hs : Suits P d known) (hc : Sound d known filled c) (hknown : known q)
    (hq : q.Cacheable) {modelName db : Str} (hblank : normalizeModelNames d.lower modelName = ∅) :
    ¬Reached d filled q modelName db := by
  have hnot : ∀ q', known q' → q'.Cacheable → ¬DependsOn d q' modelName db := by
    intro q' hknown' hq'
    rw [hq'.dependsOn_iff]
    rintro ⟨⟨m, hm, hname⟩, -⟩
    rw [shortModelName_blank hblank] at hname
    exact (hs.named q' hknown' m hm).1 hname
  intro hreached
  cases hd : d.generation with
  | true => exact hnot q hknown hq ((reached_iff_dependsOn hd hq).mp hreached)
  | false =>
      obtain ⟨q', hfilled, hq', -, hdep⟩ := hreached
      exact hnot q' (hc.held q' (hfilled hd)).1 hq' hdep

section Clear

variable [DecidableEq P] {p : P}

theorem Sound.cleared (hc : Sound d known filled c) (hs : Suits P d known) (generation : ℕ) :
    Sound d known (fun _ ↦ False)
      (c.wipe.setState p { CacheState.initial with generation := generation }) where
  valid scope s hs := by cases hs
  tidy p' := by
    by_cases hp : p' = p
    · subst hp
      rw [setState_states]
      exact ⟨CacheState.SameIndex.mirrored (s := CacheState.initial) ⟨rfl, rfl, rfl⟩
        CacheState.mirrored_initial,
        rfl, rfl, rfl⟩
    · simpa [setState, wipe, hp] using hc.tidy p'
  entries key v hentry := by cases hentry
  listed p' name key hl := by
    by_cases hp : p' = p
    · subst hp
      rw [setState_states] at hl
      simp [CacheState.Lists, CacheState.initial] at hl
    · simp only [setState, Function.update_of_ne hp] at hl
      obtain ⟨q, tokens, hmade, hname, -⟩ := hc.listed p' name key hl
      exact ⟨q, tokens, hmade, hname, fun hd ↦ absurd (hs.alone hd p' p) hp⟩
  held q hq := hq.elim
  indexed _ q hq := hq.elim

theorem not_holds_cleared (s : CacheState) : ¬Holds d (c.wipe.setState p s) q v := by
  rintro ⟨tokens, -, hentry⟩
  cases hentry

end Clear

section Calls

variable [DecidableEq P] {p : P} {inside own : Bool} {tokens : List (Scope × Str)}
  (hs : Suits P d known) (hc : Sound d known filled c)
include hs hc

omit hs hc [DecidableEq P] in
theorem VectorOf.holds_iff (h : c.VectorOf d (queryScopes d q) tokens) :
    Holds d c q v ↔ c.entries (q.key d tokens) = some v := by
  constructor
  · rintro ⟨tokens', hvector', hentry⟩
    rwa [hvector'.unique h] at hentry
  · exact fun hentry ↦ ⟨tokens, h, hentry⟩

/-- Storing the rows that a query holds changes nothing. -/
theorem holds_stored_found (hknown : known q) (hq : q.Cacheable)
    (hvector : c.VectorOf d (queryScopes d q) tokens)
    (hentry : c.entries (q.key d tokens) = some v) (hknown' : known q') (hq' : q'.Cacheable)
    {v' : Rows D} :
    Holds d (c.stored p (q.snapshot d tokens) v) q' v' ↔ Holds d c q' v' := by
  rw [holds_stored hs hc hknown hq hvector hknown' hq']
  by_cases hsame : q'.SameKey d q
  · have hv : Holds d c q' v := Holds.same (hvector.holds_iff.mpr hentry) hsame.symm
    simp only [hsame, true_and, not_true_eq_false, false_and, or_false]
    exact ⟨fun heq ↦ heq ▸ hv, fun hv' ↦ hv'.unique hv⟩
  · simp [hsame]

/-- A lookup returns what the query holds, and a hit fills the query. -/
theorem gives_get_rows (hd : d.returnsDetached = .ok own) (hknown : known q) (hq : q.Cacheable) :
    Gives (acts p false) (QuerySetCache.get d q : CacheProgram Sql (Rows D) (Option (Rows D))) c
      fun r c' ↦ (∀ v, r = some v ↔ Holds d c q v) ∧
        Sound d known (fun q' ↦ filled q' ∨ r.isSome = true ∧ q' = q) c' ∧
        ∀ q', known q' → q'.Cacheable → ∀ v, Holds d c' q' v ↔ Holds d c q' v := by
  obtain ⟨dependencies, hdeps⟩ := hq
  have hq : q.Cacheable := ⟨dependencies, hdeps⟩
  refine (gives_get hd hc.valid (hc.tidy p) hdeps).mono ?_
  rintro r c' ⟨tokens, c₁, hgrows, hvector, hlookup⟩
  obtain ⟨hr, c₂, hgrows₂, hcases⟩ := hlookup.cases
  have hc₁ := hgrows.sound hs hc
  have hc₂ := hgrows₂.sound hs hc₁
  have hvector₂ : c₂.VectorOf d (queryScopes d q) tokens :=
    ⟨hvector.1, hgrows₂.current hvector.2⟩
  have hholds : ∀ q', known q' → q'.Cacheable → ∀ v, Holds d c₂ q' v ↔ Holds d c q' v :=
    fun q' hknown' hq' v ↦
      (hgrows₂.holds hs hc₁ hknown' hq').trans (hgrows.holds hs hc hknown' hq')
  have hfound : ∀ v, r = some v ↔ Holds d c q v := by
    intro v
    rw [← hgrows.holds hs hc hknown hq, hvector.holds_iff, hr]
    rfl
  refine ⟨hfound, ?_⟩
  rcases hcases with ⟨v, rfl, rfl⟩ | ⟨rfl, rfl⟩
  · have hentry : c₂.entries (q.key d tokens) = some v :=
      hvector₂.holds_iff.mp ((hholds q hknown hq v).mpr ((hfound v).mp rfl))
    refine ⟨?_, fun q' hknown' hq' v' ↦ ?_⟩
    · simpa using hc₂.stored (p := p) (v := v) hs hknown hq hvector₂
    · rw [holds_stored_found hs hc₂ hknown hq hvector₂ hentry hknown' hq']
      exact hholds q' hknown' hq' v'
  · exact ⟨by simpa using hc₂, hholds⟩

/-- `get_or_set` returns what the query holds, or else stores what it returns. -/
theorem gives_getOrSet_rows (hd : d.returnsDetached = .ok own) (hknown : known q)
    (hq : q.Cacheable) :
    Gives (acts p false) (QuerySetCache.getOrSet d q : CacheProgram Sql (Rows D) (Rows D)) c
      fun v c' ↦ (∀ v', Holds d c q v' → v = v') ∧
        Sound d known (fun q' ↦ filled q' ∨ q' = q) c' ∧
        ∀ q', known q' → q'.Cacheable → ∀ v', Holds d c' q' v' ↔
          q'.SameKey d q ∧ v' = v ∨ ¬q'.SameKey d q ∧ Holds d c q' v' := by
  obtain ⟨dependencies, hdeps⟩ := hq
  have hq : q.Cacheable := ⟨dependencies, hdeps⟩
  refine (gives_getOrSet hd hc.valid (hc.tidy p) hdeps).mono ?_
  rintro v c' ⟨tokens, c₁, hgrows, hvector, houtcome⟩
  have hc₁ := hgrows.sound hs hc
  have hentry : ∀ v', Holds d c q v' ↔ c₁.entries (q.key d tokens) = some v' := fun v' ↦ by
    rw [← hgrows.holds hs hc hknown hq, hvector.holds_iff]
  -- a hit and a miss both store `v`, into a server with the rows of `c`
  have hstored : ∃ c₂, Grows c₁ c₂ ∧ c' = c₂.stored p (q.snapshot d tokens) v := by
    rcases houtcome with hhit | ⟨-, c₂, hgrows₂, rfl⟩
    · obtain ⟨-, c₂, hgrows₂, ⟨v', hv', rfl⟩ | ⟨hnone, -⟩⟩ := hhit.cases
      · obtain rfl := Option.some.inj hv'
        exact ⟨c₂, hgrows₂, rfl⟩
      · cases hnone
    · exact ⟨c₂, hgrows₂, rfl⟩
  obtain ⟨c₂, hgrows₂, rfl⟩ := hstored
  have hc₂ := hgrows₂.sound hs hc₁
  have hvector₂ : c₂.VectorOf d (queryScopes d q) tokens :=
    ⟨hvector.1, hgrows₂.current hvector.2⟩
  refine ⟨fun v' hv' ↦ ?_, hc₂.stored hs hknown hq hvector₂, fun q' hknown' hq' v' ↦ ?_⟩
  · rw [hentry] at hv'
    rcases houtcome with hhit | ⟨hmiss, -⟩
    · exact Option.some.inj (hhit.1.trans hv')
    · rw [hmiss] at hv'
      cases hv'
  · rw [holds_stored hs hc₂ hknown hq hvector₂ hknown' hq', hgrows₂.holds hs hc₁ hknown' hq',
      hgrows.holds hs hc hknown' hq']

/-- An invalidation takes the rows from the queries that it reaches. -/
theorem gives_invalidateModel_rows (modelName db : Str) :
    Gives (acts p inside) (invalidateModel d modelName db : CacheProgram Sql (Rows D) ℕ) c
      fun _ c' ↦ Sound d known (fun q ↦ filled q ∧ ¬Reached d filled q modelName db) c' ∧
        ∀ q, known q → q.Cacheable → ∀ v,
          Holds d c' q v ↔ Holds d c q v ∧ ¬Reached d filled q modelName db := by
  refine (gives_invalidateModel (hc.tidy p) modelName db).mono ?_
  rintro n c' (⟨hblank, rfl⟩ | ⟨-, c₁, hrotated, hdropped⟩)
  · have hnot : ∀ q, known q → q.Cacheable → ¬Reached d filled q modelName db :=
      fun q hknown hq ↦ not_reached_blank hs hc hknown hq hblank
    have hfilled : (fun q ↦ filled q ∧ ¬Reached d filled q modelName db) = filled := by
      funext q
      refine propext ⟨And.left, fun hq ↦ ⟨hq, ?_⟩⟩
      obtain ⟨hknown, hcacheable, -⟩ := hc.held q hq
      exact hnot q hknown hcacheable
    rw [hfilled]
    exact ⟨hc, fun q hknown hq v ↦ (and_iff_left (hnot q hknown hq)).symm⟩
  · exact ⟨hc.invalidated hs hrotated hdropped,
      fun q hknown hq v ↦ holds_invalidated hs hc hrotated hdropped hknown hq⟩

theorem gives_clear_rows :
    Gives (acts p inside) (clear : CacheProgram Sql (Rows D) Unit) c
      fun _ c' ↦ Sound d known (fun _ ↦ False) c' ∧ ∀ q v, ¬Holds d c' q v := by
  refine gives_clear.mono ?_
  rintro - c' ⟨generation, rfl⟩
  exact ⟨hc.cleared hs generation, fun q v ↦ not_holds_cleared _⟩

end Calls

theorem sound_initial : Sound d known (fun _ ↦ False) (initial : CalmServer P D) where
  valid scope s hs := by cases hs
  tidy p := ⟨CacheState.mirrored_initial, rfl, rfl, rfl⟩
  entries key v hentry := by cases hentry
  listed p name key hl := by simp [CacheState.Lists, CacheState.initial, initial] at hl
  held q hq := hq.elim
  indexed _ q hq := hq.elim

end CalmServer

end DjangoNova
