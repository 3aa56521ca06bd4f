import DjangoNova.Cache.ResultTable

/-!
# What an invalidation reaches

After calls in turn without faults an invalidation makes a cached query miss
if the query depends on the model. Without generations it also does so if
another query that is cached under the same key depends on the model; the
scopes that generations put into the keys exclude that.
-/

namespace DjangoNova

open Program QuerySetCache CalmServer

section Reach

variable {T P Sql D : Type} [DecidableEq T] [DecidableEq P] {d : Deployment Sql} {proc : T → P}
  {known filled : PreparedQuery Sql → Prop} {c : CalmServer P D} {q : PreparedQuery Sql}
  {w w' : CacheWorld T P Sql D} {calls rest : List (CalmCall T Sql D)} {own inside : Bool}
  {thread reader : T} {modelName db : Str} {count answer : Except CacheError (CacheResult (Rows D))}

theorem SequentialRun.append (h : SequentialRun d proc w (calls ++ rest) w') :
    ∃ w₁, SequentialRun d proc w calls w₁ ∧ SequentialRun d proc w₁ rest w' := by
  induction calls generalizing w with
  | nil => exact ⟨w, .nil w, h⟩
  | cons x calls ih =>
      cases h with
      | cons hcall hrest =>
          obtain ⟨w₁, hcalls, hrest⟩ := ih hrest
          exact ⟨w₁, .cons hcall hcalls, hrest⟩

/-- The queries that are cached after calls in turn on a fresh cache. -/
def CachedAfter (d : Deployment Sql) (calls : List (CalmCall T Sql D)) : PreparedQuery Sql → Prop :=
  calls.foldl (CalmCall.filledAfter d) fun _ ↦ False

namespace CalmServer

/-- A filled query misses after an invalidation that reaches it, and hits
after any other one. -/
theorem misses_iff_reached (hs : Suits P d known) (hd : d.returnsDetached = .ok own)
    (hc : Sound d known filled c) (hw : Reduces w c) (hq : filled q)
    (hrun : SequentialRun d proc w [⟨thread, inside, .invalidateModel modelName db, count⟩,
      ⟨reader, false, .get q, answer⟩] w') :
    (answer = .ok .miss ∨ ∃ v, answer = .ok (.rows v)) ∧
      (answer = .ok .miss ↔ Reached d filled q modelName db) := by
  cases hrun with
  | cons hinvalidate hrest =>
      cases hrest with
      | cons hget hnil =>
          obtain ⟨c₁, hrun₁, hw₁⟩ := hinvalidate.simulate (fun _ _ _ _ _ ↦ acts_of_machine) hw
          obtain ⟨c₂, hrun₂, -⟩ := hget.simulate (fun _ _ _ _ _ ↦ acts_of_machine) hw₁
          obtain ⟨hknown, hcacheable, v, hv⟩ := hc.held q hq
          obtain ⟨-, hsound, hholds⟩ := invalidateModel_program hs hc _ _ hrun₁
          obtain ⟨r, hr, hfound, -⟩ :=
            get_program (gives_get_rows hs hsound hd hknown hcacheable) _ _ hrun₂
          have hanswer : answer = .ok (ResultTable.found r) := hr
          subst hanswer
          simp only [hholds q hknown hcacheable] at hfound
          cases r with
          | none =>
              refine ⟨.inl rfl, iff_of_true rfl ?_⟩
              by_contra hreached
              cases (hfound v).mpr ⟨hv, hreached⟩
          | some v' => exact ⟨.inr ⟨v', rfl⟩, iff_of_false nofun ((hfound v').mp rfl).2⟩

omit [DecidableEq P] in
/-- What a call reaches of a cached query: by its own models, or without
generations by those of a query under the same key. -/
theorem reached_iff_of_filled (hc : Sound d known filled c) (hq : filled q) :
    Reached d filled q modelName db ↔ DependsOn d q modelName db ∨ d.generation = false ∧
      ∃ q', filled q' ∧ q'.SameKey d q ∧ DependsOn d q' modelName db := by
  obtain ⟨-, hcacheable, -⟩ := hc.held q hq
  constructor
  · intro hreached
    cases hd : d.generation with
    | true => exact .inl ((reached_iff_dependsOn hd hcacheable).mp hreached)
    | false =>
        obtain ⟨q', hfilled, -, hsame, hdep⟩ := hreached
        exact .inr ⟨rfl, q', hfilled hd, hsame, hdep⟩
  · rintro (hdep | ⟨hd, q', hfilled, hsame, hdep⟩)
    · exact ⟨q, fun _ ↦ hq, hcacheable, .refl q, hdep⟩
    · exact ⟨q', fun _ ↦ hfilled, (hc.held q' hfilled).2.1, hsame, hdep⟩

end CalmServer

/-- A cached query misses after an invalidation exactly if it depends on the
model, if and only if so does every query cached under the same key that
does; with generations this is always so. -/
theorem invalidation_exact
    (hs : Suits P d (CalmCall.Asked (calls ++
      [⟨thread, inside, .invalidateModel modelName db, count⟩, ⟨reader, false, .get q, answer⟩])))
    (hd : d.returnsDetached = .ok own)
    (hrun : SequentialRun d proc CacheWorld.initial (calls ++
      [⟨thread, inside, .invalidateModel modelName db, count⟩, ⟨reader, false, .get q, answer⟩]) w)
    (hq : CachedAfter d calls q) :
    (answer = .ok .miss ∨ ∃ v, answer = .ok (.rows v)) ∧
      ((answer = .ok .miss ↔ DependsOn d q modelName db) ↔
        (d.generation = false → ∀ q', CachedAfter d calls q' → q'.SameKey d q →
          DependsOn d q' modelName db → DependsOn d q modelName db)) := by
  obtain ⟨w₁, hcalls, hrest⟩ := hrun.append
  obtain ⟨c, hw, hsound, -⟩ := sound_of_run hs hd hcalls
    (fun q ⟨x, hx, hxq⟩ ↦ ⟨x, List.mem_append_left _ hx, hxq⟩) reduces_initial
    CalmServer.sound_initial
  have hc : CalmServer.Sound d _ (CachedAfter d calls) c := hsound
  obtain ⟨hends, hmiss⟩ := misses_iff_reached hs hd hc hw hq hrest
  refine ⟨hends, ?_⟩
  rw [hmiss, reached_iff_of_filled hc hq]
  constructor
  · intro hexact hindex q' hq' hsame hdep
    exact hexact.mp (.inr ⟨hindex, q', hq', hsame, hdep⟩)
  · intro hcondition
    refine ⟨?_, .inl⟩
    rintro (hdep | ⟨hindex, q', hq', hsame, hdep⟩)
    · exact hdep
    · exact hcondition hindex q' hq' hsame hdep

end Reach

section Sample

/-! All posts, and the posts that nobody of an empty list has not written:
one statement, but the plan of the second one has the author table. -/

def authorLabel : ModelLabel := ⟨"blog".toList, "author".toList⟩

def allPosts : PreparedQuery Str :=
  { postQuery with dependencies := .ok (some ([postQuery.model], [])) }

def excludedPosts : PreparedQuery Str :=
  { postQuery with dependencies := .ok (some ([authorLabel, postQuery.model], [])) }

def postFills (readAt readAt' : ℕ) : List (CalmCall Bool Str Bool) :=
  [⟨true, false, .getOrSet allPosts, .ok (.rows ⟨true, readAt⟩)⟩,
    ⟨true, false, .getOrSet excludedPosts, .ok (.rows ⟨true, readAt'⟩)⟩]

/-- The fills, an invalidation of the authors by another thread, and its
lookup of all posts. -/
def authorCalls (readAt readAt' count : ℕ) (answer : Except CacheError (CacheResult (Rows Bool))) :
    List (CalmCall Bool Str Bool) :=
  postFills readAt readAt' ++
    [⟨false, false, .invalidateModel "blog.author".toList "default".toList, .ok (.count count)⟩,
      ⟨false, false, .get allPosts, answer⟩]

section

variable {d : Deployment Str} {readAt readAt' count : ℕ}
  {answer : Except CacheError (CacheResult (Rows Bool))}

theorem cachedAfter_postFills : CachedAfter d (postFills readAt readAt') allPosts :=
  .inl (.inr ⟨⟨rfl, _, rfl⟩, rfl⟩)

theorem asked_authorCalls {q : PreparedQuery Str}
    (h : CalmCall.Asked (authorCalls readAt readAt' count answer) q) :
    q = allPosts ∨ q = excludedPosts := by
  obtain ⟨x, hx, hq⟩ := h
  simp only [authorCalls, postFills, List.cons_append, List.nil_append, List.mem_cons,
    List.not_mem_nil, or_false] at hx
  rcases hx with rfl | rfl | rfl | rfl
  · exact .inl (CacheCall.getOrSet.inj (hq.resolve_left nofun)).symm
  · exact .inr (CacheCall.getOrSet.inj (hq.resolve_left nofun)).symm
  · rcases hq with hq | hq <;> cases hq
  · exact .inl (CacheCall.get.inj (hq.resolve_right nofun)).symm

theorem suits_authorCalls {P : Type} (generation : Bool)
    (halone : generation = false → ∀ p p' : P, p = p') :
    Suits P (aliasDeployment generation)
      (CalmCall.Asked (authorCalls readAt readAt' count answer)) := by
  refine suits_aliasDeployment generation halone fun q hq m hm ↦ ?_
  have hmodel : m = postQuery.model ∨ m = authorLabel := by
    rcases asked_authorCalls hq with rfl | rfl
    · exact .inl (by simpa [allPosts, PreparedQuery.tracked, dependencyModels] using hm)
    · simp only [excludedPosts, PreparedQuery.tracked, dependencyModels, Option.getD_some,
        List.mem_cons, List.not_mem_nil, or_false] at hm
      tauto
  rcases hmodel with rfl | rfl <;> cases generation <;> exact ⟨by decide, by decide⟩

theorem not_dependsOn_allPosts (generation : Bool) :
    ¬DependsOn (aliasDeployment generation) allPosts "blog.author".toList "default".toList := by
  rintro ⟨dependencies, m, hdeps, hm, hname, -⟩
  obtain rfl := Except.ok.inj hdeps
  obtain rfl : m = postQuery.model := by simpa [allPosts, dependencyModels] using hm
  revert hname
  cases generation <;> decide

end

def authorShared : List (List (CacheChoice Bool)) :=
  [.flag false :: served 5 (.token (postToken 'a') :: served 4 (.token (postToken 'b') ::
      served 3 (.flag false :: served 5 (.flag false :: .content true :: served 2
        (.flag false :: served 14 []))))),
    .flag false :: served 7 (.token (postToken 'c') :: served 4 (.token (postToken 'd') ::
      served 7 (.flag false :: served 5 (.flag false :: .content true :: served 2
        (.flag false :: served 20 []))))),
    .flag false :: served 3 (.token (postToken 'e') :: served 5 []),
    .flag false :: served 8 (.flag false :: served 15 [])]

/-- Another process over the same backend still finds the posts. -/
theorem authorCalls_shared : ∃ w : CacheWorld Bool Bool Str Bool,
    SequentialRun (aliasDeployment true) id CacheWorld.initial
      (authorCalls 23 69 0 (.ok (.rows ⟨true, 23⟩))) w :=
  run_of_playCalls authorShared (by decide +kernel)

theorem invalidation_exact_sample :
    (.ok (.rows ⟨true, 23⟩) : Except CacheError (CacheResult (Rows Bool))) = .ok .miss ↔
      DependsOn (aliasDeployment true) allPosts "blog.author".toList "default".toList := by
  obtain ⟨w, hrun⟩ := authorCalls_shared
  exact (invalidation_exact (suits_authorCalls true nofun) rfl hrun cachedAfter_postFills).2.mpr
    nofun

def authorIndexed : List (List (CacheChoice Bool)) :=
  [.flag false :: .flag false :: served 5 (.flag false :: .content true :: served 2
      (.flag false :: served 6 [])),
    .flag false :: .flag false :: served 8 [],
    .flag false :: served 4 (.order [allPosts.key (aliasDeployment false) []] :: served 5 []),
    .flag false :: .flag false :: served 4 []]

/-- The index has the names of both queries under their key, so that all posts
miss after an invalidation of the authors. -/
theorem invalidation_exact_fails : ∃ w : CacheWorld Bool Unit Str Bool,
    Suits Unit (aliasDeployment false) (CalmCall.Asked (authorCalls 9 9 1 (.ok .miss))) ∧
      SequentialRun (aliasDeployment false) (fun _ ↦ ()) CacheWorld.initial
        (authorCalls 9 9 1 (.ok .miss)) w ∧
      CachedAfter (aliasDeployment false) (postFills 9 9) allPosts ∧
      ¬DependsOn (aliasDeployment false) allPosts "blog.author".toList "default".toList := by
  obtain ⟨w, hrun⟩ : ∃ w : CacheWorld Bool Unit Str Bool,
      SequentialRun (aliasDeployment false) (fun _ ↦ ()) CacheWorld.initial
        (authorCalls 9 9 1 (.ok .miss)) w :=
    run_of_playCalls authorIndexed (by decide +kernel)
  exact ⟨w, suits_authorCalls false fun _ _ _ ↦ rfl, hrun, cachedAfter_postFills,
    not_dependsOn_allPosts false⟩

end Sample

end DjangoNova
