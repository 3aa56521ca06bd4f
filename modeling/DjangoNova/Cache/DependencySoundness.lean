import DjangoNova.Cache.Dependencies
import DjangoNova.Fallible.Except

/-!
# What the dependencies of a query leave out

`rowModels` are the models that can influence the rows of a query, found
by following everything that Django follows. The check of a query plan
sees all source expressions, so a plan that it accepts can hide a model
only in an operand, in the condition of a filtered relation, in a default
order, behind the plain query of a prefetched model, or in a known
related object.
-/

namespace DjangoNova

namespace Expression

variable {M : Type}

mutual

/-- The models whose tables the SQL of an expression names, at any depth. -/
def allTables : Expression M → List M
  | .node _ _ tables sources operands => tables ++ tablesOfAll sources ++ tablesOfAll operands

def tablesOfAll : List (Expression M) → List M
  | [] => []
  | e :: es => allTables e ++ tablesOfAll es

end

mutual

/-- The models that an expression names out of sight of the check. -/
def untracked : Expression M → List M
  | .node _ kind tables sources operands =>
      if kind = .other then tables ++ untrackedOfAll sources ++ tablesOfAll operands else []

def untrackedOfAll : List (Expression M) → List M
  | [] => []
  | e :: es => untracked e ++ untrackedOfAll es

end

mutual

theorem untracked_subset : ∀ e : Expression M, untracked e ⊆ allTables e
  | .node _ kind tables sources operands => by
      have hsources := untrackedOfAll_subset sources
      intro m hm
      simp only [untracked] at hm
      split at hm
      · simp only [allTables, List.mem_append] at hm ⊢
        exact hm.imp_left (Or.imp_right fun h ↦ hsources h)
      · cases hm

theorem untrackedOfAll_subset : ∀ es : List (Expression M), untrackedOfAll es ⊆ tablesOfAll es
  | [] => List.nil_subset _
  | e :: es => by
      have hes := untrackedOfAll_subset es
      intro m hm
      simp only [untrackedOfAll, tablesOfAll, List.mem_append] at hm ⊢
      exact hm.imp (fun h ↦ untracked_subset e h) fun h ↦ hes h

end

mutual

/-- Where every exposed expression is an ordinary one, nothing else names tables. -/
theorem allTables_subset {es : List (Expression M)} (h : ∀ x, Exposes es x → x.kind = .other) :
    ∀ e, Exposes es e → allTables e ⊆ untracked e
  | .node identity kind tables sources operands, he => by
      have hsources := tablesOfAll_subset h sources fun c hc ↦ he.source hc
      have hkind : kind = .other := h _ he
      intro m hm
      simp only [allTables, untracked, hkind, if_true, List.mem_append] at hm ⊢
      exact hm.imp_left (Or.imp_right fun h ↦ hsources h)

theorem tablesOfAll_subset {es : List (Expression M)} (h : ∀ x, Exposes es x → x.kind = .other) :
    ∀ l : List (Expression M), (∀ c ∈ l, Exposes es c) → tablesOfAll l ⊆ untrackedOfAll l
  | [], _ => List.nil_subset _
  | e :: l, hl => by
      have he := allTables_subset h e (hl e List.mem_cons_self)
      have hrest := tablesOfAll_subset h l fun c hc ↦ hl c (List.mem_cons_of_mem e hc)
      intro m hm
      simp only [tablesOfAll, untrackedOfAll, List.mem_append] at hm ⊢
      exact hm.imp (fun h ↦ he h) fun h ↦ hrest h

end

end Expression

namespace Dependencies

open Expression

variable {M : Type}

/-- The identities in `seen'` beyond `seen` are those of ordinary exposed
expressions, with their sources. -/
def ClosedOver (es : List (Expression M)) (seen seen' : Finset ℕ) : Prop :=
  ∀ i ∈ seen', i ∈ seen ∨
    ∃ x, Exposes es x ∧ x.identity = i ∧ x.kind = .other ∧ ∀ c ∈ x.sources, c.identity ∈ seen'

theorem ClosedOver.trans {es : List (Expression M)} {s₁ s₂ s₃ : Finset ℕ}
    (h : ClosedOver es s₁ s₂) (h' : ClosedOver es s₂ s₃) (hsub : s₂ ⊆ s₃) :
    ClosedOver es s₁ s₃ := by
  intro i hi
  rcases h' i hi with hold | hnew
  · rcases h i hold with hs | ⟨x, hx, hid, hkind, hsources⟩
    · exact .inl hs
    · exact .inr ⟨x, hx, hid, hkind, fun c hc ↦ hsub (hsources c hc)⟩
  · exact .inr hnew

mutual

theorem checkExpression_spec {es : List (Expression M)} {seen seen' : Finset ℕ} :
    ∀ e, Exposes es e → checkExpression e seen = .ok seen' →
      seen ⊆ seen' ∧ e.identity ∈ seen' ∧ ClosedOver es seen seen'
  | .node identity kind tables sources operands, he, h => by
      simp only [checkExpression] at h
      split at h
      · rename_i hseen
        obtain rfl := Except.ok.inj h
        exact ⟨Finset.Subset.refl _, hseen, fun i hi ↦ .inl hi⟩
      split at h
      · rename_i hkind
        obtain ⟨hsub, hids, hclosed⟩ :=
          checkExpressions_spec sources (fun c hc ↦ he.source hc) h
        obtain ⟨hself, hseen⟩ := Finset.insert_subset_iff.mp hsub
        refine ⟨hseen, hself, fun i hi ↦ ?_⟩
        rcases hclosed i hi with hold | hnew
        · rcases Finset.mem_insert.mp hold with rfl | hold
          · exact .inr ⟨_, he, rfl, hkind, hids⟩
          · exact .inl hold
        · exact .inr hnew
      · cases h

theorem checkExpressions_spec {es : List (Expression M)} {seen seen' : Finset ℕ} :
    ∀ l : List (Expression M), (∀ c ∈ l, Exposes es c) → checkExpressions l seen = .ok seen' →
      seen ⊆ seen' ∧ (∀ c ∈ l, c.identity ∈ seen') ∧ ClosedOver es seen seen'
  | [], _, h => by
      obtain rfl := Except.ok.inj h
      exact ⟨Finset.Subset.refl _, by simp, fun i hi ↦ .inl hi⟩
  | e :: l, hl, h => by
      simp only [checkExpressions] at h
      split at h
      · rename_i middle he
        obtain ⟨hsub, hid, hclosed⟩ := checkExpression_spec e (hl e List.mem_cons_self) he
        obtain ⟨hsub', hids, hclosed'⟩ :=
          checkExpressions_spec l (fun c hc ↦ hl c (List.mem_cons_of_mem e hc)) h
        refine ⟨hsub.trans hsub', fun c hc ↦ ?_, hclosed.trans hclosed' hsub'⟩
        rcases List.mem_cons.mp hc with rfl | hc
        · exact hsub' hid
        · exact hids c hc
      · cases h

end

/-- In an accepted plan all exposed expressions are ordinary ones. -/
theorem ordinary_of_checked {es : List (Expression M)} {seen : Finset ℕ}
    (hco : ∀ x y, Exposes es x → Exposes es y → x.identity = y.identity → x = y)
    (h : checkExpressions es ∅ = .ok seen) {x : Expression M} (hx : Exposes es x) :
    x.kind = .other := by
  obtain ⟨-, hids, hclosed⟩ := checkExpressions_spec es (fun c hc ↦ .root hc) h
  have hsees : ∀ y, Exposes es y → y.identity ∈ seen →
      y.kind = .other ∧ ∀ c ∈ y.sources, c.identity ∈ seen := by
    intro y hy hid
    rcases hclosed _ hid with hnone | ⟨z, hz, hzid, hkind, hsources⟩
    · simp at hnone
    · obtain rfl := hco z y hz hy hzid
      exact ⟨hkind, hsources⟩
  have hmem : x.identity ∈ seen := by
    induction hx with
    | root he => exact hids _ he
    | source he hc ih => exact (hsees _ he ih).2 _ hc
  exact (hsees x hx hmem).1

variable (R : Registry M)

/-- The through models and targets along a prefetch path. -/
def pathTargets (current : M) : List Str → List M
  | [] => []
  | part :: parts =>
      match relationField R current part with
      | .error _ => []
      | .ok relation =>
          match relation.relatedModel with
          | none => []
          | some target => relation.through.toList ++ target :: pathTargets target parts

/-- What the plain queries of the targets along a prefetch path read besides. -/
def pathReads (current : M) : List Str → List M
  | [] => []
  | part :: parts =>
      match relationField R current part with
      | .error _ => []
      | .ok relation =>
          match relation.relatedModel with
          | none => []
          | some target => R.plainReads target ++ pathReads target parts

def lookupTargets (model : M) : PrefetchLookup M → List M
  | .path lookup => pathTargets R model (splitPath lookup)
  | .custom _ => []

def lookupReads (model : M) : PrefetchLookup M → List M
  | .path lookup => pathReads R model (splitPath lookup)
  | .custom models => models

/-- The models that a prefetch path goes through. -/
inductive Follows : M → List Str → M → Prop
  | target {m target : M} {part : Str} {parts : List Str} {relation : ModelField M} :
      relationField R m part = .ok relation → relation.relatedModel = some target →
      Follows m (part :: parts) target
  | through {m target through : M} {part : Str} {parts : List Str} {relation : ModelField M} :
      relationField R m part = .ok relation → relation.relatedModel = some target →
      relation.through = some through → Follows m (part :: parts) through
  | further {m target n : M} {part : Str} {parts : List Str} {relation : ModelField M} :
      relationField R m part = .ok relation → relation.relatedModel = some target →
      Follows target parts n → Follows m (part :: parts) n

/-- The models on the plan of a query: its own, those of the joined tables,
and those that its prefetch paths go through. -/
inductive OnPlan (qs : QuerySet M) : M → Prop
  | base : OnPlan qs qs.model
  | joined {m : M} {join : Join M} : join ∈ qs.aliasMap → R.table m = join.tableName →
      (m ∈ R.installed ∨ m = qs.model) → OnPlan qs m
  | prefetched {m : M} {lookup : Str} : .path lookup ∈ qs.prefetchLookups →
      Follows R qs.model (splitPath lookup) m → OnPlan qs m

theorem mem_pathTargets {current m : M} {parts : List Str} :
    m ∈ pathTargets R current parts ↔ Follows R current parts m := by
  constructor
  · intro hm
    induction parts generalizing current with
    | nil => cases hm
    | cons part parts ih =>
        cases hrel : relationField R current part with
        | error x => simp [pathTargets, hrel] at hm
        | ok relation =>
            cases htarget : relation.relatedModel with
            | none => simp [pathTargets, hrel, htarget] at hm
            | some target =>
                simp only [pathTargets, hrel, htarget, List.mem_append, Option.mem_toList,
                  List.mem_cons] at hm
                rcases hm with hthrough | rfl | hrest
                · exact .through hrel htarget hthrough
                · exact .target hrel htarget
                · exact .further hrel htarget (ih hrest)
  · intro hm
    induction hm with
    | target hrel htarget => simp [pathTargets, hrel, htarget]
    | through hrel htarget hthrough => simp [pathTargets, hrel, htarget, hthrough]
    | further hrel htarget _ ih => simp [pathTargets, hrel, htarget, ih]

variable [DecidableEq M]

/-- The base model, the joined models and the prefetch targets with their
through models. -/
def visibleModels (qs : QuerySet M) : List M :=
  qs.model :: qs.aliasMap.flatMap (fun join ↦ tableModels R qs.model join.tableName) ++
    qs.prefetchLookups.flatMap (lookupTargets R qs.model)

omit [DecidableEq M] in
/-- The models that reach the rows around the check: conditions of filtered
relations, default orders, plain queries of prefetch targets, and known
related objects. -/
def detourModels (qs : QuerySet M) : List M :=
  qs.aliasMap.flatMap (fun join ↦ tablesOfAll join.condition) ++ tablesOfAll qs.defaultOrder ++
    qs.prefetchLookups.flatMap (lookupReads R qs.model) ++ qs.knownRelated

/-- The visible models are those on the plan. -/
theorem mem_visibleModels {qs : QuerySet M} {m : M} :
    m ∈ visibleModels R qs ↔ OnPlan R qs m := by
  simp only [visibleModels, List.mem_append, List.mem_cons, List.mem_flatMap, tableModels,
    List.mem_filter, decide_eq_true_eq, List.not_mem_nil, or_false]
  constructor
  · rintro ((rfl | ⟨join, hjoin, hm, htable⟩) | ⟨lookup, hlookup, hm⟩)
    · exact .base
    · exact .joined hjoin htable hm
    · cases lookup with
      | path lookup => exact .prefetched hlookup ((mem_pathTargets R).mp hm)
      | custom _ => cases hm
  · rintro (_ | ⟨hjoin, htable, hm⟩ | ⟨hlookup, hm⟩)
    · exact .inl (.inl rfl)
    · exact .inl (.inr ⟨_, hjoin, hm, htable⟩)
    · exact .inr ⟨_, hlookup, (mem_pathTargets R).mpr hm⟩

/-- The models that can influence the rows of a query or appear in them. -/
def rowModels (qs : QuerySet M) : List M :=
  visibleModels R qs ++ tablesOfAll (checked qs) ++ detourModels R qs

omit [DecidableEq M] in
/-- The models of which the check of the plan sees nothing. -/
def hiddenModels (qs : QuerySet M) : List M :=
  untrackedOfAll (checked qs) ++ detourModels R qs

/-- One of the models has the label of `m`. -/
def Includes (models : List M) (m : M) : Prop := ∃ n ∈ models, R.labelLower n = R.labelLower m

instance (models : List M) (m : M) : Decidable (Includes R models m) :=
  inferInstanceAs (Decidable (∃ n ∈ models, R.labelLower n = R.labelLower m))

variable {R}

omit [DecidableEq M] in
theorem pathModels_ok {db : Str} {current : M} {parts : List Str} {models : List M}
    (h : pathModels R db current parts = .ok models) : models = pathTargets R current parts := by
  induction parts generalizing current models with
  | nil => exact (Except.ok.inj h).symm
  | cons part parts ih =>
      cases hrel : relationField R current part with
      | error x => simp [pathModels, hrel] at h
      | ok relation =>
          cases htarget : relation.relatedModel with
          | none => simp [pathModels, hrel, htarget] at h
          | some target =>
              simp only [pathModels, hrel, htarget] at h
              simp only [pathTargets, hrel, htarget]
              split at h
              · split at h
                · cases h
                · rename_i rest hrest
                  rw [← Except.ok.inj h, ih hrest]
              · cases h

omit [DecidableEq M] in
theorem prefetchModels_ok {db : Str} {model : M} {lookups : List (PrefetchLookup M)}
    {models : List M} {paths : List Str}
    (h : prefetchModels R db model lookups = .ok (models, paths)) :
    models = lookups.flatMap (lookupTargets R model) := by
  induction lookups generalizing models paths with
  | nil => exact (Prod.mk.inj (Except.ok.inj h)).1.symm
  | cons lookup lookups ih =>
      cases lookup with
      | custom _ => cases h
      | path lookup =>
          simp only [prefetchModels] at h
          split at h
          · cases h
          · rename_i first hfirst
            split at h
            · cases h
            · rename_i others rest hrest
              rw [List.flatMap_cons, ← ih hrest, lookupTargets, ← pathModels_ok hfirst]
              exact (Prod.mk.inj (Except.ok.inj h)).1.symm

theorem joinModels_ok {model : M} {joins : List (Join M)} {models : List M}
    (h : joinModels R model joins = .ok models) :
    models = joins.flatMap fun join ↦ tableModels R model join.tableName := by
  induction joins generalizing models with
  | nil => exact (Except.ok.inj h).symm
  | cons join joins ih =>
      simp only [joinModels] at h
      split at h
      · cases h
      split at h
      · cases h
      split at h
      · cases h
      · rename_i rest hrest
        rw [List.flatMap_cons, ← ih hrest]
        exact (Except.ok.inj h).symm

section Assign

variable {label : Str}

omit [DecidableEq M] in
theorem mem_assign {entries : List (Str × M)} {m : M} :
    (∃ e ∈ assign R entries m, e.1 = label) ↔
      (∃ e ∈ entries, e.1 = label) ∨ R.labelLower m = label := by
  simp only [assign, List.mem_append, List.mem_filter, List.mem_singleton, bne_iff_ne]
  constructor
  · rintro ⟨e, ⟨he, -⟩ | rfl, hlabel⟩
    · exact .inl ⟨e, he, hlabel⟩
    · exact .inr hlabel
  · rintro (⟨e, he, hlabel⟩ | hlabel)
    · by_cases hm : R.labelLower m = label
      · exact ⟨(R.labelLower m, m), .inr rfl, hm⟩
      · exact ⟨e, .inl ⟨he, fun heq ↦ hm (heq.symm.trans hlabel)⟩, hlabel⟩
    · exact ⟨(R.labelLower m, m), .inr rfl, hlabel⟩

omit [DecidableEq M] in
theorem mem_foldl_assign (models : List M) (entries : List (Str × M)) :
    (∃ e ∈ models.foldl (assign R) entries, e.1 = label) ↔
      (∃ e ∈ entries, e.1 = label) ∨ ∃ m ∈ models, R.labelLower m = label := by
  induction models generalizing entries with
  | nil => simp
  | cons m models ih =>
      simp only [List.foldl_cons, ih, mem_assign, or_assoc, List.mem_cons, exists_eq_or_imp]

omit [DecidableEq M] in
theorem keyed_foldl_assign (models : List M) {entries : List (Str × M)}
    (h : ∀ e ∈ entries, e.1 = R.labelLower e.2) :
    ∀ e ∈ models.foldl (assign R) entries, e.1 = R.labelLower e.2 := by
  induction models generalizing entries with
  | nil => exact h
  | cons m models ih =>
      refine ih fun e he ↦ ?_
      simp only [assign, List.mem_append, List.mem_filter, List.mem_singleton] at he
      rcases he with ⟨he, -⟩ | rfl
      · exact h e he
      · rfl

omit [DecidableEq M] in
/-- The sorted models have the labels of the assigned ones. -/
theorem includes_sortedModels (models : List M) (m : M) :
    Includes R (sortedModels (models.foldl (assign R) [])) m ↔ Includes R models m := by
  have hkeyed : ∀ e ∈ models.foldl (assign R) [], e.1 = R.labelLower e.2 :=
    keyed_foldl_assign models (by simp)
  have hfold : (∃ e ∈ models.foldl (assign R) [], e.1 = R.labelLower m) ↔
      ∃ n ∈ models, R.labelLower n = R.labelLower m := by
    simpa using mem_foldl_assign models []
  rw [Includes, Includes, ← hfold]
  constructor
  · rintro ⟨n, hn, hlabel⟩
    obtain ⟨e, he, rfl⟩ := List.mem_map.mp hn
    have hmem := (List.mem_insertionSort _).mp he
    exact ⟨e, hmem, (hkeyed e hmem).trans hlabel⟩
  · rintro ⟨e, he, hlabel⟩
    refine ⟨e.2, List.mem_map.mpr ⟨e, (List.mem_insertionSort _).mpr he, rfl⟩, ?_⟩
    exact (hkeyed e he).symm.trans hlabel

end Assign

variable {qs : QuerySet M} {deps : QueryDependencies M}

/-- A successful `query_dependencies` has checked the plan and returns the
visible models. -/
theorem queryDependencies_ok (h : queryDependencies R qs = .ok deps) :
    (∃ seen, checkExpressions (checked qs) ∅ = .ok seen) ∧
      ∀ m, Includes R deps.models m ↔ Includes R (visibleModels R qs) m := by
  simp only [queryDependencies, ite_error_eq_ok, bind_eq_ok] at h
  obtain ⟨-, -, seen, hchecked, joined, hjoined, ⟨fetched, paths⟩, hfetched, hdeps⟩ := h
  obtain ⟨-, hfetched⟩ := ite_error_eq_ok.mp hfetched
  obtain rfl := Except.ok.inj hdeps
  refine ⟨⟨seen, hchecked⟩, fun m ↦ ?_⟩
  rw [includes_sortedModels, visibleModels, ← joinModels_ok hjoined, ← prefetchModels_ok hfetched]

/-- The returned models cover everything that can influence the rows if and
only if each hidden model has the label of one on the plan. -/
theorem dependency_soundness (h : queryDependencies R qs = .ok deps) :
    (∀ m ∈ rowModels R qs, Includes R deps.models m) ↔
      ∀ m ∈ hiddenModels R qs, ∃ n, OnPlan R qs n ∧ R.labelLower n = R.labelLower m := by
  obtain ⟨⟨seen, hchecked⟩, hdeps⟩ := queryDependencies_ok h
  have hordinary : ∀ x, Exposes (checked qs) x → x.kind = .other :=
    fun x hx ↦ ordinary_of_checked qs.coherent hchecked hx
  have htables : ∀ m, m ∈ tablesOfAll (checked qs) ↔ m ∈ untrackedOfAll (checked qs) :=
    fun m ↦ ⟨fun hm ↦ tablesOfAll_subset hordinary _ (fun c hc ↦ .root hc) hm,
      fun hm ↦ untrackedOfAll_subset _ hm⟩
  have hplan : ∀ m, Includes R deps.models m ↔
      ∃ n, OnPlan R qs n ∧ R.labelLower n = R.labelLower m := by
    intro m
    rw [hdeps]
    exact exists_congr fun n ↦ and_congr_left' (mem_visibleModels R)
  constructor
  · intro hrows m hm
    rw [← hplan]
    apply hrows
    simp only [rowModels, hiddenModels, List.mem_append, htables] at hm ⊢
    tauto
  · intro hhidden m hm
    rw [hplan]
    simp only [rowModels, List.mem_append, htables] at hm
    rcases hm with (hvisible | huntracked) | hdetour
    · exact ⟨m, (mem_visibleModels R).mp hvisible, rfl⟩
    · exact hhidden m (List.mem_append_left _ huntracked)
    · exact hhidden m (List.mem_append_right _ hdetour)

end Dependencies

section Sample

variable {M : Type}

/-- A query without expressions, with the tables that it joins and the
models of its known related objects. -/
def plainQuery (model : M) (joined : List Str) (known : List M) : QuerySet M where
  model := model
  db := ['d']
  extra := false
  extraTables := false
  combinedQueries := false
  selectForUpdate := false
  whereNode := .node 0 .other [] [] []
  annotations := []
  select := []
  orderBy := []
  groupBy := []
  defaultOrder := []
  aliasMap := joined.map fun tableName ↦ ⟨tableName, []⟩
  prefetchLookups := []
  knownRelated := known
  coherent := by
    have hleaf : ∀ x : Expression M,
        Expression.Exposes [.node 0 .other [] [] []] x → x = .node 0 .other [] [] [] := by
      intro x hx
      induction hx with
      | root he => exact List.mem_singleton.mp he
      | source _ hc ih =>
          subst ih
          cases hc
    intro x y hx hy _
    rw [hleaf x hx, hleaf y hy]

/-! Articles, and authors that write them. -/

inductive Press where
  | author
  | article
  deriving DecidableEq

def press : Registry Press where
  label := fun
    | .author => ⟨['p'], ['a', 'u']⟩
    | .article => ⟨['p'], ['a', 'r']⟩
  label_clean := by
    intro m
    cases m <;> decide
  cacheEnabled := fun _ ↦ true
  table := fun
    | .author => ['a', 'u']
    | .article => ['a', 'r']
  proxy := fun _ ↦ false
  autoCreated := fun _ ↦ false
  managers := fun _ ↦ []
  fields := fun
    | .author => [⟨false, some ['s', 'e', 't'], some .article, none⟩]
    | .article => [⟨false, none, some .author, none⟩]
  getField := fun _ _ ↦ none
  getField_mem := by simp
  installed := [.author, .article]
  routers := false
  parents := fun _ ↦ []
  parent_related := by simp
  cascades := fun _ ↦ []
  cascade_related := by simp
  plainReads := fun _ ↦ []

open Dependencies

/-- Articles with the author table in the plan and known authors on the rows. -/
def articleSet : QuerySet Press := plainQuery .article [['a', 'r'], ['a', 'u']] [.author]

theorem articleSet_deps :
    queryDependencies press articleSet = .ok ⟨[.article, .author], []⟩ := rfl

theorem dependency_soundness_sample :
    .author ∈ rowModels press articleSet ∧ Includes press [.article, .author] .author := by
  have hjoin : (⟨['a', 'u'], []⟩ : Join Press) ∈ articleSet.aliasMap :=
    List.mem_cons_of_mem _ List.mem_cons_self
  have hmem : .author ∈ rowModels press articleSet := by decide
  refine ⟨hmem, (dependency_soundness articleSet_deps).mpr (fun m hm ↦ ?_) .author hmem⟩
  have hauthor : m = .author := by
    revert hm
    cases m <;> decide
  exact ⟨.author, .joined hjoin rfl (.inl List.mem_cons_self), hauthor ▸ rfl⟩

/-- The operand `[Subquery(Author.objects.values("pk")[:1])]` of an `in`
lookup: an ordinary lookup of a column, with the list as a further operand. -/
def listLookup : Expression Press :=
  .node 1 .other [] [.node 2 .other [.article] [] []]
    [.node 3 .subquery [] [.node 4 .query [.author] [] []] []]

/-- `Article.objects.filter(t__in=[Subquery(Author.objects.values("pk")[:1])])`. -/
def listQuery : QuerySet Press where
  model := .article
  db := ['d']
  extra := false
  extraTables := false
  combinedQueries := false
  selectForUpdate := false
  whereNode := .node 0 .other [] [listLookup] []
  annotations := []
  select := []
  orderBy := []
  groupBy := []
  defaultOrder := []
  aliasMap := [⟨['a', 'r'], []⟩]
  prefetchLookups := []
  knownRelated := []
  coherent := by
    have hnodes : ∀ x : Expression Press,
        Expression.Exposes [.node 0 .other [] [listLookup] []] x →
        x = .node 0 .other [] [listLookup] [] ∨ x = listLookup ∨
          x = .node 2 .other [.article] [] [] := by
      intro x hx
      induction hx with
      | root he => exact .inl (List.mem_singleton.mp he)
      | source _ hc ih =>
          rcases ih with rfl | rfl | rfl
          · exact .inr (.inl (List.mem_singleton.mp hc))
          · exact .inr (.inr (List.mem_singleton.mp hc))
          · cases hc
    intro x y hx hy heq
    rcases hnodes x hx with rfl | rfl | rfl <;> rcases hnodes y hy with rfl | rfl | rfl <;>
      first | rfl | cases heq

/-- The rows depend on the authors, but only the article is returned: the
elements of the list are no source expressions of the lookup. -/
theorem dependency_soundness_fails :
    ∃ deps, queryDependencies press listQuery = .ok deps ∧
      ¬∀ m ∈ rowModels press listQuery, Includes press deps.models m :=
  ⟨⟨[.article], []⟩, rfl, by decide⟩

end Sample

end DjangoNova
