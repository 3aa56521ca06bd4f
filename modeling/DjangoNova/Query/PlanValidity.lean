import DjangoNova.Query.Paths

/-!
# When a plan is valid

The paths of a plan are meant to be read from the root model, one relation
for each segment. The analyzer gives the full path of a nested schema but
the bare name of a collection, and the planner looks up the first segments
on the root model only.
-/

namespace DjangoNova

namespace SchemaGraph

variable {S : Type} {G : SchemaGraph S}

/-- The schema declares a collection of schemas under this name. -/
def Lists (G : SchemaGraph S) (s : S) (name : Str) : Prop :=
  ∃ ann item, (name, ann) ∈ (G.modelFields s).items ∧ ann.itemSchema = some item

/-- A chain of nested fields whose first step leaves the schema. -/
def Starts (G : SchemaGraph S) (s : S) (names : List Str) : Prop :=
  ∃ name ann r rest, names = name :: rest ∧ (name, ann) ∈ (G.modelFields s).items ∧
    ann.resolvedSchema = some r ∧ r ≠ s ∧ (rest = [] ∨ G.Chain r rest)

theorem Starts.chain {s : S} {names : List Str} (h : G.Starts s names) : G.Chain s names := by
  obtain ⟨name, ann, r, rest, rfl, hmem, hr, -, rfl | hrest⟩ := h
  · exact .single hmem hr
  · exact .cons hmem hr hrest

theorem Chain.ne_nil {s : S} {names : List Str} (h : G.Chain s names) : names ≠ [] := by
  cases h <;> exact List.cons_ne_nil _ _

section Gathering

variable {schema : S} {pathPrefix : Str} {t t' t'' : Traversal S}
  {own own' : List (Str × AnnotationExpr S)} {hints : RelationHints}

/-- What a part of the analysis of a schema collects, when it goes through
the fields `own` of it: the paths of its own fields, and the collections
of these fields and of the schemas that it enters, which are left with
all their references visited. -/
structure Gathered (G : SchemaGraph S) (schema : S) (pathPrefix : Str)
    (own : List (Str × AnnotationExpr S)) (t : Traversal S) (hints : RelationHints)
    (t' : Traversal S) (new : List S) : Prop where
  visited : ∀ s, s ∈ t'.visited ↔ s ∈ t.visited ∨ s ∈ new
  reachable : ∀ s ∈ new, G.Reachable schema s
  closed : ∀ s ∈ new, ∀ r, G.Refers s r → r ∈ t'.visited
  ownVisited : ∀ x ∈ own, ∀ r, x.2.resolvedSchema = some r → r ≠ schema → r ∈ t'.visited
  ownSelect : ∀ x ∈ own, ∀ r, x.2.resolvedSchema = some r → r ≠ schema →
    fullPath pathPrefix x.1 ∈ hints.select
  select : ∀ path ∈ hints.select, ∃ names, G.Starts schema names ∧
    path = names.foldl fullPath pathPrefix
  prefetch : ∀ name, name ∈ hints.prefetch ↔
    (∃ ann item, (name, ann) ∈ own ∧ ann.itemSchema = some item) ∨ ∃ s ∈ new, G.Lists s name

namespace Gathered

variable {new new' : List S}

theorem skip
    (hown : ∀ x ∈ own, x.2.itemSchema = none ∧ ∀ r, x.2.resolvedSchema = some r → r = schema) :
    Gathered G schema pathPrefix own t .none t [] := by
  refine ⟨by simp, by simp, by simp, ?_, ?_, by simp [RelationHints.none], fun name ↦ ?_⟩
  · exact fun x hx r hr hne ↦ absurd ((hown x hx).2 r hr) hne
  · exact fun x hx r hr hne ↦ absurd ((hown x hx).2 r hr) hne
  · refine iff_of_false List.not_mem_nil ?_
    rintro (⟨ann, item, hmem, hitem⟩ | ⟨s, hs, -⟩)
    · rw [(hown _ hmem).1] at hitem
      cases hitem
    · exact absurd hs List.not_mem_nil

theorem append {hints' : RelationHints} (h : Gathered G schema pathPrefix own t hints t' new)
    (h' : Gathered G schema pathPrefix own' t' hints' t'' new') :
    Gathered G schema pathPrefix (own ++ own') t (hints.append hints') t'' (new ++ new') := by
  have hgrow : ∀ s, s ∈ t'.visited → s ∈ t''.visited := fun s hs ↦ (h'.visited s).mpr (.inl hs)
  constructor
  · intro s
    rw [h'.visited, h.visited, List.mem_append, or_assoc]
  · intro s hs
    exact (List.mem_append.mp hs).elim (h.reachable s) (h'.reachable s)
  · intro s hs r hr
    exact (List.mem_append.mp hs).elim (fun hs ↦ hgrow r (h.closed s hs r hr))
      fun hs ↦ h'.closed s hs r hr
  · intro x hx r hr hne
    exact (List.mem_append.mp hx).elim (fun hx ↦ hgrow r (h.ownVisited x hx r hr hne))
      fun hx ↦ h'.ownVisited x hx r hr hne
  · intro x hx r hr hne
    refine List.mem_append.mpr ?_
    exact (List.mem_append.mp hx).imp (fun hx ↦ h.ownSelect x hx r hr hne)
      fun hx ↦ h'.ownSelect x hx r hr hne
  · intro path hpath
    exact (List.mem_append.mp hpath).elim (h.select path) (h'.select path)
  · intro name
    have hmem : name ∈ (hints.append hints').prefetch ↔
        name ∈ hints.prefetch ∨ name ∈ hints'.prefetch := List.mem_append
    simp only [hmem, h.prefetch, h'.prefetch, List.mem_append, or_and_right, exists_or]
    exact or_or_or_comm

end Gathered

variable [DecidableEq S]

/-- What a call gathers; the root of the call is visited in the end, and its
nested fields have their paths if it was not visited before. -/
def Calls (G : SchemaGraph S)
    (recurse : S → Str → Traversal S → Option (RelationHints × Traversal S)) : Prop :=
  ∀ s pathPrefix t hints t', recurse s pathPrefix t = some (hints, t') →
    s ∈ t'.visited ∧ ∃ new, Gathered G s pathPrefix [] t hints t' new ∧
      (s ∉ t.visited → ∀ x ∈ (G.modelFields s).items, ∀ r, x.2.resolvedSchema = some r → r ≠ s →
        fullPath pathPrefix x.1 ∈ hints.select)

variable {recurse : S → Str → Traversal S → Option (RelationHints × Traversal S)}

theorem fieldHints_gathered (hrec : Calls G recurse) {name : Str} {ann : AnnotationExpr S}
    (hmem : (name, ann) ∈ (G.modelFields schema).items)
    (h : fieldHints ∅ recurse schema pathPrefix name ann t = some (hints, t')) :
    ∃ new, Gathered G schema pathPrefix [(name, ann)] t hints t' new := by
  rcases fieldHints_cases h with ⟨rfl, rfl, hitem, hself⟩ | ⟨rfl, rfl, ⟨item, hitem⟩, hnone⟩ |
    ⟨r, nested, hitem, hresolved, hne, hcall, rfl⟩
  · exact ⟨[], .skip fun x hx ↦ List.mem_singleton.mp hx ▸ ⟨hitem, hself⟩⟩
  · refine ⟨[], by simp, by simp, by simp, ?_, ?_, by simp, fun name' ↦ ?_⟩
    · intro x hx r hr
      rw [List.mem_singleton.mp hx, hnone] at hr
      cases hr
    · intro x hx r hr
      rw [List.mem_singleton.mp hx, hnone] at hr
      cases hr
    · constructor
      · intro hname
        obtain rfl := List.mem_singleton.mp hname
        exact .inl ⟨ann, item, List.mem_singleton_self _, hitem⟩
      · rintro (⟨ann', item', hmem', -⟩ | ⟨s, hs, -⟩)
        · obtain ⟨rfl, -⟩ := Prod.mk.inj (List.mem_singleton.mp hmem')
          exact List.mem_singleton_self _
        · exact absurd hs List.not_mem_nil
  · obtain ⟨hvisited, new, hnew, -⟩ := hrec r _ t nested t' hcall
    have href : G.Refers schema r := ⟨name, ann, hmem, hresolved⟩
    refine ⟨new, hnew.visited, fun s hs ↦ href.reachable (hnew.reachable s hs), hnew.closed,
      ?_, ?_, ?_, fun name' ↦ ?_⟩
    · intro x hx r' hr' _
      rw [List.mem_singleton.mp hx, hresolved] at hr'
      exact Option.some.inj hr' ▸ hvisited
    · intro x hx r' _ _
      rw [List.mem_singleton.mp hx]
      exact List.mem_cons_self
    · intro path hpath
      rcases List.mem_cons.mp hpath with rfl | hpath
      · exact ⟨[name], ⟨name, ann, r, [], rfl, hmem, hresolved, hne, .inl rfl⟩, rfl⟩
      · obtain ⟨names, hnames, rfl⟩ := hnew.select path hpath
        exact ⟨name :: names,
          ⟨name, ann, r, names, rfl, hmem, hresolved, hne, .inr hnames.chain⟩, rfl⟩
    · rw [hnew.prefetch]
      refine or_congr (iff_of_false ?_ ?_) Iff.rfl
      · rintro ⟨ann', item', hmem', -⟩
        exact absurd hmem' List.not_mem_nil
      · rintro ⟨ann', item', hmem', hitem'⟩
        obtain ⟨-, rfl⟩ := Prod.mk.inj (List.mem_singleton.mp hmem')
        rw [hitem] at hitem'
        cases hitem'

theorem fieldsHints_gathered (hrec : Calls G recurse) (items : List (Str × AnnotationExpr S))
    (hitems : ∀ x ∈ items, x ∈ (G.modelFields schema).items)
    (h : fieldsHints ∅ recurse schema pathPrefix items t = some (hints, t')) :
    ∃ new, Gathered G schema pathPrefix items t hints t' new := by
  induction items generalizing t hints with
  | nil =>
      obtain ⟨rfl, rfl⟩ := Prod.mk.inj (Option.some.inj h)
      exact ⟨[], .skip fun x hx ↦ absurd hx List.not_mem_nil⟩
  | cons x rest ih =>
      obtain ⟨⟨first, t₁⟩, hfirst, h⟩ := Option.bind_eq_some_iff.mp h
      obtain ⟨⟨more, t₂⟩, hmore, h⟩ := Option.bind_eq_some_iff.mp h
      obtain ⟨rfl, rfl⟩ := Prod.mk.inj (Option.some.inj h)
      obtain ⟨new, hnew⟩ := fieldHints_gathered hrec (hitems x List.mem_cons_self) hfirst
      obtain ⟨new', hnew'⟩ := ih (fun y hy ↦ hitems y (List.mem_cons_of_mem _ hy)) hmore
      exact ⟨new ++ new', hnew.append hnew'⟩

theorem findDeepRelations_calls (fuel : ℕ) : Calls G (G.findDeepRelations ∅ fuel) := by
  induction fuel with
  | zero => exact fun s pathPrefix t hints t' h ↦ by simp [findDeepRelations] at h
  | succ fuel ih =>
      intro s pathPrefix t hints t' h
      unfold findDeepRelations at h
      split at h
      next hvisited =>
        obtain ⟨rfl, rfl⟩ := Prod.mk.inj (Option.some.inj h)
        exact ⟨hvisited, [], .skip fun x hx ↦ absurd hx List.not_mem_nil,
          fun hnew ↦ absurd hvisited hnew⟩
      next hvisited =>
        obtain ⟨new, hnew⟩ := fieldsHints_gathered ih _ (fun _ hx ↦ hx) h
        have hself : s ∈ t'.visited := (hnew.visited s).mpr (.inl (Finset.mem_insert_self s _))
        refine ⟨hself, s :: new, ⟨fun u ↦ ?_, fun u hu ↦ ?_, fun u hu r hr ↦ ?_, by simp, by simp,
          hnew.select, fun name ↦ ?_⟩, fun _ ↦ hnew.ownSelect⟩
        · rw [hnew.visited, Finset.mem_insert, List.mem_cons]
          tauto
        · rcases List.mem_cons.mp hu with rfl | hu
          · exact Relation.ReflTransGen.refl
          · exact hnew.reachable u hu
        · rcases List.mem_cons.mp hu with rfl | hu
          · obtain ⟨name, ann, hmem, hresolved⟩ := hr
            by_cases hne : r = u
            · exact hne ▸ hself
            · exact hnew.ownVisited _ hmem r hresolved hne
          · exact hnew.closed u hu r hr
        · rw [hnew.prefetch]
          simp [Lists]

/-- The whole analysis: the bare name of each collection that a schema in
reach declares, and paths that start with the nested fields of the root,
one of them for each. -/
theorem analysis_hints {fuel : ℕ}
    (h : G.findDeepRelations ∅ fuel schema [] ⟨∅, []⟩ = some (hints, t)) :
    (∀ name, name ∈ hints.prefetch ↔ ∃ s, G.Reachable schema s ∧ G.Lists s name) ∧
      (∀ path ∈ hints.select, ∃ names, G.Starts schema names ∧ path = names.foldl fullPath []) ∧
      ∀ name ann r, (name, ann) ∈ (G.modelFields schema).items → ann.resolvedSchema = some r →
        r ≠ schema → name ∈ hints.select := by
  obtain ⟨hself, new, hnew, hselect⟩ := findDeepRelations_calls fuel schema [] _ hints t h
  have hvisited : ∀ s, s ∈ t.visited ↔ s ∈ new := by
    intro s
    rw [hnew.visited]
    simp
  have hall : ∀ s, s ∈ new ↔ G.Reachable schema s := by
    refine fun s ↦ ⟨hnew.reachable s, fun hs ↦ ?_⟩
    induction hs with
    | refl => exact (hvisited schema).mp hself
    | tail _ hr ih => exact (hvisited _).mp (hnew.closed _ ih _ hr)
  refine ⟨fun name ↦ ?_, hnew.select, fun name ann r hmem hr hne ↦ ?_⟩
  · rw [hnew.prefetch]
    simp [hall]
  · exact hselect (Finset.notMem_empty schema) (name, ann) hmem r hr hne

end Gathering

end SchemaGraph

namespace Planner

variable {M S : Type} {models : ModelGraph M S} {G : SchemaGraph S} {m : M} {schema : S}

section Definitions

variable (models G)

/-- The names lead from each model to the next along its relations. -/
def Resolves : M → List Str → Prop
  | _, [] => True
  | m, name :: rest =>
      ∃ card next, models.getField m name = some ⟨some (card, next)⟩ ∧ Resolves next rest

/-- A field that stands for relations: one object, or a collection of them. -/
def StandsFor (ann : AnnotationExpr S) : Cardinality → S → Prop
  | .toOne, r => ann.resolvedSchema = some r
  | .toMany, r => ann.itemSchema = some r

/-- The schemas below a schema, each with the model that it is read on. -/
inductive Level (m : M) (schema : S) : M → S → Prop
  | root : Level m schema m schema
  | step {m' m'' : M} {s r : S} {name : Str} {ann : AnnotationExpr S} {card card' : Cardinality} :
      Level m schema m' s → (name, ann) ∈ (G.modelFields s).items → StandsFor ann card r →
      models.getField m' name = some ⟨some (card', m'')⟩ → Level m schema m'' r

/-- At every level the fields that stand for relations name such relations. -/
def AllMatch (m : M) (schema : S) : Prop :=
  ∀ m' s, Level models G m schema m' s → ∀ name ann card r,
    (name, ann) ∈ (G.modelFields s).items → StandsFor ann card r →
      ∃ next, models.getField m' name = some ⟨some (card, next)⟩

/-- At some level a field that stands for relations names none. -/
def SomeMissing (m : M) (schema : S) : Prop :=
  ∃ m' s, Level models G m schema m' s ∧ ∃ name ann card r,
    (name, ann) ∈ (G.modelFields s).items ∧ StandsFor ann card r ∧
      ∀ relation, models.getField m' name ≠ some ⟨some relation⟩

/-- Matching fields give a plan whose paths resolve, and a field that names
no relation is refused. -/
structure PlanValid [DecidableEq S] (fuel : ℕ) (m : M) (schema : S) : Prop where
  accepts : AllMatch models G m schema → ∃ plan, buildQueryPlan models G fuel m = .ok plan ∧
    ∀ path ∈ plan.selectRelated ++ plan.prefetchRelated, Resolves models m (segments path)
  refuses : SomeMissing models G m schema → ∃ message setting,
    buildQueryPlan models G fuel m = .error (.configuration message setting)

end Definitions

section Build

variable {hints : RelationHints}

/-- The hints that survive: not redundant, and not below an excluded root. -/
structure Kept (hints : RelationHints) (exclude : List Str) (kept : RelationHints) : Prop where
  select : ∀ path, path ∈ kept.select ↔
    path ∈ removeRedundantPaths hints.select ∧ pathRoot path ∉ exclude
  prefetch : ∀ path, path ∈ kept.prefetch ↔ path ∈ hints.prefetch ∧ pathRoot path ∉ exclude

section Analysis

variable [DecidableEq S] {fuel : ℕ} {t : Traversal S}

theorem analyzeSchemaForRelations_spec (exclude : List Str)
    (hfind : G.findDeepRelations ∅ fuel schema [] ⟨∅, []⟩ = some (hints, t)) :
    ∃ kept, analyzeSchemaForRelations G fuel schema exclude = .ok kept ∧
      Kept hints exclude kept := by
  unfold analyzeSchemaForRelations
  rw [hfind]
  by_cases hexclude : exclude = []
  · subst hexclude
    exact ⟨_, rfl, by simp, by simp⟩
  · exact ⟨_, if_pos hexclude, by simp, by simp⟩

end Analysis

/-- The root of some kept path names no field. -/
def RootMissing (models : ModelGraph M S) (m : M) (kept : RelationHints) : Prop :=
  ∃ path ∈ kept.select ++ kept.prefetch, models.getField m (pathRoot path) = none

theorem validateRelationsExist_cases (models : ModelGraph M S) (m : M) (kept : RelationHints) :
    (validateRelationsExist models m kept = .ok () ∧ ¬RootMissing models m kept) ∨
      ∃ message setting, validateRelationsExist models m kept =
        .error (.configuration message setting) ∧ RootMissing models m kept := by
  unfold validateRelationsExist RootMissing
  cases hfind : (kept.select ++ kept.prefetch).find? fun path ↦
      (models.getField m (pathRoot path)).isNone with
  | none =>
      refine .inl ⟨rfl, ?_⟩
      rintro ⟨path, hpath, hnone⟩
      have hsome := List.find?_eq_none.mp hfind path hpath
      simp [hnone] at hsome
  | some path =>
      have hnone : (models.getField m (pathRoot path)).isNone = true := by
        simpa using List.find?_some hfind
      exact .inr ⟨_, _, rfl, path, List.mem_of_find?_eq_some hfind,
        Option.isNone_iff_eq_none.mp hnone⟩

theorem calculateDeferredFields_cases (models : ModelGraph M S) (G : SchemaGraph S) (m : M)
    (schema : S) (paths : List Str) :
    (models.pk m = none ∧ ∃ message setting,
        calculateDeferredFields models G m schema paths = .error (.configuration message setting)) ∨
      models.pk m ≠ none ∧ ∃ deferred,
        calculateDeferredFields models G m schema paths = .ok deferred := by
  unfold calculateDeferredFields
  cases models.pk m with
  | none => exact .inl ⟨rfl, _, _, rfl⟩
  | some pk => exact .inr ⟨nofun, _, rfl⟩

/-- A plan is refused for a root that names no field, or without a primary key. -/
theorem buildQueryPlan_cases [DecidableEq S] {fuel : ℕ} {t : Traversal S} {config : NovaConfig S}
    (hconfig : models.config m = some config)
    (hschema : config.pydanticSchema = some schema)
    (hfind : G.findDeepRelations ∅ fuel schema [] ⟨∅, []⟩ = some (hints, t)) :
    ∃ kept, Kept hints config.excludeFromPydantic kept ∧
      (((RootMissing models m kept ∨ models.pk m = none) ∧ ∃ message setting,
          buildQueryPlan models G fuel m = .error (.configuration message setting)) ∨
        (¬RootMissing models m kept ∧ models.pk m ≠ none) ∧ ∃ plan,
          buildQueryPlan models G fuel m = .ok plan ∧
            plan.selectRelated = sorted kept.select ∧
              plan.prefetchRelated = sorted kept.prefetch) := by
  obtain ⟨kept, hanalyze, hkept⟩ := analyzeSchemaForRelations_spec config.excludeFromPydantic hfind
  refine ⟨kept, hkept, ?_⟩
  have hbuild : buildQueryPlan models G fuel m = (do
      validateRelationsExist models m kept
      let deferred ← calculateDeferredFields models G m schema kept.select
      .ok ⟨sorted kept.select, sorted kept.prefetch, deferred⟩) := by
    unfold buildQueryPlan
    simp only [hconfig, hschema, Option.bind_some, Option.map_some, hanalyze]
    rfl
  rw [hbuild]
  obtain ⟨hok, hroots⟩ | ⟨message, setting, herror, hroots⟩ :=
    validateRelationsExist_cases models m kept
  · obtain ⟨hpk, message, setting, herror⟩ | ⟨hpk, deferred, hdeferred⟩ :=
      calculateDeferredFields_cases models G m schema kept.select
    · refine .inl ⟨.inr hpk, message, setting, ?_⟩
      rw [hok, herror]
      rfl
    · refine .inr ⟨⟨hroots, hpk⟩,
        ⟨sorted kept.select, sorted kept.prefetch, deferred⟩, ?_, rfl, rfl⟩
      rw [hok, hdeferred]
      rfl
  · refine .inl ⟨.inl hroots, message, setting, ?_⟩
    rw [herror]
    rfl

/-- A plan was built from the hints of an analysis that returned. -/
theorem exists_hints_of_plan [DecidableEq S] {fuel : ℕ} {config : NovaConfig S} {plan : QueryPlan}
    (hconfig : models.config m = some config) (hschema : config.pydanticSchema = some schema)
    (hplan : buildQueryPlan models G fuel m = .ok plan) :
    ∃ hints t, G.findDeepRelations ∅ fuel schema [] ⟨∅, []⟩ = some (hints, t) := by
  unfold buildQueryPlan at hplan
  simp only [hconfig, hschema, Option.bind_some, Option.map_some] at hplan
  obtain ⟨kept, hanalyze, -⟩ := bind_eq_ok.mp hplan
  unfold analyzeSchemaForRelations at hanalyze
  cases hfind : G.findDeepRelations ∅ fuel schema [] ⟨∅, []⟩ with
  | none =>
      rw [hfind] at hanalyze
      cases hanalyze
  | some result => exact ⟨result.1, result.2, rfl⟩

end Build

section Resolution

variable {names : List Str} {name : Str} {m' : M} {s : S}

theorem AllMatch.level (h : AllMatch models G m schema) (hs : G.Reachable schema s) :
    ∃ m', Level models G m schema m' s := by
  induction hs with
  | refl => exact ⟨m, .root⟩
  | tail _ href ih =>
      obtain ⟨m', hlevel⟩ := ih
      obtain ⟨name, ann, hmem, hr⟩ := href
      obtain ⟨next, hnext⟩ := h m' _ hlevel name ann .toOne _ hmem hr
      have hstands : StandsFor ann .toOne _ := hr
      exact ⟨next, hlevel.step hmem hstands hnext⟩

theorem AllMatch.resolves (h : AllMatch models G m schema) (hlevel : Level models G m schema m' s)
    (hchain : G.Chain s names) :
    Resolves models m' names ∧ ∀ n ∈ names, ∃ m' field, models.getField m' n = some field := by
  induction hchain generalizing m' with
  | single hmem hr =>
      obtain ⟨next, hnext⟩ := h m' _ hlevel _ _ .toOne _ hmem hr
      refine ⟨⟨_, next, hnext, trivial⟩, fun n hn ↦ ?_⟩
      rw [List.mem_singleton.mp hn]
      exact ⟨m', _, hnext⟩
  | cons hmem hr _ ih =>
      obtain ⟨next, hnext⟩ := h m' _ hlevel _ _ .toOne _ hmem hr
      have hstands : StandsFor _ .toOne _ := hr
      obtain ⟨hresolves, hnames⟩ := ih (hlevel.step hmem hstands hnext)
      refine ⟨⟨_, next, hnext, hresolves⟩, fun n hn ↦ ?_⟩
      rcases List.mem_cons.mp hn with rfl | hn
      · exact ⟨m', _, hnext⟩
      · exact hnames n hn

theorem resolves_segment (h : Segment name) :
    Resolves models m (segments name) ↔
      ∃ relation, models.getField m name = some ⟨some relation⟩ := by
  rw [segments_self h.root]
  simp [Resolves, Prod.exists]

end Resolution

section Validity

variable [DecidableEq S] {fuel : ℕ} {hints kept : RelationHints} {t : Traversal S}
  {exclude : List Str}

/-- The fields whose names the planner looks up on the root model: the
nested fields of the root schema, and all collections. -/
def LookedUp (G : SchemaGraph S) (schema : S) (name : Str) : Prop :=
  (∃ ann r, (name, ann) ∈ (G.modelFields schema).items ∧ ann.resolvedSchema = some r ∧ r ≠ schema) ∨
    ∃ s, G.Reachable schema s ∧ G.Lists s name

theorem rootMissing_iff
    (hnames : ∀ name ann r, (name, ann) ∈ (G.modelFields schema).items →
      ann.resolvedSchema = some r → ∃ c, name.getLast? = some c ∧ c ≠ '_')
    (hfind : G.findDeepRelations ∅ fuel schema [] ⟨∅, []⟩ = some (hints, t))
    (hkept : Kept hints exclude kept) :
    RootMissing models m kept ↔ ∃ name, LookedUp G schema name ∧ pathRoot name ∉ exclude ∧
      models.getField m (pathRoot name) = none := by
  obtain ⟨hprefetch, hselect, hown⟩ := SchemaGraph.analysis_hints hfind
  constructor
  · rintro ⟨path, hpath, hmissing⟩
    rcases List.mem_append.mp hpath with hpath | hpath
    · obtain ⟨hpath, hexclude⟩ := (hkept.select path).mp hpath
      obtain ⟨names, hstarts, rfl⟩ := hselect path (mem_removeRedundantPaths.mp hpath).1
      obtain ⟨name, ann, r, rest, rfl, hmem, hr, hne, -⟩ := hstarts
      obtain ⟨c, hlast, hc⟩ := hnames name ann r hmem hr
      rw [pathRoot_foldl_of_last hlast hc] at hexclude hmissing
      exact ⟨name, .inl ⟨ann, r, hmem, hr, hne⟩, hexclude, hmissing⟩
    · obtain ⟨hpath, hexclude⟩ := (hkept.prefetch path).mp hpath
      exact ⟨path, .inr ((hprefetch path).mp hpath), hexclude, hmissing⟩
  · rintro ⟨name, ⟨ann, r, hmem, hr, hne⟩ | hlists, hexclude, hmissing⟩
    · obtain ⟨c, hlast, hc⟩ := hnames name ann r hmem hr
      obtain ⟨path, hpath, hbelow⟩ := exists_kept (hown name ann r hmem hr hne)
      have hroot : pathRoot path = pathRoot name := by
        rcases hbelow with rfl | ⟨rest, rfl⟩
        · rfl
        · simpa using pathRoot_append_of_last hlast hc rest
      rw [← hroot] at hexclude hmissing
      exact ⟨path, List.mem_append_left _ ((hkept.select path).mpr ⟨hpath, hexclude⟩), hmissing⟩
    · have hmem : name ∈ kept.prefetch :=
        (hkept.prefetch name).mpr ⟨(hprefetch name).mpr hlists, hexclude⟩
      exact ⟨name, List.mem_append_right _ hmem, hmissing⟩

/-- With matching fields the select paths resolve, and a collection path
resolves if the root model has a relation of that name. -/
theorem AllMatch.plan_resolves (h : AllMatch models G m schema)
    (hfields : ∀ m name field, models.getField m name = some field → Segment name)
    (hfind : G.findDeepRelations ∅ fuel schema [] ⟨∅, []⟩ = some (hints, t))
    (hkept : Kept hints exclude kept) :
    (∀ path ∈ kept.select, Resolves models m (segments path) ∧
        models.getField m (pathRoot path) ≠ none) ∧
      (∀ path, path ∈ kept.prefetch ↔
        (∃ s, G.Reachable schema s ∧ G.Lists s path) ∧ path ∉ exclude) ∧
      ∀ path ∈ kept.prefetch, Segment path := by
  obtain ⟨hprefetch, hselect, -⟩ := SchemaGraph.analysis_hints hfind
  have hlists : ∀ s name, G.Reachable schema s → G.Lists s name → Segment name := by
    rintro s name hs ⟨ann, item, hmem, hitem⟩
    obtain ⟨m', hlevel⟩ := h.level hs
    obtain ⟨next, hnext⟩ := h m' s hlevel name ann .toMany item hmem hitem
    exact hfields m' name _ hnext
  have hsegment : ∀ path ∈ hints.prefetch, Segment path := by
    intro path hpath
    obtain ⟨s, hs, hl⟩ := (hprefetch path).mp hpath
    exact hlists s path hs hl
  refine ⟨fun path hpath ↦ ?_, fun path ↦ ?_, fun path hpath ↦ ?_⟩
  · obtain ⟨names, hstarts, rfl⟩ := hselect path (mem_removeRedundantPaths.mp
      ((hkept.select path).mp hpath).1).1
    obtain ⟨hresolves, hnames⟩ := h.resolves .root hstarts.chain
    have hsegments : ∀ n ∈ names, Segment n := by
      intro n hn
      obtain ⟨m', field, hfield⟩ := hnames n hn
      exact hfields m' n field hfield
    rw [segments_foldl hstarts.chain.ne_nil hsegments]
    refine ⟨hresolves, ?_⟩
    obtain ⟨name, ann, r, rest, rfl, -⟩ := hstarts
    obtain ⟨card, next, hnext, -⟩ := hresolves
    rw [pathRoot_foldl (hsegments name List.mem_cons_self), hnext]
    exact Option.some_ne_none _
  · rw [hkept.prefetch]
    constructor
    · rintro ⟨hpath, hexclude⟩
      rw [pathRoot_self (hsegment path hpath).root] at hexclude
      exact ⟨(hprefetch path).mp hpath, hexclude⟩
    · rintro ⟨hl, hexclude⟩
      have hpath := (hprefetch path).mpr hl
      rw [pathRoot_self (hsegment path hpath).root]
      exact ⟨hpath, hexclude⟩
  · exact hsegment path ((hkept.prefetch path).mp hpath).1

/-- Exactly when the plan of a model and its schema is valid: if all fields
match, the root model needs a primary key and a relation for each
collection in reach; if some field names no relation, some root that is
looked up must be missing. -/
theorem plan_validity {config : NovaConfig S} {R : Finset S}
    (hfields : ∀ m name field, models.getField m name = some field → Segment name)
    (hnames : ∀ name ann r, (name, ann) ∈ (G.modelFields schema).items →
      ann.resolvedSchema = some r → ∃ c, name.getLast? = some c ∧ c ≠ '_')
    (hR : ∀ s, s ∈ R ↔ G.Reachable schema s) (hfuel : R.card < fuel)
    (hconfig : models.config m = some config) (hschema : config.pydanticSchema = some schema) :
    PlanValid models G fuel m schema ↔
      (AllMatch models G m schema → models.pk m ≠ none ∧ ∀ s name, G.Reachable schema s →
        G.Lists s name → name ∉ config.excludeFromPydantic →
          ∃ relation, models.getField m name = some ⟨some relation⟩) ∧
      (SomeMissing models G m schema → models.pk m = none ∨ ∃ name, LookedUp G schema name ∧
        pathRoot name ∉ config.excludeFromPydantic ∧ models.getField m (pathRoot name) = none) := by
  obtain ⟨hints, t, hfind, -⟩ := SchemaGraph.relation_analysis G ∅ schema [] ∅ R hR
  have hfind := hfind fuel hfuel
  obtain ⟨kept, hkept, hbuild⟩ := buildQueryPlan_cases hconfig hschema hfind
  have hmissing : RootMissing models m kept ↔ ∃ name, LookedUp G schema name ∧
      pathRoot name ∉ config.excludeFromPydantic ∧ models.getField m (pathRoot name) = none :=
    rootMissing_iff hnames hfind hkept
  constructor
  · rintro ⟨haccepts, hrefuses⟩
    refine ⟨fun hmatch ↦ ?_, fun hsome ↦ ?_⟩
    · obtain ⟨plan, hplan, hresolves⟩ := haccepts hmatch
      obtain ⟨-, _, _, herror⟩ | ⟨⟨-, hpk⟩, plan', hplan', hselect, hprefetch⟩ := hbuild
      · rw [hplan] at herror
        cases herror
      · obtain rfl := Except.ok.inj (hplan.symm.trans hplan')
        obtain ⟨-, hmem, hsegments⟩ := hmatch.plan_resolves hfields hfind hkept
        refine ⟨hpk, fun s name hs hlists hexclude ↦ ?_⟩
        have hname : name ∈ kept.prefetch := (hmem name).mpr ⟨⟨s, hs, hlists⟩, hexclude⟩
        refine (resolves_segment (hsegments name hname)).mp (hresolves name ?_)
        rw [hprefetch]
        exact List.mem_append_right _ (mem_sorted.mpr hname)
    · obtain ⟨message, setting, herror⟩ := hrefuses hsome
      obtain ⟨hcause, -⟩ | ⟨-, plan, hplan, -⟩ := hbuild
      · exact hcause.symm.imp_right hmissing.mp
      · rw [hplan] at herror
        cases herror
  · rintro ⟨haccepts, hrefuses⟩
    refine ⟨fun hmatch ↦ ?_, fun hsome ↦ ?_⟩
    · obtain ⟨hpk, hcollections⟩ := haccepts hmatch
      obtain ⟨hselected, hmem, hsegments⟩ := hmatch.plan_resolves hfields hfind hkept
      have hprefetched : ∀ path ∈ kept.prefetch,
          ∃ relation, models.getField m path = some ⟨some relation⟩ := by
        intro path hpath
        obtain ⟨⟨s, hs, hlists⟩, hexclude⟩ := (hmem path).mp hpath
        exact hcollections s path hs hlists hexclude
      have hroots : ¬RootMissing models m kept := by
        rintro ⟨path, hpath, hnone⟩
        rcases List.mem_append.mp hpath with hpath | hpath
        · exact (hselected path hpath).2 hnone
        · obtain ⟨relation, hrelation⟩ := hprefetched path hpath
          rw [pathRoot_self (hsegments path hpath).root, hrelation] at hnone
          cases hnone
      obtain ⟨hcause, -⟩ | ⟨-, plan, hplan, hselect, hprefetch⟩ := hbuild
      · exact absurd hcause (not_or.mpr ⟨hroots, hpk⟩)
      · refine ⟨plan, hplan, fun path hpath ↦ ?_⟩
        rw [hselect, hprefetch, List.mem_append, mem_sorted, mem_sorted] at hpath
        rcases hpath with hpath | hpath
        · exact (hselected path hpath).1
        · exact (resolves_segment (hsegments path hpath)).mpr (hprefetched path hpath)
    · obtain ⟨-, herror⟩ | ⟨⟨hroots, hpk⟩, -⟩ := hbuild
      · exact herror
      · exact absurd (hrefuses hsome) (not_or.mpr ⟨hpk, fun h ↦ hroots (hmissing.mpr h)⟩)

end Validity

section Sample

/-- The relations of `postSchemas`: the author of a post. -/
theorem postSchemas_relations {s : Bool} {name : Str} {ann : AnnotationExpr Bool}
    {card : Cardinality} {r : Bool} (hmem : (name, ann) ∈ (postSchemas.modelFields s).items)
    (hstands : StandsFor ann card r) : name = ['b', 'y'] ∧ card = .toOne ∧ r = false := by
  cases s with
  | false =>
      simp only [postSchemas, List.mem_singleton, Prod.mk.injEq] at hmem
      obtain ⟨rfl, rfl⟩ := hmem
      cases card <;> cases hstands
  | true =>
      simp only [postSchemas, List.mem_cons, Prod.mk.injEq, List.not_mem_nil, or_false] at hmem
      rcases hmem with ⟨rfl, rfl⟩ | ⟨rfl, rfl⟩
      · cases card <;> cases hstands
      · cases card with
        | toOne => exact ⟨rfl, rfl, (Option.some.inj hstands).symm⟩
        | toMany => cases hstands

theorem postSchemas_reachable (s : Bool) : postSchemas.Reachable true s := by
  cases s with
  | true => exact Relation.ReflTransGen.refl
  | false =>
      exact Relation.ReflTransGen.single
        ⟨['b', 'y'], .type (.schema false), by simp [postSchemas], rfl⟩

theorem plan_validity_sample : PlanValid (postModel true) postSchemas 3 () true := by
  have hfields : ∀ m name field, (postModel true).getField m name = some field → Segment name := by
    intro m name field h
    obtain ⟨rfl, -⟩ := Option.ite_none_right_eq_some.mp h
    decide
  refine (plan_validity (R := Finset.univ) hfields ?_ ?_ (by decide) rfl rfl).mpr ⟨fun _ ↦ ?_, ?_⟩
  · intro name ann r hmem hr
    have hstands : StandsFor ann .toOne r := hr
    obtain ⟨rfl, -⟩ := postSchemas_relations hmem hstands
    exact ⟨'y', rfl, by decide⟩
  · exact fun s ↦ iff_of_true (Finset.mem_univ s) (postSchemas_reachable s)
  · refine ⟨Option.some_ne_none _, ?_⟩
    rintro s name - ⟨ann, item, hmem, hitem⟩ -
    have hstands : StandsFor ann .toMany item := hitem
    obtain ⟨-, hcard, -⟩ := postSchemas_relations hmem hstands
    cases hcard
  · rintro ⟨m', s, -, name, ann, card, r, hmem, hstands, hmissing⟩
    obtain ⟨rfl, -⟩ := postSchemas_relations hmem hstands
    exact absurd rfl (hmissing (.toOne, ()))

/-- A post has an author, and an author lists posts. -/
def librarySchemas : SchemaGraph Bool where
  modelFields
    | true => ⟨[(['b', 'y'], .type (.schema false))], List.nodup_singleton _⟩
    | false => ⟨[(['p'], .collection [.type (.schema true)])], List.nodup_singleton _⟩

def libraryModels : ModelGraph Bool Bool where
  typeName _ := ['P', 'o', 's', 't']
  config _ := some ⟨some true, []⟩
  concreteFields _ := []
  pk _ := some ⟨['i', 'd'], ['i', 'd'], false, false⟩
  getField m name :=
    if m = true ∧ name = ['b', 'y'] then some ⟨some (.toOne, false)⟩
    else if m = false ∧ name = ['p'] then some ⟨some (.toMany, true)⟩
    else none
  distinct _ := by decide
  plain_attname _ := by decide

theorem librarySchemas_relations {s r : Bool} {name : Str} {ann : AnnotationExpr Bool}
    {card : Cardinality} (hmem : (name, ann) ∈ (librarySchemas.modelFields s).items)
    (hstands : StandsFor ann card r) : libraryModels.getField s name = some ⟨some (card, r)⟩ := by
  cases s with
  | true =>
      simp only [librarySchemas, List.mem_singleton, Prod.mk.injEq] at hmem
      obtain ⟨rfl, rfl⟩ := hmem
      cases card with
      | toOne =>
          cases hstands
          rfl
      | toMany => cases hstands
  | false =>
      simp only [librarySchemas, List.mem_singleton, Prod.mk.injEq] at hmem
      obtain ⟨rfl, rfl⟩ := hmem
      cases card with
      | toOne => cases hstands
      | toMany =>
          cases hstands
          rfl

theorem libraryModels_match : AllMatch libraryModels librarySchemas true true := by
  have hlevel : ∀ m s, Level libraryModels librarySchemas true true m s → m = s := by
    intro m s hl
    induction hl with
    | root => rfl
    | step _ hmem hstands hnext ih =>
        subst ih
        rw [librarySchemas_relations hmem hstands] at hnext
        cases hnext
        rfl
  intro m s hl name ann card r hmem hstands
  obtain rfl := hlevel m s hl
  exact ⟨r, librarySchemas_relations hmem hstands⟩

/-- The author of a post is a column of JSON. -/
def jsonModel : ModelGraph Unit Bool :=
  { postModel true with getField := fun _ name ↦ if name = ['b', 'y'] then some ⟨none⟩ else none }

/-- The posts of the author are looked up on the post, and a column passes
for a relation. -/
theorem plan_validity_fails : ¬PlanValid libraryModels librarySchemas 3 true true ∧
    ¬PlanValid jsonModel postSchemas 3 () true := by
  constructor
  · intro h
    obtain ⟨plan, hplan, -⟩ := h.accepts libraryModels_match
    cases hplan
  · intro h
    have hmissing : SomeMissing jsonModel postSchemas () true :=
      ⟨(), true, .root, ['b', 'y'], .type (.schema false), .toOne, false,
        by simp [postSchemas], rfl,
        fun _ h ↦ by cases h⟩
    obtain ⟨message, setting, herror⟩ := h.refuses hmissing
    cases herror

end Sample

end Planner

end DjangoNova
