import Mathlib.Data.List.Sort
import DjangoNova.Django.Fields
import DjangoNova.Fallible.Except
import DjangoNova.Query.Relations

/-!
# The query planner

`build_query_plan` turns the schema of a model into the relations that a
queryset joins or prefetches and the columns that it defers. The deferred
names are field names and attnames, and Django omits the column of a field
for either of its names.
-/

namespace DjangoNova

inductive Cardinality where
  | toOne
  | toMany
  deriving DecidableEq

/-- What `_meta.get_field` finds: a field, with its relation if it is one. -/
structure MetaField (M : Type) where
  relation : Option (Cardinality × M)

structure NovaConfig (S : Type) where
  pydanticSchema : Option S
  excludeFromPydantic : List Str

/-- The models as the planner sees them. Names and attnames of different
fields differ, and a field that is no relation has its name as attname. -/
structure ModelGraph (M S : Type) where
  typeName : M → Str
  config : M → Option (NovaConfig S)
  concreteFields : M → List ConcreteField
  pk : M → Option ConcreteField
  getField : M → Str → Option (MetaField M)
  distinct : ∀ m, ∀ f ∈ concreteFields m ++ (pk m).toList,
    ∀ f' ∈ concreteFields m ++ (pk m).toList,
      f.name = f'.name ∨ f.name = f'.attname → f = f'
  plain_attname : ∀ m, ∀ f ∈ concreteFields m, f.isRelation = false → f.attname = f.name

structure QueryPlan where
  selectRelated : List Str
  prefetchRelated : List Str
  defer : List Str

inductive PlanError where
  | configuration (message : Str) (setting : Str)
  | recursion
  deriving DecidableEq

namespace Planner

/-- `path.split("__", 1)[0]` -/
def pathRoot : Str → Str
  | '_' :: '_' :: _ => []
  | c :: rest => c :: pathRoot rest
  | [] => []

/-- `sorted` of strings -/
def sorted (names : List Str) : List Str := names.insertionSort fun a b ↦ Str.le a b

/-- `_remove_redundant_paths` -/
def removeRedundantPaths (paths : List Str) : List Str :=
  let uniquePaths := sorted paths.eraseDups
  uniquePaths.filter fun path ↦
    !uniquePaths.any fun other ↦ path ≠ other ∧ (path ++ ['_', '_']).isPrefixOf other

section Code

variable {M S : Type} [DecidableEq S] (models : ModelGraph M S) (G : SchemaGraph S)

/-- `django_fields`, with repetitions. -/
def djangoFields (m : M) : List Str :=
  (models.concreteFields m).flatMap fun f ↦ [f.name, f.attname]

def relationMap (m : M) : OrderedDict Str Str :=
  OrderedDict.empty.setItems <|
    ((models.concreteFields m).filter fun f ↦ f.isRelation ∧ f.attname ≠ f.name).map
      fun f ↦ (f.name, f.attname)

/-- The relations that the schema exposes require their columns. -/
def addExposed (relations : List (Str × Str)) (needed : List Str) : List Str :=
  relations.foldl (fun needed x ↦ if x.1 ∈ needed then x.2 :: needed else needed) needed

/-- `_calculate_deferred_fields` -/
def calculateDeferredFields (m : M) (schema : S) (selectPaths : List Str) :
    Except PlanError (List Str) :=
  let relations := relationMap models m
  let needed := addExposed relations.items (G.modelFields schema).keys
  let needed := selectPaths.filterMap (fun path ↦ relations.lookup (pathRoot path)) ++ needed
  match models.pk m with
  | none => .error (.configuration
      ("Model ".toList ++ models.typeName m ++ " has no primary key.".toList)
      (models.typeName m ++ "._meta.pk".toList))
  | some pk =>
      let needed := [pk.name, pk.attname] ++ needed
      .ok (sorted ((djangoFields models m).eraseDups.filter fun name ↦
        name ∉ needed ∧ name ∉ relations.items.map Prod.snd))

/-- `_validate_relations_exist` -/
def validateRelationsExist (m : M) (hints : RelationHints) : Except PlanError Unit :=
  match (hints.select ++ hints.prefetch).find? fun path ↦
      (models.getField m (pathRoot path)).isNone with
  | none => .ok ()
  | some path => .error (.configuration
      ("Schema contract declares relation '".toList ++ pathRoot path ++
        "' missing on model ".toList ++ models.typeName m ++
        ". Schema contract != ORM contract.".toList)
      (models.typeName m ++ "._nova_config.pydantic_schema".toList))

/-- `analyze_schema_for_relations` -/
def analyzeSchemaForRelations (fuel : ℕ) (schema : S) (exclude : List Str) :
    Except PlanError RelationHints :=
  match G.findDeepRelations ∅ fuel schema [] ⟨∅, []⟩ with
  | none => .error .recursion
  | some (hints, _) =>
      let cleanSelect := removeRedundantPaths hints.select
      if exclude ≠ [] then
        .ok ⟨cleanSelect.filter fun path ↦ pathRoot path ∉ exclude,
          hints.prefetch.filter fun path ↦ pathRoot path ∉ exclude⟩
      else .ok ⟨cleanSelect, hints.prefetch⟩

/-- `build_query_plan`, with some depth of calls. -/
def buildQueryPlan (fuel : ℕ) (m : M) : Except PlanError QueryPlan :=
  match (models.config m).bind fun c ↦ c.pydanticSchema.map fun schema ↦ (c, schema) with
  | none => .ok ⟨[], [], []⟩
  | some (config, schema) => do
      let hints ← analyzeSchemaForRelations G fuel schema config.excludeFromPydantic
      validateRelationsExist models m hints
      let deferred ← calculateDeferredFields models G m schema hints.select
      .ok ⟨sorted hints.select, sorted hints.prefetch, deferred⟩

end Code

/-- No deferred name is that of the primary key, of a foreign key or of a
field that the schema declares. -/
def DeferralSafe {M S : Type} (models : ModelGraph M S) (G : SchemaGraph S) (m : M) (schema : S)
    (deferred : List Str) : Prop :=
  ∀ name ∈ deferred, ∀ f ∈ models.concreteFields m, f.name = name ∨ f.attname = name →
    models.pk m ≠ some f ∧ f.isRelation = false ∧ f.name ∉ (G.modelFields schema).keys

section Deferral

variable {M S : Type} {models : ModelGraph M S} {G : SchemaGraph S} {m : M}
  {schema : S} {f : ConcreteField} {x name : Str}

theorem mem_relationMap : x ∈ (relationMap models m).items.map Prod.snd ↔
    ∃ f ∈ models.concreteFields m, f.isRelation = true ∧ f.attname ≠ f.name ∧ f.attname = x := by
  constructor
  · intro h
    obtain ⟨⟨k, b⟩, hmem, rfl⟩ := List.mem_map.mp h
    rcases OrderedDict.mem_of_mem_setItems hmem with hmem | hmem
    · exact absurd hmem List.not_mem_nil
    · obtain ⟨f, hf, heq⟩ := List.mem_map.mp hmem
      obtain ⟨rfl, rfl⟩ := Prod.mk.inj heq
      have hfilter := List.mem_filter.mp hf
      have hrelation : f.isRelation = true ∧ f.attname ≠ f.name := of_decide_eq_true hfilter.2
      exact ⟨f, hfilter.1, hrelation.1, hrelation.2, Eq.refl _⟩
  · rintro ⟨f, hf, hrelation, hne, rfl⟩
    refine List.mem_map.mpr ⟨(f.name, f.attname), OrderedDict.mem_setItems (.inr ?_) ?_, Eq.refl _⟩
    · exact List.mem_map.mpr ⟨f, List.mem_filter.mpr ⟨hf, by simp [hrelation, hne]⟩, Eq.refl _⟩
    · intro b hb
      obtain ⟨f', hf', heq⟩ := List.mem_map.mp hb
      obtain ⟨hname, rfl⟩ := Prod.mk.inj heq
      have hf'' := (List.mem_filter.mp hf').1
      have hsame : f' = f := models.distinct m f' (List.mem_append_left _ hf'') f
        (List.mem_append_left _ hf) (.inl hname)
      rw [hsame]

theorem subset_addExposed (relations : List (Str × Str)) {needed : List Str} (h : x ∈ needed) :
    x ∈ addExposed relations needed := by
  induction relations generalizing needed with
  | nil => exact h
  | cons y rest ih =>
      refine ih ?_
      show x ∈ if y.1 ∈ needed then y.2 :: needed else needed
      split
      · exact List.mem_cons_of_mem _ h
      · exact h

theorem mem_of_mem_addExposed {relations : List (Str × Str)} {needed : List Str}
    (h : x ∈ addExposed relations needed) : x ∈ needed ∨ x ∈ relations.map Prod.snd := by
  induction relations generalizing needed with
  | nil => exact .inl h
  | cons y rest ih =>
      rcases ih h with h | h
      · have hfirst : x ∈ if y.1 ∈ needed then y.2 :: needed else needed := h
        split at hfirst
        · rcases List.mem_cons.mp hfirst with rfl | hfirst
          · exact .inr List.mem_cons_self
          · exact .inl hfirst
        · exact .inl hfirst
      · exact .inr (List.mem_cons_of_mem _ h)

/-- What is deferred: the names that are needed neither by the schema nor
by a relation nor by the primary key. -/
theorem mem_calculateDeferredFields {selectPaths deferred : List Str}
    (h : calculateDeferredFields models G m schema selectPaths = .ok deferred) :
    ∃ pk, models.pk m = some pk ∧ ∀ name, name ∈ deferred ↔
      name ∈ djangoFields models m ∧ name ≠ pk.name ∧ name ≠ pk.attname ∧
        name ∉ (G.modelFields schema).keys ∧ name ∉ (relationMap models m).items.map Prod.snd := by
  unfold calculateDeferredFields at h
  cases hpk : models.pk m with
  | none => simp [hpk] at h
  | some pk =>
      simp only [hpk, Except.ok.injEq] at h
      subst h
      refine ⟨pk, Eq.refl _, fun name ↦ ?_⟩
      rw [sorted, List.mem_insertionSort, List.mem_filter, List.mem_eraseDups]
      refine and_congr_right fun _ ↦ ?_
      simp only [decide_eq_true_eq, List.cons_append, List.nil_append, List.mem_cons,
        List.mem_append, not_or]
      constructor
      · rintro ⟨⟨hname, hattname, hlookup, hexposed⟩, hvalues⟩
        exact ⟨hname, hattname, fun hkey ↦ hexposed (subset_addExposed _ hkey), hvalues⟩
      · rintro ⟨hname, hattname, hkey, hvalues⟩
        refine ⟨⟨hname, hattname, fun hlookup ↦ ?_, fun hexposed ↦ ?_⟩, hvalues⟩
        · obtain ⟨path, -, hpath⟩ := List.mem_filterMap.mp hlookup
          exact hvalues (List.mem_map_of_mem (OrderedDict.lookup_eq_some_iff.mp hpath))
        · exact (mem_of_mem_addExposed hexposed).elim hkey hvalues

theorem mem_djangoFields : name ∈ djangoFields models m ↔
    ∃ f ∈ models.concreteFields m, f.name = name ∨ f.attname = name := by
  simp [djangoFields, eq_comm]

/-- The plan of a model and its schema defers no column that is needed if
and only if the schema declares every foreign key, the primary key apart. -/
theorem deferral_safe [DecidableEq S] {fuel : ℕ} {config : NovaConfig S} {plan : QueryPlan}
    (hconfig : models.config m = some config) (hschema : config.pydanticSchema = some schema)
    (hplan : buildQueryPlan models G fuel m = .ok plan) :
    DeferralSafe models G m schema plan.defer ↔
      ∀ f ∈ models.concreteFields m, f.isRelation = true → models.pk m ≠ some f →
        f.name ∈ (G.modelFields schema).keys := by
  have hcalculate : ∃ paths, calculateDeferredFields models G m schema paths = .ok plan.defer := by
    unfold buildQueryPlan at hplan
    simp only [hconfig, hschema, Option.bind_some, Option.map_some] at hplan
    obtain ⟨hints, -, hplan⟩ := bind_eq_ok.mp hplan
    obtain ⟨_, -, hplan⟩ := bind_eq_ok.mp hplan
    obtain ⟨deferred, hdeferred, hplan⟩ := bind_eq_ok.mp hplan
    obtain rfl := Except.ok.inj hplan
    exact ⟨hints.select, hdeferred⟩
  obtain ⟨paths, hcalculate⟩ := hcalculate
  obtain ⟨pk, hpk, hmem⟩ := mem_calculateDeferredFields hcalculate
  have hpkMem : pk ∈ models.concreteFields m ++ (models.pk m).toList := by simp [hpk]
  constructor
  · intro hsafe f hf hrelation hne
    by_contra hkey
    have hnepk : f ≠ pk := fun heq ↦ hne (heq ▸ hpk)
    have hdistinct := models.distinct m f (List.mem_append_left _ hf)
    have hdeferred : f.name ∈ plan.defer := by
      refine (hmem _).mpr ⟨mem_djangoFields.mpr ⟨f, hf, .inl (Eq.refl _)⟩, ?_, ?_, hkey, ?_⟩
      · exact fun heq ↦ hnepk (hdistinct pk hpkMem (.inl heq))
      · exact fun heq ↦ hnepk (hdistinct pk hpkMem (.inr heq))
      · intro hvalue
        obtain ⟨f', hf', -, hne', heq⟩ := mem_relationMap.mp hvalue
        obtain rfl := hdistinct f' (List.mem_append_left _ hf') (.inr heq.symm)
        exact hne' heq
    have hplain := (hsafe f.name hdeferred f hf (.inl (Eq.refl _))).2.1
    rw [hrelation] at hplain
    exact absurd hplain (by decide)
  · intro hdeclared name hname f hf hresolves
    obtain ⟨-, hpkName, hpkAttname, hkey, hvalue⟩ := (hmem name).mp hname
    have hnepk : models.pk m ≠ some f := by
      intro heq
      obtain rfl := Option.some.inj (hpk.symm.trans heq)
      exact hresolves.elim (fun h ↦ hpkName h.symm) fun h ↦ hpkAttname h.symm
    have hplain : f.isRelation = false := by
      by_contra hrelation
      have hrelation' : f.isRelation = true := by simpa using hrelation
      have hfkey := hdeclared f hf hrelation' hnepk
      rcases hresolves with rfl | rfl
      · exact hkey hfkey
      · by_cases hsame : f.attname = f.name
        · exact hkey (hsame ▸ hfkey)
        · exact hvalue (mem_relationMap.mpr ⟨f, hf, hrelation', hsame, Eq.refl _⟩)
    refine ⟨hnepk, hplain, fun hfkey ↦ ?_⟩
    have hattname := models.plain_attname m f hf hplain
    rcases hresolves with rfl | rfl
    · exact hkey hfkey
    · exact hkey (hattname ▸ hfkey)

end Deferral

/-- A schema with an author and one without. -/
def postSchemas : SchemaGraph Bool where
  modelFields
    | true => ⟨[(['t'], .type .plain), (['b', 'y'], .type (.schema false))], by decide⟩
    | false => ⟨[(['t'], .type .plain)], by decide⟩

/-- A post with a key, a title and an author. -/
def postModel (schema : Bool) : ModelGraph Unit Bool where
  typeName _ := ['P', 'o', 's', 't']
  config _ := some ⟨some schema, []⟩
  concreteFields _ := [⟨['i', 'd'], ['i', 'd'], false, false⟩, ⟨['t'], ['t'], false, false⟩,
    ⟨['b', 'y'], ['b', 'y', '_', 'i', 'd'], true, false⟩]
  pk _ := some ⟨['i', 'd'], ['i', 'd'], false, false⟩
  getField _ name := if name = ['b', 'y'] then some ⟨some (.toOne, ())⟩ else none
  distinct _ := by decide
  plain_attname _ := by decide

theorem deferral_safe_sample :
    ∃ plan, buildQueryPlan (postModel true) postSchemas 3 () = .ok plan ∧
      DeferralSafe (postModel true) postSchemas () true plan.defer := by
  have hconfig : (postModel true).config () = some ⟨some true, []⟩ := Eq.refl _
  have hplan : buildQueryPlan (postModel true) postSchemas 3 () = .ok ⟨[['b', 'y']], [], []⟩ := by
    rfl
  exact ⟨_, hplan, (deferral_safe hconfig (Eq.refl _) hplan).mpr (by decide)⟩

/-- A foreign key that the schema does not declare is deferred by its name. -/
theorem deferral_safe_fails :
    ∃ plan, buildQueryPlan (postModel false) postSchemas 3 () = .ok plan ∧
      ¬DeferralSafe (postModel false) postSchemas () false plan.defer := by
  refine ⟨⟨[], [], [['b', 'y']]⟩, by rfl, fun hsafe ↦ ?_⟩
  have hplain := (hsafe ['b', 'y'] (by decide) ⟨['b', 'y'], ['b', 'y', '_', 'i', 'd'], true, false⟩
    (by decide) (.inl (Eq.refl _))).2.1
  exact absurd hplain (by decide)

end Planner

end DjangoNova
