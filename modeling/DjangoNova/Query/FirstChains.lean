import DjangoNova.Query.PlanValidity

/-!
# First chains

The analyzer enters every schema once. When no schema leads back to itself,
it enters a schema along the chain whose every step is the first declared
field from which the schema is in reach, and the fields of a schema are
listed below that chain only.
-/

namespace DjangoNova

namespace SchemaGraph

variable {S : Type} {G : SchemaGraph S}

/-- A chain whose every step is the first declared field that leads to `t`. -/
inductive FirstChain (G : SchemaGraph S) : S → List Str → S → Prop
  | nil (s : S) : FirstChain G s [] s
  | cons {s r t : S} {name : Str} {ann : AnnotationExpr S} {names : List Str}
      {before after : List (Str × AnnotationExpr S)} :
      (G.modelFields s).items = before ++ (name, ann) :: after → ann.resolvedSchema = some r →
      (∀ x ∈ before, ∀ r', x.2.resolvedSchema = some r' → ¬G.Reachable r' t) →
      FirstChain G r names t → FirstChain G s (name :: names) t

/-- The chains that the serializer follows, of schemas and optional schemas. -/
inductive NestedChain (G : SchemaGraph S) : S → List Str → S → Prop
  | nil (s : S) : NestedChain G s [] s
  | cons {s r t : S} {name : Str} {ann : AnnotationExpr S} {names : List Str} :
      (name, ann) ∈ (G.modelFields s).items → ann.getNestedSchema = some r →
      NestedChain G r names t → NestedChain G s (name :: names) t

/-- A first chain that starts with one of some fields. -/
def FirstBelow (G : SchemaGraph S) (fields : List (Str × AnnotationExpr S)) (names : List Str)
    (t : S) : Prop :=
  ∃ before name ann after r rest, fields = before ++ (name, ann) :: after ∧
    ann.resolvedSchema = some r ∧ (∀ x ∈ before, ∀ r', x.2.resolvedSchema = some r' →
      ¬G.Reachable r' t) ∧ names = name :: rest ∧ G.FirstChain r rest t

section Chains

variable {s r t u : S} {names more : List Str} {name : Str} {ann : AnnotationExpr S}

theorem FirstChain.reachable (h : G.FirstChain s names t) : G.Reachable s t := by
  induction h with
  | nil s => exact Relation.ReflTransGen.refl
  | @cons s r t name ann names before after hitems hr _ _ ih =>
      have hmem : (name, ann) ∈ (G.modelFields s).items :=
        hitems ▸ List.mem_append_right _ List.mem_cons_self
      have href : G.Refers s r := ⟨name, ann, hmem, hr⟩
      exact href.reachable ih

theorem firstChain_iff :
    G.FirstChain s names t ↔
      (names = [] ∧ s = t) ∨ G.FirstBelow (G.modelFields s).items names t := by
  constructor
  · intro h
    cases h with
    | nil => exact .inl ⟨rfl, rfl⟩
    | cons hitems hr hbefore hrest => exact .inr ⟨_, _, _, _, _, _, hitems, hr, hbefore, rfl, hrest⟩
  · rintro (⟨rfl, rfl⟩ | ⟨before, name, ann, after, r, rest, hitems, hr, hbefore, rfl, hrest⟩)
    · exact .nil s
    · exact .cons hitems hr hbefore hrest

theorem FirstBelow.transGen (h : G.FirstBelow (G.modelFields s).items names t) :
    Relation.TransGen G.Refers s t := by
  obtain ⟨before, name, ann, after, r, rest, hitems, hr, -, -, hrest⟩ := h
  have hmem : (name, ann) ∈ (G.modelFields s).items :=
    hitems ▸ List.mem_append_right _ List.mem_cons_self
  have href : G.Refers s r := ⟨name, ann, hmem, hr⟩
  exact Relation.TransGen.head' href hrest.reachable

theorem not_firstBelow_nil : ¬G.FirstBelow [] names t := by
  rintro ⟨before, name, ann, after, r, rest, hfields, -⟩
  simp at hfields

/-- The first field takes every schema that it leads to. -/
theorem firstBelow_cons {x : Str × AnnotationExpr S} {fields : List (Str × AnnotationExpr S)} :
    G.FirstBelow (x :: fields) names t ↔
      (∃ r rest, x.2.resolvedSchema = some r ∧ names = x.1 :: rest ∧ G.FirstChain r rest t) ∨
        (∀ r, x.2.resolvedSchema = some r → ¬G.Reachable r t) ∧ G.FirstBelow fields names t := by
  constructor
  · rintro ⟨before, name, ann, after, r, rest, hfields, hr, hbefore, rfl, hrest⟩
    cases before with
    | nil =>
        obtain ⟨rfl, rfl⟩ := List.cons.inj hfields
        exact .inl ⟨r, rest, hr, rfl, hrest⟩
    | cons y before =>
        obtain ⟨rfl, rfl⟩ := List.cons.inj hfields
        refine .inr ⟨hbefore x List.mem_cons_self, before, name, ann, after, r, rest, rfl, hr, ?_,
          rfl, hrest⟩
        exact fun y hy ↦ hbefore y (List.mem_cons_of_mem _ hy)
  · rintro (⟨r, rest, hr, rfl, hrest⟩ |
      ⟨hx, before, name, ann, after, r, rest, rfl, hr, hbefore, rfl, hrest⟩)
    · exact ⟨[], x.1, x.2, fields, r, rest, rfl, hr, fun y hy ↦ absurd hy List.not_mem_nil, rfl,
        hrest⟩
    · refine ⟨x :: before, name, ann, after, r, rest, rfl, hr, fun y hy ↦ ?_, rfl, hrest⟩
      rcases List.mem_cons.mp hy with rfl | hy
      · exact hx
      · exact hbefore y hy

/-- A first chain passes each of its schemas along a first chain. -/
theorem FirstChain.split (h : G.FirstChain s (names ++ more) t) :
    ∃ u, G.FirstChain s names u ∧ G.FirstChain u more t := by
  induction names generalizing s with
  | nil => exact ⟨s, .nil s, h⟩
  | cons name names ih =>
      cases h with
      | cons hitems hr hbefore hrest =>
          obtain ⟨u, hfirst, hmore⟩ := ih hrest
          refine ⟨u, .cons hitems hr (fun x hx r' hr' hu ↦ ?_) hfirst, hmore⟩
          exact hbefore x hx r' hr' (hu.trans hmore.reachable)

theorem FirstChain.forall_mem {P : Str → Prop}
    (hfields : ∀ s name ann r, (name, ann) ∈ (G.modelFields s).items →
      ann.resolvedSchema = some r → P name) (h : G.FirstChain s names t) : ∀ n ∈ names, P n := by
  induction h with
  | nil s => exact fun n hn ↦ absurd hn List.not_mem_nil
  | @cons s r t name ann names before after hitems hr _ _ ih =>
      have hmem : (name, ann) ∈ (G.modelFields s).items :=
        hitems ▸ List.mem_append_right _ List.mem_cons_self
      exact List.forall_mem_cons.mpr ⟨hfields s name ann r hmem hr, ih⟩

theorem NestedChain.forall_mem {P : Str → Prop}
    (hfields : ∀ s name ann r, (name, ann) ∈ (G.modelFields s).items →
      ann.resolvedSchema = some r → P name) (h : G.NestedChain s names t) : ∀ n ∈ names, P n := by
  induction h with
  | nil s => exact fun n hn ↦ absurd hn List.not_mem_nil
  | @cons s r t name ann names hmem hnested _ ih =>
      have hr := AnnotationExpr.resolvedSchema_of_nested hnested
      exact List.forall_mem_cons.mpr ⟨hfields s name ann r hmem hr, ih⟩

/-- The names of a chain determine where it leads. -/
theorem NestedChain.unique (h : G.NestedChain s names t) (hfirst : G.FirstChain s names u) :
    t = u := by
  induction h with
  | nil s =>
      cases hfirst
      rfl
  | cons hmem hnested _ ih =>
      cases hfirst with
      | cons hitems hr _ hrest =>
          have hmem' := hitems ▸ List.mem_append_right _ List.mem_cons_self
          obtain rfl := OrderedDict.value_unique hmem hmem'
          obtain rfl := Option.some.inj
            ((AnnotationExpr.resolvedSchema_of_nested hnested).symm.trans hr)
          exact ih hrest

end Chains

/-- No schema in reach leads back to itself. -/
def Acyclic (G : SchemaGraph S) (s : S) : Prop :=
  ∀ u, G.Reachable s u → ¬Relation.TransGen G.Refers u u

theorem Acyclic.refers {s r : S} (h : G.Acyclic s) (href : G.Refers s r) : G.Acyclic r :=
  fun u hu ↦ h u (href.reachable hu)

theorem Acyclic.not_refers {s : S} (h : G.Acyclic s) : ¬G.Refers s s :=
  fun href ↦ h s Relation.ReflTransGen.refl (Relation.TransGen.single href)

/-- References that lower a rank do not lead back. -/
theorem acyclic_of_rank {rank : S → ℕ} (h : ∀ s r, G.Refers s r → rank r < rank s) (s : S) :
    G.Acyclic s := by
  have hlower : ∀ u w, Relation.TransGen G.Refers u w → rank w < rank u := by
    intro u w huw
    induction huw with
    | single href => exact h _ _ href
    | tail _ href ih => exact (h _ _ href).trans ih
  exact fun u _ hcycle ↦ (hlower u u hcycle).false

section Analysis

variable {s : S} {pathPrefix path : Str} {t t' : Traversal S} {hints : RelationHints}
  {fields : List (Str × AnnotationExpr S)}

/-- A visited schema below `s` has everything below it visited. -/
def ClosedBelow (G : SchemaGraph S) (s : S) (visited : Finset S) : Prop :=
  ∀ u ∈ visited, Relation.TransGen G.Refers s u → ∀ w, G.Reachable u w → w ∈ visited

/-- The path of a nested field of a schema that was not visited, below some
names that lead to the schema. -/
def NestedPath (G : SchemaGraph S) (leads : List Str → S → Prop) (visited : Finset S)
    (pathPrefix path : Str) : Prop :=
  ∃ names u name ann r, leads names u ∧ u ∉ visited ∧ (name, ann) ∈ (G.modelFields u).items ∧
    ann.resolvedSchema = some r ∧ path = (names ++ [name]).foldl fullPath pathPrefix

theorem nestedPath_or {leads leads' : List Str → S → Prop} {visited : Finset S} :
    G.NestedPath (fun names u ↦ leads names u ∨ leads' names u) visited pathPrefix path ↔
      G.NestedPath leads visited pathPrefix path ∨ G.NestedPath leads' visited pathPrefix path := by
  simp only [NestedPath, or_and_right, exists_or]

/-- What a call of the analyzer adds: all schemas in reach are visited, and
the fields of the new ones are listed below their first chains. -/
structure ListedFrom (G : SchemaGraph S) (s : S) (pathPrefix : Str) (t : Traversal S)
    (hints : RelationHints) (t' : Traversal S) : Prop where
  visited : ∀ u, u ∈ t'.visited ↔ u ∈ t.visited ∨ G.Reachable s u
  select : ∀ path, path ∈ hints.select ↔ G.NestedPath (G.FirstChain s) t.visited pathPrefix path

/-- What the loop over some fields adds: their own paths too. -/
structure ListedBelow (G : SchemaGraph S) (fields : List (Str × AnnotationExpr S))
    (pathPrefix : Str)
    (t : Traversal S) (hints : RelationHints) (t' : Traversal S) : Prop where
  visited : ∀ u, u ∈ t'.visited ↔
    u ∈ t.visited ∨ ∃ x ∈ fields, ∃ r, x.2.resolvedSchema = some r ∧ G.Reachable r u
  select : ∀ path, path ∈ hints.select ↔
    (∃ x ∈ fields, ∃ r, x.2.resolvedSchema = some r ∧ path = fullPath pathPrefix x.1) ∨
      G.NestedPath (G.FirstBelow fields) t.visited pathPrefix path

theorem ListedBelow.nil : G.ListedBelow [] pathPrefix t .none t := by
  refine ⟨by simp, fun path ↦ iff_of_false List.not_mem_nil ?_⟩
  rintro (⟨x, hx, -⟩ | ⟨names, u, name, ann, r, hbelow, -⟩)
  · exact absurd hx List.not_mem_nil
  · exact not_firstBelow_nil hbelow

/-- A field that leads nowhere adds nothing. -/
theorem ListedBelow.skip {x : Str × AnnotationExpr S} {own : RelationHints}
    (hx : x.2.resolvedSchema = none) (hown : own.select = [])
    (h : G.ListedBelow fields pathPrefix t hints t') :
    G.ListedBelow (x :: fields) pathPrefix t (own.append hints) t' := by
  have hbelow : G.FirstBelow (x :: fields) = G.FirstBelow fields := by
    funext names u
    rw [firstBelow_cons]
    simp [hx]
  refine ⟨fun u ↦ ?_, fun path ↦ ?_⟩
  · simp [h.visited, hx]
  · simp [RelationHints.append, hown, h.select, hx, hbelow]

/-- A field that leads to a schema adds its path and what the schema lists. -/
theorem ListedBelow.enter {x : Str × AnnotationExpr S} {r : S} {nested : RelationHints}
    {t₁ : Traversal S} (hx : x.2.resolvedSchema = some r)
    (hr : G.ListedFrom r (fullPath pathPrefix x.1) t nested t₁)
    (h : G.ListedBelow fields pathPrefix t₁ hints t') :
    G.ListedBelow (x :: fields) pathPrefix t
      (RelationHints.append
        ⟨fullPath pathPrefix x.1 :: nested.select, nested.prefetch⟩ hints) t' := by
  have hbelow : G.FirstBelow (x :: fields) = fun names u ↦
      (∃ rest, names = x.1 :: rest ∧ G.FirstChain r rest u) ∨
        ¬G.Reachable r u ∧ G.FirstBelow fields names u := by
    funext names u
    rw [firstBelow_cons]
    simp [hx]
  have hthrough : G.NestedPath (fun names u ↦ ∃ rest, names = x.1 :: rest ∧ G.FirstChain r rest u)
      t.visited pathPrefix = G.NestedPath (G.FirstChain r) t.visited (fullPath pathPrefix x.1) := by
    funext path
    refine propext ⟨?_, ?_⟩
    · rintro ⟨_, u, name, ann, r', ⟨rest, rfl, hrest⟩, hu, hmem, hr', rfl⟩
      exact ⟨rest, u, name, ann, r', hrest, hu, hmem, hr', rfl⟩
    · rintro ⟨rest, u, name, ann, r', hrest, hu, hmem, hr', rfl⟩
      exact ⟨x.1 :: rest, u, name, ann, r', ⟨rest, rfl, hrest⟩, hu, hmem, hr', rfl⟩
  have hpast : G.NestedPath (fun names u ↦ ¬G.Reachable r u ∧ G.FirstBelow fields names u)
      t.visited pathPrefix = G.NestedPath (G.FirstBelow fields) t₁.visited pathPrefix := by
    funext path
    simp only [NestedPath, hr.visited, not_or]
    refine propext ⟨?_, ?_⟩
    · rintro ⟨names, u, name, ann, r', ⟨hreach, hnames⟩, hu, hrest⟩
      exact ⟨names, u, name, ann, r', hnames, ⟨hu, hreach⟩, hrest⟩
    · rintro ⟨names, u, name, ann, r', hnames, ⟨hu, hreach⟩, hrest⟩
      exact ⟨names, u, name, ann, r', ⟨hreach, hnames⟩, hu, hrest⟩
  refine ⟨fun u ↦ ?_, fun path ↦ ?_⟩
  · simp [h.visited, hr.visited, hx, or_assoc]
  · rw [hbelow, nestedPath_or, hthrough, hpast]
    simp only [RelationHints.append, List.mem_append, List.mem_cons, h.select, hr.select]
    simp only [exists_eq_or_imp, hx, Option.some.injEq, exists_eq_left', or_assoc]
    exact or_congr_right or_left_comm

variable [DecidableEq S] {recurse : S → Str → Traversal S → Option (RelationHints × Traversal S)}

/-- The calls list what they should on schemas whose visited part is closed. -/
def CallsList (G : SchemaGraph S)
    (recurse : S → Str → Traversal S → Option (RelationHints × Traversal S)) : Prop :=
  ∀ s pathPrefix t hints t', G.Acyclic s →
    (∀ u ∈ t.visited, G.Reachable s u → ∀ w, G.Reachable u w → w ∈ t.visited) →
    recurse s pathPrefix t = some (hints, t') → G.ListedFrom s pathPrefix t hints t'

theorem fieldsHints_listed (hrec : CallsList G recurse) (hacyclic : G.Acyclic s)
    (hfields : ∀ x ∈ fields, x ∈ (G.modelFields s).items) (hclosed : G.ClosedBelow s t.visited)
    (h : fieldsHints ∅ recurse s pathPrefix fields t = some (hints, t')) :
    G.ListedBelow fields pathPrefix t hints t' := by
  induction fields generalizing t hints with
  | nil =>
      obtain ⟨rfl, rfl⟩ := Prod.mk.inj (Option.some.inj h)
      exact .nil
  | cons x rest ih =>
      obtain ⟨⟨first, t₁⟩, hfirst, h⟩ := Option.bind_eq_some_iff.mp h
      obtain ⟨⟨more, t₂⟩, hmore, h⟩ := Option.bind_eq_some_iff.mp h
      obtain ⟨rfl, rfl⟩ := Prod.mk.inj (Option.some.inj h)
      have hrest : ∀ y ∈ rest, y ∈ (G.modelFields s).items := fun y hy ↦
        hfields y (List.mem_cons_of_mem _ hy)
      have hrefers : ∀ r, x.2.resolvedSchema = some r → G.Refers s r := fun r hr ↦
        ⟨x.1, x.2, hfields x List.mem_cons_self, hr⟩
      rcases fieldHints_cases hfirst with ⟨rfl, rfl, -, hself⟩ | ⟨rfl, rfl, -, hnone⟩ |
        ⟨r, nested, -, hr, -, hcall, rfl⟩
      · have hnone : x.2.resolvedSchema = none := by
          refine Option.eq_none_iff_forall_ne_some.mpr fun r hr ↦ ?_
          exact hacyclic.not_refers (hself r hr ▸ hrefers r hr)
        exact (ih hrest hclosed hmore).skip hnone rfl
      · exact (ih hrest hclosed hmore).skip hnone rfl
      · have href := hrefers r hr
        have hlisted := hrec r _ t nested t₁ (hacyclic.refers href)
          (fun u hu hreach ↦ hclosed u hu (Relation.TransGen.head' href hreach)) hcall
        refine .enter hr hlisted (ih hrest (fun u hu hbelow w hw ↦ ?_) hmore)
        rcases (hlisted.visited u).mp hu with hu | hu
        · exact (hlisted.visited w).mpr (.inl (hclosed u hu hbelow w hw))
        · exact (hlisted.visited w).mpr (.inr (hu.trans hw))

/-- The loop over all fields of a schema that was entered now. -/
theorem ListedBelow.close {expanded : List S} (hacyclic : G.Acyclic s) (hnew : s ∉ t.visited)
    (h : G.ListedBelow (G.modelFields s).items pathPrefix ⟨insert s t.visited, expanded⟩ hints t') :
    G.ListedFrom s pathPrefix t hints t' := by
  have hbelow :
    G.NestedPath (G.FirstBelow (G.modelFields s).items) (insert s t.visited) pathPrefix =
      G.NestedPath (G.FirstBelow (G.modelFields s).items) t.visited pathPrefix := by
    funext path
    refine propext ⟨?_, ?_⟩
    · rintro ⟨names, u, name, ann, r, hnames, hu, hrest⟩
      exact ⟨names, u, name, ann, r, hnames, fun hmem ↦ hu (Finset.mem_insert_of_mem hmem), hrest⟩
    · rintro ⟨names, u, name, ann, r, hnames, hu, hrest⟩
      refine ⟨names, u, name, ann, r, hnames, fun hmem ↦ ?_, hrest⟩
      rcases Finset.mem_insert.mp hmem with rfl | hmem
      · exact hacyclic u Relation.ReflTransGen.refl hnames.transGen
      · exact hu hmem
  have hown : ∀ path, G.NestedPath (fun names u ↦ names = [] ∧ s = u) t.visited pathPrefix path ↔
      ∃ x ∈ (G.modelFields s).items, ∃ r, x.2.resolvedSchema = some r ∧
        path = fullPath pathPrefix x.1 := by
    refine fun path ↦ ⟨?_, ?_⟩
    · rintro ⟨_, _, name, ann, r, ⟨rfl, rfl⟩, -, hmem, hr, rfl⟩
      exact ⟨(name, ann), hmem, r, hr, rfl⟩
    · rintro ⟨x, hmem, r, hr, rfl⟩
      exact ⟨[], s, x.1, x.2, r, ⟨rfl, rfl⟩, hnew, hmem, hr, rfl⟩
  have hchain : G.FirstChain s = fun names u ↦
      (names = [] ∧ s = u) ∨ G.FirstBelow (G.modelFields s).items names u := by
    funext names u
    exact propext firstChain_iff
  refine ⟨fun u ↦ ?_, fun path ↦ ?_⟩
  · have hreach : G.Reachable s u ↔ u = s ∨ ∃ x ∈ (G.modelFields s).items, ∃ r,
        x.2.resolvedSchema = some r ∧ G.Reachable r u := by
      rw [Reachable, Relation.ReflTransGen.cases_head_iff, eq_comm]
      refine or_congr_right ⟨?_, ?_⟩
      · rintro ⟨r, ⟨name, ann, hmem, hr⟩, hu⟩
        exact ⟨(name, ann), hmem, r, hr, hu⟩
      · rintro ⟨x, hmem, r, hr, hu⟩
        exact ⟨r, ⟨x.1, x.2, hmem, hr⟩, hu⟩
    rw [h.visited, hreach, Finset.mem_insert, or_assoc]
    exact or_left_comm
  · rw [h.select, hbelow, hchain, nestedPath_or, hown]

theorem findDeepRelations_listed (fuel : ℕ) : CallsList G (G.findDeepRelations ∅ fuel) := by
  induction fuel with
  | zero => exact fun s pathPrefix t hints t' _ _ h ↦ by simp [findDeepRelations] at h
  | succ fuel ih =>
      intro s pathPrefix t hints t' hacyclic hclosed h
      unfold findDeepRelations at h
      split at h
      next hvisited =>
        obtain ⟨rfl, rfl⟩ := Prod.mk.inj (Option.some.inj h)
        have hall := hclosed s hvisited Relation.ReflTransGen.refl
        refine ⟨fun u ↦ ⟨.inl, fun hu ↦ hu.elim id (hall u)⟩, fun path ↦ ?_⟩
        refine iff_of_false List.not_mem_nil ?_
        rintro ⟨names, u, name, ann, r, hnames, hu, -⟩
        exact hu (hall u hnames.reachable)
      next hvisited =>
        have hloop := fieldsHints_listed ih hacyclic (fun _ hx ↦ hx) (fun u hu hbelow w hw ↦ ?_) h
        · exact hloop.close hacyclic hvisited
        · rcases Finset.mem_insert.mp hu with rfl | hu
          · exact absurd hbelow (hacyclic u Relation.ReflTransGen.refl)
          · exact Finset.mem_insert_of_mem (hclosed u hu hbelow.to_reflTransGen w hw)

/-- The analysis lists the nested fields below first chains, and no others. -/
theorem select_iff_firstChain {schema : S} {fuel : ℕ} (hacyclic : G.Acyclic schema)
    (h : G.findDeepRelations ∅ fuel schema [] ⟨∅, []⟩ = some (hints, t)) :
    path ∈ hints.select ↔ ∃ names u name ann r, G.FirstChain schema names u ∧
      (name, ann) ∈ (G.modelFields u).items ∧ ann.resolvedSchema = some r ∧
        path = (names ++ [name]).foldl fullPath [] := by
  have hlisted := findDeepRelations_listed fuel schema [] ⟨∅, []⟩ hints t hacyclic
    (fun u hu ↦ absurd hu (Finset.notMem_empty u)) h
  simp [hlisted.select, NestedPath]

end Analysis

end SchemaGraph

end DjangoNova
