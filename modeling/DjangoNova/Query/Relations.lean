import Mathlib.Algebra.Order.BigOperators.Group.Finset
import Mathlib.Logic.Relation
import DjangoNova.Query.Schema

/-!
# The relation graph analyzer

`find_deep_relations` goes through the fields of a schema in order and
enters the schema of every nested field, with one visited set for the
whole traversal. The fuel bounds the depth of the calls; it need not
exceed the number of schemas in reach.
-/

namespace DjangoNova

open AnnotationExpr

/-- `full_field_path` -/
def fullPath (pathPrefix name : Str) : Str :=
  if pathPrefix = [] then name else pathPrefix ++ '_' :: '_' :: name

structure RelationHints where
  select : List Str
  prefetch : List Str
  deriving DecidableEq

namespace RelationHints

def none : RelationHints := ⟨[], []⟩

def append (h k : RelationHints) : RelationHints := ⟨h.select ++ k.select, h.prefetch ++ k.prefetch⟩

def size (h : RelationHints) : ℕ := h.select.length + h.prefetch.length

theorem size_append (h k : RelationHints) : (h.append k).size = h.size + k.size := by
  simp only [size, append, List.length_append]
  omega

end RelationHints

/-- The visited set of a traversal, with a record of the schemas whose
fields were gone through. -/
structure Traversal (S : Type) where
  visited : Finset S
  expanded : List S

namespace SchemaGraph

variable {S : Type} (G : SchemaGraph S) (exclude : Finset Str)

section Analysis

variable [DecidableEq S]

section Loop

variable (recurse : S → Str → Traversal S → Option (RelationHints × Traversal S)) (schema : S)
  (pathPrefix : Str)

/-- What one field adds. -/
def fieldHints (name : Str) (ann : AnnotationExpr S) (t : Traversal S) :
    Option (RelationHints × Traversal S) :=
  let path := fullPath pathPrefix name
  if name ∈ exclude ∨ path ∈ exclude then some (.none, t)
  else if ann.isCollection then
    match ann.itemSchema with
    | some _ => some (⟨[], [name]⟩, t)
    | none => some (.none, t)
  else match ann.resolvedSchema with
    | none => some (.none, t)
    | some resolved =>
        if resolved = schema then some (.none, t)
        else do
          let (nested, t) ← recurse resolved path t
          some (⟨path :: nested.select, nested.prefetch⟩, t)

/-- The loop over the fields. -/
def fieldsHints : List (Str × AnnotationExpr S) → Traversal S → Option (RelationHints × Traversal S)
  | [], t => some (.none, t)
  | x :: rest, t => do
      let (hints, t) ← fieldHints exclude recurse schema pathPrefix x.1 x.2 t
      let (more, t) ← fieldsHints rest t
      some (hints.append more, t)

end Loop

def findDeepRelations : ℕ → S → Str → Traversal S → Option (RelationHints × Traversal S)
  | 0, _, _, _ => none
  | fuel + 1, schema, pathPrefix, t =>
      if schema ∈ t.visited then some (.none, t)
      else fieldsHints exclude (findDeepRelations fuel) schema pathPrefix
        (G.modelFields schema).items ⟨insert schema t.visited, t.expanded ++ [schema]⟩

end Analysis

section Cases

variable [DecidableEq S] {recurse : S → Str → Traversal S → Option (RelationHints × Traversal S)}
  {schema : S} {pathPrefix name : Str} {ann : AnnotationExpr S} {hints : RelationHints}
  {t t' : Traversal S}

/-- What a field adds when nothing is excluded. -/
theorem fieldHints_cases
    (h : fieldHints ∅ recurse schema pathPrefix name ann t = some (hints, t')) :
    (hints = .none ∧ t' = t ∧ ann.itemSchema = none ∧
        ∀ r, ann.resolvedSchema = some r → r = schema) ∨
      (hints = ⟨[], [name]⟩ ∧ t' = t ∧ (∃ item, ann.itemSchema = some item) ∧
        ann.resolvedSchema = none) ∨
      ∃ r nested, ann.itemSchema = none ∧ ann.resolvedSchema = some r ∧ r ≠ schema ∧
        recurse r (fullPath pathPrefix name) t = some (nested, t') ∧
          hints = ⟨fullPath pathPrefix name :: nested.select, nested.prefetch⟩ := by
  have hitem : ann.isCollection = false → ann.itemSchema = none := by
    cases ann <;> simp [isCollection, itemSchema]
  have hresolved : ann.isCollection = true → ann.resolvedSchema = none := by
    cases ann <;> simp [isCollection, resolvedSchema, unwrapCoreType]
  simp only [fieldHints, Finset.notMem_empty, or_self, if_false] at h
  cases hcollection : ann.isCollection with
  | true =>
      simp only [hcollection, if_true] at h
      cases hann : ann.itemSchema with
      | none =>
          simp only [hann, Option.some.injEq, Prod.mk.injEq] at h
          exact .inl ⟨h.1.symm, h.2.symm, rfl, by simp [hresolved hcollection]⟩
      | some item =>
          simp only [hann, Option.some.injEq, Prod.mk.injEq] at h
          exact .inr (.inl ⟨h.1.symm, h.2.symm, ⟨item, rfl⟩, hresolved hcollection⟩)
  | false =>
      simp only [hcollection, Bool.false_eq_true, if_false] at h
      cases hann : ann.resolvedSchema with
      | none =>
          simp only [hann, Option.some.injEq, Prod.mk.injEq] at h
          exact .inl ⟨h.1.symm, h.2.symm, hitem hcollection, nofun⟩
      | some r =>
          simp only [hann] at h
          by_cases hself : r = schema
          · simp only [if_pos hself, Option.some.injEq, Prod.mk.injEq] at h
            refine .inl ⟨h.1.symm, h.2.symm, hitem hcollection, ?_⟩
            rintro _ ⟨⟩
            exact hself
          · simp only [if_neg hself, Option.bind_eq_bind, Option.bind_eq_some_iff] at h
            obtain ⟨⟨nested, u⟩, hnested, heq⟩ := h
            obtain ⟨rfl, rfl⟩ := Prod.mk.inj (Option.some.inj heq)
            exact .inr (.inr ⟨r, nested, hitem hcollection, rfl, hself, hnested, rfl⟩)

end Cases

/-- A field of one schema resolves to another. -/
def Refers (s r : S) : Prop :=
  ∃ name ann, (name, ann) ∈ (G.modelFields s).items ∧
    ann.resolvedSchema = some r

def Reachable : S → S → Prop := Relation.ReflTransGen G.Refers

/-- Field names, each declared by the schema to which the one before resolves. -/
inductive Chain : S → List Str → Prop
  | single {s r : S} {name : Str} {ann : AnnotationExpr S} :
      (name, ann) ∈ (G.modelFields s).items → ann.resolvedSchema = some r →
      Chain s [name]
  | cons {s r : S} {name : Str} {ann : AnnotationExpr S} {rest : List Str} :
      (name, ann) ∈ (G.modelFields s).items → ann.resolvedSchema = some r →
      Chain r rest → Chain s (name :: rest)

/-- The number of fields of some schemas. -/
def fieldCount (schemas : List S) : ℕ := (schemas.map fun s ↦ (G.modelFields s).length).sum

variable {G exclude}

theorem Refers.reachable {s r t : S} (h : G.Refers s r) (hreach : G.Reachable r t) :
    G.Reachable s t := Relation.ReflTransGen.head h hreach

/-- The schemas that a traversal goes through between two states. -/
structure Explored (G : SchemaGraph S) (schema : S) (t t' : Traversal S) (new : List S) :
    Prop where
  visited : ∀ s, s ∈ t'.visited ↔ s ∈ t.visited ∨ s ∈ new
  expanded : t'.expanded = t.expanded ++ new
  nodup : new.Nodup
  fresh : ∀ s ∈ new, s ∉ t.visited
  reachable : ∀ s ∈ new, G.Reachable schema s

namespace Explored

variable {schema r : S} {t t' t'' : Traversal S} {new new' : List S}

theorem refl (schema : S) (t : Traversal S) : Explored G schema t t [] :=
  ⟨by simp, by simp, List.nodup_nil, by simp, by simp⟩

theorem trans (h : Explored G schema t t' new) (h' : Explored G schema t' t'' new') :
    Explored G schema t t'' (new ++ new') := by
  constructor
  · intro s
    rw [h'.visited, h.visited, List.mem_append, or_assoc]
  · rw [h'.expanded, h.expanded, List.append_assoc]
  · refine List.nodup_append.mpr ⟨h.nodup, h'.nodup, ?_⟩
    rintro s hs u hu rfl
    exact h'.fresh s hu ((h.visited s).mpr (.inr hs))
  · intro s hs hvisited
    rcases List.mem_append.mp hs with hs | hs
    · exact h.fresh s hs hvisited
    · exact h'.fresh s hs ((h.visited s).mpr (.inl hvisited))
  · intro s hs
    rcases List.mem_append.mp hs with hs | hs
    · exact h.reachable s hs
    · exact h'.reachable s hs

theorem lift (h : Explored G r t t' new) (href : G.Refers schema r) :
    Explored G schema t t' new :=
  ⟨h.visited, h.expanded, h.nodup, h.fresh, fun s hs ↦ href.reachable (h.reachable s hs)⟩

/-- Enter a schema that was not visited yet. -/
theorem enter [DecidableEq S] (hnew : schema ∉ t.visited) :
    Explored G schema t ⟨insert schema t.visited, t.expanded ++ [schema]⟩ [schema] := by
  refine ⟨?_, Eq.refl _, List.nodup_singleton schema, ?_, ?_⟩
  · intro s
    simp [or_comm]
  · intro s hs
    rwa [List.mem_singleton.mp hs]
  · intro s hs
    rw [List.mem_singleton.mp hs]
    exact Relation.ReflTransGen.refl

end Explored

/-- The result of a part of a traversal: every path is a chain of declared
fields, and the number of paths is bounded by the fields gone through. -/
def Outcome (G : SchemaGraph S) (schema : S) (pathPrefix : Str) (extra : ℕ) (t : Traversal S)
    (result : RelationHints × Traversal S) : Prop :=
  ∃ new, Explored G schema t result.2 new ∧ result.1.size ≤ extra + G.fieldCount new ∧
    ∀ path ∈ result.1.select, ∃ chain, G.Chain schema chain ∧
      path = chain.foldl fullPath pathPrefix

theorem fieldCount_append (new new' : List S) :
    G.fieldCount (new ++ new') = G.fieldCount new + G.fieldCount new' := by
  simp [fieldCount]

namespace Outcome

variable {schema r : S} {pathPrefix : Str} {extra extra' : ℕ} {t t' : Traversal S}
  {h : RelationHints} {result : RelationHints × Traversal S}

theorem skip (schema : S) (pathPrefix : Str) (extra : ℕ) (t : Traversal S) :
    Outcome G schema pathPrefix extra t (.none, t) :=
  ⟨[], .refl schema t, Nat.zero_le _, fun _ h ↦ absurd h List.not_mem_nil⟩

theorem append (hh : Outcome G schema pathPrefix extra t (h, t'))
    (hr : Outcome G schema pathPrefix extra' t' result) :
    Outcome G schema pathPrefix (extra + extra') t (h.append result.1, result.2) := by
  obtain ⟨new, hnew, hsize, hpaths⟩ := hh
  obtain ⟨new', hnew', hsize', hpaths'⟩ := hr
  refine ⟨new ++ new', hnew.trans hnew', ?_, fun path hpath ↦ ?_⟩
  · have hfirst : h.size ≤ extra + G.fieldCount new := hsize
    rw [RelationHints.size_append, fieldCount_append]
    omega
  · rcases List.mem_append.mp hpath with hpath | hpath
    · exact hpaths path hpath
    · exact hpaths' path hpath

/-- The select path of a nested field, with what its schema adds. -/
theorem nest {name : Str} {ann : AnnotationExpr S}
    (hmem : (name, ann) ∈ (G.modelFields schema).items)
    (hresolved : ann.resolvedSchema = some r)
    (hr : Outcome G r (fullPath pathPrefix name) 0 t (h, t')) :
    Outcome G schema pathPrefix 1 t
      (⟨fullPath pathPrefix name :: h.select, h.prefetch⟩, t') := by
  obtain ⟨new, hnew, hsize, hpaths⟩ := hr
  refine ⟨new, hnew.lift ⟨name, ann, hmem, hresolved⟩, ?_, fun path hpath ↦ ?_⟩
  · simp only [RelationHints.size, List.length_cons] at hsize ⊢
    omega
  · rcases List.mem_cons.mp hpath with rfl | hpath
    · exact ⟨[name], .single hmem hresolved, Eq.refl _⟩
    · obtain ⟨chain, hchain, rfl⟩ := hpaths path hpath
      exact ⟨name :: chain, .cons hmem hresolved hchain, Eq.refl _⟩

/-- The number of schemas that were not visited does not grow. -/
theorem unvisited [DecidableEq S] (h : Outcome G schema pathPrefix extra t result) (R : Finset S) :
    (R \ result.2.visited).card ≤ (R \ t.visited).card := by
  obtain ⟨new, hnew, -, -⟩ := h
  refine Finset.card_le_card (Finset.sdiff_subset_sdiff (Finset.Subset.refl R) fun s hs ↦ ?_)
  exact (hnew.visited s).mpr (.inl hs)

end Outcome

section Total

variable [DecidableEq S] {recurse : S → Str → Traversal S → Option (RelationHints × Traversal S)}
  {schema : S}
  {R : Finset S} {n : ℕ} (exclude)

/-- The calls on the schemas of `R` return while at most `n` are unvisited. -/
def Returns (G : SchemaGraph S) (R : Finset S) (n : ℕ)
    (recurse : S → Str → Traversal S → Option (RelationHints × Traversal S)) : Prop :=
  ∀ r ∈ R, ∀ path t, (R \ t.visited).card ≤ n →
    ∃ result, recurse r path t = some result ∧ Outcome G r path 0 t result

theorem fieldHints_spec (hrec : Returns G R n recurse)
    (hclosed : ∀ r, G.Refers schema r → r ∈ R) {name : Str} {ann : AnnotationExpr S}
    (hmem : (name, ann) ∈ (G.modelFields schema).items) (pathPrefix : Str)
    (t : Traversal S) (ht : (R \ t.visited).card ≤ n) :
    ∃ result, fieldHints exclude recurse schema pathPrefix name ann t = some result ∧
      Outcome G schema pathPrefix 1 t result := by
  have hskip := Outcome.skip (G := G) schema pathPrefix 1 t
  unfold fieldHints
  by_cases hexclude : name ∈ exclude ∨ fullPath pathPrefix name ∈ exclude
  · exact ⟨_, if_pos hexclude, hskip⟩
  simp only [if_neg hexclude]
  by_cases hcollection : ann.isCollection = true
  · simp only [if_pos hcollection]
    cases ann.itemSchema with
    | none => exact ⟨_, Eq.refl _, hskip⟩
    | some item =>
        refine ⟨_, Eq.refl _, [], .refl schema t, ?_, fun _ h ↦ absurd h List.not_mem_nil⟩
        simp [RelationHints.size, fieldCount]
  simp only [if_neg hcollection]
  cases hresolved : ann.resolvedSchema with
  | none => exact ⟨_, Eq.refl _, hskip⟩
  | some resolved =>
      by_cases hself : resolved = schema
      · exact ⟨_, if_pos hself, hskip⟩
      · have href : G.Refers schema resolved := ⟨name, ann, hmem, hresolved⟩
        obtain ⟨⟨h, t'⟩, hresult, houtcome⟩ :=
          hrec resolved (hclosed _ href) (fullPath pathPrefix name) t ht
        simp only [if_neg hself, hresult, Option.bind_eq_bind, Option.bind_some]
        exact ⟨_, Eq.refl _, houtcome.nest hmem hresolved⟩

theorem fieldsHints_spec (hrec : Returns G R n recurse)
    (hclosed : ∀ r, G.Refers schema r → r ∈ R) (pathPrefix : Str)
    (items : List (Str × AnnotationExpr S)) (hitems : ∀ x ∈ items, x ∈ (G.modelFields schema).items)
    (t : Traversal S) (ht : (R \ t.visited).card ≤ n) :
    ∃ result, fieldsHints exclude recurse schema pathPrefix items t = some result ∧
      Outcome G schema pathPrefix items.length t result := by
  induction items generalizing t with
  | nil => exact ⟨_, Eq.refl _, .skip schema pathPrefix 0 t⟩
  | cons x rest ih =>
      obtain ⟨⟨hints, t'⟩, hfield, houtcome⟩ :=
        fieldHints_spec exclude hrec hclosed (hitems x List.mem_cons_self) pathPrefix t ht
      obtain ⟨result, hfields, hrest⟩ :=
        ih (fun y hy ↦ hitems y (List.mem_cons_of_mem _ hy)) t' ((houtcome.unvisited R).trans ht)
      have hall := houtcome.append hrest
      refine ⟨(hints.append result.1, result.2), ?_, ?_⟩
      · simp only [fieldsHints, hfield, hfields, Option.bind_eq_bind, Option.bind_some]
      · rwa [List.length_cons, Nat.add_comm]

/-- The analysis returns if its fuel exceeds the number of schemas that are
in reach and not visited. -/
theorem findDeepRelations_spec (hclosed : ∀ s ∈ R, ∀ r, G.Refers s r → r ∈ R) :
    ∀ n, Returns G R n (G.findDeepRelations exclude (n + 1)) := by
  intro n
  induction n with
  | zero =>
      intro r hr path t ht
      have hvisited : r ∈ t.visited := by
        by_contra hnew
        have hmem : r ∈ R \ t.visited := Finset.mem_sdiff.mpr ⟨hr, hnew⟩
        have hpos := Finset.card_pos.mpr ⟨r, hmem⟩
        omega
      exact ⟨_, if_pos hvisited, .skip r path 0 t⟩
  | succ n ih =>
      intro r hr path t ht
      by_cases hvisited : r ∈ t.visited
      · exact ⟨_, if_pos hvisited, .skip r path 0 t⟩
      · have henter := Explored.enter (G := G) hvisited
        have hcard : (R \ insert r t.visited).card ≤ n := by
          have hmem : r ∈ R \ t.visited := Finset.mem_sdiff.mpr ⟨hr, hvisited⟩
          have herase : R \ insert r t.visited = (R \ t.visited).erase r := by
            ext s
            simp only [Finset.mem_sdiff, Finset.mem_insert, Finset.mem_erase]
            tauto
          rw [herase, Finset.card_erase_of_mem hmem]
          omega
        obtain ⟨result, hresult, new, hnew, hsize, hpaths⟩ :=
          fieldsHints_spec exclude ih (hclosed r hr) path (G.modelFields r).items
            (fun _ hx ↦ hx) ⟨insert r t.visited, t.expanded ++ [r]⟩ hcard
        refine ⟨result, (if_neg hvisited).trans hresult, r :: new, henter.trans hnew, ?_, hpaths⟩
        have hcount : G.fieldCount (r :: new) = (G.modelFields r).length + G.fieldCount new := by
          simp [fieldCount]
        rw [hcount]
        simpa [OrderedDict.length] using hsize

end Total

section Fuel

variable [DecidableEq S]
  {recurse recurse' : S → Str → Traversal S → Option (RelationHints × Traversal S)}
  {schema : S} {pathPrefix : Str} {result : RelationHints × Traversal S}

theorem fieldHints_mono
    (hrec : ∀ r path t result, recurse r path t = some result → recurse' r path t = some result)
    {name : Str} {ann : AnnotationExpr S} {t : Traversal S}
    (h : fieldHints exclude recurse schema pathPrefix name ann t = some result) :
    fieldHints exclude recurse' schema pathPrefix name ann t = some result := by
  unfold fieldHints at h ⊢
  by_cases hexclude : name ∈ exclude ∨ fullPath pathPrefix name ∈ exclude
  · simpa only [if_pos hexclude] using h
  by_cases hcollection : ann.isCollection = true
  · simpa only [if_neg hexclude, if_pos hcollection] using h
  simp only [if_neg hexclude, if_neg hcollection] at h ⊢
  cases hresolved : ann.resolvedSchema with
  | none => simpa only [hresolved] using h
  | some resolved =>
      simp only [hresolved] at h ⊢
      by_cases hself : resolved = schema
      · simpa only [if_pos hself] using h
      simp only [if_neg hself] at h ⊢
      obtain ⟨nested, hnested, h⟩ := Option.bind_eq_some_iff.mp h
      exact Option.bind_eq_some_iff.mpr ⟨nested, hrec _ _ _ _ hnested, h⟩

theorem fieldsHints_mono
    (hrec : ∀ r path t result, recurse r path t = some result → recurse' r path t = some result)
    {items : List (Str × AnnotationExpr S)} {t : Traversal S}
    (h : fieldsHints exclude recurse schema pathPrefix items t = some result) :
    fieldsHints exclude recurse' schema pathPrefix items t = some result := by
  induction items generalizing t result with
  | nil => exact h
  | cons x rest ih =>
      obtain ⟨⟨hints, t'⟩, hfield, h⟩ := Option.bind_eq_some_iff.mp h
      obtain ⟨more, hfields, h⟩ := Option.bind_eq_some_iff.mp h
      refine Option.bind_eq_some_iff.mpr ⟨_, fieldHints_mono hrec hfield, ?_⟩
      exact Option.bind_eq_some_iff.mpr ⟨more, ih hfields, h⟩

/-- More fuel does not change a result. -/
theorem findDeepRelations_mono {fuel fuel' : ℕ} (hle : fuel ≤ fuel') {t : Traversal S}
    (h : G.findDeepRelations exclude fuel schema pathPrefix t = some result) :
    G.findDeepRelations exclude fuel' schema pathPrefix t = some result := by
  induction fuel generalizing fuel' schema pathPrefix t result with
  | zero => simp [findDeepRelations] at h
  | succ fuel ih =>
      obtain ⟨fuel', rfl⟩ := Nat.exists_eq_add_of_lt hle
      unfold findDeepRelations at h ⊢
      split at h
      · rwa [if_pos ‹_›]
      rw [if_neg ‹_›]
      exact fieldsHints_mono (fun r path t result ↦ ih (by omega)) h

end Fuel

section Traced

/-- A field is excluded, or the hints have its relation and the schema that
it nests is visited. -/
def Recorded (exclude : Finset Str) (schema : S) (pathPrefix : Str)
    (result : RelationHints × Traversal S) (x : Str × AnnotationExpr S) : Prop :=
  x.1 ∈ exclude ∨ fullPath pathPrefix x.1 ∈ exclude ∨
    (∀ item, x.2.itemSchema = some item → x.1 ∈ result.1.prefetch) ∧
      ∀ r, x.2.resolvedSchema = some r → r ≠ schema →
        fullPath pathPrefix x.1 ∈ result.1.select ∧ r ∈ result.2.visited

/-- The fields of the schemas that a part of a traversal has added to its
record are all gone through, under the paths at which it came to them. -/
def Traced (G : SchemaGraph S) (exclude : Finset Str) (pathPrefix : Str) (t : Traversal S)
    (result : RelationHints × Traversal S) : Prop :=
  t.visited ⊆ result.2.visited ∧ ∃ new, result.2.expanded = t.expanded ++ new ∧
    ∀ s ∈ new, ∃ path ∈ pathPrefix :: result.1.select,
      ∀ x ∈ (G.modelFields s).items, Recorded exclude s path result x

variable {schema : S} {pathPrefix name : Str} {ann : AnnotationExpr S} {h h' : RelationHints}
  {t t' t'' : Traversal S} {x : Str × AnnotationExpr S}

theorem Recorded.mono (hx : Recorded exclude schema pathPrefix (h, t) x)
    (hselect : h.select ⊆ h'.select) (hprefetch : h.prefetch ⊆ h'.prefetch)
    (hvisited : t.visited ⊆ t'.visited) : Recorded exclude schema pathPrefix (h', t') x := by
  rcases hx with hname | hpath | ⟨hitem, hresolved⟩
  · exact .inl hname
  · exact .inr (.inl hpath)
  · refine .inr (.inr ⟨fun item hi ↦ hprefetch (hitem item hi), fun r hr hne ↦ ?_⟩)
    obtain ⟨hmem, hseen⟩ := hresolved r hr hne
    exact ⟨hselect hmem, hvisited hseen⟩

namespace Traced

theorem skip (h : RelationHints) : Traced G exclude pathPrefix t (h, t) :=
  ⟨Finset.Subset.refl _, [], by simp, by simp⟩

theorem append (hfirst : Traced G exclude pathPrefix t (h, t'))
    (hsecond : Traced G exclude pathPrefix t' (h', t'')) :
    Traced G exclude pathPrefix t (h.append h', t'') := by
  obtain ⟨hvisited, new, hnew, hrecorded⟩ := hfirst
  obtain ⟨hvisited', new', hnew', hrecorded'⟩ := hsecond
  refine ⟨hvisited.trans hvisited', new ++ new', ?_, fun s hs ↦ ?_⟩
  · rw [show t''.expanded = t'.expanded ++ new' from hnew',
      show t'.expanded = t.expanded ++ new from hnew, List.append_assoc]
  · rcases List.mem_append.mp hs with hs | hs
    · obtain ⟨path, hpath, hall⟩ := hrecorded s hs
      refine ⟨path, List.cons_subset_cons _ (List.subset_append_left _ _) hpath, fun x hx ↦ ?_⟩
      exact (hall x hx).mono (List.subset_append_left _ _) (List.subset_append_left _ _) hvisited'
    · obtain ⟨path, hpath, hall⟩ := hrecorded' s hs
      refine ⟨path, List.cons_subset_cons _ (List.subset_append_right _ _) hpath, fun x hx ↦ ?_⟩
      exact (hall x hx).mono (List.subset_append_right _ _) (List.subset_append_right _ _)
        (Finset.Subset.refl _)

/-- The path of a nested field comes first among those of its schema. -/
theorem nest (hnested : Traced G exclude (fullPath pathPrefix name) t (h, t')) :
    Traced G exclude pathPrefix t (⟨fullPath pathPrefix name :: h.select, h.prefetch⟩, t') := by
  obtain ⟨hvisited, new, hnew, hrecorded⟩ := hnested
  refine ⟨hvisited, new, hnew, fun s hs ↦ ?_⟩
  obtain ⟨path, hpath, hall⟩ := hrecorded s hs
  refine ⟨path, List.mem_cons_of_mem _ hpath, fun x hx ↦ ?_⟩
  exact (hall x hx).mono (List.subset_cons_self _ _) (List.Subset.refl _) (Finset.Subset.refl _)

end Traced

variable [DecidableEq S] {recurse : S → Str → Traversal S → Option (RelationHints × Traversal S)}
  {result : RelationHints × Traversal S}

theorem fieldHints_traced (hrec : ∀ r path t result, recurse r path t = some result →
      r ∈ result.2.visited ∧ Traced G exclude path t result)
    (hresult : fieldHints exclude recurse schema pathPrefix name ann t = some result) :
    Traced G exclude pathPrefix t result ∧
      Recorded exclude schema pathPrefix result (name, ann) := by
  have hitem : ann.isCollection = false → ann.itemSchema = none := by
    cases ann <;> simp [isCollection, itemSchema]
  have hcore : ann.isCollection = true → ann.resolvedSchema = none := by
    cases ann <;> simp [isCollection, resolvedSchema, unwrapCoreType]
  unfold fieldHints at hresult
  by_cases hexclude : name ∈ exclude ∨ fullPath pathPrefix name ∈ exclude
  · obtain rfl := Option.some.inj ((if_pos hexclude).symm.trans hresult)
    exact ⟨.skip _, hexclude.imp_right .inl⟩
  simp only [if_neg hexclude] at hresult
  cases hcollection : ann.isCollection with
  | true =>
      simp only [hcollection, if_true] at hresult
      cases hann : ann.itemSchema with
      | none =>
          simp only [hann, Option.some.injEq] at hresult
          subst hresult
          exact ⟨.skip _, .inr (.inr ⟨by simp [hann], by simp [hcore hcollection]⟩)⟩
      | some item =>
          simp only [hann, Option.some.injEq] at hresult
          subst hresult
          exact ⟨.skip _, .inr (.inr ⟨by simp, by simp [hcore hcollection]⟩)⟩
  | false =>
      simp only [hcollection, Bool.false_eq_true, if_false] at hresult
      have hnone : ∀ item, ann.itemSchema ≠ some item := by simp [hitem hcollection]
      cases hann : ann.resolvedSchema with
      | none =>
          simp only [hann, Option.some.injEq] at hresult
          subst hresult
          exact ⟨.skip _, .inr (.inr ⟨fun item h ↦ absurd h (hnone item), by simp [hann]⟩)⟩
      | some r =>
          simp only [hann] at hresult
          by_cases hself : r = schema
          · simp only [if_pos hself, Option.some.injEq] at hresult
            subst hresult
            refine ⟨.skip _, .inr (.inr ⟨fun item h ↦ absurd h (hnone item), ?_⟩)⟩
            rintro r' hr' hne
            exact absurd ((Option.some.inj (hann.symm.trans hr')).symm.trans hself) hne
          · simp only [if_neg hself, Option.bind_eq_bind, Option.bind_eq_some_iff] at hresult
            obtain ⟨⟨nested, u⟩, hnested, heq⟩ := hresult
            obtain rfl := Option.some.inj heq
            obtain ⟨hvisited, htraced⟩ := hrec _ _ _ _ hnested
            refine ⟨htraced.nest, .inr (.inr ⟨fun item h ↦ absurd h (hnone item), ?_⟩)⟩
            rintro r' hr' -
            obtain rfl := Option.some.inj (hann.symm.trans hr')
            exact ⟨List.mem_cons_self, hvisited⟩

theorem fieldsHints_traced (hrec : ∀ r path t result, recurse r path t = some result →
      r ∈ result.2.visited ∧ Traced G exclude path t result)
    {items : List (Str × AnnotationExpr S)}
    (hresult : fieldsHints exclude recurse schema pathPrefix items t = some result) :
    Traced G exclude pathPrefix t result ∧
      ∀ x ∈ items, Recorded exclude schema pathPrefix result x := by
  induction items generalizing t result with
  | nil =>
      obtain rfl := Option.some.inj hresult
      exact ⟨.skip _, by simp⟩
  | cons x rest ih =>
      obtain ⟨⟨hints, t'⟩, hfield, hresult⟩ := Option.bind_eq_some_iff.mp hresult
      obtain ⟨⟨more, t''⟩, hfields, hresult⟩ := Option.bind_eq_some_iff.mp hresult
      obtain rfl := Option.some.inj hresult
      obtain ⟨hfirst, hx⟩ := fieldHints_traced hrec hfield
      obtain ⟨hrest, hall⟩ := ih hfields
      refine ⟨hfirst.append hrest, fun y hy ↦ ?_⟩
      rcases List.mem_cons.mp hy with rfl | hy
      · exact hx.mono (List.subset_append_left _ _) (List.subset_append_left _ _) hrest.1
      · exact (hall y hy).mono (List.subset_append_right _ _) (List.subset_append_right _ _)
          (Finset.Subset.refl _)

theorem findDeepRelations_traced {fuel : ℕ}
    (hresult : G.findDeepRelations exclude fuel schema pathPrefix t = some result) :
    schema ∈ result.2.visited ∧ Traced G exclude pathPrefix t result := by
  induction fuel generalizing schema pathPrefix t result with
  | zero => cases hresult
  | succ fuel ih =>
      rw [findDeepRelations] at hresult
      split at hresult
      · obtain rfl := Option.some.inj hresult
        exact ⟨‹_›, .skip _⟩
      · obtain ⟨⟨hvisited, new, hnew, hrecorded⟩, hfields⟩ :=
          fieldsHints_traced (fun _ _ _ _ ↦ ih) hresult
        refine ⟨hvisited (Finset.mem_insert_self _ _),
          (Finset.subset_insert _ _).trans hvisited, schema :: new, ?_, fun s hs ↦ ?_⟩
        · rw [hnew, List.append_assoc]
          rfl
        · rcases List.mem_cons.mp hs with rfl | hs
          · exact ⟨pathPrefix, List.mem_cons_self, hfields⟩
          · exact hrecorded s hs

end Traced

/-- The analysis of a schema from which finitely many are in reach: with any
fuel above their number it returns one result, it goes through the fields
of no schema twice, it returns at most as many paths as these schemas have
fields, and its select paths are chains of declared fields. The schema
is visited; what is newly visited is what it goes through, and it goes
through all fields there. -/
theorem relation_analysis [DecidableEq S] (G : SchemaGraph S) (exclude : Finset Str) (schema : S)
    (pathPrefix : Str) (visited : Finset S) (R : Finset S)
    (hR : ∀ s, s ∈ R ↔ G.Reachable schema s) :
    ∃ hints t, (∀ fuel, R.card < fuel →
        G.findDeepRelations exclude fuel schema pathPrefix ⟨visited, []⟩ = some (hints, t)) ∧
      t.expanded.Nodup ∧ hints.size ≤ ∑ s ∈ R, (G.modelFields s).length ∧
      (∀ path ∈ hints.select, ∃ chain, G.Chain schema chain ∧
        path = chain.foldl fullPath pathPrefix) ∧
      schema ∈ t.visited ∧ (∀ s, s ∈ t.visited ↔ s ∈ visited ∨ s ∈ t.expanded) ∧
      ∀ s ∈ t.expanded, ∃ path ∈ pathPrefix :: hints.select,
        ∀ x ∈ (G.modelFields s).items, Recorded exclude s path (hints, t) x := by
  have hclosed : ∀ s ∈ R, ∀ r, G.Refers s r → r ∈ R := fun s hs r href ↦
    (hR r).mpr (((hR s).mp hs).tail href)
  have hschema : schema ∈ R := (hR schema).mpr Relation.ReflTransGen.refl
  have hcard : (R \ visited).card ≤ R.card := Finset.card_le_card Finset.sdiff_subset
  obtain ⟨⟨hints, t⟩, hresult, new, hnew, hsize, hpaths⟩ :=
    findDeepRelations_spec exclude hclosed R.card schema hschema pathPrefix
      ⟨visited, []⟩ hcard
  obtain ⟨hvisited, -, traced, htraced, hrecorded⟩ := findDeepRelations_traced hresult
  obtain rfl : traced = t.expanded := htraced.symm
  refine ⟨hints, t, fun fuel hfuel ↦ findDeepRelations_mono hfuel hresult, ?_, ?_, hpaths, hvisited,
    fun s ↦ ?_, hrecorded⟩
  · rw [hnew.expanded]
    exact hnew.nodup
  · have hcount : G.fieldCount new = ∑ s ∈ new.toFinset, (G.modelFields s).length :=
      (List.sum_toFinset _ hnew.nodup).symm
    have hsubset : new.toFinset ⊆ R := fun s hs ↦
      (hR s).mpr (hnew.reachable s (List.mem_toFinset.mp hs))
    calc hints.size ≤ 0 + G.fieldCount new := hsize
      _ = ∑ s ∈ new.toFinset, (G.modelFields s).length := by rw [hcount, Nat.zero_add]
      _ ≤ ∑ s ∈ R, (G.modelFields s).length := Finset.sum_le_sum_of_subset hsubset
  · rw [hnew.visited, hnew.expanded]
    rfl

/-- Two schemas, each with an optional field of the other. -/
def schemaCycle : SchemaGraph Bool where
  modelFields side :=
    ⟨[(['n', 'e', 'x', 't'], .union [.type (.schema !side), .type .noneType])],
      List.nodup_singleton _⟩

theorem relation_analysis_sample :
    ∃ hints t, (∀ fuel, 2 < fuel →
        schemaCycle.findDeepRelations ∅ fuel true [] ⟨∅, []⟩ = some (hints, t)) ∧
      t.expanded.Nodup ∧ hints.size ≤ 2 ∧
      (∀ path ∈ hints.select, ∃ chain, schemaCycle.Chain true chain ∧
        path = chain.foldl fullPath []) ∧ true ∈ t.expanded ∧ false ∈ t.expanded := by
  have hreach : ∀ side, side ∈ Finset.univ ↔ schemaCycle.Reachable true side := by
    refine fun side ↦ iff_of_true (Finset.mem_univ side) ?_
    cases side with
    | true => exact Relation.ReflTransGen.refl
    | false => exact Relation.ReflTransGen.single ⟨_, _, List.mem_singleton.mpr rfl, by decide⟩
  obtain ⟨hints, t, hfind, hnodup, hsize, hpaths, hroot, hvisited, hrecorded⟩ :=
    relation_analysis schemaCycle ∅ true [] ∅ Finset.univ hreach
  have hexpanded : true ∈ t.expanded := ((hvisited true).mp hroot).resolve_left (by simp)
  obtain ⟨path, -, hfields⟩ := hrecorded true hexpanded
  obtain hname | hpath | ⟨-, hnext⟩ := hfields _ (List.mem_singleton.mpr rfl)
  · simp at hname
  · simp at hpath
  · have hother : false ∈ t.visited := (hnext false (by decide) (by decide)).2
    exact ⟨hints, t, hfind, hnodup, hsize, hpaths, hexpanded,
      ((hvisited false).mp hother).resolve_left (by simp)⟩

end SchemaGraph

end DjangoNova
