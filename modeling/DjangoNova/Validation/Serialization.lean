import DjangoNova.Django.Fields
import DjangoNova.Fallible.Except
import DjangoNova.Query.Schema

/-!
# The serializer

`model_to_dict` reads the concrete fields of an instance that its schema
declares, and goes on along the relations whose annotation is a schema.
`I` is the type of the model instances and `V` the one of the attribute
values other than `None`.
-/

namespace DjangoNova

/-- What a relation of an instance can evaluate to. -/
inductive RelatedObject (I : Type) where
  | none
  | model (i : I)
  | other

/-- Instances as `getattr` sees them. -/
structure ObjectHeap (I V E : Type) where
  typeName : I → Str
  concreteFields : I → List ConcreteField
  /-- `getattr(instance, attname, None)` -/
  attributeOf : I → Str → Except E (Option V)
  /-- `getattr(instance, name)` -/
  related : I → Str → Except E (RelatedObject I)

inductive SerializationError (E : Type) where
  | valueError (message : Str)
  | typeError (message : Str)
  /-- an error of an attribute access -/
  | raised (e : E)
  deriving DecidableEq

inductive PlainValue (V : Type) where
  | none
  | text (s : Str)
  | object (v : V)
  deriving DecidableEq

inductive Serialized (V : Type) where
  | plain (v : PlainValue V)
  | nested (items : List (Str × Serialized V))

abbrev SerializedDict (V : Type) : Type := List (Str × Serialized V)

def depthMessage : Str :=
  "Nested serialization exceeded 32 model levels; check the schema for recursive relations.".toList

def typeMessage (typeName name : Str) : Str :=
  typeName ++ '.' :: name ++ " must resolve to a Django model.".toList

section Code

variable {I S V E : Type} (str : V → Str) (G : SchemaGraph S) (heap : ObjectHeap I V E)

def serializeValue (field : ConcreteField) : Option V → PlainValue V
  | none => .none
  | some v => if field.isFile then .text (str v) else .object v

/-- The value of a field that the schema declares. -/
def serializeField (recurse : I → S → Except (SerializationError E) (SerializedDict V)) (i : I)
    (field : ConcreteField) (ann : AnnotationExpr S) :
    Except (SerializationError E) (Serialized V) :=
  match field.isRelation, ann.getNestedSchema with
  | true, some nestedSchema => do
      match ← (heap.related i field.name).mapError .raised with
      | .none => .ok (.plain .none)
      | .other => .error (.typeError (typeMessage (heap.typeName i) field.name))
      | .model related =>
          let items ← recurse related nestedSchema
          .ok (.nested items)
  | _, _ => do
      let value ← (heap.attributeOf i field.attname).mapError .raised
      .ok (.plain (serializeValue str field value))

/-- The loop over the concrete fields. -/
def serializeFields (recurse : I → S → Except (SerializationError E) (SerializedDict V)) (i : I)
    (schema : S) : List ConcreteField → Except (SerializationError E) (SerializedDict V)
  | [] => .ok []
  | field :: rest =>
      match (G.modelFields schema).lookup field.name with
      | none => serializeFields recurse i schema rest
      | some ann => do
          let value ← serializeField str heap recurse i field ann
          let items ← serializeFields recurse i schema rest
          .ok ((field.name, value) :: items)

/-- `_model_to_dict` -/
def modelToDictAt (depth : ℕ) (i : I) (schema : S) :
    Except (SerializationError E) (SerializedDict V) :=
  if depth ≥ 32 then .error (.valueError depthMessage)
  else serializeFields str G heap (fun related nested ↦ modelToDictAt (depth + 1) related nested)
    i schema (heap.concreteFields i)
termination_by 32 - depth

def modelToDict (i : I) (schema : S) : Except (SerializationError E) (SerializedDict V) :=
  modelToDictAt str G heap 0 i schema

end Code

/-- Model instances whose attributes are loaded and whose relations lead to
instances or are null. The key of a relation that is null is null as well. -/
structure InstanceGraph (I V : Type) where
  typeName : I → Str
  concreteFields : I → List ConcreteField
  names_nodup : ∀ i, ((concreteFields i).map ConcreteField.name).Nodup
  attributeOf : I → Str → Option V
  related : I → Str → Option I
  null_key : ∀ i, ∀ field ∈ concreteFields i, field.isRelation = true →
    related i field.name = none → attributeOf i field.attname = none

namespace InstanceGraph

variable {I S V : Type} (g : InstanceGraph I V) (G : SchemaGraph S)

def heap : ObjectHeap I V Empty where
  typeName := g.typeName
  concreteFields := g.concreteFields
  attributeOf i name := .ok (g.attributeOf i name)
  related i name := .ok (match g.related i name with
    | none => .none
    | some j => .model j)

/-- A non-null foreign key with a nested or optional nested annotation leads
to an instance and its schema. -/
def LeadsTo (i : I) (field : ConcreteField) (ann : AnnotationExpr S) (j : I) (r : S) : Prop :=
  field.isRelation = true ∧ ann.Nests r ∧ g.related i field.name = some j

/-- A declared field of a level leads to another level. -/
def Selects (i : I) (schema : S) (j : I) (r : S) : Prop :=
  ∃ field ∈ g.concreteFields i, ∃ ann,
    (G.modelFields schema).lookup field.name = some ann ∧ g.LeadsTo i field ann j r

/-- A chain of selected relations with some number of steps. -/
def HasChain : ℕ → I → S → Prop
  | 0, _, _ => True
  | n + 1, i, schema => ∃ j r, g.Selects G i schema j r ∧ HasChain n j r

/-- The serialized form of an attribute value: `None` stays, a file becomes
its text, and any other value is left as it is. -/
inductive Serializes (str : V → Str) (field : ConcreteField) : Option V → PlainValue V → Prop
  | null : Serializes str field none .none
  | file {v : V} : field.isFile = true → Serializes str field (some v) (.text (str v))
  | object {v : V} : field.isFile = false → Serializes str field (some v) (.object v)

mutual

/-- The keys of a level are the declared names of concrete fields. -/
inductive Shaped (str : V → Str) : I → S → SerializedDict V → Prop
  | level {i : I} {schema : S} {items : SerializedDict V} :
      items.map Prod.fst = ((g.concreteFields i).map ConcreteField.name).filter
        (fun name ↦ ((G.modelFields schema).lookup name).isSome) →
      (∀ field ∈ g.concreteFields i, ∀ ann,
        (G.modelFields schema).lookup field.name = some ann → ∀ value,
          (field.name, value) ∈ items → ValueShaped str i field ann value) →
      Shaped str i schema items

/-- A value is nested if and only if its field leads to another level, and
otherwise the serialized form of the attribute of the field. -/
inductive ValueShaped (str : V → Str) : I → ConcreteField → AnnotationExpr S → Serialized V → Prop
  | nested {i j : I} {r : S} {field : ConcreteField} {ann : AnnotationExpr S}
      {items : SerializedDict V} : g.LeadsTo i field ann j r →
      Shaped str j r items → ValueShaped str i field ann (.nested items)
  | plain {i : I} {field : ConcreteField} {ann : AnnotationExpr S} {v : PlainValue V} :
      (∀ j r, ¬g.LeadsTo i field ann j r) →
      Serializes str field (g.attributeOf i field.attname) v →
      ValueShaped str i field ann (.plain v)

end

/-- Two graphs agree on what the schemas select, along the selected chains
from related levels. -/
structure Agreement {J : Type} (h : InstanceGraph J V) (R : I → J → S → Prop) : Prop where
  fields {i : I} {j : J} {schema : S} : R i j schema →
    (g.concreteFields i).filter (fun f ↦ ((G.modelFields schema).lookup f.name).isSome) =
      (h.concreteFields j).filter fun f ↦ ((G.modelFields schema).lookup f.name).isSome
  values {i : I} {j : J} {schema : S} : R i j schema → ∀ field ∈ g.concreteFields i,
    ∀ ann, (G.modelFields schema).lookup field.name = some ann →
    (∀ i' r, ¬g.LeadsTo i field ann i' r) → (∀ j' r, ¬h.LeadsTo j field ann j' r) ∧
      g.attributeOf i field.attname = h.attributeOf j field.attname
  chains {i : I} {j : J} {schema : S} : R i j schema → ∀ field ∈ g.concreteFields i,
    ∀ ann, (G.modelFields schema).lookup field.name = some ann →
    ∀ i' r, g.LeadsTo i field ann i' r → ∃ j', h.LeadsTo j field ann j' r ∧ R i' j' r

/-- Where the serializer goes on from a field. -/
def nestedTarget (i : I) (field : ConcreteField) (ann : AnnotationExpr S) : Option (I × S) :=
  if field.isRelation then
    ann.getNestedSchema.bind fun r ↦ (g.related i field.name).map fun j ↦ (j, r)
  else none

variable {g G} {str : V → Str} {i : I} {schema : S} {field : ConcreteField}
  {ann : AnnotationExpr S}

theorem nestedTarget_eq_some {j : I} {r : S} :
    g.nestedTarget i field ann = some (j, r) ↔ g.LeadsTo i field ann j r := by
  simp only [nestedTarget, LeadsTo, ← AnnotationExpr.getNestedSchema_eq_some,
    Option.ite_none_right_eq_some, Option.bind_eq_some_iff, Option.map_eq_some_iff,
    Prod.mk.injEq]
  constructor
  · rintro ⟨hrelation, _, hann, _, hrelated, rfl, rfl⟩
    exact ⟨hrelation, hann, hrelated⟩
  · rintro ⟨hrelation, hann, hrelated⟩
    exact ⟨hrelation, r, hann, j, hrelated, rfl, rfl⟩

theorem nestedTarget_eq_none :
    g.nestedTarget i field ann = none ↔ ∀ j r, ¬g.LeadsTo i field ann j r := by
  simp only [Option.eq_none_iff_forall_ne_some, ne_eq, Prod.forall, nestedTarget_eq_some]

theorem serializes_serializeValue (value : Option V) :
    Serializes str field value (serializeValue str field value) := by
  cases value with
  | none => exact .null
  | some v =>
      cases hfile : field.isFile with
      | true =>
          rw [serializeValue, if_pos hfile]
          exact .file hfile
      | false =>
          rw [serializeValue, if_neg (by simp [hfile])]
          exact .object hfile

/-- A declared field of an instance of a graph. -/
theorem serializeField_eq
    (recurse : I → S → Except (SerializationError Empty) (SerializedDict V))
    (hfield : field ∈ g.concreteFields i) :
    serializeField str g.heap recurse i field ann =
      match g.nestedTarget i field ann with
      | some (j, r) => (recurse j r).map .nested
      | none => .ok (.plain (serializeValue str field (g.attributeOf i field.attname))) := by
  unfold serializeField nestedTarget
  cases hrelation : field.isRelation with
  | false => rfl
  | true =>
      cases ann.getNestedSchema with
      | none => rfl
      | some r =>
          cases hrelated : g.related i field.name with
          | none =>
              have hnull := g.null_key i field hfield hrelation hrelated
              simp [heap, hrelated, hnull, serializeValue, mapError_ok, bind, Except.bind]
          | some j =>
              simp only [heap, hrelated, mapError_ok, bind, Except.bind, if_true,
                Option.bind_some, Option.map_some]
              cases recurse j r <;> rfl

/-- The fields that lead to a level with some property. -/
def Leads (g : InstanceGraph I V) (G : SchemaGraph S) (C : I → S → Prop) (i : I) (schema : S)
    (fields : List ConcreteField) : Prop :=
  ∃ field ∈ fields, ∃ ann, (G.modelFields schema).lookup field.name = some ann ∧
    ∃ j r, g.nestedTarget i field ann = some (j, r) ∧ C j r

/-- A level that cannot be finished raises the error, and any other level
returns the fields that are declared. -/
def Settled (C : Prop) {α : Type} (P : α → Prop)
    (result : Except (SerializationError Empty) α) : Prop :=
  (C ∧ result = .error (.valueError depthMessage)) ∨ (¬C ∧ ∃ a, result = .ok a ∧ P a)

section Loop

variable {C : I → S → Prop}
  {recurse : I → S → Except (SerializationError Empty) (SerializedDict V)}

theorem serializeField_settled (hrec : ∀ j r, Settled (C j r) (g.Shaped G str j r) (recurse j r))
    (hfield : field ∈ g.concreteFields i) (ann : AnnotationExpr S) :
    Settled (∃ j r, g.nestedTarget i field ann = some (j, r) ∧ C j r)
      (g.ValueShaped G str i field ann)
      (serializeField str g.heap recurse i field ann) := by
  rw [serializeField_eq recurse hfield]
  cases htarget : g.nestedTarget i field ann with
  | none =>
      refine .inr ⟨?_, _, Eq.refl _,
        .plain (nestedTarget_eq_none.mp htarget) (serializes_serializeValue _)⟩
      rintro ⟨j, r, h, -⟩
      simp at h
  | some target =>
      obtain ⟨j, r⟩ := target
      obtain ⟨hC, herror⟩ | ⟨hC, items, hok, hshaped⟩ := hrec j r
      · exact .inl ⟨⟨j, r, Eq.refl _, hC⟩, by simp [herror, Except.map]⟩
      · refine .inr ⟨?_, .nested items, by simp [hok, Except.map],
          .nested (nestedTarget_eq_some.mp htarget) hshaped⟩
        rintro ⟨j', r', h, hC'⟩
        obtain ⟨rfl, rfl⟩ := Prod.mk.inj (Option.some.inj h)
        exact hC hC'

/-- What the loop returns: the declared names in order, each with a value
of the right shape. -/
structure Collected (g : InstanceGraph I V) (G : SchemaGraph S) (str : V → Str) (i : I)
    (schema : S) (fields : List ConcreteField) (items : SerializedDict V) : Prop where
  names : items.map Prod.fst = (fields.map ConcreteField.name).filter
    fun name ↦ ((G.modelFields schema).lookup name).isSome
  shaped : ∀ x ∈ items, ∃ field ∈ fields, ∃ ann, x.1 = field.name ∧
    (G.modelFields schema).lookup field.name = some ann ∧
      g.ValueShaped G str i field ann x.2

theorem serializeFields_settled (hrec : ∀ j r, Settled (C j r) (g.Shaped G str j r) (recurse j r))
    (schema : S) (fields : List ConcreteField)
    (hfields : ∀ field ∈ fields, field ∈ g.concreteFields i) :
    Settled (g.Leads G C i schema fields) (g.Collected G str i schema fields)
      (serializeFields str G g.heap recurse i schema fields) := by
  induction fields with
  | nil =>
      refine .inr ⟨?_, [], Eq.refl _, Eq.refl _, fun x hx ↦ absurd hx List.not_mem_nil⟩
      rintro ⟨field, hfield, -⟩
      exact absurd hfield List.not_mem_nil
  | cons field rest ih =>
      have hrest := ih fun f hf ↦ hfields f (List.mem_cons_of_mem _ hf)
      unfold serializeFields
      cases hlookup : (G.modelFields schema).lookup field.name with
      | none =>
          have hleads : g.Leads G C i schema (field :: rest) ↔ g.Leads G C i schema rest := by
            simp [Leads, hlookup]
          obtain ⟨hC, herror⟩ | ⟨hC, items, hok, hitems⟩ := hrest
          · exact .inl ⟨hleads.mpr hC, herror⟩
          · refine .inr ⟨fun h ↦ hC (hleads.mp h), items, hok, ?_, fun x hx ↦ ?_⟩
            · simp [hlookup, hitems.names]
            · obtain ⟨f, hf, h⟩ := hitems.shaped x hx
              exact ⟨f, List.mem_cons_of_mem _ hf, h⟩
      | some ann =>
          have hleads : g.Leads G C i schema (field :: rest) ↔
              (∃ j r, g.nestedTarget i field ann = some (j, r) ∧ C j r) ∨
                g.Leads G C i schema rest := by
            simp [Leads, hlookup]
          obtain ⟨hC, herror⟩ | ⟨hC, value, hvalue, hshaped⟩ :=
            serializeField_settled hrec (hfields field List.mem_cons_self) ann
          · exact .inl ⟨hleads.mpr (.inl hC), by simp [herror, bind, Except.bind]⟩
          · obtain ⟨hC', herror⟩ | ⟨hC', items, hok, hitems⟩ := hrest
            · exact .inl ⟨hleads.mpr (.inr hC'), by simp [hvalue, herror, bind, Except.bind]⟩
            · refine .inr ⟨fun h ↦ (hleads.mp h).elim hC hC', (field.name, value) :: items,
                by simp [hvalue, hok, bind, Except.bind], ?_, fun x hx ↦ ?_⟩
              · simp [hlookup, hitems.names]
              · rcases List.mem_cons.mp hx with rfl | hx
                · exact ⟨field, List.mem_cons_self, ann, Eq.refl _, hlookup, hshaped⟩
                · obtain ⟨f, hf, h⟩ := hitems.shaped x hx
                  exact ⟨f, List.mem_cons_of_mem _ hf, h⟩

end Loop

theorem Collected.level {items : SerializedDict V}
    (h : g.Collected G str i schema (g.concreteFields i) items) :
    g.Shaped G str i schema items := by
  refine .level h.names fun field hfield ann hlookup value hmem ↦ ?_
  obtain ⟨f, hf, a, hname, ha, hshaped⟩ := h.shaped _ hmem
  obtain rfl : field = f := List.inj_on_of_nodup_map (g.names_nodup i) hfield hf hname
  obtain rfl := Option.some.inj (hlookup.symm.trans ha)
  exact hshaped

variable (str) in
/-- With `n` levels left, a level fails when a chain of `n` steps starts at it. -/
theorem modelToDictAt_settled (n : ℕ) : ∀ depth, depth + n = 32 → ∀ (i : I) (schema : S),
    Settled (g.HasChain G n i schema) (g.Shaped G str i schema)
      (modelToDictAt str G g.heap depth i schema) := by
  induction n with
  | zero =>
      intro depth hdepth i schema
      rw [modelToDictAt, if_pos (by omega)]
      exact .inl ⟨trivial, Eq.refl _⟩
  | succ n ih =>
      intro depth hdepth i schema
      rw [modelToDictAt, if_neg (by omega)]
      have hchain : g.Leads G (g.HasChain G n) i schema (g.concreteFields i) ↔
          g.HasChain G (n + 1) i schema := by
        constructor
        · rintro ⟨field, hfield, ann, hlookup, j, r, htarget, hC⟩
          exact ⟨j, r, ⟨field, hfield, ann, hlookup, nestedTarget_eq_some.mp htarget⟩, hC⟩
        · rintro ⟨j, r, ⟨field, hfield, ann, hlookup, htarget⟩, hC⟩
          exact ⟨field, hfield, ann, hlookup, j, r, nestedTarget_eq_some.mpr htarget, hC⟩
      obtain ⟨hC, herror⟩ | ⟨hC, items, hok, hitems⟩ :=
        serializeFields_settled (ih (depth + 1) (by omega)) schema (g.concreteFields i) fun _ h ↦ h
      · exact .inl ⟨hchain.mp hC, herror⟩
      · exact .inr ⟨fun h ↦ hC (hchain.mpr h), items, hok, hitems.level⟩

section TwoGraphs

variable {J : Type} {h : InstanceGraph J V} {R : I → J → S → Prop} {j : J}

/-- The loop passes over the fields that are not declared. -/
theorem serializeFields_filter {E : Type} {heap : ObjectHeap I V E}
    (recurse : I → S → Except (SerializationError E) (SerializedDict V))
    (fields : List ConcreteField) :
    serializeFields str G heap recurse i schema fields =
      serializeFields str G heap recurse i schema
        (fields.filter fun f ↦ ((G.modelFields schema).lookup f.name).isSome) := by
  induction fields with
  | nil => rfl
  | cons field rest ih =>
      cases hlookup : (G.modelFields schema).lookup field.name with
      | none => simp [serializeFields, hlookup, ih]
      | some ann => simp [serializeFields, hlookup, ih]

theorem serializeFields_congr {E : Type} {heap : ObjectHeap I V E} {heap' : ObjectHeap J V E}
    {recurse : I → S → Except (SerializationError E) (SerializedDict V)}
    {recurse' : J → S → Except (SerializationError E) (SerializedDict V)}
    (fields : List ConcreteField)
    (hfields : ∀ field ∈ fields, ∀ ann,
      (G.modelFields schema).lookup field.name = some ann →
        serializeField str heap recurse i field ann =
          serializeField str heap' recurse' j field ann) :
    serializeFields str G heap recurse i schema fields =
      serializeFields str G heap' recurse' j schema fields := by
  induction fields with
  | nil => rfl
  | cons field rest ih =>
      have hrest := ih fun f hf ↦ hfields f (List.mem_cons_of_mem _ hf)
      unfold serializeFields
      cases hlookup : (G.modelFields schema).lookup field.name with
      | none => exact hrest
      | some ann =>
          simp only [hfields field List.mem_cons_self ann hlookup, hrest]

theorem Agreement.modelToDictAt_eq (hR : g.Agreement G h R) (n : ℕ) :
    ∀ depth, depth + n = 32 → ∀ (i : I) (j : J) (schema : S), R i j schema →
      modelToDictAt str G g.heap depth i schema = modelToDictAt str G h.heap depth j schema := by
  induction n with
  | zero =>
      intro depth hdepth i j schema hij
      rw [modelToDictAt, modelToDictAt, if_pos (by omega), if_pos (by omega)]
  | succ n ih =>
      intro depth hdepth i j schema hij
      rw [modelToDictAt, modelToDictAt, if_neg (by omega), if_neg (by omega)]
      rw [serializeFields_filter, serializeFields_filter _ (h.heap.concreteFields j)]
      have hfields := hR.fields hij
      show serializeFields _ _ _ _ _ _ ((g.concreteFields i).filter _) =
        serializeFields _ _ _ _ _ _ ((h.concreteFields j).filter _)
      rw [← hfields]
      refine serializeFields_congr _ fun field hfield ann hlookup ↦ ?_
      have hfirst := (List.mem_filter.mp hfield).1
      have hsecond := (List.mem_filter.mp (hfields ▸ hfield)).1
      rw [serializeField_eq _ hfirst, serializeField_eq _ hsecond]
      cases htarget : g.nestedTarget i field ann with
      | none =>
          obtain ⟨htarget', hvalue⟩ :=
            hR.values hij field hfirst ann hlookup (nestedTarget_eq_none.mp htarget)
          simp only [nestedTarget_eq_none.mpr htarget', hvalue]
      | some target =>
          obtain ⟨i', r⟩ := target
          obtain ⟨j', htarget', hij'⟩ :=
            hR.chains hij field hfirst ann hlookup i' r (nestedTarget_eq_some.mp htarget)
          simp only [nestedTarget_eq_some.mpr htarget', ih (depth + 1) (by omega) i' j' r hij']

end TwoGraphs

section Sample

/-! A post with an author and a cover file, and a node that is its own parent. -/

inductive Exhibit where
  | post
  | author
  | node

inductive ExhibitSchema where
  | post
  | author
  | node

def exhibitFields : Exhibit → List ConcreteField
  | .post => [⟨['t'], ['t'], false, false⟩, ⟨['s'], ['s'], false, false⟩,
      ⟨['c'], ['c'], false, true⟩, ⟨['a'], ['a', '_'], true, false⟩]
  | .author => [⟨['n'], ['n'], false, false⟩]
  | .node => [⟨['p'], ['p', '_'], true, false⟩]

/-- The posts differ in the attribute `s`, which no schema declares. -/
def exhibits (secret : ℕ) : InstanceGraph Exhibit ℕ where
  typeName _ := ['E']
  concreteFields := exhibitFields
  names_nodup i := by cases i <;> decide
  attributeOf _ name := if name = ['s'] then some secret else some 7
  related
    | .post, _ => some .author
    | .author, _ => none
    | .node, _ => some .node
  null_key i field hfield hrelation hrelated := by
    cases i with
    | post => cases hrelated
    | node => cases hrelated
    | author =>
        obtain rfl := List.mem_singleton.mp hfield
        cases hrelation

def exhibitSchemas : SchemaGraph ExhibitSchema where
  modelFields
    | .post => ⟨[(['t'], .type .plain), (['c'], .type .plain),
        (['a'], .union [.type (.schema .author), .type .noneType])], by decide⟩
    | .author => ⟨[(['n'], .type .plain)], by decide⟩
    | .node => ⟨[(['p'], .type (.schema .node))], by decide⟩

theorem exhibits_node_chain (secret n : ℕ) :
    (exhibits secret).HasChain exhibitSchemas n .node .node := by
  induction n with
  | zero => trivial
  | succ n ih =>
      have hnests : (AnnotationExpr.type (.schema ExhibitSchema.node)).Nests .node := .schema _
      exact ⟨.node, .node, ⟨_, List.mem_cons_self, _, rfl, rfl, hnests, rfl⟩, ih⟩

theorem exhibits_post_no_chain (secret : ℕ) :
    ¬(exhibits secret).HasChain exhibitSchemas 32 .post .post := by
  rintro ⟨j, r, ⟨field, hfield, ann, hlookup, hrelation, hnests, hrelated⟩, j', r', hselects, -⟩
  have hname : ∀ field ∈ exhibitFields .post, field.isRelation = true → field.name = ['a'] := by
    decide
  rw [hname field hfield hrelation] at hlookup
  obtain rfl := Option.some.inj hrelated
  obtain rfl := Option.some.inj hlookup
  obtain rfl := Option.some.inj (AnnotationExpr.getNestedSchema_of_nests hnests)
  obtain ⟨field, hfield, ann, -, hrelation, -⟩ := hselects
  obtain rfl := List.mem_singleton.mp hfield
  cases hrelation

theorem exhibits_agree :
    (exhibits 1).Agreement exhibitSchemas (exhibits 2) fun i j _ ↦ i = j where
  fields hij := by rw [hij]; rfl
  values {i j schema} hij field hfield ann hlookup hleads := by
    subst hij
    refine ⟨hleads, ?_⟩
    have hattname : field.attname = ['s'] → field.name = ['s'] := by
      have hall : ∀ field ∈ exhibitFields i, field.attname = ['s'] → field.name = ['s'] := by
        cases i <;> decide
      exact hall field hfield
    have hsecret : (exhibitSchemas.modelFields schema).lookup ['s'] = none := by
      cases schema <;> rfl
    have hne : field.attname ≠ ['s'] := by
      intro heq
      rw [hattname heq, hsecret] at hlookup
      cases hlookup
    simp only [exhibits, if_neg hne]
  chains {i j schema} hij field hfield ann hlookup i' r hleads := by
    subst hij
    exact ⟨i', hleads, rfl⟩

end Sample

end InstanceGraph

end DjangoNova
