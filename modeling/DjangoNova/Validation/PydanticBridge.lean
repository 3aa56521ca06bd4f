import Mathlib.Logic.Function.Basic
import DjangoNova.Validation.Serialization

/-!
# Models and schema objects

`model_to_pydantic` validates the serialized fields of an instance, and
`pydantic_to_model` calls the constructor of a model with the fields of a
schema object.
-/

namespace DjangoNova

structure NovaValidationError where
  message : Str
  details : List (Str × Str)
  deriving DecidableEq

/-- The schema classes `S` with their objects `O`. -/
structure SchemaClasses (S V F O : Type) where
  graph : SchemaGraph S
  name : S → Str
  modelValidate : S → SerializedDict V → Except F O
  /-- `schema.model_dump(exclude_unset=True)` -/
  modelDump : O → SerializedDict V

inductive ConversionError (E F : Type) where
  | serialization (e : SerializationError E)
  | validation (e : F)

section ModelToPydantic

variable {I S V E F O : Type} (str : V → Str) (P : SchemaClasses S V F O)
  (text : ConversionError E F → Str) (heap : ObjectHeap I V E)

/-- The body of the `try` of `model_to_pydantic`. -/
def validatedFields (i : I) (schema : S) : Except (ConversionError E F) O :=
  match modelToDict str P.graph heap i schema with
  | .error e => .error (.serialization e)
  | .ok data => (P.modelValidate schema data).mapError .validation

/-- `model_to_pydantic`, with the schema that it resolves -/
def modelToPydantic (i : I) (schema : S) : Except NovaValidationError O :=
  (validatedFields str P heap i schema).mapError fun e ↦
    ⟨"Failed to convert ".toList ++ heap.typeName i ++ " to ".toList ++ P.name schema ++
      ": ".toList ++ text e, []⟩

end ModelToPydantic

/-- What an attribute of an instance evaluates to, other than `None`. An
attribute of a file field is a `FieldFile`, which has a name or `None`. -/
inductive AttributeValue (V : Type) where
  | object (v : V)
  | fieldFile (name : Option Str)
  deriving DecidableEq

/-- `str(value)` -/
def AttributeValue.str {V : Type} (str : V → Str) : AttributeValue V → Str
  | .object v => str v
  | .fieldFile name => name.getD []

/-- `Cannot assign ...: ... must be a ... instance.` -/
structure AssignmentError (V : Type) where
  field : ConcreteField
  value : Serialized V

/-- A model class, for its constructor. -/
structure ModelClass (V : Type) where
  name : Str
  concreteFields : List ConcreteField
  getDefault : ConcreteField → Option (AttributeValue V)
  ofText : Str → V
  ofDict : SerializedDict (AttributeValue V) → V

/-- The attributes of a new instance. -/
abbrev Attributes (V : Type) : Type := Str → Option (AttributeValue V)

section Constructor

variable {V : Type} (C : ModelClass V)

/-- The attribute that a keyword argument gives to a field. -/
def attributeValue (field : ConcreteField) :
    Serialized (AttributeValue V) → Option (AttributeValue V)
  | .plain .none => if field.isFile then some (.fieldFile none) else none
  | .plain (.text s) =>
      some (if field.isFile then .fieldFile (some s) else .object (C.ofText s))
  | .plain (.object v) => some v
  | .nested items => some (.object (C.ofDict items))

/-- The part of the constructor that is about one field. The name of a
relation takes an instance or `None`, and its attname a column value. -/
def fieldArgument (kwargs : SerializedDict (AttributeValue V)) (field : ConcreteField) :
    Except (AssignmentError (AttributeValue V)) (Option (AttributeValue V)) :=
  match field.isRelation, kwargs.lookup field.name with
  | true, some (.plain .none) => .ok none
  | true, some value => .error ⟨field, value⟩
  | _, _ =>
      match kwargs.lookup field.attname with
      | some value => .ok (attributeValue C field value)
      | none => .ok (C.getDefault field)

/-- The loop of the constructor. -/
def assignFields (kwargs : SerializedDict (AttributeValue V)) (attributes : Attributes V) :
    List ConcreteField → Except (AssignmentError (AttributeValue V)) (Attributes V)
  | [] => .ok attributes
  | field :: rest =>
      match fieldArgument C kwargs field with
      | .error e => .error e
      | .ok value => assignFields kwargs (Function.update attributes field.attname value) rest

/-- `schema_to_model`, of what `model_dump` returns -/
def schemaToModel (data : SerializedDict (AttributeValue V)) :
    Except (AssignmentError (AttributeValue V)) (Attributes V) :=
  assignFields C (data.filter fun x ↦ x.1 ∈ C.concreteFields.map ConcreteField.name)
    (fun _ ↦ none) C.concreteFields

/-- `pydantic_to_model` -/
def pydanticToModel {S F O : Type} (P : SchemaClasses S (AttributeValue V) F O)
    (text : AssignmentError (AttributeValue V) → Str) (o : O) :
    Except NovaValidationError (Attributes V) :=
  (schemaToModel C (P.modelDump o)).mapError fun e ↦
    ⟨"Failed to convert Pydantic schema to ".toList ++ C.name ++ ": ".toList ++ text e, []⟩

end Constructor

/-- Django instances, with what the constructors of their models need. -/
structure DjangoObjects (I V E : Type) extends ObjectHeap I (AttributeValue V) E where
  getDefault : I → ConcreteField → Option (AttributeValue V)
  ofText : Str → V
  ofDict : SerializedDict (AttributeValue V) → V
  names_nodup : ∀ i, ((concreteFields i).map ConcreteField.name).Nodup
  attnames_nodup : ∀ i, ((concreteFields i).map ConcreteField.attname).Nodup
  attname_eq : ∀ i, ∀ field ∈ concreteFields i, field.isRelation = false →
    field.attname = field.name
  relation_not_file : ∀ i, ∀ field ∈ concreteFields i, field.isRelation = true →
    field.isFile = false
  fieldFile : ∀ i, ∀ field ∈ concreteFields i, field.isFile = true → ∀ v,
    attributeOf i field.attname = .ok v → ∃ name, v = some (.fieldFile name)
  /-- The key of a relation that is null is null as well. -/
  null_key : ∀ i, ∀ field ∈ concreteFields i, field.isRelation = true →
    related i field.name = .ok .none → attributeOf i field.attname = .ok none

namespace DjangoObjects

variable {I S V E F O : Type}

/-- `type(instance)` -/
def modelClass (D : DjangoObjects I V E) (i : I) : ModelClass V :=
  ⟨D.typeName i, D.concreteFields i, D.getDefault i, D.ofText, D.ofDict⟩

section Statement

variable (D : DjangoObjects I V E) (P : SchemaClasses S (AttributeValue V) F O)
  (text : AssignmentError (AttributeValue V) → Str)

/-- The schema object gives an instance with the selected column values. -/
def RoundTrips (i : I) (schema : S) (o : O) : Prop :=
  ∃ attributes, pydanticToModel (D.modelClass i) P text o = .ok attributes ∧
    ∀ field ∈ D.concreteFields i, ((P.graph.modelFields schema).lookup field.name).isSome →
      D.attributeOf i field.attname = .ok (attributes field.attname)

/-- A relation is null, its object where the schema nests it and its key
otherwise, and a file has a name. -/
def Restorable (i : I) (field : ConcreteField) (ann : AnnotationExpr S) : Prop :=
  match field.isRelation, ann.getNestedSchema with
  | true, some _ => D.related i field.name = .ok .none
  | true, none => D.attributeOf i field.attname = .ok none
  | false, _ => field.isFile = true →
      D.attributeOf i field.attname ≠ .ok (some (.fieldFile none))

end Statement

section Loops

variable {W : Type} {str : W → Str} {G : SchemaGraph S} {heap : ObjectHeap I W E}
  {recurse : I → S → Except (SerializationError E) (SerializedDict W)} {i : I} {schema : S}
  {field : ConcreteField}

/-- One step of the loop over the fields. -/
theorem serializeFields_cons {rest : List ConcreteField} {items : SerializedDict W}
    (h : serializeFields str G heap recurse i schema (field :: rest) = .ok items) :
    match (G.modelFields schema).lookup field.name with
    | none => serializeFields str G heap recurse i schema rest = .ok items
    | some ann => ∃ value items', serializeField str heap recurse i field ann = .ok value ∧
        serializeFields str G heap recurse i schema rest = .ok items' ∧
        items = (field.name, value) :: items' := by
  unfold serializeFields at h
  cases hlookup : (G.modelFields schema).lookup field.name with
  | none => simpa only [hlookup] using h
  | some ann =>
      simp only [hlookup] at h
      obtain ⟨value, hvalue, h⟩ := bind_eq_ok.mp h
      obtain ⟨items', hitems', h⟩ := bind_eq_ok.mp h
      exact ⟨value, items', hvalue, hitems', (Except.ok.inj h).symm⟩

theorem lookup_serializeFields_of_not_mem {fields : List ConcreteField} {items : SerializedDict W}
    (h : serializeFields str G heap recurse i schema fields = .ok items) {name : Str}
    (hname : name ∉ fields.map ConcreteField.name) : items.lookup name = none := by
  induction fields generalizing items with
  | nil =>
      obtain rfl := Except.ok.inj h
      rfl
  | cons field rest ih =>
      obtain ⟨hne, hrest⟩ := List.ne_and_not_mem_of_not_mem_cons hname
      have hstep := serializeFields_cons h
      cases hlookup : (G.modelFields schema).lookup field.name with
      | none =>
          rw [hlookup] at hstep
          exact ih hstep hrest
      | some ann =>
          rw [hlookup] at hstep
          obtain ⟨value, items', -, hitems', rfl⟩ := hstep
          rw [List.lookup_cons, beq_false_of_ne hne]
          exact ih hitems' hrest

/-- A level returns the declared fields. -/
theorem lookup_serializeFields {fields : List ConcreteField} {items : SerializedDict W}
    (h : serializeFields str G heap recurse i schema fields = .ok items)
    (hnames : (fields.map ConcreteField.name).Nodup) (hfield : field ∈ fields) :
    match (G.modelFields schema).lookup field.name with
    | none => items.lookup field.name = none
    | some ann => ∃ value, serializeField str heap recurse i field ann = .ok value ∧
        items.lookup field.name = some value := by
  induction fields generalizing items with
  | nil => cases hfield
  | cons first rest ih =>
      obtain ⟨hfirst, hrest⟩ := List.nodup_cons.mp hnames
      have hstep := serializeFields_cons h
      rcases List.mem_cons.mp hfield with rfl | hmem
      · cases hlookup : (G.modelFields schema).lookup field.name with
        | none =>
            rw [hlookup] at hstep
            exact lookup_serializeFields_of_not_mem hstep hfirst
        | some ann =>
            rw [hlookup] at hstep
            obtain ⟨value, items', hvalue, -, rfl⟩ := hstep
            exact ⟨value, hvalue, List.lookup_cons_self⟩
      · have hne : field.name ≠ first.name := fun heq ↦
          hfirst (heq ▸ List.mem_map_of_mem hmem)
        cases hlookup : (G.modelFields schema).lookup first.name with
        | none =>
            rw [hlookup] at hstep
            exact ih hstep hrest hmem
        | some ann =>
            rw [hlookup] at hstep
            obtain ⟨value, items', -, hitems', rfl⟩ := hstep
            rw [List.lookup_cons, beq_false_of_ne hne]
            exact ih hitems' hrest hmem

theorem lookup_filter {β : Type} (items : List (Str × β)) (names : List Str) {name : Str}
    (hname : name ∈ names) :
    (items.filter fun x ↦ x.1 ∈ names).lookup name = items.lookup name := by
  induction items with
  | nil => rfl
  | cons x rest ih =>
      by_cases hx : x.1 ∈ names
      · rw [List.filter_cons_of_pos (by simpa using hx), List.lookup_cons, List.lookup_cons, ih]
      · have hne : name ≠ x.1 := fun heq ↦ hx (heq ▸ hname)
        rw [List.filter_cons_of_neg (by simpa using hx), List.lookup_cons, beq_false_of_ne hne, ih]

variable {C : ModelClass V} {kwargs : SerializedDict (AttributeValue V)}

/-- The loop of the constructor ends if no field is given a wrong argument. -/
theorem assignFields_ok {fields : List ConcreteField}
    (h : ∀ field ∈ fields, ∃ value, fieldArgument C kwargs field = .ok value)
    (attributes : Attributes V) :
    ∃ attributes', assignFields C kwargs attributes fields = .ok attributes' := by
  induction fields generalizing attributes with
  | nil => exact ⟨attributes, rfl⟩
  | cons first rest ih =>
      obtain ⟨value, hvalue⟩ := h first List.mem_cons_self
      unfold assignFields
      rw [hvalue]
      exact ih (fun field hfield ↦ h field (List.mem_cons_of_mem _ hfield)) _

theorem assignFields_of_not_mem {fields : List ConcreteField}
    {attributes attributes' : Attributes V}
    (h : assignFields C kwargs attributes fields = .ok attributes') {attname : Str}
    (hattname : attname ∉ fields.map ConcreteField.attname) :
    attributes' attname = attributes attname := by
  induction fields generalizing attributes with
  | nil => exact congrFun (Except.ok.inj h).symm attname
  | cons first rest ih =>
      obtain ⟨hne, hrest⟩ := List.ne_and_not_mem_of_not_mem_cons hattname
      unfold assignFields at h
      cases hvalue : fieldArgument C kwargs first with
      | error e => simp [hvalue] at h
      | ok value =>
          simp only [hvalue] at h
          rw [ih h hrest, Function.update_of_ne hne]

/-- A new instance has the attributes that its arguments give. -/
theorem fieldArgument_of_assignFields {fields : List ConcreteField}
    {attributes attributes' : Attributes V}
    (h : assignFields C kwargs attributes fields = .ok attributes')
    (hattnames : (fields.map ConcreteField.attname).Nodup) (hfield : field ∈ fields) :
    fieldArgument C kwargs field = .ok (attributes' field.attname) := by
  induction fields generalizing attributes with
  | nil => cases hfield
  | cons first rest ih =>
      obtain ⟨hfirst, hrest⟩ := List.nodup_cons.mp hattnames
      unfold assignFields at h
      cases hvalue : fieldArgument C kwargs first with
      | error e => simp [hvalue] at h
      | ok value =>
          simp only [hvalue] at h
          rcases List.mem_cons.mp hfield with rfl | hmem
          · rw [assignFields_of_not_mem h hfirst, Function.update_self, hvalue]
          · exact ih h hrest hmem

end Loops

section RoundTrip

variable {D : DjangoObjects I V E} {P : SchemaClasses S (AttributeValue V) F O}
  {str : V → Str} {text : ConversionError E F → Str}
  {text' : AssignmentError (AttributeValue V) → Str} {i : I} {schema : S} {field : ConcreteField}
  {ann : AnnotationExpr S} {value : Serialized (AttributeValue V)}
  {recurse : I → S → Except (SerializationError E) (SerializedDict (AttributeValue V))}
  {C : ModelClass V} {kwargs : SerializedDict (AttributeValue V)}

/-- The constructor takes no value of a relation but `None`. -/
theorem fieldArgument_relation (hrelation : field.isRelation = true)
    (hkwargs : kwargs.lookup field.name = some value) {v : Option (AttributeValue V)} :
    fieldArgument C kwargs field = .ok v ↔ value = .plain .none ∧ v = none := by
  unfold fieldArgument
  rw [hrelation, hkwargs]
  constructor
  · intro h
    split at h
    case h_1 heq =>
      exact ⟨Option.some.inj heq, (Except.ok.inj h).symm⟩
    case h_2 => cases h
    case h_3 hnone hsome =>
      exact absurd rfl (hsome value rfl)
  · rintro ⟨rfl, rfl⟩
    rfl

theorem serializeField_plain (hann : field.isRelation = true → ann.getNestedSchema = none)
    (hvalue :
      serializeField (AttributeValue.str str) D.toObjectHeap recurse i field ann = .ok value) :
    ∃ v, D.attributeOf i field.attname = .ok v ∧
      value = .plain (serializeValue (AttributeValue.str str) field v) := by
  have hplain : serializeField (AttributeValue.str str) D.toObjectHeap recurse i field ann =
      ((D.attributeOf i field.attname).mapError .raised >>= fun v ↦
        .ok (.plain (serializeValue (AttributeValue.str str) field v))) := by
    unfold serializeField
    cases hrelation : field.isRelation with
    | false => rfl
    | true =>
        rw [hann hrelation]
  rw [hplain] at hvalue
  obtain ⟨v, hv, h⟩ := bind_eq_ok.mp hvalue
  exact ⟨v, mapError_eq_ok.mp hv, (Except.ok.inj h).symm⟩

theorem restorable_nested (hfield : field ∈ D.concreteFields i)
    (hrelation : field.isRelation = true) {r : S} (hann : ann.getNestedSchema = some r)
    (hvalue :
      serializeField (AttributeValue.str str) D.toObjectHeap recurse i field ann = .ok value) :
    (value = .plain .none ∧ D.attributeOf i field.attname = .ok none) ↔
      D.Restorable i field ann := by
  unfold Restorable
  unfold serializeField at hvalue
  simp only [hrelation, hann] at hvalue ⊢
  obtain ⟨related, hrelated, hvalue⟩ := bind_eq_ok.mp hvalue
  have hrelated := mapError_eq_ok.mp hrelated
  rw [hrelated]
  cases related with
  | none =>
      obtain rfl := Except.ok.inj hvalue
      exact iff_of_true ⟨rfl, D.null_key i field hfield hrelation hrelated⟩ rfl
  | other => cases hvalue
  | model j =>
      obtain ⟨items, -, hitems⟩ := bind_eq_ok.mp hvalue
      obtain rfl := Except.ok.inj hitems
      exact iff_of_false (fun h ↦ by cases h.1) (fun h ↦ by cases h)

theorem restorable_key (hrelation : field.isRelation = true)
    (hann : ann.getNestedSchema = none)
    (hvalue :
      serializeField (AttributeValue.str str) D.toObjectHeap recurse i field ann = .ok value) :
    (value = .plain .none ∧ D.attributeOf i field.attname = .ok none) ↔
      D.Restorable i field ann := by
  obtain ⟨v, hv, rfl⟩ := serializeField_plain (fun _ ↦ hann) hvalue
  unfold Restorable
  simp only [hrelation, hann]
  refine ⟨And.right, fun h ↦ ⟨?_, h⟩⟩
  obtain rfl := Except.ok.inj (hv.symm.trans h)
  rfl

theorem restorable_column (hfield : field ∈ D.concreteFields i)
    (hrelation : field.isRelation = false) (hkwargs : kwargs.lookup field.name = some value)
    (hvalue :
      serializeField (AttributeValue.str str) D.toObjectHeap recurse i field ann = .ok value) :
    (∃ v, fieldArgument (D.modelClass i) kwargs field = .ok v ∧
      D.attributeOf i field.attname = .ok v) ↔ D.Restorable i field ann := by
  obtain ⟨v, hv, rfl⟩ := serializeField_plain (by simp [hrelation]) hvalue
  have hargument : fieldArgument (D.modelClass i) kwargs field =
      .ok (attributeValue (D.modelClass i) field
        (.plain (serializeValue (AttributeValue.str str) field v))) := by
    unfold fieldArgument
    rw [D.attname_eq i field hfield hrelation, hkwargs, hrelation]
  unfold Restorable
  simp only [hargument, hv, hrelation, Except.ok.injEq, exists_eq_left']
  cases hfile : field.isFile with
  | false => cases v <;> simp [serializeValue, attributeValue, hfile]
  | true =>
      obtain ⟨name, rfl⟩ := D.fieldFile i field hfield hfile v hv
      cases name <;> simp [serializeValue, attributeValue, hfile, AttributeValue.str]

/-- The constructor gives a selected field the value that it had exactly if
the field is restorable. -/
theorem fieldArgument_iff (hfield : field ∈ D.concreteFields i)
    (hvalue :
      serializeField (AttributeValue.str str) D.toObjectHeap recurse i field ann = .ok value)
    (hkwargs : kwargs.lookup field.name = some value) :
    (∃ v, fieldArgument (D.modelClass i) kwargs field = .ok v ∧
      D.attributeOf i field.attname = .ok v) ↔ D.Restorable i field ann := by
  cases hrelation : field.isRelation with
  | false => exact restorable_column hfield hrelation hkwargs hvalue
  | true =>
      have hargument : (∃ v, fieldArgument (D.modelClass i) kwargs field = .ok v ∧
          D.attributeOf i field.attname = .ok v) ↔
          value = .plain .none ∧ D.attributeOf i field.attname = .ok none := by
        simp [fieldArgument_relation hrelation hkwargs]
      rw [hargument]
      cases hann : ann.getNestedSchema with
      | none => exact restorable_key hrelation hann hvalue
      | some r => exact restorable_nested hfield hrelation hann hvalue

theorem fieldArgument_of_none (hkwargs : kwargs.lookup field.name = none) :
    ∃ v, fieldArgument C kwargs field = .ok v := by
  unfold fieldArgument
  rw [hkwargs]
  cases field.isRelation <;> cases kwargs.lookup field.attname <;> exact ⟨_, rfl⟩

/-- What `model_to_pydantic` has serialized. -/
theorem exists_serializeFields {o : O}
    (h : modelToPydantic (AttributeValue.str str) P text D.toObjectHeap i schema = .ok o) :
    ∃ recurse items,
      modelToDict (AttributeValue.str str) P.graph D.toObjectHeap i schema = .ok items ∧
      serializeFields (AttributeValue.str str) P.graph D.toObjectHeap recurse i schema
        (D.concreteFields i) = .ok items := by
  have hobject := mapError_eq_ok.mp h
  unfold validatedFields at hobject
  split at hobject
  · cases hobject
  · rename_i items hitems
    have hfields := hitems
    rw [modelToDict, modelToDictAt, if_neg (by omega)] at hfields
    exact ⟨_, items, hitems, hfields⟩

end RoundTrip

section Sample

/-- A node has a title, a cover file and a parent, which only the node `true` has. -/
def nodeObjects : DjangoObjects Bool ℤ Empty where
  typeName _ := "Node".toList
  concreteFields _ :=
    [⟨"title".toList, "title".toList, false, false⟩, ⟨"cover".toList, "cover".toList, false, true⟩,
      ⟨"parent".toList, "parent_id".toList, true, false⟩]
  attributeOf i name :=
    .ok (if name = "title".toList then some (.object 5)
      else if name = "cover".toList then some (.fieldFile (some "a.png".toList))
      else if i then some (.object 7) else none)
  related i _ := .ok (if i then .model false else .none)
  getDefault _ field := if field.isFile then some (.fieldFile none) else none
  ofText s := s.length
  ofDict items := items.length
  names_nodup _ := by decide
  attnames_nodup _ := by decide
  attname_eq _ := by decide
  relation_not_file _ := by decide
  fieldFile i field hfield hfile v hv := by
    simp only [List.mem_cons, List.not_mem_nil, or_false] at hfield
    rcases hfield with rfl | rfl | rfl
    · cases hfile
    · exact ⟨_, (Except.ok.inj hv).symm⟩
    · cases hfile
  null_key i field hfield hrelation hrelated := by
    simp only [List.mem_cons, List.not_mem_nil, or_false] at hfield
    rcases hfield with rfl | rfl | rfl
    · cases hrelation
    · cases hrelation
    · cases i with
      | false => rfl
      | true => cases hrelated

/-- A schema with the title, the cover and the key of the parent. -/
def nodeClasses :
    SchemaClasses Unit (AttributeValue ℤ) Empty (SerializedDict (AttributeValue ℤ)) where
  graph := ⟨fun _ ↦ ⟨[("title".toList, .type .plain), ("cover".toList, .type .plain),
    ("parent".toList, .union [.type .plain, .type .noneType])], by decide⟩⟩
  name _ := "NodeSchema".toList
  modelValidate _ data := .ok data
  modelDump data := data

def nodeItems (i : Bool) : SerializedDict (AttributeValue ℤ) :=
  [("title".toList, .plain (.object (.object 5))), ("cover".toList, .plain (.text "a.png".toList)),
    ("parent".toList, .plain (if i then .object (.object 7) else .none))]

theorem modelToPydantic_nodeObjects (i : Bool) :
    modelToPydantic (AttributeValue.str fun _ ↦ []) nodeClasses (fun _ ↦ [])
      nodeObjects.toObjectHeap i () = .ok (nodeItems i) := by
  refine mapError_eq_ok.mpr ?_
  unfold validatedFields modelToDict
  rw [modelToDictAt]
  cases i <;> rfl

end Sample

end DjangoObjects

end DjangoNova
