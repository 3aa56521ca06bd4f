import Mathlib.Data.List.Induction
import DjangoNova.Collections.OrderedDict
import DjangoNova.Validation.PydanticBridge

/-!
# The DRF serializer

`validate` of the generated serializer checks an update against the schema
together with the stored state. That state comes from the dump of the
validated instance, or from `to_dict` if the instance does not validate.
`A` is the type of the Python values and `O` the one of the schema objects.
-/

namespace DjangoNova

namespace Drf

/-- A dictionary, up to the order of its keys. -/
abbrev Attrs (A : Type) : Type := Str → Option A

/-- `payload.update(values)` -/
def Attrs.update {A : Type} (payload values : Attrs A) : Attrs A :=
  fun name ↦ (values name).or (payload name)

/-- An annotation as `_is_nested_schema` takes it apart. -/
inductive SchemaAnnotation where
  | schema
  | plain
  | union (args : List SchemaAnnotation)
  /-- a generic list, tuple, set or abstract collection -/
  | collection (args : List SchemaAnnotation)
  | other

mutual

/-- `_is_nested_schema` -/
def SchemaAnnotation.isNestedSchema : SchemaAnnotation → Bool
  | .schema => true
  | .plain => false
  | .union args => anyNestedSchema args
  | .collection [] => false
  | .collection (arg :: _) => arg.isNestedSchema
  | .other => false

def anyNestedSchema : List SchemaAnnotation → Bool
  | [] => false
  | arg :: rest => arg.isNestedSchema || anyNestedSchema rest

end

inductive LocationItem where
  | key (name : Str)
  | index (n : ℕ)

def LocationItem.str : LocationItem → Str
  | .key name => name
  | .index n => n.repr.toList

/-- What an entry of `exc.errors()` has of use here. -/
structure ErrorDetail where
  loc : List LocationItem
  msg : Str

/-- What `model_validate` raises: a Pydantic `ValidationError`, or an
exception of a validator that Pydantic lets through. -/
inductive SchemaError (E : Type) where
  | validation (errors : List ErrorDetail)
  | raised (e : E)

/-- The schema class, with `from_attributes` as the first argument of `model_validate`. -/
structure PydanticSchema (A E O : Type) where
  modelValidate : Bool → Attrs A → Except (SchemaError E) O
  modelDump : O → Except E (Attrs A)

/-- The schema class accepts a payload. -/
def PydanticSchema.Accepts {A E O : Type} (P : PydanticSchema A E O) (payload : Attrs A) : Prop :=
  ∃ schemaObject, P.modelValidate true payload = .ok schemaObject

/-- A concrete field of the model. -/
structure ModelField (A : Type) where
  name : Str
  isFile : Bool
  isForeignKey : Bool
  isRelation : Bool
  /-- `field.target_field.attname` -/
  targetAttname : Str
  default : Option A

/-- The built-ins that the serializer applies to values. -/
structure PyValues (A : Type) where
  /-- the attribute `name` of a value that has one -/
  name : A → Option A
  /-- `isinstance(value, models.Model)` -/
  isModel : A → Bool
  getattr : A → Str → A

/-- A model with a schema class in its configuration. -/
structure SerializerModel (I S V E A : Type) where
  str : V → Str
  graph : SchemaGraph S
  heap : ObjectHeap I V E
  schema : S
  encode : Serialized V → A
  values : PyValues A
  concreteFields : List (ModelField A)
  /-- `schema.model_fields.get(name)` -/
  annotation : Str → Option SchemaAnnotation
  /-- the keys of `serializer.fields` -/
  fields : List Str

inductive SerializerError (E : Type) where
  /-- a DRF `ValidationError` -/
  | validation (detail : OrderedDict Str (List Str))
  | serialization (e : SerializationError E)
  | raised (e : E)

section Code

variable {I S V E A O : Type} (M : SerializerModel I S V E A) (P : PydanticSchema A E O)
  (nonFieldKey : Str)

/-- `instance.to_dict()` -/
def toDict (i : I) : Except (SerializationError E) (Attrs A) :=
  (modelToDict M.str M.graph M.heap i M.schema).map fun items name ↦
    (items.lookup name).map M.encode

/-- `instance.to_pydantic()`, before any error is wrapped -/
def toPydantic (i : I) : Except (ConversionError E (SchemaError E)) O :=
  match toDict M i with
  | .error e => .error (.serialization e)
  | .ok data => (P.modelValidate false data).mapError .validation

/-- `_apply_create_defaults` -/
def applyCreateDefaults (stored : Option I) (attrs : Attrs A) : Attrs A :=
  match stored with
  | some _ => attrs
  | none => fun name ↦
      match attrs name with
      | some value => some value
      | none =>
          if name ∈ M.fields then
            (M.concreteFields.find? fun field ↦ field.name = name ∧ !field.isRelation).bind
              (·.default)
          else none

/-- The value of one attribute for the schema. -/
def validationValue (name : Str) (value : A) : A :=
  match M.concreteFields.find? fun field ↦ field.name = name with
  | none => value
  | some field =>
      if field.isFile then (M.values.name value).getD value
      else if field.isForeignKey && M.values.isModel value then
        match M.annotation name with
        | some ann =>
            if ann.isNestedSchema then value else M.values.getattr value field.targetAttname
        | none => value
      else value

/-- `_validation_attrs` -/
def validationAttrs (attrs : Attrs A) : Attrs A :=
  fun name ↦ (attrs name).map (validationValue M name)

/-- The state of an instance, from its schema object if it has one. -/
def currentState (i : I) : Except (SerializationError E) (Attrs A) :=
  match toPydantic M P i with
  | .ok currentSchema =>
      match P.modelDump currentSchema with
      | .ok payload => .ok payload
      | .error _ => toDict M i
  | .error _ => toDict M i

/-- `_build_validation_payload` -/
def buildValidationPayload (stored : Option I) (attrs : Attrs A) :
    Except (SerializationError E) (Attrs A) :=
  match stored with
  | none => .ok (validationAttrs M attrs)
  | some i => (currentState M P i).map (·.update (validationAttrs M attrs))

def fieldName (error : ErrorDetail) : Str :=
  match error.loc with
  | [] => nonFieldKey
  | .key name :: _ => if name = "__root__".toList then nonFieldKey else name
  | first :: _ => first.str

/-- `_translate_pydantic_errors` -/
def translatePydanticErrors (errors : List ErrorDetail) : OrderedDict Str (List Str) :=
  errors.foldl (fun d error ↦
    d.setItem (fieldName nonFieldKey error)
      ((d.lookup (fieldName nonFieldKey error)).getD [] ++ [error.msg])) .empty

/-- `validate` of the serializer of an instance, or of one without an instance -/
def validate (stored : Option I) (attrs : Attrs A) : Except (SerializerError E) (Attrs A) :=
  match buildValidationPayload M P stored (applyCreateDefaults M stored attrs) with
  | .error e => .error (.serialization e)
  | .ok payload =>
      match P.modelValidate true payload with
      | .ok _ => .ok (applyCreateDefaults M stored attrs)
      | .error (.validation errors) =>
          .error (.validation (translatePydanticErrors nonFieldKey errors))
      | .error (.raised e) => .error (.raised e)

end Code

section Translation

variable {nonFieldKey : Str}

/-- Each field has the messages of its errors, in their order. -/
theorem lookup_translatePydanticErrors (errors : List ErrorDetail) (name : Str) :
    ((translatePydanticErrors nonFieldKey errors).lookup name).getD [] =
      (errors.filter fun error ↦ fieldName nonFieldKey error = name).map (·.msg) := by
  induction errors using List.reverseRecOn with
  | nil => rfl
  | append_singleton errors error ih =>
      have hstep : translatePydanticErrors nonFieldKey (errors ++ [error]) =
          (translatePydanticErrors nonFieldKey errors).setItem (fieldName nonFieldKey error)
            (((translatePydanticErrors nonFieldKey errors).lookup
              (fieldName nonFieldKey error)).getD [] ++ [error.msg]) := by
        simp [translatePydanticErrors, List.foldl_append]
      rw [hstep, OrderedDict.lookup_setItem]
      by_cases hname : fieldName nonFieldKey error = name
      · subst hname
        simp [ih]
      · simp [hname, Ne.symm hname, ih]

end Translation

section Update

variable {I S V E A O : Type} (M : SerializerModel I S V E A) (P P' : PydanticSchema A E O)
  (nonFieldKey : Str)

/-- The serializer accepts an update if and only if the schema accepts
`to_dict` overlaid with the update. -/
def Agrees (i : I) (attrs : Attrs A) : Prop :=
  (∃ validated, validate M P nonFieldKey (some i) attrs = .ok validated) ↔
    ∃ data, toDict M i = .ok data ∧ P.Accepts (data.update (validationAttrs M attrs))

/-- If the stored state has a schema object that can be dumped, the dump and
`to_dict` have the same entries outside of the update. -/
def Reconstructs (i : I) (attrs : Attrs A) : Prop :=
  ∀ data schemaObject payload, toDict M i = .ok data →
    P.modelValidate false data = .ok schemaObject → P.modelDump schemaObject = .ok payload →
    ∀ name, attrs name = none → payload name = data name

/-- Two schema classes that do the same with the stored state. -/
structure SameStored (i : I) : Prop where
  modelDump : P'.modelDump = P.modelDump
  modelValidate : ∀ data, toDict M i = .ok data → ∀ fromAttributes,
    P'.modelValidate fromAttributes data = P.modelValidate fromAttributes data

variable {M P P' nonFieldKey} {i : I} {attrs data payload : Attrs A}

theorem validationAttrs_eq_none {name : Str} :
    validationAttrs M attrs name = none ↔ attrs name = none :=
  Option.map_eq_none_iff

/-- Overlaid states are equal if the states are, outside of the overlay. -/
theorem update_validationAttrs_eq_iff :
    payload.update (validationAttrs M attrs) = data.update (validationAttrs M attrs) ↔
      ∀ name, attrs name = none → payload name = data name := by
  constructor
  · intro h name hname
    have hvalue := congrFun h name
    simpa [Attrs.update, validationAttrs_eq_none.mpr hname] using hvalue
  · intro h
    funext name
    cases hname : attrs name with
    | none => simp [Attrs.update, validationAttrs_eq_none.mpr hname, h name hname]
    | some value => simp [Attrs.update, validationAttrs, hname]

/-- The verdict on an update is that of the schema on the overlaid state. -/
theorem validate_update_iff :
    (∃ validated, validate M P nonFieldKey (some i) attrs = .ok validated) ↔
      ∃ current, currentState M P i = .ok current ∧
        P.Accepts (current.update (validationAttrs M attrs)) := by
  unfold validate buildValidationPayload applyCreateDefaults PydanticSchema.Accepts
  cases hcurrent : currentState M P i with
  | error e => simp [hcurrent, Except.map]
  | ok current =>
      cases hverdict : P.modelValidate true (current.update (validationAttrs M attrs)) with
      | ok schemaObject => simp [hcurrent, Except.map, hverdict]
      | error e => cases e <;> simp [hcurrent, Except.map, hverdict]

/-- The current state is the dump, if there is one, or `to_dict`. -/
theorem currentState_cases (M : SerializerModel I S V E A) (P : PydanticSchema A E O) (i : I) :
    (∃ data schemaObject payload, toDict M i = .ok data ∧
        P.modelValidate false data = .ok schemaObject ∧ P.modelDump schemaObject = .ok payload ∧
        currentState M P i = .ok payload) ∨
      ((∀ data schemaObject payload, toDict M i = .ok data →
          P.modelValidate false data = .ok schemaObject → P.modelDump schemaObject ≠ .ok payload) ∧
        currentState M P i = toDict M i) := by
  unfold currentState toPydantic
  cases hdata : toDict M i with
  | error e =>
      refine .inr ⟨fun data schemaObject payload h ↦ ?_, rfl⟩
      cases h
  | ok data =>
      cases hobject : P.modelValidate false data with
      | error e =>
          refine .inr ⟨fun data' schemaObject payload h h' ↦ ?_, by simp [hobject, mapError_error]⟩
          obtain rfl := Except.ok.inj h
          rw [hobject] at h'
          cases h'
      | ok schemaObject =>
          cases hdump : P.modelDump schemaObject with
          | ok payload =>
              exact .inl ⟨data, schemaObject, payload, rfl, hobject, hdump,
                by simp [hobject, hdump, mapError_ok]⟩
          | error e =>
              refine .inr ⟨fun data' object' payload h h' hdump' ↦ ?_,
                by simp [hobject, hdump, mapError_ok]⟩
              obtain rfl := Except.ok.inj h
              obtain rfl := Except.ok.inj (hobject.symm.trans h')
              rw [hdump] at hdump'
              cases hdump'

/-- Without a dump, or with one that agrees with `to_dict`, the verdict is right. -/
theorem Reconstructs.agrees (h : Reconstructs M P i attrs) : Agrees M P nonFieldKey i attrs := by
  unfold Agrees
  rw [validate_update_iff]
  obtain ⟨data, schemaObject, payload, hdata, hobject, hdump, hcurrent⟩ | ⟨-, hcurrent⟩ :=
    currentState_cases M P i
  · have hsame := (update_validationAttrs_eq_iff (M := M)).mpr
      (h data schemaObject payload hdata hobject hdump)
    simp [hcurrent, hdata, hsame]
  · simp [hcurrent]

theorem SameStored.reconstructs (h : SameStored M P P' i) (hP : Reconstructs M P i attrs) :
    Reconstructs M P' i attrs := by
  intro data schemaObject payload hdata hobject hdump
  rw [h.modelValidate data hdata] at hobject
  rw [h.modelDump] at hdump
  exact hP data schemaObject payload hdata hobject hdump

/-- With a dump, the two verdicts are on the dump and on `to_dict`. -/
theorem agrees_iff_of_dump {schemaObject : O} (hdata : toDict M i = .ok data)
    (hobject : P.modelValidate false data = .ok schemaObject)
    (hdump : P.modelDump schemaObject = .ok payload) :
    Agrees M P nonFieldKey i attrs ↔
      (P.Accepts (payload.update (validationAttrs M attrs)) ↔
        P.Accepts (data.update (validationAttrs M attrs))) := by
  have hcurrent : currentState M P i = .ok payload := by
    simp [currentState, toPydantic, hdata, hobject, hdump, mapError_ok]
  unfold Agrees
  rw [validate_update_iff]
  simp [hcurrent, hdata]

section Override

open Classical in
/-- The schema class with another verdict on one state. -/
noncomputable def override (P : PydanticSchema A E O) (state : Attrs A)
    (verdict : Except (SchemaError E) O) : PydanticSchema A E O :=
  ⟨fun fromAttributes d ↦
    if fromAttributes = true ∧ d = state then verdict else P.modelValidate fromAttributes d,
    P.modelDump⟩

/-- A verdict other than that of the schema class. -/
def opposite (P : PydanticSchema A E O) (schemaObject : O) (state : Attrs A) :
    Except (SchemaError E) O :=
  match P.modelValidate true state with
  | .ok _ => .error (.validation [])
  | .error _ => .ok schemaObject

variable {state other : Attrs A} {verdict : Except (SchemaError E) O} {schemaObject : O}

theorem override_of_ne (h : other ≠ state) (fromAttributes : Bool) :
    (override P state verdict).modelValidate fromAttributes other =
      P.modelValidate fromAttributes other :=
  if_neg fun hand ↦ h hand.2

theorem override_false : (override P state verdict).modelValidate false other =
    P.modelValidate false other := by
  simp [override]

theorem accepts_override_opposite :
    (override P state (opposite P schemaObject other)).Accepts state ↔ ¬P.Accepts other := by
  have hself : (override P state (opposite P schemaObject other)).modelValidate true state =
      opposite P schemaObject other := if_pos ⟨rfl, rfl⟩
  unfold PydanticSchema.Accepts
  rw [hself]
  unfold opposite
  cases P.modelValidate true other <;> simp

theorem accepts_override (h : other ≠ state) :
    (override P state verdict).Accepts other ↔ P.Accepts other := by
  unfold PydanticSchema.Accepts
  rw [override_of_ne h]

theorem sameStored_override (h : ∀ data, toDict M i = .ok data → data ≠ state) :
    SameStored M P (override P state verdict) i :=
  ⟨rfl, fun data hdata fromAttributes ↦ override_of_ne (h data hdata) fromAttributes⟩

end Override

/-- The verdict on an update is right, whatever the schema says about states
other than the stored one, if and only if the dump agrees with `to_dict` on
all that the update does not supply. -/
theorem drf_update (M : SerializerModel I S V E A) (P : PydanticSchema A E O) (nonFieldKey : Str)
    (i : I) (attrs : Attrs A) :
    (∀ P', SameStored M P P' i → Agrees M P' nonFieldKey i attrs) ↔ Reconstructs M P i attrs := by
  refine ⟨fun h data schemaObject payload hdata hobject hdump ↦ ?_,
    fun h P' hP' ↦ (hP'.reconstructs h).agrees⟩
  rw [← update_validationAttrs_eq_iff (M := M)]
  by_contra hne
  have hstored : ∀ d, toDict M i = .ok d → d = data := fun d hd ↦
    Except.ok.inj (hd.symm.trans hdata)
  have hagrees : ∀ state verdict, data ≠ state →
      ((override P state verdict).Accepts (payload.update (validationAttrs M attrs)) ↔
        (override P state verdict).Accepts (data.update (validationAttrs M attrs))) := by
    intro state verdict hstate
    have hobject' : (override P state verdict).modelValidate false data = .ok schemaObject :=
      override_false.trans hobject
    exact (agrees_iff_of_dump hdata hobject' hdump).mp
      (h _ (sameStored_override fun d hd ↦ hstored d hd ▸ hstate))
  -- One of the two states is not the stored one, and its verdict is free.
  by_cases hpayload : data = payload.update (validationAttrs M attrs)
  · have hdata' : data ≠ data.update (validationAttrs M attrs) := fun heq ↦
      hne (hpayload.symm.trans heq)
    have hverdict := hagrees _
      (opposite P schemaObject (payload.update (validationAttrs M attrs))) hdata'
    rw [accepts_override_opposite, accepts_override hne] at hverdict
    exact iff_not_self hverdict
  · have hverdict := hagrees _
      (opposite P schemaObject (data.update (validationAttrs M attrs))) hpayload
    rw [accepts_override_opposite, accepts_override (Ne.symm hne)] at hverdict
    exact iff_not_self hverdict.symm

end Update

section Sample

/-- A model with an amount. -/
def invoiceModel : SerializerModel Unit Unit ℤ Empty ℤ where
  str _ := []
  graph := ⟨fun _ ↦ ⟨[("amount".toList, .type .plain)], by decide⟩⟩
  heap :=
    ⟨fun _ ↦ "Invoice".toList, fun _ ↦ [⟨"amount".toList, "amount".toList, false, false⟩],
      fun _ _ ↦ .ok (some 5), fun _ _ ↦ .ok .none⟩
  schema := ()
  encode
    | .plain (.object v) => v
    | _ => 0
  values := ⟨fun _ ↦ none, fun _ ↦ false, fun value _ ↦ value⟩
  concreteFields := [⟨"amount".toList, false, false, false, [], none⟩]
  annotation name := if name = "amount".toList then some .plain else none
  fields := ["amount".toList]

/-- The schema has a positive amount, forbids extra keys, and dumps a
computed total. -/
def invoiceSchema : PydanticSchema ℤ Empty ℤ where
  modelValidate _ data :=
    match data "amount".toList, data "total".toList with
    | some amount, none => if 0 < amount then .ok amount else .error (.validation [])
    | _, _ => .error (.validation [])
  modelDump amount := .ok fun name ↦
    if name = "amount".toList ∨ name = "total".toList then some amount else none

def invoiceUpdate : Attrs ℤ := fun name ↦ if name = "amount".toList then some 7 else none

theorem toDict_invoiceModel :
    toDict invoiceModel () = .ok fun name ↦ if name = "amount".toList then some 5 else none := by
  have hitems : modelToDict invoiceModel.str invoiceModel.graph invoiceModel.heap () () =
      .ok [("amount".toList, .plain (.object 5))] := by
    unfold modelToDict
    rw [modelToDictAt]
    rfl
  unfold toDict
  rw [hitems]
  refine congrArg Except.ok (funext fun name ↦ ?_)
  beta_reduce
  by_cases hname : name = "amount".toList
  · rw [hname]
    rfl
  · rw [if_neg hname, List.lookup_cons, beq_false_of_ne hname]
    rfl

theorem drf_update_fails : ¬Agrees invoiceModel invoiceSchema [] () invoiceUpdate := by
  rw [agrees_iff_of_dump toDict_invoiceModel rfl rfl]
  intro h
  obtain ⟨amount, hamount⟩ := h.mpr ⟨7, rfl⟩
  cases hamount

end Sample

end Drf

end DjangoNova
