import DjangoNova.Validation.PydanticBridge

/-!
# The two validation pipelines

`validate_lifecycle` and `validate_model_instance` run the same stages:
schema, fields, `clean`, uniqueness and constraints. Only the latter assigns
the cleaned values to the instance.
-/

namespace DjangoNova

/-- `django.core.exceptions.ValidationError` -/
structure DjangoValidationError where
  messageDict : Option (List (Str × List Str))
  messages : Option (List Str)
  text : Str

/-- What a hook of Django raises. -/
inductive HookError (E : Type) where
  | validation (e : DjangoValidationError)
  | raised (e : E)

/-- An instance of a model `K`, with its attributes by attname. -/
structure ModelInstance (K V : Type) where
  model : K
  attributes : Str → Option V

/-- `setattr(instance, attname, value)` -/
def ModelInstance.setattr {K V : Type} (i : ModelInstance K V) (attname : Str) (value : Option V) :
    ModelInstance K V :=
  ⟨i.model, Function.update i.attributes attname value⟩

/-- A concrete field with its `clean`, which may read the whole instance. -/
structure CleanField (K V E : Type) extends ConcreteField where
  autoCreated : Bool
  clean : Option V → ModelInstance K V → Except (HookError E) (Option V)

/-- An entry of `_meta.get_fields()`. -/
inductive FieldEntry (K V E : Type) where
  | concrete (field : CleanField K V E)
  | virtual

def FieldEntry.concrete? {K V E : Type} : FieldEntry K V E → Option (CleanField K V E)
  | .concrete field => some field
  | .virtual => none

/-- The models `K`, without their hooks. -/
structure Models (K V E : Type) where
  typeName : K → Str
  metaFields : K → List (FieldEntry K V E)
  attnames_nodup : ∀ k,
    (((metaFields k).filterMap FieldEntry.concrete?).map fun field ↦ field.attname).Nodup
  /-- the name of `_meta.pk` -/
  pk : K → Str
  related : ModelInstance K V → Str → Except E (RelatedObject (ModelInstance K V))

/-- `clean`, `validate_unique` and `validate_constraints` of a model. -/
structure Hooks (K V E : Type) where
  clean : ModelInstance K V → Except (HookError E) (ModelInstance K V)
  validateUnique : ModelInstance K V → Except (HookError E) Unit
  validateConstraints : ModelInstance K V → Except (HookError E) Unit

/-- What validation reads of `NovaConfig`. -/
structure ValidationConfig (S : Type) where
  pydanticSchema : Option S
  strictValidation : Bool

inductive LifecycleError (E F : Type) where
  | schema (e : ConversionError E F)
  | hook (e : HookError E)

inductive UnifiedError (E : Type) where
  | nova (e : NovaValidationError)
  | raised (e : E)

section Code

variable {K S V E F O : Type}

namespace Models

variable (M : Models K V E)

/-- `_meta.concrete_fields` -/
def concreteFields (k : K) : List (CleanField K V E) :=
  (M.metaFields k).filterMap FieldEntry.concrete?

def heap : ObjectHeap (ModelInstance K V) V E where
  typeName i := M.typeName i.model
  concreteFields i := (M.concreteFields i.model).map CleanField.toConcreteField
  attributeOf i attname := .ok (i.attributes attname)
  related := M.related

end Models

section Lifecycle

variable (M : Models K V E) (hooks : Hooks K V E) (str : V → Str) (P : SchemaClasses S V F O)

/-- The loop of `validate_lifecycle`, which drops the cleaned values. -/
def cleanFields (i : ModelInstance K V) : List (CleanField K V E) → Except (HookError E) Unit
  | [] => .ok ()
  | field :: rest =>
      match field.clean (i.attributes field.attname) i with
      | .error e => .error e
      | .ok _ => cleanFields i rest

def runHooks (i : ModelInstance K V) : Except (HookError E) (ModelInstance K V) := do
  let i ← hooks.clean i
  hooks.validateUnique i
  hooks.validateConstraints i
  .ok i

/-- The stages of `validate_lifecycle` before `clean`. -/
def lifecycleFields (i : ModelInstance K V) (schema : Option S) (strict : Bool) :
    Except (LifecycleError E F) Unit :=
  match strict, schema with
  | true, some schema =>
      match validatedFields str P M.heap i schema with
      | .error e => .error (.schema e)
      | .ok _ => (cleanFields i (M.concreteFields i.model)).mapError .hook
  | _, _ => (cleanFields i (M.concreteFields i.model)).mapError .hook

/-- `validate_lifecycle`, with the instance that it leaves -/
def validateLifecycle (i : ModelInstance K V) (schema : Option S) (strict : Bool) :
    Except (LifecycleError E F) (ModelInstance K V) := do
  lifecycleFields M str P i schema strict
  (runHooks hooks i).mapError .hook

end Lifecycle

section Unified

/-- `_django_validation_details` -/
def djangoValidationDetails (e : DjangoValidationError) : List (Str × Str) :=
  match e.messageDict, e.messages with
  | some messageDict, _ => messageDict.map fun x ↦ (x.1, List.intercalate "; ".toList x.2)
  | none, some messages => [("non_field_errors".toList, List.intercalate "; ".toList messages)]
  | none, none => [("non_field_errors".toList, e.text)]

/-- `except DjangoValidationError` -/
def translate {α : Type} (message : Str) (x : Except (HookError E) α) : Except (UnifiedError E) α :=
  x.mapError fun
    | .validation e => .nova ⟨message, djangoValidationDetails e⟩
    | .raised e => .raised e

variable (M : Models K V E) (hooks : Hooks K V E) (str : V → Str) (P : SchemaClasses S V F O)
  (text : ConversionError E F → Str) (generated : K → S)

/-- `_validate_pydantic` -/
def validatePydantic (i : ModelInstance K V) (config : ValidationConfig S) :
    Except (UnifiedError E) Unit :=
  if config.strictValidation then
    ((modelToPydantic str P text M.heap i (config.pydanticSchema.getD (generated i.model))).map
      fun _ ↦ ()).mapError .nova
  else .ok ()

/-- The values that `_validate_django_fields` passes over. -/
def skips (i : ModelInstance K V) (field : CleanField K V E) : Bool :=
  field.autoCreated && field.name == M.pk i.model && (i.attributes field.attname).isNone

/-- The loop of `_validate_django_fields`. -/
def validateDjangoFields (i : ModelInstance K V) :
    List (FieldEntry K V E) → Except (UnifiedError E) (ModelInstance K V)
  | [] => .ok i
  | .virtual :: rest => validateDjangoFields i rest
  | .concrete field :: rest =>
      if skips M i field then validateDjangoFields i rest
      else
        match translate "Django field validation failed.".toList
            (field.clean (i.attributes field.attname) i) with
        | .error e => .error e
        | .ok cleaned => validateDjangoFields (i.setattr field.attname cleaned) rest

/-- `validate_model_instance`, with the instance that it leaves -/
def validateModelInstance (i : ModelInstance K V) (config : ValidationConfig S) :
    Except (UnifiedError E) (ModelInstance K V) := do
  validatePydantic M str P text generated i config
  let i ← validateDjangoFields M i (M.metaFields i.model)
  let i ← translate "Django model validation failed.".toList (hooks.clean i)
  translate "Django uniqueness validation failed.".toList (hooks.validateUnique i)
  translate "Django constraint validation failed.".toList (hooks.validateConstraints i)
  .ok i

end Unified

end Code

namespace Models

variable {K S V E F O : Type}

section Statement

/-- `clean` of a field raises. -/
def Raises (field : CleanField K V E) (i : ModelInstance K V) : Prop :=
  ∃ e, field.clean (i.attributes field.attname) i = .error e

variable (M : Models K V E) (str : V → Str) (P : SchemaClasses S V F O)
  (text : ConversionError E F → Str) (generated : K → S) (i : ModelInstance K V)
  (schema : Option S) (strict : Bool)

/-- Both pipelines raise or none does, and then they leave the same values. -/
def Agrees (hooks : Hooks K V E) : Prop :=
  ((∃ e, validateLifecycle M hooks str P i schema strict = .error e) ↔
      ∃ e, validateModelInstance M hooks str P text generated i ⟨schema, strict⟩ = .error e) ∧
    ∀ j k, validateLifecycle M hooks str P i schema strict = .ok j →
      validateModelInstance M hooks str P text generated i ⟨schema, strict⟩ = .ok k →
        j.attributes = k.attributes

/-- The instance with the cleaned value of a field. -/
def normalizeField (i : ModelInstance K V) (field : CleanField K V E) : ModelInstance K V :=
  if skips M i field then i
  else
    match field.clean (i.attributes field.attname) i with
    | .error _ => i
    | .ok cleaned => i.setattr field.attname cleaned

/-- The instance with the cleaned values of fields, one after the other. -/
def normalize (fields : List (CleanField K V E)) : ModelInstance K V :=
  fields.foldl M.normalizeField i

def Validates (s : S) : Prop := ∃ o, validatedFields str P M.heap i s = .ok o

/-- The schema or a field rejects the instance as it is. -/
def RejectedAsStored : Prop :=
  (strict = true ∧ ∃ s, schema = some s ∧ ¬M.Validates str P i s) ∨
    ∃ field ∈ M.concreteFields i.model, Raises field i

/-- The schema, explicit or generated, rejects the instance, or a field does
after the fields before it are normalized. -/
def RejectedNormalized : Prop :=
  (strict = true ∧ ¬M.Validates str P i (schema.getD (generated i.model))) ∨
    ∃ before field after, M.concreteFields i.model = before ++ field :: after ∧
      skips M (M.normalize i before) field = false ∧ Raises field (M.normalize i before)

/-- The schema accepts the instance, and no field changes a value or raises. -/
def IsNormal : Prop :=
  (strict = true → M.Validates str P i (schema.getD (generated i.model))) ∧
    ∀ field ∈ M.concreteFields i.model,
      (skips M i field = true → ¬Raises field i) ∧
        (skips M i field = false →
          field.clean (i.attributes field.attname) i = .ok (i.attributes field.attname))

end Statement

section Stages

variable {M : Models K V E} {str : V → Str} {P : SchemaClasses S V F O}
  {text : ConversionError E F → Str} {generated : K → S} {i j : ModelInstance K V}
  {schema : Option S} {strict : Bool} {field : CleanField K V E}
  {metaFields : List (FieldEntry K V E)}

@[simp] theorem not_raises_iff :
    ¬Raises field i ↔ ∃ v, field.clean (i.attributes field.attname) i = .ok v := by
  unfold Raises
  cases field.clean (i.attributes field.attname) i <;> simp

theorem cleanFields_eq_ok {fields : List (CleanField K V E)} :
    cleanFields i fields = .ok () ↔ ∀ field ∈ fields, ¬Raises field i := by
  induction fields with
  | nil => simp [cleanFields]
  | cons field rest ih =>
      unfold cleanFields
      cases hclean : field.clean (i.attributes field.attname) i with
      | error e => simp [hclean]
      | ok v => simpa [hclean] using ih

theorem lifecycleFields_eq_ok :
    lifecycleFields M str P i schema strict = .ok () ↔
      ¬M.RejectedAsStored str P i schema strict := by
  have hfields : (cleanFields i (M.concreteFields i.model)).mapError
      (LifecycleError.hook (F := F)) = .ok () ↔
        ¬∃ field ∈ M.concreteFields i.model, Raises field i := by
    rw [mapError_eq_ok, cleanFields_eq_ok]
    simp only [not_exists, not_and]
  unfold lifecycleFields RejectedAsStored Validates
  cases strict with
  | false => simpa using hfields
  | true =>
      cases schema with
      | none => simpa using hfields
      | some s =>
          cases hvalid : validatedFields str P M.heap i s with
          | error e => simp [hvalid]
          | ok o => simpa [hvalid] using hfields

theorem normalizeField_eq_self (h : skips M i field = false →
    field.clean (i.attributes field.attname) i = .ok (i.attributes field.attname)) :
    M.normalizeField i field = i := by
  unfold normalizeField
  cases hskips : skips M i field with
  | true => rfl
  | false => simp [h hskips, ModelInstance.setattr]

theorem normalizeField_attributes {attname : Str} (hne : attname ≠ field.attname) :
    (M.normalizeField i field).attributes attname = i.attributes attname := by
  unfold normalizeField
  split
  · rfl
  · cases field.clean (i.attributes field.attname) i with
    | error e => rfl
    | ok v => exact Function.update_of_ne hne _ _

/-- One step of the loop. -/
theorem validateDjangoFields_concrete :
    validateDjangoFields M i (.concrete field :: metaFields) = .ok j ↔
      (skips M i field = false → ¬Raises field i) ∧
        validateDjangoFields M (M.normalizeField i field) metaFields = .ok j := by
  rw [not_raises_iff]
  unfold normalizeField
  rw [validateDjangoFields]
  cases hskips : skips M i field with
  | true => simp
  | false =>
      cases field.clean (i.attributes field.attname) i <;>
        simp [translate, mapError_ok, mapError_error]

theorem validateDjangoFields_ok_iff :
    (∃ j, validateDjangoFields M i metaFields = .ok j) ↔
      ∀ before field after, metaFields.filterMap FieldEntry.concrete? = before ++ field :: after →
        skips M (M.normalize i before) field = false → ¬Raises field (M.normalize i before) := by
  induction metaFields generalizing i with
  | nil => simp [validateDjangoFields]
  | cons entry rest ih =>
      cases entry with
      | virtual => exact ih
      | concrete first =>
          simp only [validateDjangoFields_concrete, exists_and_left, ih]
          constructor
          · rintro ⟨hfirst, hrest⟩ before field after heq
            cases before with
            | nil =>
                obtain ⟨rfl, -⟩ := List.cons.inj heq
                exact hfirst
            | cons b before =>
                obtain ⟨rfl, htail⟩ := List.cons.inj heq
                exact hrest before field after htail
          · intro h
            refine ⟨h [] first _ rfl, fun before field after heq ↦ ?_⟩
            exact h (first :: before) field after (congrArg (first :: ·) heq)

theorem attributes_of_not_mem (h : validateDjangoFields M i metaFields = .ok j) {attname : Str}
    (hattname :
      attname ∉ (metaFields.filterMap FieldEntry.concrete?).map fun field ↦ field.attname) :
    j.attributes attname = i.attributes attname := by
  induction metaFields generalizing i with
  | nil =>
      obtain rfl := Except.ok.inj h
      rfl
  | cons entry rest ih =>
      cases entry with
      | virtual => exact ih h hattname
      | concrete first =>
          obtain ⟨hne, hrest⟩ := List.ne_and_not_mem_of_not_mem_cons hattname
          rw [ih (validateDjangoFields_concrete.mp h).2 hrest, normalizeField_attributes hne]

/-- A loop that leaves the attributes as they were has changed none of them. -/
theorem clean_of_unchanged (h : validateDjangoFields M i metaFields = .ok j)
    (hattnames : ((metaFields.filterMap FieldEntry.concrete?).map fun field ↦ field.attname).Nodup)
    (hsame : j.attributes = i.attributes) :
    ∀ field ∈ metaFields.filterMap FieldEntry.concrete?, skips M i field = false →
      field.clean (i.attributes field.attname) i = .ok (i.attributes field.attname) := by
  induction metaFields with
  | nil => exact fun field hfield ↦ by cases hfield
  | cons entry rest ih =>
      cases entry with
      | virtual => exact ih h hattnames
      | concrete first =>
          obtain ⟨hfirst, hrest⟩ := List.nodup_cons.mp hattnames
          obtain ⟨hraises, h⟩ := validateDjangoFields_concrete.mp h
          have hclean : skips M i first = false →
              first.clean (i.attributes first.attname) i = .ok (i.attributes first.attname) := by
            intro hskips
            obtain ⟨v, hv⟩ := not_raises_iff.mp (hraises hskips)
            have hvalue := attributes_of_not_mem h hfirst
            simp only [hsame, normalizeField, hskips, hv, ModelInstance.setattr,
              Function.update_self, Bool.false_eq_true, if_false] at hvalue
            exact hv.trans (congrArg Except.ok hvalue.symm)
          rw [normalizeField_eq_self hclean] at h
          intro field hfield
          rcases List.mem_cons.mp hfield with rfl | hfield
          · exact hclean
          · exact ih h hrest field hfield

theorem validateDjangoFields_of_unchanged
    (h : ∀ field ∈ metaFields.filterMap FieldEntry.concrete?, skips M i field = false →
      field.clean (i.attributes field.attname) i = .ok (i.attributes field.attname)) :
    validateDjangoFields M i metaFields = .ok i := by
  induction metaFields with
  | nil => rfl
  | cons entry rest ih =>
      cases entry with
      | virtual => exact ih h
      | concrete first =>
          have hclean := h first List.mem_cons_self
          refine validateDjangoFields_concrete.mpr ⟨fun hskips ↦ ?_, ?_⟩
          · exact not_raises_iff.mpr ⟨_, hclean hskips⟩
          · rw [normalizeField_eq_self hclean]
            exact ih fun field hfield ↦ h field (List.mem_cons_of_mem _ hfield)

end Stages

section Agreement

variable (M : Models K V E) (str : V → Str) (P : SchemaClasses S V F O)
  (text : ConversionError E F → Str) (generated : K → S) (i : ModelInstance K V)
  (schema : Option S) (strict : Bool)

/-- The stages of `validate_model_instance` before `clean`. -/
def unifiedFields : Except (UnifiedError E) (ModelInstance K V) := do
  validatePydantic M str P text generated i ⟨schema, strict⟩
  validateDjangoFields M i (M.metaFields i.model)

variable {M str P text generated i schema strict} {hooks : Hooks K V E} {j : ModelInstance K V}

theorem validateLifecycle_eq_ok :
    validateLifecycle M hooks str P i schema strict = .ok j ↔
      ¬M.RejectedAsStored str P i schema strict ∧ runHooks hooks i = .ok j := by
  unfold validateLifecycle
  rw [← lifecycleFields_eq_ok, bind_eq_ok]
  constructor
  · rintro ⟨⟨⟩, hfields, hhooks⟩
    exact ⟨hfields, mapError_eq_ok.mp hhooks⟩
  · rintro ⟨hfields, hhooks⟩
    exact ⟨(), hfields, mapError_eq_ok.mpr hhooks⟩

theorem validateModelInstance_eq_ok :
    validateModelInstance M hooks str P text generated i ⟨schema, strict⟩ = .ok j ↔
      ∃ k, M.unifiedFields str P text generated i schema strict = .ok k ∧
        runHooks hooks k = .ok j := by
  unfold validateModelInstance unifiedFields runHooks translate
  simp only [bind_eq_ok, mapError_eq_ok, Except.ok.injEq]
  constructor
  · rintro ⟨a, ha, k, hk, hhooks⟩
    exact ⟨k, ⟨a, ha, hk⟩, hhooks⟩
  · rintro ⟨k, ⟨a, ha, hk⟩, hhooks⟩
    exact ⟨a, ha, k, hk, hhooks⟩

theorem validatePydantic_eq_ok :
    validatePydantic M str P text generated i ⟨schema, strict⟩ = .ok () ↔
      (strict = true → M.Validates str P i (schema.getD (generated i.model))) := by
  unfold validatePydantic Validates modelToPydantic
  cases strict with
  | false => simp
  | true =>
      cases validatedFields str P M.heap i (schema.getD (generated i.model)) <;>
        simp [mapError_ok, mapError_error, Except.map]

theorem unifiedFields_eq_ok :
    M.unifiedFields str P text generated i schema strict = .ok j ↔
      (strict = true → M.Validates str P i (schema.getD (generated i.model))) ∧
        validateDjangoFields M i (M.metaFields i.model) = .ok j := by
  unfold unifiedFields
  rw [bind_eq_ok]
  constructor
  · rintro ⟨⟨⟩, hschema, hfields⟩
    exact ⟨validatePydantic_eq_ok.mp hschema, hfields⟩
  · rintro ⟨hschema, hfields⟩
    exact ⟨(), validatePydantic_eq_ok.mpr hschema, hfields⟩

theorem unifiedFields_ok_iff :
    (∃ k, M.unifiedFields str P text generated i schema strict = .ok k) ↔
      ¬M.RejectedNormalized str P generated i schema strict := by
  simp only [unifiedFields_eq_ok, exists_and_left, validateDjangoFields_ok_iff]
  unfold RejectedNormalized concreteFields
  rw [not_or]
  refine and_congr (by simp) ⟨?_, ?_⟩
  · rintro h ⟨before, field, after, heq, hskips, hraises⟩
    exact h before field after heq hskips hraises
  · intro h before field after heq hskips hraises
    exact h ⟨before, field, after, heq, hskips, hraises⟩

/-- Hooks that accept every instance and leave it as it is. -/
def accepting : Hooks K V E := ⟨.ok, fun _ ↦ .ok (), fun _ ↦ .ok ()⟩

theorem runHooks_accepting : runHooks (accepting : Hooks K V E) i = .ok i := rfl

theorem IsNormal.unifiedFields_eq (h : M.IsNormal str P generated i schema strict) :
    M.unifiedFields str P text generated i schema strict = .ok i :=
  unifiedFields_eq_ok.mpr ⟨h.1, validateDjangoFields_of_unchanged fun field hfield ↦
    (h.2 field hfield).2⟩

theorem IsNormal.not_rejectedAsStored (h : M.IsNormal str P generated i schema strict) :
    ¬M.RejectedAsStored str P i schema strict := by
  rintro (⟨hstrict, s, rfl, hinvalid⟩ | ⟨field, hfield, hraises⟩)
  · exact hinvalid (h.1 hstrict)
  · cases hskips : skips M i field with
    | true => exact (h.2 field hfield).1 hskips hraises
    | false => exact not_raises_iff.mpr ⟨_, (h.2 field hfield).2 hskips⟩ hraises

theorem isNormal_of_unchanged (hstored : ¬M.RejectedAsStored str P i schema strict)
    (hj : M.unifiedFields str P text generated i schema strict = .ok j)
    (hsame : j.attributes = i.attributes) : M.IsNormal str P generated i schema strict := by
  obtain ⟨hschema, hfields⟩ := unifiedFields_eq_ok.mp hj
  refine ⟨hschema, fun field hfield ↦ ⟨fun _ hraises ↦ hstored (.inr ⟨field, hfield, hraises⟩), ?_⟩⟩
  exact clean_of_unchanged hfields (M.attnames_nodup i.model) hsame field hfield

/-- The two pipelines agree, whatever the hooks of the model do, if both
reject the fields of the instance, or if both accept them as they are. -/
theorem pipelines_agree (M : Models K V E) (str : V → Str) (P : SchemaClasses S V F O)
    (text : ConversionError E F → Str) (generated : K → S) (i : ModelInstance K V)
    (schema : Option S) (strict : Bool) :
    (∀ hooks, M.Agrees str P text generated i schema strict hooks) ↔
      M.RejectedAsStored str P i schema strict ∧
          M.RejectedNormalized str P generated i schema strict ∨
        M.IsNormal str P generated i schema strict := by
  constructor
  · intro h
    obtain ⟨hraises, hsame⟩ := h accepting
    rw [exists_error_iff, exists_error_iff, not_iff_not] at hraises
    simp only [validateLifecycle_eq_ok, validateModelInstance_eq_ok, runHooks_accepting]
      at hraises hsame
    by_cases hstored : M.RejectedAsStored str P i schema strict
    · refine .inl ⟨hstored, ?_⟩
      by_contra hnormalized
      have haccepted : ∃ k, M.unifiedFields str P text generated i schema strict = .ok k :=
        unifiedFields_ok_iff.mpr hnormalized
      obtain ⟨k, hk⟩ := haccepted
      obtain ⟨j, hj, -⟩ := hraises.mpr ⟨k, k, hk, rfl⟩
      exact hj hstored
    · obtain ⟨k, k', hk, -⟩ := hraises.mp ⟨i, hstored, rfl⟩
      exact .inr (isNormal_of_unchanged hstored hk
        (hsame i k' ⟨hstored, rfl⟩ ⟨k', hk, rfl⟩).symm)
  · rintro (⟨hstored, hnormalized⟩ | hnormal) hooks
    · have hlifecycle : ¬∃ j, validateLifecycle M hooks str P i schema strict = .ok j := by
        rintro ⟨j, hj⟩
        exact (validateLifecycle_eq_ok.mp hj).1 hstored
      have hunified : ¬∃ j, validateModelInstance M hooks str P text generated i ⟨schema, strict⟩ =
          .ok j := by
        rintro ⟨j, hj⟩
        obtain ⟨k, hk, -⟩ := validateModelInstance_eq_ok.mp hj
        exact unifiedFields_ok_iff.mp ⟨k, hk⟩ hnormalized
      refine ⟨?_, fun j k hj ↦ absurd ⟨j, hj⟩ hlifecycle⟩
      rw [exists_error_iff, exists_error_iff]
      exact iff_of_true hlifecycle hunified
    · have hlifecycle : ∀ j, validateLifecycle M hooks str P i schema strict = .ok j ↔
          runHooks hooks i = .ok j := fun j ↦ by
        simp [validateLifecycle_eq_ok, hnormal.not_rejectedAsStored]
      have hunified : ∀ j, validateModelInstance M hooks str P text generated i ⟨schema, strict⟩ =
          .ok j ↔ runHooks hooks i = .ok j := fun j ↦ by
        simp [validateModelInstance_eq_ok, hnormal.unifiedFields_eq]
      refine ⟨?_, fun j k hj hk ↦ ?_⟩
      · rw [exists_error_iff, exists_error_iff]
        simp only [hlifecycle, hunified]
      · obtain rfl := Except.ok.inj (((hlifecycle j).mp hj).symm.trans ((hunified k).mp hk))
        rfl

end Agreement

section Sample

/-- A product with an integer field, which takes the text of a number, too. -/
def productModels : Models Unit (Str ⊕ ℤ) Empty where
  typeName _ := "Product".toList
  metaFields _ := [.virtual, .concrete
    ⟨⟨"quantity".toList, "quantity".toList, false, false⟩, false, fun value _ ↦
      match value with
      | some (.inl text) =>
          if text = "7".toList then .ok (some (.inr 7))
          else .error (.validation ⟨none, some ["Enter a whole number.".toList], text⟩)
      | value => .ok value⟩]
  attnames_nodup _ := by decide
  pk _ := "id".toList
  related _ _ := .ok .none

def productClasses : SchemaClasses Unit (Str ⊕ ℤ) Empty Unit where
  graph := ⟨fun _ ↦ ⟨[("quantity".toList, .type .plain)], by decide⟩⟩
  name _ := "ProductSchema".toList
  modelValidate _ _ := .ok ()
  modelDump _ := []

/-- The quantity of the product is a text. -/
def product : ModelInstance Unit (Str ⊕ ℤ) :=
  ⟨(), fun attname ↦ if attname = "quantity".toList then some (.inl "7".toList) else none⟩

theorem pipelines_agree_fails :
    ¬productModels.Agrees (fun _ ↦ []) productClasses (fun _ ↦ []) id product (some ()) false
      accepting := by
  rintro ⟨-, hsame⟩
  have hquantity := congrFun (hsame _ _ rfl rfl) "quantity".toList
  cases hquantity

end Sample

end Models

end DjangoNova
