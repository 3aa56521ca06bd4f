import DjangoNova.Query.FirstChains
import DjangoNova.Validation.Serialization

/-!
# The relations that a plan loads

The serializer follows nested fields from a row, once for each row that it
meets; the analyzer lists the fields of each schema once. A relation is
loaded with the rows of a plan if its path is at or above one of the paths
of the plan.
-/

namespace DjangoNova

section Reads

variable {I S V E : Type} (str : V → Str) (G : SchemaGraph S) (heap : ObjectHeap I V E)

/-- The relations that a field dereferences, each by the names that lead to it. -/
def fieldReads (reads : I → S → List (List Str)) (i : I) (field : ConcreteField)
    (ann : AnnotationExpr S) : List (List Str) :=
  match field.isRelation, ann.getNestedSchema with
  | true, some nestedSchema =>
      [field.name] :: match heap.related i field.name with
        | .ok (.model related) => (reads related nestedSchema).map (field.name :: ·)
        | _ => []
  | _, _ => []

/-- The loop over the concrete fields, which an error ends. -/
def fieldsReads (recurse : I → S → Except (SerializationError E) (SerializedDict V))
    (reads : I → S → List (List Str)) (i : I) (schema : S) : List ConcreteField → List (List Str)
  | [] => []
  | field :: rest =>
      match (G.modelFields schema).lookup field.name with
      | none => fieldsReads recurse reads i schema rest
      | some ann => fieldReads heap reads i field ann ++
          match serializeField str heap recurse i field ann with
          | .ok _ => fieldsReads recurse reads i schema rest
          | .error _ => []

/-- The relations that `_model_to_dict` dereferences. -/
def relationReadsAt (depth : ℕ) (i : I) (schema : S) : List (List Str) :=
  if depth ≥ 32 then []
  else fieldsReads str G heap
    (fun related nested ↦ modelToDictAt str G heap (depth + 1) related nested)
    (fun related nested ↦ relationReadsAt (depth + 1) related nested) i schema
      (heap.concreteFields i)
termination_by 32 - depth

def relationReads (i : I) (schema : S) : List (List Str) := relationReadsAt str G heap 0 i schema

/-- The relations of a row, read one after the other. -/
def ObjectHeap.accessAlong : I → List Str → Except E (RelatedObject I)
  | i, [] => .ok (.model i)
  | i, name :: rest =>
      match heap.related i name with
      | .ok (.model j) => accessAlong j rest
      | other => other

end Reads

section Accesses

variable {I S V E : Type} {str : V → Str} {G : SchemaGraph S} {heap : ObjectHeap I V E}
  {recurse : I → S → Except (SerializationError E) (SerializedDict V)}
  {reads : I → S → List (List Str)} {i : I} {schema : S} {chain : List Str}

/-- A nested field reads its relation, and what the related row reads. -/
theorem mem_fieldReads {field : ConcreteField} {ann : AnnotationExpr S} :
    chain ∈ fieldReads heap reads i field ann ↔
      ∃ r, field.isRelation = true ∧ ann.getNestedSchema = some r ∧ (chain = [field.name] ∨
        ∃ j rest, heap.related i field.name = .ok (.model j) ∧ rest ∈ reads j r ∧
          chain = field.name :: rest) := by
  unfold fieldReads
  cases field.isRelation with
  | false => simp
  | true =>
      cases ann.getNestedSchema with
      | none => simp
      | some r =>
          rcases hrelated : heap.related i field.name with e | related
          · simp
          · cases related <;> simp [eq_comm]

theorem fieldsReads_cons {field : ConcreteField} {rest : List ConcreteField} :
    fieldsReads str G heap recurse reads i schema (field :: rest) =
      match (G.modelFields schema).lookup field.name with
      | none => fieldsReads str G heap recurse reads i schema rest
      | some ann => fieldReads heap reads i field ann ++
          match serializeField str heap recurse i field ann with
          | .ok _ => fieldsReads str G heap recurse reads i schema rest
          | .error _ => [] := rfl

theorem mem_of_mem_fieldsReads {fields : List ConcreteField}
    (h : chain ∈ fieldsReads str G heap recurse reads i schema fields) :
    ∃ field ∈ fields, ∃ ann, (G.modelFields schema).lookup field.name = some ann ∧
      chain ∈ fieldReads heap reads i field ann := by
  induction fields with
  | nil => exact absurd h List.not_mem_nil
  | cons field rest ih =>
      have hrest : chain ∈ fieldsReads str G heap recurse reads i schema rest →
          ∃ f ∈ field :: rest, ∃ ann, (G.modelFields schema).lookup f.name = some ann ∧
            chain ∈ fieldReads heap reads i f ann := by
        intro h
        obtain ⟨f, hf, hread⟩ := ih h
        exact ⟨f, List.mem_cons_of_mem _ hf, hread⟩
      rw [fieldsReads_cons] at h
      cases hlookup : (G.modelFields schema).lookup field.name with
      | none => exact hrest (by simpa only [hlookup] using h)
      | some ann =>
          simp only [hlookup, List.mem_append] at h
          rcases h with h | h
          · exact ⟨field, List.mem_cons_self, ann, hlookup, h⟩
          · cases hfield : serializeField str heap recurse i field ann with
            | ok value => exact hrest (by simpa only [hfield] using h)
            | error e => simp [hfield] at h

/-- Without errors the loop reads what its fields read. -/
theorem mem_fieldsReads {fields : List ConcreteField}
    (hok : ∀ field ann, ∃ value, serializeField str heap recurse i field ann = .ok value) :
    chain ∈ fieldsReads str G heap recurse reads i schema fields ↔
      ∃ field ∈ fields, ∃ ann, (G.modelFields schema).lookup field.name = some ann ∧
        chain ∈ fieldReads heap reads i field ann := by
  refine ⟨mem_of_mem_fieldsReads, ?_⟩
  rintro ⟨field, hfield, ann, hlookup, hread⟩
  induction fields with
  | nil => exact absurd hfield List.not_mem_nil
  | cons f rest ih =>
      rw [fieldsReads_cons]
      rcases List.mem_cons.mp hfield with rfl | hfield
      · simp only [hlookup]
        exact List.mem_append_left _ hread
      · cases (G.modelFields schema).lookup f.name with
        | none => exact ih hfield
        | some a =>
            obtain ⟨value, hvalue⟩ := hok f a
            simp only [hvalue]
            exact List.mem_append_right _ (ih hfield)

theorem serializeFields_ok
    (hok : ∀ field ann, ∃ value, serializeField str heap recurse i field ann = .ok value)
    (fields : List ConcreteField) :
    ∃ items, serializeFields str G heap recurse i schema fields = .ok items := by
  induction fields with
  | nil => exact ⟨[], rfl⟩
  | cons field rest ih =>
      obtain ⟨items, hitems⟩ := ih
      unfold serializeFields
      cases (G.modelFields schema).lookup field.name with
      | none => exact ⟨items, hitems⟩
      | some ann =>
          obtain ⟨value, hvalue⟩ := hok field ann
          exact ⟨(field.name, value) :: items, by simp [hvalue, hitems, bind, Except.bind]⟩

variable {e : E}

theorem serializeField_raised {field : ConcreteField} {ann : AnnotationExpr S}
    (hattributes : ∀ i name e, heap.attributeOf i name ≠ .error e)
    (hrec : ∀ j r, recurse j r = .error (.raised e) →
      ∃ chain ∈ reads j r, heap.accessAlong j chain = .error e)
    (h : serializeField str heap recurse i field ann = .error (.raised e)) :
    ∃ chain ∈ fieldReads heap reads i field ann, heap.accessAlong i chain = .error e := by
  obtain ⟨v, hv⟩ : ∃ v, heap.attributeOf i field.attname = .ok v := by
    cases hattribute : heap.attributeOf i field.attname with
    | ok v => exact ⟨v, rfl⟩
    | error e' => exact absurd hattribute (hattributes i field.attname e')
  unfold serializeField at h
  cases hrelation : field.isRelation with
  | false => simp [hrelation, hv, mapError_ok, bind, Except.bind] at h
  | true =>
      cases hnested : ann.getNestedSchema with
      | none => simp [hrelation, hnested, hv, mapError_ok, bind, Except.bind] at h
      | some r =>
          simp only [hrelation, hnested] at h
          cases hrelated : heap.related i field.name with
          | error e' =>
              rw [hrelated, mapError_error] at h
              cases h
              refine ⟨[field.name], mem_fieldReads.mpr ⟨r, hrelation, hnested, .inl rfl⟩, ?_⟩
              simp [ObjectHeap.accessAlong, hrelated]
          | ok related =>
              rw [hrelated, mapError_ok] at h
              cases related with
              | none => cases h
              | other => cases h
              | model j =>
                  cases hitems : recurse j r with
                  | ok items =>
                      simp only [bind, Except.bind, hitems] at h
                      cases h
                  | error e' =>
                      simp only [bind, Except.bind, hitems, Except.error.injEq] at h
                      subst h
                      obtain ⟨chain, hchain, haccess⟩ := hrec j r hitems
                      refine ⟨field.name :: chain, mem_fieldReads.mpr ⟨r, hrelation, hnested,
                        .inr ⟨j, chain, hrelated, hchain, rfl⟩⟩, ?_⟩
                      simp [ObjectHeap.accessAlong, hrelated, haccess]

theorem serializeFields_raised
    (hattributes : ∀ i name e, heap.attributeOf i name ≠ .error e)
    (hrec : ∀ j r, recurse j r = .error (.raised e) →
      ∃ chain ∈ reads j r, heap.accessAlong j chain = .error e)
    {fields : List ConcreteField}
    (h : serializeFields str G heap recurse i schema fields = .error (.raised e)) :
    ∃ chain ∈ fieldsReads str G heap recurse reads i schema fields,
      heap.accessAlong i chain = .error e := by
  induction fields with
  | nil => cases h
  | cons field rest ih =>
      unfold serializeFields at h
      rw [fieldsReads_cons]
      cases hlookup : (G.modelFields schema).lookup field.name with
      | none => exact ih (by simpa only [hlookup] using h)
      | some ann =>
          simp only [hlookup] at h
          cases hfield : serializeField str heap recurse i field ann with
          | error e' =>
              simp only [hfield, bind, Except.bind, Except.error.injEq] at h
              subst h
              obtain ⟨chain, hchain, haccess⟩ := serializeField_raised hattributes hrec hfield
              exact ⟨chain, List.mem_append_left _ hchain, haccess⟩
          | ok value =>
              have hitems : serializeFields str G heap recurse i schema rest =
                .error (.raised e) := by
                cases hitems : serializeFields str G heap recurse i schema rest with
                | error e' => simpa only [hfield, hitems, bind, Except.bind] using h
                | ok items =>
                    simp only [hfield, hitems, bind, Except.bind] at h
                    cases h
              obtain ⟨chain, hchain, haccess⟩ := ih hitems
              refine ⟨chain, List.mem_append_right _ ?_, haccess⟩
              rwa [hfield]

/-- An access error of the serializer is that of a relation that it reads. -/
theorem modelToDict_raised (hattributes : ∀ i name e, heap.attributeOf i name ≠ .error e)
    (h : modelToDict str G heap i schema = .error (.raised e)) :
    ∃ chain ∈ relationReads str G heap i schema, heap.accessAlong i chain = .error e := by
  have hat : ∀ n depth, depth + n = 32 → ∀ i schema,
      modelToDictAt str G heap depth i schema = .error (.raised e) →
        ∃ chain ∈ relationReadsAt str G heap depth i schema,
          heap.accessAlong i chain = .error e := by
    intro n
    induction n with
    | zero =>
        intro depth hdepth i schema h
        rw [modelToDictAt, if_pos (by omega)] at h
        cases h
    | succ n ih =>
        intro depth hdepth i schema h
        rw [modelToDictAt, if_neg (by omega)] at h
        rw [relationReadsAt, if_neg (by omega)]
        exact serializeFields_raised hattributes (ih (depth + 1) (by omega)) h
  exact hat 32 0 rfl i schema h

/-- What is read are the nested fields below nested chains, to a depth of 32. -/
theorem chain_of_mem_reads (h : chain ∈ relationReads str G heap i schema) :
    ∃ names s name ann r, chain = names ++ [name] ∧ G.NestedChain schema names s ∧
      (name, ann) ∈ (G.modelFields s).items ∧ ann.getNestedSchema = some r ∧ names.length < 32 := by
  have hat : ∀ n depth, depth + n = 32 → ∀ i schema,
      ∀ chain ∈ relationReadsAt str G heap depth i schema,
      ∃ names s name ann r, chain = names ++ [name] ∧ G.NestedChain schema names s ∧
        (name, ann) ∈ (G.modelFields s).items ∧ ann.getNestedSchema = some r ∧
          names.length < n := by
    intro n
    induction n with
    | zero =>
        intro depth hdepth i schema chain h
        rw [relationReadsAt, if_pos (by omega)] at h
        exact absurd h List.not_mem_nil
    | succ n ih =>
        intro depth hdepth i schema chain h
        rw [relationReadsAt, if_neg (by omega)] at h
        obtain ⟨field, -, ann, hlookup, hread⟩ := mem_of_mem_fieldsReads h
        have hmem := OrderedDict.lookup_eq_some_iff.mp hlookup
        obtain ⟨r, -, hnested, rfl | ⟨j, rest, -, hrest, rfl⟩⟩ := mem_fieldReads.mp hread
        · exact ⟨[], schema, field.name, ann, r, rfl, .nil schema, hmem, hnested, Nat.succ_pos n⟩
        · obtain ⟨names, s, name, ann', r', rfl, hchain, hmem', hnested', hlength⟩ :=
            ih (depth + 1) (by omega) j r rest hrest
          exact ⟨field.name :: names, s, name, ann', r', rfl, .cons hmem hnested hchain, hmem',
            hnested', Nat.succ_lt_succ hlength⟩
  exact hat 32 0 rfl i schema chain h

end Accesses

section Rows

variable {M S : Type} (models : ModelGraph M S) (G : SchemaGraph S)

/-- The instances are rows of the models, and their foreign keys are null or
lead to rows of the related models. -/
structure RowsOf {I V E : Type} (heap : ObjectHeap I V E) (modelOf : I → M) : Prop where
  fields : ∀ i, heap.concreteFields i = models.concreteFields (modelOf i)
  related : ∀ i name j, heap.related i name = .ok (.model j) →
    models.getField (modelOf i) name = some ⟨some (.toOne, modelOf j)⟩

/-- The schemas below a schema along nested fields, each with the model that
it is read on. -/
inductive NestedLevel (m : M) (schema : S) : M → S → Prop
  | root : NestedLevel m schema m schema
  | step {m' m'' : M} {s r : S} {name : Str} {ann : AnnotationExpr S} :
      NestedLevel m schema m' s → (name, ann) ∈ (G.modelFields s).items →
      ann.getNestedSchema = some r → models.getField m' name = some ⟨some (.toOne, m'')⟩ →
      NestedLevel m schema m'' r

/-- Each nested field names a foreign key, at every level. -/
def Conforms (m : M) (schema : S) : Prop :=
  ∀ m' s, NestedLevel models G m schema m' s → ∀ name ann r,
    (name, ann) ∈ (G.modelFields s).items → ann.getNestedSchema = some r →
      (∃ field ∈ models.concreteFields m', field.name = name ∧ field.isRelation = true) ∧
        ∃ next, models.getField m' name = some ⟨some (.toOne, next)⟩

/-- The model that a foreign key leads to. -/
def foreignTarget (m : M) (name : Str) : Option M :=
  match models.getField m name with
  | some ⟨some (.toOne, next)⟩ => some next
  | _ => none

/-- The related row of a row that has a chain of foreign keys and is null otherwise. -/
def nextRow (row : M × List Str) (name : Str) : Option (M × List Str) :=
  match row.2 with
  | first :: next :: rest =>
      if name = first then (foreignTarget models row.1 name).map fun m ↦ (m, next :: rest) else none
  | _ => none

def chainRows : ObjectHeap (M × List Str) Unit Empty where
  typeName row := models.typeName row.1
  concreteFields row := models.concreteFields row.1
  attributeOf _ _ := .ok none
  related row name := .ok (match nextRow models row name with
    | none => .none
    | some next => .model next)

variable {models G} {m m' : M} {name : Str} {names : List Str}

theorem foreignTarget_eq_some :
    foreignTarget models m name = some m' ↔ models.getField m name = some ⟨some (.toOne, m')⟩ := by
  unfold foreignTarget
  split
  next next hfield => simp [hfield]
  next hfield => exact iff_of_false (by simp) fun h ↦ hfield m' h

theorem nextRow_eq_some {row next : M × List Str} :
    nextRow models row name = some next ↔
      row.2 = name :: next.2 ∧ next.2 ≠ [] ∧ foreignTarget models row.1 name = some next.1 := by
  obtain ⟨m, names⟩ := row
  obtain ⟨m', names'⟩ := next
  unfold nextRow
  cases names with
  | nil => simp
  | cons first names =>
      cases names with
      | nil => simp +contextual [eq_comm]
      | cons second rest =>
          by_cases hname : name = first
          · subst hname
            simp only [if_true]
            constructor
            · intro h
              obtain ⟨target, htarget, heq⟩ := Option.map_eq_some_iff.mp h
              obtain ⟨rfl, rfl⟩ := Prod.mk.inj heq
              exact ⟨rfl, List.cons_ne_nil _ _, htarget⟩
            · rintro ⟨hnames, -, htarget⟩
              obtain ⟨-, rfl⟩ := List.cons.inj hnames
              exact Option.map_eq_some_iff.mpr ⟨m', htarget, rfl⟩
          · simp [hname, Ne.symm hname]

theorem chainRows_related {row next : M × List Str} :
    (chainRows models).related row name = .ok (.model next) ↔
      nextRow models row name = some next := by
  cases h : nextRow models row name <;> simp [chainRows, h]

theorem chainRows_rows : RowsOf models (chainRows models) Prod.fst := by
  refine ⟨fun _ ↦ rfl, fun row name next h ↦ ?_⟩
  exact foreignTarget_eq_some.mp (nextRow_eq_some.mp (chainRows_related.mp h)).2.2

variable {schema s : S} {ann : AnnotationExpr S} {r : S}

/-- A row is serialized if the rows that it leads to are. -/
theorem serializeField_chainRows {str : Unit → Str} {row : M × List Str}
    {recurse : M × List Str → S → Except (SerializationError Empty) (SerializedDict Unit)}
    (hrec : ∀ next r name, nextRow models row name = some next →
      ∃ items, recurse next r = .ok items)
    (field : ConcreteField) (ann : AnnotationExpr S) :
    ∃ value, serializeField str (chainRows models) recurse row field ann = .ok value := by
  unfold serializeField
  cases field.isRelation with
  | false => exact ⟨.plain .none, rfl⟩
  | true =>
      cases ann.getNestedSchema with
      | none => exact ⟨.plain .none, rfl⟩
      | some r =>
          cases hnext : nextRow models row field.name with
          | none => exact ⟨.plain .none, by simp [chainRows, hnext, mapError_ok, bind, Except.bind]⟩
          | some next =>
              obtain ⟨items, hitems⟩ := hrec next r field.name hnext
              exact ⟨.nested items, by
                simp [chainRows, hnext, hitems, mapError_ok, bind, Except.bind]⟩

/-- The depth suffices for the chain of the row. -/
theorem serializeField_chainRows_at (str : Unit → Str) {names : List Str} {depth : ℕ}
    (hdepth : depth + names.length ≤ 32) (m : M) (field : ConcreteField) (ann : AnnotationExpr S) :
    ∃ value, serializeField str (chainRows models)
      (fun related nested ↦ modelToDictAt str G (chainRows models) (depth + 1) related nested)
      (m, names) field ann = .ok value := by
  induction names generalizing m depth field ann with
  | nil =>
      refine serializeField_chainRows (fun next r name' hnext ↦ ?_) field ann
      exact absurd (nextRow_eq_some.mp hnext).1 (by simp)
  | cons first rest ih =>
      rw [List.length_cons] at hdepth
      refine serializeField_chainRows (fun next r name' hnext ↦ ?_) field ann
      obtain ⟨m', names'⟩ := next
      obtain ⟨heq, hne, -⟩ := nextRow_eq_some.mp hnext
      obtain ⟨-, rfl⟩ := List.cons.inj heq
      have hpos : 0 < rest.length := List.length_pos_of_ne_nil hne
      rw [modelToDictAt, if_neg (by omega)]
      exact serializeFields_ok (ih (by omega) m') _

/-- The row of a chain of nested fields reads the whole chain. -/
theorem mem_reads_chainRows (str : Unit → Str) {root : S} (hconforms : Conforms models G m root)
    (hmem : (name, ann) ∈ (G.modelFields s).items) (hnested : ann.getNestedSchema = some r)
    (hchain : G.NestedChain schema names s) (hlevel : NestedLevel models G m root m' schema)
    {depth : ℕ} (hdepth : depth + names.length < 32) :
    names ++ [name] ∈
      relationReadsAt str G (chainRows models) depth (m', names ++ [name]) schema := by
  have hok := fun d (names : List Str) hd m' ↦
    @serializeField_chainRows_at M S models G str names d hd m'
  induction hchain generalizing m' depth with
  | nil s =>
      obtain ⟨⟨field, hfield, rfl, hrelation⟩, -⟩ := hconforms m' s hlevel name ann r hmem hnested
      rw [relationReadsAt, if_neg (by omega),
        mem_fieldsReads (hok depth _ (by simpa using hdepth) m')]
      exact ⟨field, hfield, ann, OrderedDict.lookup_eq_some_iff.mpr hmem,
        mem_fieldReads.mpr ⟨r, hrelation, hnested, .inl rfl⟩⟩
  | @cons s' r' t first ann' names hmem' hnested' _ ih =>
      obtain ⟨⟨field, hfield, rfl, hrelation⟩, next, hnext⟩ :=
        hconforms m' s' hlevel first ann' r' hmem' hnested'
      rw [List.length_cons] at hdepth
      have hrest := ih hmem (hlevel.step hmem' hnested' hnext)
        (show depth + 1 + names.length < 32 by omega)
      have hlength : depth + (field.name :: names ++ [name]).length ≤ 32 := by
        simp only [List.length_append, List.length_cons, List.length_nil]
        omega
      rw [relationReadsAt, if_neg (by omega), mem_fieldsReads (hok depth _ hlength m')]
      refine ⟨field, hfield, ann', OrderedDict.lookup_eq_some_iff.mpr hmem', mem_fieldReads.mpr
        ⟨r', hrelation, hnested', .inr ⟨(next, names ++ [name]), names ++ [name], ?_, hrest, rfl⟩⟩⟩
      exact chainRows_related.mpr (nextRow_eq_some.mpr
        ⟨rfl, by simp, foreignTarget_eq_some.mpr hnext⟩)

end Rows

section Coverage

variable {M S : Type} {models : ModelGraph M S} {G : SchemaGraph S} {m : M} {schema : S}

/-- A path of the plan is the path of the names, or goes on below it. -/
def QueryPlan.Loads (plan : QueryPlan) (chain : List Str) : Prop :=
  ∃ path ∈ plan.selectRelated,
    path = chain.foldl fullPath [] ∨ (chain.foldl fullPath [] ++ ['_', '_']) <+: path

/-- The plan loads every relation that the serializer reads from a row of the
model, if its first field is not excluded. -/
def PlanCovers (models : ModelGraph M S) (G : SchemaGraph S) (m : M) (schema : S)
    (exclude : List Str) (plan : QueryPlan) : Prop :=
  ∀ (I V E : Type) (str : V → Str) (heap : ObjectHeap I V E) (modelOf : I → M),
    RowsOf models heap modelOf → ∀ row, modelOf row = m →
      ∀ chain ∈ relationReads str G heap row schema,
        (∀ first ∈ chain.head?, first ∉ exclude) → plan.Loads chain

/-- The path of the names is at or above that of a nested field below a first
chain. -/
def OnFirstChain (G : SchemaGraph S) (schema : S) (chain : List Str) : Prop :=
  ∃ names s name ann r, G.FirstChain schema names s ∧ (name, ann) ∈ (G.modelFields s).items ∧
    ann.resolvedSchema = some r ∧
      ((names ++ [name]).foldl fullPath [] = chain.foldl fullPath [] ∨
        (chain.foldl fullPath [] ++ ['_', '_']) <+: (names ++ [name]).foldl fullPath [])

variable {names : List Str} {name : Str} {ann : AnnotationExpr S} {r s : S}

theorem foldl_fullPath_ne_nil {first : Str} (hfirst : first ≠ []) (rest : List Str) :
    (first :: rest).foldl fullPath [] ≠ [] := by
  rw [Planner.foldl_fullPath_cons hfirst]
  simp [hfirst]

/-- Below a path its first name stays the root. -/
theorem pathRoot_below {first path : Str} {rest : List Str} (hfirst : Planner.Segment first)
    (h : path = (first :: rest).foldl fullPath [] ∨
      ((first :: rest).foldl fullPath [] ++ ['_', '_']) <+: path) :
    Planner.pathRoot path = first := by
  rcases h with rfl | ⟨more, rfl⟩
  · exact Planner.pathRoot_foldl hfirst
  · have happend : (first :: rest).foldl fullPath [] ++ ['_', '_'] ++ more =
        (first :: (rest ++ [more])).foldl fullPath [] := by
      rw [← List.cons_append, List.foldl_append]
      show _ = fullPath ((first :: rest).foldl fullPath []) more
      rw [Planner.fullPath_of_ne_nil (foldl_fullPath_ne_nil hfirst.ne_nil rest)]
      simp
    rw [happend]
    exact Planner.pathRoot_foldl hfirst

/-- A kept path lies at or below a path if some listed path does. -/
theorem exists_kept_below {paths : List Str} {path : Str} :
    (∃ q ∈ Planner.removeRedundantPaths paths, q = path ∨ (path ++ ['_', '_']) <+: q) ↔
      ∃ p ∈ paths, p = path ∨ (path ++ ['_', '_']) <+: p := by
  constructor
  · rintro ⟨q, hq, hbelow⟩
    exact ⟨q, (Planner.mem_removeRedundantPaths.mp hq).1, hbelow⟩
  · rintro ⟨p, hp, hbelow⟩
    obtain ⟨q, hq, rfl | hprefix⟩ := Planner.exists_kept hp
    · exact ⟨q, hq, hbelow⟩
    · refine ⟨q, hq, .inr ?_⟩
      rcases hbelow with rfl | hbelow
      · exact hprefix
      · exact hbelow.trans ((List.prefix_append p _).trans hprefix)

/-- What a plan loads below a root that is not excluded. -/
theorem loads_iff [DecidableEq S] {fuel : ℕ} {config : NovaConfig S} {plan : QueryPlan}
    (hacyclic : G.Acyclic schema) (hconfig : models.config m = some config)
    (hschema : config.pydanticSchema = some schema)
    (hplan : Planner.buildQueryPlan models G fuel m = .ok plan) {first : Str} {rest : List Str}
    (hfirst : Planner.Segment first) (hexclude : first ∉ config.excludeFromPydantic) :
    plan.Loads (first :: rest) ↔ OnFirstChain G schema (first :: rest) := by
  obtain ⟨hints, t, hfind⟩ := Planner.exists_hints_of_plan hconfig hschema hplan
  obtain ⟨kept, hkept, hbuild⟩ := Planner.buildQueryPlan_cases hconfig hschema hfind
  have hselect : plan.selectRelated = Planner.sorted kept.select := by
    obtain ⟨-, _, _, herror⟩ | ⟨-, plan', hplan', hselect, -⟩ := hbuild
    · rw [hplan] at herror
      cases herror
    · rw [Except.ok.inj (hplan.symm.trans hplan'), hselect]
  have hkept' : plan.Loads (first :: rest) ↔ ∃ q ∈ Planner.removeRedundantPaths hints.select,
      q = (first :: rest).foldl fullPath [] ∨
        ((first :: rest).foldl fullPath [] ++ ['_', '_']) <+: q := by
    simp only [QueryPlan.Loads, hselect, Planner.mem_sorted, hkept.select]
    refine exists_congr fun q ↦ ⟨fun h ↦ ⟨h.1.1, h.2⟩, fun h ↦ ⟨⟨h.1, ?_⟩, h.2⟩⟩
    rwa [pathRoot_below hfirst h.2]
  rw [hkept', exists_kept_below]
  simp only [SchemaGraph.select_iff_firstChain hacyclic hfind, OnFirstChain]
  constructor
  · rintro ⟨_, ⟨names, s, name, ann, r, hchain, hmem, hr, rfl⟩, hbelow⟩
    exact ⟨names, s, name, ann, r, hchain, hmem, hr, hbelow⟩
  · rintro ⟨names, s, name, ann, r, hchain, hmem, hr, hbelow⟩
    exact ⟨_, ⟨names, s, name, ann, r, hchain, hmem, hr, rfl⟩, hbelow⟩

/-- With names free of the separator the schema itself must be reached along
its first chain. -/
theorem onFirstChain_iff
    (hsegments : ∀ s name ann r, (name, ann) ∈ (G.modelFields s).items →
      ann.resolvedSchema = some r → Planner.Segment name)
    (hchain : G.NestedChain schema names s) (hmem : (name, ann) ∈ (G.modelFields s).items)
    (hnested : ann.getNestedSchema = some r) :
    OnFirstChain G schema (names ++ [name]) ↔ G.FirstChain schema names s := by
  have hresolved := AnnotationExpr.resolvedSchema_of_nested hnested
  constructor
  · rintro ⟨names', s', name', ann', r', hfirst, hmem', hr', hbelow⟩
    have hnames : ∀ n ∈ names ++ [name], Planner.Segment n := by
      intro n hn
      rcases List.mem_append.mp hn with hn | hn
      · exact hchain.forall_mem hsegments n hn
      · exact List.mem_singleton.mp hn ▸ hsegments s name ann r hmem hresolved
    have hnames' : ∀ n ∈ names' ++ [name'], Planner.Segment n := by
      intro n hn
      rcases List.mem_append.mp hn with hn | hn
      · exact hfirst.forall_mem hsegments n hn
      · exact List.mem_singleton.mp hn ▸ hsegments s' name' ann' r' hmem' hr'
    have hprefix : (names ++ [name]) <+: (names' ++ [name']) := by
      rw [← Planner.segments_foldl (by simp) hnames']
      rcases hbelow with heq | ⟨more, heq⟩
      · rw [heq, Planner.segments_foldl (by simp) hnames]
      · rw [← heq, List.append_assoc]
        exact (Planner.segments_foldl_append (by simp) hnames more) ▸ List.prefix_append _ _
    have hshort : names <+: names' := by
      rcases List.prefix_concat_iff.mp hprefix with heq | hprefix
      · rw [(List.append_inj' heq rfl).1]
      · exact (List.prefix_append names [name]).trans hprefix
    obtain ⟨more, rfl⟩ := hshort
    obtain ⟨u, hu, -⟩ := hfirst.split
    exact hchain.unique hu ▸ hu
  · exact fun hfirst ↦ ⟨names, s, name, ann, r, hfirst, hmem, hresolved, .inl rfl⟩

/-- Exactly when the plan covers what the serializer reads: the chains of
nested fields that it can follow lie on first chains of the analyzer. -/
theorem plan_covers [DecidableEq S] {fuel : ℕ} {config : NovaConfig S} {plan : QueryPlan}
    (hfields : ∀ m name field, models.getField m name = some field → Planner.Segment name)
    (hacyclic : G.Acyclic schema) (hconforms : Conforms models G m schema)
    (hconfig : models.config m = some config) (hschema : config.pydanticSchema = some schema)
    (hplan : Planner.buildQueryPlan models G fuel m = .ok plan) :
    PlanCovers models G m schema config.excludeFromPydantic plan ↔
      ∀ names s name ann r, G.NestedChain schema names s →
        (name, ann) ∈ (G.modelFields s).items → ann.getNestedSchema = some r → names.length < 32 →
          (∀ first ∈ (names ++ [name]).head?, first ∉ config.excludeFromPydantic) →
            OnFirstChain G schema (names ++ [name]) := by
  have hloads : ∀ names s name ann r, G.NestedChain schema names s →
      (name, ann) ∈ (G.modelFields s).items → ann.getNestedSchema = some r →
        (∀ first ∈ (names ++ [name]).head?, first ∉ config.excludeFromPydantic) →
          (plan.Loads (names ++ [name]) ↔ OnFirstChain G schema (names ++ [name])) := by
    intro names s name ann r hchain hmem hnested hexclude
    have hsegment : ∀ name ann r, (name, ann) ∈ (G.modelFields schema).items →
        ann.getNestedSchema = some r → Planner.Segment name := by
      intro name ann r hmem hnested
      obtain ⟨-, next, hnext⟩ := hconforms m schema .root name ann r hmem hnested
      exact hfields m name _ hnext
    cases hchain with
    | nil =>
        exact loads_iff hacyclic hconfig hschema hplan (hsegment name ann r hmem hnested)
          (hexclude name rfl)
    | @cons _ r' _ first ann' names hmem' hnested' _ =>
        exact loads_iff hacyclic hconfig hschema hplan (hsegment first ann' r' hmem' hnested')
          (hexclude first rfl)
  constructor
  · intro hcovers names s name ann r hchain hmem hnested hlength hexclude
    refine (hloads names s name ann r hchain hmem hnested hexclude).mp ?_
    refine hcovers _ Unit Empty (fun _ ↦ []) (chainRows models) Prod.fst chainRows_rows
      (m, names ++ [name]) rfl _ ?_ hexclude
    exact mem_reads_chainRows _ hconforms hmem hnested hchain .root (by omega)
  · intro hchains I V E str heap modelOf hrows row hrow chain hchain hexclude
    obtain ⟨names, s, name, ann, r, rfl, hnestedChain, hmem, hnested, hlength⟩ :=
      chain_of_mem_reads hchain
    exact (hloads names s name ann r hnestedChain hmem hnested hexclude).mpr
      (hchains names s name ann r hnestedChain hmem hnested hlength hexclude)

end Coverage

section Sample

inductive StaffSchema where
  | post
  | user
  | profile
  deriving DecidableEq

/-- A post has an author and perhaps an editor, who are users with a profile. -/
def staffSchemas (edited : Bool) : SchemaGraph StaffSchema where
  modelFields
    | .post =>
        if edited then ⟨[(['b', 'y'], .type (.schema .user)),
          (['e', 'd'], .union [.type (.schema .user), .type .noneType])], by decide⟩
        else ⟨[(['b', 'y'], .type (.schema .user))], List.nodup_singleton _⟩
    | .user => ⟨[(['p'], .type (.schema .profile))], List.nodup_singleton _⟩
    | .profile => ⟨[(['t'], .type .plain)], List.nodup_singleton _⟩

def staffModels : ModelGraph StaffSchema StaffSchema where
  typeName _ := ['P']
  config _ := some ⟨some .post, []⟩
  concreteFields
    | .post => [⟨['b', 'y'], ['b', 'y', '_', 'i', 'd'], true, false⟩,
        ⟨['e', 'd'], ['e', 'd', '_', 'i', 'd'], true, false⟩]
    | .user => [⟨['p'], ['p', '_', 'i', 'd'], true, false⟩]
    | .profile => [⟨['t'], ['t'], false, false⟩]
  pk _ := some ⟨['i', 'd'], ['i', 'd'], false, false⟩
  getField m name :=
    if m = .post ∧ (name = ['b', 'y'] ∨ name = ['e', 'd']) then some ⟨some (.toOne, .user)⟩
    else if m = .user ∧ name = ['p'] then some ⟨some (.toOne, .profile)⟩
    else none
  distinct m := by cases m <;> decide
  plain_attname m := by cases m <;> decide

variable {edited : Bool} {s r : StaffSchema} {name : Str} {ann : AnnotationExpr StaffSchema}

/-- The relations of the schemas are foreign keys of the models. -/
theorem staff_relations (hmem : (name, ann) ∈ ((staffSchemas edited).modelFields s).items)
    (hr : ann.resolvedSchema = some r) :
    (∃ field ∈ staffModels.concreteFields s, field.name = name ∧ field.isRelation = true) ∧
      staffModels.getField s name = some ⟨some (.toOne, r)⟩ := by
  cases s with
  | post =>
      have hcases : (name = ['b', 'y'] ∧ ann = .type (.schema .user)) ∨
          name = ['e', 'd'] ∧ ann = .union [.type (.schema .user), .type .noneType] := by
        cases edited <;> simp [staffSchemas] at hmem
        · exact .inl hmem
        · exact hmem
      rcases hcases with ⟨rfl, rfl⟩ | ⟨rfl, rfl⟩
      all_goals
        cases hr
        exact ⟨by decide, rfl⟩
  | user =>
      obtain ⟨rfl, rfl⟩ := Prod.mk.inj (List.mem_singleton.mp hmem)
      cases hr
      exact ⟨by decide, rfl⟩
  | profile =>
      obtain ⟨rfl, rfl⟩ := Prod.mk.inj (List.mem_singleton.mp hmem)
      cases hr

theorem staff_segment {m : StaffSchema} {field : MetaField StaffSchema}
    (h : staffModels.getField m name = some field) : Planner.Segment name := by
  simp only [staffModels] at h
  split at h
  next hname => rcases hname.2 with rfl | rfl <;> decide
  next =>
    obtain ⟨⟨-, rfl⟩, -⟩ := Option.ite_none_right_eq_some.mp h
    decide

def StaffSchema.rank : StaffSchema → ℕ
  | .post => 2
  | .user => 1
  | .profile => 0

theorem staff_acyclic : (staffSchemas edited).Acyclic s := by
  have hrank : ∀ s r, (staffSchemas edited).Refers s r → r.rank < s.rank := ?_
  · exact SchemaGraph.acyclic_of_rank hrank s
  rintro s r ⟨name, ann, hmem, hr⟩
  obtain ⟨-, hfield⟩ := staff_relations hmem hr
  simp only [staffModels] at hfield
  split at hfield
  next hname =>
    cases hfield
    rw [hname.1]
    decide
  next =>
    obtain ⟨hname, hfield⟩ := Option.ite_none_right_eq_some.mp hfield
    cases hfield
    rw [hname.1]
    decide

theorem staff_conforms : Conforms staffModels (staffSchemas edited) .post .post := by
  have hsame : ∀ m s, NestedLevel staffModels (staffSchemas edited) .post .post m s → m = s := by
    intro m s hlevel
    induction hlevel with
    | root => rfl
    | step _ hmem hnested hnext ih =>
        subst ih
        have hfield := (staff_relations hmem (AnnotationExpr.resolvedSchema_of_nested hnested)).2
        rw [hfield] at hnext
        cases hnext
        rfl
  intro m s hlevel name ann r hmem hnested
  obtain rfl := hsame m s hlevel
  obtain ⟨hfield, hnext⟩ := staff_relations hmem (AnnotationExpr.resolvedSchema_of_nested hnested)
  exact ⟨hfield, r, hnext⟩

/-- Without an editor no schema has a second nested field. -/
theorem staff_firstChain {t : StaffSchema} {names : List Str}
    (h : (staffSchemas false).NestedChain s names t) :
    (staffSchemas false).FirstChain s names t := by
  induction h with
  | nil s => exact .nil s
  | @cons s r t name ann names hmem hnested _ ih =>
      have hitems : ((staffSchemas false).modelFields s).items = [] ++ (name, ann) :: [] := by
        cases s <;> simpa [staffSchemas, eq_comm] using hmem
      exact .cons hitems (AnnotationExpr.resolvedSchema_of_nested hnested) (by simp) ih

theorem plan_covers_sample : ∃ plan,
    Planner.buildQueryPlan staffModels (staffSchemas false) 4 .post = .ok plan ∧
      PlanCovers staffModels (staffSchemas false) .post .post [] plan := by
  have hplan : Planner.buildQueryPlan staffModels (staffSchemas false) 4 .post =
      .ok ⟨["by__p".toList], [], [['e', 'd']]⟩ := by rfl
  have hsegments : ∀ s name ann r, (name, ann) ∈ ((staffSchemas false).modelFields s).items →
      ann.resolvedSchema = some r → Planner.Segment name := fun s name ann r hmem hr ↦
    staff_segment (staff_relations hmem hr).2
  refine ⟨_, hplan, (plan_covers (fun _ _ _ ↦ staff_segment) staff_acyclic staff_conforms rfl rfl
    hplan).mpr ?_⟩
  intro names s name ann r hchain hmem hnested _ _
  exact (onFirstChain_iff hsegments hchain hmem hnested).mpr (staff_firstChain hchain)

/-- The profile of the editor is read but not loaded: the analyzer has
entered the schema of users along the author. -/
theorem plan_covers_fails : (staffSchemas true).Acyclic .post ∧
    Conforms staffModels (staffSchemas true) .post .post ∧ ∃ plan,
      Planner.buildQueryPlan staffModels (staffSchemas true) 4 .post = .ok plan ∧
        ¬PlanCovers staffModels (staffSchemas true) .post .post [] plan := by
  refine ⟨staff_acyclic, staff_conforms, ⟨["by__p".toList, ['e', 'd']], [], []⟩, by rfl, ?_⟩
  intro hcovers
  have hconforms : Conforms staffModels (staffSchemas true) .post .post := staff_conforms
  have hediting : (['e', 'd'], AnnotationExpr.union [.type (.schema .user), .type .noneType]) ∈
      ((staffSchemas true).modelFields .post).items := by simp [staffSchemas]
  have hprofile : (['p'], AnnotationExpr.type (.schema .profile)) ∈
      ((staffSchemas true).modelFields .user).items := List.mem_singleton_self _
  have hchain : (staffSchemas true).NestedChain .post [['e', 'd']] .user :=
    .cons hediting rfl (.nil _)
  have hread : [['e', 'd'], ['p']] ∈ relationReads (fun _ ↦ []) (staffSchemas true)
      (chainRows staffModels) (.post, [['e', 'd'], ['p']]) .post :=
    mem_reads_chainRows _ hconforms hprofile rfl hchain .root (by decide)
  obtain ⟨path, hpath, hloads⟩ := hcovers _ Unit Empty (fun _ ↦ []) (chainRows staffModels) Prod.fst
    chainRows_rows (.post, _) rfl _ hread (by simp)
  revert path
  decide

end Sample

end DjangoNova
