import DjangoNova.Cache.DependencySoundness
import DjangoNova.Cache.KeyDigest

/-!
# The identity of a query

The cache identifies a query by a key, while Django evaluates a queryset
from more than the key records. `rowsOf` is the conversion of SQL rows
into result rows by the iterable class of the queryset. Equal keys
guarantee equal results exactly for querysets with `ConvertAlike`, which
compares their models, known related objects, column names and column
orders over the rows that their common statement can return.
-/

namespace DjangoNova

variable {M Sql V : Type}

/-- A result row: an instance with the related objects attached to it, a
dictionary, a tuple, a named tuple or a single value. Dictionaries and
attached objects are known by what a lookup finds in them. -/
inductive Row (M V : Type) where
  | object (model : M) (values : List V) (related : Str → Option V)
  | dict (items : Str → Option V)
  | tuple (values : List V)
  | named (names : List Str) (values : List V)
  | scalar (value : V)

/-- The module of Django's own iterable classes. -/
def queryModule : Str := "django.db.models.query".toList

/-- The iterable classes of Django, or another class with its module and name. -/
inductive IterableClass (M V : Type) where
  | model
  | values
  | valuesList
  | namedValuesList
  | flatValuesList
  | custom (moduleName qualname : Str) (outside : moduleName ≠ queryModule)
      (rows : List (List V) → List (Row M V))

/-- `(iterable.__module__, iterable.__qualname__)`. -/
def IterableClass.shape : IterableClass M V → Str × Str
  | .model => (queryModule, "ModelIterable".toList)
  | .values => (queryModule, "ValuesIterable".toList)
  | .valuesList => (queryModule, "ValuesListIterable".toList)
  | .namedValuesList => (queryModule, "NamedValuesListIterable".toList)
  | .flatValuesList => (queryModule, "FlatValuesListIterable".toList)
  | .custom moduleName qualname _ _ => (moduleName, qualname)

/-- What the database makes of a statement: the results that it can have and
the number of its columns; and for instances of a model the column with the
key of a relation whose object the statement does not load itself. -/
structure Engine (M Sql V : Type) where
  results : Sql → Set (List (List V))
  columns : Sql → ℕ
  keyColumn : Sql → M → Str → Option ℕ
  result_exists : ∀ sql, (results sql).Nonempty
  width : ∀ sql, ∀ rows ∈ results sql, ∀ row ∈ rows, row.length = columns sql

namespace Engine

variable (E : Engine M Sql V)

/-- Without a statement, where the compiler raises `EmptyResultSet`, the
result is empty. -/
def resultsOf : Option Sql → Set (List (List V))
  | none => {[]}
  | some sql => E.results sql

/-- The statement can return the row. -/
def Returns (sql : Option Sql) (row : List V) : Prop := ∃ rows ∈ E.resultsOf sql, row ∈ rows

/-- The columns have the same value in every row of the statement. -/
def SameColumn (sql : Option Sql) (i j : ℕ) : Prop :=
  ∀ row, E.Returns sql row → row[i]? = row[j]?

end Engine

/-- A queryset as its evaluation sees it. `names` are the names of the
selected columns and `annotationNames` those among them that are
annotations; `known` gives the instances of `_known_related_objects` by
field and key. -/
structure ResultQuery (E : Engine M Sql V) extends QuerySet M where
  sql : Option Sql
  iterable : IterableClass M V
  fields : List Str
  names : List Str
  annotationNames : List Str
  known : Str → V → Option V
  names_length : ∀ s, sql = some s → names.length = E.columns s

namespace ResultQuery

variable {E : Engine M Sql V} (e : ResultQuery E)

/-- The column with the key of a relation that the query does not load. -/
def keyColumn (field : Str) : Option ℕ := e.sql >>= fun sql ↦ E.keyColumn sql e.model field

/-- The related objects that `ModelIterable` sets on the instance of a row. -/
def attached (row : List V) (field : Str) : Option V :=
  e.keyColumn field >>= fun column ↦ row[column]? >>= e.known field

/-- The order of the columns that `values_list` requests. -/
def requested : List Str := e.fields ++ e.annotationNames.filter (· ∉ e.fields)

/-- `index_map[name]`: the last column of that name. -/
def position (name : Str) : Option ℕ :=
  if name ∈ e.names then some (e.names.length - 1 - e.names.reverse.idxOf name) else none

/-- The dictionary of `ValuesIterable`. -/
def dictionary (row : List V) (name : Str) : Option V := e.position name >>= fun i ↦ row[i]?

/-- The tuple of `ValuesListIterable`. -/
def reordered (row : List V) : List V :=
  if e.fields = [] ∨ e.requested = e.names then row
  else e.requested.filterMap fun name ↦ e.position name >>= fun i ↦ row[i]?

/-- The names that `NamedValuesListIterable` gives to the entries of a tuple. -/
def rowNames : List Str := if e.fields = [] then e.names else e.fields

/-- The result rows that the iterable class makes of the SQL rows. -/
def rowsOf (rows : List (List V)) : List (Row M V) :=
  match e.iterable with
  | .model => rows.map fun row ↦ .object e.model row (e.attached row)
  | .values => rows.map fun row ↦ .dict (e.dictionary row)
  | .valuesList => rows.map fun row ↦ .tuple (e.reordered row)
  | .namedValuesList => rows.map fun row ↦ .named e.rowNames (e.reordered row)
  | .flatValuesList => rows.filterMap fun row ↦ row.head?.map .scalar
  | .custom _ _ _ convert => convert rows

end ResultQuery

/-- The contents of the databases: the rows of a statement, and what
prefetching loads for result rows. -/
structure Contents (E : Engine M Sql V) where
  rows : Str → Sql → List (List V)
  rows_mem : ∀ db sql, rows db sql ∈ E.results sql
  prefetched : Str → List (PrefetchLookup M) → List (Row M V) → List (Row M V)

variable {E : Engine M Sql V}

/-- The evaluation of a queryset: its rows and what is loaded for them. -/
def ResultQuery.evaluate (e : ResultQuery E) (contents : Contents E) :
    List (Row M V) × List (Row M V) :=
  let rows := e.rowsOf (e.sql.elim [] (contents.rows e.db))
  (rows, contents.prefetched e.db e.prefetchLookups rows)

/-- What `_key_snapshot` reads of a queryset. -/
def ResultQuery.prepare [DecidableEq M] (R : Registry M) (e : ResultQuery E) :
    PreparedQuery (Option Sql × Str × Str) where
  model := R.label e.model
  db := e.db
  sql := (e.sql, e.iterable.shape)
  dependencies := (Dependencies.queryDependencies R e.toQuerySet).map fun deps ↦
    some (deps.models.map R.label, deps.prefetches)

open QuerySetCache Dependencies

/-- The key of a returned snapshot. -/
theorem keySnapshot_key {d : Deployment Sql} {q : PreparedQuery Sql} {snapshot : KeySnapshot}
    (h : (keySnapshot d q : CacheProgram Sql V KeySnapshot).CanEnd (.ok snapshot)) :
    ∃ dependencies generations, q.dependencies = .ok dependencies ∧
      snapshot.key = makeKey d q.db
        ⟨q.model.fullName d.lower, q.sql, (dependencies.getD ([], [])).2, generations⟩ := by
  obtain ⟨dependencies, hdeps, h⟩ := Program.canEnd_bind h
  obtain ⟨generations, -, h⟩ := Program.canEnd_bind h
  exact ⟨dependencies, generations, hdeps, congrArg KeySnapshot.key (Except.ok.inj h).symm⟩

section Accepted

variable {R : Registry M}

/-- The lookups of an accepted queryset are its prefetch paths. -/
theorem prefetchModels_paths {db : Str} {model : M} {lookups : List (PrefetchLookup M)}
    {models : List M} {paths : List Str}
    (h : prefetchModels R db model lookups = .ok (models, paths)) :
    lookups = paths.map .path := by
  induction lookups generalizing models paths with
  | nil =>
      obtain rfl := (Prod.mk.inj (Except.ok.inj h)).2
      rfl
  | cons lookup lookups ih =>
      cases lookup with
      | custom _ => cases h
      | path lookup =>
          simp only [prefetchModels] at h
          split at h
          · cases h
          split at h
          · cases h
          · rename_i others rest hrest
            obtain rfl := (Prod.mk.inj (Except.ok.inj h)).2
            rw [List.map_cons, ← ih hrest]

theorem queryDependencies_paths [DecidableEq M] {qs : QuerySet M} {deps : QueryDependencies M}
    (h : queryDependencies R qs = .ok deps) : qs.prefetchLookups = deps.prefetches.map .path := by
  simp only [queryDependencies, ite_error_eq_ok, bind_eq_ok] at h
  obtain ⟨-, -, seen, -, joined, -, ⟨fetched, paths⟩, hfetched, hdeps⟩ := h
  obtain rfl := Except.ok.inj hdeps
  exact prefetchModels_paths (ite_error_eq_ok.mp hfetched).2

end Accepted

section Conversion

/-- The columns of a `values_list` row in their order. -/
def ResultQuery.order (e : ResultQuery E) : List ℕ :=
  if e.fields = [] ∨ e.requested = e.names then List.range e.names.length
  else e.requested.filterMap e.position

/-- The known objects agree for each key of a relation that a row can have. -/
def KnownAlike (e₁ e₂ : ResultQuery E) : Prop :=
  ∀ field column, e₁.keyColumn field = some column →
    ∀ row, E.Returns e₁.sql row → ∀ key, row[column]? = some key →
      e₁.known field key = e₂.known field key

/-- The queries have the same names, and each name stands for the same column. -/
def NamesAlike (e₁ e₂ : ResultQuery E) : Prop :=
  ∀ name, (name ∈ e₁.names ↔ name ∈ e₂.names) ∧
    ∀ i j, e₁.position name = some i → e₂.position name = some j → E.SameColumn e₁.sql i j

/-- The rows of the two queries have the same columns in the same order. -/
def ColumnsAlike (e₁ e₂ : ResultQuery E) : Prop :=
  List.Forall₂ (E.SameColumn e₁.sql) e₁.order e₂.order

/-- Two querysets over one statement, with iterable classes of one module and
name, agree in what their iterable class reads besides the rows. Where the
statement returns no row there is nothing to agree in. -/
structure ConvertAlike (e₁ e₂ : ResultQuery E) : Prop where
  model : e₁.iterable = .model → (∃ row, E.Returns e₁.sql row) →
    e₁.model = e₂.model ∧ KnownAlike e₁ e₂
  values : e₁.iterable = .values → (∃ row, E.Returns e₁.sql row) → NamesAlike e₁ e₂
  valuesList : e₁.iterable = .valuesList → (∃ row, E.Returns e₁.sql row) → ColumnsAlike e₁ e₂
  named : e₁.iterable = .namedValuesList → (∃ row, E.Returns e₁.sql row) →
    e₁.rowNames = e₂.rowNames ∧ ColumnsAlike e₁ e₂
  custom : ∀ m₁ n₁ h₁ f₁ m₂ n₂ h₂ f₂, e₁.iterable = .custom m₁ n₁ h₁ f₁ →
    e₂.iterable = .custom m₂ n₂ h₂ f₂ → ∀ rows ∈ E.resultsOf e₁.sql, f₁ rows = f₂ rows

theorem ResultQuery.position_lt {e : ResultQuery E} {name : Str} {i : ℕ}
    (h : e.position name = some i) : i < e.names.length := by
  simp only [ResultQuery.position] at h
  split at h
  · rename_i hname
    have hpos := List.length_pos_of_mem hname
    have hi := Option.some.inj h
    omega
  · cases h

theorem ResultQuery.position_eq_none {e : ResultQuery E} {name : Str} :
    e.position name = none ↔ name ∉ e.names := by
  simp [ResultQuery.position]

theorem ResultQuery.lt_of_mem_order {e : ResultQuery E} {i : ℕ} (h : i ∈ e.order) :
    i < e.names.length := by
  simp only [ResultQuery.order] at h
  split at h
  · exact List.mem_range.mp h
  · obtain ⟨name, -, hname⟩ := List.mem_filterMap.mp h
    exact position_lt hname

/-- A row of the statement has a value for each column. -/
theorem ResultQuery.length_of_returns {e : ResultQuery E} {row : List V}
    (h : E.Returns e.sql row) : row.length = e.names.length := by
  obtain ⟨rows, hrows, hrow⟩ := h
  cases hs : e.sql with
  | none =>
      rw [hs] at hrows
      obtain rfl : rows = [] := hrows
      cases hrow
  | some s =>
      rw [hs] at hrows
      rw [E.width s rows hrows row hrow, e.names_length s hs]

theorem filterMap_range_getElem? (row : List V) :
    (List.range row.length).filterMap (fun i ↦ row[i]?) = row := by
  induction row with
  | nil => rfl
  | cons v row ih =>
      rw [List.length_cons, List.range_succ_eq_map, List.filterMap_cons, List.filterMap_map]
      exact congrArg (v :: ·) ih

theorem ResultQuery.reordered_eq {e : ResultQuery E} {row : List V}
    (h : row.length = e.names.length) :
    e.reordered row = e.order.filterMap fun i ↦ row[i]? := by
  simp only [ResultQuery.reordered, ResultQuery.order]
  split
  · rw [← h, filterMap_range_getElem?]
  · rw [List.filterMap_filterMap]
    rfl

/-- Selections of existing entries are equal if they are so entry by entry. -/
theorem filterMap_getElem?_eq_iff {row : List V} {is js : List ℕ}
    (hi : ∀ i ∈ is, i < row.length) (hj : ∀ j ∈ js, j < row.length) :
    (is.filterMap fun i ↦ row[i]?) = (js.filterMap fun j ↦ row[j]?) ↔
      List.Forall₂ (fun i j ↦ row[i]? = row[j]?) is js := by
  have hmap : ∀ l : List ℕ, (∀ i ∈ l, i < row.length) →
      (l.filterMap fun i ↦ row[i]?).map some = l.map fun i ↦ row[i]? := by
    intro l hl
    induction l with
    | nil => rfl
    | cons i l ih =>
        have hsome := List.getElem?_eq_getElem (hl i List.mem_cons_self)
        rw [List.filterMap_cons, hsome, List.map_cons, List.map_cons, hsome,
          ih fun j h ↦ hl j (List.mem_cons_of_mem i h)]
  rw [← (Option.some_injective V).list_map.eq_iff, hmap is hi, hmap js hj,
    ← List.forall₂_eq_eq_eq, List.forall₂_map_left_iff, List.forall₂_map_right_iff]

variable {e₁ e₂ : ResultQuery E}

theorem map_eq_on_results {β : Type} {sql : Option Sql} {f g : List V → β} :
    (∀ rows ∈ E.resultsOf sql, rows.map f = rows.map g) ↔
      ∀ row, E.Returns sql row → f row = g row := by
  constructor
  · rintro h row ⟨rows, hrows, hrow⟩
    exact List.map_inj_left.mp (h rows hrows) row hrow
  · intro h rows hrows
    exact List.map_inj_left.mpr fun row hrow ↦ h row ⟨rows, hrows, hrow⟩

theorem keyColumn_eq (hsql : e₁.sql = e₂.sql) (hmodel : e₁.model = e₂.model) (field : Str) :
    e₁.keyColumn field = e₂.keyColumn field := by
  rw [ResultQuery.keyColumn, ResultQuery.keyColumn, hsql, hmodel]

theorem attached_eq_iff (hsql : e₁.sql = e₂.sql) (hmodel : e₁.model = e₂.model) :
    (∀ row, E.Returns e₁.sql row → e₁.attached row = e₂.attached row) ↔ KnownAlike e₁ e₂ := by
  constructor
  · intro h field column hcolumn row hrow key hkey
    have hfield := congrFun (h row hrow) field
    simpa [ResultQuery.attached, ← keyColumn_eq hsql hmodel, hcolumn, hkey] using hfield
  · intro h row hrow
    funext field
    rw [ResultQuery.attached, ResultQuery.attached, ← keyColumn_eq hsql hmodel]
    cases hcolumn : e₁.keyColumn field with
    | none => rfl
    | some column =>
        cases hkey : row[column]? with
        | none => simp [hkey]
        | some key => simpa [hkey] using h field column hcolumn row hrow key hkey

theorem object_eq_iff (hsql : e₁.sql = e₂.sql) :
    (∀ row, E.Returns e₁.sql row → (.object e₁.model row (e₁.attached row) : Row M V) =
        .object e₂.model row (e₂.attached row)) ↔
      ((∃ row, E.Returns e₁.sql row) → e₁.model = e₂.model ∧ KnownAlike e₁ e₂) := by
  simp only [Row.object.injEq, true_and]
  constructor
  · rintro h ⟨row, hrow⟩
    have hmodel := (h row hrow).1
    exact ⟨hmodel, (attached_eq_iff hsql hmodel).mp fun row hrow ↦ (h row hrow).2⟩
  · intro h row hrow
    obtain ⟨hmodel, hknown⟩ := h ⟨row, hrow⟩
    exact ⟨hmodel, (attached_eq_iff hsql hmodel).mpr hknown row hrow⟩

theorem dictionary_eq_iff (hsql : e₁.sql = e₂.sql) :
    (∀ row, E.Returns e₁.sql row → e₁.dictionary row = e₂.dictionary row) ↔
      ((∃ row, E.Returns e₁.sql row) → NamesAlike e₁ e₂) := by
  have hpresent : ∀ {e : ResultQuery E} {row : List V}, E.Returns e.sql row → ∀ name,
      e.dictionary row name = none ↔ name ∉ e.names := by
    intro e row hrow name
    rw [← ResultQuery.position_eq_none]
    cases hpos : e.position name with
    | none => simp [ResultQuery.dictionary, hpos]
    | some i =>
        have hlt : i < row.length :=
          ResultQuery.length_of_returns hrow ▸ ResultQuery.position_lt hpos
        simp [ResultQuery.dictionary, hpos, hlt]
  constructor
  · rintro h ⟨row, hrow⟩ name
    refine ⟨not_iff_not.mp ?_, fun i j hi hj row hrow ↦ ?_⟩
    · rw [← hpresent hrow, ← hpresent (hsql ▸ hrow), h row hrow]
    · simpa [ResultQuery.dictionary, hi, hj] using congrFun (h row hrow) name
  · intro h row hrow
    funext name
    obtain ⟨hnames, hcolumns⟩ := h ⟨row, hrow⟩ name
    cases hi : e₁.position name with
    | none =>
        have hname := ResultQuery.position_eq_none.mp hi
        rw [(hpresent hrow name).mpr hname,
          (hpresent (hsql ▸ hrow) name).mpr fun hmem ↦ hname (hnames.mpr hmem)]
    | some i =>
        cases hj : e₂.position name with
        | none =>
            have hname := ResultQuery.position_eq_none.mp hj
            rw [(hpresent (hsql ▸ hrow) name).mpr hname,
              (hpresent hrow name).mpr fun hmem ↦ hname (hnames.mp hmem)]
        | some j => simpa [ResultQuery.dictionary, hi, hj] using hcolumns i j hi hj row hrow

theorem reordered_eq_iff (hsql : e₁.sql = e₂.sql) :
    (∀ row, E.Returns e₁.sql row → e₁.reordered row = e₂.reordered row) ↔
      ((∃ row, E.Returns e₁.sql row) → ColumnsAlike e₁ e₂) := by
  have hrow_iff : ∀ row, E.Returns e₁.sql row → (e₁.reordered row = e₂.reordered row ↔
      List.Forall₂ (fun i j ↦ row[i]? = row[j]?) e₁.order e₂.order) := by
    intro row hrow
    have hlen₁ := ResultQuery.length_of_returns hrow
    have hlen₂ := ResultQuery.length_of_returns (hsql ▸ hrow : E.Returns e₂.sql row)
    rw [ResultQuery.reordered_eq hlen₁, ResultQuery.reordered_eq hlen₂]
    exact filterMap_getElem?_eq_iff
      (fun i hi ↦ hlen₁ ▸ ResultQuery.lt_of_mem_order hi)
      (fun j hj ↦ hlen₂ ▸ ResultQuery.lt_of_mem_order hj)
  constructor
  · rintro h ⟨row, hrow⟩
    refine List.forall₂_iff_get.mpr
      ⟨((hrow_iff row hrow).mp (h row hrow)).length_eq, fun k hi hj row hrow ↦ ?_⟩
    exact (List.forall₂_iff_get.mp ((hrow_iff row hrow).mp (h row hrow))).2 k hi hj
  · intro h row hrow
    exact (hrow_iff row hrow).mpr
      (List.Forall₂.imp (fun i j hsame ↦ hsame row hrow) (h ⟨row, hrow⟩))

theorem named_eq_iff (hsql : e₁.sql = e₂.sql) :
    (∀ row, E.Returns e₁.sql row → (.named e₁.rowNames (e₁.reordered row) : Row M V) =
        .named e₂.rowNames (e₂.reordered row)) ↔
      ((∃ row, E.Returns e₁.sql row) → e₁.rowNames = e₂.rowNames ∧ ColumnsAlike e₁ e₂) := by
  simp only [Row.named.injEq]
  constructor
  · rintro h ⟨row, hrow⟩
    exact ⟨(h row hrow).1, (reordered_eq_iff hsql).mp (fun row hrow ↦ (h row hrow).2) ⟨row, hrow⟩⟩
  · intro h row hrow
    obtain ⟨hnames, hcolumns⟩ := h ⟨row, hrow⟩
    exact ⟨hnames, (reordered_eq_iff hsql).mpr (fun _ ↦ hcolumns) row hrow⟩

/-- Iterable classes of one module and name are the same class of Django, or
both classes of somebody else. -/
theorem iterable_of_shape {i j : IterableClass M V} (h : i.shape = j.shape) :
    i = j ∨ ∃ m₁ n₁ h₁ f₁ m₂ n₂ h₂ f₂,
      i = .custom m₁ n₁ h₁ f₁ ∧ j = .custom m₂ n₂ h₂ f₂ := by
  cases i with
  | custom m₁ n₁ h₁ f₁ =>
      cases j with
      | custom m₂ n₂ h₂ f₂ => exact .inr ⟨m₁, n₁, h₁, f₁, m₂, n₂, h₂, f₂, rfl, rfl⟩
      | _ => exact absurd (congrArg Prod.fst h) h₁
  | _ =>
      cases j with
      | custom m₂ n₂ h₂ f₂ => exact absurd (congrArg Prod.fst h).symm h₂
      | _ => first | exact .inl rfl | exact absurd h (by simp [IterableClass.shape])

/-- The conversions agree on all results of the statement if and only if the
querysets convert alike. -/
theorem rowsOf_eq_iff (hsql : e₁.sql = e₂.sql) (hshape : e₁.iterable.shape = e₂.iterable.shape) :
    (∀ rows ∈ E.resultsOf e₁.sql, e₁.rowsOf rows = e₂.rowsOf rows) ↔ ConvertAlike e₁ e₂ := by
  rcases iterable_of_shape hshape with heq | ⟨m₁, n₁, h₁, f₁, m₂, n₂, h₂, f₂, hi, hj⟩
  · cases hi : e₁.iterable with
    | model =>
        simp only [ResultQuery.rowsOf, ← heq, hi]
        rw [map_eq_on_results, object_eq_iff hsql]
        exact ⟨fun h ↦ ⟨fun _ ↦ h, by simp [hi], by simp [hi], by simp [hi], by simp [hi]⟩,
          fun h ↦ h.model hi⟩
    | values =>
        simp only [ResultQuery.rowsOf, ← heq, hi]
        rw [map_eq_on_results]
        simp only [Row.dict.injEq]
        rw [dictionary_eq_iff hsql]
        exact ⟨fun h ↦ ⟨by simp [hi], fun _ ↦ h, by simp [hi], by simp [hi], by simp [hi]⟩,
          fun h ↦ h.values hi⟩
    | valuesList =>
        simp only [ResultQuery.rowsOf, ← heq, hi]
        rw [map_eq_on_results]
        simp only [Row.tuple.injEq]
        rw [reordered_eq_iff hsql]
        exact ⟨fun h ↦ ⟨by simp [hi], by simp [hi], fun _ ↦ h, by simp [hi], by simp [hi]⟩,
          fun h ↦ h.valuesList hi⟩
    | namedValuesList =>
        simp only [ResultQuery.rowsOf, ← heq, hi]
        rw [map_eq_on_results, named_eq_iff hsql]
        exact ⟨fun h ↦ ⟨by simp [hi], by simp [hi], by simp [hi], fun _ ↦ h, by simp [hi]⟩,
          fun h ↦ h.named hi⟩
    | flatValuesList =>
        simp only [ResultQuery.rowsOf, ← heq, hi]
        exact ⟨fun _ ↦ ⟨by simp [hi], by simp [hi], by simp [hi], by simp [hi], by simp [hi]⟩,
          fun _ _ _ ↦ trivial⟩
    | custom m n h f =>
        simp only [ResultQuery.rowsOf, ← heq, hi]
        refine ⟨fun _ ↦ ⟨by simp [hi], by simp [hi], by simp [hi], by simp [hi], ?_⟩,
          fun _ _ _ ↦ trivial⟩
        intro m₁ n₁ h₁ f₁ m₂ n₂ h₂ f₂ he₁ he₂ rows hrows
        have hsame := he₁.symm.trans (heq.trans he₂)
        cases hsame
        rfl
  · simp only [ResultQuery.rowsOf, hi, hj]
    constructor
    · intro h
      refine ⟨by simp [hi], by simp [hi], by simp [hi], by simp [hi], ?_⟩
      intro _ _ _ _ _ _ _ _ he₁ he₂ rows hrows
      obtain ⟨rfl, rfl, rfl⟩ := IterableClass.custom.inj (hi.symm.trans he₁)
      obtain ⟨rfl, rfl, rfl⟩ := IterableClass.custom.inj (hj.symm.trans he₂)
      exact h rows hrows
    · intro h rows hrows
      exact h.custom m₁ n₁ h₁ f₁ m₂ n₂ h₂ f₂ hi hj rows hrows

end Conversion

section Identity

variable [DecidableEq M] {R : Registry M} {d : Deployment (Option Sql × Str × Str)}
variable {e₁ e₂ : ResultQuery E} {s₁ s₂ : KeySnapshot}

/-- Equal keys come from equal databases, statements, prefetch lookups and
names of the iterable class. -/
theorem equal_of_key (hd : d.KeyFaithful) (hdb : Function.Injective d.databaseDigest)
    (h₁ : (keySnapshot d (e₁.prepare R) : CacheProgram _ V _).CanEnd (.ok s₁))
    (h₂ : (keySnapshot d (e₂.prepare R) : CacheProgram _ V _).CanEnd (.ok s₂))
    (hkey : s₁.key = s₂.key) :
    e₁.db = e₂.db ∧ e₁.sql = e₂.sql ∧ e₁.prefetchLookups = e₂.prefetchLookups ∧
      e₁.iterable.shape = e₂.iterable.shape := by
  have haccepted : ∀ {e : ResultQuery E} {s : KeySnapshot},
      (keySnapshot d (e.prepare R) : CacheProgram _ V _).CanEnd (.ok s) →
      ∃ paths generations, e.prefetchLookups = paths.map .path ∧
        s.key = makeKey d e.db
          ⟨(R.label e.model).fullName d.lower, (e.sql, e.iterable.shape), paths,
          generations⟩ := by
    intro e s h
    obtain ⟨dependencies, generations, hdeps, hs⟩ := keySnapshot_key h
    cases hq : queryDependencies R e.toQuerySet with
    | error x => simp [ResultQuery.prepare, hq, Except.map] at hdeps
    | ok deps =>
        have hsome : dependencies = some (deps.models.map R.label, deps.prefetches) := by
          simpa [ResultQuery.prepare, hq, Except.map] using hdeps.symm
        subst hsome
        exact ⟨deps.prefetches, generations, queryDependencies_paths hq, hs⟩
  obtain ⟨paths₁, g₁, hpaths₁, hs₁⟩ := haccepted h₁
  obtain ⟨paths₂, g₂, hpaths₂, hs₂⟩ := haccepted h₂
  have hsame := hs₁.symm.trans (hkey.trans hs₂)
  have hparts := makeKey_parts hd hsame
  simp only [KeyParts.mk.injEq, Prod.mk.injEq] at hparts
  obtain ⟨-, ⟨hsql, hshape⟩, rfl, -⟩ := hparts
  exact ⟨makeKey_db hd hdb hsame, hsql, hpaths₁.trans hpaths₂.symm, hshape⟩

omit [DecidableEq M] in
/-- Some contents let the statement return any of its results. -/
theorem exists_contents (sql : Option Sql) {rows : List (List V)} (h : rows ∈ E.resultsOf sql) :
    ∃ contents : Contents E, ∀ db, sql.elim [] (contents.rows db) = rows := by
  classical
  cases sql with
  | none =>
      choose other hother using E.result_exists
      exact ⟨⟨fun _ ↦ other, fun _ ↦ hother, fun _ _ _ ↦ []⟩, fun _ ↦ h.symm⟩
  | some sql =>
      choose other hother using E.result_exists
      refine ⟨⟨fun _ s ↦ if s = sql then rows else other s, fun _ s ↦ ?_, fun _ _ _ ↦ []⟩,
        fun _ ↦ if_pos rfl⟩
      by_cases hs : s = sql
      · rw [if_pos hs, hs]
        exact h
      · rw [if_neg hs]
        exact hother s

/-- Querysets with equal keys have equal results on all contents if and only
if they convert the rows of their statement alike. -/
theorem query_identity (hd : d.KeyFaithful) (hdb : Function.Injective d.databaseDigest)
    (h₁ : (keySnapshot d (e₁.prepare R) : CacheProgram _ V _).CanEnd (.ok s₁))
    (h₂ : (keySnapshot d (e₂.prepare R) : CacheProgram _ V _).CanEnd (.ok s₂))
    (hkey : s₁.key = s₂.key) :
    (∀ contents : Contents E, e₁.evaluate contents = e₂.evaluate contents) ↔
      ConvertAlike e₁ e₂ := by
  obtain ⟨hdbs, hsql, hlookups, hshape⟩ := equal_of_key hd hdb h₁ h₂ hkey
  rw [← rowsOf_eq_iff hsql hshape]
  constructor
  · intro heval rows hrows
    obtain ⟨contents, hcontents⟩ := exists_contents e₁.sql hrows
    have hfirst := congrArg Prod.fst (heval contents)
    simpa only [ResultQuery.evaluate, ← hsql, hcontents] using hfirst
  · intro hrows contents
    have hmem : e₁.sql.elim [] (contents.rows e₁.db) ∈ E.resultsOf e₁.sql := by
      cases e₁.sql with
      | none => exact Set.mem_singleton _
      | some sql => exact contents.rows_mem e₁.db sql
    have hsame : e₁.rowsOf (e₁.sql.elim [] (contents.rows e₁.db)) =
        e₂.rowsOf (e₂.sql.elim [] (contents.rows e₂.db)) := by
      rw [← hdbs, ← hsql]
      exact hrows _ hmem
    simp only [ResultQuery.evaluate, hsame]
    rw [hdbs, hlookups]

end Identity

section Sample

/-! Querysets over one statement that differ in `_fields`. -/

open PrefixCode in
def statementCode : Option Str × Str × Str → Str :=
  pair (list text ∘ Option.toList) (pair text text)

open PrefixCode in
theorem prefixFree_statementCode : PrefixFree statementCode := by
  have hsome : Function.Injective (Option.toList : Option Str → List Str) := by
    intro a b h
    cases a <;> cases b <;> simp_all
  exact prefixFree_pair ((prefixFree_list prefixFree_text).comp hsome)
    (prefixFree_pair prefixFree_text prefixFree_text)

def statementDeployment : Deployment (Option Str × Str × Str) where
  generation := false
  batch := false
  readMany := false
  returnsDetached := .ok true
  storesDetached := .ok true
  lower := id
  databaseDigest := escapedDigest
  queryDigest := plainDigest statementCode

theorem statementDeployment_faithful : statementDeployment.KeyFaithful where
  query := plainDigest_injective prefixFree_statementCode
  database := separator_not_mem_escapedDigest

/-- Statements with two columns; those of the statement `w` are the same column. -/
def pairs : Engine Press Str ℕ where
  results sql := {rows | ∀ row ∈ rows, row.length = 2 ∧ (sql = ['w'] → row[0]? = row[1]?)}
  columns _ := 2
  keyColumn _ _ _ := none
  result_exists _ := ⟨[], by simp⟩
  width _ _ hrows row hrow := (hrows row hrow).1

/-- One row for each statement. -/
def pairRows : Contents pairs where
  rows _ sql := if sql = ['w'] then [[1, 1]] else [[1, 2]]
  rows_mem _ sql := by
    by_cases hsql : sql = ['w'] <;> simp [pairs, hsql]
  prefetched _ _ _ := []

/-- A queryset of articles over a statement with two columns. -/
def columnPair (sql : Str) (iterable : IterableClass Press ℕ) (fields : List Str)
    (names : List Str) (hnames : names.length = 2) (annotationNames : List Str) :
    ResultQuery pairs where
  toQuerySet := plainQuery .article [['a', 'r']] []
  sql := some sql
  iterable := iterable
  fields := fields
  names := names
  annotationNames := annotationNames
  known _ _ := none
  names_length _ _ := hnames

theorem columnPair_snapshot (sql : Str) (iterable : IterableClass Press ℕ) (fields : List Str)
    (names : List Str) (hnames : names.length = 2) (annotationNames : List Str) :
    ∃ s, s.key = makeKey statementDeployment ['d'] ⟨['p', '.', 'a', 'r'],
        (some sql, iterable.shape), [], []⟩ ∧
      (keySnapshot statementDeployment
        ((columnPair sql iterable fields names hnames annotationNames).prepare press) :
        CacheProgram _ ℕ _).CanEnd (.ok s) :=
  ⟨_, rfl, rfl⟩

/-- `values("author", "author_id")`, and the names the other way round. -/
def keyValues (names : List Str) (hnames : names.length = 2) : ResultQuery pairs :=
  columnPair ['w'] .values names names hnames []

theorem query_identity_sample :
    (keyValues [['a'], ['i']] rfl).evaluate pairRows =
      (keyValues [['i'], ['a']] rfl).evaluate pairRows := by
  obtain ⟨s₁, hkey₁, h₁⟩ := columnPair_snapshot ['w'] .values [['a'], ['i']] [['a'], ['i']] rfl []
  obtain ⟨s₂, hkey₂, h₂⟩ := columnPair_snapshot ['w'] .values [['i'], ['a']] [['i'], ['a']] rfl []
  have hcolumn : ∀ i < 2, ∀ j < 2, pairs.SameColumn (some ['w']) i j := by
    rintro i hi j hj row ⟨rows, hrows, hrow⟩
    have hsame := (hrows row hrow).2 rfl
    obtain rfl | rfl : i = 0 ∨ i = 1 := by omega
    all_goals obtain rfl | rfl : j = 0 ∨ j = 1 := by omega
    exacts [rfl, hsame, hsame.symm, rfl]
  have halike : ConvertAlike (keyValues [['a'], ['i']] rfl) (keyValues [['i'], ['a']] rfl) := by
    refine ⟨by simp [keyValues, columnPair], fun _ _ name ↦ ⟨?_, fun i j hi hj ↦ ?_⟩,
      by simp [keyValues, columnPair], by simp [keyValues, columnPair],
      by simp [keyValues, columnPair]⟩
    · simp only [keyValues, columnPair, List.mem_cons, List.not_mem_nil, or_false]
      exact or_comm
    · exact hcolumn i (ResultQuery.position_lt hi) j (ResultQuery.position_lt hj)
  exact (query_identity statementDeployment_faithful escapedDigest_injective h₁ h₂
    (hkey₁.trans hkey₂.symm)).mpr halike pairRows

/-- A title and an annotated number, requested as `fields`. -/
def titles (fields : List Str) : ResultQuery pairs :=
  columnPair ['q'] .valuesList fields [['t'], ['n']] rfl [['n']]

/-- The two orders of the fields share a key, but not their results. -/
theorem query_identity_fails :
    ∃ s₁ s₂, (keySnapshot statementDeployment ((titles [['t'], ['n']]).prepare press) :
        CacheProgram _ ℕ _).CanEnd (.ok s₁) ∧
      (keySnapshot statementDeployment ((titles [['n'], ['t']]).prepare press) :
        CacheProgram _ ℕ _).CanEnd (.ok s₂) ∧ s₁.key = s₂.key ∧
      ∃ contents : Contents pairs,
        (titles [['t'], ['n']]).evaluate contents ≠ (titles [['n'], ['t']]).evaluate contents := by
  obtain ⟨s₁, hkey₁, h₁⟩ :=
    columnPair_snapshot ['q'] .valuesList [['t'], ['n']] [['t'], ['n']] rfl [['n']]
  obtain ⟨s₂, hkey₂, h₂⟩ :=
    columnPair_snapshot ['q'] .valuesList [['n'], ['t']] [['t'], ['n']] rfl [['n']]
  refine ⟨s₁, s₂, h₁, h₂, hkey₁.trans hkey₂.symm, pairRows, fun heval ↦ ?_⟩
  have hrows : [Row.tuple [1, 2]] = [(Row.tuple [2, 1] : Row Press ℕ)] := congrArg Prod.fst heval
  simp at hrows

end Sample

end DjangoNova
