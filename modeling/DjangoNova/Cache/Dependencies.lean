import Mathlib.Data.Finset.Insert
import Mathlib.Data.List.Sort
import DjangoNova.Django.Registry

/-!
# The dependencies of a query

`query_dependencies` collects the models whose tables a compiled query
joins or prefetches, and refuses query plans that it cannot follow. An
expression keeps the children that `get_source_expressions` returns apart
from the operands that the compiler reads but that call leaves out, such
as the elements of a list on the right of an `in` lookup.
-/

namespace DjangoNova

/-- The classes that `_check_expression` tells apart. -/
inductive ExpressionKind where
  | rawSQL
  | subquery
  | query
  | extraWhere
  | other
  deriving DecidableEq

/-- An object of a query plan: its identity, the models whose tables its
own SQL names, its source expressions and its further operands. -/
inductive Expression (M : Type) where
  | node (identity : ℕ) (kind : ExpressionKind) (tables : List M)
      (sources operands : List (Expression M))

namespace Expression

variable {M : Type}

def identity : Expression M → ℕ
  | .node identity _ _ _ _ => identity

def kind : Expression M → ExpressionKind
  | .node _ kind _ _ _ => kind

def tables : Expression M → List M
  | .node _ _ tables _ _ => tables

def sources : Expression M → List (Expression M)
  | .node _ _ _ sources _ => sources

def operands : Expression M → List (Expression M)
  | .node _ _ _ _ operands => operands

/-- The expressions and what their source expressions lead to. -/
inductive Exposes (es : List (Expression M)) : Expression M → Prop
  | root {e : Expression M} : e ∈ es → Exposes es e
  | source {e c : Expression M} : Exposes es e → c ∈ e.sources → Exposes es c

end Expression

/-- An entry of `alias_map`, with the ON condition of a `FilteredRelation`. -/
structure Join (M : Type) where
  tableName : Str
  condition : List (Expression M)

/-- A prefetch path, or a `Prefetch` object with the models that it reads. -/
inductive PrefetchLookup (M : Type) where
  | path (lookup : Str)
  | custom (models : List M)

/-- A pinned queryset whose SQL has been compiled. -/
structure QuerySet (M : Type) where
  model : M
  db : Str
  extra : Bool
  extraTables : Bool
  combinedQueries : Bool
  selectForUpdate : Bool
  whereNode : Expression M
  annotations : List (Expression M)
  select : List (Expression M)
  orderBy : List (Expression M)
  /-- The elements of `group_by`, where it is a sequence. -/
  groupBy : List (Expression M)
  /-- The expressions of the model's `Meta.ordering` that the compiler
  uses when the query has no order of its own. -/
  defaultOrder : List (Expression M)
  aliasMap : List (Join M)
  prefetchLookups : List (PrefetchLookup M)
  /-- The models of the instances in `_known_related_objects`. -/
  knownRelated : List M
  /-- An identity belongs to one object. -/
  coherent : ∀ x y : Expression M,
    Expression.Exposes (whereNode :: annotations ++ select ++ orderBy ++ groupBy) x →
    Expression.Exposes (whereNode :: annotations ++ select ++ orderBy ++ groupBy) y →
    x.identity = y.identity → x = y

structure QueryDependencies (M : Type) where
  models : List M
  prefetches : List Str

namespace Dependencies

variable {M : Type}

mutual

/-- `_check_expression`: the identities seen so far, or a refusal. -/
def checkExpression : Expression M → Finset ℕ → Except CacheError (Finset ℕ)
  | .node identity kind _ sources _, seen =>
      if identity ∈ seen then .ok seen
      else if kind = .other then checkExpressions sources (insert identity seen)
      else .error .uncacheableQuery

def checkExpressions : List (Expression M) → Finset ℕ → Except CacheError (Finset ℕ)
  | [], seen => .ok seen
  | e :: es, seen =>
      match checkExpression e seen with
      | .ok seen => checkExpressions es seen
      | .error x => .error x

end

variable (R : Registry M)

/-- `_relation_field`. -/
def relationField (m : M) (part : Str) : Except CacheError (ModelField M) :=
  match R.getField m part with
  | some r => .ok r
  | none =>
      match (R.fields m).find? fun r ↦ !r.hidden && r.accessor == some part with
      | some r => .ok r
      | none => .error .uncacheableQuery

/-- `_ordinary_related_managers`. -/
def ordinaryRelatedManagers (m : M) (db : Str) : Bool :=
  !R.proxy m && (R.managers m).all fun manager ↦
    (manager.db == none || manager.db == some db) && manager.knownType && manager.knownQuerySet

/-- The models along a prefetch path, in the order of their assignment. -/
def pathModels (db : Str) (current : M) : List Str → Except CacheError (List M)
  | [] => .ok []
  | part :: parts =>
      match relationField R current part with
      | .error x => .error x
      | .ok relation =>
          match relation.relatedModel with
          | none => .error .uncacheableQuery
          | some target =>
              if ordinaryRelatedManagers R target db then
                match pathModels db target parts with
                | .error x => .error x
                | .ok rest => .ok (relation.through.toList ++ target :: rest)
              else .error .uncacheableQuery

/-- `lookup.split("__")`. -/
def splitPath : Str → List Str
  | [] => [[]]
  | '_' :: '_' :: rest => [] :: splitPath rest
  | c :: rest =>
      match splitPath rest with
      | [] => [[c]]
      | part :: parts => (c :: part) :: parts

/-- The loop over the prefetch lookups: the models, and the paths. -/
def prefetchModels (db : Str) (model : M) :
    List (PrefetchLookup M) → Except CacheError (List M × List Str)
  | [] => .ok ([], [])
  | .custom _ :: _ => .error .uncacheableQuery
  | .path lookup :: rest =>
      match pathModels R db model (splitPath lookup) with
      | .error x => .error x
      | .ok models =>
          match prefetchModels db model rest with
          | .error x => .error x
          | .ok (others, paths) => .ok (models ++ others, lookup :: paths)

/-- The candidates of `tables` for the name of a joined table. -/
def tableModels [DecidableEq M] (model : M) (tableName : Str) : List M :=
  (R.installed ++ [model]).filter fun m ↦ R.table m = tableName

/-- The loop over `alias_map`: the models, in the order of their assignment. -/
def joinModels [DecidableEq M] (model : M) : List (Join M) → Except CacheError (List M)
  | [] => .ok []
  | join :: joins =>
      let candidates := tableModels R model join.tableName
      if candidates = [] then .error .uncacheableQuery
      else if candidates.any R.proxy then .error .uncacheableQuery
      else
        match joinModels model joins with
        | .error x => .error x
        | .ok rest => .ok (candidates ++ rest)

/-- `models[label] = m` on the dictionary of the collected models. -/
def assign (models : List (Str × M)) (m : M) : List (Str × M) :=
  models.filter (fun entry ↦ entry.1 != R.labelLower m) ++ [(R.labelLower m, m)]

/-- `tuple(models[label] for label in sorted(models))`. -/
def sortedModels (models : List (Str × M)) : List M :=
  (models.insertionSort fun a b ↦ Str.le a.1 b.1).map Prod.snd

/-- The expressions that `query_dependencies` checks. -/
def checked (qs : QuerySet M) : List (Expression M) :=
  qs.whereNode :: qs.annotations ++ qs.select ++ qs.orderBy ++ qs.groupBy

/-- The models and paths of all prefetch lookups, unless a router may
choose another database for them. -/
def prefetchPlan (qs : QuerySet M) : Except CacheError (List M × List Str) :=
  if qs.prefetchLookups ≠ [] ∧ R.routers = true then .error .uncacheableQuery
  else prefetchModels R qs.db qs.model qs.prefetchLookups

/-- `query_dependencies` for a `QuerySet`. -/
def queryDependencies [DecidableEq M] (qs : QuerySet M) :
    Except CacheError (QueryDependencies M) :=
  if qs.extra || qs.extraTables || qs.combinedQueries || qs.selectForUpdate then
    .error .uncacheableQuery
  else if R.proxy qs.model then .error .uncacheableQuery
  else do
    let _ ← checkExpressions (checked qs) ∅
    let joined ← joinModels R qs.model qs.aliasMap
    let (prefetched, prefetches) ← prefetchPlan R qs
    return ⟨sortedModels ((qs.model :: joined ++ prefetched).foldl (assign R) []), prefetches⟩

end Dependencies

end DjangoNova
