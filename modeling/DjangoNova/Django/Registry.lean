import Mathlib.Logic.Relation
import DjangoNova.Cache.State

/-!
# The model registry

What the cache reads of Django's model classes. `M` is the type of the
model classes of one app registry. The laws of a registry are those of
Django: `get_field` finds fields of the model, the link to a parent is a
field of the child, and a deletion cascades along relations.
-/

namespace DjangoNova

/-- An entry of `_meta.get_fields(include_hidden=True)`. -/
structure ModelField (M : Type) where
  hidden : Bool
  /-- The result of `get_accessor_name`, for reverse relations. -/
  accessor : Option Str
  relatedModel : Option M
  through : Option M

/-- What `_ordinary_related_managers` reads of a manager. -/
structure Manager where
  db : Option Str
  knownType : Bool
  knownQuerySet : Bool

structure Registry (M : Type) where
  label : M → ModelLabel
  /-- Labels are identifiers. -/
  label_clean : ∀ m, (label m).modelName ≠ [] ∧ '.' ∉ (label m).modelName ∧
    (∀ c ∈ (label m).appLabel, Str.isSpace c = false) ∧
    ∀ c ∈ (label m).modelName, Str.isSpace c = false
  /-- `_nova_config.cache_enabled`; false for a model without configuration. -/
  cacheEnabled : M → Bool
  table : M → Str
  proxy : M → Bool
  autoCreated : M → Bool
  /-- `_base_manager` and `_default_manager`. -/
  managers : M → List Manager
  fields : M → List (ModelField M)
  /-- `_meta.get_field`. -/
  getField : M → Str → Option (ModelField M)
  getField_mem : ∀ m part r, getField m part = some r → r ∈ fields m
  /-- `apps.get_models(include_auto_created=True)`. -/
  installed : List M
  /-- Whether database routers are configured. -/
  routers : Bool
  /-- The multi-table-inheritance parents. -/
  parents : M → List M
  parent_related : ∀ m, ∀ p ∈ parents m, ∃ r ∈ fields m, r.relatedModel = some p
  /-- The models whose rows are deleted along with a row they refer to. -/
  cascades : M → List M
  cascade_related : ∀ m, ∀ c ∈ cascades m, ∃ r ∈ fields m, r.relatedModel = some c
  /-- The other models whose tables the plain query of a model reads, for
  its inherited columns and its default order. -/
  plainReads : M → List M

namespace Registry

variable {M : Type} (R : Registry M)

/-- `_meta.label_lower`. -/
def labelLower (m : M) : Str := (R.label m).appLabel ++ '.' :: (R.label m).modelName

/-- The models that a relation leads to. -/
def targets (r : ModelField M) : List M := r.relatedModel.toList ++ r.through.toList

def neighbours (m : M) : List M := (R.fields m).flatMap targets

/-- The models of the relation component of a model. -/
def Connected : M → M → Prop := Relation.ReflTransGen fun m n ↦ n ∈ R.neighbours m

end Registry

end DjangoNova
