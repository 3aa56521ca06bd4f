import DjangoNova.Text.Str

/-!
# Concrete fields

What the planner and the serializer read of a concrete field of a Django
model.
-/

namespace DjangoNova

structure ConcreteField where
  name : Str
  attname : Str
  isRelation : Bool
  /-- `isinstance(field, models.FileField)` -/
  isFile : Bool
  deriving DecidableEq

end DjangoNova
