import DjangoNova.Collections.OrderedDict
import DjangoNova.Text.Str

/-!
# Pydantic schemas

The annotations of the fields of a schema, as far as the program takes
them apart, and the two ways in which it looks for a schema in them. `S`
is the type of the schema classes.
-/

namespace DjangoNova

/-- The classes that an annotation can be. -/
inductive PyClass (S : Type) where
  | schema (s : S)
  | noneType
  | plain
  deriving DecidableEq

/-- A field annotation, by `get_origin` and `get_args`. A collection is a
generic `list`, `Container` or `Iterable`. -/
inductive AnnotationExpr (S : Type) where
  | missing
  | type (c : PyClass S)
  | union (args : List (AnnotationExpr S))
  | collection (args : List (AnnotationExpr S))
  | generic

structure SchemaGraph (S : Type) where
  modelFields : S → OrderedDict Str (AnnotationExpr S)

namespace AnnotationExpr

variable {S : Type}

/-- `annotation is type(None)` -/
def isNoneType : AnnotationExpr S → Bool
  | .type .noneType => true
  | _ => false

mutual

/-- `_unwrap_core_type` -/
def unwrapCoreType : AnnotationExpr S → Option (PyClass S)
  | .missing | .collection _ | .generic => none
  | .union args => unwrapMembers args
  | .type c => some c

/-- The first schema among the members of a union. -/
def unwrapMembers : List (AnnotationExpr S) → Option (PyClass S)
  | [] => none
  | arg :: rest =>
      if arg.isNoneType then unwrapMembers rest
      else match unwrapCoreType arg with
        | some (.schema s) => some (.schema s)
        | _ => unwrapMembers rest

end

mutual

/-- `_get_nested_schema` -/
def getNestedSchema : AnnotationExpr S → Option S
  | .type (.schema s) => some s
  | .union args => nestedMember args
  | _ => none

/-- The schema of the only member of a union besides `NoneType`. -/
def nestedMember : List (AnnotationExpr S) → Option S
  | [] => none
  | arg :: rest =>
      if arg.isNoneType then nestedMember rest
      else if rest.all isNoneType then getNestedSchema arg else none

end

/-- A nested annotation, or an optional one: a schema, or a union of one such
annotation with `None`. -/
inductive Nests : AnnotationExpr S → S → Prop
  | schema (s : S) : Nests (.type (.schema s)) s
  | optional {before after : List (AnnotationExpr S)} {arg : AnnotationExpr S} {s : S} :
      (∀ a ∈ before ++ after, a = .type .noneType) → Nests arg s →
      Nests (.union (before ++ arg :: after)) s

theorem isNoneType_iff {a : AnnotationExpr S} : a.isNoneType = true ↔ a = .type .noneType := by
  cases a with
  | type c => cases c <;> simp [isNoneType]
  | _ => simp [isNoneType]

theorem not_isNoneType_of_nests {a : AnnotationExpr S} {s : S} (h : a.Nests s) :
    a.isNoneType = false := by
  cases h <;> rfl

/-- `nestedMember` passes over `None`. -/
theorem nestedMember_append {before args : List (AnnotationExpr S)}
    (h : ∀ a ∈ before, a = .type .noneType) :
    nestedMember (before ++ args) = nestedMember args := by
  induction before with
  | nil => rfl
  | cons a before ih =>
      have ha : a.isNoneType = true := isNoneType_iff.mpr (h a List.mem_cons_self)
      rw [List.cons_append, nestedMember, if_pos ha]
      exact ih fun x hx ↦ h x (List.mem_cons_of_mem a hx)

theorem getNestedSchema_of_nests {a : AnnotationExpr S} {s : S} (h : a.Nests s) :
    a.getNestedSchema = some s := by
  induction h with
  | schema s => rfl
  | @optional before after arg s hnone harg ih =>
      have hbefore : ∀ a ∈ before, a = .type .noneType := fun a ha ↦
        hnone a (List.mem_append_left after ha)
      have hafter : after.all isNoneType = true := List.all_eq_true.mpr fun a ha ↦
        isNoneType_iff.mpr (hnone a (List.mem_append_right before ha))
      rw [getNestedSchema, nestedMember_append hbefore, nestedMember,
        if_neg (by simp [not_isNoneType_of_nests harg]), if_pos hafter, ih]

mutual

theorem nests_of_getNestedSchema {s : S} (a : AnnotationExpr S)
    (h : a.getNestedSchema = some s) : a.Nests s := by
  cases a with
  | type c =>
      cases c with
      | schema t =>
          obtain rfl := Option.some.inj h
          exact .schema t
      | noneType => simp [getNestedSchema] at h
      | plain => simp [getNestedSchema] at h
  | union args =>
      obtain ⟨before, arg, after, rfl, hnone, harg⟩ := nests_of_nestedMember args h
      exact .optional hnone harg
  | missing => simp [getNestedSchema] at h
  | collection args => simp [getNestedSchema] at h
  | generic => simp [getNestedSchema] at h

theorem nests_of_nestedMember {s : S} (args : List (AnnotationExpr S))
    (h : nestedMember args = some s) :
    ∃ before arg after, args = before ++ arg :: after ∧
      (∀ a ∈ before ++ after, a = .type .noneType) ∧ Nests arg s := by
  cases args with
  | nil => simp [nestedMember] at h
  | cons arg rest =>
      rw [nestedMember] at h
      split at h
      next hnone =>
        obtain ⟨before, member, after, rfl, hrest, hmember⟩ := nests_of_nestedMember rest h
        refine ⟨arg :: before, member, after, rfl, fun a ha ↦ ?_, hmember⟩
        rcases List.mem_cons.mp ha with rfl | ha
        · exact isNoneType_iff.mp hnone
        · exact hrest a ha
      next hsome =>
        obtain ⟨hrest, h⟩ := Option.ite_none_right_eq_some.mp h
        refine ⟨[], arg, rest, rfl, fun a ha ↦ ?_, nests_of_getNestedSchema arg h⟩
        exact isNoneType_iff.mp (List.all_eq_true.mp hrest a ha)

end

/-- The serializer finds a schema in the nested and the optional nested
annotations, and in no others. -/
theorem getNestedSchema_eq_some {a : AnnotationExpr S} {s : S} :
    a.getNestedSchema = some s ↔ a.Nests s :=
  ⟨nests_of_getNestedSchema a, getNestedSchema_of_nests⟩

/-- The schema to which a field resolves. -/
def resolvedSchema (a : AnnotationExpr S) : Option S :=
  match unwrapCoreType a with
  | some (.schema s) => some s
  | _ => none

/-- The schema of the items of a collection. -/
def itemSchema : AnnotationExpr S → Option S
  | .collection (arg :: _) => arg.resolvedSchema
  | _ => none

def isCollection : AnnotationExpr S → Bool
  | .collection _ => true
  | _ => false

variable {r : S}

mutual

/-- A schema that the serializer finds in an annotation is the one that the
analyzer finds. -/
theorem unwrapCoreType_of_nested (a : AnnotationExpr S) (h : a.getNestedSchema = some r) :
    a.unwrapCoreType = some (.schema r) := by
  cases a with
  | type c =>
      cases c with
      | schema s =>
          rw [getNestedSchema, Option.some.injEq] at h
          rw [unwrapCoreType, h]
      | noneType => simp [getNestedSchema] at h
      | plain => simp [getNestedSchema] at h
  | union args =>
      rw [getNestedSchema] at h
      rw [unwrapCoreType]
      exact unwrapMembers_of_nested args h
  | missing => simp [getNestedSchema] at h
  | collection args => simp [getNestedSchema] at h
  | generic => simp [getNestedSchema] at h

theorem unwrapMembers_of_nested (args : List (AnnotationExpr S)) (h : nestedMember args = some r) :
    unwrapMembers args = some (.schema r) := by
  cases args with
  | nil => simp [nestedMember] at h
  | cons a rest =>
      rw [nestedMember] at h
      rw [unwrapMembers]
      split at h
      next hnone =>
        rw [if_pos hnone]
        exact unwrapMembers_of_nested rest h
      next hsome =>
        rw [if_neg hsome]
        obtain ⟨-, h⟩ := Option.ite_none_right_eq_some.mp h
        rw [unwrapCoreType_of_nested a h]

end

theorem resolvedSchema_of_nested {a : AnnotationExpr S} (h : a.getNestedSchema = some r) :
    a.resolvedSchema = some r := by
  rw [resolvedSchema, unwrapCoreType_of_nested a h]

end AnnotationExpr

end DjangoNova
