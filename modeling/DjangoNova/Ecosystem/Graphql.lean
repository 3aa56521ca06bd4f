import Mathlib.Data.Finset.Card
import Mathlib.Data.List.Forall2
import Mathlib.Logic.Function.Basic
import Mathlib.Logic.Relation
import DjangoNova.Collections.OrderedDict
import DjangoNova.Text.Str

/-!
# The GraphQL projection

`to_strawberry_type` compiles a Pydantic schema and all schemas below it
into GraphQL types. A type is created, and put into the cache, before the
fields of its schema are compiled, so that its number stands for it in the
annotations of all other types.
-/

namespace DjangoNova

/-- The keys of `_SCALAR_MAP`, which maps each of them to itself. -/
inductive GraphqlScalar where
  | str
  | int
  | float
  | bool
  deriving DecidableEq

/-- A Pydantic annotation, by `get_origin` and `get_args`; `other` is any
class or generic that the compiler does not know. -/
inductive PydanticAnnotationExpr (S : Type) where
  | scalar (s : GraphqlScalar)
  | schema (s : S)
  | noneType
  | ellipsis
  | union (args : List (PydanticAnnotationExpr S))
  | list (args : List (PydanticAnnotationExpr S))
  | tuple (args : List (PydanticAnnotationExpr S))
  | other (text : Str)

namespace PydanticAnnotationExpr

variable {S : Type}

/-- `argument is type(None)` -/
def isNoneType : PydanticAnnotationExpr S → Bool
  | .noneType => true
  | _ => false

end PydanticAnnotationExpr

/-- The schema classes `S`, with `repr` of annotations. -/
structure PydanticSchemas (S : Type) where
  name : S → Str
  modelFields : S → OrderedDict Str (PydanticAnnotationExpr S)
  repr : PydanticAnnotationExpr S → Str

/-- A Strawberry annotation; generated types are named by their numbers. -/
inductive GraphqlAnnotationExpr where
  | scalar (s : GraphqlScalar)
  | type (id : ℕ)
  | optional (inner : GraphqlAnnotationExpr)
  | list (inner : GraphqlAnnotationExpr)
  deriving DecidableEq

/-- A generated class. It has no annotations as long as it is a placeholder. -/
structure GraphqlType (S : Type) where
  schema : S
  typeName : Str
  annotations : Option (List (Str × GraphqlAnnotationExpr))
  /-- `strawberry.type` has decorated it -/
  decorated : Bool

/-- All generated classes, in the order of their creation, and the cache. -/
structure Compilation (S : Type) where
  types : List (GraphqlType S)
  cache : S → Option ℕ

inductive GraphqlError where
  | typeError (message : Str)
  | importError (message : Str)
  deriving DecidableEq

namespace Graphql

variable {S : Type}

/-- A computation on the compilation, of bounded depth; the compilation stays
as it is when an exception is raised. -/
abbrev Compiled (S α : Type) : Type := Option (Except GraphqlError α × Compilation S)

section Code

variable (P : PydanticSchemas S) (available : Bool)

def unsupported (ann : PydanticAnnotationExpr S) : GraphqlError :=
  .typeError ("Unsupported Pydantic annotation for GraphQL projection: ".toList ++ P.repr ann)

def emptyUnion (ann : PydanticAnnotationExpr S) : GraphqlError :=
  .typeError ("Unsupported empty union annotation: ".toList ++ P.repr ann)

def multiTypeUnion (ann : PydanticAnnotationExpr S) : GraphqlError :=
  .typeError ("GraphQL projection does not support multi-type unions: ".toList ++ P.repr ann)

def listArguments (ann : PydanticAnnotationExpr S) : GraphqlError :=
  .typeError ("List annotation requires exactly one element type: ".toList ++ P.repr ann)

def fixedLengthTuple (ann : PydanticAnnotationExpr S) : GraphqlError :=
  .typeError ("GraphQL projection does not support fixed-length tuples: ".toList ++ P.repr ann)

def notInstalled : GraphqlError :=
  .importError "strawberry-graphql must be installed to use to_strawberry_type().".toList

/-- Wrap what was compiled. -/
def wrap (f : GraphqlAnnotationExpr → GraphqlAnnotationExpr)
    (x : Compiled S GraphqlAnnotationExpr) :
    Compiled S GraphqlAnnotationExpr :=
  x.map fun r ↦ (r.1.map f, r.2)

section Annotation

variable (recurse : S → Compilation S → Compiled S ℕ)

mutual

/-- `_compile_annotation` -/
def compileAnnotationExpr (c : Compilation S) :
    PydanticAnnotationExpr S → Compiled S GraphqlAnnotationExpr
  | .scalar s => some (.ok (.scalar s), c)
  | .schema s =>
      match recurse s c with
      | none => none
      | some (.ok id, c) => some (.ok (.type id), c)
      -- A schema class has no origin, so the swallowed error ends in another.
      | some (.error (.typeError _), c) => some (.error (unsupported P (.schema s)), c)
      | some (.error e, c) => some (.error e, c)
  | .union args =>
      if args.isEmpty then some (.error (emptyUnion P (.union args)), c)
      else
        wrap (if args.any (·.isNoneType) then .optional else id)
          (compileMember c (.union args) args)
  | .list [arg] => wrap .list (compileAnnotationExpr c arg)
  | .tuple [arg, .ellipsis] => wrap .list (compileAnnotationExpr c arg)
  | .list args => some (.error (listArguments P (.list args)), c)
  | .tuple args => some (.error (fixedLengthTuple P (.tuple args)), c)
  | .noneType => some (.error (unsupported P .noneType), c)
  | .ellipsis => some (.error (unsupported P .ellipsis), c)
  | .other text => some (.error (unsupported P (.other text)), c)

/-- The only member of a union besides `NoneType`. -/
def compileMember (c : Compilation S) (whole : PydanticAnnotationExpr S) :
    List (PydanticAnnotationExpr S) → Compiled S GraphqlAnnotationExpr
  | [] => some (.error (multiTypeUnion P whole), c)
  | arg :: rest =>
      if arg.isNoneType then compileMember c whole rest
      else if rest.all (·.isNoneType) then compileAnnotationExpr c arg
      else some (.error (multiTypeUnion P whole), c)

end

/-- The loop over the fields. -/
def compileFields (c : Compilation S) : List (Str × PydanticAnnotationExpr S) →
    Compiled S (List (Str × GraphqlAnnotationExpr))
  | [] => some (.ok [], c)
  | x :: rest =>
      match compileAnnotationExpr P recurse c x.2 with
      | none => none
      | some (.error e, c) => some (.error e, c)
      | some (.ok ann, c) => (compileFields c rest).map fun r ↦ (r.1.map ((x.1, ann) :: ·), r.2)

end Annotation

variable [DecidableEq S]

/-- Create the class of a schema and put it into the cache. -/
def placeholder (s : S) (c : Compilation S) : Compilation S :=
  ⟨c.types ++ [⟨s, P.name s ++ "GraphQL".toList, none, false⟩],
    Function.update c.cache s (some c.types.length)⟩

/-- Annotate the class of a schema and decorate it. -/
def finish (s : S) (id : ℕ) (annotations : List (Str × GraphqlAnnotationExpr)) (c : Compilation S) :
    Compilation S :=
  ⟨c.types.modify id fun t ↦ { t with annotations := some annotations, decorated := true },
    Function.update c.cache s (some id)⟩

/-- `_compile_schema` -/
def compileSchema : ℕ → S → Compilation S → Compiled S ℕ
  | 0, _, _ => none
  | fuel + 1, s, c =>
      match c.cache s with
      | some id => some (.ok id, c)
      | none =>
          if available then
            match compileFields P (compileSchema fuel) (placeholder P s c)
                (P.modelFields s).items with
            | none => none
            | some (.error e, c') => some (.error e, c')
            | some (.ok annotations, c') =>
                some (.ok c.types.length, finish s c.types.length annotations c')
          else some (.error notInstalled, c)

/-- `to_strawberry_type`, of the resolved schema. -/
def toStrawberryType (fuel : ℕ) (s : S) : Compiled S ℕ :=
  if available then compileSchema P available fuel s ⟨[], fun _ ↦ none⟩
  else some (.error notInstalled, ⟨[], fun _ ↦ none⟩)

end Code

section Grammar

/-- The annotations that have a GraphQL image: scalars, schemas, `A or None`
(a union of `A` alone is `A`), `list[A]` and `tuple[A, ...]`. -/
inductive Supported : PydanticAnnotationExpr S → Prop
  | scalar (s : GraphqlScalar) : Supported (.scalar s)
  | schema (s : S) : Supported (.schema s)
  | union {args : List (PydanticAnnotationExpr S)} {a : PydanticAnnotationExpr S}
      (honly : args.filter (!·.isNoneType) = [a]) (h : Supported a) : Supported (.union args)
  | list {a : PydanticAnnotationExpr S} (h : Supported a) : Supported (.list [a])
  | tuple {a : PydanticAnnotationExpr S} (h : Supported a) : Supported (.tuple [a, .ellipsis])

/-- The structural image of an annotation, with the types of a cache. -/
inductive Image (cache : S → Option ℕ) : PydanticAnnotationExpr S → GraphqlAnnotationExpr → Prop
  | scalar (s : GraphqlScalar) : Image cache (.scalar s) (.scalar s)
  | schema {s : S} {id : ℕ} (h : cache s = some id) : Image cache (.schema s) (.type id)
  | optional {args : List (PydanticAnnotationExpr S)} {a : PydanticAnnotationExpr S}
      {b : GraphqlAnnotationExpr}
      (honly : args.filter (!·.isNoneType) = [a]) (hnone : .noneType ∈ args) (h : Image cache a b) :
      Image cache (.union args) (.optional b)
  | only {args : List (PydanticAnnotationExpr S)} {a : PydanticAnnotationExpr S}
      {b : GraphqlAnnotationExpr}
      (honly : args.filter (!·.isNoneType) = [a]) (hnone : .noneType ∉ args) (h : Image cache a b) :
      Image cache (.union args) b
  | list {a : PydanticAnnotationExpr S} {b : GraphqlAnnotationExpr} (h : Image cache a b) :
      Image cache (.list [a]) (.list b)
  | tuple {a : PydanticAnnotationExpr S} {b : GraphqlAnnotationExpr} (h : Image cache a b) :
      Image cache (.tuple [a, .ellipsis]) (.list b)

/-- The schemas at any depth of an annotation. -/
inductive Mentions : PydanticAnnotationExpr S → S → Prop
  | schema (s : S) : Mentions (.schema s) s
  | union {args : List (PydanticAnnotationExpr S)} {a : PydanticAnnotationExpr S} {s : S}
      (ha : a ∈ args)
      (h : Mentions a s) : Mentions (.union args) s
  | list {args : List (PydanticAnnotationExpr S)} {a : PydanticAnnotationExpr S} {s : S}
      (ha : a ∈ args)
      (h : Mentions a s) : Mentions (.list args) s
  | tuple {args : List (PydanticAnnotationExpr S)} {a : PydanticAnnotationExpr S} {s : S}
      (ha : a ∈ args)
      (h : Mentions a s) : Mentions (.tuple args) s

variable {cache cache' : S → Option ℕ} {ann : PydanticAnnotationExpr S} {b : GraphqlAnnotationExpr}

theorem Image.mono (hcache : ∀ s id, cache s = some id → cache' s = some id)
    (h : Image cache ann b) : Image cache' ann b := by
  induction h with
  | scalar s => exact .scalar s
  | schema h => exact .schema (hcache _ _ h)
  | optional honly hnone _ ih => exact .optional honly hnone ih
  | only honly hnone _ ih => exact .only honly hnone ih
  | list _ ih => exact .list ih
  | tuple _ ih => exact .tuple ih

theorem Image.supported (h : Image cache ann b) : Supported ann := by
  induction h with
  | scalar s => exact .scalar s
  | schema h => exact .schema _
  | optional honly _ _ ih => exact .union honly ih
  | only honly _ _ ih => exact .union honly ih
  | list _ ih => exact .list ih
  | tuple _ ih => exact .tuple ih

/-- A member with a schema is the only member besides `NoneType`. -/
theorem eq_of_mentions {args : List (PydanticAnnotationExpr S)} {a a' : PydanticAnnotationExpr S}
    {s : S}
    (honly : args.filter (!·.isNoneType) = [a]) (ha' : a' ∈ args) (h : Mentions a' s) : a' = a := by
  have hmem : a' ∈ args.filter (!·.isNoneType) := by
    refine List.mem_filter.mpr ⟨ha', ?_⟩
    cases h <;> rfl
  rw [honly] at hmem
  exact List.mem_singleton.mp hmem

/-- The schemas of an annotation with an image are in the cache. -/
theorem Image.cached (h : Image cache ann b) {s : S} (hs : Mentions ann s) :
    ∃ id, cache s = some id := by
  induction h with
  | scalar s => cases hs
  | schema h =>
      cases hs
      exact ⟨_, h⟩
  | optional honly hnone _ ih =>
      cases hs with
      | union ha h => exact ih (eq_of_mentions honly ha h ▸ h)
  | only honly hnone _ ih =>
      cases hs with
      | union ha h => exact ih (eq_of_mentions honly ha h ▸ h)
  | list _ ih =>
      cases hs with
      | list ha h => exact ih (List.mem_singleton.mp ha ▸ h)
  | tuple _ ih =>
      cases hs with
      | tuple ha h =>
          rcases List.mem_cons.mp ha with rfl | ha
          · exact ih h
          · obtain rfl := List.mem_singleton.mp ha
            cases h

end Grammar

section Reach

variable (P : PydanticSchemas S)

/-- A field of one schema has another one in its annotation. -/
def Refers (s r : S) : Prop :=
  ∃ name ann, (name, ann) ∈ (P.modelFields s).items ∧ Mentions ann r

def Reachable : S → S → Prop := Relation.ReflTransGen (Refers P)

/-- Some field in reach has no image. -/
def Unsupported (s : S) : Prop :=
  ∃ r, Reachable P s r ∧ ∃ name ann, (name, ann) ∈ (P.modelFields r).items ∧ ¬Supported ann

/-- An annotation that cannot be compiled. -/
def Fails (ann : PydanticAnnotationExpr S) : Prop :=
  ¬Supported ann ∨ ∃ r, Mentions ann r ∧ Unsupported P r

/-- The fields of a schema and their images. -/
def FieldsImage (cache : S → Option ℕ) (items : List (Str × PydanticAnnotationExpr S))
    (annotations : List (Str × GraphqlAnnotationExpr)) : Prop :=
  List.Forall₂ (fun x y ↦ y.1 = x.1 ∧ Image cache x.2 y.2) items annotations

/-- A type that is the image of its schema. -/
structure Finished (cache : S → Option ℕ) (t : GraphqlType S) : Prop where
  typeName : t.typeName = P.name t.schema ++ "GraphQL".toList
  decorated : t.decorated = true
  annotations : ∃ annotations, t.annotations = some annotations ∧
    FieldsImage cache (P.modelFields t.schema).items annotations

/-- What a part of the compilation of a schema adds: finished types of
schemas that were not in the cache, one for each. -/
structure Extends (s : S) (c c' : Compilation S) : Prop where
  types : ∀ (id : ℕ) (t : GraphqlType S), c.types[id]? = some t → c'.types[id]? = some t
  cache : ∀ r id, c.cache r = some id → c'.cache r = some id
  added : ∀ r id, c'.cache r = some id → c.cache r = some id ∨
    c.types.length ≤ id ∧ ∃ t, c'.types[id]? = some t ∧ t.schema = r
  fresh : ∀ (id : ℕ) (t : GraphqlType S), c.types.length ≤ id → c'.types[id]? = some t →
    c.cache t.schema = none ∧ c'.cache t.schema = some id ∧ Reachable P s t.schema ∧
      Finished P c'.cache t

variable {P} {s r : S} {c c' c'' : Compilation S} {cache cache' : S → Option ℕ}

theorem FieldsImage.mono (hcache : ∀ s id, cache s = some id → cache' s = some id)
    {items : List (Str × PydanticAnnotationExpr S)}
    {annotations : List (Str × GraphqlAnnotationExpr)}
    (h : FieldsImage cache items annotations) : FieldsImage cache' items annotations :=
  List.Forall₂.imp (fun _ _ hxy ↦ ⟨hxy.1, hxy.2.mono hcache⟩) h

theorem FieldsImage.exists_image {items : List (Str × PydanticAnnotationExpr S)}
    {annotations : List (Str × GraphqlAnnotationExpr)} (h : FieldsImage cache items annotations)
    {x : Str × PydanticAnnotationExpr S} (hx : x ∈ items) : ∃ b, Image cache x.2 b := by
  induction h with
  | nil => cases hx
  | cons hxy _ ih =>
      rcases List.mem_cons.mp hx with rfl | hx
      · exact ⟨_, hxy.2⟩
      · exact ih hx

theorem Finished.mono (hcache : ∀ s id, cache s = some id → cache' s = some id) {t : GraphqlType S}
    (h : Finished P cache t) : Finished P cache' t := by
  obtain ⟨annotations, hannotations, himage⟩ := h.annotations
  exact ⟨h.typeName, h.decorated, annotations, hannotations, himage.mono hcache⟩

theorem Extends.refl (s : S) (c : Compilation S) : Extends P s c c := by
  refine ⟨fun _ _ h ↦ h, fun _ _ h ↦ h, fun _ _ h ↦ .inl h, fun id t hid ht ↦ ?_⟩
  rw [List.getElem?_eq_none hid] at ht
  cases ht

theorem Extends.lift (h : Extends P r c c') (href : Refers P s r) : Extends P s c c' :=
  ⟨h.types, h.cache, h.added, fun id t hid ht ↦
    let ⟨hnew, hcache, hreach, hfinished⟩ := h.fresh id t hid ht
    ⟨hnew, hcache, Relation.ReflTransGen.head href hreach, hfinished⟩⟩

theorem Extends.length_le (h : Extends P s c c') : c.types.length ≤ c'.types.length := by
  by_contra hlt
  have hbound : c'.types.length < c.types.length := by omega
  have hsome : c.types[c'.types.length]? = some c.types[c'.types.length] :=
    List.getElem?_eq_getElem hbound
  have hnone := h.types _ _ hsome
  rw [List.getElem?_eq_none le_rfl] at hnone
  cases hnone

theorem Extends.trans (h : Extends P s c c') (h' : Extends P s c' c'') : Extends P s c c'' := by
  refine ⟨fun id t ht ↦ h'.types id t (h.types id t ht),
    fun r id hr ↦ h'.cache r id (h.cache r id hr), fun r id hr ↦ ?_, fun id t hid ht ↦ ?_⟩
  · rcases h'.added r id hr with hr | ⟨hid, ht⟩
    · rcases h.added r id hr with hr | ⟨hid, t, ht, hs⟩
      · exact .inl hr
      · exact .inr ⟨hid, t, h'.types id t ht, hs⟩
    · exact .inr ⟨h.length_le.trans hid, ht⟩
  · cases hold : c'.types[id]? with
    | some t' =>
        obtain rfl := Option.some.inj ((h'.types id t' hold).symm.trans ht)
        obtain ⟨hnew, hcache, hreach, hfinished⟩ := h.fresh id t' hid hold
        exact ⟨hnew, h'.cache _ _ hcache, hreach, hfinished.mono h'.cache⟩
    | none =>
        obtain ⟨hnew, hcache, hreach, hfinished⟩ :=
          h'.fresh id t (List.getElem?_eq_none_iff.mp hold) ht
        refine ⟨?_, hcache, hreach, hfinished⟩
        by_contra hcached
        obtain ⟨id', hid'⟩ := Option.ne_none_iff_exists'.mp hcached
        rw [h.cache _ _ hid'] at hnew
        cases hnew

end Reach

section Compiler

variable (P : PydanticSchemas S)

/-- A computation for a schema returns something good and only adds to the
compilation, or it raises `TypeError` for a bad schema. -/
def Settles {α : Type} (s : S) (c : Compilation S) (good : (S → Option ℕ) → α → Prop) (bad : Prop) :
    Compiled S α → Prop
  | some (.ok a, c') => good c'.cache a ∧ Extends P s c c'
  | some (.error (.typeError _), _) => bad
  | some (.error (.importError _), _) | none => False

variable {P} {α : Type} {s r : S} {c : Compilation S} {good : (S → Option ℕ) → α → Prop}
  {bad bad' : Prop}

theorem Settles.cases {x : Compiled S α} (h : Settles P s c good bad x) :
    (∃ a c', x = some (.ok a, c') ∧ good c'.cache a ∧ Extends P s c c') ∨
      ∃ message c', x = some (.error (.typeError message), c') ∧ bad := by
  match x with
  | none => exact h.elim
  | some (.error (.importError _), _) => exact h.elim
  | some (.error (.typeError message), c') => exact .inr ⟨message, c', rfl, h⟩
  | some (.ok a, c') => exact .inl ⟨a, c', rfl, h⟩

theorem Settles.wrap {good good' : (S → Option ℕ) → GraphqlAnnotationExpr → Prop}
    {f : GraphqlAnnotationExpr → GraphqlAnnotationExpr} {x : Compiled S GraphqlAnnotationExpr}
    (h : Settles P s c good bad x) (hgood : ∀ cache b, good cache b → good' cache (f b))
    (hbad : bad → bad') : Settles P s c good' bad' (wrap f x) := by
  obtain ⟨b, c', rfl, hb, hextends⟩ | ⟨message, c', rfl, hfails⟩ := h.cases
  · exact ⟨hgood _ _ hb, hextends⟩
  · exact hbad hfails

theorem isNoneType_iff {a : PydanticAnnotationExpr S} : a.isNoneType = true ↔ a = .noneType := by
  cases a <;> simp [PydanticAnnotationExpr.isNoneType]

theorem fails_list {args : List (PydanticAnnotationExpr S)} (h : ∀ a, args ≠ [a]) :
    Fails P (.list args) := by
  refine .inl fun hlist ↦ ?_
  cases hlist with
  | list _ => exact h _ rfl

theorem fails_tuple {args : List (PydanticAnnotationExpr S)} (h : ∀ a, args ≠ [a, .ellipsis]) :
    Fails P (.tuple args) := by
  refine .inl fun htuple ↦ ?_
  cases htuple with
  | tuple _ => exact h _ rfl

theorem Fails.list {a : PydanticAnnotationExpr S} (h : Fails P a) : Fails P (.list [a]) := by
  rcases h with h | ⟨r, hr, hunsupported⟩
  · refine .inl fun hlist ↦ ?_
    cases hlist with
    | list ha => exact h ha
  · exact .inr ⟨r, .list List.mem_cons_self hr, hunsupported⟩

theorem Fails.tuple {a : PydanticAnnotationExpr S} (h : Fails P a) :
    Fails P (.tuple [a, .ellipsis]) := by
  rcases h with h | ⟨r, hr, hunsupported⟩
  · refine .inl fun htuple ↦ ?_
    cases htuple with
    | tuple ha => exact h ha
  · exact .inr ⟨r, .tuple List.mem_cons_self hr, hunsupported⟩

/-- A union fails if its only member does, or if there is no such member. -/
theorem Fails.union {args : List (PydanticAnnotationExpr S)}
    (h : ∀ a, args.filter (!·.isNoneType) = [a] → Fails P a) : Fails P (.union args) := by
  by_cases honly : ∃ a, args.filter (!·.isNoneType) = [a]
  · obtain ⟨a, ha⟩ := honly
    have hmem : a ∈ args := List.mem_of_mem_filter (ha ▸ List.mem_cons_self)
    rcases h a ha with hnot | ⟨r, hr, hunsupported⟩
    · refine .inl fun hunion ↦ ?_
      cases hunion with
      | union ha' hsupported =>
          obtain rfl := (List.cons.inj (ha.symm.trans ha')).1
          exact hnot hsupported
    · exact .inr ⟨r, .union hmem hr, hunsupported⟩
  · refine .inl fun hunion ↦ ?_
    cases hunion with
    | union ha _ => exact honly ⟨_, ha⟩

variable {recurse : S → Compilation S → Compiled S ℕ} {R : Finset S} {n : ℕ}

/-- The schemas of `R` that are not in the cache. -/
def uncached [DecidableEq S] (R : Finset S) (c : Compilation S) : Finset S :=
  R.filter fun s ↦ c.cache s = none

/-- The calls on schemas of `R` settle while at most `n` of them are not in the cache. -/
def Calls [DecidableEq S] (P : PydanticSchemas S) (R : Finset S) (n : ℕ)
    (recurse : S → Compilation S → Compiled S ℕ) : Prop :=
  ∀ r ∈ R, ∀ c : Compilation S, (uncached R c).card ≤ n →
    Settles P r c (fun cache id ↦ cache r = some id) (Unsupported P r) (recurse r c)

variable [DecidableEq S]

theorem Extends.uncached_le {c' : Compilation S} (h : Extends P s c c') (R : Finset S) :
    (uncached R c').card ≤ (uncached R c).card := by
  refine Finset.card_le_card fun r hr ↦ ?_
  obtain ⟨hmem, hnone⟩ := Finset.mem_filter.mp hr
  refine Finset.mem_filter.mpr ⟨hmem, ?_⟩
  by_contra hcached
  obtain ⟨id, hid⟩ := Option.ne_none_iff_exists'.mp hcached
  rw [h.cache r id hid] at hnone
  cases hnone

mutual

theorem compileAnnotationExpr_settles (hrec : Calls P R n recurse) (c : Compilation S)
    (hc : (uncached R c).card ≤ n) (ann : PydanticAnnotationExpr S)
    (hann : ∀ r, Mentions ann r → r ∈ R ∧ Refers P s r) :
    Settles P s c (fun cache b ↦ Image cache ann b) (Fails P ann)
      (compileAnnotationExpr P recurse c ann) := by
  match ann with
  | .scalar a => exact ⟨.scalar a, .refl s c⟩
  | .schema r =>
      obtain ⟨hr, href⟩ := hann r (.schema r)
      unfold compileAnnotationExpr
      obtain ⟨id, c', hresult, hid, hextends⟩ | ⟨message, c', hresult, hunsupported⟩ :=
        (hrec r hr c hc).cases
      · rw [hresult]
        exact ⟨.schema hid, hextends.lift href⟩
      · rw [hresult]
        exact .inr ⟨r, .schema r, hunsupported⟩
  | .union args =>
      have hmember := compileMember_settles hrec c hc (.union args) args
        fun a ha r hr ↦ hann r (.union ha hr)
      unfold compileAnnotationExpr
      by_cases hempty : args.isEmpty = true
      · rw [if_pos hempty]
        obtain rfl := List.isEmpty_iff.mp hempty
        exact Fails.union fun a ha ↦ by cases ha
      rw [if_neg hempty]
      refine hmember.wrap ?_ Fails.union
      rintro cache b ⟨a, honly, himage⟩
      by_cases hnone : args.any (·.isNoneType) = true
      · obtain ⟨x, hx, hxnone⟩ := List.any_eq_true.mp hnone
        rw [if_pos hnone]
        exact .optional honly (isNoneType_iff.mp hxnone ▸ hx) himage
      · rw [if_neg hnone]
        exact .only honly (fun hmem ↦ hnone (List.any_eq_true.mpr ⟨_, hmem, rfl⟩)) himage
  | .list [] => exact fails_list (by simp)
  | .list [arg] =>
      have harg := compileAnnotationExpr_settles hrec c hc arg
        fun r hr ↦ hann r (.list List.mem_cons_self hr)
      exact harg.wrap (fun _ _ himage ↦ .list himage) Fails.list
  | .list (_ :: _ :: _) => exact fails_list (by simp)
  | .tuple [] => exact fails_tuple (by simp)
  | .tuple [_] => exact fails_tuple (by simp)
  | .tuple [arg, .ellipsis] =>
      have harg := compileAnnotationExpr_settles hrec c hc arg
        fun r hr ↦ hann r (.tuple List.mem_cons_self hr)
      exact harg.wrap (fun _ _ himage ↦ .tuple himage) Fails.tuple
  | .tuple [_, .scalar _] | .tuple [_, .schema _] | .tuple [_, .noneType] | .tuple [_, .union _]
  | .tuple [_, .list _] | .tuple [_, .tuple _] | .tuple [_, .other _] => exact fails_tuple (by simp)
  | .tuple (_ :: b :: _ :: _) => cases b <;> exact fails_tuple (by simp)
  | .noneType => exact .inl fun h ↦ by cases h
  | .ellipsis => exact .inl fun h ↦ by cases h
  | .other text => exact .inl fun h ↦ by cases h

theorem compileMember_settles (hrec : Calls P R n recurse) (c : Compilation S)
    (hc : (uncached R c).card ≤ n) (whole : PydanticAnnotationExpr S)
    (args : List (PydanticAnnotationExpr S))
    (hann : ∀ a ∈ args, ∀ r, Mentions a r → r ∈ R ∧ Refers P s r) :
    Settles P s c (fun cache b ↦ ∃ a, args.filter (!·.isNoneType) = [a] ∧ Image cache a b)
      (∀ a, args.filter (!·.isNoneType) = [a] → Fails P a)
      (compileMember P recurse c whole args) := by
  match args with
  | [] => exact fun a ha ↦ by cases ha
  | arg :: rest =>
      unfold compileMember
      by_cases hnone : arg.isNoneType = true
      · have hrest := compileMember_settles hrec c hc whole rest
          fun a ha ↦ hann a (List.mem_cons_of_mem _ ha)
        rw [if_pos hnone]
        simpa only [List.filter_cons, hnone, Bool.not_true, Bool.false_eq_true, if_false]
          using hrest
      rw [if_neg hnone]
      have hfirst : (arg :: rest).filter (!·.isNoneType) = arg :: rest.filter (!·.isNoneType) := by
        simp [hnone]
      rw [hfirst]
      by_cases hall : rest.all (·.isNoneType) = true
      · have hempty : rest.filter (!·.isNoneType) = [] := by
          simpa [List.filter_eq_nil_iff] using hall
        have harg := compileAnnotationExpr_settles hrec c hc arg (hann arg List.mem_cons_self)
        rw [if_pos hall, hempty]
        obtain ⟨b, c', hresult, himage, hextends⟩ | ⟨message, c', hresult, hfails⟩ := harg.cases
        · rw [hresult]
          exact ⟨⟨arg, rfl, himage⟩, hextends⟩
        · rw [hresult]
          intro a ha
          exact (List.cons.inj ha).1 ▸ hfails
      · rw [if_neg hall]
        intro a ha
        have hempty := (List.cons.inj ha).2
        refine absurd ?_ hall
        simpa [List.filter_eq_nil_iff] using hempty

end

theorem compileFields_settles (hrec : Calls P R n recurse) (c : Compilation S)
    (hc : (uncached R c).card ≤ n) (items : List (Str × PydanticAnnotationExpr S))
    (hitems : ∀ x ∈ items, ∀ r, Mentions x.2 r → r ∈ R ∧ Refers P s r) :
    Settles P s c (fun cache annotations ↦ FieldsImage cache items annotations)
      (∃ x ∈ items, Fails P x.2) (compileFields P recurse c items) := by
  induction items generalizing c with
  | nil => exact ⟨.nil, .refl s c⟩
  | cons x rest ih =>
      unfold compileFields
      obtain ⟨b, c₁, hfirst, himage, hextends⟩ | ⟨message, c₁, hfirst, hfails⟩ :=
        (compileAnnotationExpr_settles hrec c hc x.2 (hitems x List.mem_cons_self)).cases
      · rw [hfirst]
        obtain ⟨annotations, c₂, hrest, himages, hextends'⟩ | ⟨message, c₂, hrest, y, hy, hfails⟩ :=
          (ih c₁ ((hextends.uncached_le R).trans hc)
            fun y hy ↦ hitems y (List.mem_cons_of_mem _ hy)).cases
        · simp only [hrest]
          exact ⟨.cons ⟨rfl, himage.mono hextends'.cache⟩ himages, hextends.trans hextends'⟩
        · simp only [hrest]
          exact ⟨y, List.mem_cons_of_mem _ hy, hfails⟩
      · rw [hfirst]
        exact ⟨x, List.mem_cons_self, hfails⟩

theorem placeholder_self (s : S) (c : Compilation S) :
    (placeholder P s c).cache s = some c.types.length :=
  Function.update_self s _ _

theorem placeholder_of_ne (c : Compilation S) (hrs : r ≠ s) :
    (placeholder P s c).cache r = c.cache r :=
  Function.update_of_ne hrs _ _

/-- The class of a schema is finished after its fields. -/
theorem Extends.finish {annotations : List (Str × GraphqlAnnotationExpr)} {c' : Compilation S}
    (hnew : c.cache s = none) (h : Extends P s (placeholder P s c) c')
    (himages : FieldsImage c'.cache (P.modelFields s).items annotations) :
    (finish s c.types.length annotations c').cache s = some c.types.length ∧
      Extends P s c (finish s c.types.length annotations c') := by
  have hself : c'.cache s = some c.types.length := h.cache s _ (placeholder_self s c)
  have hcache : (Graphql.finish s c.types.length annotations c').cache = c'.cache :=
    Function.update_eq_self_iff.mpr hself.symm
  have hplaceholder : c'.types[c.types.length]? =
      some ⟨s, P.name s ++ "GraphQL".toList, none, false⟩ := h.types _ _ (by simp [placeholder])
  have htypes : ∀ id, (Graphql.finish s c.types.length annotations c').types[id]? =
      if id = c.types.length then
        some ⟨s, P.name s ++ "GraphQL".toList, some annotations, true⟩ else c'.types[id]? := by
    intro id
    by_cases hid : id = c.types.length
    · simp [Graphql.finish, hid, hplaceholder]
    · simp [Graphql.finish, hid, Ne.symm hid]
  have hlength : (placeholder P s c).types.length = c.types.length + 1 := by simp [placeholder]
  refine ⟨hcache ▸ hself, fun id t ht ↦ ?_, fun r id hr ↦ ?_, fun r id hr ↦ ?_,
    fun id t hid ht ↦ ?_⟩
  · have hlt : id < c.types.length := (List.getElem?_eq_some_iff.mp ht).1
    rw [htypes, if_neg (by omega)]
    refine h.types id t ?_
    rw [placeholder, List.getElem?_append_left hlt]
    exact ht
  · have hne : r ≠ s := by
      rintro rfl
      rw [hnew] at hr
      cases hr
    rw [hcache]
    refine h.cache r id ?_
    rw [placeholder_of_ne c hne]
    exact hr
  · rw [hcache] at hr
    rcases h.added r id hr with hr | ⟨hid, t, ht, hs⟩
    · by_cases hrs : r = s
      · rw [hrs, placeholder_self] at hr
        obtain rfl := Option.some.inj hr
        exact .inr ⟨le_rfl, _, by rw [htypes, if_pos rfl], hrs.symm⟩
      · rw [placeholder_of_ne c hrs] at hr
        exact .inl hr
    · rw [hlength] at hid
      exact .inr ⟨by omega, t, by rw [htypes, if_neg (by omega)]; exact ht, hs⟩
  · rw [htypes] at ht
    rw [hcache]
    by_cases heq : id = c.types.length
    · rw [if_pos heq] at ht
      obtain rfl := Option.some.inj ht
      exact ⟨hnew, heq ▸ hself, .refl, rfl, rfl, annotations, rfl, himages⟩
    · rw [if_neg heq] at ht
      obtain ⟨hold, hcached, hreach, hfinished⟩ := h.fresh id t (by omega) ht
      refine ⟨?_, hcached, hreach, hfinished⟩
      by_cases hts : t.schema = s
      · rw [hts]
        exact hnew
      · rw [placeholder_of_ne c hts] at hold
        exact hold

/-- After the class of a schema of `R` is created, fewer are not in the cache. -/
theorem uncached_placeholder (hs : s ∈ R) (hnew : c.cache s = none) :
    (uncached R (placeholder P s c)).card < (uncached R c).card := by
  refine Finset.card_lt_card ⟨fun r hr ↦ ?_, fun hle ↦ ?_⟩
  · obtain ⟨hmem, hnone⟩ := Finset.mem_filter.mp hr
    refine Finset.mem_filter.mpr ⟨hmem, ?_⟩
    by_cases hrs : r = s
    · rw [hrs]
      exact hnew
    · rw [placeholder_of_ne c hrs] at hnone
      exact hnone
  · have hnone := (Finset.mem_filter.mp (hle (Finset.mem_filter.mpr ⟨hs, hnew⟩))).2
    rw [placeholder_self] at hnone
    cases hnone

/-- The compiler, by induction on the schemas of `R` that are not in the cache. -/
theorem compileSchema_settles (hR : ∀ s ∈ R, ∀ r, Refers P s r → r ∈ R) (n : ℕ) :
    Calls P R n (compileSchema P true (n + 1)) := by
  induction n with
  | zero =>
      intro s hs c hc
      unfold compileSchema
      cases hcached : c.cache s with
      | some id => exact ⟨hcached, .refl s c⟩
      | none =>
          have hlt := uncached_placeholder (P := P) hs hcached
          omega
  | succ n ih =>
      intro s hs c hc
      unfold compileSchema
      cases hcached : c.cache s with
      | some id => exact ⟨hcached, .refl s c⟩
      | none =>
          have hlt := uncached_placeholder (P := P) hs hcached
          have hrefers : ∀ x ∈ (P.modelFields s).items, ∀ r, Mentions x.2 r →
              r ∈ R ∧ Refers P s r :=
            fun x hx r hr ↦ ⟨hR s hs r ⟨x.1, x.2, hx, hr⟩, x.1, x.2, hx, hr⟩
          obtain ⟨annotations, c', hresult, himages, hextends⟩ |
              ⟨message, c', hresult, x, hx, hfails⟩ :=
            (compileFields_settles ih (placeholder P s c) (by omega) _ hrefers).cases
          · simp only [if_true, hresult]
            exact hextends.finish hcached himages
          · simp only [if_true, hresult]
            rcases hfails with hnot | ⟨r, hr, u, hu, hunsupported⟩
            · exact ⟨s, .refl, x.1, x.2, hx, hnot⟩
            · exact ⟨u, .head ⟨x.1, x.2, hx, hr⟩ hu, hunsupported⟩

end Compiler

section Projection

variable (P : PydanticSchemas S)

/-- The generated types are those of the schemas in reach, one for each, and
each is the image of its schema. The cache has the numbers of the types. -/
structure IsProjection (root : S) (id : ℕ) (c : Compilation S) : Prop where
  number_root : c.cache root = some id
  nodup : (c.types.map (·.schema)).Nodup
  reachable : ∀ s, s ∈ c.types.map (·.schema) ↔ Reachable P root s
  finished : ∀ t ∈ c.types, Finished P c.cache t
  number : ∀ s id, c.cache s = some id ↔ ∃ t, c.types[id]? = some t ∧ t.schema = s

/-- `TypeError` is raised for a field without an image, and otherwise the
result is the projection. -/
def Projects (root : S) (x : Compiled S ℕ) : Prop :=
  ∃ result c, x = some (result, c) ∧
    ((∃ message, result = .error (.typeError message)) ↔ Unsupported P root) ∧
    (¬Unsupported P root → ∃ id, result = .ok id ∧ IsProjection P root id c)

variable {P} {root s : S} {c : Compilation S} {id : ℕ}

/-- The schemas of the fields of a finished type are in the cache. -/
theorem Finished.cached {cache : S → Option ℕ} {t : GraphqlType S} (h : Finished P cache t)
    (hs : Refers P t.schema s) : ∃ id, cache s = some id := by
  obtain ⟨annotations, -, himages⟩ := h.annotations
  obtain ⟨name, ann, hmem, hmentions⟩ := hs
  obtain ⟨b, himage⟩ := himages.exists_image hmem
  exact himage.cached hmentions

/-- What a whole compilation has added is the projection. -/
theorem Extends.isProjection (h : Extends P root ⟨[], fun _ ↦ none⟩ c)
    (hroot : c.cache root = some id) : IsProjection P root id c := by
  have hfresh := fun (id : ℕ) (t : GraphqlType S) (ht : c.types[id]? = some t) ↦
    h.fresh id t (Nat.zero_le id) ht
  have hadded : ∀ r id, c.cache r = some id → ∃ t, c.types[id]? = some t ∧ t.schema = r := by
    intro r id hr
    rcases h.added r id hr with hr | ⟨-, ht⟩
    · cases hr
    · exact ht
  refine ⟨hroot, ?_, fun s ↦ ⟨fun hs ↦ ?_, fun hs ↦ ?_⟩, fun t ht ↦ ?_,
    fun s id ↦ ⟨hadded s id, ?_⟩⟩
  · refine List.nodup_iff_injective_getElem.mpr fun i j hij ↦ ?_
    simp only [List.getElem_map] at hij
    have hi := (hfresh i.1 _ (List.getElem?_eq_getElem (by simpa using i.2))).2.1
    have hj := (hfresh j.1 _ (List.getElem?_eq_getElem (by simpa using j.2))).2.1
    rw [hij, hj] at hi
    exact Fin.ext (Option.some.inj hi).symm
  · obtain ⟨t, ht, rfl⟩ := List.mem_map.mp hs
    obtain ⟨id, hid⟩ := List.mem_iff_getElem?.mp ht
    exact (hfresh id t hid).2.2.1
  · induction hs with
    | refl =>
        obtain ⟨t, ht, hs⟩ := hadded root id hroot
        exact List.mem_map.mpr ⟨t, List.mem_of_getElem? ht, hs⟩
    | tail _ href ih =>
        obtain ⟨t, ht, rfl⟩ := List.mem_map.mp ih
        obtain ⟨id, hid⟩ := List.mem_iff_getElem?.mp ht
        obtain ⟨id', hid'⟩ := (hfresh id t hid).2.2.2.cached href
        obtain ⟨t', ht', hs'⟩ := hadded _ id' hid'
        exact List.mem_map.mpr ⟨t', List.mem_of_getElem? ht', hs'⟩
  · obtain ⟨id, hid⟩ := List.mem_iff_getElem?.mp ht
    exact (hfresh id t hid).2.2.2
  · rintro ⟨t, ht, rfl⟩
    exact (hfresh id t ht).2.1

/-- All fields in reach of a projection have images. -/
theorem IsProjection.supported (h : IsProjection P root id c) : ¬Unsupported P root := by
  rintro ⟨r, hr, name, ann, hmem, hunsupported⟩
  obtain ⟨t, ht, rfl⟩ := List.mem_map.mp ((h.reachable r).mpr hr)
  obtain ⟨annotations, -, himages⟩ := (h.finished t ht).annotations
  obtain ⟨b, himage⟩ := himages.exists_image hmem
  exact hunsupported himage.supported

variable [DecidableEq S]

theorem graphql_projection (P : PydanticSchemas S) (root : S) (R : Finset S)
    (hR : ∀ s, s ∈ R ↔ Reachable P root s) {fuel : ℕ} (hfuel : R.card < fuel) :
    Projects P root (toStrawberryType P true fuel root) := by
  obtain ⟨n, rfl⟩ : ∃ n, fuel = n + 1 := ⟨fuel - 1, by omega⟩
  have hclosed : ∀ s ∈ R, ∀ r, Refers P s r → r ∈ R := fun s hs r hr ↦
    (hR r).mpr (((hR s).mp hs).tail hr)
  have huncached : (uncached R (⟨[], fun _ ↦ none⟩ : Compilation S)).card ≤ n := by
    have hle := Finset.card_le_card (Finset.filter_subset (fun s ↦
      (⟨[], fun _ ↦ none⟩ : Compilation S).cache s = none) R)
    unfold uncached
    omega
  unfold toStrawberryType
  rw [if_pos rfl]
  obtain ⟨id, c, hresult, hroot, hextends⟩ | ⟨message, c, hresult, hunsupported⟩ :=
    (compileSchema_settles hclosed n root ((hR root).mpr .refl) _ huncached).cases
  · have hprojection := hextends.isProjection hroot
    refine ⟨.ok id, c, hresult, ⟨?_, fun h ↦ absurd h hprojection.supported⟩,
      fun _ ↦ ⟨id, rfl, hprojection⟩⟩
    rintro ⟨message, hmessage⟩
    cases hmessage
  · exact ⟨.error (.typeError message), c, hresult, ⟨fun _ ↦ hunsupported, fun _ ↦ ⟨message, rfl⟩⟩,
      fun h ↦ absurd hunsupported h⟩

end Projection

section Sample

/-- A node has an optional node and a list of leaves; a leaf has its node. -/
def nodeSchemas : PydanticSchemas Bool where
  name s := if s then "Node".toList else "Leaf".toList
  modelFields s :=
    if s then
      ⟨[("next".toList, .union [.schema true, .noneType]),
        ("leaves".toList, .tuple [.schema false, .ellipsis])], by decide⟩
    else ⟨[("weight".toList, .scalar .int), ("node".toList, .list [.schema true])], by decide⟩
  repr _ := "annotation".toList

theorem graphql_projection_sample :
    Projects nodeSchemas true (toStrawberryType nodeSchemas true 3 true) := by
  refine graphql_projection nodeSchemas true Finset.univ (fun s ↦ ⟨fun _ ↦ ?_, fun _ ↦
    Finset.mem_univ s⟩) (by decide)
  cases s with
  | true => exact .refl
  | false =>
      have hfield : ("leaves".toList, PydanticAnnotationExpr.tuple [.schema false, .ellipsis]) ∈
          (nodeSchemas.modelFields true).items := List.mem_cons_of_mem _ List.mem_cons_self
      exact .single ⟨_, _, hfield, .tuple List.mem_cons_self (.schema false)⟩

end Sample

end Graphql

end DjangoNova
