import DjangoNova.Cache.Pickle

/-!
# The bytes that a query digest hashes

The hashed tuple is pickled with a memo, so that the bytes depend on which
of its objects are the same. Integers, `None` and the empty tuple are
written in full each time, and a memoryview is written as a call of
`bytes`.
-/

namespace DjangoNova

/-- The identity of an object. The module name of the types of Python and
the empty bytes are objects of the interpreter. -/
inductive ObjectId where
  | own (n : ℕ)
  | builtins
  | emptyBytes
  deriving DecidableEq

/-- The parameters of a query and the other parts of the hashed tuple. -/
inductive PyTree where
  | none
  | int (n : ℤ)
  | text (id : ObjectId) (s : Str)
  | bytes (id : ObjectId) (data : List UInt8)
  | memoryview (id : ObjectId) (data : List UInt8)
  | emptyTuple
  | tuple (id : ObjectId) (first : PyTree) (rest : List PyTree)

/-- The value of a tree; a memoryview counts as the bytes that it views. -/
inductive PyValue where
  | none
  | int (n : ℤ)
  | text (s : Str)
  | bytes (data : List UInt8)
  | tuple (items : List PyValue)

namespace PyTree

mutual

def value : PyTree → PyValue
  | .none => .none
  | .int n => .int n
  | .text _ s => .text s
  | .bytes _ data | .memoryview _ data => .bytes data
  | .emptyTuple => .tuple []
  | .tuple _ first rest => .tuple (value first :: values rest)

def values : List PyTree → List PyValue
  | [] => []
  | t :: ts => value t :: values ts

end

end PyTree

/-- The objects that the pickler meets; some it makes for a memoryview. -/
inductive PickleId where
  | object (id : ObjectId)
  | bytesType
  | bytesName
  | contents (id : ObjectId)
  | arguments (id : ObjectId)
  deriving DecidableEq

inductive PickleAtom where
  | none
  | int (n : ℤ)
  | emptyTuple

inductive PickleLabel where
  | text (utf8 : List UInt8)
  | bytes (data : List UInt8)
  | tuple
  | global
  | reduce

namespace KeyPickler

abbrev Pickled : Type := SharedTree PickleAtom PickleLabel PickleId

def utf8 (s : Str) : List UInt8 := s.flatMap String.utf8EncodeChar

/-- The type `bytes`, by its module and its name. -/
def bytesType : Pickled :=
  .node .bytesType .global [.node (.object .builtins) (.text (utf8 "builtins".toList)) [],
    .node .bytesName (.text (utf8 "bytes".toList)) []]

/-- The identity of `obj.tobytes()`. -/
def contentsId (id : ObjectId) (data : List UInt8) : PickleId :=
  if data = [] then .object .emptyBytes else .contents id

mutual

/-- The objects of a tree. `reducer_override` turns a memoryview into a call of `bytes`. -/
def pickled : PyTree → Pickled
  | .none => .atom .none
  | .int n => .atom (.int n)
  | .text id s => .node (.object id) (.text (utf8 s)) []
  | .bytes id data => .node (.object id) (.bytes data) []
  | .memoryview id data =>
      .node (.object id) .reduce [bytesType,
        .node (.arguments id) .tuple [.node (contentsId id data) (.bytes data) []]]
  | .emptyTuple => .atom .emptyTuple
  | .tuple id first rest => .node (.object id) .tuple (pickled first :: pickledAll rest)

def pickledAll : List PyTree → List Pickled
  | [] => []
  | t :: ts => pickled t :: pickledAll ts

end

/-- Longer tuples are delimited by a mark. -/
def marked : PickleLabel → ℕ → Bool
  | .tuple, n => n > 3
  | _, _ => false

def buildOp : PickleLabel → Option ℕ → Opcode
  | .text utf8, _ => .unicode utf8
  | .bytes data, _ => .bytes data
  | .tuple, some 1 => .tuple1
  | .tuple, some 2 => .tuple2
  | .tuple, some 3 => .tuple3
  | .tuple, _ => .tuple
  | .global, _ => .stackGlobal
  | .reduce, _ => .reduce

def atomOp : PickleAtom → Opcode
  | .none => .none
  | .int n => .int n
  | .emptyTuple => .emptyTuple

open Pickle SharedTree in
/-- The opcodes of an item; every save begins at a boundary. -/
def itemTokens : Item PickleAtom PickleLabel → List Token
  | .start => [.boundary]
  | .atom a => [.op (atomOp a)]
  | .mark => [.op .mark]
  | .build l arity => [.op (buildOp l arity), .op .memoize]
  | .get k => [.op (.get k)]

open Pickle SharedTree in
def tokens (t : Pickled) : List Token :=
  (save marked [] t).1.flatMap itemTokens ++ [.op .stop]

inductive PickleError where
  | overflow

open Pickle in
/-- `_KeyPickler(buffer, protocol=5).dump(parts)` -/
def dump (t : PyTree) : Except PickleError (List UInt8) :=
  if (opcodes (tokens (pickled t))).all fits then
    .ok (0x80 :: 5 :: encodeAll (frames [] (tokens (pickled t))))
  else .error .overflow

section Decoding

open Pickle SharedTree

/-- The first opcode of an item, and the item of an opcode. -/
def firstOp : Item PickleAtom PickleLabel → Opcode
  | .start => .stop
  | .atom a => atomOp a
  | .mark => .mark
  | .build l arity => buildOp l arity
  | .get k => .get k

def ofOp : Opcode → Option (Item PickleAtom PickleLabel)
  | .none => some (.atom .none)
  | .int n => some (.atom (.int n))
  | .emptyTuple => some (.atom .emptyTuple)
  | .mark => some .mark
  | .unicode utf8 => some (.build (.text utf8) (some 0))
  | .bytes data => some (.build (.bytes data) (some 0))
  | .tuple1 => some (.build .tuple (some 1))
  | .tuple2 => some (.build .tuple (some 2))
  | .tuple3 => some (.build .tuple (some 3))
  | .tuple => some (.build .tuple none)
  | .stackGlobal => some (.build .global (some 2))
  | .reduce => some (.build .reduce (some 2))
  | .get k => some (.get k)
  | .memoize | .frame _ | .stop => none

/-- The items that the pickler writes besides starts. -/
def Written (x : Item PickleAtom PickleLabel) : Prop := ofOp (firstOp x) = some x

theorem opcodes_append (xs ys : List Token) : opcodes (xs ++ ys) = opcodes xs ++ opcodes ys :=
  List.filterMap_append

theorem opcodes_items (items : List (Item PickleAtom PickleLabel)) :
    opcodes (items.flatMap itemTokens) =
      (contents items).flatMap fun x ↦ opcodes (itemTokens x) := by
  induction items with
  | nil => rfl
  | cons x rest ih =>
      rw [List.flatMap_cons, opcodes_append, ih]
      cases x <;> rfl

theorem opcodes_item {x : Item PickleAtom PickleLabel} (h : Written x) :
    ∃ tail, opcodes (itemTokens x) = firstOp x :: tail := by
  cases x with
  | start => simp [Written, firstOp, ofOp] at h
  | _ => exact ⟨_, Eq.refl _⟩

/-- The opcodes of the written items determine them. -/
theorem items_injective {xs ys : List (Item PickleAtom PickleLabel)} (hxs : ∀ x ∈ xs, Written x)
    (hys : ∀ y ∈ ys, Written y)
    (h : (xs.flatMap fun x ↦ opcodes (itemTokens x)) ++ [.stop] =
      (ys.flatMap fun y ↦ opcodes (itemTokens y)) ++ [.stop]) : xs = ys := by
  have hstop : ∀ {x : Item PickleAtom PickleLabel}, Written x → firstOp x ≠ .stop := by
    intro x hx heq
    rw [Written, heq] at hx
    simp [ofOp] at hx
  induction xs generalizing ys with
  | nil =>
      cases ys with
      | nil => rfl
      | cons y ys =>
          obtain ⟨tail, htail⟩ := opcodes_item (hys y List.mem_cons_self)
          rw [List.flatMap_cons, htail] at h
          exact absurd (List.cons.inj h).1.symm (hstop (hys y List.mem_cons_self))
  | cons x xs ih =>
      have hx := hxs x List.mem_cons_self
      obtain ⟨tail, htail⟩ := opcodes_item hx
      cases ys with
      | nil =>
          rw [List.flatMap_cons, htail] at h
          exact absurd (List.cons.inj h).1 (hstop hx)
      | cons y ys =>
          have hy := hys y List.mem_cons_self
          obtain ⟨tail', htail'⟩ := opcodes_item hy
          have hfirst : firstOp x = firstOp y := by
            rw [List.flatMap_cons, List.flatMap_cons, htail, htail'] at h
            exact (List.cons.inj h).1
          have hxy : some x = some y := by rw [← hx, ← hy, hfirst]
          obtain rfl := Option.some.inj hxy
          rw [List.flatMap_cons, List.flatMap_cons, List.append_assoc, List.append_assoc] at h
          rw [ih (fun z hz ↦ hxs z (List.mem_cons_of_mem _ hz))
            (fun z hz ↦ hys z (List.mem_cons_of_mem _ hz)) (List.append_cancel_left h)]

/-- How many children an object has. -/
def Arity : PickleLabel → ℕ → Prop
  | .text _, n | .bytes _, n => n = 0
  | .tuple, n => 0 < n
  | .global, n | .reduce, n => n = 2

mutual

theorem pickled_labels : ∀ t : PyTree, Labels Arity (pickled t)
  | .none | .int _ | .emptyTuple => trivial
  | .text .. | .bytes .. => ⟨rfl, trivial⟩
  | .memoryview .. => by simp [pickled, bytesType, Labels, LabelsAll, Arity]
  | .tuple id first rest =>
      ⟨Nat.succ_pos _, pickled_labels first, pickledAll_labels rest⟩

theorem pickledAll_labels : ∀ ts : List PyTree, LabelsAll Arity (pickledAll ts)
  | [] => trivial
  | t :: ts => ⟨pickled_labels t, pickledAll_labels ts⟩

end

theorem written_build (l : PickleLabel) (n : ℕ) (h : Arity l n) :
    Written (.build l (if marked l n then none else some n)) := by
  cases l with
  | tuple =>
      have hpos : 0 < n := h
      by_cases hlong : n > 3
      · simp [Written, firstOp, buildOp, ofOp, marked, hlong]
      · obtain rfl | rfl | rfl : n = 1 ∨ n = 2 ∨ n = 3 := by omega
        all_goals rfl
  | text utf8 =>
      obtain rfl : n = 0 := h
      rfl
  | bytes data =>
      obtain rfl : n = 0 := h
      rfl
  | global =>
      obtain rfl : n = 2 := h
      rfl
  | reduce =>
      obtain rfl : n = 2 := h
      rfl

theorem written_contents (t : PyTree) (x : Item PickleAtom PickleLabel)
    (hx : x ∈ contents (save marked [] (pickled t)).1) : Written x := by
  obtain ⟨hmem, hstart⟩ := List.mem_filter.mp hx
  have hatom : ∀ a, Written (.atom a) := by
    intro a
    cases a <;> rfl
  have hget : ∀ k, Written (.get k) := fun _ ↦ Eq.refl _
  rcases save_items hatom (Eq.refl _) hget written_build (pickled t) [] (pickled_labels t) x hmem
    with rfl | hwritten
  · exact absurd hstart (by decide)
  · exact hwritten

theorem opcodes_tokens (t : Pickled) : opcodes (tokens t) =
    ((contents (save marked [] t).1).flatMap fun x ↦ opcodes (itemTokens x)) ++ [.stop] := by
  rw [tokens, opcodes_append, opcodes_items]
  rfl

theorem not_isFrame (t : Pickled) : ∀ o ∈ opcodes (tokens t), isFrame o = false := by
  intro o ho
  rw [opcodes_tokens] at ho
  rcases List.mem_append.mp ho with ho | ho
  · obtain ⟨x, -, ho⟩ := List.mem_flatMap.mp ho
    cases x with
    | start => exact absurd ho List.not_mem_nil
    | atom a =>
        rw [List.mem_singleton.mp ho]
        cases a <;> rfl
    | mark =>
        rw [List.mem_singleton.mp ho]
        rfl
    | get k =>
        rw [List.mem_singleton.mp ho]
        rfl
    | build l arity =>
        rcases List.mem_cons.mp ho with rfl | ho
        · unfold buildOp
          split <;> rfl
        · rw [List.mem_singleton.mp ho]
          rfl
  · rw [List.mem_singleton.mp ho]
    rfl

end Decoding

section Dump

open Pickle SharedTree

theorem dump_eq_ok {t : PyTree} {b : List UInt8} (h : dump t = .ok b) :
    (∀ o ∈ opcodes (tokens (pickled t)), fits o = true) ∧
      b = 0x80 :: 5 :: encodeAll (frames [] (tokens (pickled t))) := by
  unfold dump at h
  split at h
  · rename_i hfits
    exact ⟨List.all_eq_true.mp hfits, (Except.ok.inj h).symm⟩
  · simp at h

/-- The pickled bytes determine the opcodes. -/
theorem opcodes_eq_of_dump {t u : PyTree} {b : List UInt8} (ht : dump t = .ok b)
    (hu : dump u = .ok b) : opcodes (tokens (pickled t)) = opcodes (tokens (pickled u)) := by
  obtain ⟨htfits, hb⟩ := dump_eq_ok ht
  obtain ⟨hufits, hb'⟩ := dump_eq_ok hu
  have hnil : ∀ {P : Opcode → Prop}, ∀ o ∈ ([] : List Opcode), P o := fun _ h ↦
    absurd h List.not_mem_nil
  have hbytes : encodeAll (frames [] (tokens (pickled t))) =
      encodeAll (frames [] (tokens (pickled u))) :=
    (List.cons.inj (List.cons.inj (hb.symm.trans hb')).2).2
  have hframes := encodeAll_injective (frames_fits _ hnil htfits) (frames_fits _ hnil hufits) hbytes
  have hfilter := frames_filter (tokens (pickled t)) hnil (not_isFrame _)
  have hfilter' := frames_filter (tokens (pickled u)) hnil (not_isFrame _)
  rw [hframes, hfilter'] at hfilter
  exact hfilter.symm

theorem dump_eq_iff {t u : PyTree} (ht : (pickled t).Coherent) (hu : (pickled u).Coherent)
    {b : List UInt8} (hb : dump t = .ok b) :
    dump u = .ok b ↔ (pickled t).SameSharing (pickled u) := by
  constructor
  · intro hb'
    have hops := opcodes_eq_of_dump hb hb'
    rw [opcodes_tokens, opcodes_tokens] at hops
    exact SameSharing.of_contents ht hu
      (items_injective (written_contents t) (written_contents u) hops)
  · intro hsharing
    have htokens : tokens (pickled u) = tokens (pickled t) := by
      rw [tokens, tokens, hsharing.save_eq]
    rw [← hb, dump, dump, htokens]

end Dump

end KeyPickler

/-- The hashed tuple. An identity stands for one object. -/
structure KeyTuple where
  id : ObjectId
  fullName : PyTree
  sql : PyTree
  params : PyTree
  resultShape : PyTree
  prefetches : PyTree
  generations : PyTree
  coherent : (KeyPickler.pickled
    (.tuple id fullName [sql, params, resultShape, prefetches, generations])).Coherent

namespace KeyTuple

def tree (p : KeyTuple) : PyTree :=
  .tuple p.id p.fullName [p.sql, p.params, p.resultShape, p.prefetches, p.generations]

/-- What `_query_digest` hashes. -/
def digestInput (p : KeyTuple) : Except KeyPickler.PickleError (List UInt8) :=
  KeyPickler.dump p.tree

/-- The digest of another tuple hashes the same bytes if and only if the two
tuples share their objects alike. -/
theorem canonical_keys (p q : KeyTuple) {b : List UInt8} (hp : p.digestInput = .ok b) :
    q.digestInput = .ok b ↔
      (KeyPickler.pickled p.tree).SameSharing (KeyPickler.pickled q.tree) :=
  KeyPickler.dump_eq_iff p.coherent q.coherent hp

/-- A query with two equal parameters, which may be one object. -/
def twoParams (shared : Bool) : KeyTuple where
  id := .own 0
  fullName := .text (.own 1) ['m']
  sql := .text (.own 2) ['s']
  params := .tuple (.own 3) (.text (.own 4) ['a', 'b'])
    [.text (.own (if shared then 4 else 5)) ['a', 'b']]
  resultShape := .tuple (.own 6) (.text (.own 7) ['d']) [.text (.own 8) ['I']]
  prefetches := .emptyTuple
  generations := .emptyTuple
  coherent := by
    let text (n : ℕ) (s : Str) : KeyPickler.Pickled :=
      .node (.object (.own n)) (.text (KeyPickler.utf8 s)) []
    let params := KeyPickler.pickled (.tuple (.own 3) (.text (.own 4) ['a', 'b'])
      [.text (.own (if shared then 4 else 5)) ['a', 'b']])
    let shape := KeyPickler.pickled
      (.tuple (.own 6) (.text (.own 7) ['d']) [.text (.own 8) ['I']])
    refine ⟨fun
      | .object (.own 1) => text 1 ['m']
      | .object (.own 2) => text 2 ['s']
      | .object (.own 3) => params
      | .object (.own 4) => text 4 ['a', 'b']
      | .object (.own 5) => text 5 ['a', 'b']
      | .object (.own 6) => shape
      | .object (.own 7) => text 7 ['d']
      | .object (.own 8) => text 8 ['I']
      | _ => .node (.object (.own 0)) .tuple
          [text 1 ['m'], text 2 ['s'], params, shape, .atom .emptyTuple, .atom .emptyTuple], ?_⟩
    cases shared
    all_goals
      refine ⟨rfl, ⟨rfl, trivial⟩, ⟨rfl, trivial⟩, ⟨rfl, ⟨rfl, trivial⟩, ⟨rfl, trivial⟩, trivial⟩,
        ⟨rfl, ⟨rfl, trivial⟩, ⟨rfl, trivial⟩, trivial⟩, trivial, trivial, trivial⟩

theorem canonical_keys_sample : ∃ b, (twoParams true).digestInput = .ok b ∧
    ((twoParams false).digestInput = .ok b ↔
      (KeyPickler.pickled (twoParams true).tree).SameSharing
        (KeyPickler.pickled (twoParams false).tree)) :=
  ⟨_, Eq.refl _, canonical_keys (twoParams true) (twoParams false) (Eq.refl _)⟩

/-- Equal parameters hash to other bytes when they are one object. -/
theorem canonical_keys_fails : (twoParams true).tree.value = (twoParams false).tree.value ∧
    ∃ b b', (twoParams true).digestInput = .ok b ∧ (twoParams false).digestInput = .ok b' ∧
      b ≠ b' :=
  ⟨Eq.refl _, _, _, Eq.refl _, Eq.refl _, by decide +kernel⟩

end KeyTuple

end DjangoNova
