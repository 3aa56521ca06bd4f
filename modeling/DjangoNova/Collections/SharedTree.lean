import Mathlib.Data.List.Induction
import Mathlib.Data.List.Nodup
import Mathlib.Data.Set.Function

/-!
# Trees of objects with identities

A serializer with a memo writes every object once and refers to it by its
number afterwards. What it writes can be read back, up to the identities,
so it is the same for two trees exactly if one is the other with its
identities renamed one to one. The numbers are given out when the writing
of an object ends.
-/

namespace DjangoNova

inductive SharedTree (A L I : Type) where
  | atom (a : A)
  | node (id : I) (label : L) (children : List (SharedTree A L I))

namespace SharedTree

variable {A L I J K : Type}

mutual

def mapIds (f : I → J) : SharedTree A L I → SharedTree A L J
  | .atom a => .atom a
  | .node id l children => .node (f id) l (mapIdsAll f children)

def mapIdsAll (f : I → J) : List (SharedTree A L I) → List (SharedTree A L J)
  | [] => []
  | t :: ts => mapIds f t :: mapIdsAll f ts

end

mutual

def ids : SharedTree A L I → List I
  | .atom _ => []
  | .node id _ children => id :: idsAll children

def idsAll : List (SharedTree A L I) → List I
  | [] => []
  | t :: ts => ids t ++ idsAll ts

end

mutual

/-- Each identity stands for one object. -/
def Denotes (object : I → SharedTree A L I) : SharedTree A L I → Prop
  | .atom _ => True
  | .node id l children => object id = .node id l children ∧ DenotesAll object children

def DenotesAll (object : I → SharedTree A L I) : List (SharedTree A L I) → Prop
  | [] => True
  | t :: ts => Denotes object t ∧ DenotesAll object ts

end

def Coherent (t : SharedTree A L I) : Prop := ∃ object, Denotes object t

/-- One tree is the other with its identities renamed one to one. -/
def SameSharing (t u : SharedTree A L I) : Prop :=
  ∃ g : I → I, Set.InjOn g {i | i ∈ t.ids} ∧ t.mapIds g = u

/-- What the serializer writes. Objects are built from the last values, by
number or back to a mark. -/
inductive Item (A L : Type) where
  | start
  | atom (a : A)
  | mark
  | build (label : L) (arity : Option ℕ)
  | get (index : ℕ)
  deriving DecidableEq

section Save

variable [DecidableEq I] (marked : L → ℕ → Bool)

mutual

/-- Write a tree, given the identities of the objects written before. -/
def save (memo : List I) : SharedTree A L I → List (Item A L) × List I
  | .atom a => ([.start, .atom a], memo)
  | .node id l children =>
      if id ∈ memo then ([.start, .get (memo.idxOf id)], memo)
      else
        let (body, memo) := saveAll memo children
        if marked l children.length then
          (.start :: .mark :: (body ++ [.build l none]), memo ++ [id])
        else (.start :: (body ++ [.build l (some children.length)]), memo ++ [id])

def saveAll (memo : List I) : List (SharedTree A L I) → List (Item A L) × List I
  | [] => ([], memo)
  | t :: ts =>
      let (items, memo) := save memo t
      let (more, memo) := saveAll memo ts
      (items ++ more, memo)

end

end Save

section Machine

inductive Slot (A L : Type) where
  | mark
  | value (t : SharedTree A L ℕ)

/-- The machine that reads the items. -/
structure Machine (A L : Type) where
  stack : List (Slot A L)
  memo : List (SharedTree A L ℕ)

def popValues : ℕ → List (Slot A L) → Option (List (SharedTree A L ℕ) × List (Slot A L))
  | 0, stack => some ([], stack)
  | n + 1, .value t :: stack => (popValues n stack).map fun x ↦ (x.1 ++ [t], x.2)
  | _ + 1, _ => none

def popToMark : List (Slot A L) → Option (List (SharedTree A L ℕ) × List (Slot A L))
  | [] => none
  | .mark :: stack => some ([], stack)
  | .value t :: stack => (popToMark stack).map fun x ↦ (x.1 ++ [t], x.2)

/-- The values from which an object is built, and the rest of the stack. -/
def popArgs (stack : List (Slot A L)) :
    Option ℕ → Option (List (SharedTree A L ℕ) × List (Slot A L))
  | some n => popValues n stack
  | none => popToMark stack

namespace Machine

/-- Build an object and number it. -/
def build (m : Machine A L) (l : L) (args : List (SharedTree A L ℕ) × List (Slot A L)) :
    Machine A L :=
  let t : SharedTree A L ℕ := .node m.memo.length l args.1
  ⟨.value t :: args.2, m.memo ++ [t]⟩

def step (m : Machine A L) : Item A L → Option (Machine A L)
  | .start => some m
  | .atom a => some { m with stack := .value (.atom a) :: m.stack }
  | .mark => some { m with stack := .mark :: m.stack }
  | .build l arity => (popArgs m.stack arity).map (m.build l)
  | .get k => m.memo[k]?.map fun t ↦ { m with stack := .value t :: m.stack }

def run (m : Machine A L) (items : List (Item A L)) : Option (Machine A L) :=
  items.foldlM step m

end Machine

end Machine

section Identities

variable (f : I → J)

mutual

theorem ids_mapIds : ∀ t : SharedTree A L I, (t.mapIds f).ids = t.ids.map f
  | .atom _ => rfl
  | .node id l children => by simp [mapIds, ids, idsAll_mapIdsAll children]

theorem idsAll_mapIdsAll :
    ∀ ts : List (SharedTree A L I), idsAll (mapIdsAll f ts) = (idsAll ts).map f
  | [] => rfl
  | t :: ts => by simp [mapIdsAll, idsAll, ids_mapIds t, idsAll_mapIdsAll ts]

end

mutual

theorem mapIds_mapIds (g : J → K) :
    ∀ t : SharedTree A L I, (t.mapIds f).mapIds g = t.mapIds (g ∘ f)
  | .atom _ => rfl
  | .node id l children => by simp [mapIds, mapIdsAll_mapIdsAll g children]

theorem mapIdsAll_mapIdsAll (g : J → K) :
    ∀ ts : List (SharedTree A L I), mapIdsAll g (mapIdsAll f ts) = mapIdsAll (g ∘ f) ts
  | [] => rfl
  | t :: ts => by simp [mapIdsAll, mapIds_mapIds g t, mapIdsAll_mapIdsAll g ts]

end

variable {f} {g : I → J}

mutual

theorem mapIds_congr :
    ∀ t : SharedTree A L I, (∀ i ∈ t.ids, f i = g i) → t.mapIds f = t.mapIds g
  | .atom _, _ => rfl
  | .node id l children, h => by
      have hid : f id = g id := h id List.mem_cons_self
      have hchildren := mapIdsAll_congr children fun i hi ↦ h i (List.mem_cons_of_mem _ hi)
      simp [mapIds, hid, hchildren]

theorem mapIdsAll_congr : ∀ ts : List (SharedTree A L I), (∀ i ∈ idsAll ts, f i = g i) →
    mapIdsAll f ts = mapIdsAll g ts
  | [], _ => rfl
  | t :: ts, h => by
      have ht := mapIds_congr t fun i hi ↦ h i (List.mem_append_left _ hi)
      have hts := mapIdsAll_congr ts fun i hi ↦ h i (List.mem_append_right _ hi)
      simp [mapIdsAll, ht, hts]

end

mutual

theorem mapIds_injective (hf : Function.Injective f) :
    ∀ t u : SharedTree A L I, t.mapIds f = u.mapIds f → t = u
  | .atom _, .atom _, h => by simpa [mapIds] using h
  | .atom _, .node .., h => by simp [mapIds] at h
  | .node .., .atom _, h => by simp [mapIds] at h
  | .node i l children, .node i' l' children', h => by
      simp only [mapIds, node.injEq] at h
      obtain ⟨hi, rfl, hchildren⟩ := h
      rw [hf hi, mapIdsAll_injective hf children children' hchildren]

theorem mapIdsAll_injective (hf : Function.Injective f) :
    ∀ ts us : List (SharedTree A L I), mapIdsAll f ts = mapIdsAll f us → ts = us
  | [], [], _ => rfl
  | [], _ :: _, h => by simp [mapIdsAll] at h
  | _ :: _, [], h => by simp [mapIdsAll] at h
  | t :: ts, u :: us, h => by
      obtain ⟨ht, hts⟩ := List.cons.inj h
      rw [mapIds_injective hf t u ht, mapIdsAll_injective hf ts us hts]

end

theorem length_mapIdsAll (f : I → J) (ts : List (SharedTree A L I)) :
    (mapIdsAll f ts).length = ts.length := by
  induction ts with
  | nil => rfl
  | cons t ts ih => simp [mapIdsAll, ih]

end Identities

section Memo

variable {object : I → SharedTree A L I}

mutual

/-- The object of an identity in a tree is not larger than the tree. -/
theorem sizeOf_object_le : ∀ t : SharedTree A L I, Denotes object t → ∀ i ∈ t.ids,
    sizeOf (object i) ≤ sizeOf t
  | .atom _, _, i, hi => absurd hi List.not_mem_nil
  | .node id l children, ⟨hobject, hchildren⟩, i, hi => by
      rcases List.mem_cons.mp hi with rfl | hi
      · rw [hobject]
      · have hlt := sizeOf_object_lt children hchildren i hi
        simp only [node.sizeOf_spec]
        omega

theorem sizeOf_object_lt : ∀ ts : List (SharedTree A L I), DenotesAll object ts →
    ∀ i ∈ idsAll ts, sizeOf (object i) < sizeOf ts
  | [], _, i, hi => absurd hi List.not_mem_nil
  | t :: ts, ⟨ht, hts⟩, i, hi => by
      simp only [List.cons.sizeOf_spec]
      rcases List.mem_append.mp hi with hi | hi
      · have hle := sizeOf_object_le t ht i hi
        omega
      · have hlt := sizeOf_object_lt ts hts i hi
        omega

end

/-- An object does not contain itself. -/
theorem not_mem_idsAll {id : I} {l : L} {children : List (SharedTree A L I)}
    (h : Denotes object (.node id l children)) : id ∉ idsAll children := by
  intro hid
  have hlt := sizeOf_object_lt children h.2 id hid
  rw [h.1, node.sizeOf_spec] at hlt
  omega

/-- The objects of a memo are written with all their parts. -/
def Closed (object : I → SharedTree A L I) (memo : List I) : Prop :=
  ∀ i ∈ memo, ∀ j ∈ (object i).ids, j ∈ memo

/-- What writing adds to a memo. -/
structure Extends (object : I → SharedTree A L I) (parts : List I) (memo memo' : List I) :
    Prop where
  added : ∃ new, memo' = memo ++ new ∧ ∀ i ∈ new, i ∈ parts
  written : ∀ i ∈ parts, i ∈ memo'
  nodup : memo'.Nodup
  closed : Closed object memo'

variable [DecidableEq I] {marked : L → ℕ → Bool}

theorem save_node_of_mem {memo : List I} {id : I} (h : id ∈ memo) (l : L)
    (children : List (SharedTree A L I)) :
    save marked memo (.node id l children) = ([.start, .get (memo.idxOf id)], memo) := by
  rw [save, if_pos h]

/-- How an object is written for the first time. -/
theorem save_node_of_not_mem {memo : List I} {id : I} (h : id ∉ memo) (l : L)
    (children : List (SharedTree A L I)) :
    save marked memo (.node id l children) =
      (.start :: ((if marked l children.length then [.mark] else []) ++
        (saveAll marked memo children).1 ++
        [.build l (if marked l children.length then none else some children.length)]),
        (saveAll marked memo children).2 ++ [id]) := by
  rw [save, if_neg h]
  cases marked l children.length <;> simp

mutual

theorem save_extends : ∀ (t : SharedTree A L I) (memo : List I), Denotes object t →
    memo.Nodup → Closed object memo → Extends object t.ids memo (save marked memo t).2
  | .atom _, memo, _, hnodup, hclosed =>
      ⟨⟨[], (List.append_nil _).symm, fun _ h ↦ absurd h List.not_mem_nil⟩,
        fun _ h ↦ absurd h List.not_mem_nil, hnodup, hclosed⟩
  | .node id l children, memo, ht, hnodup, hclosed => by
      by_cases hid : id ∈ memo
      · rw [save_node_of_mem hid]
        refine ⟨⟨[], (List.append_nil _).symm, fun _ h ↦ absurd h List.not_mem_nil⟩, ?_, hnodup,
          hclosed⟩
        have hparts := hclosed id hid
        rwa [ht.1] at hparts
      · rw [save_node_of_not_mem hid]
        obtain ⟨⟨new, hnew, hparts⟩, hwritten, hnodup', hclosed'⟩ :=
          saveAll_extends children memo ht.2 hnodup hclosed
        have hfresh : id ∉ (saveAll marked memo children).2 := by
          rw [hnew]
          intro hmem
          rcases List.mem_append.mp hmem with hmem | hmem
          · exact hid hmem
          · exact not_mem_idsAll ht (hparts id hmem)
        have hall : ∀ i ∈ (node id l children).ids,
            i ∈ (saveAll marked memo children).2 ++ [id] := by
          intro i hi
          rcases List.mem_cons.mp hi with rfl | hi
          · exact List.mem_append_right _ List.mem_cons_self
          · exact List.mem_append_left _ (hwritten i hi)
        refine ⟨⟨new ++ [id], ?_, fun i hi ↦ ?_⟩, hall, ?_, ?_⟩
        · show (saveAll marked memo children).2 ++ [id] = memo ++ (new ++ [id])
          rw [hnew, List.append_assoc]
        · rcases List.mem_append.mp hi with hi | hi
          · exact List.mem_cons_of_mem _ (hparts i hi)
          · rw [List.mem_singleton.mp hi]
            exact List.mem_cons_self
        · exact List.nodup_append.mpr ⟨hnodup', List.nodup_singleton id, fun a ha b hb heq ↦
            hfresh (List.mem_singleton.mp hb ▸ heq ▸ ha)⟩
        · intro i hi j hj
          rcases List.mem_append.mp hi with hi | hi
          · exact List.mem_append_left _ (hclosed' i hi j hj)
          · rw [List.mem_singleton.mp hi, ht.1] at hj
            exact hall j hj

theorem saveAll_extends : ∀ (ts : List (SharedTree A L I)) (memo : List I), DenotesAll object ts →
    memo.Nodup → Closed object memo → Extends object (idsAll ts) memo (saveAll marked memo ts).2
  | [], memo, _, hnodup, hclosed =>
      ⟨⟨[], (List.append_nil _).symm, fun _ h ↦ absurd h List.not_mem_nil⟩,
        fun _ h ↦ absurd h List.not_mem_nil, hnodup, hclosed⟩
  | t :: ts, memo, hts, hnodup, hclosed => by
      obtain ⟨⟨new, hnew, hparts⟩, hwritten, hnodup', hclosed'⟩ :=
        save_extends t memo hts.1 hnodup hclosed
      obtain ⟨⟨new', hnew', hparts'⟩, hwritten', hnodup'', hclosed''⟩ :=
        saveAll_extends ts (save marked memo t).2 hts.2 hnodup' hclosed'
      refine ⟨⟨new ++ new', ?_, fun i hi ↦ ?_⟩, fun i hi ↦ ?_, hnodup'', hclosed''⟩
      · show (saveAll marked (save marked memo t).2 ts).2 = _
        rw [hnew', hnew, List.append_assoc]
      · rcases List.mem_append.mp hi with hi | hi
        · exact List.mem_append_left _ (hparts i hi)
        · exact List.mem_append_right _ (hparts' i hi)
      · show i ∈ (saveAll marked (save marked memo t).2 ts).2
        rcases List.mem_append.mp hi with hi | hi
        · rw [hnew']
          exact List.mem_append_left _ (hwritten i hi)
        · exact hwritten' i hi

end

mutual

/-- A property of the labels with the numbers of children. -/
def Labels (P : L → ℕ → Prop) : SharedTree A L I → Prop
  | .atom _ => True
  | .node _ l children => P l children.length ∧ LabelsAll P children

def LabelsAll (P : L → ℕ → Prop) : List (SharedTree A L I) → Prop
  | [] => True
  | t :: ts => Labels P t ∧ LabelsAll P ts

end

section Items

variable {P : L → ℕ → Prop} {Q : Item A L → Prop}

mutual

theorem save_items (hatom : ∀ a, Q (.atom a)) (hmark : Q .mark) (hget : ∀ k, Q (.get k))
    (hbuild : ∀ l n, P l n → Q (.build l (if marked l n then none else some n))) :
    ∀ (t : SharedTree A L I) (memo : List I), Labels P t →
      ∀ x ∈ (save marked memo t).1, x = .start ∨ Q x
  | .atom a, _, _, x, hx => by
      rcases List.mem_cons.mp hx with rfl | hx
      · exact .inl (Eq.refl _)
      · rw [List.mem_singleton.mp hx]
        exact .inr (hatom a)
  | .node id l children, memo, ht, x, hx => by
      by_cases hid : id ∈ memo
      · rw [save_node_of_mem hid] at hx
        rcases List.mem_cons.mp hx with rfl | hx
        · exact .inl (Eq.refl _)
        · rw [List.mem_singleton.mp hx]
          exact .inr (hget _)
      · rw [save_node_of_not_mem hid] at hx
        rcases List.mem_cons.mp hx with rfl | hx
        · exact .inl (Eq.refl _)
        rcases List.mem_append.mp hx with hx | hx
        · rcases List.mem_append.mp hx with hx | hx
          · split at hx
            · rw [List.mem_singleton.mp hx]
              exact .inr hmark
            · exact absurd hx List.not_mem_nil
          · exact saveAll_items hatom hmark hget hbuild children memo ht.2 x hx
        · rw [List.mem_singleton.mp hx]
          exact .inr (hbuild l _ ht.1)

theorem saveAll_items (hatom : ∀ a, Q (.atom a)) (hmark : Q .mark) (hget : ∀ k, Q (.get k))
    (hbuild : ∀ l n, P l n → Q (.build l (if marked l n then none else some n))) :
    ∀ (ts : List (SharedTree A L I)) (memo : List I), LabelsAll P ts →
      ∀ x ∈ (saveAll marked memo ts).1, x = .start ∨ Q x
  | [], _, _, x, hx => absurd hx List.not_mem_nil
  | t :: ts, memo, hts, x, hx => by
      rcases List.mem_append.mp hx with hx | hx
      · exact save_items hatom hmark hget hbuild t memo hts.1 x hx
      · exact saveAll_items hatom hmark hget hbuild ts _ hts.2 x hx

end

end Items

/-- The numbers of the objects of a memo. -/
def Indexes (f : I → ℕ) (memo : List I) : Prop := ∀ k i, memo[k]? = some i → f i = k

omit [DecidableEq I] in
theorem Indexes.initial {f : I → ℕ} {memo new : List I} (h : Indexes f (memo ++ new)) :
    Indexes f memo := by
  intro k i hk
  refine h k i ?_
  have hlt := (List.getElem?_eq_some_iff.mp hk).1
  rw [List.getElem?_append_left hlt, hk]

theorem indexes_idxOf {memo : List I} (h : memo.Nodup) : Indexes (fun i ↦ memo.idxOf i) memo := by
  intro k i hk
  obtain ⟨hlt, rfl⟩ := List.getElem?_eq_some_iff.mp hk
  exact h.idxOf_getElem k hlt

/-- A stack with some more values. -/
def pushAll (ts : List (SharedTree A L ℕ)) (stack : List (Slot A L)) : List (Slot A L) :=
  (ts.map Slot.value).reverse ++ stack

omit [DecidableEq I] in
theorem popValues_pushAll (ts : List (SharedTree A L ℕ)) (stack : List (Slot A L)) :
    popValues ts.length (pushAll ts stack) = some (ts, stack) := by
  induction ts using List.reverseRecOn with
  | nil => rfl
  | append_singleton ts t ih =>
      unfold pushAll at ih ⊢
      simp [popValues, ih]

theorem popToMark_pushAll (ts : List (SharedTree A L ℕ)) (stack : List (Slot A L)) :
    popToMark (pushAll ts (.mark :: stack)) = some (ts, stack) := by
  induction ts using List.reverseRecOn with
  | nil => rfl
  | append_singleton ts t ih =>
      unfold pushAll at ih ⊢
      simp [popToMark, ih]

theorem Machine.run_append (m : Machine A L) (items more : List (Item A L)) :
    m.run (items ++ more) = (m.run items).bind fun m ↦ m.run more :=
  List.foldlM_append

/-- The machine that has read the objects of a memo, numbered by `f`. -/
def machine (object : I → SharedTree A L I) (f : I → ℕ) (stack : List (Slot A L))
    (memo : List I) : Machine A L :=
  ⟨stack, memo.map fun i ↦ (object i).mapIds f⟩

variable {f : I → ℕ}

omit [DecidableEq I] in
theorem step_build {id : I} {l : L} {children : List (SharedTree A L I)} {memo : List I}
    {stack rest : List (Slot A L)} {arity : Option ℕ} (hobject : object id = .node id l children)
    (hargs : popArgs stack arity = some (mapIdsAll f children, rest))
    (hnumber : f id = memo.length) :
    (machine object f stack memo).step (.build l arity) =
      some (machine object f (.value ((node id l children).mapIds f) :: rest) (memo ++ [id])) := by
  simp [Machine.step, Machine.build, machine, hargs, hobject, mapIds, hnumber]

mutual

/-- Reading what was written for a tree gives the tree with its numbers. -/
theorem run_save : ∀ (t : SharedTree A L I) (memo : List I) (stack : List (Slot A L)),
    Denotes object t → memo.Nodup → Closed object memo → Indexes f (save marked memo t).2 →
    (machine object f stack memo).run (save marked memo t).1 =
      some (machine object f (.value (t.mapIds f) :: stack) (save marked memo t).2)
  | .atom _, _, _, _, _, _, _ => rfl
  | .node id l children, memo, stack, ht, hnodup, hclosed, hf => by
      by_cases hid : id ∈ memo
      · rw [save_node_of_mem hid]
        have hget : (machine object f stack memo).memo[memo.idxOf id]? =
            some ((object id).mapIds f) := by
          simp [machine, List.getElem?_idxOf hid]
        simp only [Machine.run, List.foldlM_cons, List.foldlM_nil, Machine.step, hget, ht.1,
          Option.map_some, Option.bind_eq_bind, Option.bind_some]
        rfl
      · rw [save_node_of_not_mem hid] at hf ⊢
        have hbody := hf.initial
        have hnumber : f id = (saveAll marked memo children).2.length :=
          hf _ id (by simp)
        by_cases hmarked : marked l children.length = true
        · have hrun := runAll_save children memo (.mark :: stack) ht.2 hnodup hclosed hbody
          have hargs : popArgs (pushAll (mapIdsAll f children) (.mark :: stack)) none =
              some (mapIdsAll f children, stack) := popToMark_pushAll _ _
          have hbuild := step_build ht.1 hargs hnumber
          simp only [hmarked, if_true]
          show Machine.run (machine object f (.mark :: stack) memo)
            ((saveAll marked memo children).1 ++ [.build l none]) = _
          rw [Machine.run_append, hrun]
          exact (Option.bind_some _ _).trans (by simp [Machine.run, hbuild])
        · have hrun := runAll_save children memo stack ht.2 hnodup hclosed hbody
          have hargs : popArgs (pushAll (mapIdsAll f children) stack) (some children.length) =
              some (mapIdsAll f children, stack) := by
            rw [← length_mapIdsAll f children]
            exact popValues_pushAll _ _
          have hbuild := step_build ht.1 hargs hnumber
          simp only [if_neg hmarked]
          show Machine.run (machine object f stack memo)
            ((saveAll marked memo children).1 ++ [.build l (some children.length)]) = _
          rw [Machine.run_append, hrun]
          exact (Option.bind_some _ _).trans (by simp [Machine.run, hbuild])

theorem runAll_save : ∀ (ts : List (SharedTree A L I)) (memo : List I) (stack : List (Slot A L)),
    DenotesAll object ts → memo.Nodup → Closed object memo →
    Indexes f (saveAll marked memo ts).2 →
    (machine object f stack memo).run (saveAll marked memo ts).1 =
      some (machine object f (pushAll (mapIdsAll f ts) stack) (saveAll marked memo ts).2)
  | [], _, _, _, _, _, _ => rfl
  | t :: ts, memo, stack, hts, hnodup, hclosed, hf => by
      have hextends : Extends object t.ids memo (save marked memo t).2 :=
        save_extends t memo hts.1 hnodup hclosed
      have hextends' : Extends object (idsAll ts) (save marked memo t).2
          (saveAll marked (save marked memo t).2 ts).2 :=
        saveAll_extends ts _ hts.2 hextends.nodup hextends.closed
      obtain ⟨new, hnew, -⟩ := hextends'.added
      have hf' : Indexes f (saveAll marked (save marked memo t).2 ts).2 := hf
      have hfirst := run_save t memo stack hts.1 hnodup hclosed (hnew ▸ hf').initial
      have hrest := runAll_save ts (save marked memo t).2 (.value (t.mapIds f) :: stack) hts.2
        hextends.nodup hextends.closed hf'
      show (machine object f stack memo).run ((save marked memo t).1 ++ _) = _
      rw [Machine.run_append, hfirst, Option.bind_some, hrest]
      simp [pushAll, mapIdsAll]
      rfl

end

end Memo

section Sharing

variable [DecidableEq I] {marked : L → ℕ → Bool} {S : Set I} {g : I → I}

theorem idxOf_map (hg : Set.InjOn g S) {memo : List I} (hmemo : ∀ i ∈ memo, i ∈ S) {id : I}
    (hid : id ∈ S) : (memo.map g).idxOf (g id) = memo.idxOf id := by
  induction memo with
  | nil => rfl
  | cons i memo ih =>
      have hi : i ∈ S := hmemo i List.mem_cons_self
      have hrest := ih fun j hj ↦ hmemo j (List.mem_cons_of_mem _ hj)
      by_cases h : i = id
      · simp [h]
      · have hne : g i ≠ g id := fun heq ↦ h (hg hi hid heq)
        rw [List.map_cons, List.idxOf_cons_ne _ hne, List.idxOf_cons_ne _ h, hrest]

mutual

/-- Other identities give the same items. -/
theorem save_mapIds (hg : Set.InjOn g S) : ∀ (t : SharedTree A L I) (memo : List I),
    (∀ i ∈ t.ids, i ∈ S) → (∀ i ∈ memo, i ∈ S) →
    save marked (memo.map g) (t.mapIds g) =
      ((save marked memo t).1, (save marked memo t).2.map g) ∧
      ∀ i ∈ (save marked memo t).2, i ∈ S
  | .atom _, _, _, hmemo => ⟨rfl, hmemo⟩
  | .node id l children, memo, ht, hmemo => by
      have hid : id ∈ S := ht id List.mem_cons_self
      have hmem : g id ∈ memo.map g ↔ id ∈ memo := by
        refine ⟨fun h ↦ ?_, List.mem_map_of_mem⟩
        obtain ⟨i, hi, heq⟩ := List.mem_map.mp h
        rwa [← hg (hmemo i hi) hid heq]
      by_cases h : id ∈ memo
      · rw [mapIds, save_node_of_mem (hmem.mpr h), save_node_of_mem h, idxOf_map hg hmemo hid]
        exact ⟨rfl, hmemo⟩
      · obtain ⟨hbody, hmemo'⟩ := saveAll_mapIds hg children memo
          (fun i hi ↦ ht i (List.mem_cons_of_mem _ hi)) hmemo
        rw [mapIds, save_node_of_not_mem (mt hmem.mp h), save_node_of_not_mem h, hbody,
          length_mapIdsAll]
        refine ⟨by simp, fun i hi ↦ ?_⟩
        rcases List.mem_append.mp hi with hi | hi
        · exact hmemo' i hi
        · rwa [List.mem_singleton.mp hi]

theorem saveAll_mapIds (hg : Set.InjOn g S) : ∀ (ts : List (SharedTree A L I)) (memo : List I),
    (∀ i ∈ idsAll ts, i ∈ S) → (∀ i ∈ memo, i ∈ S) →
    saveAll marked (memo.map g) (mapIdsAll g ts) =
      ((saveAll marked memo ts).1, (saveAll marked memo ts).2.map g) ∧
      ∀ i ∈ (saveAll marked memo ts).2, i ∈ S
  | [], _, _, hmemo => ⟨rfl, hmemo⟩
  | t :: ts, memo, hts, hmemo => by
      obtain ⟨hfirst, hmemo'⟩ :=
        save_mapIds hg t memo (fun i hi ↦ hts i (List.mem_append_left _ hi)) hmemo
      obtain ⟨hrest, hmemo''⟩ := saveAll_mapIds hg ts (save marked memo t).2
        (fun i hi ↦ hts i (List.mem_append_right _ hi)) hmemo'
      refine ⟨?_, hmemo''⟩
      simp only [mapIdsAll, saveAll, hfirst, hrest]

end

/-- The items without the starts of the objects. -/
def contents (items : List (Item A L)) : List (Item A L) :=
  items.filter fun x ↦ match x with
    | .start => false
    | _ => true

theorem run_contents (m : Machine A L) (items : List (Item A L)) :
    m.run (contents items) = m.run items := by
  induction items generalizing m with
  | nil => rfl
  | cons x rest ih =>
      have hkept : contents (x :: rest) = x :: contents rest →
          m.run (contents (x :: rest)) = m.run (x :: rest) := by
        intro hx
        rw [hx]
        show (m.step x).bind (fun m' ↦ m'.run (contents rest)) =
          (m.step x).bind fun m' ↦ m'.run rest
        exact Option.bind_congr fun m' _ ↦ ih m'
      cases x with
      | start => exact ih m
      | atom a => exact hkept (Eq.refl _)
      | mark => exact hkept (Eq.refl _)
      | build l arity => exact hkept (Eq.refl _)
      | get k => exact hkept (Eq.refl _)

/-- Equal items come from trees with the same sharing. -/
theorem SameSharing.of_contents {t u : SharedTree A L I} (ht : t.Coherent) (hu : u.Coherent)
    (h : contents (save marked [] t).1 = contents (save marked [] u).1) : t.SameSharing u := by
  obtain ⟨object, ht⟩ := ht
  obtain ⟨object', hu⟩ := hu
  have hclosed : ∀ o : I → SharedTree A L I, Closed o [] := fun _ _ hi ↦ absurd hi List.not_mem_nil
  have htmemo : Extends object t.ids [] (save marked [] t).2 :=
    save_extends t [] ht List.nodup_nil (hclosed object)
  have humemo : Extends object' u.ids [] (save marked [] u).2 :=
    save_extends u [] hu List.nodup_nil (hclosed object')
  have htf := indexes_idxOf htmemo.nodup
  have huf := indexes_idxOf humemo.nodup
  have htrun := run_save t [] [] ht List.nodup_nil (hclosed object) htf
  have hurun := run_save u [] [] hu List.nodup_nil (hclosed object') huf
  generalize (save marked [] t).2 = memo at htmemo htf htrun
  generalize (save marked [] u).2 = memo' at humemo huf hurun
  -- both streams leave the tree with its numbers on the stack
  have hnumbered : t.mapIds (fun i ↦ memo.idxOf i) = u.mapIds fun i ↦ memo'.idxOf i := by
    have hstart : machine object (fun i ↦ memo.idxOf i) [] [] =
        (machine object' (fun i ↦ memo'.idxOf i) [] [] : Machine A L) := rfl
    rw [← run_contents, h, run_contents, hstart, hurun] at htrun
    have hstack := congrArg Machine.stack (Option.some.inj htrun)
    exact (Slot.value.inj (List.cons.inj hstack).1).symm
  have hindex : ∀ i ∈ t.ids, memo.idxOf i < memo'.length := by
    intro i hi
    have hmem : memo.idxOf i ∈ (t.mapIds fun i ↦ memo.idxOf i).ids := by
      rw [ids_mapIds]
      exact List.mem_map_of_mem hi
    rw [hnumbered, ids_mapIds] at hmem
    obtain ⟨j, hj, hij⟩ := List.mem_map.mp hmem
    rw [← hij]
    exact List.idxOf_lt_length_of_mem (humemo.written j hj)
  refine ⟨fun i ↦ (memo'[memo.idxOf i]?).getD i, fun i hi j hj hij ↦ ?_, ?_⟩
  · have hi' := hindex i hi
    have hj' := hindex j hj
    have hsame : memo.idxOf i = memo.idxOf j := by
      have hget : memo'[memo.idxOf i] = memo'[memo.idxOf j] := by
        simpa [List.getElem?_eq_getElem hi', List.getElem?_eq_getElem hj'] using hij
      exact (humemo.nodup.getElem_inj_iff).mp hget
    exact (List.idxOf_inj (htmemo.written i hi)).mp hsame
  · have hsome : ∀ i ∈ t.ids,
        some ((memo'[memo.idxOf i]?).getD i) = memo'[memo.idxOf i]? := by
      intro i hi
      rw [List.getElem?_eq_getElem (hindex i hi), Option.getD_some]
    have hback : ∀ j ∈ u.ids, memo'[memo'.idxOf j]? = some j := fun j hj ↦
      List.getElem?_idxOf (humemo.written j hj)
    refine mapIds_injective (Option.some_injective I) _ _ ?_
    calc (t.mapIds fun i ↦ (memo'[memo.idxOf i]?).getD i).mapIds some
        = t.mapIds fun i ↦ memo'[memo.idxOf i]? := by
          rw [mapIds_mapIds]
          exact mapIds_congr t hsome
      _ = (t.mapIds fun i ↦ memo.idxOf i).mapIds fun k ↦ memo'[k]? := by
          rw [mapIds_mapIds]
          rfl
      _ = u.mapIds fun j ↦ memo'[memo'.idxOf j]? := by
          rw [hnumbered, mapIds_mapIds]
          rfl
      _ = u.mapIds some := mapIds_congr u hback

/-- Trees with the same sharing have equal items. -/
theorem SameSharing.save_eq {t u : SharedTree A L I} (h : t.SameSharing u) :
    (save marked [] t).1 = (save marked [] u).1 := by
  obtain ⟨g, hg, rfl⟩ := h
  have hsave : save marked [] (t.mapIds g) = ((save marked [] t).1, (save marked [] t).2.map g) :=
    (save_mapIds hg t [] (fun _ hi ↦ hi) fun _ hi ↦ absurd hi List.not_mem_nil).1
  rw [hsave]

end Sharing

end SharedTree

end DjangoNova
