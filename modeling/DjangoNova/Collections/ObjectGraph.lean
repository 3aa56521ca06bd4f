import Mathlib.Data.List.Basic
import Mathlib.Logic.Relation
import Mathlib.Tactic.Common

/-!
# Object graphs

A heap is a list of cells, and a cell refers to others by their addresses;
references may be shared and cyclic. A copy of a graph is an isomorphic
one, and what is reached from one root stays as it is as long as writes
reach none of it.
-/

namespace DjangoNova

namespace ObjectGraph

inductive Item (L : Type) where
  | atom (label : L)
  | ref (address : ℕ)
  deriving DecidableEq

structure Cell (L : Type) where
  label : L
  items : List (Item L)
  deriving DecidableEq

variable {L : Type}

def Item.map (m : ℕ → ℕ) : Item L → Item L
  | .atom label => .atom label
  | .ref x => .ref (m x)

def Cell.map (m : ℕ → ℕ) (c : Cell L) : Cell L := ⟨c.label, c.items.map (Item.map m)⟩

def Edge (h : List (Cell L)) (x y : ℕ) : Prop := ∃ c : Cell L, h[x]? = some c ∧ .ref y ∈ c.items

def Reaches (h : List (Cell L)) : ℕ → ℕ → Prop := Relation.ReflTransGen (Edge h)

/-- No reference dangles. -/
def Closed (h : List (Cell L)) : Prop :=
  ∀ (x : ℕ) (c : Cell L), h[x]? = some c → ∀ y, .ref y ∈ c.items → y < h.length

/-- The label of a cell, or of an atom in it. -/
def Carries (h : List (Cell L)) (x : ℕ) (label : L) : Prop :=
  ∃ c : Cell L, h[x]? = some c ∧ (label = c.label ∨ .atom label ∈ c.items)

/-- The labels of what the root reaches. -/
def Labelled (h : List (Cell L)) (root : ℕ) (label : L) : Prop :=
  ∃ x, Reaches h root x ∧ Carries h x label

/-- The graph of a root, renamed by an injection, stands in another heap. -/
structure Copies (h : List (Cell L)) (root : ℕ) (h' : List (Cell L)) (m : ℕ → ℕ) : Prop where
  cell : ∀ x, Reaches h root x → ∃ c, h[x]? = some c ∧ h'[m x]? = some (c.map m)
  inj : ∀ x y, Reaches h root x → Reaches h root y → m x = m y → x = y

def ReachesFrom (h : List (Cell L)) (roots : List ℕ) (x : ℕ) : Prop :=
  ∃ root ∈ roots, Reaches h root x

variable {h h' : List (Cell L)} {root x y : ℕ} {m : ℕ → ℕ}

theorem Reaches.lt (hclosed : Closed h) (hroot : root < h.length) (hx : Reaches h root x) :
    x < h.length := by
  induction hx with
  | refl => exact hroot
  | tail _ hedge _ =>
      obtain ⟨c, hc, hy⟩ := hedge
      exact hclosed _ c hc _ hy

/-- Equal cells are reached in the same way. -/
theorem reaches_congr (heq : ∀ x, Reaches h root x → h'[x]? = h[x]?) :
    Reaches h' root x ↔ Reaches h root x := by
  constructor
  · intro hx
    induction hx with
    | refl => exact .refl
    | tail _ hedge ih =>
        obtain ⟨c, hc, hy⟩ := hedge
        exact ih.tail ⟨c, (heq _ ih).symm.trans hc, hy⟩
  · intro hx
    induction hx with
    | refl => exact .refl
    | tail hreach hedge ih =>
        obtain ⟨c, hc, hy⟩ := hedge
        exact ih.tail ⟨c, (heq _ hreach).trans hc, hy⟩

/-- The heap keeps its cells, and may have further ones. -/
def Extends (h h' : List (Cell L)) : Prop := ∀ x < h.length, h'[x]? = h[x]?

theorem Extends.length_le (hext : Extends h h') : h.length ≤ h'.length := by
  by_contra hlt
  have hlast := hext h'.length (Nat.lt_of_not_le hlt)
  rw [List.getElem?_eq_none (Nat.le_refl _),
    List.getElem?_eq_getElem (Nat.lt_of_not_le hlt)] at hlast
  cases hlast

theorem Extends.reaches (hext : Extends h h') (hclosed : Closed h) (hroot : root < h.length) :
    Reaches h' root x ↔ Reaches h root x :=
  reaches_congr fun _ hx ↦ hext _ (hx.lt hclosed hroot)

theorem extends_append (h t : List (Cell L)) : Extends h (h ++ t) :=
  fun _ hx ↦ List.getElem?_append_left hx

theorem ReachesFrom.lt {roots : List ℕ} (hclosed : Closed h) (hroots : ∀ r ∈ roots, r < h.length)
    (hx : ReachesFrom h roots x) : x < h.length := by
  obtain ⟨r, hr, hreach⟩ := hx
  exact hreach.lt hclosed (hroots r hr)

/-- Whoever sets a cell to what it reaches does not reach more. -/
theorem reachesFrom_set {roots : List ℕ} {c : Cell L}
    (hc : ∀ z, .ref z ∈ c.items → ReachesFrom h roots z)
    (hy : ReachesFrom (h.set x c) roots y) : ReachesFrom h roots y := by
  obtain ⟨r, hr, hreach⟩ := hy
  induction hreach with
  | refl => exact ⟨r, hr, .refl⟩
  | tail _ hedge ih =>
      obtain ⟨c', hc', hz⟩ := hedge
      rename_i w z _
      by_cases hxw : x = w
      · subst hxw
        by_cases hlt : x < h.length
        · rw [List.getElem?_set_self hlt] at hc'
          exact hc z (Option.some.inj hc' ▸ hz)
        · rw [List.getElem?_eq_none (by simpa using hlt)] at hc'
          cases hc'
      · rw [List.getElem?_set_ne hxw] at hc'
        obtain ⟨r', hr', hreach'⟩ := ih
        exact ⟨r', hr', hreach'.tail ⟨c', hc', hz⟩⟩

/-- A new cell reaches itself, and what its items reach. -/
theorem reaches_append {roots : List ℕ} {c : Cell L} (hclosed : Closed h)
    (hroots : ∀ r ∈ roots, r < h.length) (hc : ∀ z, .ref z ∈ c.items → ReachesFrom h roots z)
    (hx : Reaches (h ++ [c]) h.length x) : x = h.length ∨ ReachesFrom h roots x := by
  rcases hx.cases_head with rfl | ⟨z, ⟨c', hc', hz⟩, hreach⟩
  · exact .inl rfl
  · rw [List.getElem?_concat_length] at hc'
    have hfrom := hc z (Option.some.inj hc' ▸ hz)
    have hkept := ((extends_append h [c]).reaches hclosed (hfrom.lt hclosed hroots)).mp hreach
    obtain ⟨r, hr, hold⟩ := hfrom
    exact .inr ⟨r, hr, hold.trans hkept⟩

theorem closed_set {c : Cell L} (hclosed : Closed h)
    (hc : ∀ z, .ref z ∈ c.items → z < h.length) : Closed (h.set x c) := by
  intro w c' hc' z hz
  rw [List.length_set]
  by_cases hxw : x = w
  · subst hxw
    by_cases hlt : x < h.length
    · rw [List.getElem?_set_self hlt] at hc'
      exact hc z (Option.some.inj hc' ▸ hz)
    · rw [List.getElem?_eq_none (by simpa using hlt)] at hc'
      cases hc'
  · rw [List.getElem?_set_ne hxw] at hc'
    exact hclosed w c' hc' z hz

theorem closed_append {c : Cell L} (hclosed : Closed h)
    (hc : ∀ z, .ref z ∈ c.items → z < h.length) : Closed (h ++ [c]) := by
  intro w c' hc' z hz
  rw [List.length_append, List.length_singleton]
  by_cases hlt : w < h.length
  · rw [List.getElem?_append_left hlt] at hc'
    exact Nat.lt_succ_of_lt (hclosed w c' hc' z hz)
  · obtain ⟨hw, -⟩ := List.getElem?_eq_some_iff.mp hc'
    rw [List.length_append, List.length_singleton] at hw
    obtain rfl : w = h.length := by omega
    rw [List.getElem?_concat_length] at hc'
    exact Nat.lt_succ_of_lt (hc z (Option.some.inj hc' ▸ hz))

theorem Copies.reaches (hcopy : Copies h root h' m) :
    Reaches h' (m root) y ↔ ∃ x, Reaches h root x ∧ m x = y := by
  constructor
  · intro hy
    induction hy with
    | refl => exact ⟨root, .refl, rfl⟩
    | tail _ hedge ih =>
        obtain ⟨c', hc', hz⟩ := hedge
        obtain ⟨x, hx, rfl⟩ := ih
        obtain ⟨c, hc, hcopied⟩ := hcopy.cell x hx
        obtain rfl := Option.some.inj (hcopied.symm.trans hc')
        obtain ⟨i, hi, hmap⟩ := List.mem_map.mp hz
        cases i with
        | atom label => cases hmap
        | ref z => exact ⟨z, hx.tail ⟨c, hc, hi⟩, by injection hmap⟩
  · rintro ⟨x, hx, rfl⟩
    induction hx with
    | refl => exact .refl
    | tail hreach hedge ih =>
        obtain ⟨c, hc, hz⟩ := hedge
        obtain ⟨c', hc', hcopied⟩ := hcopy.cell _ hreach
        obtain rfl := Option.some.inj (hc'.symm.trans hc)
        exact ih.tail ⟨_, hcopied, List.mem_map.mpr ⟨_, hz, rfl⟩⟩

theorem map_map (m m' : ℕ → ℕ) (i : Item L) : (i.map m).map m' = i.map (m' ∘ m) := by
  cases i <;> rfl

/-- A copy of a copy. -/
theorem Copies.trans {h'' : List (Cell L)} {m' : ℕ → ℕ} (hcopy : Copies h root h' m)
    (hcopy' : Copies h' (m root) h'' m') : Copies h root h'' (m' ∘ m) := by
  constructor
  · intro x hx
    obtain ⟨c, hc, hcopied⟩ := hcopy.cell x hx
    obtain ⟨c', hc', hcopied'⟩ := hcopy'.cell (m x) (hcopy.reaches.mpr ⟨x, hx, rfl⟩)
    obtain rfl := Option.some.inj (hcopied.symm.trans hc')
    refine ⟨c, hc, hcopied'.trans ?_⟩
    simp [Cell.map, map_map, Function.comp_def]
  · intro x y hx hy heq
    exact hcopy.inj x y hx hy (hcopy'.inj _ _ (hcopy.reaches.mpr ⟨x, hx, rfl⟩)
      (hcopy.reaches.mpr ⟨y, hy, rfl⟩) heq)

/-- A copy stays one while its cells stay. -/
theorem Copies.congr {h'' : List (Cell L)} (hcopy : Copies h root h' m)
    (heq : ∀ x, Reaches h' (m root) x → h''[x]? = h'[x]?) : Copies h root h'' m := by
  refine ⟨fun x hx ↦ ?_, hcopy.inj⟩
  obtain ⟨c, hc, hcopied⟩ := hcopy.cell x hx
  exact ⟨c, hc, (heq _ (hcopy.reaches.mpr ⟨x, hx, rfl⟩)).trans hcopied⟩

end ObjectGraph

end DjangoNova
