import Mathlib.Data.List.Nodup
import Mathlib.Data.List.Perm.Subperm
import Mathlib.Data.Set.Card

/-!
# Dictionaries in insertion order

A dictionary is a list of entries with distinct keys. Assignment to a
present key keeps its place, and a new key goes to the end.
-/

namespace DjangoNova

structure OrderedDict (α β : Type*) where
  items : List (α × β)
  nodup : (items.map Prod.fst).Nodup

namespace OrderedDict

variable {α β : Type*}

@[ext] theorem ext {d e : OrderedDict α β} (h : d.items = e.items) : d = e := by
  cases d
  cases e
  cases h
  rfl

def empty : OrderedDict α β := ⟨[], List.nodup_nil⟩

def keys (d : OrderedDict α β) : List α := d.items.map Prod.fst

def length (d : OrderedDict α β) : ℕ := d.items.length

theorem length_keys (d : OrderedDict α β) : d.keys.length = d.length := List.length_map _

theorem mem_keys {d : OrderedDict α β} {k : α} : k ∈ d.keys ↔ ∃ b, (k, b) ∈ d.items := by
  simp [keys]

theorem encard_keys (d : OrderedDict α β) : {k | k ∈ d.keys}.encard = d.length := by
  classical
  have hkeys : {k | k ∈ d.keys} = (d.keys.toFinset : Set α) := by
    ext k
    simp
  have hcard : d.keys.toFinset.card = d.keys.length := List.toFinset_card_of_nodup d.nodup
  rw [hkeys, Set.encard_coe_eq_coe_finsetCard, hcard, length_keys]

/-- A key has one value. -/
theorem value_unique {d : OrderedDict α β} {k : α} {b b' : β} (h : (k, b) ∈ d.items)
    (h' : (k, b') ∈ d.items) : b = b' :=
  (Prod.mk.inj (List.inj_on_of_nodup_map d.nodup h h' rfl)).2

/-- The entries that satisfy a test. -/
def filter (d : OrderedDict α β) (p : α × β → Bool) : OrderedDict α β :=
  ⟨d.items.filter p, d.nodup.sublist (List.filter_sublist.map _)⟩

/-- The entries after the first ones. -/
def drop (d : OrderedDict α β) (n : ℕ) : OrderedDict α β :=
  ⟨d.items.drop n, d.nodup.sublist ((List.drop_sublist n _).map _)⟩

@[simp] theorem items_empty : (empty : OrderedDict α β).items = [] := rfl

@[simp] theorem items_filter (d : OrderedDict α β) (p : α × β → Bool) :
    (d.filter p).items = d.items.filter p := rfl

@[simp] theorem items_drop (d : OrderedDict α β) (n : ℕ) : (d.drop n).items = d.items.drop n := rfl

variable [DecidableEq α] {d : OrderedDict α β} {k k' : α} {b b' : β}

def lookup (d : OrderedDict α β) (k : α) : Option β := d.items.lookup k

theorem lookup_eq_some_iff : d.lookup k = some b ↔ (k, b) ∈ d.items := by
  obtain ⟨items, hnodup⟩ := d
  unfold lookup
  induction items with
  | nil => simp
  | cons x rest ih =>
      obtain ⟨a, c⟩ := x
      have hrest : (rest.map Prod.fst).Nodup := hnodup.of_cons
      have hfirst : a ∉ rest.map Prod.fst := (List.nodup_cons.mp hnodup).1
      by_cases hka : k = a
      · subst hka
        have habsent : (k, b) ∉ rest := fun hmem ↦ hfirst (List.mem_map_of_mem hmem)
        simp [habsent, eq_comm]
      · have hne : (k == a) = false := by simpa using hka
        simp only [List.lookup_cons, hne, List.mem_cons, Prod.mk.injEq, hka, false_and, false_or]
        exact ih hrest

theorem lookup_eq_none_iff : d.lookup k = none ↔ k ∉ d.keys := by
  rw [mem_keys, Option.eq_none_iff_forall_not_mem]
  simp only [Option.mem_def, lookup_eq_some_iff, not_exists]

/-- `del d[k]` -/
def erase (d : OrderedDict α β) (k : α) : OrderedDict α β := d.filter fun x ↦ x.1 ≠ k

theorem mem_erase : (k', b') ∈ (d.erase k).items ↔ k' ≠ k ∧ (k', b') ∈ d.items := by
  simp [erase, and_comm]

theorem mem_keys_erase : k' ∈ (d.erase k).keys ↔ k' ≠ k ∧ k' ∈ d.keys := by
  simp [mem_keys, mem_erase]

theorem not_mem_erase : k ∉ (d.erase k).keys := by
  rw [mem_keys]
  rintro ⟨b, hb⟩
  exact (mem_erase.mp hb).1 rfl

theorem length_erase_le (d : OrderedDict α β) (k : α) : (d.erase k).length ≤ d.length :=
  List.length_filter_le _ _

theorem length_erase_lt (h : k ∈ d.keys) : (d.erase k).length < d.length := by
  obtain ⟨b, hb⟩ := mem_keys.mp h
  exact List.length_filter_lt_length_iff_exists.mpr ⟨_, hb, by simp⟩

/-- The first entry is dropped by deleting its key. -/
theorem erase_head {x : α × β} {rest : List (α × β)} (h : d.items = x :: rest) :
    d.erase x.1 = d.drop 1 := by
  have hnodup : ((x :: rest).map Prod.fst).Nodup := h ▸ d.nodup
  have hrest : ∀ y ∈ rest, y.1 ≠ x.1 := by
    intro y hy heq
    exact (List.nodup_cons.mp hnodup).1 (heq ▸ List.mem_map_of_mem hy)
  refine ext ?_
  simp only [erase, items_filter, items_drop, h, List.drop_succ_cons, List.drop_zero]
  rw [List.filter_cons_of_neg (by simp)]
  exact List.filter_eq_self.mpr fun y hy ↦ decide_eq_true (hrest y hy)

theorem erase_comm (k k' : α) : (d.erase k).erase k' = (d.erase k').erase k :=
  ext (List.filter_comm ..)

/-- `d[k] = b` -/
def setItem (d : OrderedDict α β) (k : α) (b : β) : OrderedDict α β where
  items := if k ∈ d.keys then d.items.map fun x ↦ if x.1 = k then (k, b) else x
    else d.items ++ [(k, b)]
  nodup := by
    split
    · have hkeys : (d.items.map fun x ↦ if x.1 = k then (k, b) else x).map Prod.fst =
          d.items.map Prod.fst := by
        rw [List.map_map]
        refine List.map_congr_left fun x _ ↦ ?_
        by_cases hx : x.1 = k <;> simp [hx]
      rw [hkeys]
      exact d.nodup
    · rename_i hk
      rw [List.map_append]
      refine List.nodup_append.mpr ⟨d.nodup, List.nodup_singleton k, ?_⟩
      rintro a ha c hc rfl
      have hak : a = k := List.mem_singleton.mp hc
      exact hk (hak ▸ ha)

theorem items_setItem : (d.setItem k b).items =
    if k ∈ d.keys then d.items.map fun x ↦ if x.1 = k then (k, b) else x
    else d.items ++ [(k, b)] := rfl

theorem mem_setItem :
    (k', b') ∈ (d.setItem k b).items ↔ (k' = k ∧ b' = b) ∨ (k' ≠ k ∧ (k', b') ∈ d.items) := by
  unfold setItem
  by_cases hk : k ∈ d.keys
  · simp only [if_pos hk, List.mem_map]
    constructor
    · rintro ⟨x, hx, heq⟩
      by_cases hxk : x.1 = k
      · rw [if_pos hxk] at heq
        obtain ⟨rfl, rfl⟩ := Prod.mk.inj heq
        exact .inl ⟨rfl, rfl⟩
      · rw [if_neg hxk] at heq
        subst heq
        exact .inr ⟨hxk, hx⟩
    · rintro (⟨rfl, rfl⟩ | ⟨hne, hmem⟩)
      · obtain ⟨c, hc⟩ := mem_keys.mp hk
        exact ⟨_, hc, by simp⟩
      · exact ⟨_, hmem, by simp [hne]⟩
  · have hne : ∀ c, (k, c) ∉ d.items := fun c hc ↦ hk (mem_keys.mpr ⟨c, hc⟩)
    simp only [if_neg hk, List.mem_append, List.mem_singleton, Prod.mk.injEq]
    constructor
    · rintro (hmem | heq)
      · refine .inr ⟨?_, hmem⟩
        rintro rfl
        exact hne _ hmem
      · exact .inl heq
    · rintro (heq | ⟨-, hmem⟩)
      · exact .inr heq
      · exact .inl hmem

theorem lookup_setItem : (d.setItem k b).lookup k' = if k' = k then some b else d.lookup k' := by
  ext c
  rw [lookup_eq_some_iff, mem_setItem]
  split
  case isTrue hk => simp [hk, eq_comm]
  case isFalse hk => simp [hk, lookup_eq_some_iff]

theorem mem_keys_setItem : k' ∈ (d.setItem k b).keys ↔ k' = k ∨ k' ∈ d.keys := by
  simp only [mem_keys, mem_setItem]
  by_cases hk : k' = k <;> simp [hk]

theorem length_setItem :
    (d.setItem k b).length = if k ∈ d.keys then d.length else d.length + 1 := by
  unfold setItem length
  split <;> simp

/-- `d.move_to_end(k)` -/
def moveToEnd (d : OrderedDict α β) (k : α) : OrderedDict α β :=
  match d.lookup k with
  | none => d
  | some b => (d.erase k).setItem k b

theorem moveToEnd_of_mem (h : (k, b) ∈ d.items) :
    (d.moveToEnd k).items = (d.erase k).items ++ [(k, b)] := by
  simp only [moveToEnd, lookup_eq_some_iff.mpr h]
  exact if_neg not_mem_erase

/-- Assign to a key and move it to the end. -/
theorem moveToEnd_setItem :
    ((d.setItem k b).moveToEnd k).items = (d.erase k).items ++ [(k, b)] := by
  rw [moveToEnd_of_mem (mem_setItem.mpr (.inl ⟨Eq.refl _, Eq.refl _⟩))]
  have hitems : ((d.setItem k b).erase k).items = (d.erase k).items := by
    unfold setItem erase
    by_cases hk : k ∈ d.keys
    · simp only [if_pos hk, items_filter, ne_eq, decide_not]
      generalize d.items = items
      induction items with
      | nil => rfl
      | cons x rest ih => by_cases hxk : x.1 = k <;> simp [hxk, ih]
    · simp [if_neg hk]
  rw [hitems]

/-- Assign entries one after the other. -/
def setItems (d : OrderedDict α β) (entries : List (α × β)) : OrderedDict α β :=
  entries.foldl (fun d x ↦ d.setItem x.1 x.2) d

theorem mem_of_mem_setItems {entries : List (α × β)}
    (h : (k, b) ∈ (d.setItems entries).items) : (k, b) ∈ d.items ∨ (k, b) ∈ entries := by
  induction entries generalizing d with
  | nil => exact .inl h
  | cons x rest ih =>
      rcases ih h with h | h
      · rcases mem_setItem.mp h with ⟨rfl, rfl⟩ | ⟨-, h⟩
        · exact .inr List.mem_cons_self
        · exact .inl h
      · exact .inr (List.mem_cons_of_mem _ h)

/-- An entry that no other one overwrites is stored. -/
theorem mem_setItems {entries : List (α × β)} (h : (k, b) ∈ d.items ∨ (k, b) ∈ entries)
    (hunique : ∀ b', (k, b') ∈ entries → b' = b) : (k, b) ∈ (d.setItems entries).items := by
  induction entries generalizing d with
  | nil => exact h.resolve_right List.not_mem_nil
  | cons x rest ih =>
      refine ih ?_ fun b' hb' ↦ hunique b' (List.mem_cons_of_mem _ hb')
      rcases h with h | h
      · refine .inl (mem_setItem.mpr ?_)
        by_cases hx : k = x.1
        · have hb : x.2 = b := hunique x.2 (hx ▸ List.mem_cons_self)
          exact .inl ⟨hx, hb.symm⟩
        · exact .inr ⟨hx, h⟩
      · rcases List.mem_cons.mp h with h | h
        · subst h
          exact .inl (mem_setItem.mpr (.inl ⟨Eq.refl _, Eq.refl _⟩))
        · exact .inr h

/-- Assigning mapped values gives the mapped entries. -/
theorem items_setItems_map {γ : Type*} (f : β → γ) (entries : List (α × β)) {e : OrderedDict α γ}
    (h : e.items = d.items.map fun x ↦ (x.1, f x.2)) :
    (e.setItems (entries.map fun x ↦ (x.1, f x.2))).items =
      (d.setItems entries).items.map fun x ↦ (x.1, f x.2) := by
  induction entries generalizing d e with
  | nil => exact h
  | cons x rest ih =>
      refine ih ?_
      have hkeys : e.keys = d.keys := by simp [keys, h, Function.comp_def]
      show (e.setItem x.1 (f x.2)).items = (d.setItem x.1 x.2).items.map fun x ↦ (x.1, f x.2)
      rw [items_setItem, items_setItem, hkeys]
      by_cases hx : x.1 ∈ d.keys
      · simp only [if_pos hx, h, List.map_map]
        refine List.map_congr_left fun y _ ↦ ?_
        by_cases hy : y.1 = x.1 <;> simp [hy]
      · simp [if_neg hx, h]

/-- `d.update(e)` -/
def update (d e : OrderedDict α β) : OrderedDict α β := d.setItems e.items

/-- The keys that the entries would add. -/
def newKeys (d : OrderedDict α β) (entries : List (α × β)) : List α :=
  (entries.map Prod.fst).filter (· ∉ d.keys)

theorem newKeys_cons {x : α × β} {rest : List (α × β)} (hx : x.1 ∉ rest.map Prod.fst) :
    (d.newKeys (x :: rest)).length =
      (if x.1 ∈ d.keys then 0 else 1) + ((d.setItem x.1 x.2).newKeys rest).length := by
  have hrest : (d.setItem x.1 x.2).newKeys rest = d.newKeys rest := by
    refine List.filter_congr fun a ha ↦ ?_
    have hne : a ≠ x.1 := by
      rintro rfl
      exact hx ha
    simp [mem_keys_setItem, hne]
  rw [hrest]
  unfold newKeys
  by_cases hk : x.1 ∈ d.keys
  · simp [hk]
  · simp [hk, Nat.add_comm]

theorem length_setItems {entries : List (α × β)} (h : (entries.map Prod.fst).Nodup) :
    (d.setItems entries).length = d.length + (d.newKeys entries).length := by
  induction entries generalizing d with
  | nil => simp [setItems, newKeys]
  | cons x rest ih =>
      obtain ⟨hx, hrest⟩ := List.nodup_cons.mp h
      have hlength := ih (d := d.setItem x.1 x.2) hrest
      rw [newKeys_cons hx, show d.setItems (x :: rest) = (d.setItem x.1 x.2).setItems rest from rfl,
        hlength, length_setItem]
      split <;> omega

end OrderedDict

end DjangoNova
