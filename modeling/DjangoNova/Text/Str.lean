import Mathlib.Data.List.Infix

/-!
# Python strings as character lists

The string operations that the program uses, on lists of characters.
`isSpace` is the set of characters that `str.strip()` removes.
-/

namespace DjangoNova

abbrev Str := List Char

instance : LawfulBEq Str := inferInstance

/-- Quantifiers over the characters of a text are decided along the text. -/
instance (priority := high) (s : Str) (p : Char → Prop) [DecidablePred p] :
    Decidable (∀ c ∈ s, p c) := List.decidableBAll p s

namespace Str

/-- The whitespace of `str.isspace`. -/
def isSpace (c : Char) : Bool :=
  let n := c.toNat
  (9 ≤ n && n ≤ 13) || (28 ≤ n && n ≤ 32) || n == 133 || n == 160 || n == 5760 ||
    (8192 ≤ n && n ≤ 8202) || n == 8232 || n == 8233 || n == 8239 || n == 8287 || n == 12288

def strip (s : Str) : Str :=
  ((s.dropWhile isSpace).reverse.dropWhile isSpace).reverse

/-- `s.rpartition(c)[2]`: what follows the last `c`, or all of `s`. -/
def afterLast (c : Char) (s : Str) : Str :=
  (s.reverse.takeWhile (· != c)).reverse

/-- Code point order, the order of `sorted` on strings. -/
def le : Str → Str → Bool
  | [], _ => true
  | _ :: _, [] => false
  | a :: s, b :: t => if a = b then le s t else a.toNat < b.toNat

/-- A text is split by the first separator that its first part does not contain. -/
theorem append_separator_inj {c : Char} {s t u v : Str} (hs : c ∉ s) (ht : c ∉ t)
    (h : s ++ c :: u = t ++ c :: v) : s = t ∧ u = v := by
  induction s generalizing t with
  | nil =>
      cases t with
      | nil => simpa using h
      | cons b t =>
          obtain ⟨rfl, _⟩ := List.cons.inj h
          simp at ht
  | cons a s ih =>
      cases t with
      | nil =>
          obtain ⟨rfl, _⟩ := List.cons.inj h
          simp at hs
      | cons b t =>
          obtain ⟨rfl, htail⟩ := List.cons.inj h
          obtain ⟨rfl, rfl⟩ := ih (List.not_mem_of_not_mem_cons hs)
            (List.not_mem_of_not_mem_cons ht) htail
          exact ⟨rfl, rfl⟩

/-! Code point order is a linear order. -/

@[simp] theorem le_nil (t : Str) : le [] t = true := by
  cases t <;> simp [le]

theorem le_cons {a b : Char} {s t : Str} :
    le (a :: s) (b :: t) = true ↔ a.toNat < b.toNat ∨ a = b ∧ le s t = true := by
  by_cases hab : a = b
  · simp [le, hab]
  · simp [le, hab]

theorem le_total (s t : Str) : le s t = true ∨ le t s = true := by
  induction s generalizing t with
  | nil => exact .inl (le_nil t)
  | cons a s ih =>
      cases t with
      | nil => exact .inr (le_nil _)
      | cons b t =>
          rw [le_cons, le_cons]
          rcases Nat.lt_trichotomy a.toNat b.toNat with h | h | h
          · exact .inl (.inl h)
          · obtain rfl := Char.toNat_inj.mp h
            exact (ih t).imp (fun h ↦ .inr ⟨rfl, h⟩) fun h ↦ .inr ⟨rfl, h⟩
          · exact .inr (.inl h)

theorem le_trans {s t u : Str} (hst : le s t = true) (htu : le t u = true) : le s u = true := by
  induction s generalizing t u with
  | nil => exact le_nil u
  | cons a s ih =>
      cases t with
      | nil => cases hst
      | cons b t =>
          cases u with
          | nil => cases htu
          | cons c u =>
              rw [le_cons] at hst htu ⊢
              rcases hst with hab | ⟨rfl, hst⟩
              · rcases htu with hbc | ⟨rfl, -⟩
                · exact .inl (hab.trans hbc)
                · exact .inl hab
              · exact htu.imp_right fun ⟨hac, htu⟩ ↦ ⟨hac, ih hst htu⟩

theorem le_antisymm {s t : Str} (hst : le s t = true) (hts : le t s = true) : s = t := by
  induction s generalizing t with
  | nil =>
      cases t with
      | nil => rfl
      | cons b t => cases hts
  | cons a s ih =>
      cases t with
      | nil => cases hst
      | cons b t =>
          rw [le_cons] at hst hts
          rcases hst with hab | ⟨rfl, hst⟩
          · rcases hts with hba | ⟨rfl, -⟩ <;> omega
          · rcases hts with haa | ⟨-, hts⟩
            · omega
            · rw [ih hst hts]

/-- Strict code point order. -/
def Before (s t : Str) : Prop := le s t = true ∧ s ≠ t

theorem strip_eq_self {s : Str} (h : ∀ c ∈ s, isSpace c = false) : strip s = s := by
  have hdrop : ∀ t : Str, (∀ c ∈ t, isSpace c = false) → t.dropWhile isSpace = t := by
    intro t ht
    cases t with
    | nil => rfl
    | cons c t => simp [ht c List.mem_cons_self]
  rw [strip, hdrop s h, hdrop s.reverse fun c hc ↦ h c (List.mem_reverse.mp hc),
    List.reverse_reverse]

theorem afterLast_append {c : Char} {s t : Str} (h : c ∉ t) : afterLast c (s ++ c :: t) = t := by
  have htake : ∀ x ∈ t.reverse, (x != c) = true := by
    intro x hx
    rw [bne_iff_ne]
    rintro rfl
    exact h (List.mem_reverse.mp hx)
  simp [afterLast, List.takeWhile_append_of_pos htake]

end Str

end DjangoNova
