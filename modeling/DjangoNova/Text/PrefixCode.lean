import DjangoNova.Text.Str

/-!
# Prefix codes

An encoding is prefix free when no code word can be mistaken for the
beginning of another, so that a concatenation of code words has one
reading. Lists and pairs of encodable values are encodable.
-/

namespace DjangoNova.PrefixCode

variable {α β : Type}

def PrefixFree (code : α → Str) : Prop :=
  ∀ a b r s, code a ++ r = code b ++ s → a = b ∧ r = s

theorem PrefixFree.injective {code : α → Str} (h : PrefixFree code) : Function.Injective code := by
  intro a b hab
  exact (h a b [] [] (by rw [hab])).1

/-- One character stands for itself. -/
def char (c : Char) : Str := [c]

theorem prefixFree_char : PrefixFree char := by
  intro a b r s h
  simpa [char] using h

/-- Each element is announced by `+`, and the end of the list is a `.`. -/
def list (code : α → Str) : List α → Str
  | [] => ['.']
  | a :: l => '+' :: (code a ++ list code l)

theorem prefixFree_list {code : α → Str} (h : PrefixFree code) : PrefixFree (list code) := by
  intro l m r s heq
  induction l generalizing m with
  | nil =>
      cases m with
      | nil => simpa [list] using heq
      | cons b m => simp [list] at heq
  | cons a l ih =>
      cases m with
      | nil => simp [list] at heq
      | cons b m =>
          simp only [list, List.cons_append, List.append_assoc, List.cons.injEq, true_and] at heq
          obtain ⟨rfl, hrest⟩ := h a b _ _ heq
          obtain ⟨rfl, rfl⟩ := ih m hrest
          exact ⟨rfl, rfl⟩

def pair (code : α → Str) (code' : β → Str) (p : α × β) : Str := code p.1 ++ code' p.2

theorem prefixFree_pair {code : α → Str} {code' : β → Str} (h : PrefixFree code)
    (h' : PrefixFree code') : PrefixFree (pair code code') := by
  rintro ⟨a, b⟩ ⟨a', b'⟩ r s heq
  simp only [pair, List.append_assoc] at heq
  obtain ⟨rfl, hrest⟩ := h a a' _ _ heq
  obtain ⟨rfl, rfl⟩ := h' b b' _ _ hrest
  exact ⟨rfl, rfl⟩

/-- A code for a type that embeds in an encodable one. -/
theorem PrefixFree.comp {code : β → Str} (h : PrefixFree code) {f : α → β}
    (hf : Function.Injective f) : PrefixFree (code ∘ f) := by
  intro a b r s heq
  obtain ⟨hab, hrs⟩ := h (f a) (f b) r s heq
  exact ⟨hf hab, hrs⟩

def text : Str → Str := list char

theorem prefixFree_text : PrefixFree text := prefixFree_list prefixFree_char

end DjangoNova.PrefixCode
