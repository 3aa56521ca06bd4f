import DjangoNova.Text.Str

/-!
# Glob patterns

The patterns that Redis matches keys against: `*`, `?`, bracket classes
with negation and ranges, and backslash escapes. Escaping every special
character makes a text match literally.
-/

namespace DjangoNova.Glob

/-- A range of a bracket class, whose ends may be in either order. -/
def inRange (a b c : Char) : Bool :=
  min a.toNat b.toNat ≤ c.toNat && c.toNat ≤ max a.toNat b.toNat

/-- The members of a bracket class up to its `]`: whether `c` is one of
them, and the pattern after the class. -/
def bracket (c : Char) (found : Bool) : Str → Bool × Str
  | [] => (found, [])
  | '\\' :: d :: p => bracket c (found || d == c) p
  | ']' :: p => (found, p)
  | a :: '-' :: b :: p =>
      bracket c (found || inRange a b c) p
  | a :: p => bracket c (found || a == c) p

theorem bracket_length (c : Char) (found : Bool) (p : Str) :
    (bracket c found p).2.length ≤ p.length := by
  fun_induction bracket c found p <;> simp_all <;> omega

/-- The pattern matches the whole text. -/
def globMatch : Str → Str → Bool
  | [], s => s.isEmpty
  | '*' :: p, [] => globMatch p []
  | '*' :: p, c :: s => globMatch p (c :: s) || globMatch ('*' :: p) s
  | _ :: _, [] => false
  | '?' :: p, _ :: s => globMatch p s
  | '[' :: '^' :: p, c :: s =>
      !(bracket c false p).1 && globMatch (bracket c false p).2 s
  | '[' :: p, c :: s => (bracket c false p).1 && globMatch (bracket c false p).2 s
  | '\\' :: d :: p, c :: s => d == c && globMatch p s
  | a :: p, c :: s => a == c && globMatch p s
  termination_by p s => p.length + s.length
  decreasing_by
  all_goals simp_wf
  all_goals try have := bracket_length c false p
  all_goals omega

/-- Quote one character where it is special. -/
def escapeChar (c : Char) : Str := if c ∈ ['\\', '*', '?', '[', ']'] then ['\\', c] else [c]

/-- `"".join("\\" + char if char in "\\*?[]" else char for char in s)` -/
def escape (s : Str) : Str := s.flatMap escapeChar

/-- A quoted character matches itself. -/
theorem globMatch_escapeChar (c : Char) (p s : Str) :
    globMatch (escapeChar c ++ p) s = true ↔ ∃ t, s = c :: t ∧ globMatch p t = true := by
  have hcons : ∀ d t, globMatch (escapeChar c ++ p) (d :: t) = (c == d && globMatch p t) := by
    intro d t
    unfold escapeChar
    split
    · simp [globMatch]
    · rename_i hc
      simp only [List.mem_cons, List.not_mem_nil, or_false, not_or] at hc
      obtain ⟨hback, hstar, hask, hopen, -⟩ := hc
      rw [List.singleton_append, globMatch.eq_9] <;> grind
  have hnil : globMatch (escapeChar c ++ p) [] = false := by
    unfold escapeChar
    split
    · simp [globMatch]
    · rename_i hc
      have hstar : c ≠ '*' := by
        rintro rfl
        simp at hc
      rw [List.singleton_append, globMatch]
      simpa using hstar
  cases s with
  | nil => simp [hnil]
  | cons d t =>
      rw [hcons, Bool.and_eq_true, beq_iff_eq]
      constructor
      · rintro ⟨rfl, ht⟩
        exact ⟨t, rfl, ht⟩
      · rintro ⟨t', heq, ht⟩
        obtain ⟨rfl, rfl⟩ := List.cons.inj heq
        exact ⟨rfl, ht⟩

theorem globMatch_star (s : Str) : globMatch ['*'] s = true := by
  induction s with
  | nil => simp [globMatch]
  | cons c s ih => simp [globMatch, ih]

/-- A literal text followed by `*` matches exactly its extensions. -/
theorem globMatch_escape_star (text s : Str) :
    globMatch (escape text ++ ['*']) s = true ↔ text <+: s := by
  induction text generalizing s with
  | nil => simp [escape, globMatch_star]
  | cons c text ih =>
      have hsplit : escape (c :: text) ++ ['*'] = escapeChar c ++ (escape text ++ ['*']) := by
        simp [escape]
      rw [hsplit, globMatch_escapeChar]
      constructor
      · rintro ⟨t, rfl, ht⟩
        exact List.cons_prefix_cons.mpr ⟨rfl, (ih t).mp ht⟩
      · intro h
        obtain ⟨r, rfl⟩ := h
        exact ⟨text ++ r, rfl, (ih _).mpr (List.prefix_append text r)⟩

end DjangoNova.Glob
