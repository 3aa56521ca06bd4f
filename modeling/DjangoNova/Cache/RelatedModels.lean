import Mathlib.Data.Fintype.Card
import DjangoNova.Django.Registry

/-!
# The relation component of a model

`related_model_graph` explores the registry from a root with a stack of
pending models. Its result is the component of the root, whatever cycles
the relations form, together with the through models found there.
-/

namespace DjangoNova

variable {M : Type} [DecidableEq M]

namespace Registry

variable (R : Registry M)

/-- The through models of the relations of a model. -/
def throughModels (m : M) : List M := (R.fields m).filterMap ModelField.through

/-- Pop a pending model until none is left. -/
def relatedModelGraphLoop [Fintype M] (pending seen through : List M) : List M × List M :=
  match pending with
  | [] => (seen, through)
  | m :: pending =>
      if m ∈ seen then relatedModelGraphLoop pending seen through
      else relatedModelGraphLoop ((R.neighbours m).reverse ++ pending) (m :: seen)
        (R.throughModels m ∪ through)
  termination_by ((Finset.univ.filter (· ∉ seen)).card, pending.length)
  decreasing_by
  · exact Prod.Lex.right _ (by simp)
  · refine Prod.Lex.left _ _ (Finset.card_lt_card ⟨fun n hn ↦ ?_, fun h ↦ ?_⟩)
    · simp_all
    · have hm : m ∈ Finset.univ.filter (· ∉ seen) := by simp_all
      simpa using h hm

/-- `related_model_graph`: the models of the component and its M2M senders. -/
def relatedModelGraph [Fintype M] (root : M) : List M × List M :=
  R.relatedModelGraphLoop [root] [] []

/-- What the loop maintains: what has been seen leads only to what has
been seen or is pending, and the through models are those of the seen. -/
structure Explored (root : M) (pending seen through : List M) : Prop where
  root_mem : root ∈ seen ∨ root ∈ pending
  closed : ∀ m ∈ seen, ∀ n ∈ R.neighbours m, n ∈ seen ∨ n ∈ pending
  connected : ∀ m, m ∈ seen ∨ m ∈ pending → R.Connected root m
  nodup : seen.Nodup ∧ through.Nodup
  through_iff : ∀ t, t ∈ through ↔ ∃ m ∈ seen, t ∈ R.throughModels m

variable {R} {root m : M} {pending seen through : List M}

omit [DecidableEq M] in
theorem Explored.skip (h : R.Explored root (m :: pending) seen through) (hm : m ∈ seen) :
    R.Explored root pending seen through where
  root_mem := by
    rcases h.root_mem with hr | hr
    · exact .inl hr
    · rcases List.mem_cons.mp hr with rfl | hr
      · exact .inl hm
      · exact .inr hr
  closed a ha n hn := by
    rcases h.closed a ha n hn with hs | hp
    · exact .inl hs
    · rcases List.mem_cons.mp hp with rfl | hp
      · exact .inl hm
      · exact .inr hp
  connected a ha := h.connected a (ha.imp_right (List.mem_cons_of_mem m))
  nodup := h.nodup
  through_iff := h.through_iff

theorem Explored.visit (h : R.Explored root (m :: pending) seen through) (hm : m ∉ seen) :
    R.Explored root ((R.neighbours m).reverse ++ pending) (m :: seen)
      (R.throughModels m ∪ through) where
  root_mem := by
    have hroot := h.root_mem
    simp only [List.mem_cons, List.mem_append] at hroot ⊢
    tauto
  closed a ha n hn := by
    simp only [List.mem_cons, List.mem_append, List.mem_reverse] at ha ⊢
    rcases ha with rfl | ha
    · exact .inr (.inl hn)
    · have hold := h.closed a ha n hn
      simp only [List.mem_cons] at hold
      tauto
  connected a ha := by
    have hroot : R.Connected root m := h.connected m (.inr List.mem_cons_self)
    simp only [List.mem_cons, List.mem_append, List.mem_reverse] at ha
    rcases ha with (rfl | ha) | ha | ha
    · exact hroot
    · exact h.connected a (.inl ha)
    · exact hroot.tail ha
    · exact h.connected a (.inr (List.mem_cons_of_mem m ha))
  nodup := ⟨List.nodup_cons.mpr ⟨hm, h.nodup.1⟩, h.nodup.2.union _⟩
  through_iff t := by
    simp only [List.mem_union_iff, h.through_iff, List.mem_cons, exists_eq_or_imp]

variable [Fintype M]

theorem Explored.loop (h : R.Explored root pending seen through) :
    R.Explored root [] (R.relatedModelGraphLoop pending seen through).1
      (R.relatedModelGraphLoop pending seen through).2 := by
  fun_induction relatedModelGraphLoop R pending seen through with
  | case1 => exact h
  | case2 seen through m pending hm ih => exact ih (h.skip hm)
  | case3 seen through m pending hm ih => exact ih (h.visit hm)

theorem explored_graph (root : M) :
    R.Explored root [] (R.relatedModelGraph root).1 (R.relatedModelGraph root).2 := by
  apply Explored.loop
  constructor
  · exact .inr List.mem_cons_self
  · simp
  · intro m hm
    obtain rfl : m = root := by simpa using hm
    exact .refl
  · simp
  · simp

/-- The first result is the relation component of the root. -/
theorem mem_relatedModelGraph (root m : M) :
    m ∈ (R.relatedModelGraph root).1 ↔ R.Connected root m := by
  have hexp := explored_graph (R := R) root
  constructor
  · exact fun hm ↦ hexp.connected m (.inl hm)
  · intro hm
    induction hm with
    | refl => simpa using hexp.root_mem
    | tail _ hn ih => simpa using hexp.closed _ ih _ hn

/-- The second result holds the through models of that component. -/
theorem mem_relatedModelGraph_through (root t : M) :
    t ∈ (R.relatedModelGraph root).2 ↔ ∃ m, R.Connected root m ∧ t ∈ R.throughModels m := by
  rw [(explored_graph root).through_iff t]
  simp only [mem_relatedModelGraph]

end Registry

end DjangoNova
