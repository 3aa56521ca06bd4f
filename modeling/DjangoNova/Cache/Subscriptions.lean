import DjangoNova.Cache.RelatedModels

/-!
# Signal subscriptions

`connect_invalidation` subscribes the relation component of a model for a
cache. The two registries of connected senders and Django's receiver
lists are one state; a cache stands for its identity. The early return
for an already connected model is sound because the registries stay
closed under relations.
-/

namespace DjangoNova

inductive Signal where
  | postSave
  | postDelete
  | m2mChanged
  deriving DecidableEq

/-- A connected callback of a cache. -/
structure Receiver (M C : Type) where
  signal : Signal
  sender : M
  cache : C
  deriving DecidableEq

structure Subscriptions (M C : Type) where
  /-- `_CONNECTED_SIGNALS` -/
  connected : Finset (M × C)
  /-- `_CONNECTED_M2M_SIGNALS` -/
  connectedM2m : Finset (M × C)
  receivers : List (Receiver M C)

namespace Subscriptions

variable {M C : Type} [DecidableEq M] [DecidableEq C]

def initial : Subscriptions M C := ⟨∅, ∅, []⟩

/-- The body of the loop over the related models. -/
def connectModel (c : C) (s : Subscriptions M C) (m : M) : Subscriptions M C :=
  if (m, c) ∈ s.connected then s
  else
    { s with
      connected := insert (m, c) s.connected
      receivers := s.receivers ++ [⟨.postSave, m, c⟩, ⟨.postDelete, m, c⟩] }

/-- The body of the loop over the through models. -/
def connectThrough (c : C) (s : Subscriptions M C) (m : M) : Subscriptions M C :=
  if (m, c) ∈ s.connectedM2m then s
  else
    { s with
      connectedM2m := insert (m, c) s.connectedM2m
      receivers := s.receivers ++ [⟨.m2mChanged, m, c⟩] }

variable [Fintype M] (R : Registry M)

/-- `connect_invalidation`; `c` is the given cache or the default one. -/
def connectInvalidation (s : Subscriptions M C) (root : M) (c : C) : Subscriptions M C :=
  if R.cacheEnabled root = false then s
  else if (root, c) ∈ s.connected then s
  else
    let (models, throughs) := R.relatedModelGraph root
    throughs.foldl (connectThrough c) (models.foldl (connectModel c) s)

/-- The state after a sequence of calls. -/
def afterCalls (calls : List (M × C)) : Subscriptions M C :=
  calls.foldl (fun s call ↦ connectInvalidation R s call.1 call.2) initial

omit [DecidableEq M] [DecidableEq C] [Fintype M] in
/-- The connected senders of a signal, each with its cache. -/
def pairs (s : Subscriptions M C) : Signal → Finset (M × C)
  | .postSave | .postDelete => s.connected
  | .m2mChanged => s.connectedM2m

omit [DecidableEq M] [DecidableEq C] [Fintype M] in
/-- The receivers are those of the connected pairs, each once. -/
structure Faithful (s : Subscriptions M C) : Prop where
  nodup : s.receivers.Nodup
  mem_iff : ∀ signal m c, ⟨signal, m, c⟩ ∈ s.receivers ↔ (m, c) ∈ s.pairs signal

/-- The connected models of a cache are the components of some roots, and
the connected through models are those found on their relations. -/
structure Spanned (roots : M → C → Prop) (s : Subscriptions M C) : Prop where
  connected : ∀ m c, (m, c) ∈ s.connected ↔ ∃ root, roots root c ∧ R.Connected root m
  connectedM2m : ∀ t c, (t, c) ∈ s.connectedM2m ↔
    ∃ root m, roots root c ∧ R.Connected root m ∧ t ∈ R.throughModels m

variable {R} {s : Subscriptions M C} {c : C} {m root : M}

section Loops

omit [Fintype M]

theorem mem_connectModel {p : M × C} :
    p ∈ (connectModel c s m).connected ↔ p ∈ s.connected ∨ p = (m, c) := by
  unfold connectModel
  split
  · rename_i hm
    constructor
    · exact .inl
    · rintro (hp | rfl)
      · exact hp
      · exact hm
  · simp [or_comm]

theorem connectModel_connectedM2m : (connectModel c s m).connectedM2m = s.connectedM2m := by
  unfold connectModel
  split <;> rfl

theorem mem_connectThrough {p : M × C} :
    p ∈ (connectThrough c s m).connectedM2m ↔ p ∈ s.connectedM2m ∨ p = (m, c) := by
  unfold connectThrough
  split
  · rename_i hm
    constructor
    · exact .inl
    · rintro (hp | rfl)
      · exact hp
      · exact hm
  · simp [or_comm]

theorem connectThrough_connected : (connectThrough c s m).connected = s.connected := by
  unfold connectThrough
  split <;> rfl

theorem Faithful.connectModel (h : s.Faithful) : (connectModel c s m).Faithful := by
  unfold Subscriptions.connectModel
  split
  · exact h
  rename_i hm
  have hsave : ⟨.postSave, m, c⟩ ∉ s.receivers := fun hr ↦ hm ((h.mem_iff _ _ _).mp hr)
  have hdelete : ⟨.postDelete, m, c⟩ ∉ s.receivers := fun hr ↦ hm ((h.mem_iff _ _ _).mp hr)
  constructor
  · refine List.nodup_append.mpr ⟨h.nodup, by simp, fun r hr r' hr' heq ↦ ?_⟩
    subst heq
    rcases List.mem_cons.mp hr' with rfl | hr'
    · exact hsave hr
    · exact hdelete (List.mem_singleton.mp hr' ▸ hr)
  · intro signal n c'
    have hold := h.mem_iff signal n c'
    cases signal <;> simp_all [pairs, or_comm]

theorem Faithful.connectThrough (h : s.Faithful) : (connectThrough c s m).Faithful := by
  unfold Subscriptions.connectThrough
  split
  · exact h
  rename_i hm
  have hnew : ⟨.m2mChanged, m, c⟩ ∉ s.receivers := fun hr ↦ hm ((h.mem_iff _ _ _).mp hr)
  constructor
  · refine List.nodup_append.mpr ⟨h.nodup, by simp, fun r hr r' hr' heq ↦ ?_⟩
    subst heq
    exact hnew (List.mem_singleton.mp hr' ▸ hr)
  · intro signal n c'
    have hold := h.mem_iff signal n c'
    cases signal <;> simp_all [pairs, or_comm]

theorem mem_foldl_connectModel {models : List M} {p : M × C} :
    p ∈ (models.foldl (connectModel c) s).connected ↔ p ∈ s.connected ∨
      (p.1 ∈ models ∧ p.2 = c) := by
  induction models generalizing s with
  | nil => simp
  | cons m models ih =>
      rw [List.foldl_cons, ih, mem_connectModel, Prod.ext_iff, List.mem_cons]
      tauto

theorem foldl_connectModel_connectedM2m {models : List M} :
    (models.foldl (connectModel c) s).connectedM2m = s.connectedM2m := by
  induction models generalizing s with
  | nil => rfl
  | cons m models ih => rw [List.foldl_cons, ih, connectModel_connectedM2m]

theorem mem_foldl_connectThrough {models : List M} {p : M × C} :
    p ∈ (models.foldl (connectThrough c) s).connectedM2m ↔
      p ∈ s.connectedM2m ∨ (p.1 ∈ models ∧ p.2 = c) := by
  induction models generalizing s with
  | nil => simp
  | cons m models ih =>
      rw [List.foldl_cons, ih, mem_connectThrough, Prod.ext_iff, List.mem_cons]
      tauto

theorem foldl_connectThrough_connected {models : List M} :
    (models.foldl (connectThrough c) s).connected = s.connected := by
  induction models generalizing s with
  | nil => rfl
  | cons m models ih => rw [List.foldl_cons, ih, connectThrough_connected]

theorem Faithful.foldl_connectModel {models : List M} (h : s.Faithful) :
    (models.foldl (Subscriptions.connectModel c) s).Faithful := by
  induction models generalizing s with
  | nil => exact h
  | cons m models ih => exact ih h.connectModel

theorem Faithful.foldl_connectThrough {models : List M} (h : s.Faithful) :
    (models.foldl (Subscriptions.connectThrough c) s).Faithful := by
  induction models generalizing s with
  | nil => exact h
  | cons m models ih => exact ih h.connectThrough

end Loops

theorem Faithful.connectInvalidation (h : s.Faithful) :
    (connectInvalidation R s root c).Faithful := by
  unfold Subscriptions.connectInvalidation
  split
  · exact h
  split
  · exact h
  · exact h.foldl_connectModel.foldl_connectThrough

/-- A call adds its model to the roots, when the model enables the cache. -/
theorem Spanned.connectInvalidation {roots : M → C → Prop} (h : Spanned R roots s) :
    Spanned R (fun r c' ↦ roots r c' ∨ (R.cacheEnabled root = true ∧ r = root ∧ c' = c))
      (connectInvalidation R s root c) := by
  unfold Subscriptions.connectInvalidation
  split
  · rename_i hoff
    simpa [hoff] using h
  rename_i hon
  have hon' : R.cacheEnabled root = true := by simpa using hon
  split
  · rename_i hmem
    -- The component of the root is connected already.
    obtain ⟨root', hroot', hreach⟩ := (h.connected root c).mp hmem
    have hcover : ∀ m c', (c' = c ∧ R.Connected root m) →
        roots root' c' ∧ R.Connected root' m := by
      rintro m c' ⟨rfl, hm⟩
      exact ⟨hroot', hreach.trans hm⟩
    constructor
    · intro m c'
      rw [h.connected]
      constructor
      · rintro ⟨r, hr, hm⟩
        exact ⟨r, .inl hr, hm⟩
      · rintro ⟨r, hr | ⟨-, rfl, rfl⟩, hm⟩
        · exact ⟨r, hr, hm⟩
        · exact ⟨root', hcover m c' ⟨rfl, hm⟩⟩
    · intro t c'
      rw [h.connectedM2m]
      constructor
      · rintro ⟨r, m, hr, hm, ht⟩
        exact ⟨r, m, .inl hr, hm, ht⟩
      · rintro ⟨r, m, hr | ⟨-, rfl, rfl⟩, hm, ht⟩
        · exact ⟨r, m, hr, hm, ht⟩
        · exact ⟨root', m, hroot', hreach.trans hm, ht⟩
  · constructor
    · intro m c'
      rw [foldl_connectThrough_connected, mem_foldl_connectModel, h.connected,
        Registry.mem_relatedModelGraph]
      constructor
      · rintro (⟨r, hr, hm⟩ | ⟨hm, rfl⟩)
        · exact ⟨r, .inl hr, hm⟩
        · exact ⟨root, .inr ⟨hon', rfl, rfl⟩, hm⟩
      · rintro ⟨r, hr | ⟨-, rfl, rfl⟩, hm⟩
        · exact .inl ⟨r, hr, hm⟩
        · exact .inr ⟨hm, rfl⟩
    · intro t c'
      rw [mem_foldl_connectThrough, foldl_connectModel_connectedM2m, h.connectedM2m,
        Registry.mem_relatedModelGraph_through]
      constructor
      · rintro (⟨r, m, hr, hm, ht⟩ | ⟨⟨m, hm, ht⟩, rfl⟩)
        · exact ⟨r, m, .inl hr, hm, ht⟩
        · exact ⟨root, m, .inr ⟨hon', rfl, rfl⟩, hm, ht⟩
      · rintro ⟨r, m, hr | ⟨-, rfl, rfl⟩, hm, ht⟩
        · exact .inl ⟨r, m, hr, hm, ht⟩
        · exact .inr ⟨⟨m, hm, ht⟩, rfl⟩

/-- After any sequence of calls, the subscriptions are faithful and span the
components of the cache-enabled models among the calls. -/
theorem afterCalls_spec (calls : List (M × C)) :
    (afterCalls R calls).Faithful ∧
      Spanned R (fun root c ↦ (root, c) ∈ calls ∧ R.cacheEnabled root = true)
        (afterCalls R calls) := by
  induction calls using List.reverseRecOn with
  | nil =>
      refine ⟨⟨by simp [afterCalls, initial], fun signal m c ↦ ?_⟩, ⟨?_, ?_⟩⟩
      · cases signal <;> simp [afterCalls, initial, pairs]
      · simp [afterCalls, initial]
      · simp [afterCalls, initial]
  | append_singleton calls call ih =>
      obtain ⟨hfaithful, hspanned⟩ := ih
      have hstep : afterCalls R (calls ++ [call]) =
          connectInvalidation R (afterCalls R calls) call.1 call.2 := by
        simp [afterCalls]
      rw [hstep]
      refine ⟨hfaithful.connectInvalidation, ?_⟩
      have hroots : (fun root c ↦ (root, c) ∈ calls ++ [call] ∧ R.cacheEnabled root = true) =
          fun r c' ↦ ((r, c') ∈ calls ∧ R.cacheEnabled r = true) ∨
            (R.cacheEnabled call.1 = true ∧ r = call.1 ∧ c' = call.2) := by
        funext r c'
        rw [eq_iff_iff]
        constructor
        · rintro ⟨hmem, hon⟩
          rcases List.mem_append.mp hmem with hmem | hmem
          · exact .inl ⟨hmem, hon⟩
          · obtain rfl : (r, c') = call := List.mem_singleton.mp hmem
            exact .inr ⟨hon, rfl, rfl⟩
        · rintro (⟨hmem, hon⟩ | ⟨hon, rfl, rfl⟩)
          · exact ⟨List.mem_append_left _ hmem, hon⟩
          · exact ⟨by simp, hon⟩
      rw [hroots]
      exact hspanned.connectInvalidation

section Closure

/-- A set of models that contains what the relations of its members lead to. -/
def ClosedUnder (R : Registry M) (S : Set M) : Prop :=
  ∀ m ∈ S, ∀ r ∈ R.fields m, ∀ n ∈ r.relatedModel.toList ++ r.through.toList, n ∈ S

/-- The least closed set that contains the model. -/
def closure (R : Registry M) (root : M) : Set M := ⋂₀ {S | root ∈ S ∧ ClosedUnder R S}

/-- The senders connected for a cache, with repetitions. -/
def senders (s : Subscriptions M C) (signal : Signal) (c : C) : List M :=
  (s.receivers.filter fun r ↦ r.signal = signal ∧ r.cache = c).map Receiver.sender

omit [Fintype M] [DecidableEq M]

theorem mem_closure : m ∈ closure R root ↔ R.Connected root m := by
  have hclosed : ClosedUnder R {m | R.Connected root m} := by
    intro a ha r hr n hn
    have hnext : n ∈ R.neighbours a := List.mem_flatMap.mpr ⟨r, hr, hn⟩
    exact Relation.ReflTransGen.tail ha hnext
  constructor
  · intro hm
    exact hm _ ⟨.refl, hclosed⟩
  · rintro hm S ⟨hroot, hS⟩
    induction hm with
    | refl => exact hroot
    | tail _ hn ih =>
        obtain ⟨r, hr, htarget⟩ := List.mem_flatMap.mp hn
        exact hS _ ih r hr _ htarget

theorem mem_senders {signal : Signal} :
    m ∈ s.senders signal c ↔ ⟨signal, m, c⟩ ∈ s.receivers := by
  constructor
  · intro hm
    obtain ⟨⟨signal', m', c'⟩, hr, hsender⟩ := List.mem_map.mp hm
    simp only [List.mem_filter, decide_eq_true_eq] at hr
    obtain ⟨hr, hsignal, hcache⟩ := hr
    rw [← hsender, ← hsignal, ← hcache]
    exact hr
  · intro hr
    have hfilter : ⟨signal, m, c⟩ ∈ s.receivers.filter fun r ↦ r.signal = signal ∧ r.cache = c := by
      simp [hr]
    exact List.mem_map_of_mem hfilter

theorem nodup_senders (h : s.receivers.Nodup) (signal : Signal) (c : C) :
    (s.senders signal c).Nodup := by
  apply List.Nodup.map_on _ (h.filter _)
  rintro ⟨signal₁, m₁, c₁⟩ h₁ ⟨signal₂, m₂, c₂⟩ h₂ hsender
  simp only [List.mem_filter, decide_eq_true_eq] at h₁ h₂
  obtain ⟨-, hsignal₁, hcache₁⟩ := h₁
  obtain ⟨-, hsignal₂, hcache₂⟩ := h₂
  rw [hsignal₁, hsignal₂, hcache₁, hcache₂]
  exact congrArg (Receiver.mk signal · c) hsender

variable [DecidableEq M] [Fintype M]

/-- After any sequence of calls the senders of a cache are those of the
relation closures of its models, each connected once. -/
theorem subscription_closure (R : Registry M) (calls : List (M × C)) (c : C) :
    (∀ signal, ((afterCalls R calls).senders signal c).Nodup) ∧
    (∀ signal, signal = .postSave ∨ signal = .postDelete →
      ∀ m, m ∈ (afterCalls R calls).senders signal c ↔
        ∃ root, (root, c) ∈ calls ∧ R.cacheEnabled root = true ∧ m ∈ closure R root) ∧
    (∀ t, t ∈ (afterCalls R calls).senders .m2mChanged c ↔
      ∃ root m, (root, c) ∈ calls ∧ R.cacheEnabled root = true ∧ m ∈ closure R root ∧
        ∃ r ∈ R.fields m, r.through = some t) ∧
    (∀ root m, (root, c) ∈ (afterCalls R calls).connected → m ∈ closure R root →
      m ∈ (afterCalls R calls).senders .postSave c ∧
        m ∈ (afterCalls R calls).senders .postDelete c) ∧
    ∀ root, (R.relatedModelGraph root).1.Nodup ∧
      ∀ m, m ∈ (R.relatedModelGraph root).1 ↔ m ∈ closure R root := by
  obtain ⟨hfaithful, hspanned⟩ := afterCalls_spec (R := R) calls
  refine ⟨fun signal ↦ nodup_senders hfaithful.nodup signal c, ?_, ?_, ?_, ?_⟩
  · intro signal hsignal m
    have hpairs : (afterCalls R calls).pairs signal = (afterCalls R calls).connected := by
      obtain h | h := hsignal <;> rw [h] <;> rfl
    rw [mem_senders, hfaithful.mem_iff, hpairs, hspanned.connected]
    simp only [mem_closure, and_assoc]
  · intro t
    rw [mem_senders, hfaithful.mem_iff]
    have hm2m := hspanned.connectedM2m t c
    simp only [Registry.throughModels, List.mem_filterMap, and_assoc] at hm2m
    simp only [mem_closure]
    exact hm2m
  · intro root m hroot hm
    obtain ⟨root', hroot', hreach⟩ := (hspanned.connected root c).mp hroot
    have hconnected : (m, c) ∈ (afterCalls R calls).connected :=
      (hspanned.connected m c).mpr ⟨root', hroot', hreach.trans (mem_closure.mp hm)⟩
    constructor
    · exact mem_senders.mpr ((hfaithful.mem_iff _ _ _).mpr hconnected)
    · exact mem_senders.mpr ((hfaithful.mem_iff _ _ _).mpr hconnected)
  · intro root
    refine ⟨(Registry.explored_graph root).nodup.1, fun m ↦ ?_⟩
    rw [mem_closure]
    exact Registry.mem_relatedModelGraph root m

end Closure

end Subscriptions

end DjangoNova
