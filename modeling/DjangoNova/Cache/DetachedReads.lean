import DjangoNova.Cache.ResultSnapshot

/-!
# Detached reads

A backend in the process keeps objects, not bytes. Results are copied when
they are stored and again when they are read, so that nothing a caller
does to rows in its hands reaches a cached list. A caller can change what it
reaches from the lists it has got, by writing references it reaches.
-/

namespace DjangoNova

open ObjectGraph

variable {K C V : Type} [DecidableEq K] [DecidableEq C] (identifier : C → ModelIdentifier)
  (limit : ℕ)

structure ReadState (K C V : Type) where
  heap : RowHeap C V
  /-- The roots of the objects that the callers hold. -/
  callers : List ℕ
  /-- The lists that the backend keeps. -/
  stored : K → Option ℕ

inductive ReadAction (K C V : Type) where
  | write (x : ℕ) (c : Cell (GraphLabel C V))
  | alloc (c : Cell (GraphLabel C V))
  | hit (key : K)
  | fill (key : K) (result : ℕ)
  /-- The entry expires, is evicted or is deleted. -/
  | drop (key : K)

namespace ReadState

def initial : ReadState K C V := ⟨[], [], fun _ ↦ none⟩

/-- `_backend_get` -/
def backendGet (s : ReadState K C V) (key : K) : Option ℕ × ReadState K C V :=
  match s.stored key with
  | none => (none, s)
  | some cached =>
      match snapshotRows identifier limit s.heap (.ref cached) with
      | .ok (.ref rows, heap) => (some rows, { s with heap := heap, callers := rows :: s.callers })
      | _ => (none, s)

/-- `_backend_set` -/
def backendSet (s : ReadState K C V) (key : K) (result : ℕ) : Bool × ReadState K C V :=
  match snapshotRows identifier limit s.heap (.ref result) with
  | .ok (.ref detached, heap) =>
      (true, { s with heap := heap, stored := Function.update s.stored key (some detached) })
  | _ => (false, s)

def apply (s : ReadState K C V) : ReadAction K C V → ReadState K C V
  | .write x c => { s with heap := s.heap.set x c }
  | .alloc c => { s with heap := s.heap ++ [c], callers := s.heap.length :: s.callers }
  | .hit key => (s.backendGet identifier limit key).2
  | .fill key result => (s.backendSet identifier limit key result).2
  | .drop key => { s with stored := Function.update s.stored key none }

/-- The callers act on what they reach. -/
def Allows (s : ReadState K C V) : ReadAction K C V → Prop
  | .write x c => ReachesFrom s.heap s.callers x ∧
      ∀ z, .ref z ∈ c.items → ReachesFrom s.heap s.callers z
  | .alloc c => ∀ z, .ref z ∈ c.items → ReachesFrom s.heap s.callers z
  | .fill _ result => result ∈ s.callers
  | .hit _ | .drop _ => True

def run (s : ReadState K C V) (actions : List (ReadAction K C V)) : ReadState K C V :=
  actions.foldl (apply identifier limit) s

def AllowsAll (s : ReadState K C V) : List (ReadAction K C V) → Prop
  | [] => True
  | a :: rest => s.Allows a ∧ AllowsAll (s.apply identifier limit a) rest

/-- No caller reaches a list of the backend. -/
structure Isolated (s : ReadState K C V) : Prop where
  closed : Closed s.heap
  callers : ∀ r ∈ s.callers, r < s.heap.length
  stored : ∀ k r, s.stored k = some r → r < s.heap.length
  separate : ∀ k r, s.stored k = some r → ∀ x, Reaches s.heap r x →
    ¬ReachesFrom s.heap s.callers x

section Steps

omit [DecidableEq K] [DecidableEq C]

variable {s : ReadState K C V} {heap : RowHeap C V}

theorem isolated_initial : (initial : ReadState K C V).Isolated :=
  ⟨fun x c hc ↦ by simp [initial] at hc, by simp [initial], by simp [initial], by simp [initial]⟩

theorem Isolated.set {x : ℕ} {c : Cell (GraphLabel C V)} (h : s.Isolated)
    (hx : ReachesFrom s.heap s.callers x)
    (hc : ∀ z, .ref z ∈ c.items → ReachesFrom s.heap s.callers z) :
    Isolated { s with heap := s.heap.set x c } := by
  have hlt := fun z hz ↦ (hc z hz).lt h.closed h.callers
  refine ⟨closed_set h.closed hlt, ?_, ?_, ?_⟩
  · simpa using h.callers
  · simpa using h.stored
  · intro k r hr y hy hcaller
    have hkept : Reaches s.heap r y := by
      refine (reaches_congr fun z hz ↦ ?_).mp hy
      have hne : x ≠ z := fun heq ↦ h.separate k r hr z hz (heq ▸ hx)
      exact List.getElem?_set_ne hne
    exact h.separate k r hr y hkept (reachesFrom_set hc hcaller)

/-- A caller gets a root that reaches new cells, or what the callers reach. -/
theorem Isolated.give {root : ℕ} (h : s.Isolated) (hext : Extends s.heap heap)
    (hclosed : Closed heap) (hroot : root < heap.length)
    (hnew : ∀ x, Reaches heap root x → s.heap.length ≤ x ∨ ReachesFrom s.heap s.callers x) :
    Isolated { s with heap := heap, callers := root :: s.callers } := by
  refine ⟨hclosed, ?_, fun k r hr ↦ (h.stored k r hr).trans_le hext.length_le, ?_⟩
  · intro r hr
    rcases List.mem_cons.mp hr with rfl | hr
    · exact hroot
    · exact (h.callers r hr).trans_le hext.length_le
  · rintro k r hr x hx ⟨r', hr', hcaller⟩
    have hold := (hext.reaches h.closed (h.stored k r hr)).mp hx
    have hlt : x < s.heap.length := hold.lt h.closed (h.stored k r hr)
    rcases List.mem_cons.mp hr' with rfl | hr'
    · rcases hnew x hcaller with hge | hfrom
      · omega
      · exact h.separate k r hr x hold hfrom
    · exact h.separate k r hr x hold
        ⟨r', hr', (hext.reaches h.closed (h.callers r' hr')).mp hcaller⟩

theorem stored_update [DecidableEq K] {stored : K → Option ℕ} {key k : K} {entry : Option ℕ} {r : ℕ}
    (h : Function.update stored key entry k = some r) : entry = some r ∨ stored k = some r := by
  by_cases hk : k = key
  · rw [hk, Function.update_self] at h
    exact .inl h
  · rw [Function.update_of_ne hk] at h
    exact .inr h

theorem Isolated.drop [DecidableEq K] (h : s.Isolated) (key : K) :
    Isolated { s with stored := Function.update s.stored key none } := by
  have hold : ∀ k r, Function.update s.stored key none k = some r → s.stored k = some r := by
    intro k r hr
    rcases stored_update hr with hnone | hr
    · cases hnone
    · exact hr
  exact ⟨h.closed, h.callers, fun k r hr ↦ h.stored k r (hold k r hr),
    fun k r hr ↦ h.separate k r (hold k r hr)⟩

/-- The backend gets a root that reaches new cells. -/
theorem Isolated.keep [DecidableEq K] {root : ℕ} (h : s.Isolated) (key : K)
    (hext : Extends s.heap heap) (hclosed : Closed heap) (hroot : root < heap.length)
    (hnew : ∀ x, Reaches heap root x → s.heap.length ≤ x) :
    Isolated { s with heap := heap, stored := Function.update s.stored key (some root) } := by
  have hcaller : ∀ x, ReachesFrom heap s.callers x → ReachesFrom s.heap s.callers x := by
    rintro x ⟨r, hr, hreach⟩
    exact ⟨r, hr, (hext.reaches h.closed (h.callers r hr)).mp hreach⟩
  refine ⟨hclosed, fun r hr ↦ (h.callers r hr).trans_le hext.length_le, ?_, ?_⟩
  · intro k r hr
    rcases stored_update hr with hnew | hr
    · exact Option.some.inj hnew ▸ hroot
    · exact (h.stored k r hr).trans_le hext.length_le
  · intro k r hr x hx hfrom
    rcases stored_update hr with hroot | hr
    · have hge := hnew x (Option.some.inj hroot ▸ hx)
      have hlt := (hcaller x hfrom).lt h.closed h.callers
      omega
    · exact h.separate k r hr x ((hext.reaches h.closed (h.stored k r hr)).mp hx)
        (hcaller x hfrom)

end Steps

section Runs

variable {identifier limit} {s s' : ReadState K C V} {key : K}

omit [DecidableEq K] in
/-- The root of a snapshot, and what it reaches. -/
theorem snapshot_root {cached rows : ℕ} {heap : RowHeap C V} (hclosed : Closed s.heap)
    (hsnapshot : snapshotRows identifier limit s.heap (.ref cached) = .ok (.ref rows, heap)) :
    ∃ m, m cached = rows ∧ Copies s.heap cached heap m ∧ (∀ x, s.heap.length ≤ m x) ∧
      Extends s.heap heap ∧ Closed heap ∧ rows < heap.length ∧
        ∀ x, Reaches heap rows x → s.heap.length ≤ x := by
  obtain ⟨root, m, hroot, hrows, hcopy, hge, hext, hclosed'⟩ := snapshotRows_copies hsnapshot
  cases hroot
  injection hrows with hrows
  subst hrows
  refine ⟨m, rfl, hcopy, hge, hext, hclosed' hclosed, ?_, fun x hx ↦ ?_⟩
  · obtain ⟨c, -, hcopied⟩ := hcopy.cell cached .refl
    exact (List.getElem?_eq_some_iff.mp hcopied).1
  · obtain ⟨y, -, rfl⟩ := hcopy.reaches.mp hx
    exact hge y

omit [DecidableEq K] in
/-- A hit gives the caller a copy of the stored list in new cells. -/
theorem backendGet_some {rows : ℕ} (h : s.Isolated)
    (hget : s.backendGet identifier limit key = (some rows, s')) :
    ∃ cached m, s.stored key = some cached ∧ m cached = rows ∧
      Copies s.heap cached s'.heap m ∧ ∀ x, s.heap.length ≤ m x := by
  rw [backendGet] at hget
  split at hget
  · cases hget
  · rename_i cached hstored
    split at hget
    · rename_i rows' heap hsnapshot
      cases hget
      obtain ⟨m, hm, hcopy, hge, -⟩ := snapshot_root h.closed hsnapshot
      exact ⟨cached, m, hstored, hm, hcopy, hge⟩
    · cases hget

omit [DecidableEq K] in
theorem Isolated.backendGet (h : s.Isolated) (key : K) :
    (s.backendGet identifier limit key).2.Isolated := by
  rw [ReadState.backendGet]
  split
  · exact h
  · split
    · rename_i hsnapshot
      obtain ⟨m, -, -, -, hext, hclosed, hroot, hnew⟩ := snapshot_root h.closed hsnapshot
      exact h.give hext hclosed hroot fun x hx ↦ .inl (hnew x hx)
    · exact h

theorem Isolated.backendSet {result : ℕ} (h : s.Isolated) (key : K) :
    (s.backendSet identifier limit key result).2.Isolated := by
  rw [ReadState.backendSet]
  split
  · rename_i hsnapshot
    obtain ⟨m, -, -, -, hext, hclosed, hroot, hnew⟩ := snapshot_root h.closed hsnapshot
    exact h.keep key hext hclosed hroot hnew
  · exact h

theorem Isolated.apply (h : s.Isolated) {a : ReadAction K C V} (ha : s.Allows a) :
    (s.apply identifier limit a).Isolated := by
  cases a with
  | write x c => exact h.set ha.1 ha.2
  | alloc c =>
      have hlt := fun z hz ↦ (ha z hz).lt h.closed h.callers
      refine h.give (extends_append _ _) (closed_append h.closed hlt) (by simp) fun x hx ↦ ?_
      rcases reaches_append h.closed h.callers ha hx with rfl | hfrom
      · exact .inl (Nat.le_refl _)
      · exact .inr hfrom
  | hit key => exact h.backendGet key
  | fill key result => exact h.backendSet key
  | drop key => exact h.drop key

theorem Isolated.run (h : s.Isolated) {actions : List (ReadAction K C V)}
    (hallows : s.AllowsAll identifier limit actions) :
    (s.run identifier limit actions).Isolated := by
  induction actions generalizing s with
  | nil => exact h
  | cons a rest ih => exact ih (h.apply hallows.1) hallows.2

/-- The key has no entry, or an entry that is a copy of the result. -/
def Keeps (s : ReadState K C V) (key : K) (h₀ : RowHeap C V) (result : ℕ) : Prop :=
  ∀ cached, s.stored key = some cached → ∃ m, m result = cached ∧ Copies h₀ result s.heap m

omit [DecidableEq K] [DecidableEq C] in
theorem Keeps.congr {h₀ : RowHeap C V} {result : ℕ} (hkeeps : s.Keeps key h₀ result)
    (hstored : ∀ cached, s'.stored key = some cached → s.stored key = some cached)
    (hheap : ∀ cached x, s.stored key = some cached → Reaches s.heap cached x →
      s'.heap[x]? = s.heap[x]?) : s'.Keeps key h₀ result := by
  intro cached hcached
  obtain ⟨m, rfl, hcopy⟩ := hkeeps cached (hstored cached hcached)
  exact ⟨m, rfl, hcopy.congr fun x hx ↦ hheap _ x (hstored _ hcached) hx⟩

omit [DecidableEq K] in
theorem backendGet_extends (identifier : C → ModelIdentifier) (limit : ℕ) (h : s.Isolated)
    (key : K) :
    Extends s.heap (s.backendGet identifier limit key).2.heap ∧
      (s.backendGet identifier limit key).2.stored = s.stored := by
  rw [ReadState.backendGet]
  split
  · exact ⟨fun _ _ ↦ rfl, rfl⟩
  · split
    · rename_i hsnapshot
      obtain ⟨m, -, -, -, hext, -⟩ := snapshot_root h.closed hsnapshot
      exact ⟨hext, rfl⟩
    · exact ⟨fun _ _ ↦ rfl, rfl⟩

theorem backendSet_extends (identifier : C → ModelIdentifier) (limit : ℕ) (result : ℕ)
    (h : s.Isolated) (key : K) :
    Extends s.heap (s.backendSet identifier limit key result).2.heap ∧
      ∀ k, k ≠ key → (s.backendSet identifier limit key result).2.stored k = s.stored k := by
  rw [ReadState.backendSet]
  split
  · rename_i hsnapshot
    obtain ⟨m, -, -, -, hext, -⟩ := snapshot_root h.closed hsnapshot
    exact ⟨hext, fun k hk ↦ Function.update_of_ne hk ..⟩
  · exact ⟨fun _ _ ↦ rfl, fun _ _ ↦ rfl⟩

theorem Keeps.apply {h₀ : RowHeap C V} {result : ℕ} (hkeeps : s.Keeps key h₀ result)
    (h : s.Isolated) {a : ReadAction K C V} (ha : s.Allows a) (hfill : ∀ r, a ≠ .fill key r) :
    (s.apply identifier limit a).Keeps key h₀ result := by
  have hlt : ∀ cached x, s.stored key = some cached → Reaches s.heap cached x →
      x < s.heap.length := fun cached x hc hx ↦ hx.lt h.closed (h.stored key cached hc)
  cases a with
  | write x c =>
      refine hkeeps.congr (fun _ hc ↦ hc) fun cached z hc hz ↦ ?_
      have hne : x ≠ z := fun heq ↦ h.separate key cached hc z hz (heq ▸ ha.1)
      exact List.getElem?_set_ne hne
  | alloc c =>
      exact hkeeps.congr (fun _ hc ↦ hc) fun cached z hc hz ↦ extends_append _ _ z (hlt _ z hc hz)
  | hit key' =>
      obtain ⟨hext, hstored⟩ := backendGet_extends identifier limit h key'
      exact hkeeps.congr (fun _ hc ↦ by rwa [ReadState.apply, hstored] at hc)
        fun cached z hc hz ↦ hext z (hlt _ z hc hz)
  | fill key' r =>
      have hne : key ≠ key' := fun heq ↦ hfill r (heq ▸ rfl)
      obtain ⟨hext, hstored⟩ := backendSet_extends identifier limit r h key'
      exact hkeeps.congr (fun _ hc ↦ by rwa [ReadState.apply, hstored key hne] at hc)
        fun cached z hc hz ↦ hext z (hlt _ z hc hz)
  | drop key' =>
      refine hkeeps.congr (fun cached hc ↦ ?_) fun _ _ _ _ ↦ rfl
      rcases stored_update hc with hnone | hc
      · cases hnone
      · exact hc

theorem Keeps.run {h₀ : RowHeap C V} {result : ℕ} (hkeeps : s.Keeps key h₀ result)
    (h : s.Isolated) {actions : List (ReadAction K C V)}
    (hallows : s.AllowsAll identifier limit actions) (hfill : ∀ r, .fill key r ∉ actions) :
    (s.run identifier limit actions).Keeps key h₀ result := by
  induction actions generalizing s with
  | nil => exact hkeeps
  | cons a rest ih =>
      have hfirst : ∀ r, a ≠ .fill key r := fun r heq ↦ hfill r (heq ▸ List.mem_cons_self)
      exact ih (hkeeps.apply h hallows.1 hfirst) (h.apply hallows.1) hallows.2
        fun r hr ↦ hfill r (List.mem_cons_of_mem _ hr)

theorem backendSet_keeps {result : ℕ} (h : s.Isolated)
    (hset : s.backendSet identifier limit key result = (true, s')) :
    s'.Keeps key s.heap result := by
  rw [ReadState.backendSet] at hset
  split at hset
  · rename_i detached heap hsnapshot
    cases hset
    obtain ⟨m, hm, hcopy, -⟩ := snapshot_root h.closed hsnapshot
    intro cached hc
    have hroot : Function.update s.stored key (some detached) key = some cached := hc
    rw [Function.update_self] at hroot
    exact ⟨m, hm.trans (Option.some.inj hroot), hcopy⟩
  · cases hset

/-- Whatever the callers do with the rows in their hands, a hit returns a copy
of the result as it was when it was stored, in new cells. -/
theorem detached_reads {s₀ s₁ s₂ : ReadState K C V} {before after : List (ReadAction K C V)}
    {result rows : ℕ} (hbefore : initial.AllowsAll identifier limit before)
    (hs₀ : s₀ = initial.run identifier limit before)
    (hset : s₀.backendSet identifier limit key result = (true, s₁))
    (hafter : s₁.AllowsAll identifier limit after) (hfill : ∀ r, .fill key r ∉ after)
    (hget : (s₁.run identifier limit after).backendGet identifier limit key = (some rows, s₂)) :
    ∃ m, m result = rows ∧ Copies s₀.heap result s₂.heap m ∧
      ∀ x, (s₁.run identifier limit after).heap.length ≤ m x := by
  have hisolated₀ : s₀.Isolated := hs₀ ▸ isolated_initial.run hbefore
  have hisolated₁ : s₁.Isolated := by
    have hnext : (s₀.backendSet identifier limit key result).2.Isolated :=
      hisolated₀.backendSet key
    rwa [hset] at hnext
  have hkeeps := (backendSet_keeps hisolated₀ hset).run hisolated₁ hafter hfill
  obtain ⟨cached, m', hstored, rfl, hcopy', hge⟩ :=
    backendGet_some (hisolated₁.run hafter) hget
  obtain ⟨m, rfl, hcopy⟩ := hkeeps cached hstored
  exact ⟨m' ∘ m, rfl, hcopy.trans hcopy', fun x ↦ hge (m x)⟩

end Runs

end ReadState

section Sample

/-! An article is stored, changed by its caller and read again. -/

open ReadState

def storeActions : List (ReadAction Unit BlogModel ℕ) :=
  [.alloc ⟨.row .article, [.atom (.value 7)]⟩, .alloc ⟨.list, [.ref 0]⟩]

def unsavedActions : List (ReadAction Unit BlogModel ℕ) :=
  [.write 0 ⟨.row .article, [.atom (.value 8)]⟩, .write 1 ⟨.list, []⟩]

def stored : ReadState Unit BlogModel ℕ :=
  ((initial.run blogIdentifier 9 storeActions).backendSet blogIdentifier 9 () 1).2

theorem detached_reads_sample :
    ∃ m, m 1 = 4 ∧ Copies (initial.run blogIdentifier 9 storeActions).heap 1
        ((stored.run blogIdentifier 9 unsavedActions).backendGet blogIdentifier 9 ()).2.heap m ∧
      ∀ x, (stored.run blogIdentifier 9 unsavedActions).heap.length ≤ m x := by
  have hbefore : initial.AllowsAll blogIdentifier 9 storeActions := by
    refine ⟨fun z hz ↦ by simp at hz, fun z hz ↦ ?_, trivial⟩
    obtain rfl : z = 0 := by simpa using hz
    exact ⟨0, List.mem_cons_self, .refl⟩
  have hset : (initial.run blogIdentifier 9 storeActions).backendSet blogIdentifier 9 () 1 =
    (true, stored) := rfl
  have hafter : stored.AllowsAll blogIdentifier 9 unsavedActions :=
    ⟨⟨⟨0, by decide, .refl⟩, fun z hz ↦ by simp at hz⟩,
      ⟨⟨1, by decide, .refl⟩, fun z hz ↦ by simp at hz⟩, trivial⟩
  exact detached_reads hbefore rfl hset hafter (by simp [unsavedActions]) rfl

end Sample

end DjangoNova
