import DjangoNova.Collections.GraphPickle
import DjangoNova.Text.Str

/-!
# Result snapshots

`snapshot_rows` pickles a list of rows with everything that it reaches, and
unpickles it again at once. Model classes are written by their label and
found again in the classes that this pickle has met, so that rows of
isolated or historical registries keep their own classes.

A cell is an object as its reduction shows it: its class and the state that
is taken from it. Hooks for this (`__reduce__`, `__getstate__` and
`__setstate__`) may raise; one that does not is taken to change no object
and to restore the state that it has given.
-/

namespace DjangoNova

open ObjectGraph GraphPickle

variable {C V : Type}

/-- What is pickled of an object apart from its items. -/
inductive GraphLabel (C V : Type) where
  | list
  /-- Any other object, by its class or value. -/
  | value (v : V)
  | row (model : C)
  /-- A model class itself, as a prefetched query set refers to it. -/
  | model (model : C)
  /-- An object whose hooks raise. -/
  | refused (message : String)
  deriving DecidableEq

/-- The app label and the object name. -/
abbrev ModelIdentifier := Str × Str

inductive WrittenLabel (V : Type) where
  | list
  | value (v : V)
  | row (identifier : ModelIdentifier)
  | model (identifier : ModelIdentifier)

inductive SnapshotError where
  | typeError (message : String)
  /-- an exception of a hook -/
  | hook (message : String)
  | recursionError
  | unpicklingError
  deriving DecidableEq

/-- `_ResultPickler.model_types` -/
abbrev ModelTypes (C : Type) := ModelIdentifier → Option C

variable [DecidableEq C] (identifier : C → ModelIdentifier)

/-- `_remember_model` -/
def rememberModel (types : ModelTypes C) (model : C) :
    Except SnapshotError (ModelTypes C × ModelIdentifier) :=
  match types (identifier model) with
  | none => .ok (Function.update types (identifier model) (some model), identifier model)
  | some existing =>
      if existing = model then .ok (types, identifier model)
      else .error (.typeError "A snapshot contains different model classes with the same label")

/-- `reducer_override` for the instances, and `persistent_id` for the classes. -/
def writeLabel (types : ModelTypes C) :
    GraphLabel C V → Except SnapshotError (ModelTypes C × WrittenLabel V)
  | .list => .ok (types, .list)
  | .value v => .ok (types, .value v)
  | .row model =>
      match rememberModel identifier types model with
      | .error e => .error e
      | .ok (types, i) => .ok (types, .row i)
  | .model model =>
      match rememberModel identifier types model with
      | .error e => .error e
      | .ok (types, i) => .ok (types, .model i)
  | .refused message => .error (.hook message)

omit [DecidableEq C] in
/-- `find_class` with `_restore_model`, and `persistent_load`. -/
def readLabel (types : ModelTypes C) : WrittenLabel V → Option (GraphLabel C V)
  | .list => some .list
  | .value v => some (.value v)
  | .row i => (types i).map .row
  | .model i => (types i).map .model

section Labels

variable {identifier} {types types' : ModelTypes C} {model : C} {i : ModelIdentifier}

theorem rememberModel_ok (h : rememberModel identifier types model = .ok (types', i)) :
    i = identifier model ∧ types' (identifier model) = some model ∧
      (∀ j c, types j = some c → types' j = some c) ∧
      ∀ j c, types' j = some c → types j = some c ∨ j = identifier model ∧ c = model := by
  rw [rememberModel] at h
  split at h
  · rename_i hnone
    cases h
    refine ⟨rfl, Function.update_self .., fun j c hj ↦ ?_, fun j c hj ↦ ?_⟩
    · have hne : j ≠ identifier model := fun heq ↦ by simp [heq, hnone] at hj
      rwa [Function.update_of_ne hne]
    · by_cases hne : j = identifier model
      · rw [hne, Function.update_self] at hj
        exact .inr ⟨hne, (Option.some.inj hj).symm⟩
      · rw [Function.update_of_ne hne] at hj
        exact .inl hj
  · rename_i existing hsome
    split at h
    · rename_i heq
      cases h
      exact ⟨rfl, by rw [hsome, heq], fun _ _ hj ↦ hj, fun _ _ hj ↦ .inl hj⟩
    · cases h

theorem rememberModel_error {e : SnapshotError}
    (h : rememberModel identifier types model = .error e) :
    e = .typeError "A snapshot contains different model classes with the same label" ∧
      ∃ existing, types (identifier model) = some existing ∧ existing ≠ model := by
  rw [rememberModel] at h
  split at h
  · cases h
  · rename_i existing hsome
    split at h
    · cases h
    · rename_i hne
      cases h
      exact ⟨rfl, existing, hsome, hne⟩

/-- The model class of a label, if it has one. -/
def GraphLabel.modelClass : GraphLabel C V → Option C
  | .row model | .model model => some model
  | _ => none

theorem writeLabel_ok {l : GraphLabel C V} {r : WrittenLabel V}
    (h : writeLabel identifier types l = .ok (types', r)) :
    readLabel types' r = some l ∧ (∀ j c, types j = some c → types' j = some c) ∧
      ∀ j c, types' j = some c → types j = some c ∨ j = identifier c ∧ l.modelClass = some c := by
  cases l with
  | list =>
      cases h
      exact ⟨rfl, fun _ _ hj ↦ hj, fun _ _ hj ↦ .inl hj⟩
  | value v =>
      cases h
      exact ⟨rfl, fun _ _ hj ↦ hj, fun _ _ hj ↦ .inl hj⟩
  | row model | model model =>
      rw [writeLabel] at h
      split at h
      · cases h
      · rename_i types₁ i hremember
        cases h
        obtain ⟨rfl, hself, hkept, hnew⟩ := rememberModel_ok hremember
        refine ⟨by rw [readLabel, hself]; rfl, hkept, fun j c hj ↦ ?_⟩
        rcases hnew j c hj with hold | ⟨rfl, rfl⟩
        · exact .inl hold
        · exact .inr ⟨rfl, rfl⟩
  | refused message => cases h

theorem writeLabel_error {l : GraphLabel C V} {e : SnapshotError}
    (h : writeLabel identifier types l = .error e) :
    (e = .typeError "A snapshot contains different model classes with the same label" ∧
      ∃ c existing, l.modelClass = some c ∧ types (identifier c) = some existing ∧
        existing ≠ c) ∨
      ∃ message, e = .hook message ∧ l = .refused message := by
  cases l with
  | list => cases h
  | value v => cases h
  | row model | model model =>
      rw [writeLabel] at h
      split at h
      · rename_i e' hremember
        cases h
        obtain ⟨he, existing, hold, hne⟩ := rememberModel_error hremember
        exact .inl ⟨he, model, existing, rfl, hold, hne⟩
      · cases h
  | refused message =>
      cases h
      exact .inr ⟨message, rfl, rfl⟩

omit [DecidableEq C] in
theorem readLabel_stable (h : ∀ j c, types j = some c → types' j = some c) {r : WrittenLabel V}
    {l : GraphLabel C V} (hr : readLabel types r = some l) : readLabel types' r = some l := by
  cases r with
  | list => exact hr
  | value v => exact hr
  | row j | model j =>
      obtain ⟨c, hc, rfl⟩ := Option.map_eq_some_iff.mp hr
      rw [readLabel, h j c hc]
      rfl

end Labels

/-- The labels of a pickle of rows. -/
def resultCodec : LabelCodec (ModelTypes C) (GraphLabel C V) (WrittenLabel V) SnapshotError where
  write := writeLabel identifier
  read := readLabel
  read_write h := (writeLabel_ok h).1
  read_stable h _ _ := readLabel_stable (writeLabel_ok h).2.1

abbrev RowHeap (C V : Type) := List (Cell (GraphLabel C V))

omit [DecidableEq C] in
/-- `isinstance(value, list)` -/
def isList (h : RowHeap C V) : Item (GraphLabel C V) → Bool
  | .atom _ => false
  | .ref x =>
      match h[x]? with
      | some ⟨.list, _⟩ => true
      | _ => false

/-- `snapshot_rows`, with the depth that the recursion limit leaves. -/
def snapshotRows (limit : ℕ) (h : RowHeap C V) (value : Item (GraphLabel C V)) :
    Except SnapshotError (Item (GraphLabel C V) × RowHeap C V) :=
  if isList h value = false then
    .error (.typeError "A cached QuerySet result must be a list")
  else
    match save (resultCodec identifier) h limit ⟨[], fun _ ↦ none⟩ value with
    | .error .recursion => .error .recursionError
    | .error .dangling => .error .unpicklingError
    | .error (.label e) => .error e
    | .ok (ops, st) =>
        match load (readLabel st.registry) ⟨[], [], h⟩ ops with
        | some ⟨[detached], _, h'⟩ =>
            if isList h' detached = false then
              .error (.typeError "A QuerySet snapshot must preserve the result list")
            else .ok (detached, h')
        | _ => .error .unpicklingError

section Snapshots

variable {identifier} {limit root : ℕ} {h h' : RowHeap C V} {value v : Item (GraphLabel C V)}

omit [DecidableEq C] in
/-- The root of a snapshot is a copied list. -/
theorem isList_copy {m : ℕ → ℕ} (hcopy : Copies h root h' m)
    (hlist : isList h (.ref root) = true) :
    isList h' (.ref (m root)) = true := by
  obtain ⟨c, hc, hcopied⟩ := hcopy.cell root .refl
  obtain ⟨label, items⟩ := c
  rw [isList, hc] at hlist
  rw [isList, hcopied]
  cases label <;> simp_all [Cell.map]

/-- A snapshot is a copy of the rows and of everything that they reach, with
their own model classes, in new cells. -/
theorem snapshotRows_copies (hok : snapshotRows identifier limit h value = .ok (v, h')) :
    ∃ root m, value = .ref root ∧ v = .ref (m root) ∧ Copies h root h' m ∧
      (∀ x, h.length ≤ m x) ∧ Extends h h' ∧ (Closed h → Closed h') := by
  rw [snapshotRows] at hok
  split at hok
  · cases hok
  · rename_i hlist
    cases value with
    | atom l => simp [isList] at hlist
    | ref root =>
        split at hok
        · cases hok
        · cases hok
        · cases hok
        · rename_i ops st hsave
          obtain ⟨h₁, hload, hcopy, hold, hclosed⟩ := load_save h hsave
          have hload' : load (readLabel st.registry) ⟨[], [], h⟩ ops = _ := hload
          rw [hload'] at hok
          simp only at hok
          split at hok
          · cases hok
          · cases hok
            exact ⟨root, _, rfl, rfl, hcopy, fun x ↦ Nat.le_add_right _ _, hold, hclosed⟩

/-- The model class occurs in the graph of the root. -/
def InGraph (h : RowHeap C V) (root : ℕ) (c : C) : Prop :=
  ∃ l : GraphLabel C V, Labelled h root l ∧ l.modelClass = some c

/-- The classes that the pickler has met, under their labels. -/
def Met (identifier : C → ModelIdentifier) (h : RowHeap C V) (root : ℕ) (types : ModelTypes C) :
    Prop :=
  ∀ j c, types j = some c → identifier c = j ∧ InGraph h root c

theorem write_met {s s' : ModelTypes C} {l : GraphLabel C V} {r : WrittenLabel V}
    (hmet : Met identifier h root s) (hl : Labelled h root l)
    (hwrite : (resultCodec identifier).write s l = .ok (s', r)) : Met identifier h root s' := by
  intro j c hj
  rcases (writeLabel_ok hwrite).2.2 j c hj with hold | ⟨rfl, hclass⟩
  · exact hmet j c hold
  · exact ⟨rfl, l, hl, hclass⟩

/-- The pickler of a list ends with the classes of the graph, or at two with one label. -/
theorem save_rows (identifier : C → ModelIdentifier) (hclosed : Closed h)
    (hlist : isList h (.ref root) = true) (hlimit : h.length < limit) :
    Outcome (resultCodec identifier) (Met identifier h root) (Labelled h root)
      (save (resultCodec identifier) h limit ⟨[], fun _ ↦ none⟩ (.ref root)) := by
  have hroot : root < h.length := by
    by_contra hge
    simp [isList, List.getElem?_eq_none (Nat.le_of_not_lt hge)] at hlist
  refine save_outcome (fun _ _ _ _ ↦ write_met) hclosed List.nodup_nil (by simp) ?_ ?_ ?_
    (by simpa using hlimit)
  · rintro x ⟨⟩
    exact hroot
  · rintro l (hl | ⟨r, hr, hl⟩)
    · cases hl
    · cases hr
      exact hl
  · intro j c hj
    cases hj

/-- Two classes of one pickled graph have different labels. -/
theorem classes_ne {ops : List (PickleOp (WrittenLabel V))} {st : PicklerState (ModelTypes C)}
    {c c' : C} (hclosed : Closed h) (hlist : isList h (.ref root) = true)
    (hlimit : h.length < limit)
    (hsave : save (resultCodec identifier) h limit ⟨[], fun _ ↦ none⟩ (.ref root) = .ok (ops, st))
    (hc : InGraph h root c) (hc' : InGraph h root c') (hsame : identifier c = identifier c') :
    c = c' := by
  have hmet := save_rows identifier hclosed hlist hlimit
  rw [hsave] at hmet
  have hfound : ∀ c, InGraph h root c → st.registry (identifier c) = some c := by
    rintro c ⟨l, hl, hclass⟩
    obtain ⟨r, hr⟩ := labelled_read hsave hl
    have hread : readLabel st.registry r = some l := hr
    obtain ⟨j, hj⟩ : ∃ j, st.registry j = some c := by
      cases r with
      | list => simp [← Option.some.inj hread, GraphLabel.modelClass] at hclass
      | value v => simp [← Option.some.inj hread, GraphLabel.modelClass] at hclass
      | row j | model j =>
          obtain ⟨c₁, hc₁, rfl⟩ := Option.map_eq_some_iff.mp hread
          exact ⟨j, hc₁.trans hclass⟩
    rw [(hmet j c hj).1, hj]
  have heq := (hfound c hc).symm.trans (hsame ▸ hfound c' hc')
  exact Option.some.inj heq

/-- Two model classes of the graph have the same label. -/
def Clash (identifier : C → ModelIdentifier) (h : RowHeap C V) (root : ℕ) : Prop :=
  ∃ c c', InGraph h root c ∧ InGraph h root c' ∧ identifier c = identifier c' ∧ c ≠ c'

omit [DecidableEq C] in
theorem readLabel_ne_refused {types : ModelTypes C} {r : WrittenLabel V} {message : String} :
    readLabel types r ≠ some (.refused message) := by
  cases r <;> simp [readLabel]

/-- What is written has neither a clash nor an object that refuses. -/
theorem written_fits {ops : List (PickleOp (WrittenLabel V))} {st : PicklerState (ModelTypes C)}
    (hclosed : Closed h) (hlist : isList h (.ref root) = true) (hlimit : h.length < limit)
    (hsave : save (resultCodec identifier) h limit ⟨[], fun _ ↦ none⟩ (.ref root) =
      .ok (ops, st)) :
    ¬Clash identifier h root ∧ ∀ message, ¬Labelled h root (.refused message) := by
  constructor
  · rintro ⟨c, c', hc, hc', hsame, hne⟩
    exact hne (classes_ne hclosed hlist hlimit hsave hc hc' hsame)
  · intro message hl
    obtain ⟨r, hr⟩ := labelled_read hsave hl
    exact readLabel_ne_refused hr

/-- An error of the pickler has its reason in the graph. -/
theorem save_error (hclosed : Closed h) (hlist : isList h (.ref root) = true)
    (hlimit : h.length < limit) {e : PickleError SnapshotError}
    (hsave : save (resultCodec identifier) h limit ⟨[], fun _ ↦ none⟩ (.ref root) = .error e) :
    (e = .label (.typeError "A snapshot contains different model classes with the same label") ∧
        Clash identifier h root) ∨
      ∃ message, e = .label (.hook message) ∧ Labelled h root (.refused message) := by
  have hout := save_rows identifier hclosed hlist hlimit
  rw [hsave] at hout
  obtain ⟨types, l, e', hmet, hl, hwrite, rfl⟩ := hout
  rcases writeLabel_error hwrite with ⟨rfl, c, existing, hclass, hold, hne⟩ | ⟨message, rfl, rfl⟩
  · obtain ⟨hsame, hin⟩ := hmet _ _ hold
    exact .inl ⟨rfl, existing, c, hin, ⟨l, hl, hclass⟩, hsame, hne⟩
  · exact .inr ⟨message, rfl, hl⟩

end Snapshots

section Sample

/-! An article with a loaded comment that refers back to it, and two
historical models with one label. -/

inductive BlogModel where
  | article
  | comment
  deriving DecidableEq

def blogIdentifier : BlogModel → ModelIdentifier
  | .article => (['b'], ['A'])
  | .comment => (['b'], ['C'])

def blogHeap : RowHeap BlogModel ℕ :=
  [⟨.list, [.ref 1]⟩, ⟨.row .article, [.atom (.value 7), .ref 2]⟩,
    ⟨.row .comment, [.ref 1, .atom (.model .article)]⟩]

def blogCopied : RowHeap BlogModel ℕ :=
  blogHeap ++ [⟨.list, [.ref 4]⟩, ⟨.row .article, [.atom (.value 7), .ref 5]⟩,
    ⟨.row .comment, [.ref 4, .atom (.model .article)]⟩]

theorem blog_snapshot :
    snapshotRows blogIdentifier 4 blogHeap (.ref 0) = .ok (.ref 3, blogCopied) := by
  rfl

theorem snapshotRows_copies_sample :
    ∃ root m, (.ref 0 : Item (GraphLabel BlogModel ℕ)) = .ref root ∧
      (.ref 3 : Item (GraphLabel BlogModel ℕ)) = .ref (m root) ∧
        Copies blogHeap root blogCopied m ∧ (∀ x, blogHeap.length ≤ m x) ∧
          Extends blogHeap blogCopied ∧ (Closed blogHeap → Closed blogCopied) :=
  snapshotRows_copies blog_snapshot

def historicalHeap : RowHeap Bool ℕ :=
  [⟨.list, [.ref 1, .ref 2]⟩, ⟨.row true, []⟩, ⟨.row false, []⟩]

theorem historical_closed : Closed historicalHeap := by
  intro x c hc y hy
  rcases x with _ | _ | _ | x <;> cases hc
  · have hmem : y = 1 ∨ y = 2 := by simpa using hy
    rcases hmem with rfl | rfl <;> decide
  · cases hy
  · cases hy

theorem historical_clash : Clash (fun _ : Bool ↦ (['b'], ['A'])) historicalHeap 0 := by
  refine ⟨true, false, ⟨.row true, ⟨1, ?_, _, rfl, .inl rfl⟩, rfl⟩,
    ⟨.row false, ⟨2, ?_, _, rfl, .inl rfl⟩, rfl⟩, rfl, by decide⟩
  · exact .single ⟨_, rfl, List.mem_cons_self⟩
  · exact .single ⟨_, rfl, List.mem_cons_of_mem _ List.mem_cons_self⟩

end Sample

end DjangoNova
