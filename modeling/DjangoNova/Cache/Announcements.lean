import DjangoNova.Cache.DependencySoundness
import DjangoNova.Cache.KeyDigest
import DjangoNova.Cache.QuerySetCache
import DjangoNova.Cache.Subscriptions

/-!
# What a write announces

A committed write changes tables and sends signals; the subscribed
callbacks then call `invalidate_model`. Saving an instance changes the
tables of its multi-table-inheritance ancestors as well, and a deletion
cascades to the rows of automatic through tables, but neither is
announced by a signal of its own.
-/

namespace DjangoNova

variable {M C Sql : Type}

inductive M2mOperation where
  | add
  | remove
  | clear

/-- The `action` of `m2m_changed`: before or after an operation. -/
inductive M2mAction where
  | pre (operation : M2mOperation)
  | post (operation : M2mOperation)

/-- A signal that Django sends. -/
inductive Announcement (M : Type) where
  | postSave (sender : M)
  | postDelete (sender : M)
  | m2mChanged (sender : M) (action : M2mAction)

namespace Announcement

def sender : Announcement M → M
  | .postSave m | .postDelete m | .m2mChanged m _ => m

def signal : Announcement M → Signal
  | .postSave _ => .postSave
  | .postDelete _ => .postDelete
  | .m2mChanged _ _ => .m2mChanged

/-- The callback acts on the announcement; `_invalidate_m2m` ignores the
actions before an operation. -/
def effective : Announcement M → Bool
  | .m2mChanged _ (.pre _) => false
  | _ => true

end Announcement

/-- A write on the rows of models. `collected` are the models of the rows
that a deletion removes. -/
inductive Write (M : Type) where
  | save (m : M)
  | delete (m : M) (collected : List M)
  | m2m (through : M) (operation : M2mOperation)

namespace Write

variable (R : Registry M)

/-- The write is a save, a deletion or a manager change of the model `x`. -/
def Of (x : M) : Write M → Prop
  | .save m => m = x
  | .delete m collected => m = x ∧ m ∈ collected ∧ ∀ n ∈ collected,
      Relation.ReflTransGen (fun a b ↦ b ∈ R.parents a ∨ b ∈ R.cascades a) m n ∧
        ∀ p ∈ R.parents n, p ∈ collected
  | .m2m through _ => through ∈ R.throughModels x

/-- The write changes rows of the table. -/
def Changes (tableName : Str) : Write M → Prop
  | .save m => ∃ a, Relation.ReflTransGen (fun a b ↦ b ∈ R.parents a) m a ∧ R.table a = tableName
  | .delete _ collected => ∃ n ∈ collected, R.table n = tableName
  | .m2m through _ => R.table through = tableName

/-- The models that the write announces after it. -/
def senders : Write M → List M
  | .save m => [m]
  | .delete _ collected => collected.filter fun n ↦ !R.autoCreated n
  | .m2m through _ => [through]

def announcements : Write M → List (Announcement M)
  | .save m => [.postSave m]
  | .delete _ collected => (collected.filter fun n ↦ !R.autoCreated n).map .postDelete
  | .m2m through operation =>
      [.m2mChanged through (.pre operation), .m2mChanged through (.post operation)]

end Write

/-- The name that `_invalidate` passes on. -/
def invalidationName (label : ModelLabel) : Option Str :=
  if label.modelName = [] then none
  else if label.appLabel = [] then some label.modelName
  else some (label.appLabel ++ '.' :: label.modelName)

/-- `str(kwargs.get("using", "default") or "default")`. -/
def signalDatabase (usingAlias : Option Str) : Str :=
  if usingAlias.getD [] = [] then "default".toList else usingAlias.getD []

/-- The callback of the receiver runs for the announcement. -/
def Receiver.responds [DecidableEq M] (r : Receiver M C) (a : Announcement M) : Bool :=
  r.signal = a.signal && r.sender = a.sender && a.effective

/-- A call of `invalidate_model` on a cache. -/
structure Invalidation (C : Type) where
  cache : C
  modelName : Str
  db : Str

/-- The calls that the callbacks make once the write has committed. -/
def Subscriptions.invalidations [DecidableEq M] (R : Registry M) (s : Subscriptions M C)
    (w : Write M) (usingAlias : Option Str) : List (Invalidation C) :=
  (w.announcements R).flatMap fun a ↦
    (s.receivers.filter (·.responds a)).filterMap fun r ↦
      (invalidationName (R.label a.sender)).map
        fun name ↦ ⟨r.cache, name, signalDatabase usingAlias⟩

/-- The names under which `_key_snapshot` registers a query. -/
def queryNames (d : Deployment Sql) (R : Registry M) (qs : QuerySet M)
    (deps : QueryDependencies M) : Finset Str :=
  (R.label qs.model :: deps.models.map R.label).toFinset.biUnion (ModelLabel.names d.lower)

/-- A callback of the cache invalidates the query on its database. -/
def Invalidated [DecidableEq M] (d : Deployment Sql) (R : Registry M) (s : Subscriptions M C)
    (c : C) (w : Write M) (usingAlias : Option Str) (qs : QuerySet M) (deps : QueryDependencies M) :
    Prop :=
  ∃ i ∈ s.invalidations R w usingAlias, i.cache = c ∧ i.db = qs.db ∧
    ∃ name ∈ normalizeModelNames d.lower i.modelName, name ∈ queryNames d R qs deps

/-- `str.lower` on the labels of a registry: model names are in lower case,
and the part before a dot does not change them. -/
structure LowerLabels (lower : Str → Str) (R : Registry M) : Prop where
  stable : ∀ m, lower (R.label m).modelName = (R.label m).modelName
  qualified : ∀ m, ∃ app, lower ((R.label m).appLabel ++ '.' :: (R.label m).modelName) =
    app ++ '.' :: (R.label m).modelName

section Names

variable {R : Registry M} {lower : Str → Str} {s m : M}

/-- The names of an announced model hit a model with the same model name. -/
theorem announced_names (h : LowerLabels lower R) :
    ∃ name, invalidationName (R.label s) = some name ∧
      ((∃ n ∈ normalizeModelNames lower name, n ∈ (R.label m).names lower) ↔
        (R.label s).modelName = (R.label m).modelName) := by
  obtain ⟨hne, hdot, happ, hmodel⟩ := R.label_clean s
  obtain ⟨-, hdot', -, -⟩ := R.label_clean m
  have hnames : ∀ n, n ∈ (R.label m).names lower ↔ n = (R.label m).modelName ∨
      n = (if (R.label m).appLabel = [] then (R.label m).modelName
        else (R.label m).appLabel ++ '.' :: (R.label m).modelName) := by
    intro n
    simp [ModelLabel.names, ModelLabel.fullName, ModelLabel.shortName, h.stable]
  simp only [hnames]
  by_cases hempty : (R.label s).appLabel = []
  · refine ⟨(R.label s).modelName, by simp [invalidationName, hne, hempty], ?_⟩
    have hnorm : normalizeModelNames lower (R.label s).modelName = {(R.label s).modelName} := by
      simp [normalizeModelNames, Str.strip_eq_self hmodel, h.stable, hne, hdot]
    simp only [hnorm, Finset.mem_singleton, exists_eq_left]
    constructor
    · rintro (heq | heq)
      · exact heq
      · split at heq
        · exact heq
        · rw [heq] at hdot
          simp at hdot
    · exact .inl
  · refine ⟨(R.label s).appLabel ++ '.' :: (R.label s).modelName,
      by simp [invalidationName, hne, hempty], ?_⟩
    obtain ⟨app, happ'⟩ := h.qualified s
    have hclean : ∀ c ∈ (R.label s).appLabel ++ '.' :: (R.label s).modelName,
        Str.isSpace c = false := by
      intro c hc
      rcases List.mem_append.mp hc with hc | hc
      · exact happ c hc
      · rcases List.mem_cons.mp hc with rfl | hc
        · decide
        · exact hmodel c hc
    have hnorm : normalizeModelNames lower ((R.label s).appLabel ++ '.' :: (R.label s).modelName) =
        {app ++ '.' :: (R.label s).modelName, (R.label s).modelName} := by
      simp [normalizeModelNames, Str.strip_eq_self hclean, happ', hne, Str.afterLast_append hdot]
    simp only [hnorm, Finset.mem_insert, Finset.mem_singleton, exists_eq_or_imp, exists_eq_left]
    constructor
    · rintro ((heq | heq) | (heq | heq))
      · rw [← heq] at hdot'
        simp at hdot'
      · split at heq
        · rw [← heq] at hdot'
          simp at hdot'
        · have hlast := congrArg (Str.afterLast '.') heq
          rwa [Str.afterLast_append hdot, Str.afterLast_append hdot'] at hlast
      · exact heq
      · split at heq
        · exact heq
        · rw [heq] at hdot
          simp at hdot
    · exact fun heq ↦ .inr (.inl heq)

end Names

section Coverage

open Dependencies Subscriptions

variable [DecidableEq M] {R : Registry M} {s : Subscriptions M C} {c : C} {w : Write M}

omit [DecidableEq M] in
/-- The announcements on which the callbacks act come from the announced models. -/
theorem exists_effective {sender : M} :
    (∃ a ∈ w.announcements R, a.effective = true ∧ a.sender = sender) ↔ sender ∈ w.senders R := by
  cases w with
  | save m =>
      simp only [Write.announcements, Write.senders, List.mem_singleton, exists_eq_left]
      exact ⟨fun h ↦ h.2.symm, fun h ↦ ⟨rfl, h.symm⟩⟩
  | delete m collected =>
      simp only [Write.announcements, Write.senders, List.mem_map]
      constructor
      · rintro ⟨_, ⟨n, hn, rfl⟩, -, rfl⟩
        exact hn
      · exact fun h ↦ ⟨_, ⟨sender, h, rfl⟩, rfl, rfl⟩
  | m2m through operation =>
      simp only [Write.announcements, Write.senders, List.mem_cons, List.not_mem_nil, or_false]
      constructor
      · rintro ⟨_, rfl | rfl, -, rfl⟩ <;> rfl
      · rintro rfl
        exact ⟨_, .inr rfl, rfl, rfl⟩

variable [DecidableEq C] [Fintype M]

omit [DecidableEq C] [Fintype M] [DecidableEq M] in
/-- What a deletion collects lies in the component of the deleted model. -/
theorem collected_connected {m n : M}
    (h : Relation.ReflTransGen (fun a b ↦ b ∈ R.parents a ∨ b ∈ R.cascades a) m n) :
    R.Connected m n := by
  refine Relation.ReflTransGen.mono (fun a b hab ↦ ?_) m n h
  obtain ⟨r, hr, hmodel⟩ : ∃ r ∈ R.fields a, r.relatedModel = some b := by
    rcases hab with hp | hc
    · exact R.parent_related a b hp
    · exact R.cascade_related a b hc
  exact List.mem_flatMap.mpr ⟨r, hr, by simp [Registry.targets, hmodel]⟩

omit [DecidableEq C] [Fintype M] [DecidableEq M] in
/-- The pairs of an announcement of a write are subscribed with its model. -/
theorem announced_pair {roots : M → C → Prop} (hs : Spanned R roots s) {root x : M}
    (hroot : roots root c) (hx : R.Connected root x) (hw : w.Of R x) {a : Announcement M}
    (ha : a ∈ w.announcements R) : (a.sender, c) ∈ s.pairs a.signal := by
  cases w with
  | save m =>
      obtain rfl : m = x := hw
      obtain rfl : a = .postSave m := by simpa [Write.announcements] using ha
      exact (hs.connected m c).mpr ⟨root, hroot, hx⟩
  | delete m collected =>
      obtain ⟨rfl, -, hcollected⟩ := hw
      simp only [Write.announcements, List.mem_map, List.mem_filter] at ha
      obtain ⟨n, ⟨hn, -⟩, rfl⟩ := ha
      exact (hs.connected n c).mpr
        ⟨root, hroot, hx.trans (collected_connected (hcollected n hn).1)⟩
  | m2m through operation =>
      have hmem : (through, c) ∈ s.connectedM2m :=
        (hs.connectedM2m through c).mpr ⟨root, x, hroot, hx, hw⟩
      simp only [Write.announcements, List.mem_cons, List.not_mem_nil, or_false] at ha
      rcases ha with rfl | rfl <;> exact hmem

omit [DecidableEq C] [Fintype M] in
theorem mem_invalidations (hs : s.Faithful) {usingAlias : Option Str} {name db : Str} :
    ⟨c, name, db⟩ ∈ s.invalidations R w usingAlias ↔ ∃ a ∈ w.announcements R,
      a.effective = true ∧ (a.sender, c) ∈ s.pairs a.signal ∧
        invalidationName (R.label a.sender) = some name ∧ db = signalDatabase usingAlias := by
  simp only [Subscriptions.invalidations, List.mem_flatMap, List.mem_filterMap, List.mem_filter,
    Receiver.responds, Bool.and_eq_true, decide_eq_true_eq, Option.map_eq_some_iff,
    Invalidation.mk.injEq]
  constructor
  · rintro ⟨a, ha, ⟨σ, m, c'⟩, ⟨hr, ⟨rfl, rfl⟩, heff⟩, name', hname, rfl, rfl, rfl⟩
    exact ⟨a, ha, heff, (hs.mem_iff _ _ _).mp hr, hname, rfl⟩
  · rintro ⟨a, ha, heff, hpair, hname, rfl⟩
    exact ⟨a, ha, ⟨a.signal, a.sender, c⟩, ⟨(hs.mem_iff _ _ _).mpr hpair, ⟨rfl, rfl⟩, heff⟩, name,
      hname, rfl, rfl, rfl⟩

omit [DecidableEq C] [Fintype M] in
/-- The names of a query are those of the models it depends on. -/
theorem mem_queryNames {Sql : Type} {d : Deployment Sql} (hlower : LowerLabels d.lower R)
    {qs : QuerySet M} {deps : QueryDependencies M} (h : queryDependencies R qs = .ok deps)
    (sender : M) :
    ∃ name, invalidationName (R.label sender) = some name ∧
      ((∃ n ∈ normalizeModelNames d.lower name, n ∈ queryNames d R qs deps) ↔
        ∃ m ∈ deps.models, (R.label sender).modelName = (R.label m).modelName) := by
  obtain ⟨name, hname, -⟩ := announced_names (s := sender) (m := sender) hlower
  have hiff : ∀ m, (∃ n ∈ normalizeModelNames d.lower name, n ∈ (R.label m).names d.lower) ↔
      (R.label sender).modelName = (R.label m).modelName := by
    intro m
    obtain ⟨name', hname', hm⟩ := announced_names (s := sender) (m := m) hlower
    obtain rfl := Option.some.inj (hname.symm.trans hname')
    exact hm
  refine ⟨name, hname, ?_⟩
  have hbase : ∃ m ∈ deps.models, (R.label m).modelName = (R.label qs.model).modelName := by
    obtain ⟨m, hm, hlabel⟩ := ((queryDependencies_ok h).2 qs.model).mpr
      ⟨qs.model, List.mem_cons_self, rfl⟩
    refine ⟨m, hm, ?_⟩
    have hlast := congrArg (Str.afterLast '.') hlabel
    rwa [Registry.labelLower, Registry.labelLower, Str.afterLast_append (R.label_clean m).2.1,
      Str.afterLast_append (R.label_clean qs.model).2.1] at hlast
  simp only [queryNames, Finset.mem_biUnion, List.mem_toFinset, List.mem_cons, List.mem_map]
  constructor
  · rintro ⟨n, hn, label, rfl | ⟨m, hm, rfl⟩, hmem⟩
    · obtain ⟨m, hm, hsame⟩ := hbase
      exact ⟨m, hm, ((hiff qs.model).mp ⟨n, hn, hmem⟩).trans hsame.symm⟩
    · exact ⟨m, hm, (hiff m).mp ⟨n, hn, hmem⟩⟩
  · rintro ⟨m, hm, hsame⟩
    obtain ⟨n, hn, hmem⟩ := (hiff m).mpr hsame
    exact ⟨n, hn, R.label m, .inr ⟨m, hm, rfl⟩, hmem⟩

/-- Whether the query is invalidated depends on the announced models alone. -/
theorem invalidated_iff {Sql : Type} {d : Deployment Sql}
    (hlower : LowerLabels d.lower R) {calls : List (M × C)} {root x : M}
    (hroot : (root, c) ∈ calls) (hon : R.cacheEnabled root = true) (hx : R.Connected root x)
    (hw : w.Of R x) {qs : QuerySet M} {deps : QueryDependencies M}
    (h : queryDependencies R qs = .ok deps) {usingAlias : Option Str}
    (hdb : signalDatabase usingAlias = qs.db) :
    Invalidated d R (afterCalls R calls) c w usingAlias qs deps ↔
      ∃ sender ∈ w.senders R, ∃ m ∈ deps.models,
        (R.label sender).modelName = (R.label m).modelName := by
  obtain ⟨hfaithful, hspanned⟩ := afterCalls_spec (R := R) calls
  constructor
  · rintro ⟨⟨c', name, db⟩, hi, rfl, -, hnames⟩
    obtain ⟨a, ha, heff, -, hname, -⟩ := (mem_invalidations hfaithful).mp hi
    obtain ⟨name', hname', hiff⟩ := mem_queryNames hlower h a.sender
    obtain rfl := Option.some.inj (hname.symm.trans hname')
    exact ⟨a.sender, exists_effective.mp ⟨a, ha, heff, rfl⟩, hiff.mp hnames⟩
  · rintro ⟨sender, hsender, hmodels⟩
    obtain ⟨a, ha, heff, rfl⟩ := exists_effective.mpr hsender
    obtain ⟨name, hname, hiff⟩ := mem_queryNames hlower h a.sender
    have hpair := announced_pair hspanned ⟨hroot, hon⟩ hx hw ha
    exact ⟨⟨c, name, qs.db⟩, (mem_invalidations hfaithful).mpr
      ⟨a, ha, heff, hpair, hname, hdb.symm⟩, rfl, rfl, hiff.mpr hmodels⟩

omit [DecidableEq M] [DecidableEq C] [Fintype M] in
/-- Where no two models share a table, the only changes without a sender of
their own are those of ancestors by a save, and those of automatic through
tables by a deletion. -/
theorem changes_senders (htable : Function.Injective R.table) {m : M}
    (h : w.Changes R (R.table m)) :
    m ∈ w.senders R ∨ (∃ n, w = .save n ∧ n ≠ m ∧
        Relation.ReflTransGen (fun a b ↦ b ∈ R.parents a) n m) ∨
      (∃ n collected, w = .delete n collected ∧ m ∈ collected ∧ R.autoCreated m = true) := by
  cases w with
  | save n =>
      obtain ⟨a, ha, heq⟩ := h
      obtain rfl := htable heq
      by_cases hn : n = a
      · exact .inl (by simp [Write.senders, hn])
      · exact .inr (.inl ⟨n, rfl, hn, ha⟩)
  | delete n collected =>
      obtain ⟨a, ha, heq⟩ := h
      obtain rfl := htable heq
      cases hauto : R.autoCreated a with
      | false => exact .inl (by simp [Write.senders, ha, hauto])
      | true => exact .inr (.inr ⟨n, collected, rfl, ha, rfl⟩)
  | m2m through operation =>
      obtain rfl := htable h
      exact .inl (by simp [Write.senders])

/-- A committed write of a model in a connected component leaves no stale
query if and only if it changes no table of a dependency, or announces a
model with the model name of one. Where no two models share a table, it
fails to announce a changed model only as an ancestor of a saved one, or as
the automatic through model of a deleted one. -/
theorem announced_invalidation {Sql : Type} {d : Deployment Sql}
    (hlower : LowerLabels d.lower R) {calls : List (M × C)} {root x : M}
    (hroot : (root, c) ∈ calls) (hon : R.cacheEnabled root = true) (hx : R.Connected root x)
    (hw : w.Of R x) {qs : QuerySet M} {deps : QueryDependencies M}
    (h : queryDependencies R qs = .ok deps) {usingAlias : Option Str}
    (hdb : signalDatabase usingAlias = qs.db) :
    (((∃ m ∈ deps.models, w.Changes R (R.table m)) →
        Invalidated d R (afterCalls R calls) c w usingAlias qs deps) ↔
      ((∀ m ∈ deps.models, ¬w.Changes R (R.table m)) ∨
        ∃ sender ∈ w.senders R, ∃ m ∈ deps.models,
          (R.label sender).modelName = (R.label m).modelName)) ∧
      (Function.Injective R.table → ∀ m, w.Changes R (R.table m) →
        m ∈ w.senders R ∨ (∃ n, w = .save n ∧ n ≠ m ∧
            Relation.ReflTransGen (fun a b ↦ b ∈ R.parents a) n m) ∨
          ∃ n collected, w = .delete n collected ∧ m ∈ collected ∧ R.autoCreated m = true) := by
  refine ⟨?_, fun htable m hchanges ↦ changes_senders htable hchanges⟩
  rw [invalidated_iff hlower hroot hon hx hw h hdb, imp_iff_not_or]
  simp only [not_exists, not_and]

end Coverage

section Sample

/-! A parent with a child by multi-table inheritance; the parent is
connected and queried. -/

inductive Diner where
  | place
  | restaurant
  deriving DecidableEq

instance : Fintype Diner where
  elems := {.place, .restaurant}
  complete m := by cases m <;> decide

def diner : Registry Diner where
  label := fun
    | .place => ⟨['e'], ['p']⟩
    | .restaurant => ⟨['e'], ['r']⟩
  label_clean := by
    intro m
    cases m <;> decide
  cacheEnabled := fun _ ↦ true
  table := fun
    | .place => ['p']
    | .restaurant => ['r']
  proxy := fun _ ↦ false
  autoCreated := fun _ ↦ false
  managers := fun _ ↦ []
  fields := fun
    | .place => [⟨false, some ['r'], some .restaurant, none⟩]
    | .restaurant => [⟨false, none, some .place, none⟩]
  getField := fun _ _ ↦ none
  getField_mem := by simp
  installed := [.place, .restaurant]
  routers := false
  parents := fun
    | .place => []
    | .restaurant => [.place]
  parent_related := by
    intro m p hp
    cases m <;> simp_all
  cascades := fun _ ↦ []
  cascade_related := by simp
  plainReads := fun _ ↦ []

open Dependencies Subscriptions

theorem diner_lower : LowerLabels (plainDeployment false).lower diner :=
  ⟨fun _ ↦ rfl, fun m ↦ ⟨(diner.label m).appLabel, rfl⟩⟩

theorem places_dependencies :
    queryDependencies diner (plainQuery .place [['p']] []) = .ok ⟨[.place], []⟩ := rfl

/-- Saving a place reaches the cached query on places. -/
theorem announced_invalidation_sample :
    Invalidated (plainDeployment false) diner (afterCalls diner [(.place, ())]) ()
      (.save .place) (some ['d']) (plainQuery .place [['p']] []) ⟨[.place], []⟩ := by
  have hof : (Write.save Diner.place).Of diner .place := rfl
  refine (announced_invalidation diner_lower List.mem_cons_self rfl .refl hof places_dependencies
    rfl).1.mpr (.inr ⟨.place, List.mem_cons_self, .place, List.mem_cons_self, rfl⟩) ?_
  exact ⟨.place, List.mem_cons_self, .place, .refl, rfl⟩

/-- Saving a restaurant changes the places, and no callback names them. -/
theorem announced_invalidation_fails :
    diner.Connected .place .restaurant ∧
      (Write.save Diner.restaurant).Changes diner (diner.table .place) ∧
      ¬Invalidated (plainDeployment false) diner (afterCalls diner [(.place, ())]) ()
        (.save .restaurant) (some ['d']) (plainQuery .place [['p']] []) ⟨[.place], []⟩ := by
  have hconnected : diner.Connected .place .restaurant :=
    .single (List.mem_flatMap.mpr ⟨_, List.mem_cons_self, List.mem_cons_self⟩)
  refine ⟨hconnected, ⟨.place, .single List.mem_cons_self, rfl⟩, ?_⟩
  have hof : (Write.save Diner.restaurant).Of diner .restaurant := rfl
  rw [invalidated_iff diner_lower List.mem_cons_self rfl hconnected hof places_dependencies rfl]
  decide

end Sample

end DjangoNova
