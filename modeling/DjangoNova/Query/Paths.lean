import Mathlib.Data.Finset.Max
import DjangoNova.Query.Planner

/-!
# Relation paths

Paths join field names with `__`. A name that neither contains the
separator nor ends in an underscore, as the names of Django fields are,
is given back when a path is split.
-/

namespace DjangoNova

namespace Planner

/-- `path.split("__")` -/
def segments : Str → List Str
  | '_' :: '_' :: rest => [] :: segments rest
  | c :: rest =>
      match segments rest with
      | [] => [[c]]
      | segment :: more => (c :: segment) :: more
  | [] => [[]]

/-- `name` is what stands before the first separator of `name + "__"`. -/
structure Segment (name : Str) : Prop where
  ne_nil : name ≠ []
  root : pathRoot (name ++ ['_', '_']) = name

instance (name : Str) : Decidable (Segment name) :=
  decidable_of_iff (name ≠ [] ∧ pathRoot (name ++ ['_', '_']) = name)
    ⟨fun h ↦ ⟨h.1, h.2⟩, fun h ↦ ⟨h.1, h.2⟩⟩

variable {c : Char} {name rest path : Str}

theorem pathRoot_cons :
    pathRoot (c :: rest) = if c = '_' ∧ rest.head? = some '_' then [] else c :: pathRoot rest := by
  by_cases hc : c = '_'
  · subst hc
    cases rest with
    | nil => rfl
    | cons b rest =>
        by_cases hb : b = '_'
        · subst hb
          rfl
        · simp [pathRoot, hb]
  · simp [pathRoot, hc]

theorem segments_cons (h : ¬(c = '_' ∧ rest.head? = some '_')) :
    segments (c :: rest) =
      match segments rest with
      | [] => [[c]]
      | segment :: more => (c :: segment) :: more := by
  by_cases hc : c = '_'
  · subst hc
    cases rest with
    | nil => rfl
    | cons b rest =>
        have hb : b ≠ '_' := fun hb ↦ h ⟨Eq.refl _, congrArg some hb⟩
        simp [segments, hb]
  · simp [segments, hc]

/-- No character of a segment starts a separator. -/
theorem segment_cons (h : pathRoot (c :: name ++ ['_', '_']) = c :: name) (rest : Str) :
    ¬(c = '_' ∧ (name ++ '_' :: '_' :: rest).head? = some '_') ∧
      pathRoot (name ++ ['_', '_']) = name := by
  rw [List.cons_append, pathRoot_cons] at h
  split at h
  · cases h
  next hseparator =>
    refine ⟨?_, (List.cons.inj h).2⟩
    cases name with
    | nil => simpa using hseparator
    | cons b name => simpa using hseparator

theorem pathRoot_append (h : pathRoot (name ++ ['_', '_']) = name) (rest : Str) :
    pathRoot (name ++ '_' :: '_' :: rest) = name := by
  induction name with
  | nil => rfl
  | cons c name ih =>
      obtain ⟨hseparator, htail⟩ := segment_cons h rest
      rw [List.cons_append, pathRoot_cons, if_neg hseparator, ih htail]

theorem segments_append (h : pathRoot (name ++ ['_', '_']) = name) (rest : Str) :
    segments (name ++ '_' :: '_' :: rest) = name :: segments rest := by
  induction name with
  | nil => rfl
  | cons c name ih =>
      obtain ⟨hseparator, htail⟩ := segment_cons h rest
      rw [List.cons_append, segments_cons hseparator, ih htail]

theorem segment_tail (h : pathRoot (c :: name ++ ['_', '_']) = c :: name) :
    ¬(c = '_' ∧ name.head? = some '_') := by
  obtain ⟨hseparator, -⟩ := segment_cons h []
  cases name with
  | nil => simp
  | cons b name => simpa using hseparator

theorem pathRoot_self (h : pathRoot (name ++ ['_', '_']) = name) : pathRoot name = name := by
  induction name with
  | nil => rfl
  | cons c name ih => rw [pathRoot_cons, if_neg (segment_tail h), ih (segment_cons h []).2]

theorem segments_self (h : pathRoot (name ++ ['_', '_']) = name) : segments name = [name] := by
  induction name with
  | nil => rfl
  | cons c name ih => rw [segments_cons (segment_tail h), ih (segment_cons h []).2]

/-- A name that does not end in an underscore leaves the separator whole. -/
theorem pathRoot_append_of_last {b : Char} (hlast : name.getLast? = some b) (hb : b ≠ '_')
    (rest : Str) : pathRoot (name ++ '_' :: '_' :: rest) = pathRoot name := by
  induction name with
  | nil => cases hlast
  | cons c name ih =>
      rw [List.cons_append, pathRoot_cons, pathRoot_cons]
      cases name with
      | nil =>
          obtain rfl := Option.some.inj hlast
          rw [if_neg fun h ↦ hb h.1, if_neg fun h ↦ hb h.1]
          rfl
      | cons d name =>
          rw [ih (by simpa [List.getLast?_cons_cons] using hlast)]
          rfl

/-! Joined paths. -/

theorem fullPath_of_ne_nil {pathPrefix : Str} (h : pathPrefix ≠ []) (name : Str) :
    fullPath pathPrefix name = pathPrefix ++ '_' :: '_' :: name := if_neg h

/-- The names after the first are appended with separators. -/
theorem foldl_fullPath (hpath : path ≠ []) (names : List Str) :
    names.foldl fullPath path = path ++ names.flatMap ('_' :: '_' :: ·) := by
  induction names generalizing path with
  | nil => simp
  | cons name rest ih =>
      rw [List.foldl_cons, fullPath_of_ne_nil hpath, ih (by simp)]
      simp

theorem foldl_fullPath_cons (hname : name ≠ []) (names : List Str) :
    (name :: names).foldl fullPath [] = name ++ names.flatMap ('_' :: '_' :: ·) :=
  foldl_fullPath hname names

/-- Splitting a joined path gives the names back. -/
theorem segments_foldl {names : List Str} (hnames : names ≠ [])
    (hsegments : ∀ n ∈ names, Segment n) :
    segments (names.foldl fullPath []) = names := by
  cases names with
  | nil => exact absurd (Eq.refl _) hnames
  | cons name rest =>
      rw [foldl_fullPath_cons (hsegments name List.mem_cons_self).ne_nil]
      clear hnames
      induction rest generalizing name with
      | nil => simpa using segments_self (hsegments name List.mem_cons_self).root
      | cons next rest ih =>
          rw [List.flatMap_cons, List.cons_append, List.cons_append,
            segments_append (hsegments name List.mem_cons_self).root,
            ih next fun n hn ↦ hsegments n (List.mem_cons_of_mem _ hn)]

/-- What is appended with a separator is split apart from the names. -/
theorem segments_foldl_append {names : List Str} (hnames : names ≠ [])
    (hsegments : ∀ n ∈ names, Segment n) (rest : Str) :
    segments (names.foldl fullPath [] ++ '_' :: '_' :: rest) = names ++ segments rest := by
  cases names with
  | nil => exact absurd (Eq.refl _) hnames
  | cons name more =>
      rw [foldl_fullPath_cons (hsegments name List.mem_cons_self).ne_nil]
      clear hnames
      induction more generalizing name with
      | nil => simpa using segments_append (hsegments name List.mem_cons_self).root rest
      | cons next more ih =>
          rw [List.flatMap_cons, List.cons_append, List.cons_append, List.append_assoc,
            List.cons_append, List.cons_append,
            segments_append (hsegments name List.mem_cons_self).root,
            ih next fun n hn ↦ hsegments n (List.mem_cons_of_mem _ hn)]
          rfl

theorem pathRoot_foldl {names : List Str} (hname : Segment name) :
    pathRoot ((name :: names).foldl fullPath []) = name := by
  rw [foldl_fullPath_cons hname.ne_nil]
  cases names with
  | nil => simpa using pathRoot_self hname.root
  | cons next rest =>
      rw [List.flatMap_cons, List.cons_append, List.cons_append]
      exact pathRoot_append hname.root _

theorem pathRoot_foldl_of_last {b : Char} (hlast : name.getLast? = some b) (hb : b ≠ '_')
    (names : List Str) : pathRoot ((name :: names).foldl fullPath []) = pathRoot name := by
  have hname : name ≠ [] := by
    rintro rfl
    cases hlast
  rw [foldl_fullPath_cons hname]
  cases names with
  | nil => rw [List.flatMap_nil, List.append_nil]
  | cons next rest => exact pathRoot_append_of_last hlast hb _

/-! The paths that are kept. -/

theorem mem_sorted {names : List Str} : name ∈ sorted names ↔ name ∈ names := by
  rw [sorted, List.mem_insertionSort]

theorem mem_removeRedundantPaths {paths : List Str} :
    path ∈ removeRedundantPaths paths ↔
      path ∈ paths ∧ ∀ other ∈ paths, path ≠ other → ¬(path ++ ['_', '_']) <+: other := by
  have hmem : ∀ p, p ∈ sorted paths.eraseDups ↔ p ∈ paths := by
    intro p
    rw [mem_sorted, List.mem_eraseDups]
  rw [removeRedundantPaths, List.mem_filter, hmem]
  simp only [Bool.not_eq_true', List.any_eq_false, hmem, decide_eq_true_eq, not_and,
    List.isPrefixOf_iff_prefix]

/-- A path is kept, or some longer path below it is. -/
theorem exists_kept {paths : List Str} (h : path ∈ paths) :
    ∃ q ∈ removeRedundantPaths paths, q = path ∨ (path ++ ['_', '_']) <+: q := by
  have hne : (paths.toFinset.filter fun q ↦ q = path ∨ (path ++ ['_', '_']) <+: q).Nonempty :=
    ⟨path, Finset.mem_filter.mpr ⟨List.mem_toFinset.mpr h, .inl (Eq.refl _)⟩⟩
  obtain ⟨q, hq, hmax⟩ := Finset.exists_max_image _ List.length hne
  obtain ⟨hmem, hbelow⟩ := Finset.mem_filter.mp hq
  refine ⟨q, mem_removeRedundantPaths.mpr ⟨List.mem_toFinset.mp hmem, ?_⟩, hbelow⟩
  intro other hother _ hprefix
  have hlt : q.length < other.length := by
    have hle := hprefix.length_le
    simp only [List.length_append, List.length_cons, List.length_nil] at hle
    omega
  have hextends : (path ++ ['_', '_']) <+: other := by
    rcases hbelow with rfl | hbelow
    · exact hprefix
    · exact hbelow.trans ((List.prefix_append q _).trans hprefix)
  have hle := hmax other (Finset.mem_filter.mpr ⟨List.mem_toFinset.mpr hother, .inr hextends⟩)
  omega

/-! The reduction as a whole. -/

theorem nodup_eraseDups (names : List Str) : names.eraseDups.Nodup := by
  induction hn : names.length using Nat.strong_induction_on generalizing names with
  | _ n ih =>
      cases names with
      | nil => simp
      | cons name rest =>
          have hlength : (rest.filter fun b ↦ !b == name).length < n := by
            have hfilter := List.length_filter_le (fun b ↦ !b == name) rest
            rw [List.length_cons] at hn
            omega
          rw [List.eraseDups_cons]
          exact List.nodup_cons.mpr ⟨by simp, ih _ hlength _ rfl⟩

theorem pairwise_sorted {names : List Str} (hnames : names.Nodup) :
    (sorted names).Pairwise Str.Before := by
  have : Std.Total fun a b : Str ↦ Str.le a b = true := ⟨Str.le_total⟩
  have : IsTrans Str fun a b ↦ Str.le a b = true := ⟨fun _ _ _ ↦ Str.le_trans⟩
  have hle : (sorted names).Pairwise fun a b ↦ Str.le a b = true :=
    List.pairwise_insertionSort _ names
  have hne : (sorted names).Nodup := (List.perm_insertionSort _ names).nodup_iff.mpr hnames
  exact hle.and hne

theorem pairwise_removeRedundantPaths (paths : List Str) :
    (removeRedundantPaths paths).Pairwise Str.Before :=
  (pairwise_sorted (nodup_eraseDups paths)).filter _

/-- Strictly sorted lists of the same strings are equal. -/
theorem eq_of_pairwise_before {names names' : List Str} (h : names.Pairwise Str.Before)
    (h' : names'.Pairwise Str.Before) (hmem : ∀ name, name ∈ names ↔ name ∈ names') :
    names = names' := by
  have : Std.Antisymm Str.Before := ⟨fun _ _ hst hts ↦ Str.le_antisymm hst.1 hts.1⟩
  have : Std.Irrefl Str.Before := ⟨fun _ hself ↦ hself.2 rfl⟩
  exact h.eq_of_mem_iff h' hmem

/-- No separator leads from a kept path to a kept path. -/
theorem not_prefix_of_kept {paths : List Str} {other : Str}
    (hpath : path ∈ removeRedundantPaths paths)
    (hother : other ∈ removeRedundantPaths paths) : ¬(path ++ ['_', '_']) <+: other := by
  intro hprefix
  have hne : path ≠ other := by
    rintro rfl
    have hlength := hprefix.length_le
    simp at hlength
  exact (mem_removeRedundantPaths.mp hpath).2 other
    (mem_removeRedundantPaths.mp hother).1 hne hprefix

/-- The reduction keeps, strictly sorted, input paths that are not prefixes
of one another, one at or below each input path, and is determined by the
set of the input paths. -/
theorem path_reduction (paths : List Str) :
    (removeRedundantPaths paths).Pairwise Str.Before ∧ (removeRedundantPaths paths).Nodup ∧
      (∀ path ∈ removeRedundantPaths paths, path ∈ paths) ∧
      (∀ path ∈ removeRedundantPaths paths, ∀ other ∈ removeRedundantPaths paths,
        ¬(path ++ ['_', '_']) <+: other) ∧
      (∀ path ∈ paths, ∃ other ∈ removeRedundantPaths paths,
        other = path ∨ (path ++ ['_', '_']) <+: other) ∧
      (∀ paths' : List Str, (∀ path, path ∈ paths' ↔ path ∈ paths) →
        removeRedundantPaths paths' = removeRedundantPaths paths) ∧
      removeRedundantPaths (removeRedundantPaths paths) = removeRedundantPaths paths := by
  have hsorted := pairwise_removeRedundantPaths paths
  refine ⟨hsorted, hsorted.imp fun hlt ↦ hlt.2,
    fun path hpath ↦ (mem_removeRedundantPaths.mp hpath).1,
    fun path hpath other hother ↦ not_prefix_of_kept hpath hother, fun path ↦ exists_kept,
    fun paths' hsame ↦ ?_, ?_⟩
  · refine eq_of_pairwise_before (pairwise_removeRedundantPaths paths') hsorted fun path ↦ ?_
    simp only [mem_removeRedundantPaths, hsame]
  · refine eq_of_pairwise_before (pairwise_removeRedundantPaths _) hsorted fun path ↦ ?_
    rw [mem_removeRedundantPaths]
    exact and_iff_left_of_imp fun hpath other hother _ ↦ not_prefix_of_kept hpath hother

end Planner

end DjangoNova
