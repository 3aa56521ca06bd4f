import Mathlib.Data.List.Sort
import DjangoNova.Collections.OrderedDict

/-!
# Chunked migrations

`chunked_migration` hands the primary keys of a table to a function, one
batch after the other, each in an atomic block. The table is queried again
for each batch, beyond the last keys of the batches before.
-/

namespace DjangoNova

inductive MigrationError (E : Type) where
  | raised (e : E)
  /-- `pks[-1]` of an empty batch -/
  | indexError

/-- A call of the wrapped function: its own state, the table and the keys. -/
structure BatchCall (K V W : Type) where
  world : W
  seen : OrderedDict K V
  pks : List K

/-- How a migration ended. -/
structure MigrationRun (K V W E : Type) where
  calls : List (BatchCall K V W)
  outcome : Except (MigrationError E) Unit
  world : W
  table : OrderedDict K V

namespace Splitter

variable {K V W E : Type} [LinearOrder K]

/-- The wrapped function on a table, with a state of its own. If it raises,
the table is as far as it came. -/
abbrev BatchFunction (K V W E : Type) : Type :=
  W → OrderedDict K V → List K → Except E Unit × W × OrderedDict K V

/-- The keys of `order_by("pk")` under the filters `pk__gt`. -/
def primaryKeys (bounds : List K) (table : OrderedDict K V) : List K :=
  (table.keys.filter fun k ↦ bounds.all (· < k)).insertionSort (· ≤ ·)

section Code

variable (func : BatchFunction K V W E) (batchSize : ℕ)

/-- `with transaction.atomic(): func(apps, schema_editor, pks=pks)` -/
def atomicCall (w : W) (table : OrderedDict K V) (pks : List K) :
    Except E Unit × W × OrderedDict K V :=
  match func w table pks with
  | (.ok (), w, table) => (.ok (), w, table)
  | (.error e, w, _) => (.error e, w, table)

/-- `chunked_wrapper`, with some number of turns of its loop. -/
def chunkedWrapper : ℕ → List K → W → OrderedDict K V → Option (MigrationRun K V W E)
  | 0, _, _, _ => none
  | fuel + 1, bounds, w, table =>
      if primaryKeys bounds table = [] then some ⟨[], .ok (), w, table⟩
      else
        let pks := (primaryKeys bounds table).take batchSize
        let call : BatchCall K V W := ⟨w, table, pks⟩
        match atomicCall func w table pks with
        | (.error e, w, table) => some ⟨[call], .error (.raised e), w, table⟩
        | (.ok (), w, table) =>
            match pks.getLast? with
            | none => some ⟨[call], .error .indexError, w, table⟩
            | some last => do
                let r ← chunkedWrapper fuel (bounds ++ [last]) w table
                some { r with calls := call :: r.calls }

end Code

/-- Rows beyond the last key of a batch may be deleted, but neither inserted
nor updated. -/
def Bounded (func : BatchFunction K V W E) : Prop :=
  ∀ w table pks w' table', func w table pks = (.ok (), w', table') →
    ∀ last ∈ pks.getLast?, ∀ k v, last < k → (k, v) ∈ table'.items → (k, v) ∈ table.items

/-- The effects of the calls, up to an outcome, a state and a table: each call
works on what the one before has committed, and one that raises is the last
and leaves the table as it was. -/
def Committed (func : BatchFunction K V W E) (outcome : Except (MigrationError E) Unit) (w' : W)
    (table' : OrderedDict K V) : List (BatchCall K V W) → W → OrderedDict K V → Prop
  | [], w, table => outcome = .ok () ∧ w' = w ∧ table' = table
  | call :: rest, w, table =>
      call.world = w ∧ call.seen = table ∧
        match func w table call.pks with
        | (.ok (), w₁, table₁) => Committed func outcome w' table' rest w₁ table₁
        | (.error e, w₁, _) => rest = [] ∧ outcome = .error (.raised e) ∧ w' = w₁ ∧ table' = table

/-- The loop reaches a key with the first batch that does not end before it. -/
def Reaches (calls : List (BatchCall K V W)) (call : BatchCall K V W) (k : K) : Prop :=
  ∃ before after, calls = before ++ call :: after ∧ (∀ c ∈ before, ∀ pk ∈ c.pks, pk < k) ∧
    ∃ pk ∈ call.pks, k ≤ pk

section Batches

variable {bounds : List K} {table table' : OrderedDict K V} {k last : K} {n : ℕ}

theorem mem_primaryKeys : k ∈ primaryKeys bounds table ↔ k ∈ table.keys ∧ ∀ b ∈ bounds, b < k := by
  simp [primaryKeys, List.mem_insertionSort]

theorem pairwise_primaryKeys (bounds : List K) (table : OrderedDict K V) :
    (primaryKeys bounds table).Pairwise (· < ·) := by
  have hle : (primaryKeys bounds table).Pairwise (· ≤ ·) := List.pairwise_insertionSort _ _
  have hne : (primaryKeys bounds table).Nodup :=
    (List.perm_insertionSort _ _).nodup_iff.mpr (table.nodup.filter _)
  exact (hle.and hne).imp fun h ↦ lt_of_le_of_ne h.1 h.2

/-- A batch has all keys up to its last one. -/
theorem mem_batch_iff (hlast : ((primaryKeys bounds table).take n).getLast? = some last) :
    k ∈ (primaryKeys bounds table).take n ↔ k ∈ primaryKeys bounds table ∧ k ≤ last := by
  have hsorted := pairwise_primaryKeys bounds table
  rw [← List.take_append_drop n (primaryKeys bounds table), List.pairwise_append] at hsorted
  obtain ⟨htake, -, hcross⟩ := hsorted
  obtain ⟨front, hfront⟩ := List.getLast?_eq_some_iff.mp hlast
  constructor
  · intro hk
    refine ⟨List.mem_of_mem_take hk, ?_⟩
    rw [hfront] at hk htake
    rcases List.mem_append.mp hk with hk | hk
    · exact ((List.pairwise_append.mp htake).2.2 k hk last List.mem_cons_self).le
    · exact (List.mem_singleton.mp hk).le
  · rintro ⟨hk, hle⟩
    rw [← List.take_append_drop n (primaryKeys bounds table)] at hk
    refine (List.mem_append.mp hk).resolve_right fun hk ↦ ?_
    exact absurd hle (not_le.mpr (hcross last (List.mem_of_getLast? hlast) k hk))

/-- Fewer rows are left beyond the last key of a batch. -/
theorem length_primaryKeys_lt (hlast : last ∈ primaryKeys bounds table)
    (hkept : ∀ k v, last < k → (k, v) ∈ table'.items → (k, v) ∈ table.items) :
    (primaryKeys (bounds ++ [last]) table').length < (primaryKeys bounds table).length := by
  have hnodup := (pairwise_primaryKeys (bounds ++ [last]) table').imp fun h ↦ h.ne
  have hsubset : primaryKeys (bounds ++ [last]) table' ⊆ (primaryKeys bounds table).erase last := by
    intro k hk
    obtain ⟨hkey, hbounds⟩ := mem_primaryKeys.mp hk
    have hlt : last < k := hbounds last (List.mem_append_right _ List.mem_cons_self)
    obtain ⟨v, hv⟩ := OrderedDict.mem_keys.mp hkey
    refine (List.mem_erase_of_ne hlt.ne').mpr (mem_primaryKeys.mpr ⟨?_, fun b hb ↦ ?_⟩)
    · exact OrderedDict.mem_keys.mpr ⟨v, hkept k v hlt hv⟩
    · exact hbounds b (List.mem_append_left _ hb)
  have hle := (List.subperm_of_subset hnodup hsubset).length_le
  have hpos := List.length_pos_of_mem hlast
  rw [List.length_erase_of_mem hlast] at hle
  omega

end Batches

/-- What a run of the loop under some filters has done. -/
structure Processed (func : BatchFunction K V W E) (batchSize : ℕ) (bounds : List K) (w : W)
    (table : OrderedDict K V) (r : MigrationRun K V W E) : Prop where
  batches : ∀ c ∈ r.calls, c.pks ≠ [] ∧ c.pks.length ≤ batchSize
  beyond : ∀ c ∈ r.calls, ∀ pk ∈ c.pks, ∀ b ∈ bounds, b < pk
  increasing : (r.calls.flatMap BatchCall.pks).Pairwise (· < ·)
  passed : ∀ c ∈ r.calls, ∀ k ∈ c.pks, ∃ v, (k, v) ∈ c.seen.items ∧ (k, v) ∈ table.items
  reached : ∀ c k, Reaches r.calls c k → (∀ b ∈ bounds, b < k) → k ∈ c.seen.keys → k ∈ c.pks
  finished : ∀ k, (∀ c ∈ r.calls, ∀ pk ∈ c.pks, pk < k) → (∀ b ∈ bounds, b < k) →
    r.outcome = .ok () → k ∉ r.table.keys
  committed : Committed func r.outcome r.world r.table r.calls w table

section Loop

variable {func : BatchFunction K V W E} {batchSize : ℕ} {bounds pks : List K} {w w' : W}
  {table table' : OrderedDict K V} {last : K} {r : MigrationRun K V W E}

theorem Processed.done (w : W) (hempty : primaryKeys bounds table = []) :
    Processed func batchSize bounds w table ⟨[], .ok (), w, table⟩ := by
  refine ⟨by simp, by simp, by simp, by simp, ?_, ?_, ⟨rfl, rfl, rfl⟩⟩
  · rintro c k ⟨before, after, hcalls, -⟩
    exact absurd hcalls (by simp)
  · intro k _ hbounds _ hk
    have hmem : k ∈ primaryKeys bounds table := mem_primaryKeys.mpr ⟨hk, hbounds⟩
    rw [hempty] at hmem
    exact absurd hmem List.not_mem_nil

/-- The first batch of a run, with the calls that follow it. -/
theorem Processed.batch {calls : List (BatchCall K V W)}
    {outcome : Except (MigrationError E) Unit}
    (hpks : (primaryKeys bounds table).take batchSize = pks) (hlast : pks.getLast? = some last)
    (hbeyond : ∀ c ∈ calls, ∀ pk ∈ c.pks, last < pk ∧ ∀ b ∈ bounds, b < pk)
    (hbatches : ∀ c ∈ calls, c.pks ≠ [] ∧ c.pks.length ≤ batchSize)
    (hincreasing : (calls.flatMap BatchCall.pks).Pairwise (· < ·))
    (hpassed : ∀ c ∈ calls, ∀ k ∈ c.pks, ∃ v, (k, v) ∈ c.seen.items ∧ (k, v) ∈ table.items)
    (hreached : ∀ c k, Reaches calls c k → last < k → (∀ b ∈ bounds, b < k) → k ∈ c.seen.keys →
      k ∈ c.pks)
    (hfinished : ∀ k, (∀ c ∈ calls, ∀ pk ∈ c.pks, pk < k) → last < k → (∀ b ∈ bounds, b < k) →
      outcome = .ok () → k ∉ table'.keys)
    (hcommitted : Committed func outcome w' table' (⟨w, table, pks⟩ :: calls) w table) :
    Processed func batchSize bounds w table ⟨⟨w, table, pks⟩ :: calls, outcome, w', table'⟩ := by
  subst hpks
  have hmem : ∀ k, k ∈ (primaryKeys bounds table).take batchSize ↔
      k ∈ primaryKeys bounds table ∧ k ≤ last := fun k ↦ mem_batch_iff hlast
  have hlastMem : last ∈ (primaryKeys bounds table).take batchSize := List.mem_of_getLast? hlast
  refine ⟨?_, ?_, ?_, ?_, ?_, ?_, hcommitted⟩
  · intro c hc
    rcases List.mem_cons.mp hc with rfl | hc
    · exact ⟨List.ne_nil_of_mem hlastMem, List.length_take_le _ _⟩
    · exact hbatches c hc
  · intro c hc pk hpk
    rcases List.mem_cons.mp hc with rfl | hc
    · exact (mem_primaryKeys.mp ((hmem pk).mp hpk).1).2
    · exact (hbeyond c hc pk hpk).2
  · rw [List.flatMap_cons, List.pairwise_append]
    refine ⟨(pairwise_primaryKeys bounds table).sublist (List.take_sublist _ _), hincreasing, ?_⟩
    intro k hk pk hpk
    obtain ⟨c, hc, hpk⟩ := List.mem_flatMap.mp hpk
    exact ((hmem k).mp hk).2.trans_lt (hbeyond c hc pk hpk).1
  · intro c hc k hk
    rcases List.mem_cons.mp hc with rfl | hc
    · obtain ⟨v, hv⟩ := OrderedDict.mem_keys.mp (mem_primaryKeys.mp ((hmem k).mp hk).1).1
      exact ⟨v, hv, hv⟩
    · exact hpassed c hc k hk
  · rintro c k ⟨before, after, hcalls, hbefore, pk, hpk, hle⟩ hbounds hseen
    cases before with
    | nil =>
        obtain ⟨rfl, rfl⟩ := List.cons.inj hcalls
        have hkey : k ∈ primaryKeys bounds table := mem_primaryKeys.mpr ⟨hseen, hbounds⟩
        exact (hmem k).mpr ⟨hkey, hle.trans ((hmem pk).mp hpk).2⟩
    | cons first before =>
        obtain ⟨rfl, rfl⟩ := List.cons.inj hcalls
        have hlt : last < k := hbefore _ List.mem_cons_self last hlastMem
        exact hreached c k ⟨before, after, rfl,
          fun c' hc' ↦ hbefore c' (List.mem_cons_of_mem _ hc'), pk, hpk, hle⟩ hlt hbounds hseen
  · intro k hcalls hbounds
    exact hfinished k (fun c hc ↦ hcalls c (List.mem_cons_of_mem _ hc))
      (hcalls _ List.mem_cons_self last hlastMem) hbounds

/-- A batch that raises is the last one. -/
theorem Processed.raise {e : E} (hpks : (primaryKeys bounds table).take batchSize = pks)
    (hlast : pks.getLast? = some last) (hcall : func w table pks = (.error e, w', table')) :
    Processed func batchSize bounds w table ⟨[⟨w, table, pks⟩], .error (.raised e), w', table⟩ := by
  refine .batch hpks hlast (by simp) (by simp) (by simp) (by simp) ?_ ?_ ?_
  · rintro c k ⟨before, after, hcalls, -⟩
    exact absurd hcalls (by simp)
  · intro k _ _ _ hok
    cases hok
  · simp [Committed, hcall]

/-- A batch that returns is followed by a run beyond its last key. -/
theorem Processed.next (hfunc : Bounded func)
    (hpks : (primaryKeys bounds table).take batchSize = pks) (hlast : pks.getLast? = some last)
    (hcall : func w table pks = (.ok (), w', table'))
    (h : Processed func batchSize (bounds ++ [last]) w' table' r) :
    Processed func batchSize bounds w table { r with calls := ⟨w, table, pks⟩ :: r.calls } := by
  have hbounds : ∀ {k}, last < k → (∀ b ∈ bounds, b < k) → ∀ b ∈ bounds ++ [last], b < k := by
    intro k hlt hb b hmem
    rcases List.mem_append.mp hmem with hmem | hmem
    · exact hb b hmem
    · rwa [List.mem_singleton.mp hmem]
  have hbeyond : ∀ c ∈ r.calls, ∀ pk ∈ c.pks, last < pk ∧ ∀ b ∈ bounds, b < pk := fun c hc pk hpk ↦
    ⟨h.beyond c hc pk hpk last (List.mem_append_right _ List.mem_cons_self),
      fun b hb ↦ h.beyond c hc pk hpk b (List.mem_append_left _ hb)⟩
  refine .batch hpks hlast hbeyond h.batches h.increasing ?_ ?_ ?_ ?_
  · intro c hc k hk
    obtain ⟨v, hseen, hv⟩ := h.passed c hc k hk
    exact ⟨v, hseen, hfunc w table pks w' table' hcall last hlast k v (hbeyond c hc k hk).1 hv⟩
  · exact fun c k hreaches hlt hb ↦ h.reached c k hreaches (hbounds hlt hb)
  · exact fun k hcalls hlt hb ↦ h.finished k hcalls (hbounds hlt hb)
  · refine ⟨rfl, rfl, ?_⟩
    simp only [hcall]
    exact h.committed

/-- With more turns than rows left, the loop ends, and has processed them. -/
theorem chunkedWrapper_processed (hbatch : 0 < batchSize) (hfunc : Bounded func) (fuel : ℕ)
    (hfuel : (primaryKeys bounds table).length < fuel) :
    ∃ r, chunkedWrapper func batchSize fuel bounds w table = some r ∧
      Processed func batchSize bounds w table r := by
  induction fuel generalizing bounds w table with
  | zero => omega
  | succ fuel ih =>
      unfold chunkedWrapper
      by_cases hempty : primaryKeys bounds table = []
      · exact ⟨_, if_pos hempty, .done w hempty⟩
      rw [if_neg hempty]
      obtain ⟨last, hlast⟩ : ∃ last,
          ((primaryKeys bounds table).take batchSize).getLast? = some last := by
        refine Option.ne_none_iff_exists'.mp fun hnone ↦ ?_
        rcases List.take_eq_nil_iff.mp (List.getLast?_eq_none_iff.mp hnone) with hzero | hnil
        · omega
        · exact hempty hnil
      have hatomic := atomicCall.eq_def func w table ((primaryKeys bounds table).take batchSize)
      rcases hcall : func w table ((primaryKeys bounds table).take batchSize)
        with ⟨outcome, w', table'⟩
      rw [hcall] at hatomic
      cases outcome with
      | error e =>
          simp only [hatomic]
          exact ⟨_, rfl, .raise rfl hlast hcall⟩
      | ok u =>
          have hlastMem : last ∈ primaryKeys bounds table :=
            List.mem_of_mem_take (List.mem_of_getLast? hlast)
          have hlt : (primaryKeys (bounds ++ [last]) table').length <
            (primaryKeys bounds table).length :=
            length_primaryKeys_lt hlastMem (hfunc _ _ _ _ _ hcall last hlast)
          have hrest : ∃ r,
              chunkedWrapper func batchSize fuel (bounds ++ [last]) w' table' = some r ∧
                Processed func batchSize (bounds ++ [last]) w' table' r := ih (by omega)
          obtain ⟨r, hr, hprocessed⟩ := hrest
          simp only [hatomic, hlast, hr, Option.bind_eq_bind, Option.bind_some]
          exact ⟨_, rfl, hprocessed.next hfunc rfl hlast hcall⟩

end Loop

/-- A migration that does not touch rows ahead of it ends, in nonempty
batches of increasing keys. It passes rows of the initial table only, each
that is present when the loop reaches its key exactly once; a batch that
raises is the last one and has no effect on the table. -/
theorem chunked_migration (func : BatchFunction K V W E) (batchSize : ℕ) (w : W)
    (table : OrderedDict K V) (fuel : ℕ) (hbatch : 0 < batchSize) (hfunc : Bounded func)
    (hfuel : table.length < fuel) :
    ∃ r, chunkedWrapper func batchSize fuel [] w table = some r ∧
      (∀ c ∈ r.calls, c.pks ≠ [] ∧ c.pks.length ≤ batchSize) ∧
      (r.calls.flatMap BatchCall.pks).Pairwise (· < ·) ∧
      (∀ c ∈ r.calls, ∀ k ∈ c.pks, ∃ v, (k, v) ∈ c.seen.items ∧ (k, v) ∈ table.items) ∧
      (∀ c k, Reaches r.calls c k → k ∈ c.seen.keys →
        (r.calls.flatMap BatchCall.pks).count k = 1) ∧
      (∀ k, (∀ c ∈ r.calls, ∀ pk ∈ c.pks, pk < k) → r.outcome = .ok () → k ∉ r.table.keys) ∧
      Committed func r.outcome r.world r.table r.calls w table := by
  have hlength : (primaryKeys [] table).length ≤ table.length := by
    simp [primaryKeys, List.length_insertionSort, OrderedDict.length_keys]
  have hprocessed : ∃ r, chunkedWrapper func batchSize fuel [] w table = some r ∧
      Processed func batchSize [] w table r :=
    chunkedWrapper_processed hbatch hfunc fuel (by omega)
  obtain ⟨r, hr, h⟩ := hprocessed
  refine ⟨r, hr, h.batches, h.increasing, h.passed, fun c k hreaches hseen ↦ ?_,
    fun k hcalls hok ↦ h.finished k hcalls (by simp) hok, h.committed⟩
  have hc : c ∈ r.calls := by
    obtain ⟨before, after, hcalls, -⟩ := hreaches
    rw [hcalls]
    exact List.mem_append_right _ List.mem_cons_self
  have hk : k ∈ c.pks := h.reached c k hreaches (by simp) hseen
  exact List.count_eq_one_of_mem (h.increasing.imp fun hlt ↦ hlt.ne)
    (List.mem_flatMap.mpr ⟨c, hc, hk⟩)

/-- Three rows in batches of two; the function deletes the rows of a batch. -/
def deleteBatch : BatchFunction ℕ Unit Unit Empty := fun w table pks ↦
  (.ok (), w, table.filter fun x ↦ x.1 ∉ pks)

def threeRows : OrderedDict ℕ Unit := ⟨[(2, ()), (7, ()), (5, ())], by decide⟩

theorem chunked_migration_sample :
    ∃ r, chunkedWrapper deleteBatch 2 4 [] () threeRows = some r ∧
      r.calls.map BatchCall.pks = [[2, 5], [7]] ∧ r.outcome = .ok () ∧ r.table.items = [] := by
  have hfunc : Bounded deleteBatch := by
    intro w table pks w' table' hcall last hlast k v hlt hmem
    obtain ⟨-, h⟩ := Prod.mk.inj hcall
    obtain ⟨-, rfl⟩ := Prod.mk.inj h
    exact List.mem_of_mem_filter hmem
  obtain ⟨r, hr, -⟩ := chunked_migration deleteBatch 2 () threeRows 4 (by decide) hfunc (by decide)
  refine ⟨r, hr, ?_⟩
  obtain rfl := Option.some.inj (hr.symm.trans rfl)
  exact ⟨by decide, rfl, by decide⟩

end Splitter

end DjangoNova
