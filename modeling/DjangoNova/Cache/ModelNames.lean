import Mathlib.Data.List.TakeWhile
import DjangoNova.Cache.KeyDigest

/-!
# Spellings of model names

`invalidate_model` takes any spelling of a model name. Through the names of
the key index and through the generation scope it selects the same models.
-/

namespace DjangoNova

variable {c : Char} {s : Str}

theorem Str.not_mem_afterLast : c ∉ Str.afterLast c s := by
  intro h
  have hne := List.mem_takeWhile_imp (List.mem_reverse.mp h)
  simp at hne

theorem Str.afterLast_eq_self (h : c ∉ s) : Str.afterLast c s = s := by
  have htake : s.reverse.takeWhile (· != c) = s.reverse := by
    refine List.takeWhile_eq_self_iff.mpr fun x hx ↦ ?_
    rw [bne_iff_ne]
    rintro rfl
    exact h (List.mem_reverse.mp hx)
  rw [Str.afterLast, htake, List.reverse_reverse]

variable {lower : Str → Str} {m : ModelLabel} {modelName : Str}

/-- A model name as `_meta` has it: an identifier. -/
def ModelLabel.Plain (lower : Str → Str) (m : ModelLabel) : Prop :=
  m.shortName lower ≠ [] ∧ '.' ∉ m.shortName lower

theorem ModelLabel.Plain.afterLast_name (hm : m.Plain lower) {name : Str}
    (h : name ∈ m.names lower) : Str.afterLast '.' name = m.shortName lower := by
  rcases Finset.mem_insert.mp h with rfl | h
  · exact Str.afterLast_eq_self hm.2
  · rw [Finset.mem_singleton.mp h, ModelLabel.fullName]
    split
    · exact Str.afterLast_eq_self hm.2
    · exact Str.afterLast_append hm.2

theorem shortModelName_blank (h : normalizeModelNames lower modelName = ∅) :
    shortModelName lower modelName = [] := by
  have hblank : lower (Str.strip modelName) = [] := by
    by_contra hne
    simp only [normalizeModelNames, hne, if_false] at h
    split at h
    · split at h <;> simp at h
    · simp at h
  rw [shortModelName, hblank]
  rfl

/-- All spellings agree on the part after the last dot. -/
theorem names_meet_iff (hm : m.Plain lower) :
    (∃ name ∈ normalizeModelNames lower modelName, name ∈ m.names lower) ↔
      m.shortName lower = shortModelName lower modelName := by
  generalize hn : lower (Str.strip modelName) = n
  have hshort : shortModelName lower modelName = Str.afterLast '.' n := by
    rw [shortModelName, hn]
  rw [hshort, normalizeModelNames]
  simp only [hn]
  constructor
  · rintro ⟨name, hname, hmem⟩
    rw [← hm.afterLast_name hmem]
    split at hname
    · simp at hname
    split at hname
    · have hcases : name = n ∨ name = Str.afterLast '.' n := by
        split at hname
        · exact .inl (Finset.mem_singleton.mp hname)
        · simpa using hname
      rcases hcases with rfl | rfl
      · rfl
      · exact Str.afterLast_eq_self Str.not_mem_afterLast
    · rw [Finset.mem_singleton.mp hname]
  · intro h
    refine ⟨m.shortName lower, ?_, Finset.mem_insert_self _ _⟩
    have hne : n ≠ [] := by
      rintro rfl
      exact hm.1 h
    rw [if_neg hne]
    split
    · rw [← h, if_neg hm.1]
      simp
    · rename_i hdot
      rw [Str.afterLast_eq_self hdot] at h
      exact Finset.mem_singleton.mpr h

variable {Sql : Type} {d : Deployment Sql}

/-- The database part of a key is the alias of its query. -/
theorem databaseTag_prefix_iff (hd : d.KeyFaithful) (hdb : Function.Injective d.databaseDigest)
    {db db' : Str} {parts : KeyParts Sql} :
    databaseTag d.databaseDigest db <+: QuerySetCache.makeKey d db' parts ↔ db = db' := by
  constructor
  · rintro ⟨rest, hrest⟩
    simp only [QuerySetCache.makeKey, databaseTag, List.append_assoc, List.cons_append,
      List.nil_append] at hrest
    exact hdb (Str.append_separator_inj (hd.database db) (hd.database db')
      (List.append_cancel_left hrest)).1
  · rintro rfl
    exact List.prefix_append _ _

end DjangoNova
