import DjangoNova.Memory.CacheBackend

/-!
# What a memory backend serves

The values that reads find at a time, and what each operation leaves of
them and of the stored entries.
-/

namespace DjangoNova.MemoryCacheBackend

variable {V : Type} {b : MemoryCacheBackend} {key j : Str} {value v : V} {now later : ℚ}
variable {data : Data V}

/-- The value that a read finds. -/
def liveValue (now : ℚ) (data : Data V) (key : Str) : Option V :=
  ((data.lookup key).filter fun entry ↦ !isExpired entry now).map MemoryEntry.value

theorem liveValue_eq_some_iff : liveValue now data key = some v ↔
    ∃ entry, (key, entry) ∈ data.items ∧ isExpired entry now = false ∧ entry.value = v := by
  simp [liveValue, Option.filter_eq_some_iff, OrderedDict.lookup_eq_some_iff, and_assoc]

theorem liveValue_later (hle : now ≤ later) (h : liveValue later data key = some v) :
    liveValue now data key = some v := by
  obtain ⟨entry, hmem, hlive, rfl⟩ := liveValue_eq_some_iff.mp h
  refine liveValue_eq_some_iff.mpr ⟨entry, hmem, ?_, rfl⟩
  rw [isExpired_eq_false] at hlive ⊢
  exact fun t ht ↦ hle.trans_lt (hlive t ht)

theorem get_liveValue : (get key none now data).1 = liveValue now data key := by
  cases hlookup : data.lookup key with
  | none => simp [get, liveValue, hlookup]
  | some entry => cases hexpired : isExpired entry now <;> simp [get, liveValue, hlookup, hexpired]

/-- A read drops at most an expired entry. -/
theorem mem_get {entry : MemoryEntry V} : (j, entry) ∈ (get key none now data).2.items ↔
    (j, entry) ∈ data.items ∧ (j = key → isExpired entry now = false) := by
  cases hlookup : data.lookup key with
  | none =>
      have habsent := OrderedDict.lookup_eq_none_iff.mp hlookup
      simp only [get, hlookup]
      refine ⟨fun hmem ↦ ⟨hmem, ?_⟩, fun h ↦ h.1⟩
      rintro rfl
      exact absurd (OrderedDict.mem_keys.mpr ⟨entry, hmem⟩) habsent
  | some found =>
      have hfound := OrderedDict.lookup_eq_some_iff.mp hlookup
      by_cases hexpired : isExpired found now = true
      · simp only [get, hlookup, if_pos hexpired, OrderedDict.mem_erase]
        constructor
        · exact fun h ↦ ⟨h.2, fun hj ↦ absurd hj h.1⟩
        · rintro ⟨hmem, hlive⟩
          refine ⟨?_, hmem⟩
          rintro rfl
          rw [OrderedDict.value_unique hmem hfound, hexpired] at hlive
          exact Bool.noConfusion (hlive rfl)
      · simp only [get, hlookup, if_neg hexpired, OrderedDict.moveToEnd_of_mem hfound,
          List.mem_append, OrderedDict.mem_erase, List.mem_singleton, Prod.mk.injEq]
        constructor
        · rintro (⟨hne, hmem⟩ | ⟨rfl, rfl⟩)
          · exact ⟨hmem, fun hj ↦ absurd hj hne⟩
          · exact ⟨hfound, fun _ ↦ Bool.eq_false_of_not_eq_true hexpired⟩
        · rintro ⟨hmem, -⟩
          by_cases hj : j = key
          · subst hj
            exact .inr ⟨rfl, OrderedDict.value_unique hmem hfound⟩
          · exact .inl ⟨hj, hmem⟩

theorem liveValue_get : liveValue now (get key none now data).2 = liveValue now data := by
  funext j
  ext v
  simp only [liveValue_eq_some_iff, mem_get]
  constructor
  · rintro ⟨entry, ⟨hmem, -⟩, h⟩
    exact ⟨entry, hmem, h⟩
  · rintro ⟨entry, hmem, h⟩
    exact ⟨entry, ⟨hmem, fun _ ↦ h.1⟩, h⟩

theorem delete_liveValue : (delete key now data).1 = (liveValue now data key).isSome := by
  cases hlookup : data.lookup key with
  | none => simp [delete, liveValue, hlookup]
  | some entry =>
      cases hexpired : isExpired entry now <;> simp [delete, liveValue, hlookup, hexpired]

theorem mem_delete {entry : MemoryEntry V} :
    (j, entry) ∈ (delete key now data).2.items ↔ j ≠ key ∧ (j, entry) ∈ data.items := by
  cases hlookup : data.lookup key with
  | some found => simp [delete, hlookup, OrderedDict.mem_erase]
  | none =>
      have habsent := OrderedDict.lookup_eq_none_iff.mp hlookup
      simp only [delete, hlookup]
      refine ⟨fun hmem ↦ ⟨?_, hmem⟩, And.right⟩
      rintro rfl
      exact habsent (OrderedDict.mem_keys.mpr ⟨entry, hmem⟩)

theorem liveValue_delete :
    liveValue now (delete key now data).2 = Function.update (liveValue now data) key none := by
  funext j
  ext v
  rw [liveValue_eq_some_iff]
  simp only [mem_delete]
  by_cases hj : j = key
  · subst hj
    simp
  · rw [Function.update_of_ne hj, liveValue_eq_some_iff]
    simp [hj]

/-- A `set` leaves entries of other keys and its own one, with the end of
its time to live. -/
theorem mem_set {seconds : ℚ} {entry : MemoryEntry V}
    (h : (j, entry) ∈ (b.set key value (some seconds) now data).items) :
    (j = key ∧ entry = ⟨value, some (now + seconds)⟩) ∨ (j ≠ key ∧ (j, entry) ∈ data.items) := by
  unfold set at h
  simp only [ttlSeconds] at h
  split at h
  · exact .inr (OrderedDict.mem_erase.mp h)
  · rw [store, popOldest_eq] at h
    have hmem := List.mem_of_mem_drop h
    rw [OrderedDict.moveToEnd_setItem, List.mem_append, OrderedDict.mem_erase,
      List.mem_singleton, Prod.mk.injEq] at hmem
    rcases hmem with ⟨hne, hmem⟩ | hnew
    · exact .inr ⟨hne, List.mem_of_mem_filter hmem⟩
    · exact .inl hnew

theorem liveValue_set {seconds : ℚ}
    (h : liveValue now (b.set key value (some seconds) now data) j = some v) :
    Function.update (liveValue now data) key (some value) j = some v := by
  obtain ⟨entry, hmem, hlive, rfl⟩ := liveValue_eq_some_iff.mp h
  rcases mem_set hmem with ⟨rfl, rfl⟩ | ⟨hne, hmem⟩
  · simp
  · rw [Function.update_of_ne hne]
    exact liveValue_eq_some_iff.mpr ⟨entry, hmem, hlive, rfl⟩

end DjangoNova.MemoryCacheBackend
