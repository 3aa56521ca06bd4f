import DjangoNova.Cache.State

/-!
# The key index of a cache state

`model_keys` and `key_models` are two readings of one relation between
names and keys, and a read guard stands only on an indexed key. Each
update keeps this, and a sequence of removals changes nothing else.
-/

namespace DjangoNova

namespace CacheState

/-- `key in model_keys[name]`. -/
def Lists (s : CacheState) (name key : Str) : Prop := key ∈ (s.modelKeys name).getD ∅

/-- `name in key_models[key]`. -/
def Names (s : CacheState) (key name : Str) : Prop := name ∈ (s.keyModels key).getD ∅

/-- The representation invariant of the two maps and the read guards. -/
structure Mirrored (s : CacheState) : Prop where
  mirror : ∀ name key, s.Lists name key ↔ s.Names key name
  nonempty : ∀ name, s.modelKeys name ≠ some ∅
  guarded : ∀ key ∈ s.invalidatedKeys, ∃ names, s.keyModels key = some names

/-- The index and the read guards of the two states are the same. -/
structure SameIndex (s s' : CacheState) : Prop where
  modelKeys : s'.modelKeys = s.modelKeys
  keyModels : s'.keyModels = s.keyModels
  invalidatedKeys : s'.invalidatedKeys = s.invalidatedKeys

variable {s s' s'' : CacheState} {key k name : Str} {names : Finset Str}

theorem SameIndex.refl (s : CacheState) : SameIndex s s := ⟨rfl, rfl, rfl⟩

theorem SameIndex.trans (h : SameIndex s s') (h' : SameIndex s' s'') : SameIndex s s'' where
  modelKeys := h'.modelKeys.trans h.modelKeys
  keyModels := h'.keyModels.trans h.keyModels
  invalidatedKeys := h'.invalidatedKeys.trans h.invalidatedKeys

theorem SameIndex.lists (h : SameIndex s s') : s'.Lists name key ↔ s.Lists name key := by
  unfold Lists
  rw [h.modelKeys]

theorem SameIndex.invalidationKeys (h : SameIndex s s') (digest : Str → Str) (db : Str) :
    s'.invalidationKeys digest names db = s.invalidationKeys digest names db := by
  unfold CacheState.invalidationKeys
  rw [h.modelKeys]

theorem SameIndex.mirrored (h : SameIndex s s') (hs : s.Mirrored) : s'.Mirrored := by
  obtain ⟨hm, hn, hg⟩ := hs
  refine ⟨fun name key ↦ ?_, fun name ↦ ?_, fun key hkey ↦ ?_⟩
  · unfold Names
    rw [h.lists, h.keyModels]
    exact hm name key
  · rw [h.modelKeys]
    exact hn name
  · rw [h.invalidatedKeys] at hkey
    rw [h.keyModels]
    exact hg key hkey

theorem mirrored_initial : initial.Mirrored where
  mirror name key := by simp [Lists, Names, initial]
  nonempty _ := Option.some_ne_none _ ∘ Eq.symm
  guarded _ hkey := absurd hkey (Finset.notMem_empty _)

/-! Registration. -/

theorem lists_register :
    (s.register key names).Lists name k ↔ s.Lists name k ∨ (k = key ∧ name ∈ names) := by
  unfold Lists register
  by_cases hname : name ∈ names
  · simp only [hname, if_true, Option.getD_some, Finset.mem_insert, and_true]
    exact or_comm
  · simp [hname]

theorem names_register :
    (s.register key names).Names k name ↔ s.Names k name ∨ (k = key ∧ name ∈ names) := by
  unfold Names register
  by_cases hk : k = key
  · subst hk
    simp
  · simp [hk]

theorem Mirrored.register (h : s.Mirrored) (key : Str) (names : Finset Str) :
    (s.register key names).Mirrored where
  mirror name k := by rw [lists_register, names_register, h.mirror]
  nonempty name := by
    unfold CacheState.register
    by_cases hname : name ∈ names
    · simp [hname]
    · simpa [hname] using h.nonempty name
  guarded k hk := by
    unfold CacheState.register
    by_cases hkey : k = key
    · simp [hkey]
    · obtain ⟨old, hold⟩ := h.guarded k hk
      exact ⟨old, by simpa [hkey] using hold⟩

/-! Removal. -/

theorem keyModels_unregister :
    (s.unregister key).keyModels k = if k = key then none else s.keyModels k := by
  simp only [unregister, Function.update_apply]

theorem lists_unregister (h : s.Mirrored) :
    (s.unregister key).Lists name k ↔ k ≠ key ∧ s.Lists name k := by
  unfold Lists unregister
  by_cases hname : name ∈ (s.keyModels key).getD ∅
  · cases hbucket : s.modelKeys name with
    | none => simp [hname, hbucket]
    | some bucket =>
        simp only [hname, if_true, hbucket, Option.getD_some, ← Finset.mem_erase]
        split
        · rename_i hempty
          simp [hempty]
        · rfl
  · -- The key is not in a bucket that its own names do not mention.
    have habsent : ¬s.Lists name key := fun hl ↦ hname ((h.mirror name key).mp hl)
    simp only [hname, if_false]
    constructor
    · intro hk
      exact ⟨fun heq ↦ habsent (heq ▸ hk), hk⟩
    · exact And.right

theorem Mirrored.unregister (h : s.Mirrored) (key : Str) : (s.unregister key).Mirrored where
  mirror name k := by
    rw [lists_unregister h, h.mirror]
    unfold Names
    rw [keyModels_unregister]
    by_cases hk : k = key <;> simp [hk]
  nonempty name := by
    unfold CacheState.unregister
    by_cases hname : name ∈ (s.keyModels key).getD ∅
    · cases hbucket : s.modelKeys name with
      | none => simp [hname, hbucket]
      | some bucket =>
          simp only [hname, if_true, hbucket]
          split
          · exact Option.some_ne_none _ ∘ Eq.symm
          · rename_i hne
            exact fun heq ↦ hne (Option.some.inj heq)
    · simpa [hname] using h.nonempty name
  guarded k hk := by
    obtain ⟨hne, hmem⟩ := Finset.mem_erase.mp hk
    rw [keyModels_unregister, if_neg hne]
    exact h.guarded k hmem

/-- The state after the acknowledged removals, in their order. -/
def unregisterAll (s : CacheState) (keys : List Str) : CacheState := keys.foldl unregister s

theorem Mirrored.unregisterAll (h : s.Mirrored) (keys : List Str) :
    (s.unregisterAll keys).Mirrored := by
  induction keys generalizing s with
  | nil => exact h
  | cons key rest ih => exact ih (h.unregister key)

theorem keyModels_unregisterAll (keys : List Str) :
    (s.unregisterAll keys).keyModels k = if k ∈ keys then none else s.keyModels k := by
  induction keys generalizing s with
  | nil => simp [CacheState.unregisterAll]
  | cons key rest ih =>
      have hrest := ih (s := s.unregister key)
      rw [keyModels_unregister] at hrest
      rw [show s.unregisterAll (key :: rest) =
        (s.unregister key).unregisterAll rest from rfl, hrest]
      by_cases hk : k ∈ rest <;> by_cases hkey : k = key <;> simp [hk, hkey]

theorem lists_unregisterAll (h : s.Mirrored) (keys : List Str) :
    (s.unregisterAll keys).Lists name k ↔ k ∉ keys ∧ s.Lists name k := by
  induction keys generalizing s with
  | nil => simp [CacheState.unregisterAll]
  | cons key rest ih =>
      have hrest := ih (h.unregister key)
      rw [lists_unregister h] at hrest
      rw [show s.unregisterAll (key :: rest) =
        (s.unregister key).unregisterAll rest from rfl, hrest,
        List.mem_cons]
      tauto

theorem mem_invalidatedKeys_unregisterAll (keys : List Str) :
    k ∈ (s.unregisterAll keys).invalidatedKeys ↔ k ∉ keys ∧ k ∈ s.invalidatedKeys := by
  induction keys generalizing s with
  | nil => simp [CacheState.unregisterAll]
  | cons key rest ih =>
      have hstep : k ∈ (s.unregister key).invalidatedKeys ↔ k ≠ key ∧ k ∈ s.invalidatedKeys :=
        Finset.mem_erase
      rw [show s.unregisterAll (key :: rest) = (s.unregister key).unregisterAll rest from rfl,
        ih (s := s.unregister key), hstep, List.mem_cons]
      tauto

theorem SameIndex.unregister (h : SameIndex s s') (key : Str) :
    SameIndex (s.unregister key) (s'.unregister key) := by
  unfold CacheState.unregister
  refine ⟨?_, ?_, ?_⟩
  · dsimp only
    rw [h.modelKeys, h.keyModels]
  · dsimp only
    rw [h.keyModels]
  · dsimp only
    rw [h.invalidatedKeys]

/-! Read guards. -/

/-- `invalidated_keys.update(keys)`. -/
def block (s : CacheState) (keys : Finset Str) : CacheState :=
  { s with invalidatedKeys := s.invalidatedKeys ∪ keys }

theorem Mirrored.block (h : s.Mirrored) {keys : Finset Str}
    (hkeys : ∀ key ∈ keys, ∃ names, s.keyModels key = some names) : (s.block keys).Mirrored where
  mirror := h.mirror
  nonempty := h.nonempty
  guarded key hkey := (Finset.mem_union.mp hkey).elim (h.guarded key) (hkeys key)

/-- A listed key has names. -/
theorem Mirrored.named (h : s.Mirrored) (hl : s.Lists name key) :
    ∃ names, s.keyModels key = some names := by
  have hn : name ∈ (s.keyModels key).getD ∅ := (h.mirror name key).mp hl
  cases hk : s.keyModels key with
  | none => simp [hk] at hn
  | some names => exact ⟨names, rfl⟩

/-! The deletion loop of an invalidation, with what its deletions returned. -/

/-- The keys whose deletion returned. -/
def removed (deletes : List (Str × Except CacheError Bool)) : List Str :=
  deletes.filterMap fun d ↦
    match d.2 with
    | .ok _ => some d.1
    | .error _ => none

/-- The number of deletions that returned a true value. -/
def hits (deletes : List (Str × Except CacheError Bool)) : ℕ :=
  deletes.countP fun d ↦
    match d.2 with
    | .ok found => found
    | .error _ => false

/-- Both maps know the key. -/
def Registered (s : CacheState) (key : Str) : Prop :=
  (∃ names, s.keyModels key = some names) ∧ ∃ name, s.Lists name key

/-- The maps say the same of the key. -/
structure SameEntry (s s' : CacheState) (key : Str) : Prop where
  names : s'.keyModels key = s.keyModels key
  lists : ∀ name, s'.Lists name key ↔ s.Lists name key

/-- The keys were each tried once; the keys whose deletion returned are gone,
those whose deletion raised stay and are guarded, and the others are as before. -/
structure Swept (keys : Finset Str) (s s' : CacheState)
    (deletes : List (Str × Except CacheError Bool)) : Prop where
  once : (deletes.map Prod.fst).Nodup
  tried : ∀ key, key ∈ deletes.map Prod.fst ↔ key ∈ keys
  gone : ∀ key found, (key, .ok found) ∈ deletes →
    s'.keyModels key = none ∧ (∀ name, ¬s'.Lists name key) ∧ key ∉ s'.invalidatedKeys
  kept : ∀ key x, (key, .error x) ∈ deletes →
    s'.Registered key ∧ SameEntry s s' key ∧ key ∈ s'.invalidatedKeys
  others : ∀ key, key ∉ keys →
    SameEntry s s' key ∧ (key ∈ s'.invalidatedKeys ↔ key ∈ s.invalidatedKeys)

theorem mem_removed {deletes : List (Str × Except CacheError Bool)} :
    key ∈ removed deletes ↔ ∃ found, (key, .ok found) ∈ deletes := by
  unfold removed
  rw [List.mem_filterMap]
  constructor
  · rintro ⟨⟨k, r⟩, hmem, hk⟩
    cases r with
    | error x => cases hk
    | ok found =>
        obtain rfl := Option.some.inj hk
        exact ⟨found, hmem⟩
  · rintro ⟨found, hmem⟩
    exact ⟨(key, .ok found), hmem, rfl⟩

theorem unregisterAll_append (keys : List Str) :
    s.unregisterAll (keys ++ [key]) = (s.unregisterAll keys).unregister key :=
  List.foldl_concat ..

theorem swept_of_removed (hs : s.Mirrored) {keys : Finset Str}
    {deletes : List (Str × Except CacheError Bool)} (hkeys : ∀ key ∈ keys, ∃ name, s.Lists name key)
    (honce : (deletes.map Prod.fst).Nodup) (htried : (deletes.map Prod.fst).toFinset = keys)
    (h : SameIndex ((s.block keys).unregisterAll (removed deletes)) s') :
    Swept keys s s' deletes := by
  have hblock : (s.block keys).Mirrored := by
    refine hs.block fun key hkey ↦ ?_
    obtain ⟨name, hname⟩ := hkeys key hkey
    exact hs.named hname
  have hmem : ∀ key, key ∈ deletes.map Prod.fst ↔ key ∈ keys := by
    intro key
    rw [← htried, List.mem_toFinset]
  have hnames : ∀ key, s'.keyModels key =
      if key ∈ removed deletes then none else s.keyModels key := by
    intro key
    rw [h.keyModels, keyModels_unregisterAll]
    rfl
  have hlists : ∀ name key, s'.Lists name key ↔ key ∉ removed deletes ∧ s.Lists name key := by
    intro name key
    rw [h.lists, lists_unregisterAll hblock]
    rfl
  have hguards : ∀ key, key ∈ s'.invalidatedKeys ↔
      key ∉ removed deletes ∧ (key ∈ s.invalidatedKeys ∨ key ∈ keys) := by
    intro key
    rw [h.invalidatedKeys, mem_invalidatedKeys_unregisterAll, block, Finset.mem_union]
  have hsame : ∀ key, key ∉ removed deletes → SameEntry s s' key :=
    fun key hkey ↦ ⟨by rw [hnames, if_neg hkey], fun name ↦ by rw [hlists, and_iff_right hkey]⟩
  refine ⟨honce, hmem, fun key found hdelete ↦ ?_, fun key x hdelete ↦ ?_, fun key hkey ↦ ?_⟩
  · have hkey : key ∈ removed deletes := mem_removed.mpr ⟨found, hdelete⟩
    refine ⟨by rw [hnames, if_pos hkey], fun name hl ↦ ?_, fun hg ↦ ?_⟩
    · exact ((hlists name key).mp hl).1 hkey
    · exact ((hguards key).mp hg).1 hkey
  · have hkey : key ∉ removed deletes := by
      intro hr
      obtain ⟨found, hfound⟩ := mem_removed.mp hr
      have heq := List.inj_on_of_nodup_map honce hdelete hfound (Eq.refl key)
      cases heq
    have hin : key ∈ keys := (hmem key).mp (List.mem_map_of_mem hdelete)
    obtain ⟨name, hname⟩ := hkeys key hin
    obtain ⟨names, hn⟩ := hs.named hname
    have hentry := hsame key hkey
    exact ⟨⟨⟨names, hentry.names.trans hn⟩, name, (hentry.lists name).mpr hname⟩, hentry,
      (hguards key).mpr ⟨hkey, .inr hin⟩⟩
  · have hrest : key ∉ removed deletes := by
      intro hr
      obtain ⟨found, hfound⟩ := mem_removed.mp hr
      exact hkey ((hmem key).mp (List.mem_map_of_mem hfound))
    refine ⟨hsame key hrest, ?_⟩
    rw [hguards, and_iff_right hrest, or_iff_left hkey]

end CacheState

open CacheState

/-- Every update other than a new read guard keeps the invariant. -/
theorem Update.mirrored {s : CacheState} (h : s.Mirrored) (u : Update)
    (hu : ∀ keys, u ≠ .block keys) : (u.apply s).Mirrored := by
  cases u with
  | register key names => exact h.register key names
  | unregister key => exact h.unregister key
  | block keys => exact absurd rfl (hu keys)
  | unblock key =>
      exact ⟨h.mirror, h.nonempty, fun k hk ↦ h.guarded k (Finset.mem_of_mem_erase hk)⟩
  | reset => exact SameIndex.mirrored (s := initial) ⟨rfl, rfl, rfl⟩ mirrored_initial
  | bumpGeneration | addPending scope | discardPending scope | failClear =>
      exact SameIndex.mirrored (s := s) ⟨rfl, rfl, rfl⟩ h

end DjangoNova
