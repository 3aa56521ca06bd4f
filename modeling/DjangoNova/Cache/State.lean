import Mathlib.Data.Finset.Union
import DjangoNova.Cache.Generation

/-!
# The state of a QuerySet cache

`CacheState` is `_QuerySetCacheState` without the backend and the lock.
Its dictionaries are partial functions. Each statement of the source that
mutates the state is one `Update`, so a run records what it changed.
-/

namespace DjangoNova

structure CacheState where
  modelKeys : Str → Option (Finset Str)
  keyModels : Str → Option (Finset Str)
  generation : ℕ
  invalidatedKeys : Finset Str
  clearFailed : Bool
  pendingGenerations : Finset Scope

namespace CacheState

def initial : CacheState where
  modelKeys := fun _ ↦ none
  keyModels := fun _ ↦ none
  generation := 0
  invalidatedKeys := ∅
  clearFailed := false
  pendingGenerations := ∅

/-- The body of `_register_key`. -/
def register (s : CacheState) (key : Str) (names : Finset Str) : CacheState :=
  { s with
    modelKeys := fun n ↦
      if n ∈ names then some (insert key ((s.modelKeys n).getD ∅)) else s.modelKeys n
    keyModels := Function.update s.keyModels key (some ((s.keyModels key).getD ∅ ∪ names)) }

/-- The body of `_unregister_key`; a bucket that becomes empty is deleted. -/
def unregister (s : CacheState) (key : Str) : CacheState :=
  { s with
    modelKeys := fun n ↦
      if n ∈ (s.keyModels key).getD ∅ then
        match s.modelKeys n with
        | some bucket => if (bucket.erase key) = ∅ then none else some (bucket.erase key)
        | none => none
      else s.modelKeys n
    keyModels := Function.update s.keyModels key none
    invalidatedKeys := s.invalidatedKeys.erase key }

end CacheState

inductive Update where
  /-- `state.generation += 1` -/
  | bumpGeneration
  | register (key : Str) (names : Finset Str)
  | unregister (key : Str)
  /-- `state.invalidated_keys.update(keys)` -/
  | block (keys : Finset Str)
  /-- `state.invalidated_keys.discard(key)` -/
  | unblock (key : Str)
  | addPending (scope : Scope)
  | discardPending (scope : Scope)
  /-- `state.clear_failed = True` -/
  | failClear
  /-- The assignments after a successful `backend.clear()`. -/
  | reset

def Update.apply : Update → CacheState → CacheState
  | .bumpGeneration, s => { s with generation := s.generation + 1 }
  | .register key names, s => s.register key names
  | .unregister key, s => s.unregister key
  | .block keys, s => { s with invalidatedKeys := s.invalidatedKeys ∪ keys }
  | .unblock key, s => { s with invalidatedKeys := s.invalidatedKeys.erase key }
  | .addPending scope, s => { s with pendingGenerations := insert scope s.pendingGenerations }
  | .discardPending scope, s => { s with pendingGenerations := s.pendingGenerations.erase scope }
  | .failClear, s => { s with clearFailed := true }
  | .reset, s => { CacheState.initial with generation := s.generation }

/-- What identifies a model to the cache: `_meta.app_label` and `_meta.model_name`. -/
structure ModelLabel where
  appLabel : Str
  modelName : Str
  deriving DecidableEq

section Names

variable (lower : Str → Str)

/-- `_short_model_name`; `lower` is `str.lower`. -/
def shortModelName (modelName : Str) : Str :=
  Str.afterLast '.' (lower (Str.strip modelName))

/-- `_normalize_model_names`. -/
def normalizeModelNames (modelName : Str) : Finset Str :=
  let normalized := lower (Str.strip modelName)
  if normalized = [] then ∅
  else if '.' ∈ normalized then
    let shortName := Str.afterLast '.' normalized
    if shortName = [] then {normalized} else {normalized, shortName}
  else {normalized}

/-- The short name of `_model_identifiers`. -/
def ModelLabel.shortName (m : ModelLabel) : Str := lower m.modelName

/-- The full name of `_model_identifiers`. -/
def ModelLabel.fullName (m : ModelLabel) : Str :=
  if m.appLabel = [] then m.shortName lower else m.appLabel ++ '.' :: m.shortName lower

/-- The names of `_model_identifiers`, used for invalidation indexing. -/
def ModelLabel.names (m : ModelLabel) : Finset Str := {m.shortName lower, m.fullName lower}

end Names

def keyVersion : Str := "nova:qs:v4:".toList

/-- `_database_prefix`; `digest` is the hexadecimal SHA-256 of the alias. -/
def databaseTag (digest : Str → Str) (db : Str) : Str :=
  keyVersion ++ digest db ++ [':']

/-- The keys that `invalidate_model` selects from the index. -/
def CacheState.invalidationKeys (s : CacheState) (digest : Str → Str) (names : Finset Str)
    (db : Str) : Finset Str :=
  names.biUnion fun name ↦
    ((s.modelKeys name).getD ∅).filter fun key ↦ db = ['*'] ∨ databaseTag digest db <+: key

theorem CacheState.mem_invalidationKeys {s : CacheState} {digest : Str → Str}
    {names : Finset Str} {db key : Str} :
    key ∈ s.invalidationKeys digest names db ↔
      (∃ name ∈ names, key ∈ (s.modelKeys name).getD ∅) ∧
        (db = ['*'] ∨ databaseTag digest db <+: key) := by
  simp only [invalidationKeys, Finset.mem_biUnion, Finset.mem_filter, ← and_assoc,
    exists_and_right]

end DjangoNova
