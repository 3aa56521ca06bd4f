import Mathlib.Data.List.Dedup
import Mathlib.Data.List.Sort
import DjangoNova.Text.Str

/-!
# Shared generation metadata

The values of `nova.cache.generation`: scopes, stored tokens and their
validation. A scope stands for the JSON text of its two components, which
determine that text and are determined by it.
-/

namespace DjangoNova

/-- The exceptions that the cache tells apart; `raised` is any other
ordinary exception, tagged by its origin. -/
inductive CacheError where
  | uncacheableQuery
  | generationUnavailable
  | typeError
  | raised (origin : ℕ)
  deriving DecidableEq

structure Scope where
  model : Str
  database : Str
  deriving DecidableEq

def generationScope (model database : Str) : Scope := ⟨model, database⟩

namespace Scope

def le (a b : Scope) : Bool :=
  if a.model = b.model then Str.le a.database b.database else Str.le a.model b.model

/-- `tuple(sorted(scopes))` for a set given by its elements. -/
def sorted (scopes : List Scope) : List Scope :=
  scopes.eraseDups.insertionSort fun a b ↦ le a b

@[simp] theorem mem_sorted {scopes : List Scope} {scope : Scope} :
    scope ∈ sorted scopes ↔ scope ∈ scopes := by
  simp [sorted]

end Scope

/-- What a server can return for a metadata key. -/
inductive Raw where
  | bytes (b : List UInt8)
  | str (s : Str)
  | object
  deriving DecidableEq

def hexDigits : Str := "0123456789abcdef".toList

/-- The form of a token: 32 lowercase hexadecimal digits. -/
def IsGeneration (s : Str) : Prop := s.length = 32 ∧ ∀ c ∈ s, c ∈ hexDigits

instance (s : Str) : Decidable (IsGeneration s) := by
  unfold IsGeneration
  infer_instance

def decodeAscii (b : List UInt8) : Option Str :=
  if b.all (· < 128) then some (b.map fun x ↦ Char.ofNat x.toNat) else none

def encodeAscii (s : Str) : List UInt8 := s.map fun c ↦ UInt8.ofNat c.toNat

def validateGeneration (raw : Raw) : Except CacheError Str :=
  let text := match raw with
    | .bytes b => decodeAscii b
    | .str s => some s
    | .object => none
  match text with
  | some s => if IsGeneration s then .ok s else .error .generationUnavailable
  | none => .error .generationUnavailable

theorem hexDigits_decode : ∀ c ∈ hexDigits,
    UInt8.ofNat c.toNat < 128 ∧ Char.ofNat (UInt8.ofNat c.toNat).toNat = c := by decide

theorem decodeAscii_encodeAscii {s : Str} (h : ∀ c ∈ s, c ∈ hexDigits) :
    decodeAscii (encodeAscii s) = some s := by
  have hall : (encodeAscii s).all (· < 128) = true := by
    simp only [encodeAscii, List.all_map, List.all_eq_true]
    intro c hc
    simpa using (hexDigits_decode c (h c hc)).1
  rw [decodeAscii, if_pos hall, encodeAscii, List.map_map]
  have hid : ∀ c ∈ s, ((fun x : UInt8 ↦ Char.ofNat x.toNat) ∘
      fun c : Char ↦ UInt8.ofNat c.toNat) c = id c := fun c hc ↦ (hexDigits_decode c (h c hc)).2
  rw [List.map_congr_left hid, List.map_id]

/-- A token reads back as itself after it was written as ASCII bytes. -/
theorem validateGeneration_encode {s : Str} (h : IsGeneration s) :
    validateGeneration (.bytes (encodeAscii s)) = .ok s := by
  simp [validateGeneration, decodeAscii_encodeAscii h.2, h]

end DjangoNova
