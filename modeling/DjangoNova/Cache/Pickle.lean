import Mathlib.Algebra.Group.Int.Defs
import Mathlib.Algebra.Group.Nat.Defs
import Mathlib.Data.Nat.Size
import DjangoNova.Collections.SharedTree
import DjangoNova.Text.Str

/-!
# The pickle protocol

The opcodes of protocol 5 that strings, bytes, integers, tuples and plain
reductions need, as bytes and in frames. A frame ends at the first opcode
boundary past 64 KiB, and large data stands outside of frames. The bytes
can be taken apart again, so that they determine the opcodes.
-/

namespace DjangoNova

inductive Opcode where
  | none
  | int (n : ℤ)
  | unicode (utf8 : List UInt8)
  | bytes (data : List UInt8)
  | emptyTuple
  | mark
  | tuple
  | tuple1
  | tuple2
  | tuple3
  | stackGlobal
  | reduce
  | memoize
  | get (index : ℕ)
  | frame (length : List UInt8)
  | stop
  deriving DecidableEq

namespace Pickle

/-- A little-endian number of some bytes. -/
def littleEndian : ℕ → ℕ → List UInt8
  | 0, _ => []
  | k + 1, n => UInt8.ofNat n :: littleEndian k (n / 256)

def ofLittleEndian : List UInt8 → ℕ
  | [] => 0
  | b :: rest => b.toNat + 256 * ofLittleEndian rest

theorem length_littleEndian (k n : ℕ) : (littleEndian k n).length = k := by
  induction k generalizing n with
  | zero => rfl
  | succ k ih => simp [littleEndian, ih]

theorem ofLittleEndian_littleEndian (k n : ℕ) :
    ofLittleEndian (littleEndian k n) = n % 256 ^ k := by
  induction k generalizing n with
  | zero => simp [littleEndian, ofLittleEndian, Nat.mod_one]
  | succ k ih =>
      have hbyte : (UInt8.ofNat n).toNat = n % 256 := by simp
      simp only [littleEndian, ofLittleEndian, ih, hbyte]
      rw [Nat.pow_succ', Nat.mod_mul]

/-- The bytes of the two's complement of an integer. -/
def longSize : ℤ → ℕ
  | .ofNat n => n.size / 8 + 1
  | .negSucc n => n.size / 8 + 1

def twosComplement (k : ℕ) (n : ℤ) : List UInt8 := littleEndian k (n % (256 ^ k : ℕ)).toNat

/-- `save_long` -/
def encodeInt (n : ℤ) : List UInt8 :=
  if -2 ^ 31 ≤ n ∧ n < 2 ^ 31 then
    if 0 ≤ n ∧ n < 2 ^ 8 then 0x4b :: littleEndian 1 n.toNat
    else if 0 ≤ n ∧ n < 2 ^ 16 then 0x4d :: littleEndian 2 n.toNat
    else 0x4a :: twosComplement 4 n
  else if longSize n < 256 then
    0x8a :: (littleEndian 1 (longSize n) ++ twosComplement (longSize n) n)
  else 0x8b :: (littleEndian 4 (longSize n) ++ twosComplement (longSize n) n)

/-- Data with its length in one, four or eight bytes. -/
def encodeSized (short medium long : UInt8) (data : List UInt8) : List UInt8 :=
  if data.length ≤ 0xff then short :: (littleEndian 1 data.length ++ data)
  else if data.length ≤ 0xffffffff then medium :: (littleEndian 4 data.length ++ data)
  else long :: (littleEndian 8 data.length ++ data)

def encode : Opcode → List UInt8
  | .none => [0x4e]
  | .int n => encodeInt n
  | .unicode utf8 => encodeSized 0x8c 0x58 0x8d utf8
  | .bytes data => encodeSized 0x43 0x42 0x8e data
  | .emptyTuple => [0x29]
  | .mark => [0x28]
  | .tuple => [0x74]
  | .tuple1 => [0x85]
  | .tuple2 => [0x86]
  | .tuple3 => [0x87]
  | .stackGlobal => [0x93]
  | .reduce => [0x52]
  | .memoize => [0x94]
  | .get index => if index < 256 then 0x68 :: littleEndian 1 index else 0x6a :: littleEndian 4 index
  | .frame length => 0x95 :: length
  | .stop => [0x2e]

/-- What an opcode can hold: the pickler refuses longer integers and higher
numbers, and no larger data exists. -/
def fits : Opcode → Bool
  | .int n => longSize n ≤ 0x7fffffff
  | .unicode data | .bytes data => data.length < 2 ^ 63
  | .get index => index ≤ 0xffffffff
  | .frame length => length.length = 8
  | _ => true

/-- Some bytes, and what follows them. -/
def split (k : ℕ) (s : List UInt8) : List UInt8 × List UInt8 := (s.take k, s.drop k)

def parseSized (op : List UInt8 → Opcode) (k : ℕ) (s : List UInt8) : Opcode × List UInt8 :=
  let (size, s) := split k s
  let (data, s) := split (ofLittleEndian size) s
  (op data, s)

def ofTwosComplement (data : List UInt8) : ℤ :=
  Int.bmod (ofLittleEndian data) (256 ^ data.length)

/-- The first opcode of a pickle, and what follows it. -/
def parse : List UInt8 → Option (Opcode × List UInt8)
  | [] => none
  | code :: s =>
      if code = 0x4e then some (.none, s)
      else if code = 0x4b then some (.int (ofLittleEndian (split 1 s).1), (split 1 s).2)
      else if code = 0x4d then some (.int (ofLittleEndian (split 2 s).1), (split 2 s).2)
      else if code = 0x4a then some (.int (ofTwosComplement (split 4 s).1), (split 4 s).2)
      else if code = 0x8a then some (parseSized (fun data ↦ .int (ofTwosComplement data)) 1 s)
      else if code = 0x8b then some (parseSized (fun data ↦ .int (ofTwosComplement data)) 4 s)
      else if code = 0x8c then some (parseSized .unicode 1 s)
      else if code = 0x58 then some (parseSized .unicode 4 s)
      else if code = 0x8d then some (parseSized .unicode 8 s)
      else if code = 0x43 then some (parseSized .bytes 1 s)
      else if code = 0x42 then some (parseSized .bytes 4 s)
      else if code = 0x8e then some (parseSized .bytes 8 s)
      else if code = 0x29 then some (.emptyTuple, s)
      else if code = 0x28 then some (.mark, s)
      else if code = 0x74 then some (.tuple, s)
      else if code = 0x85 then some (.tuple1, s)
      else if code = 0x86 then some (.tuple2, s)
      else if code = 0x87 then some (.tuple3, s)
      else if code = 0x93 then some (.stackGlobal, s)
      else if code = 0x52 then some (.reduce, s)
      else if code = 0x94 then some (.memoize, s)
      else if code = 0x68 then some (.get (ofLittleEndian (split 1 s).1), (split 1 s).2)
      else if code = 0x6a then some (.get (ofLittleEndian (split 4 s).1), (split 4 s).2)
      else if code = 0x95 then some (.frame (split 8 s).1, (split 8 s).2)
      else if code = 0x2e then some (.stop, s)
      else none

theorem split_append {data : List UInt8} {k : ℕ} (h : data.length = k) (r : List UInt8) :
    split k (data ++ r) = (data, r) := by
  subst h
  simp [split]

theorem split_littleEndian (k n : ℕ) (r : List UInt8) :
    split k (littleEndian k n ++ r) = (littleEndian k n, r) :=
  split_append (length_littleEndian k n) r

theorem parseSized_append (op : List UInt8 → Opcode) {k : ℕ} {data : List UInt8}
    (h : data.length < 256 ^ k) (r : List UInt8) :
    parseSized op k (littleEndian k data.length ++ data ++ r) = (op data, r) := by
  unfold parseSized
  rw [List.append_assoc, split_littleEndian]
  simp only [ofLittleEndian_littleEndian, Nat.mod_eq_of_lt h, split_append (Eq.refl data.length)]

theorem length_twosComplement (k : ℕ) (n : ℤ) : (twosComplement k n).length = k :=
  length_littleEndian k _

theorem ofTwosComplement_twosComplement {k : ℕ} {n : ℤ} (hlow : -(256 ^ k : ℕ) ≤ n * 2)
    (hhigh : n * 2 < (256 ^ k : ℕ)) : ofTwosComplement (twosComplement k n) = n := by
  unfold ofTwosComplement
  have hpos : (0 : ℤ) < (256 ^ k : ℕ) := Int.natCast_pos.mpr (Nat.pow_pos (by decide))
  have hmod : ((ofLittleEndian (twosComplement k n) : ℕ) : ℤ) = n % (256 ^ k : ℕ) := by
    rw [twosComplement, ofLittleEndian_littleEndian]
    have hnonneg := Int.emod_nonneg n hpos.ne'
    have hlt := Int.emod_lt_of_pos n hpos
    rw [Nat.mod_eq_of_lt (by omega), Int.toNat_of_nonneg hnonneg]
  rw [hmod, length_twosComplement, Int.emod_bmod]
  exact Int.bmod_eq_of_le_mul_two hlow hhigh

/-- Every integer fits into its size. -/
theorem longSize_spec (n : ℤ) :
    -(256 ^ longSize n : ℕ) ≤ n * 2 ∧ n * 2 < (256 ^ longSize n : ℕ) := by
  have hsize : ∀ m : ℕ, (m + 1) * 2 ≤ 256 ^ (m.size / 8 + 1) := by
    intro m
    have hlt := Nat.lt_size_self m
    have hpow : 2 ^ (m.size + 1) ≤ 2 ^ (8 * (m.size / 8 + 1)) :=
      Nat.pow_le_pow_right (by omega) (by omega)
    calc (m + 1) * 2 ≤ 2 ^ m.size * 2 := by omega
      _ = 2 ^ (m.size + 1) := (Nat.pow_succ ..).symm
      _ ≤ 2 ^ (8 * (m.size / 8 + 1)) := hpow
      _ = 256 ^ (m.size / 8 + 1) := by rw [Nat.pow_mul]
  cases n with
  | ofNat m =>
      have h := hsize m
      simp only [longSize, Int.ofNat_eq_natCast]
      generalize 256 ^ (m.size / 8 + 1) = bound at h ⊢
      omega
  | negSucc m =>
      have h := hsize m
      simp only [longSize]
      generalize 256 ^ (m.size / 8 + 1) = bound at h ⊢
      omega

theorem parse_encodeSized {op : List UInt8 → Opcode} {short medium long : UInt8}
    (hshort : ∀ s, parse (short :: s) = some (parseSized op 1 s))
    (hmedium : ∀ s, parse (medium :: s) = some (parseSized op 4 s))
    (hlong : ∀ s, parse (long :: s) = some (parseSized op 8 s)) {data : List UInt8}
    (h : data.length < 2 ^ 63) (r : List UInt8) :
    parse (encodeSized short medium long data ++ r) = some (op data, r) := by
  unfold encodeSized
  by_cases hone : data.length ≤ 0xff
  · rw [if_pos hone, List.cons_append, hshort, parseSized_append op (by omega)]
  · rw [if_neg hone]
    by_cases hfour : data.length ≤ 0xffffffff
    · rw [if_pos hfour, List.cons_append, hmedium, parseSized_append op (by omega)]
    · rw [if_neg hfour, List.cons_append, hlong, parseSized_append op (by omega)]

theorem parseSized_twosComplement {n : ℤ} {k : ℕ} (h : longSize n < 256 ^ k) (r : List UInt8) :
    parseSized (fun data ↦ .int (ofTwosComplement data)) k
      (littleEndian k (longSize n) ++ twosComplement (longSize n) n ++ r) = (.int n, r) := by
  obtain ⟨hlow, hhigh⟩ := longSize_spec n
  have hlength := length_twosComplement (longSize n) n
  have hparse := parseSized_append (fun data ↦ .int (ofTwosComplement data))
    (show (twosComplement (longSize n) n).length < 256 ^ k by rwa [hlength]) r
  rwa [hlength, ofTwosComplement_twosComplement hlow hhigh] at hparse

/-- A natural number in some bytes is read back. -/
theorem ofLittleEndian_toNat {n : ℤ} {k : ℕ} (hnonneg : 0 ≤ n) (hlt : n.toNat < 256 ^ k) :
    (ofLittleEndian (littleEndian k n.toNat) : ℤ) = n := by
  rw [ofLittleEndian_littleEndian, Nat.mod_eq_of_lt hlt, Int.toNat_of_nonneg hnonneg]

theorem parse_encodeInt {n : ℤ} (h : longSize n ≤ 0x7fffffff) (r : List UInt8) :
    parse (encodeInt n ++ r) = some (.int n, r) := by
  unfold encodeInt
  by_cases hsmall : -2 ^ 31 ≤ n ∧ n < 2 ^ 31
  · rw [if_pos hsmall]
    by_cases hone : 0 ≤ n ∧ n < 2 ^ 8
    · have hparse : ∀ s, parse (0x4b :: s) =
          some (.int (ofLittleEndian (split 1 s).1), (split 1 s).2) := fun _ ↦ rfl
      rw [if_pos hone, List.cons_append, hparse, split_littleEndian,
        ofLittleEndian_toNat hone.1 (by omega)]
    · rw [if_neg hone]
      by_cases htwo : 0 ≤ n ∧ n < 2 ^ 16
      · have hparse : ∀ s, parse (0x4d :: s) =
            some (.int (ofLittleEndian (split 2 s).1), (split 2 s).2) := fun _ ↦ rfl
        rw [if_pos htwo, List.cons_append, hparse, split_littleEndian,
          ofLittleEndian_toNat htwo.1 (by omega)]
      · have hparse : ∀ s, parse (0x4a :: s) =
            some (.int (ofTwosComplement (split 4 s).1), (split 4 s).2) := fun _ ↦ rfl
        rw [if_neg htwo, List.cons_append, hparse, split_append (length_twosComplement 4 n),
          ofTwosComplement_twosComplement (by omega) (by omega)]
  · rw [if_neg hsmall]
    by_cases hshort : longSize n < 256
    · have hparse : ∀ s, parse (0x8a :: s) =
          some (parseSized (fun data ↦ .int (ofTwosComplement data)) 1 s) := fun _ ↦ rfl
      rw [if_pos hshort, List.cons_append, hparse, parseSized_twosComplement (by omega)]
    · have hparse : ∀ s, parse (0x8b :: s) =
          some (parseSized (fun data ↦ .int (ofTwosComplement data)) 4 s) := fun _ ↦ rfl
      rw [if_neg hshort, List.cons_append, hparse, parseSized_twosComplement (by omega)]

/-- An opcode is read back from its bytes. -/
theorem parse_encode {op : Opcode} (h : fits op = true) (r : List UInt8) :
    parse (encode op ++ r) = some (op, r) := by
  cases op with
  | int n => exact parse_encodeInt (of_decide_eq_true h) r
  | unicode data =>
      exact parse_encodeSized (fun _ ↦ rfl) (fun _ ↦ rfl) (fun _ ↦ rfl) (of_decide_eq_true h) r
  | bytes data =>
      exact parse_encodeSized (fun _ ↦ rfl) (fun _ ↦ rfl) (fun _ ↦ rfl) (of_decide_eq_true h) r
  | get index =>
      have hindex : index ≤ 0xffffffff := of_decide_eq_true h
      show parse ((if index < 256 then _ else _) ++ r) = _
      by_cases hone : index < 256
      · have hparse : ∀ s, parse (0x68 :: s) =
            some (.get (ofLittleEndian (split 1 s).1), (split 1 s).2) := fun _ ↦ rfl
        rw [if_pos hone, List.cons_append, hparse, split_littleEndian,
          ofLittleEndian_littleEndian, Nat.mod_eq_of_lt (by omega)]
      · have hparse : ∀ s, parse (0x6a :: s) =
            some (.get (ofLittleEndian (split 4 s).1), (split 4 s).2) := fun _ ↦ rfl
        rw [if_neg hone, List.cons_append, hparse, split_littleEndian,
          ofLittleEndian_littleEndian, Nat.mod_eq_of_lt (by omega)]
  | frame length =>
      have hparse : ∀ s, parse (0x95 :: s) = some (.frame (split 8 s).1, (split 8 s).2) :=
        fun _ ↦ rfl
      show parse (0x95 :: (length ++ r)) = _
      rw [hparse, split_append (of_decide_eq_true h)]
  | _ => rfl

def encodeAll (ops : List Opcode) : List UInt8 := ops.flatMap encode

/-- The bytes of some opcodes determine them. -/
theorem encodeAll_injective {ops ops' : List Opcode} (h : ∀ op ∈ ops, fits op = true)
    (h' : ∀ op ∈ ops', fits op = true) (heq : encodeAll ops = encodeAll ops') : ops = ops' := by
  induction ops generalizing ops' with
  | nil =>
      cases ops' with
      | nil => rfl
      | cons op' rest' =>
          have hparse := parse_encode (h' op' List.mem_cons_self) (encodeAll rest')
          have hnil : encode op' ++ encodeAll rest' = [] := heq.symm
          rw [hnil] at hparse
          simp [parse] at hparse
  | cons op rest ih =>
      have hparse := parse_encode (h op List.mem_cons_self) (encodeAll rest)
      cases ops' with
      | nil =>
          have hnil : encode op ++ encodeAll rest = [] := heq
          rw [hnil] at hparse
          simp [parse] at hparse
      | cons op' rest' =>
          have hparse' := parse_encode (h' op' List.mem_cons_self) (encodeAll rest')
          have hsame : encode op ++ encodeAll rest = encode op' ++ encodeAll rest' := heq
          rw [hsame, hparse'] at hparse
          obtain ⟨rfl, hrest⟩ := Prod.mk.inj (Option.some.inj hparse)
          rw [ih (fun x hx ↦ h x (List.mem_cons_of_mem _ hx))
            (fun x hx ↦ h' x (List.mem_cons_of_mem _ hx)) hrest.symm]

/-- What the pickler writes: opcodes, and the boundaries at which a frame can end. -/
inductive Token where
  | boundary
  | op (o : Opcode)

/-- Data of at least the size of a frame is written past the frames. -/
def isLarge : Opcode → Bool
  | .unicode data | .bytes data => data.length ≥ 64 * 1024
  | _ => false

/-- `_Pickler_CommitFrame` -/
def commitFrame (pending : List Opcode) : List Opcode :=
  if (encodeAll pending).length ≥ 4 then
    .frame (littleEndian 8 (encodeAll pending).length) :: pending
  else pending

/-- The opcodes with the headers of the frames. -/
def frames (pending : List Opcode) : List Token → List Opcode
  | [] => commitFrame pending
  | .boundary :: rest =>
      if (encodeAll pending).length ≥ 64 * 1024 then commitFrame pending ++ frames [] rest
      else frames pending rest
  | .op o :: rest =>
      if isLarge o then commitFrame pending ++ o :: frames [] rest
      else frames (pending ++ [o]) rest

def isFrame : Opcode → Bool
  | .frame _ => true
  | _ => false

/-- The opcodes without headers. -/
def opcodes (tokens : List Token) : List Opcode :=
  tokens.filterMap fun
    | .boundary => none
    | .op o => some o

theorem commitFrame_filter {pending : List Opcode} (h : ∀ o ∈ pending, isFrame o = false) :
    (commitFrame pending).filter (fun o ↦ !isFrame o) = pending := by
  have hpending : pending.filter (fun o ↦ !isFrame o) = pending :=
    List.filter_eq_self.mpr fun o ho ↦ by simp [h o ho]
  unfold commitFrame
  split
  · exact (List.filter_cons_of_neg (by simp [isFrame])).trans hpending
  · exact hpending

theorem frames_filter (tokens : List Token) {pending : List Opcode}
    (hpending : ∀ o ∈ pending, isFrame o = false)
    (htokens : ∀ o ∈ opcodes tokens, isFrame o = false) :
    (frames pending tokens).filter (fun o ↦ !isFrame o) = pending ++ opcodes tokens := by
  induction tokens generalizing pending with
  | nil => exact (commitFrame_filter hpending).trans (List.append_nil _).symm
  | cons x rest ih =>
      have hnil : ∀ o ∈ ([] : List Opcode), isFrame o = false := fun _ h ↦ absurd h List.not_mem_nil
      cases x with
      | boundary =>
          unfold frames
          split
          · rw [List.filter_append, commitFrame_filter hpending, ih hnil htokens]
            rfl
          · exact ih hpending htokens
      | op o =>
          have ho : isFrame o = false := htokens o List.mem_cons_self
          have hrest : ∀ o ∈ opcodes rest, isFrame o = false := fun x hx ↦
            htokens x (List.mem_cons_of_mem _ hx)
          unfold frames
          split
          · rw [List.filter_append, commitFrame_filter hpending,
              List.filter_cons_of_pos (by simp [ho]), ih hnil hrest]
            rfl
          · rw [ih (fun x hx ↦ ?_) hrest]
            · simp [opcodes]
            · rcases List.mem_append.mp hx with hx | hx
              · exact hpending x hx
              · rwa [List.mem_singleton.mp hx]

theorem commitFrame_fits {pending : List Opcode} (h : ∀ o ∈ pending, fits o = true) :
    ∀ o ∈ commitFrame pending, fits o = true := by
  unfold commitFrame
  split
  · intro o ho
    rcases List.mem_cons.mp ho with rfl | ho
    · simp [fits, length_littleEndian]
    · exact h o ho
  · exact h

theorem frames_fits (tokens : List Token) {pending : List Opcode}
    (hpending : ∀ o ∈ pending, fits o = true) (htokens : ∀ o ∈ opcodes tokens, fits o = true) :
    ∀ o ∈ frames pending tokens, fits o = true := by
  induction tokens generalizing pending with
  | nil => exact commitFrame_fits hpending
  | cons x rest ih =>
      have hnil : ∀ o ∈ ([] : List Opcode), fits o = true := fun _ h ↦ absurd h List.not_mem_nil
      cases x with
      | boundary =>
          unfold frames
          split
          · intro o ho
            rcases List.mem_append.mp ho with ho | ho
            · exact commitFrame_fits hpending o ho
            · exact ih hnil htokens o ho
          · exact ih hpending htokens
      | op x =>
          have hx : fits x = true := htokens x List.mem_cons_self
          have hrest : ∀ o ∈ opcodes rest, fits o = true := fun o ho ↦
            htokens o (List.mem_cons_of_mem _ ho)
          unfold frames
          split
          · intro o ho
            rcases List.mem_append.mp ho with ho | ho
            · exact commitFrame_fits hpending o ho
            · rcases List.mem_cons.mp ho with rfl | ho
              · exact hx
              · exact ih hnil hrest o ho
          · refine ih (fun o ho ↦ ?_) hrest
            rcases List.mem_append.mp ho with ho | ho
            · exact hpending o ho
            · rwa [List.mem_singleton.mp ho]

end Pickle

end DjangoNova
