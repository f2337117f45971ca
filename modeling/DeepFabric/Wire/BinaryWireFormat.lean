/-
  DeepFabric.Wire.BinaryWireFormat — the number formats of a message
  (cxx/io/BinaryWireFormat.h).

  Fixed numbers are little endian. A varint gives seven bits at a time, the low ones first, and
  sets the top bit of every byte but the last; signed numbers are zigzagged first, so that small
  ones stay short whatever their sign. A pointer into a buffer is the list of the bytes from it
  to the end of the allocation, and a read that runs off that list is an `overrun`.
-/
import Mathlib.Data.Fintype.EquivFin
import Mathlib.Data.Nat.Basic
import Mathlib.Tactic.IntervalCases

namespace DeepFabric.Wire

abbrev Bytes := List UInt8

/-- What stops a reader other than a status. -/
inductive Fault where
  /-- abort(). -/
  | abort
  /-- A byte outside the allocation is read. -/
  | overrun
  /-- A number is converted to an enumeration that has no such member. -/
  | enumeration
  deriving DecidableEq, Repr

/-! ## Fixed numbers -/

def writeFixed32 (value : BitVec 32) : Bytes :=
  [⟨value.setWidth 8⟩, ⟨(value >>> 8).setWidth 8⟩, ⟨(value >>> 16).setWidth 8⟩, ⟨(value >>> 24).setWidth 8⟩]

def writeFixed64 (value : BitVec 64) : Bytes := writeFixed32 (value.setWidth 32) ++ writeFixed32 ((value >>> 32).setWidth 32)

def readFixed32 : Bytes → Except Fault (BitVec 32)
  | b₀ :: b₁ :: b₂ :: b₃ :: _ =>
    .ok (b₀.toBitVec.setWidth 32 ||| b₁.toBitVec.setWidth 32 <<< 8 ||| b₂.toBitVec.setWidth 32 <<< 16
      ||| b₃.toBitVec.setWidth 32 <<< 24)
  | _ => .error .overrun

def readFixed64 (piBuffer : Bytes) : Except Fault (BitVec 64) := do
  let part0 ← readFixed32 piBuffer
  let part1 ← readFixed32 (piBuffer.drop 4)
  return part0.setWidth 64 ||| part1.setWidth 64 <<< 32

@[simp] theorem length_writeFixed32 (v : BitVec 32) : (writeFixed32 v).length = 4 := rfl

@[simp] theorem length_writeFixed64 (v : BitVec 64) : (writeFixed64 v).length = 8 := rfl

theorem read_writeFixed32 (v : BitVec 32) (rest : Bytes) : readFixed32 (writeFixed32 v ++ rest) = .ok v := by
  simp only [writeFixed32, readFixed32, List.cons_append, List.nil_append, Except.ok.injEq]
  ext i hi
  simp only [BitVec.getElem_or, BitVec.getElem_setWidth, BitVec.getElem_shiftLeft, BitVec.getLsbD_setWidth,
    BitVec.getLsbD_ushiftRight]
  interval_cases i <;> simp

theorem read_writeFixed64 (v : BitVec 64) (rest : Bytes) : readFixed64 (writeFixed64 v ++ rest) = .ok v := by
  have hd : (writeFixed64 v ++ rest).drop 4 = writeFixed32 ((v >>> 32).setWidth 32) ++ rest := rfl
  rw [readFixed64, hd, writeFixed64, List.append_assoc, read_writeFixed32, read_writeFixed32]
  simp only [bind, Except.bind, pure, Except.pure, Except.ok.injEq]
  ext i hi
  simp only [BitVec.getElem_or, BitVec.getElem_setWidth, BitVec.getElem_shiftLeft, BitVec.getLsbD_setWidth,
    BitVec.getLsbD_ushiftRight]
  by_cases h : i < 32
  · simp [h, BitVec.getLsbD_eq_getElem hi]
  · have h' : 32 + (i - 32) = i := by omega
    simp [h, h', hi]
    omega

/-! ## Varints -/

/-- The low seven bits of a number, marked as not the last. -/
def moreByte (iValue : Nat) : UInt8 := (UInt8.ofNat iValue &&& 0x7f) ||| 0x80

def writeVarInt (iValue : Nat) : Bytes :=
  if iValue > 127 then moreByte iValue :: writeVarInt (iValue / 128) else [UInt8.ofNat iValue &&& 0x7f]

def varIntLength (iValue : Nat) : BitVec 32 :=
  if iValue < 2 ^ 35 then
    if iValue < 2 ^ 7 then 1
    else if iValue < 2 ^ 14 then 2
    else if iValue < 2 ^ 21 then 3
    else if iValue < 2 ^ 28 then 4
    else 5
  else if iValue < 2 ^ 42 then 6
  else if iValue < 2 ^ 49 then 7
  else if iValue < 2 ^ 56 then 8
  else if iValue < 2 ^ 63 then 9
  else 10

/-- The loop of ReadVarIntFromBuffer<INT> for a `w`-bit INT, at `piPos - piBuffer = pos` and `iBits = 7 * pos`. Returns
    the value and the number of bytes read, or nothing for the status -1. -/
def readVarIntFrom (w : Nat) (iLen : BitVec 32) (pos : Nat) (iResult : BitVec w) :
    Bytes → Except Fault (Option (BitVec w × Nat))
  | [] => .error .overrun
  | b :: rest =>
    let iSubRes := iResult + BitVec.ofNat w ((b &&& 0x7f).toNat * 2 ^ (7 * pos))
    if b &&& 0x80 = 0 then .ok (some (iSubRes, pos + 1))
    else if pos > iLen.toNat then .ok none
    else readVarIntFrom w iLen (pos + 1) iSubRes rest

def readVarInt (w : Nat) (piBuffer : Bytes) (iLen : BitVec 32) : Except Fault (Option (BitVec w × Nat)) :=
  readVarIntFrom w iLen 0 0 piBuffer

theorem low_of_more (b : UInt8) : (b &&& 0x7f ||| 0x80) &&& 0x7f = b &&& 0x7f := by
  rcases b with ⟨⟨n⟩⟩
  revert n
  decide +kernel

theorem high_of_more (b : UInt8) : (b &&& 0x7f ||| 0x80) &&& 0x80 ≠ 0 := by
  rcases b with ⟨⟨n⟩⟩
  revert n
  decide +kernel

theorem high_of_low (b : UInt8) : b &&& 0x7f &&& 0x80 = 0 := by
  rcases b with ⟨⟨n⟩⟩
  revert n
  decide +kernel

theorem low_of_low (b : UInt8) : b &&& 0x7f &&& 0x7f = b &&& 0x7f := by
  rcases b with ⟨⟨n⟩⟩
  revert n
  decide +kernel

theorem toNat_low (n : Nat) : (UInt8.ofNat n &&& 0x7f).toNat = n % 128 := by
  have h : (UInt8.ofNat n &&& 0x7f).toNat = n % 256 &&& (2 ^ 7 - 1) := by simp
  rw [h, Nat.and_two_pow_sub_one_eq_mod]
  omega

theorem moreByte_low (n : Nat) : (moreByte n &&& 0x7f).toNat = n % 128 := by
  rw [moreByte, low_of_more, toNat_low]

theorem moreByte_high (n : Nat) : moreByte n &&& 0x80 ≠ 0 := high_of_more _

theorem writeVarInt_last {n : Nat} (h : n < 128) : writeVarInt n = [UInt8.ofNat n &&& 0x7f] := by
  rw [writeVarInt, if_neg (by omega)]

theorem writeVarInt_more {n : Nat} (h : 128 ≤ n) : writeVarInt n = moreByte n :: writeVarInt (n / 128) := by
  rw [writeVarInt, if_pos (by omega)]

theorem varIntLength_more {n : Nat} (h : 128 ≤ n) (hn : n < 2 ^ 64) : varIntLength n = varIntLength (n / 128) + 1 := by
  unfold varIntLength
  repeat' split
  all_goals first | rfl | omega

theorem varIntLength_lt (n : Nat) : (varIntLength n).toNat ≤ 10 := by
  unfold varIntLength
  repeat' split
  all_goals decide

theorem length_writeVarInt {n : Nat} (hn : n < 2 ^ 64) : (writeVarInt n).length = (varIntLength n).toNat := by
  induction n using Nat.strong_induction_on with
  | h n ih =>
    by_cases h : n < 128
    · rw [writeVarInt_last h, varIntLength, if_pos (by omega), if_pos (by omega)]
      rfl
    · have ih := ih (n / 128) (by omega) (by omega)
      have hle := varIntLength_lt (n / 128)
      rw [writeVarInt_more (by omega), varIntLength_more (by omega) hn, List.length_cons, ih, BitVec.toNat_add]
      simp
      omega

theorem readVarIntFrom_writeVarInt {w : Nat} {iLen : BitVec 32} {n : Nat} (rest : Bytes) {pos : Nat} {res : BitVec w}
    (hlen : pos + (writeVarInt n).length ≤ iLen.toNat) :
    readVarIntFrom w iLen pos res (writeVarInt n ++ rest)
      = .ok (some (res + BitVec.ofNat w (n * 2 ^ (7 * pos)), pos + (writeVarInt n).length)) := by
  induction n using Nat.strong_induction_on generalizing pos res with
  | h n ih =>
    by_cases h : n < 128
    · have hmod : n % 128 = n := Nat.mod_eq_of_lt h
      rw [writeVarInt_last h, List.singleton_append, readVarIntFrom, if_pos (high_of_low _), low_of_low, toNat_low, hmod]
      rfl
    · rw [writeVarInt_more (by omega)] at hlen ⊢
      rw [List.length_cons] at hlen
      rw [List.cons_append, readVarIntFrom, if_neg (moreByte_high n), if_neg (by omega),
        ih (n / 128) (by omega) (by omega), moreByte_low, BitVec.add_assoc, ← BitVec.ofNat_add]
      have hv : n % 128 * 2 ^ (7 * pos) + n / 128 * 2 ^ (7 * (pos + 1)) = n * 2 ^ (7 * pos) := by
        have hp : 2 ^ (7 * (pos + 1)) = 128 * 2 ^ (7 * pos) := by rw [Nat.mul_add, Nat.pow_add, Nat.mul_comm]
        rw [hp, ← Nat.mul_assoc, ← Nat.add_mul, Nat.mul_comm (n / 128), Nat.mod_add_div]
      rw [hv, List.length_cons, Nat.add_assoc, Nat.add_comm 1]

/-- A number that fits is read back, whatever follows it, and the bytes taken are its own. -/
theorem readVarInt_writeVarInt {w : Nat} {iLen : BitVec 32} (v : BitVec w) (rest : Bytes)
    (hlen : (writeVarInt v.toNat).length ≤ iLen.toNat) :
    readVarInt w (writeVarInt v.toNat ++ rest) iLen = .ok (some (v, (writeVarInt v.toNat).length)) := by
  rw [readVarInt, readVarIntFrom_writeVarInt rest (by omega)]
  simp

/-! ## Zigzag -/

/-- encodeZigZag<INT, OINT, BITS> with BITS one less than the width: the right shift is that of a signed number. -/
def encodeZigZag {w : Nat} (iValue : BitVec w) : BitVec w := iValue <<< 1 ^^^ iValue.sshiftRight (w - 1)

def decodeZigZag {w : Nat} (iValue : BitVec w) : BitVec w := iValue >>> 1 ^^^ -(iValue &&& 1)

theorem sign_spread {w : Nat} (v : BitVec w) : v.sshiftRight (w - 1) = if v.msb then BitVec.allOnes w else 0#w := by
  ext i hi
  rw [BitVec.getElem_sshiftRight]
  by_cases h : w - 1 + i < w
  · have h0 : i = 0 := by omega
    subst h0
    cases hm : v.msb <;> simp_all [BitVec.msb_eq_getLsbD_last]
  · cases hm : v.msb <;> simp [h]

theorem encodeZigZag_low {w : Nat} (v : BitVec w) : -(encodeZigZag v &&& 1#w) = if v.msb then BitVec.allOnes w else 0#w := by
  rw [encodeZigZag, sign_spread]
  have h : (v <<< 1 ^^^ if v.msb then BitVec.allOnes w else 0#w) &&& 1#w = if v.msb then 1#w else 0#w := by
    ext i hi
    rcases Nat.eq_zero_or_pos i with rfl | hpos
    · cases v.msb <;> simp [BitVec.getElem_shiftLeft]
    · cases v.msb <;> simp [BitVec.getElem_one, Nat.pos_iff_ne_zero.mp hpos]
  rw [h]
  cases v.msb <;> simp [BitVec.neg_one_eq_allOnes]

theorem decodeZigZag_encodeZigZag {w : Nat} (v : BitVec w) : decodeZigZag (encodeZigZag v) = v := by
  have hl : -(encodeZigZag v &&& 1) = if v.msb then BitVec.allOnes w else 0#w := encodeZigZag_low v
  rw [decodeZigZag, hl, encodeZigZag, sign_spread]
  ext i hi
  by_cases h : 1 + i < w
  · cases v.msb <;> simp [BitVec.getElem_shiftLeft, h]
  · have hi' : i = w - 1 := by omega
    subst hi'
    cases hm : v.msb <;> simp_all [BitVec.msb_eq_getLsbD_last]

/-- Every number is the zigzag of one, for there are as many of them. -/
theorem encodeZigZag_decodeZigZag {w : Nat} (v : BitVec w) : encodeZigZag (decodeZigZag v) = v := by
  have hfinite : Finite (BitVec w) := .of_injective BitVec.toFin fun _ _ h => BitVec.eq_of_toFin_eq h
  have hinj : Function.Injective (decodeZigZag (w := w)) :=
    Finite.injective_iff_surjective.mpr fun v => ⟨encodeZigZag v, decodeZigZag_encodeZigZag v⟩
  exact hinj (decodeZigZag_encodeZigZag _)

theorem varInt_zigZag {w : Nat} (hw : w ≤ 64) (v : BitVec w) :
    (writeVarInt v.toNat).length = (varIntLength v.toNat).toNat ∧
      (∀ (rest : Bytes) (iLen : BitVec 32), (writeVarInt v.toNat).length ≤ iLen.toNat →
        readVarInt w (writeVarInt v.toNat ++ rest) iLen = .ok (some (v, (varIntLength v.toNat).toNat))) ∧
      decodeZigZag (encodeZigZag v) = v ∧ encodeZigZag (decodeZigZag v) = v := by
  have hlength := length_writeVarInt (v.isLt.trans_le (Nat.pow_le_pow_right (by decide) hw))
  refine ⟨hlength, fun rest iLen hlen => ?_, decodeZigZag_encodeZigZag v, encodeZigZag_decodeZigZag v⟩
  rw [readVarInt_writeVarInt v rest hlen, hlength]

/-- The largest number takes ten bytes, the one after them is left. -/
theorem varInt_zigZag_largest :
    (writeVarInt (-1#64).toNat).length = 10 ∧ readVarInt 64 (writeVarInt (-1#64).toNat ++ [0x80]) 10 = .ok (some (-1#64, 10)) := by
  obtain ⟨hlength, hread, -⟩ := varInt_zigZag (Nat.le_refl 64) (-1#64)
  have hten : (varIntLength (-1#64).toNat).toNat = 10 := by decide
  rw [hten] at hlength hread
  exact ⟨hlength, hread [0x80] 10 (by rw [hlength]; decide)⟩

end DeepFabric.Wire
