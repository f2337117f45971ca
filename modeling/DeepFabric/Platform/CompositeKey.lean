/-
  DeepFabric.Platform.CompositeKey — the comparator of composite keys (cxx/util/CompositeKey.h and
  `Comparator<CompositeKey*>` in cxx/util/Comparator.h).

  A key is the image of its parts one behind the other. The comparator goes from part to part until
  one tells, and knows then how many parts the keys have in common. There is no case for `BYTE` and
  `CHAR`: parts of these types are passed over.
-/
import DeepFabric.Lib.CommonPrefix
import DeepFabric.Store.CompositeKey

namespace DeepFabric.Platform.CompositeKey

open Lib Buffer CommonPrefix
open Store.CompositeKey (memcmp signed)

inductive KeyPartType
  | byteArray | byte | char | long | short | float | double | string | integer
  deriving DecidableEq, Repr

/-- The size is what the cursor moves by, and what `STRING` and `BYTEARRAY` compare. -/
structure KeyPart where
  type : KeyPartType
  size : Nat
  deriving DecidableEq, Repr

/-! ## Comparing -/

/-- A floating-point number as a multiple of the least one. The bits of a `NaN` are above those of infinity. -/
def floating (half infinity bits : Nat) : WithBot Int :=
  if infinity < bits % half then ⊥ else if bits < half then ((bits % half : Nat) : Int) else (-((bits % half : Nat) : Int) : Int)

def float (key : Buffer) (p : Nat) : WithBot Int := floating (2 ^ 31) (0xff * 2 ^ 23) (load key p 4)

def double (key : Buffer) (p : Nat) : WithBot Int := floating (2 ^ 63) (0x7ff * 2 ^ 52) (load key p 8)

/-- A `NaN` is neither below a number nor equal to it. -/
def compareNumber (o1 o2 : WithBot Int) : Int := weight o1 o2

/-- `strncmp`, as -1, 0 or 1. -/
def compareString (o1 : Buffer) (p : Nat) (o2 : Buffer) (q : Nat) : Nat → Int
  | 0 => 0
  | n + 1 => if o1 p < o2 q then -1 else if o1 p ≠ o2 q then 1 else if o1 p = 0 then 0 else compareString o1 (p + 1) o2 (q + 1) n

def compareByteArray (o1 : Buffer) (p : Nat) (o2 : Buffer) (q size : Nat) : Int := memcmp o1 p o2 q size

/-- The `switch`. A part is not come to but with `cmp` at 0. -/
def KeyPart.compare (part : KeyPart) (o1 o2 : Buffer) (cursor : Nat) : Int :=
  match part.type with
  | .integer => compareNumber (signed o1 cursor 4) (signed o2 cursor 4)
  | .long => compareNumber (signed o1 cursor 8) (signed o2 cursor 8)
  | .short => compareNumber (signed o1 cursor 2) (signed o2 cursor 2)
  | .float => compareNumber (float o1 cursor) (float o2 cursor)
  | .double => compareNumber (double o1 cursor) (double o2 cursor)
  | .string => compareString o1 cursor o2 cursor part.size
  | .byteArray => compareByteArray o1 cursor o2 cursor part.size
  | .byte | .char => 0

/-- The loop from part `i` on: `cmp`, and the part it ends at. -/
def compareFrom (o1 o2 : Buffer) : List KeyPart → (i cursor : Nat) → Int × Nat
  | [], i, _ => (0, i)
  | part :: parts, i, cursor =>
    let cmp := part.compare o1 o2 cursor
    if cmp ≠ 0 then (cmp, i) else compareFrom o1 o2 parts (i + 1) (cursor + part.size)

def compare (parts : List KeyPart) (o1 o2 : Buffer) : Int × Nat := compareFrom o1 o2 parts 0 0

/-! ## What a key stands for -/

/-- Bytes as one number, the first byte the most significant. -/
def digits (key : Buffer) (p : Nat) : Nat → Nat
  | 0 => 0
  | n + 1 => (key p).toNat * 256 ^ n + digits key (p + 1) n

/-- The same of a string, which ends at a 0. -/
def letters (key : Buffer) (p : Nat) : Nat → Nat
  | 0 => 0
  | n + 1 => if key p = 0 then 0 else (key p).toNat * 256 ^ n + letters key (p + 1) n

def KeyPart.value (part : KeyPart) (key : Buffer) (cursor : Nat) : WithBot Int :=
  match part.type with
  | .integer => signed key cursor 4
  | .long => signed key cursor 8
  | .short => signed key cursor 2
  | .float => float key cursor
  | .double => double key cursor
  | .string => (letters key cursor part.size : Int)
  | .byteArray => (digits key cursor part.size : Int)
  | .byte | .char => (0 : Int)

def valuesFrom (key : Buffer) : List KeyPart → Nat → List (WithBot Int)
  | [], _ => []
  | part :: parts, cursor => part.value key cursor :: valuesFrom key parts (cursor + part.size)

def values (parts : List KeyPart) (key : Buffer) : List (WithBot Int) := valuesFrom key parts 0

theorem length_values (parts : List KeyPart) (key : Buffer) : (values parts key).length = parts.length := by
  have hfrom (parts : List KeyPart) (cursor : Nat) : (valuesFrom key parts cursor).length = parts.length := by
    induction parts generalizing cursor with
    | nil => rfl
    | cons part parts ih => rw [valuesFrom, List.length_cons, ih, List.length_cons]
  exact hfrom parts 0

/-! ## Keys weigh as their values do -/

theorem weight_nat (m n : Nat) : weight ((m : Int) : WithBot Int) ((n : Int) : WithBot Int) = if m < n then -1 else if m = n then 0 else 1 := by
  show (if (m : Int) < n then (-1 : Int) else if (m : Int) = n then 0 else 1) = _
  simp only [Int.ofNat_lt, Int.ofNat_inj]

theorem digit_lt {a b r m : Nat} (hlt : a < b) (hr : r < m) : a * m + r < b * m := by
  have hmul : (a + 1) * m ≤ b * m := Nat.mul_le_mul_right m hlt
  rw [Nat.succ_mul] at hmul
  omega

theorem digits_lt (key : Buffer) (p n : Nat) : digits key p n < 256 ^ n := by
  induction n generalizing p with
  | zero => exact Nat.one_pos
  | succ n ih =>
    rw [digits, Nat.pow_succ']
    exact digit_lt (key p).toNat_lt (ih (p + 1))

theorem letters_succ (key : Buffer) (p n : Nat) :
    letters key p (n + 1) = (key p).toNat * 256 ^ n + if key p = 0 then 0 else letters key (p + 1) n := by
  rw [letters]
  by_cases hz : key p = 0
  · simp [hz]
  · rw [if_neg hz, if_neg hz]

theorem letters_lt (key : Buffer) (p n : Nat) : letters key p n < 256 ^ n := by
  induction n generalizing p with
  | zero => exact Nat.one_pos
  | succ n ih =>
    rw [letters_succ, Nat.pow_succ']
    apply digit_lt (key p).toNat_lt
    split_ifs
    · exact Nat.pow_pos (by decide)
    · exact ih (p + 1)

theorem weight_digit {a b : UInt8} {r s m : Nat} (hr : r < m) (hs : s < m) :
    weight (((a.toNat * m + r : Nat) : Int) : WithBot Int) (((b.toNat * m + s : Nat) : Int) : WithBot Int) =
      if a < b then -1 else if a ≠ b then 1 else weight ((r : Int) : WithBot Int) ((s : Int) : WithBot Int) := by
  have hlead {a b r s : Nat} (hlt : a < b) (hr : r < m) : a * m + r < b * m + s :=
    Nat.lt_of_lt_of_le (digit_lt hlt hr) (Nat.le_add_right _ s)
  rw [weight_nat, weight_nat]
  by_cases hlt : a < b
  · rw [if_pos hlt, if_pos (hlead (UInt8.lt_iff_toNat_lt.mp hlt) hr)]
  · by_cases heq : a = b
    · simp [heq]
    · have hne : a.toNat ≠ b.toNat := fun h => heq (UInt8.toNat_inj.mp h)
      have hge : ¬a.toNat < b.toNat := fun h => hlt (UInt8.lt_iff_toNat_lt.mpr h)
      have hgt : b.toNat * m + s < a.toNat * m + r := hlead (by omega) hs
      rw [if_neg hlt, if_pos heq, if_neg (by omega), if_neg (by omega)]

theorem compareByteArray_eq (o1 : Buffer) (p : Nat) (o2 : Buffer) (q n : Nat) :
    compareByteArray o1 p o2 q n = weight ((digits o1 p n : Int) : WithBot Int) ((digits o2 q n : Int) : WithBot Int) := by
  show memcmp o1 p o2 q n = _
  induction n generalizing p q with
  | zero => rfl
  | succ n ih =>
    rw [memcmp, digits, digits, weight_digit (digits_lt o1 (p + 1) n) (digits_lt o2 (q + 1) n), ← ih]
    by_cases heq : o1 p = o2 q
    · rw [if_pos heq, if_neg (not_not.mpr heq)]
    · rw [if_neg heq, if_pos heq]

theorem compareString_eq (o1 : Buffer) (p : Nat) (o2 : Buffer) (q n : Nat) :
    compareString o1 p o2 q n = weight ((letters o1 p n : Int) : WithBot Int) ((letters o2 q n : Int) : WithBot Int) := by
  induction n generalizing p q with
  | zero => rfl
  | succ n ih =>
    have hlt {key : Buffer} {p : Nat} : (if key p = 0 then 0 else letters key (p + 1) n) < 256 ^ n := by
      split_ifs
      · exact Nat.pow_pos (by decide)
      · exact letters_lt key (p + 1) n
    rw [compareString, letters_succ, letters_succ, weight_digit hlt hlt]
    by_cases heq : o1 p = o2 q
    · by_cases hz : o2 q = 0
      · simp [heq, hz, weight]
      · simp [heq, hz, ih]
    · simp [heq]

theorem KeyPart.compare_eq (part : KeyPart) (o1 o2 : Buffer) (cursor : Nat) :
    part.compare o1 o2 cursor = weight (part.value o1 cursor) (part.value o2 cursor) := by
  unfold KeyPart.compare KeyPart.value
  cases part.type with
  | string => exact compareString_eq ..
  | byteArray => exact compareByteArray_eq ..
  | byte | char => rfl
  | integer | long | short | float | double => rfl

/-- Two keys weigh as their values do, and the comparator ends at the part that tells. -/
theorem compare_eq (parts : List KeyPart) (o1 o2 : Buffer) : compare parts o1 o2 = weigh (values parts o1) (values parts o2) := by
  have hfrom (parts : List KeyPart) (i cursor : Nat) : compareFrom o1 o2 parts i cursor =
      ((weigh (valuesFrom o1 parts cursor) (valuesFrom o2 parts cursor)).1,
        i + (weigh (valuesFrom o1 parts cursor) (valuesFrom o2 parts cursor)).2) := by
    induction parts generalizing i cursor with
    | nil => rfl
    | cons part parts ih =>
      rw [compareFrom, valuesFrom, valuesFrom, weigh, ih, part.compare_eq]
      by_cases hz : weight (part.value o1 cursor) (part.value o2 cursor) = 0
      · simp [hz, Nat.add_assoc, Nat.add_comm 1]
      · simp [hz]
  have h := hfrom parts 0 0
  rw [Nat.zero_add] at h
  exact h

end DeepFabric.Platform.CompositeKey
