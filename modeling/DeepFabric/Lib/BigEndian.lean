/-
  DeepFabric.Lib.BigEndian — numbers and pieces of bytes at the front of a list of bytes.

  A number of `n` bytes has its most significant byte first; what does not fit is cut off. A reader
  takes its bytes from the front, or nothing if there are too few.

  - `decode_encode`: a number is what its bytes say, up to what was cut off.
  - `take_append`, `number_encode`: a piece or a number is read back, whatever follows it.
  - `take_some`, `number_some`: what is read, is taken from the front.
-/
import Mathlib.Algebra.Order.Ring.Nat
import Mathlib.Tactic.Ring

namespace DeepFabric.Lib.BigEndian

abbrev Reader (α : Type) := List UInt8 → Option (α × List UInt8)

def encode : Nat → Nat → List UInt8
  | 0, _ => []
  | n + 1, v => UInt8.ofNat (v / 256 ^ n) :: encode n v

def decode : List UInt8 → Nat
  | [] => 0
  | b :: bs => b.toNat * 256 ^ bs.length + decode bs

def take (n : Nat) : Reader (List UInt8) := fun bytes => if n ≤ bytes.length then some (bytes.take n, bytes.drop n) else none

def number (n : Nat) : Reader Nat := fun bytes => (take n bytes).map fun p => (decode p.1, p.2)

variable {n v : Nat} {a bytes rest : List UInt8}

@[simp] theorem length_encode : (encode n v).length = n := by
  induction n with
  | zero => rfl
  | succ n ih => rw [encode, List.length_cons, ih]

theorem decode_encode : decode (encode n v) = v % 256 ^ n := by
  induction n with
  | zero => rw [encode, decode, Nat.pow_zero, Nat.mod_one]
  | succ n ih =>
    have hbyte : (UInt8.ofNat (v / 256 ^ n)).toNat = v / 256 ^ n % 256 := UInt8.toNat_ofNat'
    rw [encode, decode, ih, length_encode, hbyte, Nat.pow_succ, Nat.mod_mul, Nat.add_comm, Nat.mul_comm (256 ^ n)]

theorem decode_lt (bytes : List UInt8) : decode bytes < 256 ^ bytes.length := by
  induction bytes with
  | nil => exact Nat.one_pos
  | cons b bytes ih =>
    have hb : b.toNat < 256 := b.toNat_lt
    rw [decode, List.length_cons, Nat.pow_succ]
    calc b.toNat * 256 ^ bytes.length + decode bytes
        < b.toNat * 256 ^ bytes.length + 256 ^ bytes.length := Nat.add_lt_add_left ih _
      _ = (b.toNat + 1) * 256 ^ bytes.length := by ring
      _ ≤ 256 * 256 ^ bytes.length := Nat.mul_le_mul_right _ hb
      _ = 256 ^ bytes.length * 256 := Nat.mul_comm _ _

theorem take_append (h : a.length = n) : take n (a ++ rest) = some (a, rest) := by
  subst h
  simp [take]

theorem take_some (h : take n bytes = some (a, rest)) : a.length = n ∧ bytes = a ++ rest := by
  unfold take at h
  split at h
  · rename_i hle
    cases h
    exact ⟨List.length_take_of_le hle, (List.take_append_drop n bytes).symm⟩
  · cases h

theorem number_encode (hv : v < 256 ^ n) : number n (encode n v ++ rest) = some (v, rest) := by
  rw [number, take_append length_encode, Option.map_some, decode_encode, Nat.mod_eq_of_lt hv]

theorem number_some (h : number n bytes = some (v, rest)) : v < 256 ^ n ∧ bytes.length = n + rest.length := by
  obtain ⟨⟨a, r⟩, htake, hp⟩ := Option.map_eq_some_iff.mp h
  cases hp
  obtain ⟨hlen, rfl⟩ := take_some htake
  refine ⟨?_, ?_⟩
  · rw [← hlen]
    exact decode_lt a
  · rw [List.length_append, hlen]

end DeepFabric.Lib.BigEndian
