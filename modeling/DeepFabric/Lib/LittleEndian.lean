/-
  DeepFabric.Lib.LittleEndian — numbers at the front of a list of bytes, least significant byte first.

  - `decode_leBytes`: a number is what its bytes say, up to what was cut off.
  - `number_leBytes`: it is read back so, whatever follows it.
-/
import DeepFabric.Lib.BigEndian
import DeepFabric.Lib.Buffer

namespace DeepFabric.Lib.LittleEndian

open BigEndian Buffer

def decode : List UInt8 → Nat
  | [] => 0
  | b :: bs => b.toNat + 256 * decode bs

def number (n : Nat) : Reader Nat := fun bytes => (take n bytes).map fun p => (LittleEndian.decode p.1, p.2)

variable {n v : Nat} {rest : List UInt8}

theorem leBytes_succ (n v : Nat) : leBytes (n + 1) v = UInt8.ofNat v :: leBytes n (v / 256) := by
  rw [leBytes, List.range_succ_eq_map, List.map_cons, List.map_map, Nat.pow_zero, Nat.div_one, leBytes]
  congr 1
  apply List.map_congr_left
  intro i _
  show UInt8.ofNat (v / 256 ^ (i + 1)) = UInt8.ofNat (v / 256 / 256 ^ i)
  rw [Nat.pow_succ', ← Nat.div_div_eq_div_mul]

theorem decode_leBytes : LittleEndian.decode (leBytes n v) = v % 256 ^ n := by
  induction n generalizing v with
  | zero =>
    rw [Nat.pow_zero, Nat.mod_one]
    rfl
  | succ n ih =>
    have hbyte : (UInt8.ofNat v).toNat = v % 256 := UInt8.toNat_ofNat'
    rw [leBytes_succ, LittleEndian.decode, ih, hbyte, Nat.pow_succ', Nat.mod_mul]

theorem number_leBytes : LittleEndian.number n (leBytes n v ++ rest) = some (v % 256 ^ n, rest) := by
  rw [LittleEndian.number, take_append length_leBytes, Option.map_some, decode_leBytes]

end DeepFabric.Lib.LittleEndian
