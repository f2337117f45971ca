/-
  DeepFabric.Lib.Buffer — bytes behind a pointer.

  A buffer is a byte at every offset from its pointer on; how far it may be used is its owner's
  business. Numbers lie in it little endian.

  - `memcpy_memcpy`: copies of two adjacent pieces to adjacent places are one copy.
  - `bytes_memcpy`, `bytes_store`: what was written is read back; `bytes_congr_outside`: the rest is
    as it was.
  - `load_store`: a number that fits is read back.
-/
import Mathlib.Data.Nat.Basic
import Mathlib.Data.List.Basic
import Mathlib.Tactic.Ring

namespace DeepFabric.Lib

abbrev Buffer := Nat → UInt8

namespace Buffer

def memcpy (dst : Buffer) (d : Nat) (src : Buffer) (s n : Nat) : Buffer :=
  fun i => if d ≤ i ∧ i < d + n then src (s + (i - d)) else dst i

def memset (dst : Buffer) (d : Nat) (v : UInt8) (n : Nat) : Buffer := fun i => if d ≤ i ∧ i < d + n then v else dst i

/-- The number in the `n` bytes from `p` on. -/
def load (b : Buffer) (p : Nat) : Nat → Nat
  | 0 => 0
  | n + 1 => (b p).toNat + 256 * load b (p + 1) n

def store (dst : Buffer) (d n v : Nat) : Buffer :=
  fun i => if d ≤ i ∧ i < d + n then UInt8.ofNat (v / 256 ^ (i - d)) else dst i

def bytes (b : Buffer) (p n : Nat) : List UInt8 := (List.range n).map fun i => b (p + i)

/-- The `n` bytes of a number. -/
def leBytes (n v : Nat) : List UInt8 := (List.range n).map fun i => UInt8.ofNat (v / 256 ^ i)

variable {b b' src : Buffer} {p q d s n m v : Nat}

/-! ## What is read -/

@[simp] theorem length_bytes : (bytes b p n).length = n := by
  rw [bytes, List.length_map, List.length_range]

@[simp] theorem length_leBytes : (leBytes n v).length = n := by
  rw [leBytes, List.length_map, List.length_range]

theorem bytes_zero : bytes b p 0 = [] := rfl

theorem bytes_inj : bytes b p n = bytes b' q n ↔ ∀ i < n, b (p + i) = b' (q + i) := by
  rw [bytes, bytes, List.map_inj_left]
  simp only [List.mem_range]

theorem bytes_eq_leBytes : bytes b p n = leBytes n v ↔ ∀ i < n, b (p + i) = UInt8.ofNat (v / 256 ^ i) := by
  rw [bytes, leBytes, List.map_inj_left]
  simp only [List.mem_range]

theorem bytes_append : bytes b p (m + n) = bytes b p m ++ bytes b (p + m) n := by
  rw [bytes, List.range_add, List.map_append, List.map_map]
  simp only [bytes, Function.comp_def, Nat.add_assoc]

theorem load_congr (h : ∀ i < n, b (p + i) = b' (q + i)) : load b p n = load b' q n := by
  induction n generalizing p q with
  | zero => rfl
  | succ n ih =>
    have h0 : b p = b' q := h 0 (Nat.succ_pos n)
    rw [load, load, h0, ih fun i hi => ?_]
    rw [Nat.add_assoc, Nat.add_assoc, Nat.add_comm 1]
    exact h (i + 1) (Nat.succ_lt_succ hi)

theorem load_lt : load b p n < 256 ^ n := by
  induction n generalizing p with
  | zero => exact Nat.one_pos
  | succ n ih =>
    have hb : (b p).toNat < 256 := (b p).toNat_lt
    have hl := ih (p := p + 1)
    rw [load, Nat.pow_succ]
    omega

theorem load_leBytes (h : ∀ i < n, b (p + i) = UInt8.ofNat (v / 256 ^ i)) : load b p n = v % 256 ^ n := by
  induction n generalizing p v with
  | zero => rw [load, Nat.pow_zero, Nat.mod_one]
  | succ n ih =>
    have h0 : b p = UInt8.ofNat (v / 256 ^ 0) := h 0 (Nat.succ_pos n)
    have hrec : load b (p + 1) n = v / 256 % 256 ^ n := by
      refine ih fun i hi => ?_
      rw [Nat.add_assoc, Nat.add_comm 1, h (i + 1) (Nat.succ_lt_succ hi), Nat.div_div_eq_div_mul, Nat.pow_succ, Nat.mul_comm]
    have hbyte : (UInt8.ofNat (v / 256 ^ 0)).toNat = v % 256 := by
      rw [Nat.pow_zero, Nat.div_one, UInt8.toNat_ofNat']
    rw [load, hrec, h0, hbyte, Nat.pow_succ, Nat.mul_comm (256 ^ n) 256, Nat.mod_mul]

theorem bytes_load : bytes b p n = leBytes n (load b p n) := by
  rw [bytes_eq_leBytes]
  induction n generalizing p with
  | zero => exact fun i hi => absurd hi (Nat.not_lt_zero i)
  | succ n ih =>
    have hb : (b p).toNat < 256 := (b p).toNat_lt
    intro i hi
    rw [load]
    cases i with
    | zero =>
      rw [Nat.pow_zero, Nat.div_one, ← UInt8.toNat_inj, UInt8.toNat_ofNat', Nat.add_mul_mod_self_left, Nat.mod_eq_of_lt hb]
      rfl
    | succ i =>
      have hrec := ih (p := p + 1) i (by omega)
      have hdiv : ((b p).toNat + 256 * load b (p + 1) n) / 256 = load b (p + 1) n := by omega
      have hpos : p + (i + 1) = p + 1 + i := by omega
      rw [hpos, hrec, Nat.pow_succ', ← Nat.div_div_eq_div_mul, hdiv]

/-- What lies in two adjacent pieces. -/
theorem bytes_split {xs ys : List UInt8} (h : bytes b p (m + n) = xs ++ ys) (hlen : xs.length = m) :
    bytes b p m = xs ∧ bytes b (p + m) n = ys := by
  rw [bytes_append] at h
  exact List.append_inj h (by rw [length_bytes, hlen])

/-! ## What is written -/

theorem memcpy_outside (h : p < d ∨ d + n ≤ p) : memcpy b d src s n p = b p := if_neg (by omega)

theorem memcpy_inside (h : p < n) : memcpy b d src s n (d + p) = src (s + p) := by
  rw [memcpy, if_pos (by omega), Nat.add_sub_cancel_left]

theorem memset_outside {k : UInt8} (h : p < d ∨ d + n ≤ p) : memset b d k n p = b p := if_neg (by omega)

theorem memset_inside {k : UInt8} (h : p < n) : memset b d k n (d + p) = k := if_pos (by omega)

theorem store_outside (h : p < d ∨ d + n ≤ p) : store b d n v p = b p := if_neg (by omega)

theorem store_inside (h : p < n) : store b d n v (d + p) = UInt8.ofNat (v / 256 ^ p) := by
  rw [store, if_pos (by omega), Nat.add_sub_cancel_left]

theorem memcpy_zero : memcpy b d src s 0 = b := by
  funext i
  exact memcpy_outside (by omega)

theorem memcpy_memcpy : memcpy (memcpy b d src s m) (d + m) src (s + m) n = memcpy b d src s (m + n) := by
  funext i
  simp only [memcpy]
  by_cases h₁ : d + m ≤ i ∧ i < d + m + n
  · rw [if_pos h₁, if_pos (by omega)]
    congr 1
    omega
  · rw [if_neg h₁]
    by_cases h₂ : d ≤ i ∧ i < d + m
    · rw [if_pos h₂, if_pos (by omega)]
    · rw [if_neg h₂, if_neg (by omega)]

theorem bytes_congr_outside (h : ∀ i, p ≤ i → i < p + n → b' i = b i) : bytes b' p n = bytes b p n :=
  bytes_inj.mpr fun i hi => h (p + i) (by omega) (by omega)

theorem bytes_memcpy : bytes (memcpy b d src s n) d n = bytes src s n := bytes_inj.mpr fun _ hi => memcpy_inside hi

theorem bytes_store : bytes (store b d n v) d n = leBytes n v := bytes_eq_leBytes.mpr fun _ hi => store_inside hi

theorem load_store (h : v < 256 ^ n) : load (store b d n v) d n = v := by
  rw [load_leBytes fun i hi => store_inside hi, Nat.mod_eq_of_lt h]

end Buffer

end DeepFabric.Lib
