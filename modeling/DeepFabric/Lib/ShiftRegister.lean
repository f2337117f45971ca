/-
  DeepFabric.Lib.ShiftRegister — shift registers with feedback.

  A register of m + 1 bits moves to the left, and where its highest bit falls out a polynomial is
  xored in: multiplication by x in GF(2)[x] modulo the polynomial.

  - `eval_iterate`: so many turns are a product with what they make of 1.
  - `power_eq`: that is found by squaring.
  - `Generates.reaches`: a register whose polynomial is primitive passes from every number but 0 to
    every other one.
-/
import Mathlib.Data.Nat.Bitwise
import Mathlib.Data.Nat.Prime.Basic
import Mathlib.Dynamics.PeriodicPts.Lemmas

namespace DeepFabric.Lib.ShiftRegister

open Function

variable (m poly : Nat)

def advance (v : Nat) : Nat := v <<< 1 ^^^ if v.testBit m then poly else 0

/-- The product of `v` with the polynomial whose coefficients are the lowest `k` bits of `c`. -/
def eval : Nat → Nat → Nat → Nat
  | 0, _, _ => 0
  | k + 1, c, v => advance m poly (eval k (c / 2) v) ^^^ if c.testBit 0 then v else 0

/-- What `j` turns make of 1, for `j` of at most `k` bits. -/
def power : Nat → Nat → Nat
  | 0, _ => 1
  | k + 1, j =>
    let square := eval m poly (m + 1) (power k (j / 2)) (power k (j / 2))
    if j.testBit 0 then advance m poly square else square

/-- The polynomial is of degree m + 1 and has a constant term. -/
structure Feedback : Prop where
  lt : poly < 2 ^ (m + 2)
  high : poly.testBit (m + 1) = true
  low : poly.testBit 0 = true

variable {m poly}

/-! ## One turn -/

theorem advance_xor (a b : Nat) : advance m poly (a ^^^ b) = advance m poly a ^^^ advance m poly b := by
  refine Nat.eq_of_testBit_eq fun i => ?_
  simp only [advance, Nat.shiftLeft_xor_distrib, Nat.testBit_xor]
  cases a.testBit m <;> cases b.testBit m <;> simp [Bool.xor_comm, Bool.xor_left_comm]

theorem advance_zero : advance m poly 0 = 0 := by
  simp [advance]

theorem advance_small {v : Nat} (h : v < 2 ^ m) : advance m poly v = 2 * v := by
  rw [advance, Nat.testBit_lt_two_pow h, if_neg Bool.false_ne_true, Nat.xor_zero, Nat.shiftLeft_eq, Nat.mul_comm]

theorem advance_lt (h : Feedback m poly) {v : Nat} (hv : v < 2 ^ (m + 1)) : advance m poly v < 2 ^ (m + 1) := by
  refine Nat.lt_pow_two_of_testBit _ fun i hi => ?_
  have hshift : (v <<< 1).testBit i = v.testBit (i - 1) := by
    rw [Nat.testBit_shiftLeft, decide_eq_true (by omega), Bool.true_and]
  rw [advance, Nat.testBit_xor, hshift]
  rcases Nat.eq_or_lt_of_le hi with rfl | hlt
  · cases hb : v.testBit m
    · simp [hb]
    · simp [hb, h.high]
  · have hgone : v.testBit (i - 1) = false := Nat.testBit_lt_two_pow (Nat.lt_of_lt_of_le hv (Nat.pow_le_pow_right (by decide) (by omega)))
    have hpoly : poly.testBit i = false := Nat.testBit_lt_two_pow (Nat.lt_of_lt_of_le h.lt (Nat.pow_le_pow_right (by decide) (by omega)))
    rw [hgone]
    split_ifs
    · rw [hpoly]
      rfl
    · rw [Nat.zero_testBit]
      rfl

theorem advance_ne_zero (h : Feedback m poly) {v : Nat} (hv : v ≠ 0) : advance m poly v ≠ 0 := by
  intro hzero
  have hlow : (advance m poly v).testBit 0 = false := by
    rw [hzero, Nat.zero_testBit]
  rw [advance, Nat.testBit_xor, Nat.testBit_shiftLeft] at hlow
  cases hb : v.testBit m
  · rw [advance, hb, if_neg Bool.false_ne_true, Nat.xor_zero, Nat.shiftLeft_eq] at hzero
    omega
  · simp [hb, h.low] at hlow

theorem iterate_lt (h : Feedback m poly) (j : Nat) {v : Nat} (hv : v < 2 ^ (m + 1)) : (advance m poly)^[j] v < 2 ^ (m + 1) := by
  induction j generalizing v with
  | zero => exact hv
  | succ j ih => exact ih (advance_lt h hv)

theorem iterate_ne_zero (h : Feedback m poly) (j : Nat) {v : Nat} (hv : v ≠ 0) : (advance m poly)^[j] v ≠ 0 := by
  induction j generalizing v with
  | zero => exact hv
  | succ j ih => exact ih (advance_ne_zero h hv)

theorem iterate_xor (j a b : Nat) : (advance m poly)^[j] (a ^^^ b) = (advance m poly)^[j] a ^^^ (advance m poly)^[j] b := by
  induction j generalizing a b with
  | zero => rfl
  | succ j ih => rw [iterate_succ_apply, advance_xor, ih, iterate_succ_apply, iterate_succ_apply]

theorem iterate_one {k : Nat} (h : k ≤ m) : (advance m poly)^[k] 1 = 2 ^ k := by
  induction k with
  | zero => rfl
  | succ k ih =>
    rw [Function.iterate_succ_apply', ih (by omega), advance_small (Nat.pow_lt_pow_right (by decide) (by omega)), Nat.pow_succ, Nat.mul_comm]

/-! ## Many turns -/

theorem eval_xor (k c a b : Nat) : eval m poly k c (a ^^^ b) = eval m poly k c a ^^^ eval m poly k c b := by
  induction k generalizing c with
  | zero => exact (Nat.xor_self 0).symm
  | succ k ih =>
    refine Nat.eq_of_testBit_eq fun i => ?_
    simp only [eval, ih, advance_xor, Nat.testBit_xor]
    cases c.testBit 0 <;> simp [Bool.xor_comm, Bool.xor_left_comm]

theorem eval_advance (k c v : Nat) : eval m poly k c (advance m poly v) = advance m poly (eval m poly k c v) := by
  induction k generalizing c with
  | zero => exact advance_zero.symm
  | succ k ih =>
    rw [eval, eval, ih, advance_xor]
    split_ifs
    · rfl
    · rw [advance_zero]

theorem eval_one {k c : Nat} (hk : k ≤ m + 1) (hc : c < 2 ^ k) : eval m poly k c 1 = c := by
  induction k generalizing c with
  | zero =>
    rw [Nat.pow_zero] at hc
    rw [eval]
    omega
  | succ k ih =>
    have hhalf : c / 2 < 2 ^ k := by
      rw [Nat.pow_succ] at hc
      omega
    have hle : 2 ^ k ≤ 2 ^ m := Nat.pow_le_pow_right (by decide) (by omega)
    rw [eval, ih (by omega) hhalf, advance_small (Nat.lt_of_lt_of_le hhalf hle)]
    have hbit : (if c.testBit 0 then 1 else 0) = c % 2 := by
      rw [Nat.testBit_zero]
      rcases Nat.mod_two_eq_zero_or_one c with h | h <;> rw [h] <;> rfl
    rw [hbit]
    refine Nat.eq_of_testBit_eq fun i => ?_
    have hshift : 2 * (c / 2) = (c / 2) <<< 1 := by
      rw [Nat.shiftLeft_eq, Nat.mul_comm]
    rw [hshift, Nat.testBit_xor, Nat.testBit_shiftLeft]
    cases i with
    | zero =>
      rcases Nat.mod_two_eq_zero_or_one c with h | h <;> simp [Nat.testBit_zero, h]
    | succ i =>
      have hgone : (c % 2).testBit (i + 1) = false :=
        Nat.testBit_lt_two_pow (Nat.lt_of_lt_of_le (Nat.mod_lt c (by decide)) (Nat.le_self_pow (Nat.succ_ne_zero i) 2))
      rw [hgone, Bool.xor_false, Nat.testBit_succ]
      simp

/-- What respects xor and the register is told by what it makes of 1. -/
theorem eq_of_one {g h : Nat → Nat} (hg : ∀ a b, g (a ^^^ b) = g a ^^^ g b) (hh : ∀ a b, h (a ^^^ b) = h a ^^^ h b)
    (hga : ∀ v, g (advance m poly v) = advance m poly (g v)) (hha : ∀ v, h (advance m poly v) = advance m poly (h v))
    (hone : g 1 = h 1) {k v : Nat} (hk : k ≤ m + 1) (hv : v < 2 ^ k) : g v = h v := by
  induction k generalizing v with
  | zero =>
    have hzero (f : Nat → Nat) (hf : ∀ a b, f (a ^^^ b) = f a ^^^ f b) : f 0 = 0 := by
      have := hf 0 0
      rw [Nat.xor_self, Nat.xor_self] at this
      exact this
    obtain rfl : v = 0 := by
      rw [Nat.pow_zero] at hv
      omega
    rw [hzero g hg, hzero h hh]
  | succ k ih =>
    by_cases hlt : v < 2 ^ k
    · exact ih (by omega) hlt
    · -- the highest bit and the rest
      have hrest : v ^^^ 2 ^ k < 2 ^ k := by
        refine Nat.lt_pow_two_of_testBit _ fun i hi => ?_
        rw [Nat.testBit_xor, Nat.testBit_two_pow]
        rcases Nat.eq_or_lt_of_le hi with rfl | hgt
        · have hbit : v.testBit k = true := by
            rw [Nat.testBit_eq_decide_div_mod_eq]
            have : v / 2 ^ k = 1 := by
              rw [Nat.pow_succ] at hv
              exact Nat.div_eq_of_lt_le (by omega) (by omega)
            rw [this]
            rfl
          simp [hbit]
        · rw [Nat.testBit_lt_two_pow (Nat.lt_of_lt_of_le hv (Nat.pow_le_pow_right (by decide) hgt))]
          simp
          omega
      have hpow (f : Nat → Nat) (hf : ∀ v, f (advance m poly v) = advance m poly (f v)) (j : Nat) (hj : j ≤ m) :
          f (2 ^ j) = (advance m poly)^[j] (f 1) := by
        rw [← @iterate_one m poly j hj]
        exact (Function.Semiconj.iterate_right (f := f) hf j) 1
      have hsplit : v = (v ^^^ 2 ^ k) ^^^ 2 ^ k := by rw [Nat.xor_assoc, Nat.xor_self, Nat.xor_zero]
      rw [hsplit, hg, hh, ih (by omega) hrest, hpow g hga k (by omega), hpow h hha k (by omega), hone]

/-- So many turns are a product with what they make of 1. -/
theorem eval_iterate (h : Feedback m poly) (j : Nat) {v : Nat} (hv : v < 2 ^ (m + 1)) :
    eval m poly (m + 1) ((advance m poly)^[j] 1) v = (advance m poly)^[j] v := by
  refine @eq_of_one m poly _ _ (eval_xor _ _) (iterate_xor j) (eval_advance _ _) (fun v => ?_) ?_ (m + 1) v (Nat.le_refl _) hv
  · rw [← iterate_succ_apply, Function.iterate_succ_apply']
  · exact eval_one (Nat.le_refl _) (iterate_lt h j (Nat.one_lt_two_pow (Nat.succ_ne_zero m)))

theorem power_eq (h : Feedback m poly) {k j : Nat} (hj : j < 2 ^ k) : power m poly k j = (advance m poly)^[j] 1 := by
  induction k generalizing j with
  | zero =>
    obtain rfl : j = 0 := by
      rw [Nat.pow_zero] at hj
      omega
    rfl
  | succ k ih =>
    have hhalf : j / 2 < 2 ^ k := by
      rw [Nat.pow_succ] at hj
      omega
    have hsquare : eval m poly (m + 1) (power m poly k (j / 2)) (power m poly k (j / 2)) = (advance m poly)^[2 * (j / 2)] 1 := by
      rw [ih hhalf, eval_iterate h (j / 2) (iterate_lt h _ (Nat.one_lt_two_pow (Nat.succ_ne_zero m))), ← iterate_add_apply,
        Nat.two_mul]
    rw [power, hsquare, Nat.testBit_zero]
    rcases Nat.mod_two_eq_zero_or_one j with hb | hb
    · rw [hb, if_neg (by decide)]
      congr 1
      omega
    · rw [hb, if_pos (by decide), ← Function.iterate_succ_apply' (advance m poly)]
      congr 1
      omega

/-! ## All numbers but 0 -/

/-- The register is back at 1 after 2^(m+1) - 1 turns, and after no proper divisor of that. -/
structure Generates (m poly : Nat) : Prop extends Feedback m poly where
  back : power m poly (m + 1) (2 ^ (m + 1) - 1) = 1
  away : ∀ q, q.Prime → q ∣ 2 ^ (m + 1) - 1 → power m poly (m + 1) ((2 ^ (m + 1) - 1) / q) ≠ 1

theorem Generates.minimalPeriod (h : Generates m poly) : Function.minimalPeriod (advance m poly) 1 = 2 ^ (m + 1) - 1 := by
  have hpos : 0 < 2 ^ (m + 1) := Nat.two_pow_pos _
  have hperiodic : Function.IsPeriodicPt (advance m poly) (2 ^ (m + 1) - 1) 1 := by
    have := h.back
    rw [power_eq h.toFeedback (by omega)] at this
    exact this
  obtain ⟨c, hc⟩ := hperiodic.minimalPeriod_dvd
  by_contra hne
  have hc1 : c ≠ 1 := by
    rintro rfl
    rw [Nat.mul_one] at hc
    exact hne hc.symm
  obtain ⟨q, hq, e, rfl⟩ := Nat.exists_prime_and_dvd hc1
  have hdvd : q ∣ 2 ^ (m + 1) - 1 := ⟨Function.minimalPeriod (advance m poly) 1 * e, by rw [hc, Nat.mul_left_comm]⟩
  have hdiv : (2 ^ (m + 1) - 1) / q = Function.minimalPeriod (advance m poly) 1 * e := by
    rw [hc, Nat.mul_left_comm, Nat.mul_div_cancel_left _ hq.pos]
  have hle : (2 ^ (m + 1) - 1) / q ≤ 2 ^ (m + 1) - 1 := Nat.div_le_self _ _
  refine h.away q hq hdvd ?_
  rw [power_eq h.toFeedback (by omega), hdiv]
  exact (isPeriodicPt_minimalPeriod (advance m poly) 1).mul_const e

theorem Generates.exists_turns (h : Generates m poly) {v : Nat} (hv : v ≠ 0) (hlt : v < 2 ^ (m + 1)) :
    ∃ j < 2 ^ (m + 1) - 1, (advance m poly)^[j] 1 = v := by
  have hone : 1 < 2 ^ (m + 1) := Nat.one_lt_two_pow (Nat.succ_ne_zero m)
  have hinj : Set.InjOn (fun j => (advance m poly)^[j] 1) (Finset.range (2 ^ (m + 1) - 1)) := by
    rw [Finset.coe_range, ← h.minimalPeriod]
    exact iterate_injOn_Iio_minimalPeriod
  -- as many numbers are reached as there are
  have hsub : (Finset.range (2 ^ (m + 1) - 1)).image (fun j => (advance m poly)^[j] 1) ⊆ Finset.Ico 1 (2 ^ (m + 1)) := by
    intro u hu
    obtain ⟨j, -, rfl⟩ := Finset.mem_image.mp hu
    exact Finset.mem_Ico.mpr ⟨Nat.pos_of_ne_zero (iterate_ne_zero h.toFeedback j Nat.one_ne_zero), iterate_lt h.toFeedback j hone⟩
  have hall := Finset.eq_of_subset_of_card_le hsub (by
    rw [Finset.card_image_of_injOn hinj, Finset.card_range, Nat.card_Ico])
  have hmem : v ∈ Finset.Ico 1 (2 ^ (m + 1)) := Finset.mem_Ico.mpr ⟨Nat.pos_of_ne_zero hv, hlt⟩
  rw [← hall] at hmem
  obtain ⟨j, hj, rfl⟩ := Finset.mem_image.mp hmem
  exact ⟨j, Finset.mem_range.mp hj, rfl⟩

/-- From every number but 0 to every other one. -/
theorem Generates.reaches (h : Generates m poly) {u v : Nat} (hu : u ≠ 0) (hult : u < 2 ^ (m + 1)) (hv : v ≠ 0)
    (hvlt : v < 2 ^ (m + 1)) : ∃ j < 2 ^ (m + 1) - 1, (advance m poly)^[j] u = v := by
  obtain ⟨a, ha, rfl⟩ := h.exists_turns hu hult
  obtain ⟨b, hb, rfl⟩ := h.exists_turns hv hvlt
  have hperiodic : Function.IsPeriodicPt (advance m poly) (2 ^ (m + 1) - 1) 1 := by
    rw [← h.minimalPeriod]
    exact isPeriodicPt_minimalPeriod _ _
  refine ⟨(b + (2 ^ (m + 1) - 1 - a)) % (2 ^ (m + 1) - 1), Nat.mod_lt _ (by omega), ?_⟩
  rw [← iterate_add_apply, ← hperiodic.iterate_mod_apply (_ + a), Nat.mod_add_mod]
  have hsum : b + (2 ^ (m + 1) - 1 - a) + a = b + (2 ^ (m + 1) - 1) := by omega
  rw [hsum, Nat.add_mod_right, hperiodic.iterate_mod_apply]

end DeepFabric.Lib.ShiftRegister
