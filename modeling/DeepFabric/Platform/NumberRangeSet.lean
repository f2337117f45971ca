/-
  DeepFabric.Platform.NumberRangeSet — the greatest index of a set and which of the eight below it
  are in the set, as one bit each (`NumberRangeSet.h`, of file indexes and a byte).

  The range is a byte, but shifting it happens in an int. What a shift by 32 or more does is
  undefined, so the left shift is a parameter (`Documented`: what the language promises). Indexes
  are numbers; nothing here leaves 16 bits, since only smaller ones are subtracted from greater ones.

  As built: `far_index_adds_another` and `argument_moved`.
-/
import Mathlib.Algebra.GroupWithZero.Nat
import Mathlib.Data.List.Induction
import Mathlib.Data.Nat.Basic
import Mathlib.Logic.Function.Basic
import DeepFabric.Lib.SortedMap

namespace DeepFabric.Platform.NumberRangeSets

open DeepFabric.Lib List
open BitVec (allOnes eq_of_getLsbD_eq getLsbD_allOnes getLsbD_or getLsbD_setWidth twoPow twoPow_eq)

instance shortRange : NeZero 65536 := ⟨by decide⟩

def RANGESIZE : Nat := 8

/-- The left shift of an int. -/
abbrev Shift := BitVec 32 → Nat → BitVec 32

def Documented (shl : Shift) : Prop := ∀ x count, count < 32 → shl x count = x <<< count

structure NumberRangeSet where
  empty : Bool
  index : Nat
  range : BitVec 8
  deriving DecidableEq

/-- What a call leaves, returns and reports. -/
structure Answer where
  set : NumberRangeSet
  result : Bool
  overflow : Bool
  deriving DecidableEq

section

variable (shl : Shift)

/-- `range <<= count`. -/
def shiftRange (range : BitVec 8) (count : Nat) : BitVec 8 := (shl (range.setWidth 32) count).setWidth 8

/-- `range |= (1 << bit)`. -/
def setBit (range : BitVec 8) (bit : Nat) : BitVec 8 := (range.setWidth 32 ||| shl 1 bit).setWidth 8

/-- `(range & (1 << bit)) != 0`. -/
def hasBit (range : BitVec 8) (bit : Nat) : Bool := (range.setWidth 32 &&& 1#32 <<< bit) != 0

namespace NumberRangeSet

def new : NumberRangeSet := ⟨true, 0, 0⟩

def add (s : NumberRangeSet) (index : Nat) : Answer :=
  if s.empty then ⟨{ s with empty := false, index := index }, true, false⟩
  else if index = s.index then ⟨s, true, false⟩
  else if s.index < index then
    ⟨{ s with index := index, range := setBit shl (shiftRange shl s.range (index - s.index)) (index - s.index - 1) }, true,
      RANGESIZE < index - s.index || s.range >>> (RANGESIZE - (index - s.index)) != 0⟩
  else if RANGESIZE < s.index - index then ⟨s, false, true⟩
  else ⟨{ s with range := setBit shl s.range (s.index - index - 1) }, true, false⟩

def contains (s : NumberRangeSet) (index : Nat) : Bool :=
  if s.empty || s.index < index then false
  else if index = s.index then true
  else if RANGESIZE < s.index - index then false
  else hasBit s.range (s.index - index - 1)

/-- The overflow is the caller's variable: with an empty argument it stays as it was. -/
def addAll (s set : NumberRangeSet) (overflow : Bool) : Answer :=
  if set.empty then ⟨s, true, overflow⟩
  else if s.empty || s.index < set.index then
    let added := s.add shl set.index
    ⟨{ added.set with range := added.set.range ||| set.range }, true, added.overflow⟩
  else
    let normalized := set.add shl s.index
    let s := { s with range := s.range ||| normalized.set.range }
    ⟨s, s.contains set.index, normalized.overflow⟩

def toSet (s : NumberRangeSet) : SortedMap Nat Unit :=
  if s.empty then .empty
  else
    (List.range RANGESIZE).foldl
      (fun set x => if hasBit s.range x && (x + 1 ≤ s.index : Bool) then set.put (s.index - (x + 1)) () else set)
      (SortedMap.empty.put s.index ())

end NumberRangeSet

end

open NumberRangeSet

/-! ## Sequences of add -/

/-- The set after the indexes were added to an empty one. -/
def addsOf (shl : Shift) (l : List Nat) : NumberRangeSet := l.foldl (fun s index => (s.add shl index).set) new

/-- What the next `add` should do: keep the indexes within eight of the greatest, turn down exactly what is further below,
    and report an overflow exactly if it does or one that was there is lost. -/
structure AddsRight (shl : Shift) (l : List Nat) (index : Nat) (a : Answer) : Prop where
  contains : ∀ x, a.set.contains x = true ↔ x ∈ l ++ [index] ∧ ∀ y ∈ l ++ [index], y ≤ x + 8
  greatest : a.set.index ∈ l ++ [index] ∧ ∀ y ∈ l ++ [index], y ≤ a.set.index
  toSet : ∀ x, a.set.toSet.get x = some () ↔ a.set.contains x = true
  result : a.result = false ↔ ∃ y ∈ l, index + 8 < y
  overflow : a.overflow = true ↔ a.result = false ∨ ∃ x, (addsOf shl l).contains x = true ∧ a.set.contains x = false

/-- The shift of x86, which takes the count modulo 32. -/
def shiftModulo : Shift := fun x count => x <<< (count % 32)

theorem shiftModulo_documented : Documented shiftModulo := by
  intro x count hcount
  rw [shiftModulo, Nat.mod_eq_of_lt hcount]

/-- As built: with 0 and then 33 in the set, 32 is in the set. -/
theorem far_index_adds_another : Documented shiftModulo ∧ ¬AddsRight shiftModulo [0] 33 ((addsOf shiftModulo [0]).add shiftModulo 33) := by
  refine ⟨shiftModulo_documented, fun h => ?_⟩
  have h32 := (h.contains 32).mp (by decide)
  exact absurd h32.1 (by decide)

/-! ## Bits -/

section Bits

variable {shl : Shift} {range : BitVec 8} {k j : Nat}

theorem hasBit_iff (hk : k < 8) : hasBit range k = true ↔ range.getLsbD k = true := by
  have hpow : 1#32 <<< k = twoPow 32 k := (twoPow_eq 32 k).symm
  have hbit : (range.setWidth 32).getLsbD k = range.getLsbD k := by
    rw [getLsbD_setWidth]
    simp [show k < 32 by omega]
  rw [hasBit, hpow, BitVec.and_twoPow, hbit]
  cases range.getLsbD k with
  | false => simp
  | true =>
    have hne : twoPow 32 k ≠ 0#32 := by
      intro h
      have := congrArg (·.getLsbD k) h
      simp [show k < 32 by omega] at this
    simpa using hne

theorem setBit_bit (hshl : Documented shl) (hk : k < 32) : (setBit shl range k).getLsbD j = (decide (j < 8) && (range.getLsbD j || decide (j = k))) := by
  have hpow : (1 : BitVec 32) <<< k = twoPow 32 k := (twoPow_eq 32 k).symm
  rw [setBit, hshl _ _ hk, hpow, getLsbD_setWidth, getLsbD_or, getLsbD_setWidth, BitVec.getLsbD_twoPow]
  by_cases hj : j < 8
  · simp [hj, show j < 32 by omega, hk, eq_comm]
  · simp [hj]

theorem shiftRange_bit (hshl : Documented shl) (hk : k < 32) :
    (shiftRange shl range k).getLsbD j = (decide (j < 8) && decide (k ≤ j) && range.getLsbD (j - k)) := by
  rw [shiftRange, hshl _ _ hk, getLsbD_setWidth, BitVec.getLsbD_shiftLeft, getLsbD_setWidth]
  by_cases hj : j < 8
  · by_cases hkj : k ≤ j
    · simp [hj, hkj, show j < 32 by omega, show ¬j < k by omega, show j - k < 32 by omega]
    · simp [hkj, show j < k by omega]
  · simp [hj]

theorem lt_of_bit (h : range.getLsbD k = true) : k < 8 := BitVec.lt_of_getLsbD h

theorem shiftRight_ne_zero : (range >>> k != 0) = true ↔ ∃ j, k ≤ j ∧ range.getLsbD j = true := by
  rw [bne_iff_ne]
  constructor
  · intro h
    refine Classical.byContradiction fun hnone => h (eq_of_getLsbD_eq fun i _ => ?_)
    rw [BitVec.getLsbD_ushiftRight]
    have := fun hbit => hnone ⟨k + i, Nat.le_add_right k i, hbit⟩
    simpa using this
  · intro ⟨j, hj, hbit⟩ h
    have := congrArg (·.getLsbD (j - k)) h
    simp only [BitVec.getLsbD_ushiftRight, Nat.add_sub_cancel' hj, hbit] at this
    simp at this

end Bits

/-! ## One add -/

/-- No bit stands for a number below 0. -/
structure Sound (s : NumberRangeSet) : Prop where
  blank : s.empty = true → s.range = 0
  bits : ∀ k, s.range.getLsbD k = true → k < s.index

section Add

variable {shl : Shift} {s : NumberRangeSet} {index x : Nat}

/-- An index in the window is the greatest one, or its bit is set. -/
theorem contains_iff : s.contains x = true ↔ s.empty = false ∧ (x = s.index ∨ ∃ k, s.range.getLsbD k = true ∧ x + k + 1 = s.index) := by
  unfold NumberRangeSet.contains
  cases he : s.empty with
  | true => simp
  | false =>
    simp only [Bool.false_or, decide_eq_true_eq, true_and]
    split_ifs with hgt heq hfar
    · simp only [false_iff]
      rintro (h | ⟨k, -, h⟩) <;> omega
    · simp [heq]
    · simp only [false_iff]
      rintro (h | ⟨k, hk, h⟩)
      · exact heq h
      · have := lt_of_bit hk
        rw [RANGESIZE] at hfar
        omega
    · rw [RANGESIZE] at hfar
      rw [hasBit_iff (by omega)]
      constructor
      · intro h
        exact .inr ⟨_, h, by omega⟩
      · rintro (h | ⟨k, hk, h⟩)
        · exact absurd h heq
        · rwa [show s.index - x - 1 = k by omega]

theorem near_of_contains (h : s.contains x = true) : x ≤ s.index ∧ s.index ≤ x + 8 := by
  rcases (contains_iff.mp h).2 with h | ⟨k, hk, h⟩
  · omega
  · have := lt_of_bit hk
    omega

/-- The set a new greatest index leaves. -/
def raised (shl : Shift) (s : NumberRangeSet) (index : Nat) : NumberRangeSet :=
  { s with index := index, range := setBit shl (shiftRange shl s.range (index - s.index)) (index - s.index - 1) }

/-- The set an index in the window leaves. -/
def noted (shl : Shift) (s : NumberRangeSet) (index : Nat) : NumberRangeSet := { s with range := setBit shl s.range (s.index - index - 1) }

theorem add_cases (shl : Shift) (s : NumberRangeSet) (index : Nat) :
    s.empty = true ∧ s.add shl index = ⟨{ s with empty := false, index := index }, true, false⟩ ∨
      s.empty = false ∧ index = s.index ∧ s.add shl index = ⟨s, true, false⟩ ∨
      s.empty = false ∧ s.index < index ∧
        s.add shl index = ⟨raised shl s index, true, 8 < index - s.index || s.range >>> (8 - (index - s.index)) != 0⟩ ∨
      s.empty = false ∧ index + 8 < s.index ∧ s.add shl index = ⟨s, false, true⟩ ∨
      s.empty = false ∧ index < s.index ∧ s.index ≤ index + 8 ∧ s.add shl index = ⟨noted shl s index, true, false⟩ := by
  unfold NumberRangeSet.add
  cases he : s.empty with
  | true => exact .inl ⟨rfl, rfl⟩
  | false =>
    rw [RANGESIZE]
    simp only [Bool.false_eq_true, if_false, false_and, true_and, false_or]
    split_ifs with heq hgt hfar
    · exact .inl ⟨heq, rfl⟩
    · exact .inr (.inl ⟨hgt, by rw [raised, he]⟩)
    · exact .inr (.inr (.inl ⟨by omega, rfl⟩))
    · exact .inr (.inr (.inr ⟨by omega, by omega, by rw [noted, he]⟩))

theorem add_empty : (s.add shl index).set.empty = false := by
  rcases add_cases shl s index with ⟨-, h⟩ | ⟨he, -, h⟩ | ⟨he, -, h⟩ | ⟨he, -, h⟩ | ⟨he, -, -, h⟩ <;> rw [h]
  · exact he
  · exact he
  · exact he
  · exact he

theorem add_index : (s.add shl index).set.index = if s.empty = true then index else max s.index index := by
  rcases add_cases shl s index with ⟨he, h⟩ | ⟨he, hi, h⟩ | ⟨he, hi, h⟩ | ⟨he, hi, h⟩ | ⟨he, hi, -, h⟩ <;> rw [h]
  · exact (if_pos he).symm
  · rw [he, hi]
    simp
  · rw [he]
    exact (Nat.max_eq_right (Nat.le_of_lt hi)).symm
  · rw [he]
    exact (Nat.max_eq_left (show index ≤ s.index by omega)).symm
  · rw [he]
    exact (Nat.max_eq_left (Nat.le_of_lt hi)).symm

theorem add_result : (s.add shl index).result = false ↔ s.empty = false ∧ index + 8 < s.index := by
  rcases add_cases shl s index with ⟨he, h⟩ | ⟨he, hi, h⟩ | ⟨he, hi, h⟩ | ⟨he, hi, h⟩ | ⟨he, hi, hn, h⟩ <;> rw [h, he] <;> simp <;> omega

/-- At or above its index a set reports exactly what falls out of the window. -/
theorem overflow_above (shl : Shift) (hs : Sound s) (he : s.empty = false) (hle : s.index ≤ index) :
    (s.add shl index).overflow = true ↔ ∃ x, s.contains x = true ∧ x + 8 < index := by
  rcases add_cases shl s index with ⟨h, -⟩ | ⟨-, hi, h⟩ | ⟨-, hi, h⟩ | ⟨-, hi, -⟩ | ⟨-, hi, -, -⟩
  · rw [he] at h
    cases h
  · rw [h]
    simp only [Bool.false_eq_true, false_iff]
    intro ⟨x, hx, hfar⟩
    have := near_of_contains hx
    omega
  · rw [h]
    simp only [Bool.or_eq_true, decide_eq_true_eq, shiftRight_ne_zero]
    constructor
    · rintro (hfar | ⟨j, hj, hbit⟩)
      · exact ⟨s.index, contains_iff.mpr ⟨he, .inl rfl⟩, by omega⟩
      · have := lt_of_bit hbit
        have := hs.bits j hbit
        exact ⟨s.index - (j + 1), contains_iff.mpr ⟨he, .inr ⟨j, hbit, by omega⟩⟩, by omega⟩
    · intro ⟨x, hx, hfar⟩
      rcases (contains_iff.mp hx).2 with rfl | ⟨k, hbit, hk⟩
      · exact .inl (by omega)
      · by_cases hwide : 8 < index - s.index
        · exact .inl hwide
        · exact .inr ⟨k, by omega, hbit⟩
  · omega
  · omega

variable (hshl : Documented shl) (hs : Sound s) (hnear : s.empty = false → index < s.index + 32)

include hshl

theorem raised_bit (hgt : s.index < index) (hnear : index < s.index + 32) (k : Nat) : (raised shl s index).range.getLsbD k = true ↔
    k < 8 ∧ (index = s.index + k + 1 ∨ ∃ j, s.range.getLsbD j = true ∧ index + j = s.index + k) := by
  simp only [raised, setBit_bit hshl (show index - s.index - 1 < 32 by omega), shiftRange_bit hshl (show index - s.index < 32 by omega),
    Bool.and_eq_true, Bool.or_eq_true, decide_eq_true_eq]
  refine and_congr_right fun hk => ⟨?_, ?_⟩
  · rintro (⟨⟨-, hle⟩, hbit⟩ | rfl)
    · exact .inr ⟨_, hbit, by omega⟩
    · exact .inl (by omega)
  · rintro (h | ⟨j, hbit, h⟩)
    · exact .inr (by omega)
    · exact .inl ⟨⟨hk, by omega⟩, by rwa [show k - (index - s.index) = j by omega]⟩

theorem noted_bit (hlt : index < s.index) (hle : s.index ≤ index + 8) (k : Nat) : (noted shl s index).range.getLsbD k = true ↔
    s.range.getLsbD k = true ∨ index + k + 1 = s.index := by
  simp only [noted, setBit_bit hshl (show s.index - index - 1 < 32 by omega), Bool.and_eq_true, Bool.or_eq_true, decide_eq_true_eq]
  constructor
  · rintro ⟨-, hbit | rfl⟩
    · exact .inl hbit
    · exact .inr (by omega)
  · rintro (hbit | h)
    · exact ⟨lt_of_bit hbit, .inl hbit⟩
    · exact ⟨by omega, .inr (by omega)⟩

include hs

theorem add_sound : Sound (s.add shl index).set := by
  refine ⟨fun h => absurd h (by simp [add_empty]), fun k hk => ?_⟩
  have hk8 := lt_of_bit hk
  rcases add_cases shl s index with ⟨he, h⟩ | ⟨he, hi, h⟩ | ⟨he, hi, h⟩ | ⟨he, hi, h⟩ | ⟨he, hi, hn, h⟩ <;> rw [h] at hk ⊢
  · simp [hs.blank he] at hk
  · exact hs.bits k hk
  · show k < index
    by_cases hfar : index < s.index + 32
    · rcases (raised_bit hshl hi hfar k).mp hk with ⟨-, h | ⟨j, hbit, h⟩⟩
      · omega
      · have := hs.bits j hbit
        omega
    · omega
  · exact hs.bits k hk
  · show k < s.index
    rcases (noted_bit hshl hi hn k).mp hk with hbit | h
    · exact hs.bits k hbit
    · omega

include hnear

/-- An `add` keeps what is within eight of the greatest. -/
theorem add_contains : (s.add shl index).set.contains x = true ↔
    (s.contains x = true ∨ x = index) ∧ (s.add shl index).set.index ≤ x + 8 := by
  rw [contains_iff, add_empty, add_index]
  rcases add_cases shl s index with ⟨he, h⟩ | ⟨he, hi, h⟩ | ⟨he, hi, h⟩ | ⟨he, hi, h⟩ | ⟨he, hi, hn, h⟩ <;> rw [h]
  · have hbits : ∀ k, s.range.getLsbD k = false := by simp [hs.blank he]
    have hnone : s.contains x = false := by simp [NumberRangeSet.contains, he]
    simp [hbits, hnone, he]
    omega
  · rw [he, contains_iff, hi, Nat.max_self]
    simp only [he, true_and, Bool.false_eq_true, if_false]
    constructor
    · intro hx
      refine ⟨.inl hx, ?_⟩
      rcases hx with rfl | ⟨k, hk, hx⟩
      · omega
      · have := lt_of_bit hk
        omega
    · rintro ⟨hx | rfl, -⟩
      · exact hx
      · exact .inl rfl
  · -- a new greatest: the window moves
    have hfar := hnear he
    rw [he, contains_iff, Nat.max_eq_right (Nat.le_of_lt hi)]
    simp only [he, raised_bit hshl hi hfar, true_and, Bool.false_eq_true, if_false]
    show (x = index ∨ ∃ k, _ ∧ x + k + 1 = index) ↔ _
    constructor
    · rintro (rfl | ⟨k, ⟨hk, h | ⟨j, hbit, h⟩⟩, hx⟩)
      · exact ⟨.inr rfl, Nat.le_add_right _ _⟩
      · exact ⟨.inl (.inl (by omega)), by omega⟩
      · exact ⟨.inl (.inr ⟨j, hbit, by omega⟩), by omega⟩
    · rintro ⟨(rfl | ⟨j, hbit, hx⟩) | rfl, hle⟩
      · exact .inr ⟨index - s.index - 1, ⟨by omega, .inl (by omega)⟩, by omega⟩
      · exact .inr ⟨j + (index - s.index), ⟨by omega, .inr ⟨j, hbit, by omega⟩⟩, by omega⟩
      · exact .inl rfl
  · -- too far below: turned down
    rw [he, contains_iff, Nat.max_eq_left (by omega)]
    simp only [he, true_and, Bool.false_eq_true, if_false]
    constructor
    · intro hx
      refine ⟨.inl hx, ?_⟩
      rcases hx with rfl | ⟨k, hk, hx⟩
      · omega
      · have := lt_of_bit hk
        omega
    · rintro ⟨hx | rfl, hle⟩
      · exact hx
      · omega
  · -- one more bit
    rw [he, contains_iff, Nat.max_eq_left (Nat.le_of_lt hi)]
    simp only [he, noted_bit hshl hi hn, true_and, Bool.false_eq_true, if_false]
    show (x = s.index ∨ ∃ k, _ ∧ x + k + 1 = s.index) ↔ _
    constructor
    · rintro (rfl | ⟨k, hbit | h, hx⟩)
      · exact ⟨.inl (.inl rfl), Nat.le_add_right _ _⟩
      · have := lt_of_bit hbit
        exact ⟨.inl (.inr ⟨k, hbit, hx⟩), by omega⟩
      · exact ⟨.inr (by omega), by omega⟩
    · rintro ⟨(rfl | ⟨k, hbit, hx⟩) | rfl, hle⟩
      · exact .inl rfl
      · exact .inr ⟨k, .inl hbit, hx⟩
      · exact .inr ⟨s.index - x - 1, .inr (by omega), by omega⟩

/-- What an `add` loses is what falls out of the window. -/
theorem lost_iff : (s.contains x = true ∧ (s.add shl index).set.contains x = false) ↔
    s.contains x = true ∧ x + 8 < (s.add shl index).set.index := by
  refine and_congr_right fun hx => ?_
  rw [← Bool.not_eq_true, add_contains hshl hs hnear]
  simp only [hx, true_or, true_and, Nat.not_le]

/-- An overflow is reported exactly if the index is turned down, or one that was there is lost. -/
theorem add_overflow : (s.add shl index).overflow = true ↔
    (s.add shl index).result = false ∨ ∃ x, s.contains x = true ∧ (s.add shl index).set.contains x = false := by
  simp only [lost_iff hshl hs hnear, add_index, add_result]
  rcases add_cases shl s index with ⟨he, h⟩ | ⟨he, hi, h⟩ | ⟨he, hi, h⟩ | ⟨he, hi, h⟩ | ⟨he, hi, hn, h⟩ <;> rw [h]
  · have hnone : ∀ x, s.contains x = false := fun x => by simp [NumberRangeSet.contains, he]
    simp [hnone, he]
  · simp only [he, Bool.false_eq_true, false_iff, if_false]
    rintro (h | ⟨x, hx, h⟩)
    · omega
    · have := near_of_contains hx
      omega
  · have hle : s.index ≤ index := Nat.le_of_lt hi
    have habove := overflow_above shl hs he hle
    rw [h] at habove
    have hnot : ¬index + 8 < s.index := by omega
    simp only [he, habove, Nat.max_eq_right hle, hnot, and_false, false_or, Bool.false_eq_true, if_false]
  · simp only [he, true_iff]
    exact .inl ⟨trivial, hi⟩
  · simp only [he, Bool.false_eq_true, false_iff, if_false]
    rintro (h | ⟨x, hx, h⟩)
    · omega
    · have := near_of_contains hx
      omega

end Add

/-! ## A sequence of adds -/

section Adds

variable {shl : Shift} {s : NumberRangeSet} {l : List Nat} {x : Nat}

theorem addsOf_concat (index : Nat) : addsOf shl (l ++ [index]) = ((addsOf shl l).add shl index).set := by
  rw [addsOf, foldl_append]
  rfl

theorem addsOf_empty : (addsOf shl l).empty = l.isEmpty := by
  rcases eq_nil_or_concat l with rfl | ⟨l, index, rfl⟩
  · rfl
  · rw [concat_eq_append, addsOf_concat, add_empty]
    simp

theorem addsOf_greatest (shl : Shift) (h : l ≠ []) : (addsOf shl l).index ∈ l ∧ ∀ y ∈ l, y ≤ (addsOf shl l).index := by
  induction l using List.reverseRecOn with
  | nil => exact absurd rfl h
  | append_singleton l index ih =>
    rw [addsOf_concat, add_index, addsOf_empty]
    cases l with
    | nil => simp
    | cons a l =>
      obtain ⟨hmem, hmax⟩ := ih (cons_ne_nil a l)
      simp only [isEmpty_cons, Bool.false_eq_true, if_false]
      refine ⟨?_, fun y hy => ?_⟩
      · rcases Nat.le_total (addsOf shl (a :: l)).index index with hle | hle
        · rw [Nat.max_eq_right hle]
          exact mem_append_right _ (mem_singleton_self index)
        · rw [Nat.max_eq_left hle]
          exact mem_append_left _ hmem
      · rcases mem_append.mp hy with hy | hy
        · exact Nat.le_trans (hmax y hy) (Nat.le_max_left _ _)
        · exact mem_singleton.mp hy ▸ Nat.le_max_right _ _

theorem mem_toSet : s.toSet.get x = some () ↔ s.contains x = true := by
  have hbound (set : SortedMap Nat Unit) : set.get x = some () ↔ (set.get x).isSome = true := by
    cases set.get x <;> simp
  rw [contains_iff, hbound]
  unfold NumberRangeSet.toSet
  cases he : s.empty with
  | true => simp
  | false =>
    simp only [Bool.false_eq_true, if_false, true_and]
    rw [SortedMap.isSome_get_puts (fun k => hasBit s.range k && (k + 1 ≤ s.index : Bool)) fun k => s.index - (k + 1)]
    simp only [SortedMap.get_put, Bool.and_eq_true, decide_eq_true_eq]
    refine or_congr ?_ (exists_congr fun k => ⟨fun h => ?_, fun h => ?_⟩)
    · by_cases h : x = s.index <;> simp [h]
    · obtain ⟨hk, ⟨hbit, hle⟩, hx⟩ := h
      exact ⟨(hasBit_iff (mem_range.mp hk)).mp hbit, by omega⟩
    · obtain ⟨hbit, hx⟩ := h
      have hk := lt_of_bit hbit
      exact ⟨mem_range.mpr hk, ⟨(hasBit_iff hk).mpr hbit, by omega⟩, by omega⟩

theorem new_sound : Sound new := ⟨fun _ => rfl, fun k hk => by simp [new] at hk⟩

theorem addsOf_sound (hshl : Documented shl) : Sound (addsOf shl l) := by
  induction l using List.reverseRecOn with
  | nil => exact new_sound
  | append_singleton l index ih =>
    rw [addsOf_concat]
    exact add_sound hshl ih

/-- No index is 32 or more above all before it. -/
def Near (l : List Nat) : Prop := ∀ pre index, pre ++ [index] <+: l → pre ≠ [] → ∃ y ∈ pre, index < y + 32

theorem Near.of_append {l l' : List Nat} (h : Near (l ++ l')) : Near l := fun pre index hpre => h pre index (hpre.trans (prefix_append l l'))

theorem near_last (h : Near (l ++ [x])) (he : (addsOf shl l).empty = false) : x < (addsOf shl l).index + 32 := by
  rw [addsOf_empty, isEmpty_eq_false_iff] at he
  obtain ⟨y, hy, hlt⟩ := h l x (prefix_refl _) he
  have := (addsOf_greatest shl he).2 y hy
  omega

/-- The set has what was added and is within eight of the greatest. -/
theorem addsOf_contains (hshl : Documented shl) (h : Near l) : (addsOf shl l).contains x = true ↔ x ∈ l ∧ ∀ y ∈ l, y ≤ x + 8 := by
  have hgreatest {l : List Nat} (hne : l ≠ []) : (∀ y ∈ l, y ≤ x + 8) ↔ (addsOf shl l).index ≤ x + 8 := by
    obtain ⟨hmem, hmax⟩ := addsOf_greatest shl hne
    exact ⟨fun h => h _ hmem, fun h y hy => Nat.le_trans (hmax y hy) h⟩
  induction l using List.reverseRecOn with
  | nil => simp [addsOf, new, NumberRangeSet.contains]
  | append_singleton l index ih =>
    have hne : l ++ [index] ≠ [] := by simp
    rw [hgreatest hne, addsOf_concat, add_contains hshl (addsOf_sound hshl) (near_last h)]
    refine and_congr_left fun hle => ?_
    rw [mem_append, mem_singleton]
    refine or_congr_left ((ih h.of_append).trans ⟨fun hx => hx.1, fun hx => ⟨hx, fun y hy => ?_⟩⟩)
    rw [← addsOf_concat] at hle
    exact Nat.le_trans ((addsOf_greatest shl hne).2 y (mem_append_left _ hy)) hle

theorem addsRight_of_near (hshl : Documented shl) {index : Nat} (h : Near (l ++ [index])) : AddsRight shl l index ((addsOf shl l).add shl index) where
  contains x := by
    rw [← addsOf_concat]
    exact addsOf_contains hshl h
  greatest := by
    rw [← addsOf_concat]
    exact addsOf_greatest _ (by simp)
  toSet _ := mem_toSet
  result := by
    rw [add_result, addsOf_empty, isEmpty_eq_false_iff]
    constructor
    · intro ⟨hne, hlt⟩
      exact ⟨_, (addsOf_greatest _ hne).1, hlt⟩
    · intro ⟨y, hy, hlt⟩
      have hne : l ≠ [] := ne_nil_of_mem hy
      have := (addsOf_greatest shl hne).2 y hy
      exact ⟨hne, by omega⟩
  overflow := add_overflow hshl (addsOf_sound hshl) (near_last h)

/-- A shift that fills the byte where the language leaves it open. -/
def shiftFilling : Shift := fun x count => if count < 32 then x <<< count else allOnes 32

theorem shiftFilling_documented : Documented shiftFilling := fun _ _ hcount => if_pos hcount

theorem setBit_filling {k : Nat} (range : BitVec 8) (hk : 31 ≤ k) : setBit shiftFilling (shiftRange shiftFilling range (k + 1)) k = allOnes 8 := by
  have hall : shiftRange shiftFilling range (k + 1) = allOnes 8 := by
    rw [shiftRange, shiftFilling, if_neg (by omega)]
    decide
  rw [setBit, hall]
  refine eq_of_getLsbD_eq fun j hj => ?_
  rw [getLsbD_setWidth, getLsbD_or, getLsbD_setWidth, getLsbD_allOnes]
  simp [hj, show j < 32 by omega]

end Adds

/-- Whatever the shift does with a count it need not take, every `add` of the sequence does what it should, exactly if no index is
    32 or more above all before it. -/
theorem adds_iff (es : List Nat) :
    (∀ shl, Documented shl → ∀ l index, l ++ [index] <+: es → AddsRight shl l index ((addsOf shl l).add shl index)) ↔ Near es := by
  constructor
  · intro h l index hpre hne
    refine Classical.byContradiction fun hfar => ?_
    obtain ⟨hmem, hmax⟩ := addsOf_greatest shiftFilling hne
    have hgap : (addsOf shiftFilling l).index + 32 ≤ index := Nat.not_lt.mp fun hlt => hfar ⟨_, hmem, hlt⟩
    have hright := (h shiftFilling shiftFilling_documented l index hpre).contains (index - 1)
    have hcontains : ((addsOf shiftFilling l).add shiftFilling index).set.contains (index - 1) = true := by
      have he : (addsOf shiftFilling l).empty = false := by rwa [addsOf_empty, isEmpty_eq_false_iff]
      rw [contains_iff, add_empty, add_index, if_neg (by simp [he]), Nat.max_eq_right (by omega)]
      refine ⟨rfl, .inr ⟨0, ?_, by omega⟩⟩
      rw [NumberRangeSet.add, if_neg (by simp [he]), if_neg (by omega), if_pos (by omega)]
      rw [show index - (addsOf shiftFilling l).index = index - (addsOf shiftFilling l).index - 1 + 1 by omega]
      simp only [Nat.add_sub_cancel]
      rw [setBit_filling _ (by omega)]
      decide
    rcases mem_append.mp (hright.mp hcontains).1 with hl | hl
    · have := hmax _ hl
      omega
    · have := mem_singleton.mp hl
      omega
  · intro h shl hshl l index hpre
    exact addsRight_of_near hshl fun pre i hi => h pre i (hi.trans hpre)

/-! ## A set that refers to variables -/

/-- The variables: indexes and ranges, each by its own address. -/
structure Memory where
  index : Nat → Nat
  range : Nat → BitVec 8

/-- `NumberRangeSet<ushorttype&, ubytetype&, ushorttype>`: it holds references, and is never empty. -/
structure FileRangeSet where
  index : Nat
  range : Nat

namespace Memory

def read (m : Memory) (s : FileRangeSet) : NumberRangeSet := ⟨false, m.index s.index, m.range s.range⟩

def write (m : Memory) (s : FileRangeSet) (set : NumberRangeSet) : Memory :=
  ⟨Function.update m.index s.index set.index, Function.update m.range s.range set.range⟩

/-- The parameter is a reference too; it is read before the set's own index is written. -/
def add (shl : Shift) (m : Memory) (s : FileRangeSet) (index : Nat) : Memory × Bool × Bool :=
  let a := (m.read s).add shl (m.index index)
  (m.write s a.set, a.result, a.overflow)

/-- `range |= other`. -/
def orRange (m : Memory) (range other : Nat) : Memory := { m with range := Function.update m.range range (m.range range ||| m.range other) }

/-- `setIndex` is another name for the argument's index, and the copy of the argument refers to the argument's variables. -/
def addAll (shl : Shift) (m : Memory) (s set : FileRangeSet) : Memory × Bool × Bool :=
  let setIndex := set.index
  if m.index s.index < m.index setIndex then
    let (m, _, overflow) := m.add shl s setIndex
    (m.orRange s.range set.range, true, overflow)
  else
    let normalized := set
    let (m, _, overflow) := m.add shl normalized s.index
    let m := m.orRange s.range normalized.range
    (m, (m.read s).contains (m.index setIndex), overflow)

end Memory

/-! ## addAll -/

/-- What `addAll` should do with the sets `a` and `b`: an empty `b` has no index. -/
structure JoinsRight (a b : NumberRangeSet) (r : Answer) : Prop where
  contains : ∀ x, r.set.contains x = true ↔
    (a.contains x = true ∨ b.contains x = true) ∧ ∀ y, a.contains y = true ∨ b.contains y = true → y ≤ x + 8
  overflow : r.overflow = true ↔ ∃ x, (a.contains x = true ∨ b.contains x = true) ∧ r.set.contains x = false
  result : r.result = true ↔ b.empty = true ∨ r.set.contains b.index = true

/-- The same for sets that refer to variables, with the second left unchanged. -/
def JoinsInPlace (m : Memory) (s set : FileRangeSet) (r : Memory × Bool × Bool) : Prop :=
  JoinsRight (m.read s) (m.read set) ⟨r.1.read s, r.2.1, r.2.2⟩ ∧ r.1.read set = m.read set

/-- As built: with 20 in the one set and 5 in the other, the other ends up with 20, and 5 is said to be contained. -/
theorem argument_moved :
    let m : Memory := ⟨fun i => if i = 0 then 20 else 5, fun _ => 0⟩
    let r := m.addAll shiftModulo ⟨0, 0⟩ ⟨1, 1⟩
    (r.1.read ⟨1, 1⟩).index = 20 ∧ r.2.1 = true ∧ (r.1.read ⟨0, 0⟩).contains 5 = false ∧ ¬JoinsInPlace m ⟨0, 0⟩ ⟨1, 1⟩ r := by
  refine ⟨by decide, by decide, by decide, fun h => ?_⟩
  exact absurd (congrArg NumberRangeSet.index h.2) (by decide)

/-- The greatest index of the higher set is less than 32 above that of the lower one, or nothing below it can be wrong. -/
def InReach (low high : NumberRangeSet) : Prop := low.empty = true ∨ high.index < low.index + 32 ∨ high.range = allOnes 8

/-- Where `addAll` joins the sets as it should. -/
def Joins (a b : NumberRangeSet) (overflow : Bool) : Prop :=
  if b.empty then overflow = false else if a.empty || a.index < b.index then InReach a b else InReach b a

section Join

variable {shl : Shift} {low high u : NumberRangeSet} {x : Nat}

/-- The lower set is moved to the index of the higher one, and the ranges are put together: `u`. -/
structure Merged (shl : Shift) (low high u : NumberRangeSet) : Prop where
  empty : u.empty = false
  index : u.index = high.index
  bits : ∀ k, u.range.getLsbD k = true ↔ (low.add shl high.index).set.range.getLsbD k = true ∨ high.range.getLsbD k = true

theorem moved_index (shl : Shift) (hle : low.empty = false → low.index ≤ x) : (low.add shl x).set.index = x := by
  rw [add_index]
  split_ifs with he
  · rfl
  · exact Nat.max_eq_right (hle (by simpa using he))

theorem Merged.contains (hu : Merged shl low high u) (hhigh : high.empty = false) (hle : low.empty = false → low.index ≤ high.index) :
    u.contains x = true ↔ (low.add shl high.index).set.contains x = true ∨ high.contains x = true := by
  have hindex : (low.add shl high.index).set.index = high.index := moved_index shl hle
  rw [contains_iff, contains_iff, contains_iff, add_empty, hu.empty, hu.index, hindex, hhigh]
  simp only [hu.bits, true_and, or_and_right, exists_or]
  constructor
  · rintro (h | h | h)
    · exact .inl (.inl h)
    · exact .inl (.inr h)
    · exact .inr (.inr h)
  · rintro ((h | h) | (h | h))
    · exact .inl h
    · exact .inr (.inl h)
    · exact .inl h
    · exact .inr (.inr h)

theorem Merged.joined (hu : Merged shl low high u) (hshl : Documented shl) (hlow : Sound low) (hhigh : high.empty = false)
    (hle : low.empty = false → low.index ≤ high.index) (hreach : InReach low high) :
    (u.contains x = true ↔ low.contains x = true ∧ high.index ≤ x + 8 ∨ high.contains x = true) ∧
      ((low.add shl high.index).overflow = true ↔ ∃ x, low.contains x = true ∧ x + 8 < high.index) := by
  have hindex : (low.add shl high.index).set.index = high.index := moved_index shl hle
  have hresult : ¬(low.add shl high.index).result = false := by
    rw [add_result]
    intro ⟨he, h⟩
    have := hle he
    omega
  have hself : high.contains high.index = true := contains_iff.mpr ⟨hhigh, .inl rfl⟩
  by_cases hnear : low.empty = false → high.index < low.index + 32
  · constructor
    · rw [hu.contains hhigh hle, add_contains hshl hlow hnear, hindex]
      constructor
      · rintro (⟨h | rfl, hx⟩ | h)
        · exact .inl ⟨h, hx⟩
        · exact .inr hself
        · exact .inr h
      · rintro (⟨h, hx⟩ | h)
        · exact .inl ⟨.inl h, hx⟩
        · exact .inr h
    · rw [add_overflow hshl hlow hnear]
      simp only [hresult, Bool.true_eq_false, false_or, lost_iff hshl hlow hnear, hindex]
  · -- too far, but the higher set is full
    obtain ⟨he, hfar⟩ := Classical.not_imp.mp hnear
    have hfull : high.range = allOnes 8 := (hreach.resolve_left (by simp [he])).resolve_left hfar
    have hbelow : low.contains low.index = true := contains_iff.mpr ⟨he, .inl rfl⟩
    constructor
    · rw [contains_iff (s := u), contains_iff (s := high), hu.empty, hu.index, hhigh]
      simp only [hu.bits, hfull, getLsbD_allOnes, decide_eq_true_eq, true_and]
      constructor
      · rintro (rfl | ⟨k, hk, hx⟩)
        · exact .inr (.inl rfl)
        · refine .inr (.inr ⟨k, hk.elim lt_of_bit id, hx⟩)
      · rintro (⟨h, hx⟩ | rfl | ⟨k, hk, hx⟩)
        · have := near_of_contains h
          omega
        · exact .inl rfl
        · exact .inr ⟨k, .inr hk, hx⟩
    · rcases add_cases shl low high.index with ⟨he', h⟩ | ⟨-, hi, h⟩ | ⟨-, hi, h⟩ | ⟨-, hi, h⟩ | ⟨-, hi, -, h⟩
      · rw [he] at he'
        cases he'
      · omega
      · rw [h]
        simp only [Bool.or_eq_true, decide_eq_true_eq, show 8 < high.index - low.index by omega, true_or, true_iff]
        exact ⟨low.index, hbelow, by omega⟩
      · have := hle he
        omega
      · omega

/-- With a shift that fills the byte, the higher set must have been full. -/
theorem Merged.full (hu : Merged shiftFilling low high u) (hfar : low.empty = false ∧ low.index + 32 ≤ high.index)
    (h : ∀ x, u.contains x = true → low.contains x = true ∨ high.contains x = true) : high.range = allOnes 8 := by
  obtain ⟨he, hgap⟩ := hfar
  refine eq_of_getLsbD_eq fun k hk => ?_
  have hall : (low.add shiftFilling high.index).set.range = allOnes 8 := by
    rw [NumberRangeSet.add, if_neg (by simp [he]), if_neg (by omega), if_pos (by omega)]
    rw [show high.index - low.index = high.index - low.index - 1 + 1 by omega]
    simp only [Nat.add_sub_cancel]
    exact setBit_filling _ (by omega)
  have hx : u.contains (high.index - (k + 1)) = true := by
    rw [contains_iff]
    refine ⟨hu.empty, .inr ⟨k, (hu.bits k).mpr (.inl ?_), by rw [hu.index]; omega⟩⟩
    rw [hall, getLsbD_allOnes, decide_eq_true hk]
  rw [getLsbD_allOnes, decide_eq_true hk]
  rcases h _ hx with h | h
  · have := near_of_contains h
    omega
  · rcases (contains_iff.mp h).2 with h | ⟨j, hj, h⟩
    · omega
    · rwa [show k = j by omega]

/-- What is joined is what both have within eight of the greatest, and what is lost is below that. -/
theorem union_window (hle : low.empty = false → low.index ≤ high.index) (hhigh : high.empty = false) :
    (low.contains x = true ∧ high.index ≤ x + 8 ∨ high.contains x = true) ↔
      (low.contains x = true ∨ high.contains x = true) ∧ ∀ y, low.contains y = true ∨ high.contains y = true → y ≤ x + 8 := by
  have hself : high.contains high.index = true := contains_iff.mpr ⟨hhigh, .inl rfl⟩
  have hmax : ∀ y, low.contains y = true ∨ high.contains y = true → y ≤ high.index := by
    rintro y (h | h)
    · exact Nat.le_trans (near_of_contains h).1 (hle (contains_iff.mp h).1)
    · exact (near_of_contains h).1
  constructor
  · rintro (⟨h, hx⟩ | h)
    · exact ⟨.inl h, fun y hy => Nat.le_trans (hmax y hy) hx⟩
    · exact ⟨.inr h, fun y hy => Nat.le_trans (hmax y hy) (near_of_contains h).2⟩
  · rintro ⟨h | h, hx⟩
    · exact .inl ⟨h, hx _ (.inr hself)⟩
    · exact .inr h

theorem union_lost (hlost : u.contains x = true ↔ low.contains x = true ∧ high.index ≤ x + 8 ∨ high.contains x = true) :
    (low.contains x = true ∨ high.contains x = true) ∧ u.contains x = false ↔ low.contains x = true ∧ x + 8 < high.index := by
  rw [← Bool.not_eq_true, hlost, not_or, not_and, Nat.not_le]
  constructor
  · intro ⟨h, hnot, hx⟩
    have hl := h.resolve_right hx
    exact ⟨hl, hnot hl⟩
  · intro ⟨h, hx⟩
    refine ⟨.inl h, fun _ => hx, fun hh => ?_⟩
    have := near_of_contains hh
    omega

/-- Moved to the higher index, the two sets join as they should, exactly if they are in reach. -/
theorem joined_iff (overflow : Shift → Bool) (u : Shift → NumberRangeSet) (hu : ∀ shl, Merged shl low high (u shl)) (hlow : Sound low)
    (hhigh : high.empty = false) (hle : low.empty = false → low.index ≤ high.index)
    (hoverflow : ∀ shl, overflow shl = (low.add shl high.index).overflow) :
    (∀ shl, Documented shl → (∀ x, (u shl).contains x = true ↔
        (low.contains x = true ∨ high.contains x = true) ∧ ∀ y, low.contains y = true ∨ high.contains y = true → y ≤ x + 8) ∧
      (overflow shl = true ↔ ∃ x, (low.contains x = true ∨ high.contains x = true) ∧ (u shl).contains x = false)) ↔ InReach low high := by
  constructor
  · intro h
    by_cases hfar : low.empty = false ∧ low.index + 32 ≤ high.index
    · have := (h shiftFilling shiftFilling_documented).1
      exact .inr (.inr ((hu shiftFilling).full hfar fun x hx => ((this x).mp hx).1))
    · cases he : low.empty with
      | true => exact .inl he
      | false => exact .inr (.inl (Nat.not_le.mp fun hle => hfar ⟨he, hle⟩))
  · intro hreach shl hshl
    have hj := fun x => (hu shl).joined (x := x) hshl hlow hhigh hle hreach
    refine ⟨fun x => (hj x).1.trans (union_window hle hhigh), ?_⟩
    rw [hoverflow, (hj 0).2]
    exact exists_congr fun x => (union_lost (hj x).1).symm

end Join

/-! ## When it goes well -/

section

variable {a b : NumberRangeSet}

/-- A set built by adds, on some machine. -/
def Built (a : NumberRangeSet) : Prop := ∃ shl l, Documented shl ∧ addsOf shl l = a

theorem Built.sound (h : Built a) : Sound a := by
  obtain ⟨shl, l, hshl, rfl⟩ := h
  exact addsOf_sound hshl

theorem joinsRight_comm {u : NumberRangeSet} {result overflow : Bool} : JoinsRight a b ⟨u, result, overflow⟩ ↔
    ((∀ x, u.contains x = true ↔ (b.contains x = true ∨ a.contains x = true) ∧ ∀ y, b.contains y = true ∨ a.contains y = true → y ≤ x + 8) ∧
      (overflow = true ↔ ∃ x, (b.contains x = true ∨ a.contains x = true) ∧ u.contains x = false)) ∧
      (result = true ↔ b.empty = true ∨ u.contains b.index = true) := by
  simp only [or_comm (a := b.contains _ = true)]
  exact ⟨fun h => ⟨⟨h.contains, h.overflow⟩, h.result⟩, fun h => ⟨h.1.1, h.1.2, h.2⟩⟩

theorem addAll_joins_iff (ha : Sound a) (hb : Sound b) (overflow : Bool) :
    (∀ shl, Documented shl → JoinsRight a b (a.addAll shl b overflow)) ↔ Joins a b overflow := by
  cases hbe : b.empty with
  | true =>
    have hnone : ∀ x, b.contains x = false := fun x => by simp [NumberRangeSet.contains, hbe]
    simp only [Joins, NumberRangeSet.addAll, hbe, if_true]
    constructor
    · intro h
      refine Bool.eq_false_iff.mpr fun ho => ?_
      obtain ⟨x, hx, hnot⟩ := (h shiftModulo shiftModulo_documented).overflow.mp ho
      simp [hnone, hnot] at hx
    · rintro rfl shl -
      refine ⟨fun x => ?_, ?_, ?_⟩
      · simp only [hnone, Bool.false_eq_true, or_false]
        refine ⟨fun h => ⟨h, fun y hy => ?_⟩, fun h => h.1⟩
        have := near_of_contains h
        have := near_of_contains hy
        omega
      · simp [hnone]
      · simp [hbe]
  | false =>
    by_cases hlt : (a.empty || (a.index < b.index : Bool)) = true
    · have hle : a.empty = false → a.index ≤ b.index := by
        intro he
        simp only [he, Bool.false_or, decide_eq_true_eq] at hlt
        omega
      have hindex : ∀ shl, (a.add shl b.index).set.index = b.index := fun shl => moved_index shl hle
      have hu : ∀ shl, Merged shl a b { (a.add shl b.index).set with range := (a.add shl b.index).set.range ||| b.range } := fun shl =>
        ⟨add_empty, hindex shl, fun k => by rw [getLsbD_or, Bool.or_eq_true]⟩
      have hcontains : ∀ shl, NumberRangeSet.contains
          { (a.add shl b.index).set with range := (a.add shl b.index).set.range ||| b.range } b.index = true := fun shl =>
        contains_iff.mpr ⟨add_empty, .inl (hindex shl).symm⟩
      rw [Joins, hbe, if_neg (by simp), if_pos hlt, ← joined_iff (fun shl => (a.add shl b.index).overflow) _ hu ha hbe hle
        fun _ => rfl]
      refine forall_congr' fun shl => imp_congr_right fun _ => ?_
      rw [NumberRangeSet.addAll, hbe, if_neg (by simp), if_pos hlt]
      exact ⟨fun h => ⟨h.contains, h.overflow⟩, fun h => ⟨h.1, h.2, by simp [hcontains shl]⟩⟩
    · have hae : a.empty = false := by
        cases he : a.empty with
        | true => simp [he] at hlt
        | false => rfl
      have hle : b.empty = false → b.index ≤ a.index := by
        intro _
        simp only [hae, Bool.false_or, decide_eq_true_eq] at hlt
        omega
      have hu : ∀ shl, Merged shl b a { a with range := a.range ||| (b.add shl a.index).set.range } := fun shl =>
        ⟨hae, rfl, fun k => by rw [getLsbD_or, Bool.or_eq_true, or_comm]⟩
      rw [Joins, hbe, if_neg (by simp), if_neg hlt, ← joined_iff (fun shl => (b.add shl a.index).overflow) _ hu hb hae hle
        fun _ => rfl]
      refine forall_congr' fun shl => imp_congr_right fun _ => ?_
      rw [NumberRangeSet.addAll, hbe, if_neg (by simp), if_neg hlt, joinsRight_comm]
      exact and_iff_left (by simp [hbe])

variable {m : Memory} {s t : FileRangeSet}

theorem read_write_self (set : NumberRangeSet) (he : set.empty = false) : (m.write s set).read s = set := by
  cases set
  cases he
  simp [Memory.read, Memory.write]

theorem read_write_other (set : NumberRangeSet) (hindex : t.index ≠ s.index) (hrange : t.range ≠ s.range) : (m.write s set).read t = m.read t := by
  simp [Memory.read, Memory.write, hindex, hrange]

theorem read_orRange_self (range : Nat) : (m.orRange s.range range).read s = { m.read s with range := (m.read s).range ||| m.range range } := by
  simp [Memory.read, Memory.orRange]

theorem read_orRange_other (range : Nat) (hrange : t.range ≠ s.range) : (m.orRange s.range range).read t = m.read t := by
  simp [Memory.read, Memory.orRange, hrange]

theorem write_read : m.write s (m.read s) = m := by
  simp [Memory.write, Memory.read]

/-- Below the argument the set moves as the one that holds its fields does. -/
theorem addAll_below (shl : Shift) (hindex : s.index ≠ t.index) (hrange : s.range ≠ t.range) (hlt : (m.read s).index < (m.read t).index) :
    JoinsInPlace m s t (m.addAll shl s t) ↔ JoinsRight (m.read s) (m.read t) ((m.read s).addAll shl (m.read t) false) := by
  obtain ⟨r, hr⟩ : ∃ r, r = (m.read s).add shl (m.read t).index := ⟨_, rfl⟩
  have hplace : m.addAll shl s t = ((m.write s r.set).orRange s.range t.range, true, r.overflow) := by
    rw [Memory.addAll, if_pos (show m.index s.index < m.index t.index from hlt), hr]
    rfl
  have hheld : (m.read s).addAll shl (m.read t) false = ⟨{ r.set with range := r.set.range ||| (m.read t).range }, true, r.overflow⟩ := by
    rw [NumberRangeSet.addAll, if_neg (by simp [Memory.read]), if_pos (by simp [hlt]), hr]
  have hself : ((m.write s r.set).orRange s.range t.range).read s = { r.set with range := r.set.range ||| (m.read t).range } := by
    have hother : (m.write s r.set).range t.range = (m.read t).range := Function.update_of_ne hrange.symm _ _
    rw [read_orRange_self, hother, read_write_self _ (by rw [hr]; exact add_empty)]
  have hunchanged : ((m.write s r.set).orRange s.range t.range).read t = m.read t :=
    (read_orRange_other t.range hrange.symm).trans (read_write_other r.set hindex.symm hrange.symm)
  rw [JoinsInPlace, hplace, hheld]
  simp only [hself, hunchanged, and_true]

theorem addAll_level (shl : Shift) (hrange : s.range ≠ t.range) (heq : (m.read s).index = (m.read t).index) :
    JoinsInPlace m s t (m.addAll shl s t) ↔ JoinsRight (m.read s) (m.read t) ((m.read s).addAll shl (m.read t) false) := by
  have hadd : (m.read t).add shl (m.read s).index = ⟨m.read t, true, false⟩ := by
    rw [NumberRangeSet.add, if_neg (by simp [Memory.read]), if_pos heq]
  have hplace : m.addAll shl s t = (m.orRange s.range t.range, ((m.orRange s.range t.range).read s).contains (m.read t).index, false) := by
    rw [Memory.addAll, if_neg (show ¬m.index s.index < m.index t.index from Nat.not_lt.mpr (Nat.le_of_eq heq.symm))]
    simp only [Memory.add, show m.index s.index = (m.read s).index from rfl, hadd, write_read]
    rfl
  have hheld : (m.read s).addAll shl (m.read t) false =
      ⟨(m.orRange s.range t.range).read s, ((m.orRange s.range t.range).read s).contains (m.read t).index, false⟩ := by
    have hne : ¬((m.read s).empty || ((m.read s).index < (m.read t).index : Bool)) = true := by
      rw [heq]
      simp [Memory.read]
    rw [NumberRangeSet.addAll, if_neg (by simp [Memory.read]), if_neg hne, hadd, read_orRange_self]
    rfl
  rw [JoinsInPlace, hplace, hheld]
  simp only [read_orRange_other t.range hrange.symm, and_true]

/-- A set that refers to variables joins another in place exactly where it need not move the other. -/
theorem addAll_in_place_iff (hs : Sound (m.read s)) (ht : Sound (m.read t)) (hindex : s.index ≠ t.index) (hrange : s.range ≠ t.range) :
    (∀ shl, Documented shl → JoinsInPlace m s t (m.addAll shl s t)) ↔
      (m.read s).index ≤ (m.read t).index ∧ InReach (m.read s) (m.read t) := by
  have hvalue := addAll_joins_iff hs ht false
  rcases Nat.lt_trichotomy (m.read s).index (m.read t).index with hlt | heq | hgt
  · have hjoins : Joins (m.read s) (m.read t) false ↔ InReach (m.read s) (m.read t) := by
      rw [Joins, if_neg (by simp [Memory.read]), if_pos (by simp [hlt])]
    rw [and_iff_right (Nat.le_of_lt hlt), ← hjoins, ← hvalue]
    exact forall_congr' fun shl => imp_congr_right fun _ => addAll_below shl hindex hrange hlt
  · have hjoins : Joins (m.read s) (m.read t) false := by
      have hne : ¬((m.read s).empty || ((m.read s).index < (m.read t).index : Bool)) = true := by
        rw [heq]
        simp [Memory.read]
      rw [Joins, if_neg (by simp [Memory.read]), if_neg hne]
      exact .inr (.inl (by omega))
    have hreach : InReach (m.read s) (m.read t) := .inr (.inl (by omega))
    refine ⟨fun _ => ⟨Nat.le_of_eq heq, hreach⟩, fun _ shl hshl => (addAll_level shl hrange heq).mpr (hvalue.mpr hjoins shl hshl)⟩
  · have hnot : ¬(m.read s).index ≤ (m.read t).index := by omega
    simp only [hnot, false_and, iff_false]
    intro h
    -- the argument is moved to the index of the set
    have hsame := congrArg NumberRangeSet.index (h shiftModulo shiftModulo_documented).2
    have hmoved : ((m.read t).add shiftModulo (m.read s).index).set.index = (m.read s).index := moved_index _ fun _ => Nat.le_of_lt hgt
    have hread : ((m.addAll shiftModulo s t).1.read t).index = (m.read s).index := by
      rw [Memory.addAll, if_neg (show ¬m.index s.index < m.index t.index from Nat.not_lt.mpr (Nat.le_of_lt hgt))]
      exact (Function.update_self _ _ _).trans hmoved
    omega

end

/-- `addAll` does what it should, whatever the shift does with a count it need not take: for a set that holds its fields exactly if
    the sets are in reach and an empty argument finds no overflow reported before; for one that refers to variables exactly if its
    index is not above the argument's, and they are in reach. -/
theorem addAll_iff {a b : NumberRangeSet} (ha : Built a) (hb : Built b) :
    (∀ overflow, (∀ shl, Documented shl → JoinsRight a b (a.addAll shl b overflow)) ↔ Joins a b overflow) ∧
      ∀ (m : Memory) (s t : FileRangeSet), s.index ≠ t.index → s.range ≠ t.range → m.read s = a → m.read t = b →
        ((∀ shl, Documented shl → JoinsInPlace m s t (m.addAll shl s t)) ↔ a.index ≤ b.index ∧ InReach a b) := by
  refine ⟨addAll_joins_iff ha.sound hb.sound, ?_⟩
  rintro m s t hindex hrange rfl rfl
  exact addAll_in_place_iff ha.sound hb.sound hindex hrange

/-- Sets from 3 to 5 and from 9. -/
theorem addAll_of_two : Built ⟨false, 5, 3⟩ ∧ Built ⟨false, 9, 0⟩ ∧
    ((∀ overflow, (∀ shl, Documented shl → JoinsRight ⟨false, 5, 3⟩ ⟨false, 9, 0⟩ (NumberRangeSet.addAll shl ⟨false, 5, 3⟩ ⟨false, 9, 0⟩ overflow)) ↔
        Joins ⟨false, 5, 3⟩ ⟨false, 9, 0⟩ overflow) ∧
      ∀ (m : Memory) (s t : FileRangeSet), s.index ≠ t.index → s.range ≠ t.range → m.read s = ⟨false, 5, 3⟩ → m.read t = ⟨false, 9, 0⟩ →
        ((∀ shl, Documented shl → JoinsInPlace m s t (m.addAll shl s t)) ↔ 5 ≤ 9 ∧ InReach ⟨false, 5, 3⟩ ⟨false, 9, 0⟩)) := by
  have ha : Built ⟨false, 5, 3⟩ := ⟨shiftModulo, [3, 4, 5], shiftModulo_documented, by decide⟩
  have hb : Built ⟨false, 9, 0⟩ := ⟨shiftModulo, [9], shiftModulo_documented, by decide⟩
  exact ⟨ha, hb, addAll_iff ha hb⟩

end DeepFabric.Platform.NumberRangeSets
