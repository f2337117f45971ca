/-
  DeepFabric.Store.CandidateOrder — the order of the candidates for a recovery
  (util/MeasuredRandomAccessFile.h: Comparator<MeasuredRandomAccessFile*>).

  Files are compared by the place of their log file among those of the list, if both are known,
  and by its index otherwise, then by the length, the creation time and the file index. Every part
  is a difference, and what is returned of it is an `int`.

  - `candidateOrder_iff`: files are in order, and those of known log files by descending place,
    length, time and index, exactly if no difference that decides is too large, and no index of an
    unknown log file is between those of two that the list has the other way around.

  As built:
  - `two_gigabytes_apart`: two summaries 2 GB apart in one log file, each of which comes before the
    other.
-/
import Mathlib.Data.UInt
import DeepFabric.Lib.Comparison
import DeepFabric.Store.RecoveryBoundary

namespace DeepFabric.Store.RecoveryBoundary

open Lib List

variable {lrt : List LrtFile} {files : List IrtFile}

abbrev IrtFile.index (f : IrtFile) : UInt16 := f.lastLrtLocality.index

abbrev IrtFile.length (f : IrtFile) : UInt32 := f.lastLrtLocality.length

abbrev IrtFile.place (lrt : List LrtFile) (f : IrtFile) : Int := orderOf lrt f.index.toNat

/-- The order that is meant: by the place of the log file, the length, the creation time and the file index, the largest first. -/
def Newer (lrt : List LrtFile) (a b : IrtFile) : Prop :=
  b.place lrt < a.place lrt ∨ b.place lrt = a.place lrt ∧ (b.length < a.length ∨ b.length = a.length ∧
    (b.creationTime < a.creationTime ∨ b.creationTime = a.creationTime ∧ b.fileIndex < a.fileIndex))

/-- What the queue of the candidates relies on. -/
structure CandidateOrder (lrt : List LrtFile) (files : List IrtFile) : Prop where
  order : TotalOn (compare lrt) files
  sorts : ∀ a ∈ files, ∀ b ∈ files, a.place lrt ≠ -1 → b.place lrt ≠ -1 → (compare lrt a b < 0 ↔ Newer lrt a b)
  locality : ∀ a ∈ files, ∀ b ∈ files, (compareLength lrt a b.index.toNat b.length.toNat).sign =
    if a.index = b.index ∧ a.length = b.length then 0 else (compare lrt a b).sign

/-- Of two files of one log file, the differences that decide fit an `int`. -/
def Close (a b : IrtFile) : Prop :=
  (a.length.toNat : Int) - b.length.toNat < 2 ^ 31 ∧ (a.length = b.length → b.creationTime < a.creationTime →
    0 < (a.creationTime - b.creationTime) % 2 ^ 32 ∧ (a.creationTime - b.creationTime) % 2 ^ 32 < 2 ^ 31)

/-- No difference is too large for an `int`, and no file of an unknown log file is between two that the log has the other way around. -/
structure Near (lrt : List LrtFile) (files : List IrtFile) : Prop where
  unmixed : ∀ a ∈ files, ∀ u ∈ files, ∀ b ∈ files, a.place lrt ≠ -1 → u.place lrt = -1 → b.place lrt ≠ -1 →
    a.index < u.index → u.index < b.index → a.place lrt < b.place lrt
  lengths : ∀ i : UInt16, ∃ base : Int, ∀ f ∈ files, f.index = i → ((f.length.toNat : Int) - base) % 2 ^ 32 < 2 ^ 31
  times : ∀ (i : UInt16) (l : UInt32), ∃ base : Int, ∀ f ∈ files, f.index = i → f.length = l → (f.creationTime - base) % 2 ^ 32 < 2 ^ 31
  equal : ∀ a ∈ files, ∀ b ∈ files, ∀ c ∈ files, a.index = b.index → a.length = b.length → c.index = b.index → c.length = b.length →
    a.creationTime = c.creationTime → b.creationTime ≠ a.creationTime → (b.creationTime - a.creationTime) % 2 ^ 32 = 0 →
    a.fileIndex = c.fileIndex
  known : ∀ a ∈ files, ∀ b ∈ files, a.place lrt ≠ -1 → a.index = b.index → Close a b

/-! ## As built -/

def candidate (fileIndex : Int) (length : UInt32) : IrtFile := ⟨fileIndex, 0, ⟨1, length, 0⟩, 0, false, 20, 100⟩

/-- Two files with the summaries at a distance. -/
def apart (distance : UInt32) : List IrtFile := [candidate 1 100, candidate 2 (100 + distance)]

theorem two_gigabytes_apart :
    compare [⟨1, 10⟩] (candidate 1 100) (candidate 2 (100 + 2 ^ 31)) < 0 ∧ ¬CandidateOrder [⟨1, 10⟩] (apart (2 ^ 31)) := by
  refine ⟨by decide, fun h => ?_⟩
  have hswap := h.order.swap (candidate 1 100) (by decide) (candidate 2 (100 + 2 ^ 31)) (by decide)
  revert hswap
  decide

/-! ## Part by part -/

/-- A difference that is returned as an `int`. -/
abbrev minus (x y : Int) : Int := toInt (y - x)

def placed (lrt : List LrtFile) (i j : UInt16) : Int :=
  if orderOf lrt i.toNat ≠ -1 ∧ orderOf lrt j.toNat ≠ -1 then orderOf lrt j.toNat - orderOf lrt i.toNat else j.toNat - i.toNat

theorem toInt_lengths (k l : UInt32) : toInt (-((k - l).toNat : Int)) = minus k.toNat l.toNat := by
  have hl := l.toNat_lt
  have hsub : ((k - l).toNat : Int) = (k.toNat - l.toNat : Int) % 2 ^ 32 := by
    rw [UInt32.toNat_sub]
    omega
  rw [minus, toInt, toInt, hsub, Int.bmod_def, Int.bmod_def]
  split_ifs <;> omega

theorem by_place (lrt : List LrtFile) (i j : UInt16) (d : Int) :
    (if orderOf lrt i.toNat ≠ -1 ∧ orderOf lrt j.toNat ≠ -1 ∧ orderOf lrt i.toNat - orderOf lrt j.toNat ≠ 0 then
      -(orderOf lrt i.toNat - orderOf lrt j.toNat)
    else if (i.toNat : Int) - j.toNat ≠ 0 then -((i.toNat : Int) - j.toNat) else d) = if i = j then d else placed lrt i j := by
  by_cases hij : i = j
  · simp [hij]
  · have hne : (i.toNat : Int) ≠ j.toNat := fun h => hij (UInt16.toNat_inj.mp (Int.ofNat_inj.mp h))
    have hinj (hi : orderOf lrt i.toNat ≠ -1) : orderOf lrt i.toNat ≠ orderOf lrt j.toNat := fun h => hne (orderOf_inj hi h)
    rw [if_neg hij, placed]
    split_ifs <;> omega

theorem compare_eq (a b : IrtFile) : compare lrt a b =
    byKey IrtFile.index (placed lrt) (byKey IrtFile.length (fun k l => minus k.toNat l.toNat)
      (byKey IrtFile.creationTime minus fun a b => minus a.fileIndex b.fileIndex)) a b := by
  have hneg (x y : Int) : -(x - y) = y - x := Int.neg_sub x y
  have hl (k l : UInt32) : k - l = 0 ↔ k = l := by grind
  unfold compare
  rw [by_place]
  unfold byKey
  simp only [toInt_lengths, hneg, hl, Int.sub_eq_zero, ne_eq, ite_not]

theorem compareLength_eq (a b : IrtFile) : compareLength lrt a b.index.toNat b.length.toNat =
    byKey IrtFile.index (placed lrt) (fun a b => minus a.length.toNat b.length.toNat) a b := by
  unfold compareLength
  rw [by_place, Int.neg_sub]
  rfl

theorem minus_totalOn_iff {α : Type} {g : α → Int} {l : List α} :
    TotalOn (fun a b => minus (g a) (g b)) l ↔ ∃ base, ∀ a ∈ l, (g a - base) % 2 ^ 32 < 2 ^ 31 := by
  constructor
  · intro h
    cases l with
    | nil => exact ⟨0, fun a ha => absurd ha not_mem_nil⟩
    | cons x xs =>
      obtain ⟨m, hm, hfirst⟩ := h.exists_first (cons_ne_nil x xs)
      refine ⟨g m - (2 ^ 31 - 1), fun a ha => ?_⟩
      have hle := hfirst a ha
      have hswap := h.swap m hm a ha
      simp only [minus, toInt, Int.bmod_def] at hle hswap
      split_ifs at hle hswap <;> omega
  · rintro ⟨base, hbase⟩
    have hminus : ∀ a ∈ l, ∀ b ∈ l, minus (g a) (g b) = (g b - base) % 2 ^ 32 - (g a - base) % 2 ^ 32 := by
      intro a ha b hb
      have h1 := hbase a ha
      have h2 := hbase b hb
      rw [minus, toInt, Int.bmod_def]
      split_ifs <;> omega
    refine ⟨fun a ha b hb => ?_, fun a ha b hb c hc hab hbc => ?_⟩
    · rw [hminus a ha b hb, hminus b hb a ha]
      omega
    · rw [hminus a ha b hb] at hab
      rw [hminus b hb c hc] at hbc
      rw [hminus a ha c hc]
      omega

theorem placed_self (i : UInt16) : placed lrt i i = 0 := by
  unfold placed
  split_ifs <;> omega

theorem placed_totalOn_iff : TotalOn (fun a b : IrtFile => placed lrt a.index b.index) files ↔
    ∀ a ∈ files, ∀ u ∈ files, ∀ b ∈ files, a.place lrt ≠ -1 → u.place lrt = -1 → b.place lrt ≠ -1 →
      a.index < u.index → u.index < b.index → a.place lrt < b.place lrt := by
  constructor
  · intro h a ha u hu b hb hka hku hkb hau hub
    have htrans := h.trans b hb u hu a ha
    have hne (heq : a.place lrt = b.place lrt) : (a.index.toNat : Int) = b.index.toNat := orderOf_inj hka heq
    rw [UInt16.lt_iff_toNat_lt] at hau hub
    simp only [IrtFile.place] at *
    simp only [placed, hka, hku, hkb, ne_eq, not_true_eq_false, and_false, false_and, if_false, not_false_eq_true, and_self, if_true] at htrans
    omega
  · intro h
    have hsame (a b : IrtFile) (heq : a.index.toNat = b.index.toNat) : a.place lrt = b.place lrt := by rw [IrtFile.place, heq]
    simp only [UInt16.lt_iff_toNat_lt] at h
    refine ⟨fun a _ b _ => ?_, fun a ha b hb c hc hab hbc => ?_⟩
    · unfold placed
      split_ifs <;> omega
    · -- the one of an unknown file may be any of the three
      have h1 := h c hc b hb a ha
      have h2 := h a ha c hc b hb
      have h3 := h b hb a ha c hc
      have h4 := hsame a b
      have h5 := hsame b c
      simp only [IrtFile.place] at *
      unfold placed at *
      split_ifs at * <;> omega

theorem times_totalOn_iff (hf : ∀ f ∈ files, 0 ≤ f.fileIndex ∧ f.fileIndex < 2 ^ 16) :
    TotalOn (byKey IrtFile.creationTime minus fun a b => minus a.fileIndex b.fileIndex) files ↔
      (∃ base : Int, ∀ f ∈ files, (f.creationTime - base) % 2 ^ 32 < 2 ^ 31) ∧
        ∀ a ∈ files, ∀ b ∈ files, ∀ c ∈ files, a.creationTime = c.creationTime → b.creationTime ≠ a.creationTime →
          (b.creationTime - a.creationTime) % 2 ^ 32 = 0 → a.fileIndex = c.fileIndex := by
  have hzero (d : Int) : toInt d = 0 ↔ d % 2 ^ 32 = 0 := by
    rw [toInt, Int.bmod_def]
    split_ifs <;> omega
  rw [byKey_totalOn_iff fun k => by simp [minus, toInt], minus_totalOn_iff]
  simp only [minus_totalOn_iff]
  refine and_congr_right fun _ => ?_
  have hindex : ∀ t, ∃ base, ∀ a ∈ files.filter (·.creationTime = t), (a.fileIndex - base) % 2 ^ 32 < 2 ^ 31 := fun t =>
    ⟨0, fun a ha => by have := hf a (mem_filter.mp ha).1; omega⟩
  rw [and_iff_right hindex]
  refine forall₂_congr fun a ha => forall₂_congr fun b _ => forall₂_congr fun c hc => ?_
  have := hf a ha
  have := hf c hc
  rw [minus, minus, hzero, hzero]
  omega

theorem order_iff : TotalOn (compare lrt) files ↔
    (∀ a ∈ files, ∀ u ∈ files, ∀ b ∈ files, a.place lrt ≠ -1 → u.place lrt = -1 → b.place lrt ≠ -1 →
      a.index < u.index → u.index < b.index → a.place lrt < b.place lrt) ∧
    ∀ i, (∃ base : Int, ∀ f ∈ files.filter (·.index = i), ((f.length.toNat : Int) - base) % 2 ^ 32 < 2 ^ 31) ∧
      ∀ l, TotalOn (byKey IrtFile.creationTime minus fun a b => minus a.fileIndex b.fileIndex)
        ((files.filter (·.index = i)).filter (·.length = l)) := by
  have hplace {i j : UInt16} (h : placed lrt i j = 0) : i = j := by
    by_contra hne
    have hnat : (i.toNat : Int) ≠ j.toNat := fun h => hne (UInt16.toNat_inj.mp (Int.ofNat_inj.mp h))
    have hinj (hi : orderOf lrt i.toNat ≠ -1) : orderOf lrt i.toNat ≠ orderOf lrt j.toNat := fun h => hnat (orderOf_inj hi h)
    unfold placed at h
    split_ifs at h <;> omega
  have hlength {k l : UInt32} (h : minus k.toNat l.toNat = 0) : k = l := by
    have hk := k.toNat_lt
    have hl := l.toNat_lt
    rw [minus, toInt, Int.bmod_def] at h
    apply UInt32.toNat_inj.mp
    split_ifs at h <;> omega
  rw [show compare lrt = _ from funext₂ compare_eq, byKey_totalOn_iff placed_self, placed_totalOn_iff]
  have hlast : ∀ a ∈ files, ∀ b ∈ files, ∀ c ∈ files, a.index = c.index → b.index ≠ a.index → placed lrt a.index b.index = 0 →
      byKey IrtFile.length (fun k l => minus k.toNat l.toNat)
        (byKey IrtFile.creationTime minus fun a b => minus a.fileIndex b.fileIndex) a c = 0 :=
    fun a _ b _ c _ _ hne hzero => absurd (hplace hzero).symm hne
  rw [and_iff_left hlast]
  refine and_congr_right fun _ => forall_congr' fun i => ?_
  rw [byKey_totalOn_iff fun k => by simp [minus, toInt], ← minus_totalOn_iff]
  refine and_congr_right fun _ => and_iff_left fun a _ b _ c _ _ hne hzero => absurd (hlength hzero).symm hne

/-- Two files of known log files come out as they should. -/
theorem sorts_iff {a b : IrtFile} (hfa : 0 ≤ a.fileIndex ∧ a.fileIndex < 2 ^ 16) (hfb : 0 ≤ b.fileIndex ∧ b.fileIndex < 2 ^ 16)
    (ha : a.place lrt ≠ -1) (hb : b.place lrt ≠ -1) :
    (compare lrt a b < 0 ↔ Newer lrt a b) ∧ (compare lrt b a < 0 ↔ Newer lrt b a) ↔ (a.index = b.index → Close a b ∧ Close b a) := by
  have hla := a.length.toNat_lt
  have hlb := b.length.toNat_lt
  by_cases hi : a.index = b.index
  · have hp : a.place lrt = b.place lrt := by rw [IrtFile.place, hi]
    rw [compare_eq, compare_eq, byKey_same _ _ hi, byKey_same _ _ hi.symm]
    unfold Newer Close
    simp only [hi, hp, UInt32.lt_iff_toNat_lt, ← UInt32.toNat_inj, lt_irrefl, true_and, false_or, forall_true_left]
    by_cases hl : a.length.toNat = b.length.toNat
    · have hl' := UInt32.toNat_inj.mp hl
      rw [byKey_same _ _ hl', byKey_same _ _ hl'.symm]
      unfold byKey minus toInt
      simp only [Int.bmod_def]
      split_ifs <;> omega
    · have hl' : a.length ≠ b.length := fun h => hl (congrArg _ h)
      rw [byKey_other _ _ hl', byKey_other _ _ hl'.symm, minus, minus, toInt, toInt, Int.bmod_def, Int.bmod_def]
      split_ifs <;> omega
  · have hne : a.place lrt ≠ b.place lrt := fun h => hi (UInt16.toNat_inj.mp (Int.ofNat_inj.mp (orderOf_inj ha h)))
    rw [compare_eq, compare_eq, byKey_other _ _ hi, byKey_other _ _ (Ne.symm hi), placed, placed, if_pos ⟨ha, hb⟩, if_pos ⟨hb, ha⟩]
    unfold Newer
    rw [IrtFile.place, IrtFile.place] at *
    simp only [hi, false_imp_iff, iff_true]
    constructor <;> omega

theorem candidateOrder_iff (hf : ∀ f ∈ files, 0 ≤ f.fileIndex ∧ f.fileIndex < 2 ^ 16) : CandidateOrder lrt files ↔ Near lrt files := by
  constructor
  · intro h
    obtain ⟨hunmixed, hrest⟩ := order_iff.mp h.order
    have htimes i l := (times_totalOn_iff fun f hm => hf f (mem_filter.mp (mem_filter.mp hm).1).1).mp ((hrest i).2 l)
    simp only [mem_filter, decide_eq_true_eq, and_imp] at hrest htimes
    refine ⟨hunmixed, fun i => (hrest i).1, fun i l => (htimes i l).1, ?_, ?_⟩
    · intro a ha b hb c hc hai hal hci hcl
      exact (htimes _ _).2 a ha hai hal b hb rfl rfl c hc hci hcl
    · intro a ha b hb hka hab
      have hkb : b.place lrt ≠ -1 := by rwa [IrtFile.place, ← hab]
      exact ((sorts_iff (hf a ha) (hf b hb) hka hkb).mp ⟨h.sorts a ha b hb hka hkb, h.sorts b hb a ha hkb hka⟩ hab).1
  · intro h
    refine ⟨order_iff.mpr ⟨h.unmixed, fun i => ⟨?_, fun l => ?_⟩⟩, ?_, ?_⟩
    · simpa only [mem_filter, decide_eq_true_eq, and_imp] using h.lengths i
    · refine (times_totalOn_iff fun f hm => hf f (mem_filter.mp (mem_filter.mp hm).1).1).mpr ?_
      simp only [mem_filter, decide_eq_true_eq, and_imp]
      refine ⟨h.times i l, ?_⟩
      intro a ha hai hal b hb hbi hbl c hc hci hcl
      exact h.equal a ha b hb c hc (hai.trans hbi.symm) (hal.trans hbl.symm) (hci.trans hbi.symm) (hcl.trans hbl.symm)
    · intro a ha b hb hka hkb
      refine ((sorts_iff (hf a ha) (hf b hb) hka hkb).mpr fun hab => ⟨h.known a ha b hb hka hab, h.known b hb a ha hkb hab.symm⟩).1
    · intro a _ b _
      rw [compareLength_eq, compare_eq]
      by_cases hi : a.index = b.index
      · rw [byKey_same _ _ hi, byKey_same _ _ hi]
        by_cases hl : a.length = b.length
        · rw [if_pos ⟨hi, hl⟩, hl]
          simp [minus, toInt]
        · rw [if_neg fun h => hl h.2, byKey_other _ _ hl]
      · rw [byKey_other _ _ hi, byKey_other _ _ hi, if_neg fun h => hi h.1]

theorem one_gigabyte_apart : CandidateOrder [⟨1, 10⟩] (apart (2 ^ 30)) := by
  have hlengths : ∀ f ∈ apart (2 ^ 30), ((f.length.toNat : Int) - 0) % 2 ^ 32 < 2 ^ 31 := by decide
  have htimes : ∀ f ∈ apart (2 ^ 30), (f.creationTime - 0) % 2 ^ 32 < 2 ^ 31 := by decide
  refine (candidateOrder_iff (by decide)).mpr ⟨by decide, fun _ => ⟨0, fun f hf _ => hlengths f hf⟩,
    fun _ _ => ⟨0, fun f hf _ _ => htimes f hf⟩, by decide, ?_⟩
  unfold Close
  decide

end DeepFabric.Store.RecoveryBoundary
