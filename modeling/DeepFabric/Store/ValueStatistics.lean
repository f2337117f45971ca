/-
  DeepFabric.Store.ValueStatistics — which value files have their statistics rewritten
  (core/RealTimeAdaptive.h: writeValueStatistics, valueCompression; core/RealTimeExtra.h: ExtraStatistics).

  The statistics of a file are written again if its total or its dead count is no longer near what is stored. The
  relative difference is `((old - new) / old) * 100` in uinttypes, stored in an inttype. So a count that falls, but not
  to 0, gives 0; a count that grows gives the wrapped difference, over the old count, a hundred times, cut to 32 bits:
  nearly always something far from 0.
-/
import Mathlib.Algebra.Group.Nat.Defs
import Mathlib.Data.Rat.Defs
import Mathlib.Data.List.Nodup
import Mathlib.Logic.Function.Basic

namespace DeepFabric.Store.ValueStatistics

inductive Fault where
  | divisionByZero
  deriving DecidableEq, Repr

/-- Of ExtraStatistics, what is kept for value files. A missing entry reads as 0. -/
structure ExtraStatistics where
  compressionQualified : Bool
  compressionPercentage : Nat → Int
  valueFragmentationTotalCount : Nat → UInt32
  valueFragmentationDeadCount : Nat → UInt32

/-- The files of a map by index, each at most once. -/
structure MapFileSet where
  files : List (Option Nat)
  distinct : (files.filterMap id).Nodup

/-- What of a map the function reads. -/
structure Map where
  xwfiles : MapFileSet
  /-- fragmentationStatistics of the value files. -/
  valueTotalCounts : Nat → UInt32
  valueDeadCounts : Nat → UInt32
  valueCompressMode : Bool
  /-- compressionStatistics of the value files: doubletypes. -/
  compressionStatistics : Nat → Rat
  /-- What compression saves, none before the averages are there. -/
  spaceSavings : Option Int

/-- Properties::DEFAULT_VALUE_STATISTIC_PERCENT_REWRITE. -/
def DEFAULT_VALUE_STATISTIC_PERCENT_REWRITE : Nat := 2

/-! ## The function -/

/-- valueCompression, with the flag it leaves. -/
def valueCompression (m : Map) (compressionQualified : Bool) : Bool × Bool :=
  if compressionQualified = false then (false, false)
  else
    match m.spaceSavings with
    | none => (true, compressionQualified)
    | some spaceSavings => (spaceSavings > 0, spaceSavings > 0)

/-- `((old - stat) / old) * 100` in uinttypes, as an inttype. -/
def difference (oldValue stat : UInt32) : Except Fault Int :=
  if oldValue = stat then .ok 0
  else if oldValue = 0 then .error .divisionByZero
  else .ok ((oldValue - stat) / oldValue * 100).toInt32.toInt

def exceeds (delta : Nat) (diff : Int) : Bool := diff > delta || diff < -delta

/-- The test of a count. -/
def changed (delta : Nat) (oldValue stat : UInt32) : Except Fault Bool :=
  if oldValue = 0 ∧ stat ≠ 0 then .ok true else (difference oldValue stat).map (exceeds delta)

/-- A test that is made where none before has said so. -/
def orElse (rewrite : Bool) (test : Except Fault Bool) : Except Fault Bool := if rewrite = false then test else .ok rewrite

/-- A doubletype stored in an inttype. -/
def truncate (x : Rat) : Int := x.num.tdiv x.den

def compressionDiff (m : Map) (extra : ExtraStatistics) (index : Nat) : Int :=
  truncate (extra.compressionPercentage index - m.compressionStatistics index * 100)

def rewrites (m : Map) (delta : Nat) (extra : ExtraStatistics) (index : Nat) : Except Fault Bool := do
  let rewrite := extra.compressionQualified != (valueCompression m extra.compressionQualified).1
  let rewrite ← orElse rewrite (changed delta (extra.valueFragmentationTotalCount index) (m.valueTotalCounts index))
  let rewrite ← orElse rewrite (changed delta (extra.valueFragmentationDeadCount index) (m.valueDeadCounts index))
  if rewrite = false ∧ m.valueCompressMode = true then pure (exceeds delta (compressionDiff m extra index))
  else pure rewrite

/-- A byte. -/
def toByte (n : Int) : Int := n.bmod 256

def store (m : Map) (extra : ExtraStatistics) (index : Nat) : ExtraStatistics :=
  { extra with
    compressionPercentage :=
      if m.valueCompressMode then
        Function.update extra.compressionPercentage index (toByte (truncate (m.compressionStatistics index * 100)))
      else extra.compressionPercentage
    valueFragmentationTotalCount := Function.update extra.valueFragmentationTotalCount index (m.valueTotalCounts index)
    valueFragmentationDeadCount := Function.update extra.valueFragmentationDeadCount index (m.valueDeadCounts index) }

structure St where
  extra : ExtraStatistics
  /-- ExtraStatistics_v1::updateValue, for these files. -/
  written : List Nat

/-- One turn of the loop. -/
def visit (m : Map) (delta : Nat) (s : St) : Option Nat → Except Fault St
  | none => .ok s
  | some index => do
    let rewrite ← rewrites m delta s.extra index
    let extra := { s.extra with compressionQualified := (valueCompression m s.extra.compressionQualified).2 }
    if rewrite = true then pure ⟨store m extra index, index :: s.written⟩ else pure ⟨extra, s.written⟩

def deltaOf (percent : Nat) (force : Bool) : Nat := if force = false then percent else 0

/-- writeValueStatistics, where `percent` stands for DEFAULT_VALUE_STATISTIC_PERCENT_REWRITE. -/
def writeValueStatistics (m : Map) (percent : Nat) (force : Bool) (extra : ExtraStatistics) : Except Fault St :=
  m.xwfiles.files.foldlM (visit m (deltaOf percent force)) ⟨extra, []⟩

/-! ## The rule -/

/-- More than `delta` percent up or down, and any change where nothing is stored. -/
def Changed (delta oldValue stat : Nat) : Prop :=
  delta * oldValue < 100 * (stat - oldValue) ∨ delta * oldValue < 100 * (oldValue - stat)

instance (delta oldValue stat : Nat) : Decidable (Changed delta oldValue stat) := inferInstanceAs (Decidable (_ ∨ _))

/-- The compression statistics are what they were. -/
structure Unchanged (m : Map) (extra : ExtraStatistics) (index : Nat) : Prop where
  qualified : (valueCompression m extra.compressionQualified).1 = extra.compressionQualified
  percentage : m.valueCompressMode = true → compressionDiff m extra index = 0

/-- The file is rewritten exactly if one of its counts has changed by more than the percentage. -/
def Rule (m : Map) (percent : Nat) (force : Bool) (extra : ExtraStatistics) (index : Nat) : Prop :=
  ∃ s, writeValueStatistics m percent force extra = .ok s ∧
    (index ∈ s.written ↔
      Changed (deltaOf percent force) (extra.valueFragmentationTotalCount index).toNat (m.valueTotalCounts index).toNat ∨
      Changed (deltaOf percent force) (extra.valueFragmentationDeadCount index).toNat (m.valueDeadCounts index).toNat)

/-! ## Runs as built -/

/-- One file, of whose counts the total is the one given. -/
def oneFile (total : UInt32) : Map := ⟨⟨[some 0], by simp⟩, fun _ => total, fun _ => 0, false, fun _ => 0, none⟩

def stored (total : UInt32) : ExtraStatistics := ⟨true, fun _ => 0, fun _ => total, fun _ => 0⟩

/-- One percent more is taken for more than two. -/
theorem as_built_one_percent_is_rewritten : ¬Rule (oneFile 1010) 2 false (stored 1000) 0 := by
  rintro ⟨s, hs, hiff⟩
  cases hs
  exact absurd (hiff.mp List.mem_cons_self) (by decide)

/-! ## One count -/

section Count

variable {delta : Nat} {oldValue stat : UInt32}

/-- Within `delta` of a multiple of 2^32. -/
def Near (delta n : Nat) : Prop := n % 2 ^ 32 ≤ delta ∨ 2 ^ 32 ≤ n % 2 ^ 32 + delta

instance (delta n : Nat) : Decidable (Near delta n) := inferInstanceAs (Decidable (_ ∨ _))

/-- A hundred times the quotient of a count that grows: what is over from 2^32 goes into the old count. -/
def scaled (oldValue stat : Nat) : Nat := 100 * ((2 ^ 32 - (stat - oldValue)) / oldValue)

/-- A count has changed, and the test does not see it: it fell but not to 0, or it grew and the scaled quotient is near
    a multiple of 2^32. -/
def Missed (delta oldValue stat : Nat) : Prop :=
  Changed delta oldValue stat ∧
    (0 < stat ∧ stat < oldValue ∨ 0 < oldValue ∧ oldValue < stat ∧ Near delta (scaled oldValue stat))

/-- A count grew by no more than `delta` percent, and the scaled quotient is not near a multiple of 2^32. -/
def Spurious (delta oldValue stat : Nat) : Prop :=
  ¬Changed delta oldValue stat ∧ 0 < oldValue ∧ oldValue < stat ∧ ¬Near delta (scaled oldValue stat)

instance (delta oldValue stat : Nat) : Decidable (Missed delta oldValue stat) := inferInstanceAs (Decidable (_ ∧ _))

instance (delta oldValue stat : Nat) : Decidable (Spurious delta oldValue stat) := inferInstanceAs (Decidable (_ ∧ _))

/-- The test of a count says that it has changed. -/
def Seen (delta : Nat) (oldValue stat : UInt32) : Prop := changed delta oldValue stat = .ok true

theorem difference_ok (h : ¬(oldValue = 0 ∧ stat ≠ 0)) : ∃ diff, difference oldValue stat = .ok diff := by
  unfold difference
  by_cases he : oldValue = stat
  · exact ⟨0, if_pos he⟩
  · rw [if_neg he]
    have h0 : oldValue ≠ 0 := by
      intro h0
      apply h
      exact ⟨h0, fun hs => he (h0.trans hs.symm)⟩
    exact ⟨_, if_neg h0⟩

theorem changed_ok (delta : Nat) (oldValue stat : UInt32) : ∃ b, changed delta oldValue stat = .ok b := by
  unfold changed
  by_cases h : oldValue = 0 ∧ stat ≠ 0
  · exact ⟨true, if_pos h⟩
  · obtain ⟨diff, hdiff⟩ := difference_ok h
    rw [if_neg h, hdiff]
    exact ⟨_, rfl⟩

/-- An inttype is more than `delta` from 0 exactly if its unsigned value is not near a multiple of 2^32. -/
theorem exceeds_iff (hd : delta ≤ 100) (x : UInt32) : exceeds delta x.toInt32.toInt = true ↔ ¬Near delta x.toNat := by
  have hlt := x.toNat_lt
  have hint : x.toInt32.toInt = if 2 * x.toNat < 2 ^ 32 then (x.toNat : Int) else (x.toNat : Int) - 2 ^ 32 := by
    show x.toBitVec.toInt = _
    rw [BitVec.toInt_eq_toNat_cond]
    simp
  simp only [exceeds, hint, Near, Nat.mod_eq_of_lt hlt, Bool.or_eq_true, decide_eq_true_eq]
  split <;> omega

theorem scaled_toNat (oldValue stat : UInt32) : ((oldValue - stat) / oldValue * 100).toNat % 2 ^ 32 =
    if oldValue.toNat < stat.toNat then scaled oldValue.toNat stat.toNat % 2 ^ 32
    else 100 * ((oldValue.toNat - stat.toNat) / oldValue.toNat) % 2 ^ 32 := by
  have ho := oldValue.toNat_lt
  have hs := stat.toNat_lt
  have hsub : (oldValue - stat).toNat =
      if oldValue.toNat < stat.toNat then 2 ^ 32 - (stat.toNat - oldValue.toNat) else oldValue.toNat - stat.toNat := by
    rw [UInt32.toNat_sub]
    split <;> omega
  rw [UInt32.toNat_mul, UInt32.toNat_div, hsub, Nat.mod_mod, Nat.mul_comm]
  split <;> rfl

theorem seen_zero : Seen delta 0 stat ↔ stat ≠ 0 := by
  by_cases h : stat = 0
  · subst h
    simp [Seen, changed, difference, exceeds, Except.map]
  · simp [Seen, changed, h]

theorem seen_same (oldValue : UInt32) : ¬Seen delta oldValue oldValue := by
  by_cases h : oldValue = 0
  · subst h
    simp [seen_zero]
  · simp [Seen, changed, difference, exceeds, Except.map, h]

theorem seen_other (hd : delta ≤ 100) (h0 : oldValue ≠ 0) (hne : oldValue ≠ stat) : Seen delta oldValue stat ↔
    ¬Near delta ((oldValue - stat) / oldValue * 100).toNat := by
  have hok : changed delta oldValue stat = .ok (exceeds delta ((oldValue - stat) / oldValue * 100).toInt32.toInt) := by
    simp [changed, difference, h0, hne, Except.map]
  rw [Seen, hok, ← exceeds_iff hd]
  simp

/-- The test sees the changes it does not miss, and the ones there are not. -/
theorem seen_iff (hd : delta ≤ 100) : Seen delta oldValue stat ↔
    (Changed delta oldValue.toNat stat.toNat ∧ ¬Missed delta oldValue.toNat stat.toNat) ∨
      Spurious delta oldValue.toNat stat.toNat := by
  by_cases h0 : oldValue = 0
  · subst h0
    rw [seen_zero]
    have hpos : stat ≠ 0 ↔ 0 < stat.toNat := by
      rw [Ne, ← UInt32.toNat_inj, UInt32.toNat_zero]
      omega
    simp [hpos, Changed, Missed, Spurious]
  have hold : 0 < oldValue.toNat := by
    rw [← UInt32.toNat_inj, UInt32.toNat_zero] at h0
    omega
  by_cases hne : oldValue = stat
  · subst hne
    simp [seen_same, Changed, Spurious]
  rw [seen_other hd h0 hne]
  have hmod := scaled_toNat oldValue stat
  rcases Nat.lt_trichotomy oldValue.toNat stat.toNat with hgrow | heq | hfall
  · -- growth: the test is right or wrong with the scaled quotient
    rw [if_pos hgrow] at hmod
    have hnear : Near delta ((oldValue - stat) / oldValue * 100).toNat ↔ Near delta (scaled oldValue.toNat stat.toNat) := by
      simp only [Near, hmod]
    rw [hnear]
    have hno : ¬(0 < stat.toNat ∧ stat.toNat < oldValue.toNat) := by omega
    by_cases hc : Changed delta oldValue.toNat stat.toNat
    · simp [Missed, Spurious, hc, hno, hold, hgrow]
    · simp [Spurious, hc, hold, hgrow]
  · exact absurd (UInt32.toNat_inj.mp heq) hne
  · rw [if_neg (by omega)] at hmod
    have hno : ¬oldValue.toNat < stat.toNat := by omega
    by_cases hs : stat.toNat = 0
    · -- a count that falls to 0 has changed by all of it
      rw [hs, Nat.sub_zero, Nat.div_self hold] at hmod
      have hnear : Near delta ((oldValue - stat) / oldValue * 100).toNat ↔ 100 ≤ delta := by
        simp only [Near, hmod]
        omega
      have hchanged : Changed delta oldValue.toNat stat.toNat ↔ delta < 100 := by
        simp only [Changed, hs, Nat.sub_zero, Nat.zero_sub, Nat.mul_zero, Nat.not_lt_zero, false_or]
        exact Nat.mul_lt_mul_right hold
      rw [hnear, Missed, Spurious, hchanged]
      omega
    · have hquot : (oldValue.toNat - stat.toNat) / oldValue.toNat = 0 := by
        apply Nat.div_eq_of_lt
        omega
      rw [hquot] at hmod
      have hnear : Near delta ((oldValue - stat) / oldValue * 100).toNat := by
        left
        rw [hmod]
        exact Nat.zero_le _
      have hpos : 0 < stat.toNat := Nat.pos_of_ne_zero hs
      have hmissed : Changed delta oldValue.toNat stat.toNat → Missed delta oldValue.toNat stat.toNat :=
        fun hc => ⟨hc, .inl ⟨hpos, hfall⟩⟩
      constructor
      · intro h
        exact absurd hnear h
      · rintro (⟨hc, hm⟩ | ⟨-, -, hgrow, -⟩)
        · exact absurd (hmissed hc) hm
        · exact absurd hgrow hno

end Count

/-! ## The loop -/

section Loop

variable {m : Map} {delta percent index other : Nat} {force : Bool} {extra : ExtraStatistics} {s s' : St}

/-- One of the counts of a file is seen to have changed. -/
def SeenAt (m : Map) (delta : Nat) (extra : ExtraStatistics) (index : Nat) : Prop :=
  Seen delta (extra.valueFragmentationTotalCount index) (m.valueTotalCounts index) ∨
    Seen delta (extra.valueFragmentationDeadCount index) (m.valueDeadCounts index)

theorem rewrites_ok (m : Map) (delta : Nat) (extra : ExtraStatistics) (index : Nat) :
    ∃ b, rewrites m delta extra index = .ok b ∧ (Unchanged m extra index → (b = true ↔ SeenAt m delta extra index)) := by
  obtain ⟨total, htotal⟩ := changed_ok delta (extra.valueFragmentationTotalCount index) (m.valueTotalCounts index)
  obtain ⟨dead, hdead⟩ := changed_ok delta (extra.valueFragmentationDeadCount index) (m.valueDeadCounts index)
  have hseen : SeenAt m delta extra index ↔ total = true ∨ dead = true := by simp [SeenAt, Seen, htotal, hdead]
  unfold rewrites
  rw [htotal, hdead]
  by_cases hq : (valueCompression m extra.compressionQualified).1 = extra.compressionQualified
  · by_cases hmode : m.valueCompressMode = true
    · -- the percentage's test comes last
      refine ⟨(total || dead) || exceeds delta (compressionDiff m extra index), ?_, ?_⟩
      · cases total <;> cases dead <;> simp [orElse, hq, hmode, bind, Except.bind, pure, Except.pure]
      · intro hu
        have hzero : exceeds delta (compressionDiff m extra index) = false := by
          simp [hu.percentage hmode, exceeds]
        simp [hseen, hzero]
    · refine ⟨total || dead, ?_, fun _ => by simp [hseen]⟩
      cases total <;> cases dead <;> simp [orElse, hq, hmode, bind, Except.bind, pure, Except.pure]
  · refine ⟨true, ?_, fun hu => absurd hu.qualified hq⟩
    simp [orElse, Ne.symm hq, bind, Except.bind, pure, Except.pure]

/-- A turn leaves the other files' statistics and whether they are written. -/
theorem visit_ok (m : Map) (delta : Nat) (s : St) (index : Nat) : ∃ s', visit m delta s (some index) = .ok s' ∧
    s'.extra.compressionQualified = (valueCompression m s.extra.compressionQualified).2 ∧
    (∀ other, other ≠ index → (other ∈ s'.written ↔ other ∈ s.written) ∧
      s'.extra.compressionPercentage other = s.extra.compressionPercentage other ∧
      s'.extra.valueFragmentationTotalCount other = s.extra.valueFragmentationTotalCount other ∧
      s'.extra.valueFragmentationDeadCount other = s.extra.valueFragmentationDeadCount other) ∧
    (Unchanged m s.extra index → (index ∈ s'.written ↔ index ∈ s.written ∨ SeenAt m delta s.extra index)) := by
  obtain ⟨b, hb, hseen⟩ := rewrites_ok m delta s.extra index
  unfold visit
  simp only [hb, bind, Except.bind, pure, Except.pure]
  cases b with
  | true =>
    refine ⟨_, rfl, rfl, ?_, ?_⟩
    · intro other hne
      simp only [store, Function.update_of_ne hne, List.mem_cons, hne, false_or]
      refine ⟨trivial, ?_, trivial, trivial⟩
      split <;> simp [Function.update_of_ne hne]
    · intro hu
      simp [(hseen hu).mp rfl]
  | false =>
    refine ⟨_, rfl, rfl, fun other _ => ⟨Iff.rfl, rfl, rfl, rfl⟩, ?_⟩
    intro hu
    have hno : ¬SeenAt m delta s.extra index := fun h => by simpa using (hseen hu).mpr h
    simp [hno]

theorem valueCompression_stays {q : Bool} (h : (valueCompression m q).1 = q) : (valueCompression m q).2 = q := by
  cases q with
  | false => rfl
  | true =>
    cases hs : m.spaceSavings with
    | none => simp [valueCompression, hs]
    | some n => simpa [valueCompression, hs] using h

/-- The loop ends, and leaves alone what it does not come to. -/
theorem visits_other (m : Map) (delta : Nat) (files : List (Option Nat)) (s : St) :
    ∃ s', files.foldlM (visit m delta) s = .ok s' ∧
      ∀ index, some index ∉ files → (index ∈ s'.written ↔ index ∈ s.written) := by
  induction files generalizing s with
  | nil => exact ⟨s, rfl, fun _ _ => Iff.rfl⟩
  | cons file files ih =>
    cases file with
    | none =>
      obtain ⟨s', hs', hw⟩ := ih s
      exact ⟨s', hs', fun index hn => hw index fun h => hn (List.mem_cons_of_mem _ h)⟩
    | some file =>
      obtain ⟨s1, hs1, -, hother, -⟩ := visit_ok m delta s file
      obtain ⟨s', hs', hw⟩ := ih s1
      refine ⟨s', ?_, ?_⟩
      · rw [List.foldlM_cons, hs1]
        exact hs'
      · intro index hn
        have hne : index ≠ file := by
          intro he
          apply hn
          simp [he]
        rw [hw index fun h => hn (List.mem_cons_of_mem _ h), (hother index hne).1]

/-- Over the whole loop a file is written exactly if one of its counts is seen to have changed. -/
theorem visits_written (hu : Unchanged m s.extra index) {files : List (Option Nat)} (hd : (files.filterMap id).Nodup)
    (hmem : some index ∈ files) (h : files.foldlM (visit m delta) s = .ok s') :
    index ∈ s'.written ↔ index ∈ s.written ∨ SeenAt m delta s.extra index := by
  induction files generalizing s with
  | nil => cases hmem
  | cons file files ih =>
    cases file with
    | none => exact ih hu hd (by simpa using hmem) h
    | some file =>
      obtain ⟨hfresh, hd⟩ := List.nodup_cons.mp hd
      obtain ⟨s1, hs1, hflag, hother, hself⟩ := visit_ok m delta s file
      have hrest : files.foldlM (visit m delta) s1 = .ok s' := by
        rw [List.foldlM_cons, hs1] at h
        exact h
      by_cases he : index = file
      · -- the files behind do not come back to it
        subst he
        have hn : some index ∉ files := fun hin => hfresh (List.mem_filterMap.mpr ⟨_, hin, rfl⟩)
        obtain ⟨s2, hs2, hw⟩ := visits_other m delta files s1
        cases hs2.symm.trans hrest
        rw [hw index hn, hself hu]
      · obtain ⟨hwritten, hpercentage, htotal, hdead⟩ := hother index he
        have hu1 : Unchanged m s1.extra index := by
          refine ⟨?_, fun hmode => ?_⟩
          · rw [hflag, valueCompression_stays hu.qualified]
            exact hu.qualified
          · rw [← hu.percentage hmode, compressionDiff, hpercentage]
            rfl
        have hat : SeenAt m delta s1.extra index ↔ SeenAt m delta s.extra index := by
          rw [SeenAt, htotal, hdead]
          rfl
        have hin : some index ∈ files := by simpa [he] using hmem
        rw [ih hu1 hd hin hrest, hwritten, hat]

theorem writes_iff (percent : Nat) (force : Bool) (hmem : some index ∈ m.xwfiles.files) (hu : Unchanged m extra index) :
    ∃ s, writeValueStatistics m percent force extra = .ok s ∧
      (index ∈ s.written ↔ SeenAt m (deltaOf percent force) extra index) := by
  obtain ⟨s, hs, -⟩ := visits_other m (deltaOf percent force) m.xwfiles.files ⟨extra, []⟩
  refine ⟨s, hs, ?_⟩
  rw [visits_written hu m.xwfiles.distinct hmem hs]
  simp

end Loop

/-! ## When the rule holds -/

/-- Of two counts, none is judged wrongly unless the other makes up for it: a change that is missed, by one that the test
    sees; one that is none, by a change. -/
structure MakesUp (delta oldTotal total oldDead dead : Nat) : Prop where
  missedTotal : Missed delta oldTotal total → Changed delta oldDead dead ∧ ¬Missed delta oldDead dead ∨ Spurious delta oldDead dead
  missedDead : Missed delta oldDead dead →
    Changed delta oldTotal total ∧ ¬Missed delta oldTotal total ∨ Spurious delta oldTotal total
  spuriousTotal : Spurious delta oldTotal total → Changed delta oldDead dead
  spuriousDead : Spurious delta oldDead dead → Changed delta oldTotal total

theorem makesUp_iff {delta oldTotal total oldDead dead : Nat} : MakesUp delta oldTotal total oldDead dead ↔
    ((Changed delta oldTotal total ∧ ¬Missed delta oldTotal total ∨ Spurious delta oldTotal total) ∨
        (Changed delta oldDead dead ∧ ¬Missed delta oldDead dead ∨ Spurious delta oldDead dead) ↔
      Changed delta oldTotal total ∨ Changed delta oldDead dead) := by
  constructor
  · intro h
    constructor
    · rintro ((⟨hc, -⟩ | hs) | (⟨hc, -⟩ | hs))
      · exact .inl hc
      · exact .inr (h.spuriousTotal hs)
      · exact .inr hc
      · exact .inl (h.spuriousDead hs)
    · rintro (hc | hc)
      · by_cases hm : Missed delta oldTotal total
        · exact .inr (h.missedTotal hm)
        · exact .inl (.inl ⟨hc, hm⟩)
      · by_cases hm : Missed delta oldDead dead
        · exact .inl (h.missedDead hm)
        · exact .inr (.inl ⟨hc, hm⟩)
  · intro h
    refine ⟨?_, ?_, ?_, ?_⟩
    · intro hm
      rcases h.mpr (.inl hm.1) with (⟨-, hn⟩ | hs) | hseen
      · exact absurd hm hn
      · exact absurd hm.1 hs.1
      · exact hseen
    · intro hm
      rcases h.mpr (.inr hm.1) with hseen | ⟨-, hn⟩ | hs
      · exact hseen
      · exact absurd hm hn
      · exact absurd hm.1 hs.1
    · intro hs
      exact (h.mp (.inl (.inr hs))).resolve_left hs.1
    · intro hs
      exact (h.mp (.inr (.inr hs))).resolve_right hs.1

/-- The rule holds for a file exactly if its counts make up for each other. -/
theorem rule_iff (m : Map) (percent : Nat) (hp : percent ≤ 100) (force : Bool) (extra : ExtraStatistics) (index : Nat)
    (hmem : some index ∈ m.xwfiles.files) (hu : Unchanged m extra index) : Rule m percent force extra index ↔
      MakesUp (deltaOf percent force) (extra.valueFragmentationTotalCount index).toNat (m.valueTotalCounts index).toNat
        (extra.valueFragmentationDeadCount index).toNat (m.valueDeadCounts index).toNat := by
  have hdelta : deltaOf percent force ≤ 100 := by
    unfold deltaOf
    split
    · exact hp
    · exact Nat.zero_le _
  obtain ⟨s, hs, hw⟩ := writes_iff percent force hmem hu
  rw [SeenAt, seen_iff hdelta, seen_iff hdelta] at hw
  rw [makesUp_iff]
  constructor
  · rintro ⟨s', hs', hr⟩
    cases hs.symm.trans hs'
    exact hw.symm.trans hr
  · intro h
    exact ⟨s, hs, hw.trans h⟩

/-- The total falls to 0. -/
theorem rule_iff_emptied : Rule (oneFile 0) 2 false (stored 1000) 0 ↔ MakesUp 2 1000 0 0 0 :=
  rule_iff (oneFile 0) 2 (by decide) false (stored 1000) 0 (by simp [oneFile]) ⟨rfl, nofun⟩

end DeepFabric.Store.ValueStatistics
