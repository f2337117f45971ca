/-
  DeepFabric.Store.Reservation — blocks of automatic keys
  (core/RealTimeMap.cxx: reserve, updateReservationWatermark, getSegmentSize;
  core/RealTimeAdaptive.h: getSegmentInitialSize).

  One count goes up: `reserve` hands out the keys right behind it, or behind the caller's offset where that is higher,
  and leaves the count at the last of them; `updateReservationWatermark` raises it to a key some writer used. Keys
  below the count are never handed out again, also those an offset has jumped over. A block of 0 stands for a
  segment's size, which is never under 150.

  What an offset above the greatest reserved key gives is left open here: the room behind it is an unsigned
  subtraction (`as_built_offset_above_the_maximum`).
-/
import Mathlib.Algebra.Group.Int.Defs
import Mathlib.Algebra.Group.Nat.Defs
import DeepFabric.Lib.Run

namespace DeepFabric.Store.Reservation

open DeepFabric.Lib.Run
open UInt64 (le_iff_toNat_le le_refl lt_iff_toNat_lt not_lt toNat_add toNat_one)

inductive Fault where
  /-- PermissionException("reservation: not configured"). -/
  | permission
  deriving DecidableEq, Repr

/-- What of a map the two operations read. `keyBuilder` is the map's, as far as keys are reserved. -/
structure Map (K : Type) where
  hasReservation : Bool
  getReservedKey : K → UInt64
  maxReservedKey : UInt64
  /-- m_primaryIndex == null. -/
  isPrimary : Bool
  /-- Properties::s_segmentSize. -/
  s_segmentSize : Int32

/-! ## The size of a segment -/

def DEFAULT_SEGMENT_SIZE : Int := 1500
def NANO_ELEMENT_SIZE : Int := 500000 + 1
def MICRO_ELEMENT_SIZE : Int := 5000000 + 1
def MACRO_ELEMENT_SIZE : Int := 50000000 + 1

/-- Properties::getSegmentSize. -/
def getSegmentSize (s_segmentSize : Int32) : Int :=
  if s_segmentSize.toInt = 0 then DEFAULT_SEGMENT_SIZE else s_segmentSize.toInt

def getSegmentInitialSize (s_segmentSize : Int32) (entries : Int) (adaptive : Bool) : Int :=
  let configured := getSegmentSize s_segmentSize
  let segmentSize :=
    if adaptive = true ∧ configured = DEFAULT_SEGMENT_SIZE then
      if entries < NANO_ELEMENT_SIZE then configured.tdiv 10
      else if entries < MICRO_ELEMENT_SIZE then configured.tdiv 5
      else if entries < MACRO_ELEMENT_SIZE then configured.tdiv 2
      else configured
    else configured
  if segmentSize < 150 then 150 else segmentSize

theorem segmentSize_bounds (s_segmentSize : Int32) (entries : Int) (adaptive : Bool) :
    150 ≤ getSegmentInitialSize s_segmentSize entries adaptive ∧
      getSegmentInitialSize s_segmentSize entries adaptive < 2 ^ 31 := by
  have hlt := s_segmentSize.toInt_lt
  have hconfigured : getSegmentSize s_segmentSize < 2 ^ 31 := by
    unfold getSegmentSize DEFAULT_SEGMENT_SIZE
    split <;> omega
  by_cases hdefault : getSegmentSize s_segmentSize = DEFAULT_SEGMENT_SIZE
  · simp only [getSegmentInitialSize, hdefault, DEFAULT_SEGMENT_SIZE]
    split_ifs <;> decide
  · simp only [getSegmentInitialSize, hdefault, and_false, if_false]
    split <;> omega

/-! ## The operations -/

/-- What a call of reserve hands out. -/
structure Range where
  first : UInt64
  reserved : UInt64
  deriving DecidableEq, Repr

/-- The keys of a range, as numbers without a limit. -/
def Range.Has (r : Range) (key : Nat) : Prop := r.first.toNat ≤ key ∧ key < r.first.toNat + r.reserved.toNat

instance (r : Range) (key : Nat) : Decidable (r.Has key) := inferInstanceAs (Decidable (_ ∧ _))

structure St where
  incrementCount : UInt64
  /-- setAutoIncrementValue of the schema. -/
  autoIncrementValue : UInt64
  /-- The reserved key and block of the map's conductor in each transaction. -/
  conductor : Nat → Range
  /-- The ranges returned so far. -/
  returned : List Range
  /-- The keys observed so far. -/
  observed : List UInt64

/-- The count a map is seeded with stands for a key that was observed. -/
def init (incrementCount : UInt64) : St := ⟨incrementCount, incrementCount + 1, fun _ => ⟨0, 0⟩, [], [incrementCount]⟩

structure Outcome where
  result : Bool
  range : Range
  deriving DecidableEq, Repr

/-- `(ulongtype) getSegmentSize()` for a block below 1. -/
def blockOf {K : Type} (m : Map K) (entries : Int) (block : UInt64) : UInt64 :=
  if block < 1 then UInt64.ofNat (getSegmentInitialSize m.s_segmentSize entries true).toNat else block

/-- What the lock protects. -/
def allot (maxKey incrementCount offset block : UInt64) : Outcome :=
  if incrementCount < maxKey then
    let first := if incrementCount + 1 < offset then offset else incrementCount + 1
    let available := maxKey - first + 1
    ⟨true, first, if available < block then available else block⟩
  else ⟨false, maxKey, 0⟩

/-- What a call leaves: the count at the last key, the schema's value behind it. -/
def settle {K : Type} (m : Map K) (s : St) (tx : Nat) (out : Outcome) : St :=
  let count := if out.result then out.range.first + (out.range.reserved - 1) else s.incrementCount
  { s with
    incrementCount := count
    autoIncrementValue := if out.result then count + 1 else s.autoIncrementValue
    conductor := if m.isPrimary then Function.update s.conductor tx out.range else s.conductor
    returned := if out.result then out.range :: s.returned else s.returned }

/-- reserve in the transaction `tx`. `entries` is the map's size at the call. -/
def reserve {K : Type} (m : Map K) (s : St) (tx : Nat) (entries : Int) (offset block : UInt64) : Except Fault (Outcome × St) :=
  if m.hasReservation = false then .error .permission
  else
    let out := allot m.maxReservedKey s.incrementCount offset (blockOf m entries block)
    .ok (out, settle m s tx out)

def updateReservationWatermark {K : Type} (m : Map K) (s : St) (key : K) : St :=
  if m.hasReservation = true then
    let count := m.getReservedKey key
    if count > s.incrementCount then
      { s with incrementCount := count, autoIncrementValue := count + 1, observed := count :: s.observed }
    else { s with observed := count :: s.observed }
  else s

inductive Ev (K : Type) where
  | reserve (tx : Nat) (entries : Int) (offset block : UInt64)
  | watermark (key : K)
  deriving Repr

def step {K : Type} (m : Map K) (s : St) : Ev K → Option St
  | .reserve tx entries offset block => (reserve m s tx entries offset block).toOption.map (·.2)
  | .watermark key => some (updateReservationWatermark m s key)

/-! ## What a range should be -/

/-- A range of at least one key between 1 and the greatest key, from the offset on, that shares no key with any range
    returned before and lies above every key observed before. -/
structure Fresh {K : Type} (m : Map K) (s : St) (offset : UInt64) (r : Range) : Prop where
  reserved : 0 < r.reserved.toNat
  first : 1 ≤ r.first.toNat
  last : ∀ key, r.Has key → key ≤ m.maxReservedKey.toNat
  offset : offset ≤ r.first
  returned : ∀ q ∈ s.returned, ∀ key, q.Has key → ¬r.Has key
  observed : ∀ key ∈ s.observed, key < r.first

/-- It is above every range returned before, too. -/
structure Above {K : Type} (m : Map K) (s : St) (offset : UInt64) (r : Range) : Prop extends Fresh m s offset r where
  above : ∀ q ∈ s.returned, ∀ key, q.Has key → key < r.first.toNat

/-- A call returns a range of the kind, or fails with nothing reserved and the count as it was if there is none. -/
def Grants {K : Type} (m : Map K) (Kind : St → UInt64 → Range → Prop) (s : St) (tx : Nat) (entries : Int)
    (offset block : UInt64) : Prop :=
  ∃ out s', reserve m s tx entries offset block = .ok (out, s') ∧
    (out.result = true → Kind s offset out.range) ∧
    (out.result = false → out.range.reserved = 0 ∧ s'.incrementCount = s.incrementCount) ∧
    (out.result = false ↔ ¬∃ r, Kind s offset r)

/-! ## Runs as built -/

/-- A one byte key with sign. -/
def tiny : Map UInt64 := ⟨true, id, 127, true, 0⟩

def afterGap : St := ⟨127, 128, Function.update (fun _ => ⟨0, 0⟩) 1 ⟨127, 1⟩, [⟨127, 1⟩], [0]⟩

theorem gap_is_fresh : Fresh tiny afterGap 1 ⟨1, 1⟩ := by
  refine ⟨by decide, by decide, ?_, by decide, ?_, ?_⟩
  · intro key hkey
    have hlt : key < 1 + 1 := hkey.2
    show key ≤ 127
    omega
  · intro q hq key hkey hboth
    obtain rfl := List.mem_singleton.mp hq
    have hge : 127 ≤ key := hkey.1
    have hlt : key < 1 + 1 := hboth.2
    omega
  · intro key hkey
    rw [List.mem_singleton.mp hkey]
    decide

/-- The keys 1 to 126 are never handed out. -/
theorem as_built_gap_is_not_filled :
    ¬∀ s, Reach (step tiny) Free (init 0) s → ∀ offset, Grants tiny (Fresh tiny) s 1 0 offset 1 := by
  intro h
  obtain ⟨out, s', hres, -, -, hiff⟩ := h afterGap (reach_of_exec [.reserve 1 0 127 1] rfl) 1
  cases hres
  exact hiff.mp rfl ⟨_, gap_is_fresh⟩

/-- Behind the greatest key there are 2^64 - 72 keys, as the subtraction has it. -/
theorem as_built_offset_above_the_maximum :
    allot 127 0 200 9223372036854775808 = ⟨true, 200, 9223372036854775808⟩ := by decide

/-! ## One call -/

section Call

variable {maxKey incrementCount offset block : UInt64}

/-- What the lock protects, where the offset is not above the greatest key. -/
theorem allot_room (hblock : 0 < block.toNat) (hoffset : offset ≤ maxKey) (hlt : incrementCount < maxKey) :
    ∃ first reserved : UInt64, allot maxKey incrementCount offset block = ⟨true, first, reserved⟩ ∧
      incrementCount.toNat < first.toNat ∧ offset ≤ first ∧ 0 < reserved.toNat ∧
      first.toNat + reserved.toNat ≤ maxKey.toNat + 1 ∧
      (first + (reserved - 1)).toNat + 1 = first.toNat + reserved.toNat := by
  have hmax := maxKey.toNat_lt
  have hnext : (incrementCount + 1).toNat = incrementCount.toNat + 1 := by
    rw [toNat_add, toNat_one]
    have := lt_iff_toNat_lt.mp hlt
    omega
  obtain ⟨first, hfirst⟩ : ∃ first, (if incrementCount + 1 < offset then offset else incrementCount + 1) = first := ⟨_, rfl⟩
  have hcount : incrementCount.toNat < first.toNat ∧ offset ≤ first ∧ first ≤ maxKey := by
    rw [← hfirst]
    rw [lt_iff_toNat_lt] at hlt
    rw [le_iff_toNat_le] at hoffset
    split
    · rename_i h
      rw [lt_iff_toNat_lt, hnext] at h
      exact ⟨by omega, le_refl _, le_iff_toNat_le.mpr hoffset⟩
    · rename_i h
      rw [lt_iff_toNat_lt, hnext] at h
      refine ⟨by omega, ?_, ?_⟩
      · rw [le_iff_toNat_le]
        omega
      · rw [le_iff_toNat_le]
        omega
  obtain ⟨hlow, hoff, hhigh⟩ := hcount
  have hroom : (maxKey - first + 1).toNat = maxKey.toNat - first.toNat + 1 := by
    rw [toNat_add, UInt64.toNat_sub_of_le _ _ hhigh, toNat_one]
    omega
  obtain ⟨reserved, hreserved⟩ :
      ∃ reserved, (if maxKey - first + 1 < block then maxKey - first + 1 else block) = reserved := ⟨_, rfl⟩
  have hsize : 0 < reserved.toNat ∧ first.toNat + reserved.toNat ≤ maxKey.toNat + 1 := by
    rw [← hreserved]
    rw [le_iff_toNat_le] at hhigh
    split
    · omega
    · rename_i h
      rw [lt_iff_toNat_lt] at h
      omega
  refine ⟨first, reserved, ?_, hlow, hoff, hsize.1, hsize.2, ?_⟩
  · simp [allot, hlt, hfirst, hreserved]
  · have hone : (1 : UInt64) ≤ reserved := by
      rw [le_iff_toNat_le, toNat_one]
      exact hsize.1
    rw [toNat_add, UInt64.toNat_sub_of_le _ _ hone, toNat_one]
    omega

theorem allot_full (hge : ¬incrementCount < maxKey) : allot maxKey incrementCount offset block = ⟨false, maxKey, 0⟩ := by
  simp [allot, hge]

theorem blockOf_pos {K : Type} (m : Map K) (entries : Int) (block : UInt64) : 0 < (blockOf m entries block).toNat := by
  unfold blockOf
  split
  · have hbounds := segmentSize_bounds m.s_segmentSize entries true
    rw [UInt64.toNat_ofNat', Nat.mod_eq_of_lt] <;> omega
  · rename_i h
    rw [lt_iff_toNat_lt, toNat_one] at h
    omega

end Call

/-! ## Runs -/

/-- The count is at the end of all that was returned or observed. -/
structure Inv (s : St) : Prop where
  returned : ∀ q ∈ s.returned, ∀ key, q.Has key → key ≤ s.incrementCount.toNat
  observed : ∀ key ∈ s.observed, key ≤ s.incrementCount
  reached : s.incrementCount ∈ s.observed ∨ ∃ q ∈ s.returned, q.Has s.incrementCount.toNat

/-- The offset is one of the keys. -/
def Within {K : Type} (m : Map K) (_ : St) : Ev K → Prop
  | .reserve _ _ offset _ => offset ≤ m.maxReservedKey
  | .watermark _ => True

section Runs

variable {K : Type} {m : Map K} {s s' : St} {e : Ev K} {tx : Nat} {entries : Int} {offset block : UInt64}

theorem init_inv (incrementCount : UInt64) : Inv (init incrementCount) where
  returned := by simp [init]
  observed := by simp [init]
  reached := by simp [init]

theorem reserve_eq (hm : m.hasReservation = true) : reserve m s tx entries offset block =
    .ok (allot m.maxReservedKey s.incrementCount offset (blockOf m entries block),
      settle m s tx (allot m.maxReservedKey s.incrementCount offset (blockOf m entries block))) := by
  simp [reserve, hm]

/-- Keys right behind the count or at the offset. -/
structure Room (m : Map K) (s : St) (offset : UInt64) (r : Range) : Prop where
  low : s.incrementCount.toNat < r.first.toNat
  offset : offset ≤ r.first
  reserved : 0 < r.reserved.toNat
  last : r.first.toNat + r.reserved.toNat ≤ m.maxReservedKey.toNat + 1
  count : (r.first + (r.reserved - 1)).toNat + 1 = r.first.toNat + r.reserved.toNat

/-- With room left a call returns such keys, and without it fails. -/
theorem allot_cases (entries : Int) (block : UInt64) (hoffset : offset ≤ m.maxReservedKey) :
    (s.incrementCount < m.maxReservedKey ∧ ∃ r, allot m.maxReservedKey s.incrementCount offset (blockOf m entries block) = ⟨true, r⟩ ∧
      Room m s offset r) ∨
    (m.maxReservedKey ≤ s.incrementCount ∧
      allot m.maxReservedKey s.incrementCount offset (blockOf m entries block) = ⟨false, m.maxReservedKey, 0⟩) := by
  by_cases hlt : s.incrementCount < m.maxReservedKey
  · obtain ⟨first, reserved, hallot, hlow, hoff, hpos, hle, hcount⟩ := allot_room (blockOf_pos m entries block) hoffset hlt
    exact .inl ⟨hlt, ⟨first, reserved⟩, hallot, hlow, hoff, hpos, hle, hcount⟩
  · exact .inr ⟨not_lt.mp hlt, allot_full hlt⟩

theorem Room.above {r : Range} (hi : Inv s) (hr : Room m s offset r) : Above m s offset r where
  reserved := hr.reserved
  first := by
    have := hr.low
    omega
  last := by
    intro key hkey
    have hlast := hr.last
    have hlt := hkey.2
    omega
  offset := hr.offset
  returned := by
    intro q hq key hkey hboth
    have hle := hi.returned q hq key hkey
    have hge := hboth.1
    have hlow := hr.low
    omega
  observed := by
    intro key hkey
    have hle := le_iff_toNat_le.mp (hi.observed key hkey)
    rw [lt_iff_toNat_lt]
    have hlow := hr.low
    omega
  above := by
    intro q hq key hkey
    exact Nat.lt_of_le_of_lt (hi.returned q hq key hkey) hr.low

theorem Above.room {r : Range} (hi : Inv s) (hr : Above m s offset r) : s.incrementCount < m.maxReservedKey := by
  have hfirst : r.first.toNat ≤ m.maxReservedKey.toNat := by
    apply hr.last
    have := hr.reserved
    exact ⟨Nat.le_refl _, by omega⟩
  rw [lt_iff_toNat_lt]
  rcases hi.reached with hobs | ⟨q, hq, hkey⟩
  · have := lt_iff_toNat_lt.mp (hr.observed _ hobs)
    omega
  · have := hr.above q hq _ hkey
    omega

theorem settle_inv {r : Range} (hi : Inv s) (hr : Room m s offset r) :
    Inv (settle m s tx ⟨true, r⟩) ∧ s.incrementCount ≤ (settle m s tx ⟨true, r⟩).incrementCount := by
  have hcount := hr.count
  have hlow := hr.low
  have hpos := hr.reserved
  refine ⟨⟨?_, ?_, .inr ⟨r, List.mem_cons_self, ?_⟩⟩, ?_⟩
  · intro q hq key hkey
    show key ≤ (r.first + (r.reserved - 1)).toNat
    rcases List.mem_cons.mp hq with rfl | hq
    · have := hkey.2
      omega
    · have := hi.returned q hq key hkey
      omega
  · intro key hkey
    have hle := le_iff_toNat_le.mp (hi.observed key hkey)
    show key ≤ r.first + (r.reserved - 1)
    rw [le_iff_toNat_le]
    omega
  · show r.Has (r.first + (r.reserved - 1)).toNat
    exact ⟨by omega, by omega⟩
  · show s.incrementCount ≤ r.first + (r.reserved - 1)
    rw [le_iff_toNat_le]
    omega

theorem watermark_inv (hi : Inv s) (key : K) : Inv (updateReservationWatermark m s key) ∧
    s.incrementCount ≤ (updateReservationWatermark m s key).incrementCount := by
  unfold updateReservationWatermark
  by_cases hm : m.hasReservation = true
  · by_cases hgt : m.getReservedKey key > s.incrementCount
    · have hle : s.incrementCount ≤ m.getReservedKey key := UInt64.le_of_lt hgt
      simp only [hm, hgt, if_true]
      refine ⟨⟨?_, ?_, .inl List.mem_cons_self⟩, hle⟩
      · intro q hq k hk
        exact Nat.le_trans (hi.returned q hq k hk) (le_iff_toNat_le.mp hle)
      · intro k hk
        rcases List.mem_cons.mp hk with rfl | hk
        · exact le_refl _
        · exact UInt64.le_trans (hi.observed k hk) hle
    · simp only [hm, hgt, if_true, if_false]
      refine ⟨⟨hi.returned, ?_, ?_⟩, le_refl _⟩
      · intro k hk
        rcases List.mem_cons.mp hk with rfl | hk
        · exact not_lt.mp hgt
        · exact hi.observed k hk
      · rcases hi.reached with hobs | hret
        · exact .inl (List.mem_cons_of_mem _ hobs)
        · exact .inr hret
  · simp only [hm]
    exact ⟨hi, le_refl _⟩

theorem step_inv (hi : Inv s) (hw : Within m s e) (h : step m s e = some s') :
    Inv s' ∧ s.incrementCount ≤ s'.incrementCount := by
  cases e with
  | reserve tx entries offset block =>
    by_cases hm : m.hasReservation = true
    · rw [step, reserve_eq hm] at h
      cases h
      rcases allot_cases (s := s) entries block hw with ⟨-, r, hallot, hr⟩ | ⟨-, hallot⟩
      · simp only [hallot]
        exact settle_inv hi hr
      · simp only [hallot]
        exact ⟨⟨hi.returned, hi.observed, hi.reached⟩, le_refl _⟩
    · simp [step, reserve, hm, Except.toOption] at h
  | watermark key =>
    cases h
    exact watermark_inv hi key

theorem run_inv {incrementCount : UInt64} (h : Reach (step m) (Within m) (init incrementCount) s) : Inv s :=
  h.inv (init_inv incrementCount) fun hi hw hs => (step_inv hi hw hs).1

/-- In a run whose offsets are keys, the count never falls, and a call with such an offset returns keys above all that
    was returned or observed or, if there are none, fails. -/
theorem reserve_above (hm : m.hasReservation = true) (incrementCount : UInt64)
    (h : Reach (step m) (Within m) (init incrementCount) s) :
    (∀ e s', Within m s e → step m s e = some s' → s.incrementCount ≤ s'.incrementCount) ∧
      ∀ tx entries offset block, offset ≤ m.maxReservedKey → Grants m (Above m) s tx entries offset block := by
  have hi := run_inv h
  refine ⟨fun e s' hw hs => (step_inv hi hw hs).2, ?_⟩
  intro tx entries offset block hoffset
  refine ⟨_, _, reserve_eq hm, ?_⟩
  rcases allot_cases (s := s) entries block hoffset with ⟨-, r, hallot, hr⟩ | ⟨hge, hallot⟩
  · have habove := hr.above hi
    rw [hallot]
    exact ⟨fun _ => habove, nofun, nofun, fun h => absurd ⟨r, habove⟩ h⟩
  · rw [hallot]
    refine ⟨nofun, fun _ => ⟨rfl, rfl⟩, ?_, fun _ => rfl⟩
    rintro - ⟨r, hr⟩
    exact absurd (hr.room hi) (not_lt.mpr hge)

/-- The run that comes back to a lower offset is one of them. -/
theorem reserve_above_afterGap : tiny.hasReservation = true ∧ Grants tiny (Above tiny) afterGap 1 0 1 1 := by
  have hreach : Reach (step tiny) (Within tiny) (init 0) afterGap := .step (.reserve 1 0 127 1) .init (show (127 : UInt64) ≤ 127 by decide) rfl
  exact ⟨rfl, (reserve_above rfl 0 hreach).2 1 0 1 1 (by decide)⟩

end Runs

end DeepFabric.Store.Reservation
