/-
  DeepFabric.Store.FileRange — the files of a segment, and what of them is stored: the greatest
  index, and a byte for the eight below it (`Segment.h`, built without `DEEP_DEBUG`).

  The set of the loops that fold indexes into the byte refers to their variables, so it moves
  `currentIndex` if it moves; the greatest index comes first, so it never does.
-/
import Mathlib.Data.List.Pairwise
import Mathlib.Data.List.Sort
import DeepFabric.Platform.NumberRangeSet

namespace DeepFabric.Store.FileRanges

open DeepFabric.Lib DeepFabric.Platform.NumberRangeSets List

def DEFAULT_SEGMENT_FILE_RANGE : Int := 8

/-- `ushorttype`. -/
abbrev Short := Fin 65536

def toShort (value : Int) : Short := Fin.ofNat 65536 (value % 65536).toNat

/-- `TreeSet<ushorttype>`, of which an element that is there already is put in once more. -/
structure Indexes where
  elements : List Short
  ascending : elements.Pairwise (· ≤ ·)

namespace Indexes

def empty : Indexes := ⟨[], .nil⟩

def add (s : Indexes) (index : Short) : Indexes := ⟨s.elements.orderedInsert (· ≤ ·) index, s.ascending.orderedInsert index _⟩

/-- `NULL_VALUE` if there is none. -/
def last (s : Indexes) : Short := s.elements.getLast?.getD 0

instance : Membership Short Indexes := ⟨fun s index => index ∈ s.elements⟩

end Indexes

/-- A stream file is `old`, or not. Another reference to it takes its place. -/
abbrev Streams := SortedMap Short Bool

structure Segment where
  paged : Bool
  pagingIndexes : Indexes
  streamIndexes : Streams

/-! ## The variables of a call -/

/-- The set of a call refers to its `currentIndex` and `range`, both at 0; the `index` of its loop is at 1. -/
def rangeSet : FileRangeSet := ⟨0, 0⟩

def locals (currentIndex : Short) (range : BitVec 8) : Memory := ⟨fun _ => currentIndex.val, fun _ => range⟩

def assignIndex (m : Memory) (index : Short) : Memory := { m with index := Function.update m.index 1 index.val }

section

variable (shl : Shift)

/-- The loop of `getPagingRange` and of `getStreamRange`. -/
def addIndexes : List Short → Memory → Memory
  | [], m => m
  | index :: rest, m =>
    let m := assignIndex m index
    if m.index 1 = m.index 0 then addIndexes rest m else addIndexes rest (m.add shl rangeSet 1).1

/-- The loop of `getStreamRangeOverflow`. -/
def findOverflow (includeOld : Bool) : List (Short × Bool) → Memory → Bool → Bool
  | [], _, overflow => overflow
  | (fileIndex, old) :: rest, m, overflow =>
    let m := assignIndex m fileIndex
    if m.index 1 = m.index 0 then findOverflow includeOld rest m overflow
    else if includeOld || !old then
      let (m, _, overflow) := m.add shl rangeSet 1
      if overflow then overflow else findOverflow includeOld rest m overflow
    else findOverflow includeOld rest m overflow

namespace Segment

def new : Segment := ⟨false, .empty, .empty⟩

/-! ## Paging -/

def getCurrentPagingIndex (s : Segment) : Short := s.pagingIndexes.last

def addPagingIndex (s : Segment) (fileIndex : Short) : Segment := { s with pagingIndexes := s.pagingIndexes.add fileIndex }

def setPagingRange (s : Segment) (fileRange : BitVec 8) : Segment :=
  let files : NumberRangeSet := (locals s.getCurrentPagingIndex fileRange).read rangeSet
  { s with pagingIndexes := files.toSet.entries.foldl (fun indexes e => indexes.add (toShort e.1)) s.pagingIndexes }

def getPagingRange (s : Segment) : BitVec 8 :=
  ((addIndexes shl s.pagingIndexes.elements (locals s.getCurrentPagingIndex 0)).read rangeSet).range

def validPagingRange (s : Segment) (fileIndex : Short) : Bool :=
  let diff : Int := (fileIndex.val : Int) - s.getCurrentPagingIndex.val
  if diff < 0 then false
  else if diff = 0 then true
  else diff ≤ DEFAULT_SEGMENT_FILE_RANGE && s.getPagingRange shl >>> (DEFAULT_SEGMENT_FILE_RANGE - diff).toNat == 0

/-- The variables of `files` are at 0, those of the incoming set at 1. -/
def wouldOverflowPaging (s : Segment) (fileIndex : Short) (fileRange : BitVec 8) : Bool :=
  if s.paged = false then false
  else
    let pagingIndex := s.getCurrentPagingIndex
    let pagingRange := s.getPagingRange shl
    let m : Memory := ⟨Function.update (fun _ => fileIndex.val) 0 pagingIndex.val, Function.update (fun _ => fileRange) 0 pagingRange⟩
    (m.addAll shl rangeSet ⟨1, 1⟩).2.2

/-! ## Streams -/

def getStreamed (s : Segment) : Bool := !s.streamIndexes.entries.isEmpty

def addStreamIndex (s : Segment) (fileIndex : Short) (old : Bool) : Segment := { s with streamIndexes := s.streamIndexes.put fileIndex old }

/-- The last one that is not old, -1 if all are. -/
def currentIndex : List (Short × Bool) → Int → Int
  | [], retVal => retVal
  | (fileIndex, old) :: rest, retVal => currentIndex rest (if old = false then fileIndex.val else retVal)

/-- `none` is a read through null. -/
def getCurrentStreamIndex (s : Segment) (includeOld : Bool) : Option Short := do
  let last ← s.streamIndexes.entries.getLast?
  if includeOld then return last.1
  if last.2 then return toShort (currentIndex s.streamIndexes.entries (-1))
  return last.1

def setStreamRange (s : Segment) (fileRange : BitVec 8) : Option Segment := do
  let files : NumberRangeSet := (locals (← s.getCurrentStreamIndex true) fileRange).read rangeSet
  return { s with streamIndexes := files.toSet.entries.foldl (fun indexes e => indexes.put (toShort e.1) false) s.streamIndexes }

def getStreamRange (s : Segment) : Option (BitVec 8) := do
  let m := locals (← s.getCurrentStreamIndex true) 0
  return ((addIndexes shl (s.streamIndexes.entries.map Prod.fst) m).read rangeSet).range

def getStreamRangeOverflow (s : Segment) (includeOld : Bool) : Option Bool :=
  if s.getStreamed = false then some false
  else do
    let m := locals (← s.getCurrentStreamIndex includeOld) 0
    return findOverflow shl includeOld s.streamIndexes.entries m false

/-! ## What is stored -/

/-- The paging indexes of a segment that is built from the current one and the range. -/
def restoredPaging (s : Segment) : Indexes :=
  ((new.addPagingIndex s.getCurrentPagingIndex).setPagingRange (s.getPagingRange shl)).pagingIndexes

def restoredStreams (s : Segment) : Option Streams := do
  let index ← s.getCurrentStreamIndex true
  let range ← s.getStreamRange shl
  let restored ← (new.addStreamIndex index false).setStreamRange range
  return restored.streamIndexes

end Segment

end

/-! ## One loop -/

section Loop

variable {shl : Shift} {m : Memory} {index x : Short} {l : List Short}

@[simp] theorem assignIndex_index : (assignIndex m index).index 1 = index.val := by simp [assignIndex]

@[simp] theorem assignIndex_current : (assignIndex m index).index 0 = m.index 0 := by simp [assignIndex]

theorem assignIndex_read : (assignIndex m index).read rangeSet = m.read rangeSet := by simp [Memory.read, rangeSet, assignIndex]

theorem read_index : (m.read rangeSet).index = m.index 0 := rfl

theorem contains_current : (m.read rangeSet).contains (m.index 0) = true := contains_iff.mpr ⟨rfl, .inl rfl⟩

theorem add_read : (((assignIndex m index).add shl rangeSet 1).1.read rangeSet = ((m.read rangeSet).add shl index.val).set) ∧
    ((assignIndex m index).add shl rangeSet 1).2.2 = ((m.read rangeSet).add shl index.val).overflow := by
  unfold Memory.add
  rw [assignIndex_index, assignIndex_read]
  exact ⟨read_write_self _ add_empty, rfl⟩

theorem add_current (hle : index.val ≤ m.index 0) : ((assignIndex m index).add shl rangeSet 1).1.index 0 = m.index 0 := by
  have h := congrArg NumberRangeSet.index (@add_read shl m index).1
  rw [add_index, if_neg (by simp [Memory.read])] at h
  exact h.trans (Nat.max_eq_left hle)

/-- Below the greatest index an `add` reports exactly what it turns down. -/
theorem overflow_below (hle : index.val ≤ m.index 0) :
    ((m.read rangeSet).add shl index.val).overflow = true ↔ index.val + 8 < m.index 0 := by
  rcases add_cases shl (m.read rangeSet) index.val with ⟨he, -⟩ | ⟨-, hi, h⟩ | ⟨-, hi, -⟩ | ⟨-, hi, h⟩ | ⟨-, hi, hn, h⟩
  · cases he
  · rw [h, ← read_index, ← hi]
    simp
  · rw [read_index] at hi
    omega
  · rw [h, ← read_index]
    simp [hi]
  · rw [h, ← read_index]
    simp [hn]

theorem considered_iff {includeOld old : Bool} : (includeOld || !old) = true ↔ includeOld = true ∨ old = false := by simp

/-- What the loop that looks for an overflow finds, where the greatest index of those it looks at is the current one. -/
theorem findOverflow_iff {includeOld : Bool} {streams : List (Short × Bool)}
    (hmax : ∀ e ∈ streams, includeOld = true ∨ e.2 = false → e.1.val ≤ m.index 0) :
    findOverflow shl includeOld streams m false = true ↔
      ∃ e ∈ streams, (includeOld = true ∨ e.2 = false) ∧ e.1.val + 8 < m.index 0 := by
  induction streams generalizing m with
  | nil => simp [findOverflow]
  | cons e streams ih =>
    obtain ⟨fileIndex, old⟩ := e
    have hrest : ∀ {m' : Memory}, m'.index 0 = m.index 0 → ∀ e ∈ streams, includeOld = true ∨ e.2 = false → e.1.val ≤ m'.index 0 :=
      fun h e he => h ▸ hmax e (mem_cons_of_mem _ he)
    rw [exists_mem_cons_iff]
    simp only [findOverflow, assignIndex_index, assignIndex_current]
    split_ifs with heq hold hover
    · rw [ih (hrest assignIndex_current), assignIndex_current]
      refine (or_iff_right fun h => ?_).symm
      omega
    · have hle := hmax _ mem_cons_self (considered_iff.mp hold)
      have hfar := (overflow_below hle).mp (add_read.2.symm.trans hover)
      exact ⟨fun _ => .inl ⟨considered_iff.mp hold, hfar⟩, fun _ => hover⟩
    · have hle := hmax _ mem_cons_self (considered_iff.mp hold)
      have hnear : ¬fileIndex.val + 8 < m.index 0 := fun h => hover (add_read.2.trans ((overflow_below hle).mpr h))
      rw [Bool.eq_false_iff.mpr hover, ih (hrest (add_current hle)), add_current hle]
      exact (or_iff_right fun h => hnear h.2).symm
    · rw [ih (hrest assignIndex_current), assignIndex_current]
      exact (or_iff_right fun h => hold (considered_iff.mpr h.1)).symm

variable (hshl : Documented shl)

include hshl

theorem addIndexes_read (hs : Sound (m.read rangeSet)) (hmax : ∀ y ∈ l, y.val ≤ m.index 0) :
    Sound ((addIndexes shl l m).read rangeSet) ∧ (addIndexes shl l m).index 0 = m.index 0 ∧
      ∀ x : Short, ((addIndexes shl l m).read rangeSet).contains x.val = true ↔
        (m.read rangeSet).contains x.val = true ∨ x ∈ l ∧ m.index 0 ≤ x.val + 8 := by
  induction l generalizing m with
  | nil =>
    refine ⟨hs, rfl, fun x => ?_⟩
    simp [addIndexes]
  | cons index l ih =>
    have hle := hmax index mem_cons_self
    have hrest : ∀ y ∈ l, y.val ≤ m.index 0 := fun y hy => hmax y (mem_cons_of_mem index hy)
    simp only [addIndexes, assignIndex_index, assignIndex_current]
    split_ifs with heq
    · obtain ⟨hs', hi, hc⟩ := ih (m := assignIndex m index) (by rwa [assignIndex_read]) (by rwa [assignIndex_current])
      refine ⟨hs', hi.trans assignIndex_current, fun x => (hc x).trans ?_⟩
      rw [assignIndex_current, assignIndex_read, mem_cons]
      constructor
      · exact Or.imp_right fun h => ⟨.inr h.1, h.2⟩
      · rintro (h | ⟨rfl | h, hx⟩)
        · exact .inl h
        · exact .inl (heq ▸ contains_current)
        · exact .inr ⟨h, hx⟩
    · have hcurrent : ((assignIndex m index).add shl rangeSet 1).1.index 0 = m.index 0 := add_current hle
      have hread : (((assignIndex m index).add shl rangeSet 1).1.read rangeSet) = ((m.read rangeSet).add shl index.val).set := add_read.1
      obtain ⟨hs', hi, hc⟩ := ih (m := ((assignIndex m index).add shl rangeSet 1).1) (by rw [hread]; exact add_sound hshl hs) (by rwa [hcurrent])
      refine ⟨hs', hi.trans hcurrent, fun x => (hc x).trans ?_⟩
      have hcontains := @add_contains shl _ index.val x.val hshl hs fun _ => by rw [read_index]; omega
      have hindex : ((m.read rangeSet).add shl index.val).set.index = m.index 0 := (congrArg NumberRangeSet.index hread).symm.trans hcurrent
      have hnear : (m.read rangeSet).contains x.val = true → m.index 0 ≤ x.val + 8 := fun h => (near_of_contains h).2
      rw [hread, hcontains, hcurrent, hindex, mem_cons, Fin.ext_iff]
      constructor
      · rintro (⟨h | h, hx⟩ | ⟨h, hx⟩)
        · exact .inl h
        · exact .inr ⟨.inl h, hx⟩
        · exact .inr ⟨.inr h, hx⟩
      · rintro (h | ⟨h | h, hx⟩)
        · exact .inl ⟨.inl h, hnear h⟩
        · exact .inl ⟨.inr h, hx⟩
        · exact .inr ⟨h, hx⟩

/-- What a call's loop makes of indexes of which the current one is the greatest. -/
theorem stored_contains {current : Short} (hmem : current ∈ l) (hmax : ∀ y ∈ l, y ≤ current) :
    Sound ((addIndexes shl l (locals current 0)).read rangeSet) ∧
      ((addIndexes shl l (locals current 0)).read rangeSet).index = current.val ∧
      ∀ x : Short, ((addIndexes shl l (locals current 0)).read rangeSet).contains x.val = true ↔ x ∈ l ∧ current.val ≤ x.val + 8 := by
  have hblank : Sound ((locals current 0).read rangeSet) := ⟨fun _ => rfl, fun k hk => by simp [Memory.read, locals] at hk⟩
  obtain ⟨hs, hindex, hcontains⟩ := addIndexes_read hshl (m := locals current 0) hblank hmax
  refine ⟨hs, hindex, fun x => (hcontains x).trans (or_iff_right_of_imp fun h => ?_)⟩
  have hx : x = current := by
    rcases (contains_iff.mp h).2 with h | ⟨k, hk, -⟩
    · exact Fin.ext h
    · simp [Memory.read, locals] at hk
  rw [hx]
  exact ⟨hmem, Nat.le_add_right _ _⟩

end Loop

theorem mem_opened {set : NumberRangeSet} (hshort : set.index < 65536) (x : Short) :
    (∃ e ∈ set.toSet.entries, toShort e.1 = x) ↔ set.contains x.val = true := by
  have hval : ∀ {n : Nat}, set.contains n = true → toShort n = x → x.val = n := by
    rintro n hn rfl
    have := (near_of_contains hn).1
    simp only [toShort, Fin.ofNat]
    omega
  constructor
  · rintro ⟨⟨n, ⟨⟩⟩, he, hx⟩
    have hn := mem_toSet.mp (SortedMap.mem_entries.mp he)
    rwa [hval hn hx]
  · intro h
    refine ⟨(x.val, ()), SortedMap.mem_entries.mpr (mem_toSet.mpr h), Fin.ext ?_⟩
    simp only [toShort, Fin.ofNat]
    omega

/-! ## Paging -/

namespace Indexes

variable {s : Indexes} {x index : Short}

theorem mem_add : x ∈ s.add index ↔ x = index ∨ x ∈ s := mem_orderedInsert _

theorem mem_adds {α : Type} (f : α → Short) (l : List α) : x ∈ l.foldl (fun s a => s.add (f a)) s ↔ x ∈ s ∨ ∃ a ∈ l, f a = x := by
  induction l generalizing s with
  | nil => simp
  | cons a l ih =>
    rw [foldl_cons, ih, mem_add, exists_mem_cons_iff, eq_comm (a := x), or_assoc]
    exact or_left_comm

theorem last_mem (hne : s.elements ≠ []) : s.last ∈ s := by
  rw [last, List.getLast?_eq_some_getLast hne]
  exact getLast_mem hne

theorem le_last (h : x ∈ s) : x ≤ s.last := by
  have hne : s.elements ≠ [] := ne_nil_of_mem h
  rw [last, List.getLast?_eq_some_getLast hne]
  exact s.ascending.rel_getLast h

end Indexes

theorem shiftRight_eq_zero {range : BitVec 8} {k : Nat} : (range >>> k == 0) = true ↔ ∀ j, k ≤ j → range.getLsbD j = false := by
  have h := not_congr (@shiftRight_ne_zero range k)
  rw [bne_iff_ne, not_not] at h
  rw [beq_iff_eq]
  exact h.trans (by simp)

namespace Segment

section Paging

variable {shl : Shift} (hshl : Documented shl) {s : Segment} (hne : s.pagingIndexes.elements ≠ [])

include hshl hne

theorem stored_paging : ∃ set : NumberRangeSet, set = ⟨false, s.getCurrentPagingIndex.val, s.getPagingRange shl⟩ ∧ Sound set ∧
    ∀ x : Short, set.contains x.val = true ↔ x ∈ s.pagingIndexes ∧ s.getCurrentPagingIndex.val ≤ x.val + 8 := by
  obtain ⟨hs, hindex, hcontains⟩ := stored_contains hshl (Indexes.last_mem hne) fun y hy => Indexes.le_last hy
  refine ⟨_, ?_, hs, hcontains⟩
  rw [getPagingRange, getCurrentPagingIndex, ← hindex]
  rfl

theorem restored_paging (x : Short) : x ∈ s.restoredPaging shl ↔ x ∈ s.pagingIndexes ∧ ∀ y ∈ s.pagingIndexes, y.val ≤ x.val + 8 := by
  obtain ⟨set, hset, hs, hcontains⟩ := stored_paging hshl hne
  have hlast : (new.addPagingIndex s.getCurrentPagingIndex).getCurrentPagingIndex = s.getCurrentPagingIndex := rfl
  have hgreatest : (∀ y ∈ s.pagingIndexes, y.val ≤ x.val + 8) ↔ s.getCurrentPagingIndex.val ≤ x.val + 8 :=
    ⟨fun h => h _ (Indexes.last_mem hne), fun h y hy => Nat.le_trans (Indexes.le_last hy) h⟩
  rw [restoredPaging, setPagingRange, hlast, hgreatest, ← hcontains]
  show x ∈ List.foldl _ _ (NumberRangeSet.toSet ⟨false, s.getCurrentPagingIndex.val, s.getPagingRange shl⟩).entries ↔ _
  rw [← hset, Indexes.mem_adds fun e : Nat × Unit => toShort e.1, mem_opened (by rw [hset]; exact Fin.isLt _)]
  refine or_iff_right_of_imp fun h => ?_
  have hx : x = s.getCurrentPagingIndex := (Indexes.mem_add.mp h).resolve_right not_mem_nil
  rw [hx, hcontains]
  exact ⟨Indexes.last_mem hne, Nat.le_add_right _ _⟩

/-- A file can be added exactly if that loses none of what is stored. -/
theorem validPagingRange_iff {f : Short} (hle : s.getCurrentPagingIndex ≤ f) :
    s.validPagingRange shl f = true ↔ ∀ x ∈ s.restoredPaging shl, x ∈ (s.addPagingIndex f).restoredPaging shl := by
  have hmem := Indexes.last_mem hne
  have hadded : (s.addPagingIndex f).pagingIndexes.elements ≠ [] := ne_nil_of_mem (Indexes.mem_add.mpr (.inl rfl))
  have hlost : (∀ x ∈ s.restoredPaging shl, x ∈ (s.addPagingIndex f).restoredPaging shl) ↔
      ∀ x ∈ s.pagingIndexes, s.getCurrentPagingIndex.val ≤ x.val + 8 → f.val ≤ x.val + 8 := by
    constructor
    · intro h x hx hnear
      have hx' := h x ((restored_paging hshl hne x).mpr ⟨hx, fun y hy => Nat.le_trans (Indexes.le_last hy) hnear⟩)
      exact ((restored_paging hshl hadded x).mp hx').2 f (Indexes.mem_add.mpr (.inl rfl))
    · intro h x hx
      obtain ⟨hx, hnear⟩ := (restored_paging hshl hne x).mp hx
      refine (restored_paging hshl hadded x).mpr ⟨Indexes.mem_add.mpr (.inr hx), fun y hy => ?_⟩
      rcases Indexes.mem_add.mp hy with rfl | hy
      · exact h x hx (hnear _ hmem)
      · exact hnear y hy
  obtain ⟨set, hset, hs, hcontains⟩ := stored_paging hshl hne
  have hindex : set.index = s.getCurrentPagingIndex.val := by rw [hset]
  have hrange : set.range = s.getPagingRange shl := by rw [hset]
  have hle : s.getCurrentPagingIndex.val ≤ f.val := hle
  rw [hlost]
  unfold validPagingRange
  rw [DEFAULT_SEGMENT_FILE_RANGE, if_neg (by omega)]
  by_cases heq : f.val = s.getCurrentPagingIndex.val
  · rw [if_pos (by omega), heq]
    exact iff_of_true rfl fun x _ hnear => hnear
  · rw [if_neg (by omega), Bool.and_eq_true, decide_eq_true_eq, ← hrange]
    obtain ⟨low, hlow⟩ : ∃ low, low = 8 - (f.val - s.getCurrentPagingIndex.val) := ⟨_, rfl⟩
    rw [show ((8 : Int) - ((f.val : Int) - s.getCurrentPagingIndex.val)).toNat = low by omega, shiftRight_eq_zero]
    constructor
    · intro ⟨hfit, hzero⟩ x hx hnear
      rcases (contains_iff.mp ((hcontains x).mpr ⟨hx, hnear⟩)).2 with h | ⟨k, hk, h⟩
      · omega
      · refine Nat.not_lt.mp fun hlt => ?_
        rw [hzero k (by omega)] at hk
        cases hk
    · intro h
      have hfit : f.val ≤ s.getCurrentPagingIndex.val + 8 := h _ hmem (Nat.le_add_right _ _)
      refine ⟨by omega, fun j hj => Bool.eq_false_iff.mpr fun hbit => ?_⟩
      have hlt := hs.bits j hbit
      obtain ⟨x, hx⟩ : ∃ x : Short, x.val + j + 1 = set.index := ⟨⟨set.index - (j + 1), by omega⟩, by simp only; omega⟩
      obtain ⟨hin, hnear⟩ := (hcontains x).mp (contains_iff.mpr ⟨by rw [hset], .inr ⟨j, hbit, hx⟩⟩)
      have := h x hin hnear
      omega

omit hshl hne in
theorem addAll_overflow {m : Memory} {a b : FileRangeSet} : (m.addAll shl a b).2.2 =
    if (m.read a).index < (m.read b).index then ((m.read a).add shl (m.read b).index).overflow
    else ((m.read b).add shl (m.read a).index).overflow := by
  by_cases hlt : m.index a.index < m.index b.index
  · rw [Memory.addAll, if_pos hlt]
    exact (if_pos hlt).symm
  · rw [Memory.addAll, if_neg hlt]
    exact (if_neg hlt).symm

/-- Incoming files overflow exactly if they do not fit into one range with the stored ones. -/
theorem wouldOverflowPaging_iff (hpaged : s.paged = true) {files incoming : NumberRangeSet}
    (hfiles : files = ⟨false, s.getCurrentPagingIndex.val, s.getPagingRange shl⟩) {fileIndex : Short} {fileRange : BitVec 8}
    (hincoming : incoming = ⟨false, fileIndex.val, fileRange⟩) (hsound : Sound incoming) :
    s.wouldOverflowPaging shl fileIndex fileRange = true ↔
      ∃ x y, (files.contains x = true ∨ incoming.contains x = true) ∧ (files.contains y = true ∨ incoming.contains y = true) ∧ x + 8 < y := by
  obtain ⟨set, hset, hs, -⟩ := stored_paging hshl hne
  obtain rfl : files = set := hfiles.trans hset.symm
  have hfe : files.empty = false := by rw [hfiles]
  have hie : incoming.empty = false := by rw [hincoming]
  have hover : s.wouldOverflowPaging shl fileIndex fileRange =
      if files.index < incoming.index then (files.add shl incoming.index).overflow else (incoming.add shl files.index).overflow := by
    rw [wouldOverflowPaging, hpaged, if_neg (by simp), addAll_overflow, hfiles, hincoming]
    rfl
  have hself : files.contains files.index = true := contains_iff.mpr ⟨hfe, .inl rfl⟩
  have hself' : incoming.contains incoming.index = true := contains_iff.mpr ⟨hie, .inl rfl⟩
  -- what is found lies below the greater of the two indexes, and is in the set of the smaller
  rw [hover]
  split_ifs with hlt
  · rw [overflow_above _ hs hfe (Nat.le_of_lt hlt)]
    constructor
    · intro ⟨x, hx, hfar⟩
      exact ⟨x, incoming.index, .inl hx, .inr hself', hfar⟩
    · intro ⟨x, y, hx, hy, hfar⟩
      have hle : y ≤ incoming.index := hy.elim (fun h => Nat.le_trans (near_of_contains h).1 (Nat.le_of_lt hlt)) fun h => (near_of_contains h).1
      refine ⟨x, hx.resolve_right fun h => ?_, by omega⟩
      have := near_of_contains h
      omega
  · have hge := Nat.not_lt.mp hlt
    rw [overflow_above _ hsound hie hge]
    constructor
    · intro ⟨x, hx, hfar⟩
      exact ⟨x, files.index, .inr hx, .inl hself, hfar⟩
    · intro ⟨x, y, hx, hy, hfar⟩
      have hle : y ≤ files.index := hy.elim (fun h => (near_of_contains h).1) fun h => Nat.le_trans (near_of_contains h).1 hge
      refine ⟨x, hx.resolve_left fun h => ?_, by omega⟩
      have := near_of_contains h
      omega

omit hshl hne in
/-- With the files 1 and 5 the file 10 does not fit. -/
theorem wouldOverflowPaging_iff_ten : (⟨true, ⟨[1, 5], by decide⟩, ⟨[], .nil⟩⟩ : Segment).wouldOverflowPaging shiftModulo 10 0 = true :=
  (wouldOverflowPaging_iff shiftModulo_documented (by simp) rfl rfl rfl ⟨nofun, by simp⟩).mpr
    ⟨1, 10, .inl (by decide), .inr (by decide), by decide⟩

end Paging

/-! ## Streams -/

section Streams

variable {s : Segment} {includeOld : Bool}

/-- An index that `getStreamRangeOverflow` looks at. -/
def Considered (s : Segment) (includeOld : Bool) (x : Short) : Prop := ∃ old, (x, old) ∈ s.streamIndexes.entries ∧ (includeOld = true ∨ old = false)

theorem currentIndex_greatest {l : List (Short × Bool)} (hl : l.Pairwise fun a b => a.1 < b.1) (retVal : Int) :
    currentIndex l retVal = retVal ∧ (∀ e ∈ l, e.2 = true) ∨
      ∃ e ∈ l, e.2 = false ∧ currentIndex l retVal = e.1.val ∧ ∀ e' ∈ l, e'.2 = false → e'.1 ≤ e.1 := by
  induction l generalizing retVal with
  | nil => exact .inl ⟨rfl, forall_mem_nil _⟩
  | cons e l ih =>
    obtain ⟨fileIndex, old⟩ := e
    obtain ⟨hfirst, hl⟩ := pairwise_cons.mp hl
    rw [currentIndex]
    rcases ih hl (if old = false then fileIndex.val else retVal) with ⟨hcur, hold⟩ | ⟨e, he, hnew, hcur, hmax⟩
    · cases old with
      | true => exact .inl ⟨hcur, forall_mem_cons.mpr ⟨rfl, hold⟩⟩
      | false =>
        refine .inr ⟨_, mem_cons_self, rfl, hcur, fun e' he' hnew => ?_⟩
        rcases mem_cons.mp he' with rfl | he'
        · exact le_refl _
        · rw [hold e' he'] at hnew
          cases hnew
    · refine .inr ⟨e, mem_cons_of_mem _ he, hnew, hcur, fun e' he' hnew' => ?_⟩
      rcases mem_cons.mp he' with rfl | he'
      · exact le_of_lt (hfirst e he)
      · exact hmax e' he' hnew'

/-- The current index is the greatest of those considered, if there is one. -/
theorem getCurrentStreamIndex_spec (hne : s.streamIndexes.entries ≠ []) (includeOld : Bool) :
    ∃ current, s.getCurrentStreamIndex includeOld = some current ∧ (∀ x, s.Considered includeOld x → x ≤ current) ∧
      ((∃ x, s.Considered includeOld x) → s.Considered includeOld current) := by
  obtain ⟨last, hlast⟩ : ∃ last, s.streamIndexes.entries.getLast? = some last := ⟨_, List.getLast?_eq_some_getLast hne⟩
  have hmem : last ∈ s.streamIndexes.entries := mem_of_getLast? hlast
  have hmax : ∀ e ∈ s.streamIndexes.entries, e.1 ≤ last.1 := by
    obtain ⟨init, hinit⟩ := List.getLast?_eq_some_iff.mp hlast
    have hsorted := s.streamIndexes.sorted
    rw [hinit] at hsorted ⊢
    intro e he
    rcases mem_append.mp he with he | he
    · exact le_of_lt ((pairwise_append.mp hsorted).2.2 e he last (mem_singleton_self last))
    · rw [mem_singleton.mp he]
  rw [getCurrentStreamIndex, hlast]
  cases includeOld with
  | true => exact ⟨last.1, rfl, fun x ⟨old, hx, _⟩ => hmax _ hx, fun _ => ⟨last.2, hmem, .inl rfl⟩⟩
  | false =>
    cases hold : last.2 with
    | false =>
      refine ⟨last.1, by simp [hold], fun x ⟨old, hx, _⟩ => hmax _ hx, fun _ => ⟨last.2, hmem, .inr hold⟩⟩
    | true =>
      refine ⟨toShort (currentIndex s.streamIndexes.entries (-1)), by simp [hold], ?_⟩
      rcases currentIndex_greatest s.streamIndexes.sorted (-1) with ⟨-, hall⟩ | ⟨e, he, hnew, hcur, hgreatest⟩
      · have hnone : ∀ x, ¬s.Considered false x := by
          intro x ⟨old, hx, h⟩
          simp_all
        exact ⟨fun x hx => absurd hx (hnone x), fun ⟨x, hx⟩ => absurd hx (hnone x)⟩
      · have hshort : toShort (currentIndex s.streamIndexes.entries (-1)) = e.1 := by
          rw [hcur]
          refine Fin.ext ?_
          simp only [toShort, Fin.ofNat]
          omega
        rw [hshort]
        refine ⟨?_, fun _ => ⟨e.2, he, .inr hnew⟩⟩
        intro x ⟨old, hx, h⟩
        exact hgreatest _ hx (h.resolve_left (by simp))

/-- An overflow is found exactly if the indexes do not fit into one range. -/
theorem streamOverflow_iff (shl : Shift) (s : Segment) (includeOld : Bool) : ∃ overflow, s.getStreamRangeOverflow shl includeOld = some overflow ∧
    (overflow = true ↔ ∃ x y, s.Considered includeOld x ∧ s.Considered includeOld y ∧ x.val + 8 < y.val) := by
  by_cases hne : s.streamIndexes.entries = []
  · refine ⟨false, by simp [getStreamRangeOverflow, getStreamed, hne], ?_⟩
    simp [Considered, hne]
  · obtain ⟨current, hcurrent, hmax, hmem⟩ := getCurrentStreamIndex_spec hne includeOld
    refine ⟨findOverflow shl includeOld s.streamIndexes.entries (locals current 0) false, by simp [getStreamRangeOverflow, getStreamed, hne, hcurrent], ?_⟩
    rw [findOverflow_iff fun e he h => hmax e.1 ⟨e.2, he, h⟩]
    constructor
    · intro ⟨e, he, h, hfar⟩
      have hx : s.Considered includeOld e.1 := ⟨e.2, he, h⟩
      exact ⟨e.1, current, hx, hmem ⟨_, hx⟩, hfar⟩
    · intro ⟨x, y, ⟨old, hx, h⟩, hy, hfar⟩
      exact ⟨(x, old), hx, h, Nat.lt_of_lt_of_le hfar (hmax y hy)⟩

theorem get_puts {α : Type} (f : α → Short) (l : List α) (m : Streams) (x : Short) :
    ((l.foldl (fun m a => m.put (f a) false) m).get x).isSome = true ↔ (m.get x).isSome = true ∨ ∃ a ∈ l, f a = x := by
  simpa using SortedMap.isSome_get_puts (fun _ => true) f (fun _ => false) l m

theorem restored_streams {shl : Shift} (hshl : Documented shl) (hne : s.streamIndexes.entries ≠ []) : ∃ restored, s.restoredStreams shl = some restored ∧
    ∀ x, (restored.get x).isSome = true ↔ (s.streamIndexes.get x).isSome = true ∧
      ∀ y, (s.streamIndexes.get y).isSome = true → y.val ≤ x.val + 8 := by
  have hconsidered : ∀ x, s.Considered true x ↔ (s.streamIndexes.get x).isSome = true := by
    intro x
    simp [Considered, SortedMap.mem_entries, Option.isSome_iff_exists]
  have hfiles : ∀ x, x ∈ s.streamIndexes.entries.map Prod.fst ↔ (s.streamIndexes.get x).isSome = true := by
    intro x
    simp [← hconsidered, Considered]
  obtain ⟨current, hcurrent, hmax, hmem⟩ := getCurrentStreamIndex_spec hne true
  have hcur : s.Considered true current := hmem ⟨_, _, head_mem hne, .inl rfl⟩
  obtain ⟨hs, hindex, hcontains⟩ := stored_contains hshl ((hfiles current).mpr ((hconsidered current).mp hcur))
    fun y hy => hmax y ((hconsidered y).mpr ((hfiles y).mp hy))
  obtain ⟨set, hset⟩ : ∃ set, set = (addIndexes shl (s.streamIndexes.entries.map Prod.fst) (locals current 0)).read rangeSet := ⟨_, rfl⟩
  rw [← hset] at hs hindex hcontains
  have hrange : s.getStreamRange shl = some set.range := by simp [getStreamRange, hcurrent, hset]
  have hopened : ((locals current set.range).read rangeSet) = set := by
    rw [show set = ⟨false, set.index, set.range⟩ by rw [hset]; rfl, hindex]
    rfl
  have hrestored : (new.addStreamIndex current false).setStreamRange set.range = some { new with
      streamIndexes := set.toSet.entries.foldl (fun indexes e => indexes.put (toShort e.1) false) (SortedMap.empty.put current false) } := by
    rw [setStreamRange, ← hopened]
    rfl
  refine ⟨_, by rw [restoredStreams, hcurrent, hrange]; simp [hrestored]; rfl, fun x => ?_⟩
  rw [get_puts fun e : Nat × Unit => toShort e.1, mem_opened (by rw [hindex]; exact current.isLt), hcontains, hfiles, SortedMap.get_put]
  have hgreatest : (∀ y, (s.streamIndexes.get y).isSome = true → y.val ≤ x.val + 8) ↔ current.val ≤ x.val + 8 :=
    ⟨fun h => h _ ((hconsidered current).mp hcur), fun h y hy => Nat.le_trans (hmax y ((hconsidered y).mpr hy)) h⟩
  rw [hgreatest]
  refine or_iff_right_of_imp fun h => ?_
  have hx : x = current := by
    by_contra hx
    simp [hx] at h
  rw [hx]
  exact ⟨(hconsidered current).mp hcur, Nat.le_add_right _ _⟩

end Streams

end Segment

/-- What is stored of a segment's files brings back those within eight of the greatest, so all of them where they fit; and the segment
tells before whether they fit, and whether they still do with one more. -/
theorem ranges_persist {shl : Shift} (hshl : Documented shl) (s : Segment) :
    (s.pagingIndexes.elements ≠ [] →
      (∀ x, x ∈ s.restoredPaging shl ↔ x ∈ s.pagingIndexes ∧ ∀ y ∈ s.pagingIndexes, y.val ≤ x.val + 8) ∧
      ((∀ x ∈ s.pagingIndexes, ∀ y ∈ s.pagingIndexes, y.val ≤ x.val + 8) → ∀ x, x ∈ s.restoredPaging shl ↔ x ∈ s.pagingIndexes) ∧
      ∀ f, s.getCurrentPagingIndex ≤ f →
        (s.validPagingRange shl f = true ↔ ∀ x ∈ s.restoredPaging shl, x ∈ (s.addPagingIndex f).restoredPaging shl)) ∧
    (s.streamIndexes.entries ≠ [] → ∃ restored, s.restoredStreams shl = some restored ∧
      (∀ x, (restored.get x).isSome = true ↔ (s.streamIndexes.get x).isSome = true ∧
        ∀ y, (s.streamIndexes.get y).isSome = true → y.val ≤ x.val + 8) ∧
      ((∀ x y, (s.streamIndexes.get x).isSome = true → (s.streamIndexes.get y).isSome = true → y.val ≤ x.val + 8) →
        ∀ x, (restored.get x).isSome = (s.streamIndexes.get x).isSome)) ∧
    ∀ includeOld, ∃ overflow, s.getStreamRangeOverflow shl includeOld = some overflow ∧
      (overflow = true ↔ ∃ x y, s.Considered includeOld x ∧ s.Considered includeOld y ∧ x.val + 8 < y.val) := by
  refine ⟨fun hne => ?_, fun hne => ?_, Segment.streamOverflow_iff shl s⟩
  · have hrestored := Segment.restored_paging hshl hne
    exact ⟨hrestored, fun hfit x => (hrestored x).trans (and_iff_left_of_imp fun hx => hfit x hx), fun f => Segment.validPagingRange_iff hshl hne⟩
  · obtain ⟨restored, hr, hrestored⟩ := Segment.restored_streams hshl hne
    refine ⟨restored, hr, hrestored, fun hfit x => Bool.eq_iff_iff.mpr ((hrestored x).trans (and_iff_left_of_imp fun hx y => hfit x y hx))⟩

/-- Paging files 1, 5 and 9, which fit, and stream files 2 and 20, which do not. -/
theorem ranges_persist_of_five : Documented shiftModulo ∧
    ∃ s : Segment, s.pagingIndexes.elements = [1, 5, 9] ∧ s.streamIndexes.entries = [(2, true), (20, false)] ∧
      (∀ x, x ∈ s.restoredPaging shiftModulo ↔ x ∈ s.pagingIndexes) ∧ s.getStreamRangeOverflow shiftModulo true = some true := by
  obtain ⟨s, hs⟩ : ∃ s : Segment, s = ⟨true, ⟨[1, 5, 9], by decide⟩, ⟨[(2, true), (20, false)], by decide⟩⟩ := ⟨_, rfl⟩
  have hpagings : s.pagingIndexes.elements = [1, 5, 9] := by rw [hs]
  have hstreams : s.streamIndexes.entries = [(2, true), (20, false)] := by rw [hs]
  obtain ⟨hpaging, -, hover⟩ := ranges_persist shiftModulo_documented s
  obtain ⟨-, hfit, -⟩ := hpaging (by rw [hpagings]; simp)
  refine ⟨shiftModulo_documented, s, hpagings, hstreams, hfit ?_, ?_⟩
  · show ∀ x ∈ s.pagingIndexes.elements, ∀ y ∈ s.pagingIndexes.elements, _
    rw [hpagings]
    simp
  · obtain ⟨overflow, h, hiff⟩ := hover true
    rw [h, hiff.mpr ⟨2, 20, ⟨true, by simp [hstreams], .inl rfl⟩, ⟨false, by simp [hstreams], .inl rfl⟩, by decide⟩]

end DeepFabric.Store.FileRanges
