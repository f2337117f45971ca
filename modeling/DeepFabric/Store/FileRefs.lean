/-
  DeepFabric.Store.FileRefs — the references to files behind the entries of an index block
  (core/RealTimeProtocol_v1_1.h: WriteKeyPaging::writeFileRefs, the reference case of
  readPagingInfo; cxx/util/NumberRangeSet.h, of file indexes and 32 bits).

  A reference is a record with a file index in the place of a value's file and, in the place of its
  position, a bit for each of the 32 indexes below. The writer adds index after index to one set and
  writes the set as it was before the index that did not fit. The reader opens the records and adds
  what its segment does not have.

  Two indexes 32 apart fit into one record. The bits are then shifted by 32, which the language
  leaves open; there are none set, so a machine only has to leave zero alone.
-/
import Mathlib.Data.Fintype.Card
import DeepFabric.Platform.NumberRangeSet

namespace DeepFabric.Store.FileRefs

open DeepFabric.Lib List
open DeepFabric.Platform.NumberRangeSets (Shift Documented shiftModulo shiftModulo_documented)

/-- `ushorttype`. -/
abbrev Short := Fin 65536

/-- A left shift that moves bits: what the language promises, and no bits out of none. -/
structure Shifter where
  shl : Shift
  documented : Documented shl
  zero : ∀ count, shl 0 count = 0

/-- x86 takes the count modulo 32. -/
def x86 : Shifter where
  shl := shiftModulo
  documented := shiftModulo_documented
  zero count := BitVec.zero_shiftLeft (count % 32)

/-! ## The set -/

def RANGESIZE : Nat := 32

structure NumberRangeSet where
  empty : Bool
  index : Short
  range : BitVec 32
  deriving DecidableEq

/-- What a call leaves, returns and reports. -/
structure Answer where
  set : NumberRangeSet
  result : Bool
  overflow : Bool

namespace NumberRangeSet

def new : NumberRangeSet := ⟨true, 0, 0⟩

def clear (_ : NumberRangeSet) : NumberRangeSet := ⟨true, 0, 0⟩

/-- The set of an index and a range. -/
def of (index : Short) (range : BitVec 32) : NumberRangeSet := ⟨false, index, range⟩

def add (m : Shifter) (s : NumberRangeSet) (index : Short) : Answer :=
  if s.empty then ⟨{ s with empty := false, index := index }, true, false⟩
  else if index = s.index then ⟨s, true, false⟩
  else if s.index < index then
    let diff := index.val - s.index.val
    ⟨{ s with index := index, range := m.shl s.range diff ||| m.shl 1 (diff - 1) }, true,
      RANGESIZE < diff || s.range >>> (RANGESIZE - diff) != 0⟩
  else
    let diff := s.index.val - index.val
    if RANGESIZE < diff then ⟨s, false, true⟩ else ⟨{ s with range := s.range ||| m.shl 1 (diff - 1) }, true, false⟩

/-- `(m_range & (1 << x)) != 0`. -/
def hasBit (s : NumberRangeSet) (x : Nat) : Bool := (s.range &&& 1#32 <<< x) != 0

/-- The index `x + 1` below the greatest; 0 is the least. -/
def below (s : NumberRangeSet) (x : Nat) : Short := ⟨s.index.val - (x + 1), by omega⟩

def toSet (s : NumberRangeSet) : SortedMap Short Unit :=
  if s.empty then .empty
  else
    (List.range RANGESIZE).foldl (fun set x => if s.hasBit x && (x + 1 ≤ s.index.val : Bool) then set.put (s.below x) () else set)
      (SortedMap.empty.put s.index ())

end NumberRangeSet

/-! ## The records -/

/-- IRT_FLAG_REF_IRT and IRT_FLAG_REF_VRT. -/
inductive FileType where
  | irt
  | vrt
  deriving DecidableEq, Repr

structure Record (K : Type) where
  flags : FileType
  key : K
  fileIndex : Short
  position : BitVec 32
  size : Int

/-- The paging and the stream files a segment refers to. -/
structure Segment where
  paged : Bool
  pagingIndexes : SortedMap Short Unit
  streamIndexes : SortedMap Short Unit

namespace Segment

def new : Segment := ⟨false, .empty, .empty⟩

def hasPagingIndex (s : Segment) (index : Short) : Bool := s.paged && (s.pagingIndexes.get index).isSome

def hasStreamIndex (s : Segment) (index : Short) : Bool := (s.streamIndexes.get index).isSome

def addPagingIndex (s : Segment) (index : Short) : Segment := { s with pagingIndexes := s.pagingIndexes.put index () }

def addStreamIndex (s : Segment) (index : Short) : Segment := { s with streamIndexes := s.streamIndexes.put index () }

def indexes (s : Segment) : FileType → SortedMap Short Unit
  | .irt => s.pagingIndexes
  | .vrt => s.streamIndexes

end Segment

section

variable {K : Type}

/-- The loop of writeFileRefs: the records written so far, their number and the set. -/
def writeRefs (m : Shifter) (type : FileType) (key : K) :
    List Short → List (Record K) → UInt32 → NumberRangeSet → List (Record K) × UInt32
  | [], records, written, fileRefs =>
    if fileRefs.empty = false then (records ++ [⟨type, key, fileRefs.index, fileRefs.range, 0⟩], written + 1) else (records, written)
  | fileIndex :: iter, records, written, fileRefs =>
    let refs := fileRefs
    let added := fileRefs.add m fileIndex
    if added.overflow then
      writeRefs m type key iter (records ++ [⟨type, key, refs.index, refs.range, 0⟩]) (written + 1)
        (added.set.clear.add m fileIndex).set
    else writeRefs m type key iter records written added.set

def writeFileRefs (m : Shifter) (type : FileType) (key : K) (iter : List Short) : List (Record K) × UInt32 :=
  writeRefs m type key iter [] 0 .new

def readIndex (flags : FileType) (segment : Segment) (index : Short) : Segment :=
  match flags with
  | .irt => if segment.hasPagingIndex index then segment else { segment.addPagingIndex index with paged := true }
  | .vrt => if segment.hasStreamIndex index then segment else segment.addStreamIndex index

/-- The references of the last delta, `frag` 0. -/
def readPagingInfo (segment : Segment) (record : Record K) : Segment :=
  (NumberRangeSet.of record.fileIndex record.position).toSet.entries.foldl (fun s e => readIndex record.flags s e.1) segment

end

/-! ## Bits -/

section Bits

variable {m : Shifter} {range : BitVec 32} {k j : Nat}

theorem one_shift (hk : k < 32) : (m.shl 1 k).getLsbD j = decide (j = k) := by
  have hpow : (1 : BitVec 32) <<< k = BitVec.twoPow 32 k := (BitVec.twoPow_eq 32 k).symm
  rw [m.documented 1 k hk, hpow, BitVec.getLsbD_twoPow]
  simp [hk, eq_comm]

theorem shiftRight_ne_zero : (range >>> k != 0) = false ↔ ∀ j, k ≤ j → range.getLsbD j = false := by
  rw [bne_eq_false_iff_eq]
  constructor
  · intro h j hj
    have hbit := congrArg (·.getLsbD (j - k)) h
    simpa [Nat.add_sub_cancel' hj] using hbit
  · intro h
    refine BitVec.eq_of_getLsbD_eq fun i _ => ?_
    rw [BitVec.getLsbD_ushiftRight, h (k + i) (Nat.le_add_right _ _)]
    exact BitVec.getLsbD_zero.symm

theorem shift_bit (hk : k ≤ 32) (hlost : ∀ j, 32 - k ≤ j → range.getLsbD j = false) :
    (m.shl range k).getLsbD j = (decide (k ≤ j) && range.getLsbD (j - k)) := by
  rcases Nat.lt_or_eq_of_le hk with hlt | rfl
  · rw [m.documented range k hlt, BitVec.getLsbD_shiftLeft]
    by_cases hj : j < 32
    · by_cases hkj : k ≤ j
      · simp [hj, hkj, Nat.not_lt.mpr hkj]
      · simp [hkj, Nat.not_le.mp hkj]
    · have hout : range.getLsbD (j - k) = false := hlost _ (by omega)
      simp [hj, hout]
  · have hzero : range = 0 := BitVec.eq_of_getLsbD_eq fun i _ => (hlost i (by omega)).trans BitVec.getLsbD_zero.symm
    rw [hzero, m.zero]
    simp

theorem and_one_shift (hk : k < 32) : (range &&& 1#32 <<< k != 0) = range.getLsbD k := by
  rw [← BitVec.twoPow_eq, BitVec.and_twoPow]
  cases range.getLsbD k with
  | false => simp
  | true =>
    have hne : BitVec.twoPow 32 k ≠ 0#32 := by
      intro h
      have hbit := congrArg (·.getLsbD k) h
      simp [hk] at hbit
    simpa using hne

end Bits

/-! ## One set -/

section Set

variable {m : Shifter} {s : NumberRangeSet} {g : List Short} {index x : Short}

/-- The set has the indexes `g`: the greatest is the index, and a bit says how far below another is. -/
structure Holds (s : NumberRangeSet) (g : List Short) : Prop where
  empty : s.empty = true ↔ g = []
  greatest : s.empty = false → s.index ∈ g ∧ ∀ y ∈ g, y ≤ s.index
  bit : ∀ k, s.range.getLsbD k = true ↔ ∃ y ∈ g, y.val + k + 1 = s.index.val

theorem new_holds : Holds .new [] where
  empty := iff_of_true rfl rfl
  greatest h := by cases h
  bit k := by simp [NumberRangeSet.new]

theorem bit_false {k : Nat} (h : s.range.getLsbD k ≠ true) : s.range.getLsbD k = false := Bool.eq_false_iff.mpr h

/-- An index above all others that fits is in the set then, and nothing is lost. -/
theorem add_holds (hs : Holds s g) (habove : ∀ y ∈ g, y < index) (hfit : (s.add m index).overflow = false) :
    Holds (s.add m index).set (g ++ [index]) := by
  have hlast : index ∈ g ++ [index] := mem_append_right g (mem_singleton_self index)
  have hmax : ∀ y ∈ g ++ [index], y ≤ index := by
    intro y hy
    rcases mem_append.mp hy with hy | hy
    · exact (habove y hy).le
    · exact (mem_singleton.mp hy).le
  unfold NumberRangeSet.add at *
  cases he : s.empty with
  | true =>
    simp only [if_true]
    obtain rfl : g = [] := hs.empty.mp he
    refine ⟨by simp, fun _ => ⟨hlast, hmax⟩, fun k => ?_⟩
    have hnone : s.range.getLsbD k = false := bit_false fun h => by simpa using (hs.bit k).mp h
    simp only [hnone, Bool.false_eq_true, nil_append, mem_singleton, exists_eq_left, false_iff]
    omega
  | false =>
    obtain ⟨hmem, hgreatest⟩ := hs.greatest he
    have hlt : s.index < index := habove _ hmem
    have hval : s.index.val < index.val := hlt
    simp only [he, Bool.false_eq_true, if_false, if_neg (ne_of_gt hlt), if_pos hlt] at hfit ⊢
    obtain ⟨hnear, hlost⟩ := Bool.or_eq_false_iff.mp hfit
    have hnear : index.val - s.index.val ≤ 32 := Nat.not_lt.mp (of_decide_eq_false hnear)
    rw [RANGESIZE, shiftRight_ne_zero] at hlost
    refine ⟨by simp, fun _ => ⟨hlast, hmax⟩, fun k => ?_⟩
    simp only [BitVec.getLsbD_or, shift_bit hnear hlost, one_shift (show index.val - s.index.val - 1 < 32 by omega), Bool.or_eq_true,
      Bool.and_eq_true, decide_eq_true_eq, hs.bit]
    constructor
    · intro h
      rcases h with ⟨hle, y, hy, hyk⟩ | rfl
      · exact ⟨y, mem_append_left _ hy, by omega⟩
      · exact ⟨s.index, mem_append_left _ hmem, by omega⟩
    · intro ⟨y, hy, hyk⟩
      rcases mem_append.mp hy with hy | hy
      · have hle : y.val ≤ s.index.val := hgreatest y hy
        by_cases heq : y.val = s.index.val
        · exact .inr (by omega)
        · exact .inl ⟨by omega, y, hy, by omega⟩
      · rw [mem_singleton.mp hy] at hyk
        omega

theorem mem_toSet (hs : Holds s g) : (s.toSet.get x).isSome = true ↔ x ∈ g := by
  unfold NumberRangeSet.toSet
  cases he : s.empty with
  | true => simp [hs.empty.mp he]
  | false =>
    obtain ⟨hmem, hmax⟩ := hs.greatest he
    simp only [Bool.false_eq_true, if_false]
    rw [SortedMap.isSome_get_puts (fun k => s.hasBit k && (k + 1 ≤ s.index.val : Bool)) s.below]
    simp only [SortedMap.get_put, Bool.and_eq_true, decide_eq_true_eq]
    constructor
    · intro h
      rcases h with h | ⟨k, hk, ⟨hbit, hle⟩, hx⟩
      · by_cases heq : x = s.index
        · exact heq ▸ hmem
        · simp [heq] at h
      · rw [NumberRangeSet.hasBit, and_one_shift (mem_range.mp hk), hs.bit] at hbit
        obtain ⟨y, hy, hyk⟩ := hbit
        have hval : s.index.val - (k + 1) = x.val := congrArg Fin.val hx
        have hyx : y = x := Fin.ext (by omega)
        exact hyx ▸ hy
    · intro hx
      by_cases heq : x = s.index
      · simp [heq]
      · have hlt : x.val < s.index.val := lt_of_le_of_ne (hmax x hx) fun h => heq (Fin.ext h)
        have hbit := (hs.bit (s.index.val - x.val - 1)).mpr ⟨x, hx, by omega⟩
        have hk := BitVec.lt_of_getLsbD hbit
        refine .inr ⟨s.index.val - x.val - 1, mem_range.mpr hk, ⟨?_, by omega⟩, Fin.ext ?_⟩
        · rw [NumberRangeSet.hasBit, and_one_shift hk]
          exact hbit
        · show s.index.val - (s.index.val - x.val - 1 + 1) = x.val
          omega

theorem alone_holds : Holds (s.clear.add m index).set [index] := @add_holds m .new [] index new_holds (forall_mem_nil _) rfl

end Set

/-! ## The records -/

section Records

variable {K : Type} {m : Shifter} {type : FileType} {key : K}

/-- The records of the groups `gs` of indexes. -/
def Recorded (type : FileType) (records : List (Record K)) (gs : List (List Short)) : Prop :=
  List.Forall₂ (fun r g => r.flags = type ∧ g ≠ [] ∧ Holds (.of r.fileIndex r.position) g) records gs

theorem recorded_snoc {records : List (Record K)} {gs : List (List Short)} {s : NumberRangeSet} {g : List Short} (h : Recorded type records gs)
    (hs : Holds s g) (hne : g ≠ []) : Recorded type (records ++ [⟨type, key, s.index, s.range, 0⟩]) (gs ++ [g]) := by
  have he : s.empty = false := Bool.eq_false_iff.mpr fun he => hne (hs.empty.mp he)
  have hof : NumberRangeSet.of s.index s.range = s := by
    unfold NumberRangeSet.of
    rw [← he]
  exact rel_append h (.cons ⟨rfl, hne, by rwa [hof]⟩ .nil)

/-- What the loop has written and what is still in the set are all indexes so far. -/
theorem writeRefs_spec {iter g : List Short} {records : List (Record K)} (written : UInt32) {s : NumberRangeSet} {gs : List (List Short)}
    (hrecords : Recorded type records gs) (hs : Holds s g) (hiter : (g ++ iter).Pairwise (· < ·)) : ∃ gs',
      Recorded type (writeRefs m type key iter records written s).1 gs' ∧ gs'.flatten = gs.flatten ++ g ++ iter ∧
      (writeRefs m type key iter records written s).2 = written + UInt32.ofNat (gs'.length - gs.length) ∧ gs.length ≤ gs'.length := by
  induction iter generalizing g records written s gs with
  | nil =>
    unfold writeRefs
    by_cases hne : g = []
    · have he : ¬s.empty = false := by simp [hs.empty.mpr hne]
      rw [if_neg he]
      exact ⟨gs, hrecords, by simp [hne], by simp, Nat.le_refl _⟩
    · have he : s.empty = false := Bool.eq_false_iff.mpr fun he => hne (hs.empty.mp he)
      rw [if_pos he]
      exact ⟨gs ++ [g], recorded_snoc hrecords hs hne, by simp, by simp, by simp⟩
  | cons index iter ih =>
    have habove : ∀ y ∈ g, y < index := fun y hy => (pairwise_append.mp hiter).2.2 y hy index mem_cons_self
    rw [writeRefs]
    by_cases hover : (s.add m index).overflow = true
    · rw [if_pos hover]
      have hne : g ≠ [] := by
        intro hg
        have he := hs.empty.mpr hg
        simp [NumberRangeSet.add, he] at hover
      obtain ⟨gs', hrec, hflat, hcount, hle⟩ := ih (written + 1) (recorded_snoc hrecords hs hne) (@alone_holds m (s.add m index).set index)
        (hiter.sublist (sublist_append_right g (index :: iter)))
      refine ⟨gs', hrec, by simpa using hflat, ?_, ?_⟩
      · rw [hcount]
        rw [length_append, length_singleton] at hle ⊢
        rw [UInt32.add_assoc, show gs'.length - gs.length = 1 + (gs'.length - (gs.length + 1)) by omega, UInt32.ofNat_add]
        rfl
      · rw [length_append] at hle
        omega
    · rw [if_neg hover]
      obtain ⟨gs', hrec, hflat, hcount, hle⟩ := ih written hrecords (add_holds hs habove (Bool.eq_false_iff.mpr hover)) (by simpa using hiter)
      exact ⟨gs', hrec, by simpa using hflat, hcount, hle⟩

/-! ## Reading -/

variable {s : Segment} {t : FileType} {x : Short}

theorem mem_readIndex (index : Short) : (((readIndex type s index).indexes t).get x).isSome = true ↔
    ((s.indexes t).get x).isSome = true ∨ t = type ∧ index = x := by
  have hput (set : SortedMap Short Unit) : ((set.put index ()).get x).isSome = true ↔ (set.get x).isSome = true ∨ index = x := by
    rw [SortedMap.get_put]
    by_cases h : x = index
    · simp [h]
    · simp [h, Ne.symm h]
  cases type with
  | irt =>
    unfold readIndex
    by_cases hhas : s.hasPagingIndex index = true
    · simp only [hhas, if_true]
      have hin : (s.pagingIndexes.get index).isSome = true := (Bool.and_eq_true_iff.mp hhas).2
      refine (or_iff_left_of_imp fun h => ?_).symm
      obtain ⟨rfl, rfl⟩ := h
      exact hin
    · simp only [hhas]
      cases t with
      | irt => exact (hput _).trans (by simp [Segment.indexes])
      | vrt => simp [Segment.indexes, Segment.addPagingIndex]
  | vrt =>
    unfold readIndex
    by_cases hhas : s.hasStreamIndex index = true
    · simp only [hhas, if_true]
      refine (or_iff_left_of_imp fun h => ?_).symm
      obtain ⟨rfl, rfl⟩ := h
      exact hhas
    · simp only [hhas]
      cases t with
      | irt => simp [Segment.indexes, Segment.addStreamIndex]
      | vrt => exact (hput _).trans (by simp [Segment.indexes])

theorem mem_readIndexes (l : List (Short × Unit)) : (((l.foldl (fun s e => readIndex type s e.1) s).indexes t).get x).isSome = true ↔
    ((s.indexes t).get x).isSome = true ∨ t = type ∧ ∃ e ∈ l, e.1 = x := by
  induction l generalizing s with
  | nil => simp
  | cons e l ih =>
    rw [foldl_cons, ih, mem_readIndex, exists_mem_cons_iff, or_assoc, ← and_or_left]

theorem mem_readPagingInfo {r : Record K} {g : List Short} (hr : Holds (.of r.fileIndex r.position) g) :
    (((readPagingInfo s r).indexes t).get x).isSome = true ↔ ((s.indexes t).get x).isSome = true ∨ t = r.flags ∧ x ∈ g := by
  rw [readPagingInfo, mem_readIndexes, ← mem_toSet hr]
  refine or_congr_right (and_congr_right fun _ => ?_)
  simp [SortedMap.mem_entries, Option.isSome_iff_exists]

theorem mem_readAll {records : List (Record K)} {gs : List (List Short)} (h : Recorded type records gs) :
    (((records.foldl readPagingInfo s).indexes t).get x).isSome = true ↔ ((s.indexes t).get x).isSome = true ∨ t = type ∧ x ∈ gs.flatten := by
  induction h generalizing s with
  | nil => simp
  | cons hr _ ih =>
    rw [foldl_cons, ih, mem_readPagingInfo hr.2.2, hr.1, flatten_cons, mem_append, or_assoc, ← and_or_left]

theorem Recorded.length_le {records : List (Record K)} {gs : List (List Short)} (h : Recorded type records gs) :
    records.length ≤ gs.flatten.length := by
  induction h with
  | nil => exact Nat.le_refl 0
  | cons hr _ ih =>
    have hpos := length_pos_of_ne_nil hr.2.1
    rw [length_cons, flatten_cons, length_append]
    omega

/-- A segment that reads the records has the indexes that were written, and none of the other kind. The number that is returned is that
of the records. -/
theorem file_refs_round_trip (m : Shifter) (type : FileType) (key : K) {ids : List Short} (h : ids.Pairwise (· < ·)) :
    (∀ t, (((writeFileRefs m type key ids).1.foldl readPagingInfo .new).indexes t).entries.map Prod.fst = if t = type then ids else []) ∧
      (writeFileRefs m type key ids).2.toNat = (writeFileRefs m type key ids).1.length := by
  obtain ⟨gs, hrecords, hflat, hcount, -⟩ := @writeRefs_spec K m type key ids [] [] 0 .new [] .nil new_holds h
  have hflat : gs.flatten = ids := hflat
  refine ⟨fun t => SortedMap.keys_eq ?_ fun x => ?_, ?_⟩
  · by_cases ht : t = type
    · rwa [if_pos ht]
    · rw [if_neg ht]
      exact .nil
  · have hnew : ((Segment.new.indexes t).get x).isSome = false := by cases t <;> rfl
    rw [writeFileRefs, mem_readAll hrecords, hnew, hflat]
    by_cases ht : t = type <;> simp [ht]
  · have hle : (writeFileRefs m type key ids).1.length ≤ ids.length := hflat ▸ hrecords.length_le
    have hshort : ids.length ≤ 65536 := by
      have hnodup : ids.Nodup := h.imp ne_of_lt
      simpa using hnodup.length_le_card
    have hlength : (writeFileRefs m type key ids).1.length = gs.length := hrecords.length_eq
    have hwritten : (writeFileRefs m type key ids).2 = UInt32.ofNat gs.length := by
      rw [writeFileRefs, hcount]
      simp
    rw [hwritten, hlength, UInt32.toNat_ofNat']
    omega

/-- Of 0, 32, 33 and 65535 the first two are in one record. -/
theorem file_refs_of_four : (∀ t, (((writeFileRefs x86 .vrt () [0, 32, 33, 65535]).1.foldl readPagingInfo .new).indexes t).entries.map Prod.fst =
    if t = .vrt then [0, 32, 33, 65535] else []) ∧ (writeFileRefs x86 .vrt () [0, 32, 33, 65535]).2 = 3 :=
  ⟨(file_refs_round_trip x86 .vrt () (by decide)).1, by decide⟩

end Records

end DeepFabric.Store.FileRefs
