/-
  DeepFabric.Store.KeyPaging — the index blocks of a segment, written and read back
  (core/RealTimeProtocol_v1_1.h: WriteKeyPaging::processInfo, writeKeyPaging, keySpaceIndex,
  writeInfoPaging, writeMetaData, readKeyPagingIndex, readPagingInfo; core/RealTimeMap.cxx:
  indexSegment; cxx/util/TreeMap.h: add), for a primary segment, with no open transactions and no
  checkpoint.

  An entry of a segment knows whether its value locality has been indexed. An index cycle walks the
  entries in key order and appends a block to an index file. A delta has the first entry and those
  not yet indexed, and refers back to the segment's last block; the first entry is taken off the
  count when it is written for the seed alone, and put back if the block is kept. A rebuild has all
  entries and refers to nothing. An entry that is deleted leaves the segment when a walk comes to
  it, and a delta that meets one starts over as a rebuild. A cycle is a rebuild too when somebody
  asks for one or when the file is out of the range the segment's files may span. Where a segment's
  values are in too many files the block ends with references to these.

  A purged segment has its first entry in memory. Reading starts at its last block, whose first
  entry it passes over, and goes along the back references. A key that is there already is not
  replaced; behind a key that came in at the end of the tree, the rest of a block is appended
  without a search.

  Other segments write to the same files: a block may be put anywhere behind the end of its file.

  - `step_inv` / `inv`: the chain of blocks, newest first, binds the keys as the last cycle left
    them, and every entry marked as indexed is bound to its own locality.
-/
import Mathlib.Algebra.Group.Int.Defs
import Mathlib.Algebra.Group.Nat.Defs
import Mathlib.Data.List.Basic
import Mathlib.Data.Nat.Basic
import DeepFabric.Lib.Run
import DeepFabric.Lib.SortedMap

namespace DeepFabric.Store.KeyPaging

open DeepFabric.Lib DeepFabric.Lib.Run List Bool
open List (replicate forall_mem_cons)
open SortedMap (insertEntry mem_insertEntry)

variable {K : Type} [LinearOrder K]

structure Locality where
  fileIndex : Nat
  position : Nat
  size : Nat
  compressedOffset : Nat
  deriving DecidableEq, Repr

def offsetNone : Nat := 0xFFFFFFFF

structure Entry where
  locality : Locality
  indexed : Bool
  deleting : Bool
  deriving DecidableEq, Repr

/-- What writeInfoPaging puts into a block: the size unless all values have one size, the offset if there is one. -/
inductive Stored (K : Type) where
  | content (key : K) (fileIndex position : Nat) (size compressedOffset : Option Nat)
  /-- A reference to value files. -/
  | refVrt
  deriving DecidableEq, Repr

structure Block (K : Type) where
  pagingIndex : Nat
  pagingPosition : Nat
  physicalSize : Nat
  infos : List (Stored K)

structure Segment (K : Type) where
  entries : List (K × Entry)
  pagingIndexes : List Nat
  /-- Of the last block, 0 before the first. -/
  pagingPosition : Nat
  /-- It lost its last entry, and is gone. -/
  deleted : Bool

structure St (K : Type) where
  segment : Segment K
  /-- The index files: what block is at a position, and where a file ends. -/
  irt : Nat → Nat → Option (Block K)
  length : Nat → Nat
  /-- The keys and localities at the last index cycle. -/
  indexed : List (K × Locality)

def init : St K := ⟨⟨[], [], 0, false⟩, fun _ _ => none, fun _ => 0, []⟩

/-! ## Writing -/

/-- `valueSize` is the one size of all values of the map, or none. -/
def writeInfoPaging (valueSize : Option Nat) (key : K) (l : Locality) : Stored K :=
  .content key l.fileIndex l.position (if valueSize.isSome then none else some l.size)
    (if l.compressedOffset = offsetNone then none else some l.compressedOffset)

/-- Whether an entry is written, the count, whether the seed is off it, and the entry. -/
def keySpaceIndex (rebuild : Bool) (index : Nat) (actual : Int) (skip : Bool) (e : Entry) : Bool × Int × Bool × Entry :=
  if e.indexed = false then (true, actual, skip, { e with indexed := true })
  else if rebuild = false then if index = 0 then (true, actual - 1, true, e) else (false, actual, skip, e)
  else (true, actual, skip, e)

structure Walk (K : Type) where
  actual : Int
  skip : Bool
  infos : List (Stored K)
  /-- The entries the walk has been at and that stay. -/
  walked : List (K × Entry)

def Walk.begin : Walk K := ⟨0, false, [], []⟩

/-- The walk over the entries from the `i`-th on, or the entries it starts over with. -/
def walkSegment (valueSize : Option Nat) (rebuild : Bool) : Nat → Walk K → List (K × Entry) → Walk K ⊕ List (K × Entry)
  | _, w, [] => .inl w
  | i, w, (key, e) :: rest =>
    if e.deleting then
      if rebuild then walkSegment valueSize rebuild (i + 1) w rest else .inr (w.walked ++ rest)
    else
      match keySpaceIndex rebuild i w.actual w.skip e with
      | (writable, actual, skip, e) =>
        walkSegment valueSize rebuild (i + 1)
          { actual := if writable then actual + 1 else actual
            skip := skip
            infos := if writable then w.infos ++ [writeInfoPaging valueSize key e.locality] else w.infos
            walked := w.walked ++ [(key, e)] } rest

/-- The walk that came to its end, and whether it was a rebuild. -/
def writeKeyPaging (valueSize : Option Nat) (rebuild : Bool) (entries : List (K × Entry)) : Walk K × Bool :=
  match walkSegment valueSize rebuild 0 .begin entries with
  | .inl w => (w, rebuild)
  | .inr entries =>
    match walkSegment valueSize true 0 .begin entries with
    | .inl w => (w, true)
    | .inr _ => (.begin, true)

def currentPagingIndex (segment : Segment K) : Nat := segment.pagingIndexes.foldr max 0

/-- A bit for every other file of the segment, that of the file before the current one first. -/
def pagingRange (segment : Segment K) : Nat :=
  segment.pagingIndexes.foldr (fun i range =>
    if i = currentPagingIndex segment then range else range ||| 1 <<< (currentPagingIndex segment - i - 1)) 0

def validPagingRange (segment : Segment K) (fileIndex : Nat) : Bool :=
  if fileIndex < currentPagingIndex segment then false
  else if fileIndex = currentPagingIndex segment then true
  else
    let diff := fileIndex - currentPagingIndex segment
    diff ≤ 8 && pagingRange segment >>> (8 - diff) = 0

/-- writeMetaData over the seeded header. -/
def metaData (segment : Segment K) (rebuild : Bool) (actual : Int) (infos : List (Stored K)) : Block K where
  pagingIndex := if rebuild then 0 else currentPagingIndex segment
  pagingPosition := if rebuild then 0 else segment.pagingPosition
  physicalSize := (actual % 2 ^ 16).toNat
  infos := infos

/-- indexSegment; `refs` are the references to value files. -/
def indexSegment (valueSize : Option Nat) (s : St K) (fileIndex position : Nat) (rebuild : Bool) (refs : Nat) : St K :=
  let segment := s.segment
  let rebuild := rebuild || (fileIndex ≠ currentPagingIndex segment && !validPagingRange segment fileIndex)
  match writeKeyPaging valueSize rebuild segment.entries with
  | (w, rebuild) =>
    let indexed := w.walked.map fun e => (e.1, e.2.locality)
    if w.walked = [] then { s with segment := { segment with entries := [], deleted := true }, indexed := [] }
    else if w.actual = 0 then { s with segment := { segment with entries := w.walked }, indexed := indexed }
    else
      let actual := w.actual + refs + if w.skip then 1 else 0
      let block := metaData segment rebuild actual (w.infos ++ replicate refs .refVrt)
      { segment :=
          { segment with
            entries := w.walked
            pagingIndexes := fileIndex :: if rebuild then [] else segment.pagingIndexes
            pagingPosition := position }
        irt := fun f p => if f = fileIndex ∧ p = position then some block else s.irt f p
        length := Function.update s.length fileIndex (position + 1)
        indexed := indexed }

inductive Ev (K : Type) where
  /-- A committed insert or update. -/
  | put (key : K) (l : Locality)
  | delete (key : K)
  | index (fileIndex position : Nat) (rebuild : Bool) (refs : Nat)
  deriving Repr

/-- DEFAULT_SEGMENT_MAXIMUM_SIZE. -/
def segmentMaximumSize : Nat := 50000

/-- A 16-bit file index, 33 of them to a reference. -/
def maximumRefs : Nat := 1986

/-- commitRealTime sets the size where there is one for all values. updateInformation refuses a segment that is too
    large. -/
def step (valueSize : Option Nat) (s : St K) : Ev K → Option (St K)
  | .put key l =>
    let entries := insertEntry key ⟨{ l with size := valueSize.getD l.size }, false, false⟩ s.segment.entries
    if s.segment.deleted = false ∧ entries.length ≤ segmentMaximumSize then
      some { s with segment := { s.segment with entries := entries } }
    else none
  | .delete key =>
    if s.segment.deleted = false ∧ s.segment.entries.any fun e => e.1 = key then
      some { s with segment := { s.segment with
        entries := s.segment.entries.map fun e => if e.1 = key then (e.1, { e.2 with deleting := true }) else e } }
    else none
  | .index fileIndex position rebuild refs =>
    if s.segment.deleted = false ∧ s.segment.entries ≠ [] ∧ s.length fileIndex ≤ position ∧ 0 < position
        ∧ refs ≤ maximumRefs then some (indexSegment valueSize s fileIndex position rebuild refs)
    else none

/-! ## Reading -/

/-- TreeMap::add of a key, and whether it went to the end; an enabled cardinality takes that back. -/
def add (cardinality : Bool) (tree : List (K × Locality)) (key : K) (l : Locality) : List (K × Locality) × Bool :=
  if tree.any fun e => e.1 = key then (tree, false)
  else (insertEntry key l tree, !cardinality && tree.all fun e => e.1 < key)

/-- readPagingInfo, with the tree and `sequential` in hand. -/
def readPagingInfo (valueSize : Option Nat) (cardinality : Bool) (t : List (K × Locality) × Bool) :
    Stored K → List (K × Locality) × Bool
  | .content key fileIndex position size compressedOffset =>
    let l := ⟨fileIndex, position, valueSize.getD (size.getD 0), compressedOffset.getD offsetNone⟩
    if t.2 then (t.1 ++ [(key, l)], true) else add cardinality t.1 key l
  | .refVrt => t

/-- readKeyPagingIndex, along at most `fuel` blocks; the first entry of the newest one is passed over. -/
def readKeyPagingIndex (valueSize : Option Nat) (cardinality : Bool) (irt : Nat → Nat → Option (Block K)) :
    Nat → Bool → Nat → Nat → List (K × Locality) → Option (List (K × Locality))
  | 0, _, _, _, _ => none
  | fuel + 1, newest, fileIndex, position, tree =>
    match irt fileIndex position with
    | none => none
    | some block =>
      let infos := if newest then (block.infos.take block.physicalSize).drop 1 else block.infos.take block.physicalSize
      let tree := (infos.foldl (readPagingInfo valueSize cardinality) (tree, false)).1
      if block.pagingPosition ≠ 0 then
        readKeyPagingIndex valueSize cardinality irt fuel false block.pagingIndex block.pagingPosition tree
      else some tree

/-! ## What a walk writes -/

def alive (es : List (K × Entry)) : List (K × Entry) := es.filter fun e => !e.2.deleting

def unindexed (es : List (K × Entry)) : List (K × Entry) := es.filter fun e => !e.2.indexed

def mark (e : K × Entry) : K × Entry := (e.1, { e.2 with indexed := true })

def binds (es : List (K × Entry)) : List (K × Locality) := es.map fun e => (e.1, e.2.locality)

def storeAll (valueSize : Option Nat) (l : List (K × Locality)) : List (Stored K) :=
  l.map fun b => writeInfoPaging valueSize b.1 b.2

omit [LinearOrder K] in
@[simp] theorem binds_mark (es : List (K × Entry)) : binds (es.map mark) = binds es := by
  simp [binds, mark, Function.comp_def]

omit [LinearOrder K] in
theorem mark_of_indexed {key : K} {e : Entry} (h : e.indexed = true) : mark (key, e) = (key, e) := by
  cases e
  simp_all [mark]

section Walks
variable (valueSize : Option Nat)
omit [LinearOrder K]

/-- A rebuild writes what is not deleted, and leaves it marked. -/
theorem walk_rebuild (i : Nat) (w : Walk K) (es : List (K × Entry)) : walkSegment valueSize true i w es
    = .inl ⟨w.actual + (alive es).length, w.skip, w.infos ++ storeAll valueSize (binds (alive es)),
        w.walked ++ (alive es).map mark⟩ := by
  induction es generalizing i w with
  | nil => simp [walkSegment, alive, storeAll, binds]
  | cons e rest ih =>
    obtain ⟨key, e⟩ := e
    unfold walkSegment
    by_cases hd : e.deleting = true
    · simp only [hd, if_true, ih]
      simp [alive, hd]
    · have hd : e.deleting = false := by simpa using hd
      have halive : alive ((key, e) :: rest) = (key, e) :: alive rest := by simp [alive, hd]
      by_cases hx : e.indexed = true
      · simp only [hd, false_eq_true, if_false, keySpaceIndex, hx, true_eq_false, if_true, ih]
        rw [halive]
        simp [storeAll, binds, mark_of_indexed hx]
        omega
      · have hx : e.indexed = false := by simpa using hx
        simp only [hd, false_eq_true, if_false, keySpaceIndex, hx, if_true, ih]
        rw [halive]
        simp [storeAll, binds, mark, hd]
        omega

/-- Behind its first entry a delta writes what is not indexed. -/
theorem walk_tail {i : Nat} (h0 : i ≠ 0) (w : Walk K) {es : List (K × Entry)} (hes : ∀ e ∈ es, e.2.deleting = false) :
    walkSegment valueSize false i w es
    = .inl ⟨w.actual + (unindexed es).length, w.skip, w.infos ++ storeAll valueSize (binds (unindexed es)),
        w.walked ++ es.map mark⟩ := by
  induction es generalizing i w with
  | nil => simp [walkSegment, unindexed, storeAll, binds]
  | cons e rest ih =>
    obtain ⟨key, e⟩ := e
    have hd : e.deleting = false := hes (key, e) mem_cons_self
    have hrest : ∀ e ∈ rest, e.2.deleting = false := (forall_mem_cons.mp hes).2
    unfold walkSegment
    by_cases hx : e.indexed = true
    · simp only [hd, false_eq_true, if_false, keySpaceIndex, hx, true_eq_false, if_true, h0]
      rw [ih (Nat.succ_ne_zero i) _ hrest]
      simp [unindexed, hx, mark_of_indexed hx]
    · have hx : e.indexed = false := by simpa using hx
      simp only [hd, false_eq_true, if_false, keySpaceIndex, hx, if_true]
      rw [ih (Nat.succ_ne_zero i) _ hrest]
      simp [unindexed, hx, storeAll, binds, mark, hd]
      omega

/-- A delta writes its first entry and what is not indexed, and counts the latter. -/
theorem walk_delta {e : K × Entry} {rest : List (K × Entry)} (hes : ∀ x ∈ e :: rest, x.2.deleting = false) :
    walkSegment valueSize false 0 .begin (e :: rest)
    = .inl ⟨(unindexed (e :: rest)).length, e.2.indexed, storeAll valueSize (binds (e :: unindexed rest)),
        (e :: rest).map mark⟩ := by
  obtain ⟨key, e⟩ := e
  have hd : e.deleting = false := hes (key, e) mem_cons_self
  have hrest : ∀ e ∈ rest, e.2.deleting = false := (forall_mem_cons.mp hes).2
  unfold walkSegment
  by_cases hx : e.indexed = true
  · simp only [hd, false_eq_true, if_false, keySpaceIndex, hx, true_eq_false, if_true, Walk.begin]
    rw [walk_tail valueSize (Nat.succ_ne_zero 0) _ hrest]
    simp [unindexed, hx, mark_of_indexed hx, storeAll, binds]
  · have hx : e.indexed = false := by simpa using hx
    simp only [hd, false_eq_true, if_false, keySpaceIndex, hx, if_true, Walk.begin]
    rw [walk_tail valueSize (Nat.succ_ne_zero 0) _ hrest]
    simp [unindexed, hx, mark, storeAll, binds, hd]
    omega

/-- A delta that meets a deleted entry starts over with the others as they were. -/
theorem walk_retry (i : Nat) (w : Walk K) {es : List (K × Entry)} (hes : ∃ e ∈ es, e.2.deleting = true)
    (hw : ∀ e ∈ w.walked, e.2.deleting = false) : ∃ es', walkSegment valueSize false i w es = .inr es'
      ∧ binds (alive es') = binds (alive (w.walked ++ es)) := by
  induction es generalizing i w with
  | nil =>
    obtain ⟨e, he, -⟩ := hes
    exact absurd he not_mem_nil
  | cons e rest ih =>
    obtain ⟨key, e⟩ := e
    unfold walkSegment
    by_cases hd : e.deleting = true
    · refine ⟨w.walked ++ rest, by simp [hd], ?_⟩
      simp [alive, hd]
    · have hd : e.deleting = false := by simpa using hd
      have hrest : ∃ e ∈ rest, e.2.deleting = true := by
        obtain ⟨x, hx, hxd⟩ := hes
        rcases mem_cons.mp hx with rfl | hx
        · rw [hd] at hxd
          cases hxd
        · exact ⟨x, hx, hxd⟩
      -- what is walked over stays alive, with its locality
      have hkeep : (keySpaceIndex false i w.actual w.skip e).2.2.2.deleting = false
          ∧ (keySpaceIndex false i w.actual w.skip e).2.2.2.locality = e.locality := by
        unfold keySpaceIndex
        split_ifs <;> exact ⟨hd, rfl⟩
      simp only [hd, false_eq_true, if_false]
      generalize keySpaceIndex false i w.actual w.skip e = r at hkeep
      obtain ⟨writable, actual, skip, e'⟩ := r
      obtain ⟨es', heq, hb⟩ := ih (i + 1)
        { actual := if writable then actual + 1 else actual
          skip := skip
          infos := if writable then w.infos ++ [writeInfoPaging valueSize key e'.locality] else w.infos
          walked := w.walked ++ [(key, e')] } hrest (by
            intro x hx
            rcases mem_append.mp hx with hx | hx
            · exact hw x hx
            · rw [mem_singleton.mp hx]
              exact hkeep.1)
      refine ⟨es', heq, hb.trans ?_⟩
      have h1 : e'.deleting = false := hkeep.1
      have h2 : e'.locality = e.locality := hkeep.2
      simp [alive, binds, hd, h1, h2]

/-- What an index cycle writes: all that is left, or, with nothing deleted, the first entry and what is not indexed. -/
theorem writeKeyPaging_cases (rebuild : Bool) (e : K × Entry) (rest : List (K × Entry)) :
    (∃ es, binds (alive es) = binds (alive (e :: rest)) ∧ writeKeyPaging valueSize rebuild (e :: rest)
      = (⟨(alive es).length, false, storeAll valueSize (binds (alive es)), (alive es).map mark⟩, true))
    ∨ rebuild = false ∧ (∀ x ∈ e :: rest, x.2.deleting = false) ∧ writeKeyPaging valueSize rebuild (e :: rest)
      = (⟨(unindexed (e :: rest)).length, e.2.indexed, storeAll valueSize (binds (e :: unindexed rest)),
        (e :: rest).map mark⟩, false) := by
  unfold writeKeyPaging
  cases rebuild with
  | true =>
    refine .inl ⟨e :: rest, rfl, ?_⟩
    rw [walk_rebuild]
    simp [Walk.begin]
  | false =>
    by_cases hd : ∃ x ∈ e :: rest, x.2.deleting = true
    · obtain ⟨es, heq, hb⟩ := walk_retry valueSize 0 .begin hd (by simp [Walk.begin])
      refine .inl ⟨es, hb, ?_⟩
      rw [heq]
      simp only [walk_rebuild]
      simp [Walk.begin]
    · have hd : ∀ x ∈ e :: rest, x.2.deleting = false := by
        intro x hx
        by_contra hne
        exact hd ⟨x, hx, by simpa using hne⟩
      refine .inr ⟨rfl, hd, ?_⟩
      rw [walk_delta valueSize hd]

end Walks

/-! ## What a block adds -/

def Sorted {V : Type} (l : List (K × V)) : Prop := l.Pairwise fun a b => a.1 < b.1

def lookup (l : List (K × Locality)) (k : K) : Option Locality := (l.find? fun e => e.1 = k).map (·.2)

variable {l : List (K × Locality)} {k : K}

theorem mem_iff_lookup (h : Sorted l) {v : Locality} : (k, v) ∈ l ↔ lookup l k = some v :=
  SortedMap.mem_entries (m := ⟨l, h⟩)

theorem lookup_append (a b : List (K × Locality)) (k : K) : lookup (a ++ b) k = (lookup a k).or (lookup b k) := by
  unfold lookup
  rw [List.find?_append]
  cases a.find? fun e => e.1 = k <;> rfl

theorem lookup_singleton (b : K × Locality) (k : K) : lookup [b] k = if b.1 = k then some b.2 else none := by
  by_cases h : b.1 = k <;> simp [lookup, h]

theorem lookup_eq_none : lookup l k = none ↔ ∀ e ∈ l, e.1 ≠ k := by
  simp [lookup]

theorem eq_of_lookup {a b : List (K × Locality)} (ha : Sorted a) (hb : Sorted b) (h : ∀ k, lookup a k = lookup b k) : a = b :=
  congrArg SortedMap.entries (show (⟨a, ha⟩ : SortedMap K Locality) = ⟨b, hb⟩ from SortedMap.eq_of_get h)

/-- One entry of a block comes to the tree. -/
def addInfo (cardinality : Bool) (t : List (K × Locality) × Bool) (b : K × Locality) : List (K × Locality) × Bool :=
  if t.2 then (t.1 ++ [b], true) else add cardinality t.1 b.1 b.2

variable {valueSize : Option Nat}

theorem readPagingInfo_write {b : K × Locality} (h : ∀ v ∈ valueSize, b.2.size = v)
    (cardinality : Bool) (t : List (K × Locality) × Bool) :
    readPagingInfo valueSize cardinality t (writeInfoPaging valueSize b.1 b.2) = addInfo cardinality t b := by
  have hoffset : (if b.2.compressedOffset = offsetNone then none else some b.2.compressedOffset).getD offsetNone
      = b.2.compressedOffset := by
    split
    · rename_i h
      exact h.symm
    · rfl
  have hsize : valueSize.getD ((if valueSize.isSome then none else some b.2.size).getD 0) = b.2.size := by
    cases valueSize with
    | none => rfl
    | some v => exact (h v rfl).symm
  simp only [writeInfoPaging, readPagingInfo, addInfo, hoffset, hsize]

theorem foldl_readPagingInfo (h : ∀ b ∈ l, ∀ v ∈ valueSize, b.2.size = v)
    (cardinality : Bool) (refs : Nat) (t : List (K × Locality) × Bool) :
    (storeAll valueSize l ++ replicate refs Stored.refVrt).foldl (readPagingInfo valueSize cardinality) t
      = l.foldl (addInfo cardinality) t := by
  induction l generalizing t with
  | nil =>
    induction refs with
    | zero => rfl
    | succ refs ih => exact ih
  | cons b l ih =>
    rw [storeAll, map_cons, cons_append, foldl_cons, foldl_cons,
      readPagingInfo_write (h b mem_cons_self)]
    exact ih (forall_mem_cons.mp h).2 _

theorem addInfo_spec (cardinality : Bool) {t : List (K × Locality) × Bool} {b : K × Locality} (ht : Sorted t.1)
    (hseq : t.2 = true → ∀ e ∈ t.1, e.1 < b.1) : Sorted (addInfo cardinality t b).1
      ∧ (∀ k, lookup (addInfo cardinality t b).1 k = (lookup t.1 k).or (lookup [b] k))
      ∧ ((addInfo cardinality t b).2 = true → ∀ e ∈ (addInfo cardinality t b).1, e.1 ≤ b.1) := by
  unfold addInfo
  by_cases hs : t.2 = true
  · rw [if_pos hs]
    refine ⟨?_, fun k => lookup_append t.1 [b] k, fun _ e he => ?_⟩
    · refine pairwise_append.mpr ⟨ht, pairwise_singleton _ _, fun a ha x hx => ?_⟩
      rw [mem_singleton.mp hx]
      exact hseq hs a ha
    · rcases mem_append.mp he with he | he
      · exact le_of_lt (hseq hs e he)
      · rw [mem_singleton.mp he]
  · rw [if_neg hs]
    unfold add
    by_cases hany : t.1.any (fun e => decide (e.1 = b.1)) = true
    · rw [if_pos hany]
      refine ⟨ht, fun k => ?_, fun h => by cases h⟩
      rw [lookup_singleton]
      split
      · rename_i hk
        subst hk
        obtain ⟨e, he, hek⟩ := any_eq_true.mp hany
        cases hl : lookup t.1 b.1 with
        | some v => rfl
        | none => exact absurd (by simpa using hek) (lookup_eq_none.mp hl e he)
      · rw [Option.or_none]
    · rw [if_neg hany]
      refine ⟨SortedMap.insertEntry_sorted _ _ ht, fun k => ?_, fun hall e he => ?_⟩
      · have hput : lookup (insertEntry b.1 b.2 t.1) k = if k = b.1 then some b.2 else lookup t.1 k :=
          SortedMap.get_put ⟨t.1, ht⟩ b.1 k b.2
        rw [hput, lookup_singleton]
        by_cases hk : k = b.1
        · subst hk
          have hnone : lookup t.1 b.1 = none := by
            refine lookup_eq_none.mpr fun e he hek => hany ?_
            exact any_eq_true.mpr ⟨e, he, by simpa using hek⟩
          simp [hnone]
        · simp [hk, Ne.symm hk]
      · rw [and_eq_true, all_eq_true] at hall
        rcases mem_insertEntry he with rfl | he
        · exact le_refl _
        · exact le_of_lt (by simpa using hall.2 e he)

theorem readInfos_spec (cardinality : Bool) {t : List (K × Locality) × Bool} (ht : Sorted t.1)
    (hl : Sorted l) (hseq : t.2 = true → ∀ e ∈ t.1, ∀ b ∈ l, e.1 < b.1) : Sorted (l.foldl (addInfo cardinality) t).1
      ∧ ∀ k, lookup (l.foldl (addInfo cardinality) t).1 k = (lookup t.1 k).or (lookup l k) := by
  induction l generalizing t with
  | nil => exact ⟨ht, fun k => by simp [lookup]⟩
  | cons b l ih =>
    obtain ⟨hb, hl⟩ := pairwise_cons.mp hl
    obtain ⟨h1, h2, h3⟩ := addInfo_spec cardinality ht fun hs e he => hseq hs e he b mem_cons_self
    obtain ⟨h4, h5⟩ := ih h1 hl fun hs e he x hx => lt_of_le_of_lt (h3 hs e he) (hb x hx)
    refine ⟨h4, fun k => ?_⟩
    rw [foldl_cons, h5, h2, Option.or_assoc, ← lookup_append]
    rfl

/-! ## The chain of blocks -/

structure Holds (valueSize : Option Nat) (block : Block K) (l : List (K × Locality)) : Prop where
  sorted : Sorted l
  sizes : ∀ b ∈ l, ∀ v ∈ valueSize, b.2.size = v
  stored : ∃ refs, block.infos = storeAll valueSize l ++ replicate refs Stored.refVrt ∧ block.physicalSize = l.length + refs

/-- The contents of the blocks from a position on along the back references. -/
inductive Chain (valueSize : Option Nat) (irt : Nat → Nat → Option (Block K)) :
    Nat → Nat → List (List (K × Locality)) → Prop
  | last {f p : Nat} {block : Block K} {l : List (K × Locality)} : irt f p = some block → Holds valueSize block l →
      block.pagingPosition = 0 → Chain valueSize irt f p [l]
  | back {f p : Nat} {block : Block K} {l : List (K × Locality)} {ls : List (List (K × Locality))} :
      irt f p = some block → Holds valueSize block l → block.pagingPosition ≠ 0 →
      Chain valueSize irt block.pagingIndex block.pagingPosition ls → Chain valueSize irt f p (l :: ls)

/-- What the newest block that has the key says. -/
def latest : List (List (K × Locality)) → K → Option Locality
  | [], _ => none
  | l :: ls, k => (lookup l k).or (latest ls k)

section Reading
variable {valueSize : Option Nat} {irt : Nat → Nat → Option (Block K)}

variable {f p : Nat} {ls : List (List (K × Locality))}

theorem Chain.mono {irt' : Nat → Nat → Option (Block K)} (h : ∀ f p block, irt f p = some block → irt' f p = some block)
    (hc : Chain valueSize irt f p ls) : Chain valueSize irt' f p ls := by
  induction hc with
  | last hb hh h0 => exact .last (h _ _ _ hb) hh h0
  | back hb hh h0 _ ih => exact .back (h _ _ _ hb) hh h0 ih

omit [LinearOrder K] in
theorem length_storeAll (l : List (K × Locality)) : (storeAll valueSize l).length = l.length := length_map _

theorem Holds.take {block : Block K} {l : List (K × Locality)} (h : Holds valueSize block l) :
    ∃ refs, block.infos.take block.physicalSize = storeAll valueSize l ++ replicate refs Stored.refVrt := by
  obtain ⟨refs, hinfos, hsize⟩ := h.stored
  refine ⟨refs, ?_⟩
  have hlen : block.infos.length = block.physicalSize := by
    rw [hinfos, hsize, length_append, length_storeAll, length_replicate]
  rw [← hlen, take_length, hinfos]

theorem read_chain (cardinality : Bool) (hc : Chain valueSize irt f p ls)
    {fuel : Nat} (hf : ls.length ≤ fuel) {tree : List (K × Locality)} (ht : Sorted tree) :
    ∃ r, readKeyPagingIndex valueSize cardinality irt fuel false f p tree = some r ∧ Sorted r
      ∧ ∀ k, lookup r k = (lookup tree k).or (latest ls k) := by
  induction hc generalizing fuel tree with
  | last hb hh h0 =>
    rename_i f p block l
    obtain ⟨fuel, rfl⟩ : ∃ n, fuel = n + 1 := Nat.exists_eq_succ_of_ne_zero (by simp at hf; omega)
    obtain ⟨refs, htake⟩ := hh.take
    obtain ⟨hs, hl⟩ := readInfos_spec cardinality (t := (tree, false)) ht hh.sorted fun h => by cases h
    refine ⟨_, ?_, hs, fun k => ?_⟩
    · simp only [readKeyPagingIndex, hb, htake, false_eq_true, if_false, h0, ne_eq, not_true_eq_false]
      rw [foldl_readPagingInfo hh.sizes]
    · rw [hl]
      simp [latest]
  | back hb hh h0 _ ih =>
    rename_i f p block l ls _
    obtain ⟨fuel, rfl⟩ : ∃ n, fuel = n + 1 := Nat.exists_eq_succ_of_ne_zero (by simp at hf; omega)
    obtain ⟨refs, htake⟩ := hh.take
    obtain ⟨hs, hl⟩ := readInfos_spec cardinality (t := (tree, false)) ht hh.sorted fun h => by cases h
    obtain ⟨r, hr, hrs, hrl⟩ := ih (by simpa using hf) hs
    refine ⟨r, ?_, hrs, fun k => ?_⟩
    · simp only [readKeyPagingIndex, hb, htake, false_eq_true, if_false, h0, ne_eq, not_false_eq_true, if_true]
      rw [foldl_readPagingInfo hh.sizes]
      exact hr
    · rw [hrl, hl, Option.or_assoc]
      rfl

/-- From the newest block, with the key of its first entry in the tree. -/
theorem read_newest (cardinality : Bool) {first : K × Locality} {l : List (K × Locality)} (hc : Chain valueSize irt f p ((first :: l) :: ls))
    {fuel : Nat} (hf : ls.length < fuel)
    {tree : List (K × Locality)} (ht : Sorted tree) (hfirst : (lookup tree first.1).isSome) :
    ∃ r, readKeyPagingIndex valueSize cardinality irt fuel true f p tree = some r ∧ Sorted r
      ∧ ∀ k, lookup r k = (lookup tree k).or (latest ((first :: l) :: ls) k) := by
  obtain ⟨fuel, rfl⟩ : ∃ n, fuel = n + 1 := Nat.exists_eq_succ_of_ne_zero (by omega)
  have hpass (k : K) : (lookup tree k).or (lookup l k) = (lookup tree k).or (lookup (first :: l) k) := by
    rw [show first :: l = [first] ++ l from rfl, lookup_append, lookup_singleton]
    by_cases hk : first.1 = k
    · subst hk
      obtain ⟨v, hv⟩ := Option.isSome_iff_exists.mp hfirst
      rw [hv, Option.some_or, Option.some_or]
    · rw [if_neg hk, Option.none_or]
  have hread {block : Block K} (hh : Holds valueSize block (first :: l)) : ∃ r, Sorted r
      ∧ (∀ k, lookup r k = (lookup tree k).or (lookup (first :: l) k))
      ∧ (((block.infos.take block.physicalSize).drop 1).foldl (readPagingInfo valueSize cardinality) (tree, false)).1 = r := by
    obtain ⟨refs, htake⟩ := hh.take
    obtain ⟨-, hsl⟩ := pairwise_cons.mp hh.sorted
    obtain ⟨hs, hl⟩ := readInfos_spec cardinality (t := (tree, false)) ht hsl fun h => by cases h
    refine ⟨_, hs, fun k => (hl k).trans (hpass k), ?_⟩
    rw [htake]
    have hdrop : (storeAll valueSize (first :: l) ++ replicate refs Stored.refVrt).drop 1
        = storeAll valueSize l ++ replicate refs Stored.refVrt := rfl
    rw [hdrop, foldl_readPagingInfo (forall_mem_cons.mp hh.sizes).2]
  cases hc with
  | last hb hh h0 =>
    obtain ⟨r, hs, hl, hr⟩ := hread hh
    refine ⟨r, ?_, hs, fun k => ?_⟩
    · simp only [readKeyPagingIndex, hb, if_true, hr, h0, ne_eq, not_true_eq_false, if_false]
    · rw [hl]
      simp [latest]
  | back hb hh h0 hc =>
    obtain ⟨r, hs, hl, hr⟩ := hread hh
    obtain ⟨r', hr', hrs, hrl⟩ := read_chain cardinality hc (by omega : ls.length ≤ fuel) hs
    refine ⟨r', ?_, hrs, fun k => ?_⟩
    · simp only [readKeyPagingIndex, hb, if_true, hr, h0, ne_eq, not_false_eq_true]
      exact hr'
    · rw [hrl, hl, Option.or_assoc]
      rfl

end Reading

/-! ## The invariant -/

structure Inv (valueSize : Option Nat) (s : St K) : Prop where
  sorted : Sorted s.segment.entries
  capacity : s.segment.entries.length ≤ segmentMaximumSize
  sizes : ∀ e ∈ s.segment.entries, ∀ v ∈ valueSize, e.2.locality.size = v
  below : ∀ f p block, s.irt f p = some block → p < s.length f
  indexedSorted : Sorted s.indexed
  /-- An entry marked as indexed is what the last cycle left. -/
  marked : ∀ e ∈ s.segment.entries, e.2.indexed = true → e.2.deleting = false → lookup s.indexed e.1 = some e.2.locality
  kept : ∀ k v, lookup s.indexed k = some v → ∃ e ∈ s.segment.entries, e.1 = k
  unpaged : s.segment.pagingPosition = 0 → s.indexed = []
  paged : s.segment.pagingPosition ≠ 0 → s.segment.deleted = false → ∃ first l ls,
    Chain valueSize s.irt (currentPagingIndex s.segment) s.segment.pagingPosition ((first :: l) :: ls)
      ∧ (∀ k, latest ((first :: l) :: ls) k = lookup s.indexed k) ∧ s.indexed.head? = some first

theorem init_inv (valueSize : Option Nat) : Inv valueSize (init : St K) where
  sorted := List.Pairwise.nil
  capacity := Nat.zero_le _
  sizes e h := absurd h not_mem_nil
  below f p block h := by cases h
  indexedSorted := List.Pairwise.nil
  marked e h := absurd h not_mem_nil
  kept k v h := by cases h
  unpaged _ := rfl
  paged h := absurd rfl h

variable {es : List (K × Entry)}

theorem sorted_binds : Sorted (binds es) ↔ Sorted es := pairwise_map

theorem lookup_binds (h : Sorted es) {e : K × Entry} (he : e ∈ es) :
    lookup (binds es) e.1 = some e.2.locality :=
  (mem_iff_lookup (sorted_binds.mpr h)).mp (mem_map.mpr ⟨e, he, rfl⟩)

theorem lookup_binds_none (h : ∀ e ∈ es, e.1 ≠ k) : lookup (binds es) k = none := by
  refine lookup_eq_none.mpr fun b hb => ?_
  obtain ⟨e, he, rfl⟩ := mem_map.mp hb
  exact h e he

theorem kept_binds {v : Locality} (h : lookup (binds es) k = some v) : ∃ e ∈ es, e.1 = k := by
  by_contra hno
  have : lookup (binds es) k = none := lookup_binds_none fun e he hek => hno ⟨e, he, hek⟩
  rw [this] at h
  cases h

section Steps
variable {valueSize : Option Nat} {s : St K} (hi : Inv valueSize s)
include hi

theorem put_inv {key : K} {l : Locality} (hcap : (insertEntry key
    (⟨{ l with size := valueSize.getD l.size }, false, false⟩ : Entry) s.segment.entries).length ≤ segmentMaximumSize) :
    Inv valueSize
      { s with
        segment :=
          { s.segment with
            entries := insertEntry key (⟨{ l with size := valueSize.getD l.size }, false, false⟩ : Entry)
              s.segment.entries } } := by
  refine { hi with
    sorted := SortedMap.insertEntry_sorted _ _ hi.sorted
    capacity := hcap
    sizes := ?_
    marked := ?_
    kept := ?_ }
  · intro e he v hv
    rcases mem_insertEntry he with rfl | he
    · rw [Option.mem_def.mp hv]
      rfl
    · exact hi.sizes e he v hv
  · intro e he hx
    rcases mem_insertEntry he with rfl | he
    · cases hx
    · exact hi.marked e he hx
  · intro k v hk
    obtain ⟨e, he, rfl⟩ := hi.kept k v hk
    by_cases hek : e.1 = key
    · exact ⟨_, (SortedMap.mem_of_insertEntry hi.sorted).mpr (.inl rfl), hek.symm⟩
    · exact ⟨e, (SortedMap.mem_of_insertEntry hi.sorted).mpr (.inr ⟨he, hek⟩), rfl⟩

theorem delete_inv (key : K) : Inv valueSize { s with segment := { s.segment with
    entries := s.segment.entries.map fun e => if e.1 = key then (e.1, { e.2 with deleting := true }) else e } } := by
  have hkey (e : K × Entry) : (if e.1 = key then (e.1, { e.2 with deleting := true }) else e).1 = e.1 := by
    split <;> rfl
  refine { hi with
    sorted := pairwise_map.mpr (hi.sorted.imp fun {a b} hab => by rwa [hkey, hkey])
    capacity := by
      show (List.map _ _).length ≤ _
      rw [length_map]
      exact hi.capacity
    sizes := ?_
    marked := ?_
    kept := ?_ }
  · intro e' he' v hv
    obtain ⟨e, he, rfl⟩ := mem_map.mp he'
    have := hi.sizes e he v hv
    split <;> exact this
  · intro e' he' hx hd
    obtain ⟨e, he, rfl⟩ := mem_map.mp he'
    by_cases hk : e.1 = key
    · rw [if_pos hk] at hd
      cases hd
    · rw [if_neg hk] at hx hd ⊢
      exact hi.marked e he hx hd
  · intro k v hk
    obtain ⟨e, he, rfl⟩ := hi.kept k v hk
    exact ⟨_, mem_map.mpr ⟨e, he, rfl⟩, hkey e⟩

variable {rest : List (K × Entry)}

/-- A block is put behind the end of a file. It has the first entry and some of the others: with what the last cycle
    left, if it refers to it, all there is. -/
theorem written_inv (rebuild : Bool) (e : K × Entry) {l : List (K × Entry)} {f position refs : Nat} {actual : Int}
    (hend : s.length f ≤ position) (h0 : 0 < position) (hrefs : refs ≤ maximumRefs) (hdel : s.segment.deleted = false)
    (hes : Sorted (e :: rest)) (hcap : (e :: rest).length ≤ segmentMaximumSize)
    (hsizes : ∀ x ∈ e :: rest, ∀ v ∈ valueSize, x.2.locality.size = v) (hl : l.Sublist rest)
    (hactual : actual = (e :: l).length + refs) (hcur : rebuild = false → currentPagingIndex s.segment ≤ f)
    (hall : ∀ k, (lookup (binds (e :: l)) k).or (if rebuild then none else lookup s.indexed k)
      = lookup (binds (e :: rest)) k) :
    Inv valueSize
      { segment :=
          { s.segment with
            entries := (e :: rest).map mark
            pagingIndexes := f :: if rebuild then [] else s.segment.pagingIndexes
            pagingPosition := position }
        irt := fun f' p => if f' = f ∧ p = position then
            some (metaData s.segment rebuild actual (storeAll valueSize (binds (e :: l)) ++ replicate refs .refVrt))
          else s.irt f' p
        length := Function.update s.length f (position + 1)
        indexed := binds (e :: rest) } := by
  have hsub : (e :: l).Sublist (e :: rest) := hl.cons_cons e
  have hlsizes : ∀ b ∈ binds (e :: l), ∀ v ∈ valueSize, b.2.size = v := by
    intro b hb v hv
    obtain ⟨x, hx, rfl⟩ := mem_map.mp hb
    exact hsizes x (hsub.mem hx) v hv
  have hholds : Holds valueSize (metaData s.segment rebuild actual
      (storeAll valueSize (binds (e :: l)) ++ replicate refs .refVrt)) (binds (e :: l)) := by
    refine ⟨sorted_binds.mpr (List.Pairwise.sublist hsub hes), hlsizes, refs, rfl, ?_⟩
    show (actual % 2 ^ 16).toNat = (binds (e :: l)).length + refs
    rw [hactual, binds, length_map]
    have h1 : segmentMaximumSize = 50000 := rfl
    have h2 : maximumRefs = 1986 := rfl
    have h3 := hsub.length_le
    omega
  have hindex : (metaData s.segment rebuild actual
      (storeAll valueSize (binds (e :: l)) ++ replicate refs .refVrt)).pagingIndex
      = if rebuild then 0 else currentPagingIndex s.segment := rfl
  have hposition : (metaData s.segment rebuild actual
      (storeAll valueSize (binds (e :: l)) ++ replicate refs .refVrt)).pagingPosition
      = if rebuild then 0 else s.segment.pagingPosition := rfl
  generalize metaData s.segment rebuild actual (storeAll valueSize (binds (e :: l)) ++ replicate refs .refVrt)
    = block at hholds hindex hposition ⊢
  have hmono : ∀ f' p b, s.irt f' p = some b → (if f' = f ∧ p = position then some block else s.irt f' p) = some b := by
    intro f' p b hb
    rw [if_neg, hb]
    intro ⟨hf, hp⟩
    have := hi.below f' p b hb
    rw [hf] at this
    omega
  have hmarked : Sorted ((e :: rest).map mark) := by
    rw [← sorted_binds, binds_mark]
    exact sorted_binds.mpr hes
  refine ⟨hmarked, (length_map _).trans_le hcap, ?_, ?_, sorted_binds.mpr hes, ?_, ?_, ?_, ?_⟩
  · intro x' hx' v hv
    obtain ⟨x, hx, rfl⟩ := mem_map.mp hx'
    exact hsizes x hx v hv
  · intro f' p b hb
    dsimp only at hb ⊢
    split at hb
    · rename_i heq
      rw [heq.1, heq.2, Function.update_self]
      exact Nat.lt_succ_self _
    · have := hi.below f' p b hb
      rcases eq_or_ne f' f with rfl | hf
      · rw [Function.update_self]
        omega
      · rwa [Function.update_of_ne hf]
  · intro x hx _ _
    rw [← binds_mark]
    exact lookup_binds hmarked hx
  · intro k v hk
    rw [← binds_mark] at hk
    exact kept_binds hk
  · intro h
    exact absurd h (Nat.pos_iff_ne_zero.mp h0)
  · intro _ _
    have hfile : currentPagingIndex { s.segment with
        entries := (e :: rest).map mark
        pagingIndexes := f :: if rebuild then [] else s.segment.pagingIndexes
        pagingPosition := position } = f := by
      cases rebuild with
      | true => exact Nat.max_zero f
      | false => exact Nat.max_eq_left (hcur rfl)
    rw [hfile]
    have hblock : (fun f' p => if f' = f ∧ p = position then some block else s.irt f' p) f position = some block :=
      if_pos ⟨rfl, rfl⟩
    -- a rebuild, the first block, or one that refers to the last one
    by_cases hback : block.pagingPosition = 0
    · refine ⟨(e.1, e.2.locality), binds l, [], .last hblock hholds hback, fun k => ?_, rfl⟩
      rw [← hall k]
      cases rebuild with
      | true => rfl
      | false =>
        rw [hi.unpaged (hposition.symm.trans hback)]
        rfl
    · cases rebuild with
      | true => exact absurd hposition hback
      | false =>
        have hback' : s.segment.pagingPosition ≠ 0 := fun h => hback (hposition.trans h)
        obtain ⟨first', l', ls, hchain, hlatest, -⟩ := hi.paged hback' hdel
        refine ⟨(e.1, e.2.locality), binds l, (first' :: l') :: ls, .back hblock hholds hback ?_, fun k => ?_, rfl⟩
        · rw [hindex, hposition]
          exact hchain.mono hmono
        · rw [← hall k, latest, hlatest k]
          rfl

/-- With nothing deleted, the first entry and what is not indexed say with the last cycle all there is. -/
theorem delta_all {e : K × Entry} (heq : s.segment.entries = e :: rest)
    (hes : ∀ x ∈ e :: rest, x.2.deleting = false) (k : K) :
    (lookup (binds (e :: unindexed rest)) k).or (lookup s.indexed k) = lookup (binds (e :: rest)) k := by
  have hsorted : Sorted (e :: rest) := heq ▸ hi.sorted
  have hsub : (e :: unindexed rest).Sublist (e :: rest) := filter_sublist.cons_cons e
  cases hd : lookup (binds (e :: unindexed rest)) k with
  | some v =>
    have hmem := (mem_iff_lookup ((sorted_binds.mpr hsorted).sublist (hsub.map _))).mpr hd
    exact ((mem_iff_lookup (sorted_binds.mpr hsorted)).mp ((hsub.map _).mem hmem)).symm
  | none =>
    show lookup s.indexed k = _
    cases ha : lookup (binds (e :: rest)) k with
    | none =>
      cases hx : lookup s.indexed k with
      | none => rfl
      | some v =>
        obtain ⟨y, hy, rfl⟩ := hi.kept k v hx
        rw [lookup_binds hsorted (heq ▸ hy)] at ha
        cases ha
    | some v =>
      obtain ⟨x, hx, hb⟩ := mem_map.mp ((mem_iff_lookup (sorted_binds.mpr hsorted)).mpr ha)
      cases hb
      have hindexed : x.2.indexed = true := by
        by_contra hne
        refine lookup_eq_none.mp hd _ (mem_map.mpr ⟨x, ?_, rfl⟩) rfl
        rcases mem_cons.mp hx with rfl | hx
        · exact mem_cons_self
        · exact mem_cons_of_mem _ (mem_filter.mpr ⟨hx, by simpa using hne⟩)
      exact hi.marked x (heq ▸ hx) hindexed (hes x hx)

theorem delta_none {e : K × Entry} (heq : s.segment.entries = e :: rest)
    (hes : ∀ x ∈ e :: rest, x.2.deleting = false) (hu : unindexed (e :: rest) = []) :
    (e :: rest).map mark = e :: rest ∧ binds (e :: rest) = s.indexed := by
  have hsorted : Sorted (binds (e :: rest)) := sorted_binds.mpr (heq ▸ hi.sorted)
  have hindexed : ∀ x ∈ e :: rest, x.2.indexed = true := by
    intro x hx
    simpa using filter_eq_nil_iff.mp hu x hx
  refine ⟨?_, eq_of_lookup hsorted hi.indexedSorted fun k => ?_⟩
  · have hmark : ∀ x ∈ e :: rest, mark x = id x := fun x hx => mark_of_indexed (hindexed x hx)
    rw [map_congr_left hmark, map_id]
  · cases hk : lookup (binds (e :: rest)) k with
    | none =>
      rw [← delta_all hi heq hes k, Option.or_eq_none_iff] at hk
      exact hk.2.symm
    | some v =>
      obtain ⟨x, hx, hb⟩ := mem_map.mp ((mem_iff_lookup hsorted).mpr hk)
      cases hb
      exact (hi.marked x (heq ▸ hx) (hindexed x hx) (hes x hx)).symm

theorem index_inv {f position refs : Nat} {rebuild : Bool} (hdel : s.segment.deleted = false)
    (hne : s.segment.entries ≠ []) (hend : s.length f ≤ position) (h0 : 0 < position) (hrefs : refs ≤ maximumRefs) :
    Inv valueSize (indexSegment valueSize s f position rebuild refs) := by
  obtain ⟨e, rest, heq⟩ := exists_cons_of_ne_nil hne
  have hsorted : Sorted (e :: rest) := heq ▸ hi.sorted
  have hcap : (e :: rest).length ≤ segmentMaximumSize := heq ▸ hi.capacity
  have hsizes : ∀ x ∈ e :: rest, ∀ v ∈ valueSize, x.2.locality.size = v := heq ▸ hi.sizes
  have hbinds (es : List (K × Entry)) : es.map (fun e => (e.1, e.2.locality)) = binds es := rfl
  unfold indexSegment
  simp only [heq]
  rcases writeKeyPaging_cases valueSize (rebuild || (decide (f ≠ currentPagingIndex s.segment) &&
      !validPagingRange s.segment f)) e rest with ⟨es, hb, hw⟩ | ⟨hreb, hes, hw⟩
  · rw [hw]
    simp only [hbinds, binds_mark]
    have hsub : (alive (e :: rest)).Sublist (e :: rest) := filter_sublist
    cases ha : alive es with
    | nil =>
      exact
        { hi with
          sorted := List.Pairwise.nil
          capacity := Nat.zero_le _
          sizes := fun x hx => absurd hx not_mem_nil
          indexedSorted := List.Pairwise.nil
          marked := fun x hx => absurd hx not_mem_nil
          kept := fun k v hk => by cases hk
          unpaged := fun _ => rfl
          paged := fun _ hd => by cases hd }
    | cons first l =>
      rw [ha] at hb
      rw [if_neg (fun h => nomatch h), if_neg (by simp; omega)]
      refine written_inv hi true first hend h0 hrefs hdel (sorted_binds.mp ?_) ?_ ?_ (List.Sublist.refl l) (by simp)
        (fun h => by cases h) (fun k => Option.or_none)
      · rw [hb]
        exact sorted_binds.mpr (List.Pairwise.sublist hsub hsorted)
      · have hlen := congrArg List.length hb
        simp only [binds, length_map] at hlen
        rw [hlen]
        exact Nat.le_trans hsub.length_le hcap
      · intro x hx v hv
        have hmem : (x.1, x.2.locality) ∈ binds (alive (e :: rest)) := hb ▸ mem_map.mpr ⟨x, hx, rfl⟩
        obtain ⟨y, hy, hyx⟩ := mem_map.mp hmem
        rw [← (Prod.mk.inj hyx).2]
        exact hsizes y (hsub.mem hy) v hv
  · rw [hw]
    simp only [hbinds, binds_mark]
    rw [if_neg (fun h => nomatch h)]
    have hall := delta_all hi heq hes
    by_cases hu : unindexed (e :: rest) = []
    · rw [if_pos (by rw [hu]; rfl)]
      obtain ⟨hmark, hsame⟩ := delta_none hi heq hes hu
      rw [hmark, hsame, ← heq]
      exact hi
    · rw [if_neg (by simpa using hu)]
      refine written_inv hi false e hend h0 hrefs hdel hsorted hcap hsizes filter_sublist ?_ ?_ hall
      · by_cases hx : e.2.indexed = true
        · simp [unindexed, hx]
          omega
        · simp [unindexed, hx]
      · intro _
        by_contra hlt
        have hlt : f < currentPagingIndex s.segment := Nat.lt_of_not_le hlt
        simp [validPagingRange, hlt, Nat.ne_of_lt hlt] at hreb

end Steps

variable {s : St K}

theorem step_inv {s' : St K} {e : Ev K} (h : step valueSize s e = some s')
    (hi : Inv valueSize s) : Inv valueSize s' := by
  unfold step at h
  cases e with
  | put key l =>
    obtain ⟨⟨-, hcap⟩, ⟨⟩⟩ := Option.ite_none_right_eq_some.mp h
    exact put_inv hi hcap
  | delete key =>
    obtain ⟨-, ⟨⟩⟩ := Option.ite_none_right_eq_some.mp h
    exact delete_inv hi key
  | index f position rebuild refs =>
    obtain ⟨⟨hdel, hne, hend, h0, hrefs⟩, ⟨⟩⟩ := Option.ite_none_right_eq_some.mp h
    exact index_inv hi hdel hne hend h0 hrefs

theorem inv (h : Reach (step valueSize) Free init s) : Inv valueSize s :=
  h.inv (P := Inv valueSize) (init_inv valueSize) fun hi _ hs => step_inv hs hi

/-! ## Reading a segment back -/

omit [LinearOrder K] in
theorem index_indexed (valueSize : Option Nat) (hne : s.segment.entries ≠ []) (f position : Nat)
    (rebuild : Bool) (refs : Nat) :
    (indexSegment valueSize s f position rebuild refs).indexed = binds (alive s.segment.entries)
      ∧ binds (indexSegment valueSize s f position rebuild refs).segment.entries = binds (alive s.segment.entries) := by
  obtain ⟨e, rest, heq⟩ := exists_cons_of_ne_nil hne
  have hwalked : binds (writeKeyPaging valueSize (rebuild || (decide (f ≠ currentPagingIndex s.segment) &&
      !validPagingRange s.segment f)) s.segment.entries).1.walked = binds (alive s.segment.entries) := by
    rw [heq]
    rcases writeKeyPaging_cases valueSize (rebuild || (decide (f ≠ currentPagingIndex s.segment) &&
        !validPagingRange s.segment f)) e rest with ⟨es, hb, hw⟩ | ⟨-, hes, hw⟩
    · rw [hw, ← hb]
      exact binds_mark _
    · have halive : alive (e :: rest) = e :: rest := filter_eq_self.mpr fun x hx => by simp [hes x hx]
      rw [hw, halive]
      exact binds_mark _
  unfold indexSegment
  dsimp only
  by_cases hnil : (writeKeyPaging valueSize (rebuild || (decide (f ≠ currentPagingIndex s.segment) &&
      !validPagingRange s.segment f)) s.segment.entries).1.walked = []
  · rw [if_pos hnil]
    rw [hnil] at hwalked
    exact ⟨hwalked, hwalked⟩
  · rw [if_neg hnil]
    split <;> exact ⟨hwalked, hwalked⟩

/-- Two deltas, a delete that makes the next cycle a rebuild, a delta in another file, and an update after it. -/
def cycles : List (Ev Nat) :=
  [.put 2 ⟨1, 10, 4, offsetNone⟩, .put 1 ⟨1, 20, 8, offsetNone⟩, .index 1 12 false 0, .put 3 ⟨1, 30, 5, offsetNone⟩,
   .index 1 99 false 1, .delete 3, .put 2 ⟨2, 40, 8, 3⟩, .index 2 12 false 0, .put 4 ⟨2, 50, 0, offsetNone⟩,
   .index 3 12 false 2, .put 1 ⟨3, 60, 7, offsetNone⟩]

end DeepFabric.Store.KeyPaging
