/-
  DeepFabric.Store.SummarySet — the active summaries and the files they refer to
  (core/RealTimeSummary.h: PagedSummary, PagedSummarySet).

  Four tables hold the same objects: the active ones by stream locality, the last one of each paging file, and for each
  stream file and each paging file a set of those that refer to it. The sets do not look at viewpoints. Objects are
  shared and change: adding a summary whose locality is active already gives the active object the new one's paging
  locality, and merges the references of the two, but only of an object that a set has found. Where no set has one, the
  new object goes in, which is not active; and the entry of the old paging file stays as it is.

  The objects are all there from the start, with whatever their makers put into them. Reference counts are left out.

  - `as_built_last_stays`: a summary is added again with its paging locality in another file, and removed: it is still
    the last summary of the first file.
-/
import Mathlib.Data.List.Pairwise
import DeepFabric.Lib.Run
import DeepFabric.Store.LocalityOrder

namespace DeepFabric.Store.SummarySet

open DeepFabric.Lib.Run List Function
open RecoveryBoundary
open Bool (eq_false_iff)
open Function (update)

/-- The two kinds of files a summary refers to. -/
inductive Kind where
  | stream
  | paging
  deriving DecidableEq, Repr

/-- PagedSummary. A set of indexes is a list in no order. A locality is in a file or LOCALITY_NONE; the constructor adds
    the locality's own file. -/
structure PagedSummary where
  streamLocality : Locality
  pagingLocality : Locality
  refs : Kind → List UInt16
  place : streamLocality.isNone = true → streamLocality = .none
  own : streamLocality.index ∈ refs .stream

/-- addStreamIndex, addPagingIndex. -/
def addIndex (refs : List UInt16) (index : UInt16) : List UInt16 := if index ∈ refs then refs else index :: refs

def addIndexes (refs indexes : List UInt16) : List UInt16 := indexes.foldl addIndex refs

theorem mem_addIndex {refs : List UInt16} {index i : UInt16} : i ∈ addIndex refs index ↔ i ∈ refs ∨ i = index := by
  unfold addIndex
  split
  · rename_i h
    constructor
    · exact .inl
    · rintro (h' | rfl)
      · exact h'
      · exact h
  · rw [mem_cons, or_comm]

theorem mem_addIndexes {refs indexes : List UInt16} {i : UInt16} : i ∈ addIndexes refs indexes ↔ i ∈ refs ∨ i ∈ indexes := by
  induction indexes generalizing refs with
  | nil => simp [addIndexes]
  | cons index indexes ih =>
    show i ∈ addIndexes (addIndex refs index) indexes ↔ _
    rw [ih, mem_addIndex, mem_cons, or_assoc]

def PagedSummary.setPagingLocality (x : PagedSummary) (locality : Locality) : PagedSummary :=
  { x with
    pagingLocality := locality
    refs := update x.refs .paging (addIndex (x.refs .paging) locality.index)
    own := by simpa using x.own }

/-- addPagingIndexes and addStreamIndexes of another summary's references. -/
def PagedSummary.merge (x other : PagedSummary) : PagedSummary :=
  { x with
    refs := fun k => addIndexes (x.refs k) (other.refs k)
    own := mem_addIndexes.mpr (.inl x.own) }

/-- PagedSummarySet, and the objects. -/
structure St where
  heap : Nat → PagedSummary
  active : List Nat
  last : UInt16 → Option Nat
  summaryRefs : Kind → UInt16 → List Nat
  /-- Those removed and not added since. -/
  removed : List Nat

def init (heap : Nat → PagedSummary) : St := ⟨heap, [], fun _ => none, fun _ _ => [], []⟩

/-! ## The operations -/

/-- The sets' comparator: the file list is null, so files are in the order of their indexes. -/
def same (s : St) (x y : Nat) : Bool :=
  compareNoViewpoint [] (s.heap x).streamLocality (s.heap y).streamLocality == 0

/-- The comparator of the active summaries. -/
def sameKey (s : St) (x y : Nat) : Bool :=
  compareLocality [] (s.heap x).streamLocality (s.heap y).streamLocality == 0

def setRefs (s : St) (k : Kind) (index : UInt16) (set : List Nat) : St :=
  { s with summaryRefs := update s.summaryRefs k (update (s.summaryRefs k) index set) }

def setSummary (s : St) (x : Nat) (summary : PagedSummary) : St := { s with heap := update s.heap x summary }

def setLast (s : St) (index : UInt16) (x : Option Nat) : St := { s with last := update s.last index x }

/-- One turn of addRefs. -/
def addRef (x : Nat) (k : Kind) (s : St) (index : UInt16) : St :=
  match (s.summaryRefs k index).find? (same s · x) with
  | some existing =>
    if existing = x then s else setSummary s existing ((s.heap existing).merge (s.heap x))
  | none => setRefs s k index (x :: s.summaryRefs k index)

def addRefs (x : Nat) (s : St) (k : Kind) : St := ((s.heap x).refs k).foldl (addRef x k) s

/-- addStreamRefs and addPagingRefs. -/
def addBoth (x : Nat) (s : St) : St := addRefs x (addRefs x s .stream) .paging

def removeRef (x : Nat) (k : Kind) (s : St) (index : UInt16) : St :=
  setRefs s k index ((s.summaryRefs k index).filter (!same s · x))

def removeRefs (x : Nat) (s : St) (k : Kind) : St := ((s.heap x).refs k).foldl (removeRef x k) s

/-- removeStreamRefs and removePagingRefs. -/
def removeBoth (x : Nat) (s : St) : St := removeRefs x (removeRefs x s .stream) .paging

def pagingIndex (s : St) (x : Nat) : UInt16 := (s.heap x).pagingLocality.index

/-- `existing->setPagingLocality(summary->getPagingLocality())` -/
def relocate (s : St) (existing x : Nat) : St :=
  setSummary s existing ((s.heap existing).setPagingLocality (s.heap x).pagingLocality)

def addSummary (s : St) (x : Nat) : St :=
  match s.active.find? (sameKey s · x) with
  | some existing =>
    let s2 := addBoth x (relocate s existing x)
    setLast { s2 with removed := s2.removed.filter (· ≠ x) } (pagingIndex s x) (some existing)
  | none =>
    let s2 := addBoth x (setLast s (pagingIndex s x) (some x))
    { s2 with active := x :: s2.active, removed := s2.removed.filter (· ≠ x) }

def removeSummary (s : St) (x : Nat) : St :=
  let s1 := if s.last (pagingIndex s x) = some x then setLast s (pagingIndex s x) none else s
  let s2 := removeBoth x s1
  { s2 with active := s2.active.filter (!sameKey s2 · x), removed := x :: s2.removed }

def clear (s : St) : St :=
  { s with active := [], last := fun _ => none, summaryRefs := fun _ _ => [], removed := s.active ++ s.removed }

inductive Ev where
  | add (x : Nat)
  | remove (x : Nat)
  | clear
  deriving Repr

def step (s : St) : Ev → Option St
  | .add x => some (addSummary s x)
  | .remove x => some (removeSummary s x)
  | .clear => some (clear s)

/-! ## Agreement -/

/-- summariesForStreamFile and summariesForPagingFile are the active summaries that refer to the file, the last
    summaries are active and in their own paging file, and nothing that was removed is in a table. -/
structure Consistent (s : St) : Prop where
  refs : ∀ k i y, y ∈ s.summaryRefs k i ↔ y ∈ s.active ∧ i ∈ (s.heap y).refs k
  last : ∀ i y, s.last i = some y → y ∈ s.active ∧ pagingIndex s y = i
  removed : ∀ y ∈ s.removed, y ∉ s.active ∧ (∀ i, s.last i ≠ some y) ∧ ∀ k i, y ∉ s.summaryRefs k i

/-- `x` can be added again where `e` is active: it refers to nothing that `e` does not, and `e` is not left behind as the
    last summary of another paging file. -/
structure Again (s : St) (e x : Nat) : Prop where
  key : sameKey s e x = true
  refs : ∀ k, ∀ i ∈ (s.heap x).refs k, i ∈ (s.heap e).refs k
  paging : pagingIndex s x ∈ (s.heap e).refs .paging
  last : pagingIndex s e = pagingIndex s x ∨ s.last (pagingIndex s e) ≠ some e

/-- `x` can be removed in the place of `e`: it refers to all that `e` does, and `e` is nobody's last summary. -/
structure Copy (s : St) (e x : Nat) : Prop where
  key : sameKey s e x = true
  refs : ∀ k, ∀ i ∈ (s.heap e).refs k, i ∈ (s.heap x).refs k
  last : ∀ i, s.last i ≠ some e

/-- What a call needs of the active summaries in the same place. -/
def Ok (s : St) : Ev → Prop
  | .add x => ∀ e ∈ s.active, same s e x = true → e = x ∨ Again s e x
  | .remove x => ∀ e ∈ s.active, same s e x = true → e = x ∨ Copy s e x
  | .clear => True

/-! ## As built -/

/-- A summary at 0/60, with its paging locality in a file. -/
def summaryIn (file : UInt16) : PagedSummary :=
  ⟨⟨0, 60, 0⟩, ⟨file, 60, 0⟩, fun | .stream => [0] | .paging => [file], nofun, by simp⟩

/-- Object 1 is in paging file 1, object 2 in paging file 2. -/
def twoFiles : Nat → PagedSummary := fun x => summaryIn (UInt16.ofNat x)

theorem as_built_last_stays : ¬∀ s, Reach step Free (init twoFiles) s → Consistent s := by
  intro h
  obtain ⟨s, hs, hremoved, hlast⟩ : ∃ s, exec step (init twoFiles) [.add 1, .add 2, .remove 1] = some s ∧
      1 ∈ s.removed ∧ s.last 1 = some 1 := exec_ends (by decide +kernel)
  exact ((h s (reach_of_exec _ hs)).removed 1 hremoved).2.1 1 hlast

/-! ## Places -/

section Places

variable {s s' : St} {x y z : Nat}

theorem compareNoViewpoint_place {a b : PagedSummary} : compareNoViewpoint [] a.streamLocality b.streamLocality = 0 ↔
    a.streamLocality.index = b.streamLocality.index ∧ a.streamLocality.length = b.streamLocality.length := by
  rw [compareNoViewpoint_eq]
  constructor
  · rintro (⟨ha, hb⟩ | h)
    · rw [a.place ha, b.place hb]
      exact ⟨rfl, rfl⟩
    · exact h
  · exact .inr

theorem same_iff : same s x y = true ↔ (s.heap x).streamLocality.index = (s.heap y).streamLocality.index ∧
    (s.heap x).streamLocality.length = (s.heap y).streamLocality.length := by
  rw [same, beq_iff_eq, compareNoViewpoint_place]

theorem same_refl (s : St) (x : Nat) : same s x x = true := same_iff.mpr ⟨rfl, rfl⟩

theorem same_symm (h : same s x y = true) : same s y x = true := by
  obtain ⟨hindex, hlength⟩ := same_iff.mp h
  exact same_iff.mpr ⟨hindex.symm, hlength.symm⟩

theorem same_trans (h : same s x y = true) (h' : same s y z = true) : same s x z = true := by
  obtain ⟨hindex, hlength⟩ := same_iff.mp h
  obtain ⟨hindex', hlength'⟩ := same_iff.mp h'
  exact same_iff.mpr ⟨hindex.trans hindex', hlength.trans hlength'⟩

theorem sameKey_refl (s : St) (x : Nat) : sameKey s x x = true := by
  have h : compareNoViewpoint [] (s.heap x).streamLocality (s.heap x).streamLocality = 0 :=
    compareNoViewpoint_place.mpr ⟨rfl, rfl⟩
  simp [sameKey, compareLocality, h, safeCompare]

theorem same_of_sameKey (h : sameKey s x y = true) : same s x y = true := by
  rw [sameKey, beq_iff_eq, compareLocality] at h
  rw [same, beq_iff_eq]
  by_contra hne
  rw [if_pos hne] at h
  exact hne h

/-- Objects keep their place. -/
def Placed (s s' : St) : Prop := ∀ y, (s'.heap y).streamLocality = (s.heap y).streamLocality

theorem Placed.same (h : Placed s s') (x y : Nat) : same s' x y = same s x y := by
  rw [SummarySet.same, h x, h y, SummarySet.same]

end Places

/-! ## Adding and removing references -/

section Refs

variable {s s' s1 : St} {x y z : Nat} {k : Kind} {i : UInt16} {l : List UInt16}

/-- No set has two in one place. -/
def Separate (s : St) : Prop := ∀ k i, (s.summaryRefs k i).Pairwise fun y z => same s y z = false

/-- Nothing in the set is in the place of `x`. -/
def Without (s : St) (x : Nat) (k : Kind) (i : UInt16) : Prop := ∀ z ∈ s.summaryRefs k i, same s z x = false

@[simp] theorem setRefs_at (s : St) (k k' : Kind) (i i' : UInt16) (set : List Nat) :
    (setRefs s k i set).summaryRefs k' i' = if k' = k ∧ i' = i then set else s.summaryRefs k' i' := by
  by_cases hk : k' = k
  · subst hk
    by_cases hi : i' = i
    · simp [setRefs, hi]
    · simp [setRefs, hi]
  · simp [setRefs, hk]

/-- What adding the references in `l` of `x` does. -/
structure Added (x : Nat) (k : Kind) (l : List UInt16) (s s' : St) : Prop where
  active : s'.active = s.active
  last : s'.last = s.last
  removed : s'.removed = s.removed
  place : Placed s s'
  paging : ∀ y, pagingIndex s' y = pagingIndex s y
  grown : ∀ y k' i, i ∈ (s.heap y).refs k' → i ∈ (s'.heap y).refs k'
  self : (s'.heap x).refs = (s.heap x).refs
  sets : ∀ k' i y, y ∈ s'.summaryRefs k' i ↔ y ∈ s.summaryRefs k' i ∨ k' = k ∧ y = x ∧ i ∈ l ∧ Without s x k i
  separate : Separate s → Separate s'

theorem Added.refl (s : St) (x : Nat) (k : Kind) : Added x k [] s s :=
  ⟨rfl, rfl, rfl, fun _ => rfl, fun _ => rfl, fun _ _ _ h => h, rfl, fun _ _ _ => by simp, id⟩

theorem addRef_added (s : St) (x : Nat) (k : Kind) (i : UInt16) : Added x k [i] s (addRef x k s i) := by
  unfold addRef
  split
  · rename_i e he
    have hmem := mem_of_find?_eq_some he
    have hsame : same s e x = true := by simpa using List.find?_some he
    have hwith : ¬Without s x k i := by
      intro h
      simpa [hsame] using h e hmem
    have hsets (k' : Kind) (i' : UInt16) (y : Nat) : y ∈ s.summaryRefs k' i' ↔
        y ∈ s.summaryRefs k' i' ∨ k' = k ∧ y = x ∧ i' ∈ [i] ∧ Without s x k i' := by
      constructor
      · exact .inl
      · rintro (h | ⟨-, -, hi, hw⟩)
        · exact h
        · rw [mem_singleton.mp hi] at hw
          exact absurd hw hwith
    by_cases hx : e = x
    · rw [if_pos hx]
      exact ⟨rfl, rfl, rfl, fun _ => rfl, fun _ => rfl, fun _ _ _ h => h, rfl, hsets, id⟩
    · rw [if_neg hx]
      have hplace : Placed s (setSummary s e ((s.heap e).merge (s.heap x))) := by
        intro y
        by_cases hy : y = e
        · subst hy
          simp [setSummary, PagedSummary.merge]
        · simp [setSummary, hy]
      refine ⟨rfl, rfl, rfl, hplace, ?_, ?_, ?_, hsets, ?_⟩
      · intro y
        by_cases hy : y = e
        · subst hy
          simp [pagingIndex, setSummary, PagedSummary.merge]
        · simp [pagingIndex, setSummary, hy]
      · intro y k' i' h
        by_cases hy : y = e
        · subst hy
          simp [setSummary, PagedSummary.merge, mem_addIndexes, h]
        · simpa [setSummary, hy] using h
      · simp [setSummary, Ne.symm hx]
      · intro hsep k' i'
        exact (hsep k' i').imp fun h => by rw [hplace.same]; exact h
  · rename_i hnone
    have hwithout : Without s x k i := by
      intro z hz
      simpa using List.find?_eq_none.mp hnone z hz
    refine ⟨rfl, rfl, rfl, fun _ => rfl, fun _ => rfl, fun _ _ _ h => h, rfl, ?_, ?_⟩
    · intro k' i' y
      rw [setRefs_at]
      by_cases h : k' = k ∧ i' = i
      · obtain ⟨rfl, rfl⟩ := h
        simp [hwithout, or_comm]
      · rw [if_neg h]
        constructor
        · exact .inl
        · rintro (hy | ⟨hk, -, hi, -⟩)
          · exact hy
          · exact absurd ⟨hk, mem_singleton.mp hi⟩ h
    · intro hsep k' i'
      rw [setRefs_at]
      split
      · rename_i h
        obtain ⟨rfl, rfl⟩ := h
        refine pairwise_cons.mpr ⟨?_, hsep k' i'⟩
        intro z hz
        rw [eq_false_iff]
        intro h
        have hzx : same s z x = true := same_symm h
        simp [hwithout z hz] at hzx
      · exact hsep k' i'

theorem Added.trans (h : Added x k [i] s s1) (h' : Added x k l s1 s') : Added x k (i :: l) s s' := by
  refine ⟨h'.active.trans h.active, h'.last.trans h.last, h'.removed.trans h.removed, fun y => (h'.place y).trans (h.place y),
    fun y => (h'.paging y).trans (h.paging y), fun y k' j hj => h'.grown y k' j (h.grown y k' j hj), h'.self.trans h.self, ?_,
    fun hs => h'.separate (h.separate hs)⟩
  intro k' j y
  rw [h'.sets, h.sets]
  -- a set that was not to be extended by the first turn is the same afterwards
  have hwithout : Without s1 x k j ↔ Without s x k j ∧ j ≠ i := by
    constructor
    · intro hw
      have hw0 : Without s x k j := by
        intro z hz
        rw [← h.place.same]
        exact hw z ((h.sets k j z).mpr (.inl hz))
      refine ⟨hw0, ?_⟩
      rintro rfl
      have hx := hw x ((h.sets k j x).mpr (.inr ⟨rfl, rfl, mem_singleton.mpr rfl, hw0⟩))
      simp [same_refl] at hx
    · rintro ⟨hw, hne⟩ z hz
      rw [h.place.same]
      rcases (h.sets k j z).mp hz with hz | ⟨-, -, hj, -⟩
      · exact hw z hz
      · exact absurd (mem_singleton.mp hj) hne
  rw [hwithout, mem_singleton, mem_cons]
  by_cases hj : j = i
  · simp [hj]
  · simp [hj]

theorem addRefs_spec (s : St) (x : Nat) (k : Kind) : Added x k ((s.heap x).refs k) s (addRefs x s k) := by
  have hfold (l : List UInt16) : ∀ s, Added x k l s (l.foldl (addRef x k) s) := by
    induction l with
    | nil => exact fun s => Added.refl s x k
    | cons i l ih => exact fun s => (addRef_added s x k i).trans (ih _)
  exact hfold _ s

/-- Where everything found is `x`, or has the references of `x`, no object changes. -/
theorem addRefs_heap (h : ∀ i ∈ (s.heap x).refs k, ∀ e ∈ s.summaryRefs k i, same s e x = true →
    e = x ∨ (s.heap e).merge (s.heap x) = s.heap e) : (addRefs x s k).heap = s.heap := by
  have hfold (l : List UInt16) : ∀ s, (∀ i ∈ l, ∀ e ∈ s.summaryRefs k i, same s e x = true →
      e = x ∨ (s.heap e).merge (s.heap x) = s.heap e) → (l.foldl (addRef x k) s).heap = s.heap := by
    induction l with
    | nil => exact fun _ _ => rfl
    | cons i l ih =>
      intro s h
      have hturn : (addRef x k s i).heap = s.heap := by
        unfold addRef
        split
        · rename_i e he
          have hsame : same s e x = true := by simpa using List.find?_some he
          rcases h i mem_cons_self e (mem_of_find?_eq_some he) hsame with hx | hmerge
          · rw [if_pos hx]
          · split
            · rfl
            · simp [setSummary, hmerge]
        · rfl
      rw [foldl_cons, ih (addRef x k s i), hturn]
      intro j hj e he hsame
      rw [hturn]
      rcases ((addRef_added s x k i).sets k j e).mp he with he | ⟨-, rfl, -, -⟩
      · rw [(addRef_added s x k i).place.same] at hsame
        exact h j (mem_cons_of_mem _ hj) e he hsame
      · exact .inl rfl
  exact hfold _ s h

theorem removeRefs_spec (s : St) (x : Nat) (k : Kind) : (removeRefs x s k).heap = s.heap ∧
    (removeRefs x s k).active = s.active ∧ (removeRefs x s k).last = s.last ∧ (removeRefs x s k).removed = s.removed ∧
    (∀ k' i y, y ∈ (removeRefs x s k).summaryRefs k' i ↔
      y ∈ s.summaryRefs k' i ∧ ¬(k' = k ∧ i ∈ (s.heap x).refs k ∧ same s y x = true)) ∧
    (Separate s → Separate (removeRefs x s k)) := by
  have hfold (l : List UInt16) : ∀ s, (l.foldl (removeRef x k) s).heap = s.heap ∧
      (l.foldl (removeRef x k) s).active = s.active ∧ (l.foldl (removeRef x k) s).last = s.last ∧
      (l.foldl (removeRef x k) s).removed = s.removed ∧
      (∀ k' i y, y ∈ (l.foldl (removeRef x k) s).summaryRefs k' i ↔
        y ∈ s.summaryRefs k' i ∧ ¬(k' = k ∧ i ∈ l ∧ same s y x = true)) ∧
      (Separate s → Separate (l.foldl (removeRef x k) s)) := by
    induction l with
    | nil => exact fun s => ⟨rfl, rfl, rfl, rfl, fun _ _ _ => by simp, id⟩
    | cons j l ih =>
      intro s
      obtain ⟨hheap, hactive, hlast, hremoved, hsets, hseparate⟩ := ih (removeRef x k s j)
      refine ⟨hheap, hactive, hlast, hremoved, ?_, ?_⟩
      · intro k' i y
        rw [foldl_cons, hsets, removeRef, setRefs_at]
        have hsame : same (setRefs s k j ((s.summaryRefs k j).filter (!same s · x))) y x = same s y x := rfl
        rw [hsame]
        by_cases h : k' = k ∧ i = j
        · obtain ⟨rfl, rfl⟩ := h
          simp
          tauto
        · rw [if_neg h, mem_cons]
          tauto
      · intro hsep
        refine hseparate fun k' i => ?_
        rw [removeRef, setRefs_at]
        split
        · rename_i h
          obtain ⟨rfl, rfl⟩ := h
          exact (hsep k' i).filter _
        · exact hsep k' i
  exact hfold _ s

/-- What adding the references to both kinds of files does. -/
structure AddedBoth (x : Nat) (s s' : St) : Prop where
  active : s'.active = s.active
  last : s'.last = s.last
  removed : s'.removed = s.removed
  place : Placed s s'
  paging : ∀ y, pagingIndex s' y = pagingIndex s y
  grown : ∀ y k i, i ∈ (s.heap y).refs k → i ∈ (s'.heap y).refs k
  sets : ∀ k i y, y ∈ s'.summaryRefs k i ↔ y ∈ s.summaryRefs k i ∨ y = x ∧ i ∈ (s.heap x).refs k ∧ Without s x k i
  separate : Separate s → Separate s'

theorem addBoth_spec (s : St) (x : Nat) : AddedBoth x s (addBoth x s) := by
  have h := addRefs_spec s x .stream
  have h' := addRefs_spec (addRefs x s .stream) x .paging
  refine ⟨h'.active.trans h.active, h'.last.trans h.last, h'.removed.trans h.removed, fun y => (h'.place y).trans (h.place y),
    fun y => (h'.paging y).trans (h.paging y), fun y k i hi => h'.grown y k i (h.grown y k i hi), ?_,
    fun hs => h'.separate (h.separate hs)⟩
  intro k i y
  have hwithout : Without (addRefs x s .stream) x .paging i ↔ Without s x .paging i := by
    simp [Without, h.sets, h.place.same]
  rw [addBoth, h'.sets, h.sets, h.self, hwithout]
  cases k <;> simp

/-- Where everything found is `x`, or has the references of `x`, no object changes. -/
theorem addBoth_heap (h : ∀ k, ∀ i ∈ (s.heap x).refs k, ∀ e ∈ s.summaryRefs k i, same s e x = true →
    e = x ∨ (s.heap e).merge (s.heap x) = s.heap e) : (addBoth x s).heap = s.heap := by
  have hstream : (addRefs x s .stream).heap = s.heap := addRefs_heap (h .stream)
  have hspec := addRefs_spec s x .stream
  rw [addBoth, addRefs_heap, hstream]
  intro i hi e he hsame
  rw [hstream] at hi ⊢
  rw [hspec.place.same] at hsame
  refine h .paging i hi e ?_ hsame
  simpa using (hspec.sets .paging i e).mp he

end Refs

/-! ## One call -/

section Call

variable {s s' : St} {x y z e : Nat} {k : Kind} {i : UInt16}

structure Inv (s : St) : Prop extends Consistent s where
  separate : Separate s

/-- Two active summaries are not in one place: both would be in the set of that file. -/
theorem Inv.unique (h : Inv s) (hy : y ∈ s.active) (hz : z ∈ s.active) (hsame : same s y z = true) : y = z := by
  have hymem := (h.refs .stream _ y).mpr ⟨hy, (s.heap y).own⟩
  have hzmem := (h.refs .stream _ z).mpr ⟨hz, (s.heap z).own⟩
  rw [← (same_iff.mp hsame).1] at hzmem
  by_contra hne
  have hsym : Std.Symm fun a b => same s a b = false := by
    refine ⟨fun a b hab => ?_⟩
    rw [eq_false_iff] at hab ⊢
    exact fun h => hab (same_symm h)
  have := (h.separate .stream _).forall hymem hzmem hne
  simp [hsame] at this

theorem consistent_of (hrefs : ∀ k i y, y ∈ s.summaryRefs k i ↔ y ∈ s.active ∧ i ∈ (s.heap y).refs k)
    (hlast : ∀ i y, s.last i = some y → y ∈ s.active ∧ pagingIndex s y = i) (hremoved : ∀ y ∈ s.removed, y ∉ s.active) :
    Consistent s where
  refs := hrefs
  last := hlast
  removed := fun y hy => ⟨hremoved y hy, fun i h => hremoved y hy (hlast i y h).1, fun k i h => hremoved y hy ((hrefs k i y).mp h).1⟩

theorem init_inv (heap : Nat → PagedSummary) : Inv (init heap) where
  refs := by simp [init]
  last := by simp [init]
  removed := by simp [init]
  separate := fun _ _ => .nil

theorem clear_inv (s : St) : Inv (clear s) where
  refs := by simp [clear]
  last := by simp [clear]
  removed := by simp [clear]
  separate := fun _ _ => .nil

theorem addIndex_of_mem {refs : List UInt16} (h : i ∈ refs) : addIndex refs i = refs := if_pos h

theorem addIndexes_of_subset {refs indexes : List UInt16} (h : ∀ i ∈ indexes, i ∈ refs) : addIndexes refs indexes = refs := by
  induction indexes with
  | nil => rfl
  | cons i indexes ih =>
    show addIndexes (addIndex refs i) indexes = refs
    rw [addIndex_of_mem (h i mem_cons_self), ih (forall_mem_cons.mp h).2]

/-- A summary whose references are all there already merges to nothing new. -/
theorem merge_of_subset {a b : PagedSummary} (h : ∀ k, ∀ i ∈ b.refs k, i ∈ a.refs k) : a.merge b = a := by
  have hrefs : (fun k => addIndexes (a.refs k) (b.refs k)) = a.refs := funext fun k => addIndexes_of_subset (h k)
  cases a
  simp only [PagedSummary.merge, PagedSummary.mk.injEq, true_and]
  exact hrefs

/-! ### A summary of a place that is not active -/

theorem addSummary_new (h : ∀ e ∈ s.active, sameKey s e x = false) : addSummary s x =
    let s2 := addBoth x (setLast s (pagingIndex s x) (some x))
    { s2 with active := x :: s2.active, removed := s2.removed.filter (· ≠ x) } := by
  have hnone : s.active.find? (sameKey s · x) = none := by
    apply List.find?_eq_none.mpr
    intro e he
    simp [h e he]
  unfold addSummary
  rw [hnone]

theorem new_inv (hi : Inv s) (h : ∀ e ∈ s.active, sameKey s e x = false) (hok : Ok s (.add x)) : Inv (addSummary s x) := by
  -- nothing in any set is in this place
  have hfree : ∀ e ∈ s.active, same s e x = false := by
    intro e he
    rw [eq_false_iff]
    intro hsame
    have hkey := h e he
    rcases hok e he hsame with rfl | hagain
    · rw [sameKey_refl] at hkey
      cases hkey
    · rw [hagain.key] at hkey
      cases hkey
  have hwithout (k : Kind) (i : UInt16) : Without s x k i := fun z hz => hfree z ((hi.refs k i z).mp hz).1
  have hspec := addBoth_spec (setLast s (pagingIndex s x) (some x)) x
  have hheap : (addBoth x (setLast s (pagingIndex s x) (some x))).heap = s.heap := by
    apply addBoth_heap
    intro k i _ e he hsame
    exact absurd hsame (eq_false_iff.mp (hwithout k i e he))
  rw [addSummary_new h]
  generalize addBoth x (setLast s (pagingIndex s x) (some x)) = s2 at hspec hheap
  obtain ⟨hactive, hlast, hremoved, -, -, -, hsets, hseparate⟩ := hspec
  have hsets' (k : Kind) (i : UInt16) (y : Nat) :
      y ∈ s2.summaryRefs k i ↔ y ∈ s.summaryRefs k i ∨ y = x ∧ i ∈ (s.heap x).refs k := by
    rw [hsets]
    refine or_congr Iff.rfl (and_congr Iff.rfl ?_)
    exact and_iff_left (hwithout k i)
  refine ⟨consistent_of ?_ ?_ ?_, hseparate hi.separate⟩
  · intro k i y
    show y ∈ s2.summaryRefs k i ↔ y ∈ x :: s2.active ∧ i ∈ (s2.heap y).refs k
    rw [hsets', hi.refs, hheap, hactive, mem_cons]
    constructor
    · rintro (⟨hy, hr⟩ | ⟨rfl, hr⟩)
      · exact ⟨.inr hy, hr⟩
      · exact ⟨.inl rfl, hr⟩
    · rintro ⟨rfl | hy, hr⟩
      · exact .inr ⟨rfl, hr⟩
      · exact .inl ⟨hy, hr⟩
  · intro i y hy
    show y ∈ x :: s2.active ∧ (s2.heap y).pagingLocality.index = i
    rw [hheap, hactive]
    have hy' : (update s.last (pagingIndex s x) (some x)) i = some y := by
      rw [← hy]
      exact (congrFun hlast i).symm
    by_cases he : i = pagingIndex s x
    · subst he
      rw [update_self] at hy'
      cases hy'
      exact ⟨mem_cons_self, rfl⟩
    · rw [update_of_ne he] at hy'
      exact ⟨mem_cons_of_mem _ (hi.last i y hy').1, (hi.last i y hy').2⟩
  · intro y hy
    show y ∉ x :: s2.active
    have hy' : y ∈ s2.removed.filter (· ≠ x) := hy
    rw [hremoved] at hy'
    obtain ⟨hr, hne⟩ := mem_filter.mp hy'
    rw [hactive, mem_cons]
    rintro (rfl | ha)
    · simp at hne
    · exact (hi.removed y hr).1 ha

theorem ok_of_new (hi : Inv s) (h : ∀ e ∈ s.active, sameKey s e x = false) (hc : Consistent (addSummary s x)) :
    Ok s (.add x) := by
  intro e he hsame
  -- the set of the place's own file keeps `x` out
  exfalso
  have hspec := addBoth_spec (setLast s (pagingIndex s x) (some x)) x
  have hrefs := hc.refs .stream (s.heap x).streamLocality.index x
  rw [addSummary_new h] at hrefs
  have hx := hrefs.mpr ⟨mem_cons_self, hspec.grown x .stream _ (s.heap x).own⟩
  rcases (hspec.sets .stream _ x).mp hx with hx | ⟨-, -, hwithout⟩
  · have hxa := ((hi.refs .stream _ x).mp hx).1
    have hkey := h x hxa
    rw [sameKey_refl] at hkey
    cases hkey
  · have hmem := (hi.refs .stream _ e).mpr ⟨he, (s.heap e).own⟩
    rw [(same_iff.mp hsame).1] at hmem
    have hno : same s e x = false := hwithout e hmem
    rw [hsame] at hno
    cases hno

/-! ### A summary of a place that is active -/

theorem addSummary_again (hi : Inv s) (he : e ∈ s.active) (hkey : sameKey s e x = true) : addSummary s x =
    let s2 := addBoth x (relocate s e x)
    setLast { s2 with removed := s2.removed.filter (· ≠ x) } (pagingIndex s x) (some e) := by
  have hsome : s.active.find? (sameKey s · x) = some e := by
    cases hf : s.active.find? (sameKey s · x) with
    | none =>
      have := List.find?_eq_none.mp hf e he
      simp [hkey] at this
    | some e' =>
      have hkey' : sameKey s e' x = true := by simpa using List.find?_some hf
      rw [hi.unique (mem_of_find?_eq_some hf) he (same_trans (same_of_sameKey hkey') (same_symm (same_of_sameKey hkey)))]
  unfold addSummary
  rw [hsome]

theorem relocate_placed (s : St) (e x : Nat) : Placed s (relocate s e x) := by
  intro y
  by_cases hy : y = e
  · subst hy
    simp [relocate, setSummary, PagedSummary.setPagingLocality]
  · simp [relocate, setSummary, hy]

theorem relocate_other (hne : y ≠ e) : (relocate s e x).heap y = s.heap y := by
  simp [relocate, setSummary, hne]

theorem relocate_paging (s : St) (e x : Nat) : pagingIndex (relocate s e x) e = pagingIndex s x := by
  simp [pagingIndex, relocate, setSummary, PagedSummary.setPagingLocality]

theorem relocate_grown (s : St) (e x : Nat) (h : i ∈ (s.heap y).refs k) : i ∈ ((relocate s e x).heap y).refs k := by
  by_cases hy : y = e
  · subst hy
    cases k with
    | stream => simpa [relocate, setSummary, PagedSummary.setPagingLocality] using h
    | paging => simp [relocate, setSummary, PagedSummary.setPagingLocality, mem_addIndex, h]
  · rw [relocate_other hy]
    exact h

/-- Where the objects are as the active one's new paging locality leaves them, and the sets say so, the tables agree. -/
theorem again_inv (hi : Inv s) (he : e ∈ s.active) (hkey : sameKey s e x = true)
    (hlast : pagingIndex s e = pagingIndex s x ∨ s.last (pagingIndex s e) ≠ some e)
    (hheap : (addBoth x (relocate s e x)).heap = (relocate s e x).heap)
    (hsets : ∀ k i y, y ∈ (addBoth x (relocate s e x)).summaryRefs k i ↔
      y ∈ s.active ∧ i ∈ ((relocate s e x).heap y).refs k) : Inv (addSummary s x) := by
  have hspec := addBoth_spec (relocate s e x) x
  have hpaging := relocate_paging s e x
  have hother (y : Nat) (hy : y ≠ e) : (relocate s e x).heap y = s.heap y := relocate_other hy
  have hseparate : Separate (relocate s e x) := by
    intro k i
    exact (hi.separate k i).imp fun h => by rw [(relocate_placed s e x).same]; exact h
  rw [addSummary_again hi he hkey]
  generalize addBoth x (relocate s e x) = s2 at hspec hheap hsets
  have hactive : s2.active = s.active := hspec.active
  have hprev : s2.last = s.last := hspec.last
  have hremoved : s2.removed = s.removed := hspec.removed
  refine ⟨consistent_of ?_ ?_ ?_, hspec.separate hseparate⟩
  · intro k i y
    show y ∈ s2.summaryRefs k i ↔ y ∈ s2.active ∧ i ∈ (s2.heap y).refs k
    rw [hsets, hactive, hheap]
  · intro i y hy
    show y ∈ s2.active ∧ (s2.heap y).pagingLocality.index = i
    rw [hheap, hactive]
    have hy' : (update s2.last (pagingIndex s x) (some e)) i = some y := hy
    rw [hprev] at hy'
    by_cases hx : i = pagingIndex s x
    · subst hx
      rw [update_self] at hy'
      cases hy'
      exact ⟨he, hpaging⟩
    · rw [update_of_ne hx] at hy'
      obtain ⟨hya, hyp⟩ := hi.last i y hy'
      have hne : y ≠ e := by
        rintro rfl
        rw [hyp] at hlast
        exact hlast.elim hx fun h => h hy'
      rw [hother y hne]
      exact ⟨hya, hyp⟩
  · intro y hy
    show y ∉ s2.active
    have hy' : y ∈ s2.removed.filter (· ≠ x) := hy
    rw [hremoved] at hy'
    rw [hactive]
    exact (hi.removed y (mem_filter.mp hy').1).1

/-- The active summary itself can always be added again. -/
theorem self_inv (hi : Inv s) (hx : x ∈ s.active) : Inv (addSummary s x) := by
  have hspec := addBoth_spec (relocate s x x) x
  have hfound (k : Kind) (i : UInt16) (e : Nat) (he : e ∈ s.summaryRefs k i) (hsame : same s e x = true) : e = x :=
    hi.unique ((hi.refs k i e).mp he).1 hx hsame
  have hheap : (addBoth x (relocate s x x)).heap = (relocate s x x).heap := by
    apply addBoth_heap
    intro k i _ e he hsame
    rw [(relocate_placed s x x).same] at hsame
    exact .inl (hfound k i e he hsame)
  refine again_inv hi hx (sameKey_refl s x) (.inl rfl) hheap ?_
  intro k i y
  rw [hspec.sets]
  show y ∈ s.summaryRefs k i ∨ _ ↔ _
  by_cases hy : y = x
  · subst hy
    constructor
    · rintro (h | ⟨-, h, -⟩)
      · exact ⟨hx, relocate_grown s y y ((hi.refs k i y).mp h).2⟩
      · exact ⟨hx, h⟩
    · rintro ⟨-, h⟩
      by_cases hmem : y ∈ s.summaryRefs k i
      · exact .inl hmem
      · refine .inr ⟨rfl, h, fun z hz => ?_⟩
        rw [(relocate_placed s y y).same, eq_false_iff]
        intro hsame
        rw [hfound k i z hz hsame] at hz
        exact hmem hz
  · rw [hi.refs, relocate_other hy]
    simp [hy]

theorem setPagingLocality_refs {a : PagedSummary} {l : Locality} (h : l.index ∈ a.refs .paging) :
    (a.setPagingLocality l).refs = a.refs := by
  show update a.refs .paging (addIndex (a.refs .paging) l.index) = a.refs
  rw [addIndex_of_mem h, update_eq_self]

theorem other_inv (hi : Inv s) (he : e ∈ s.active) (hne : e ≠ x) (ha : Again s e x) : Inv (addSummary s x) := by
  have hspec := addBoth_spec (relocate s e x) x
  have hsame := same_of_sameKey ha.key
  have hx : (relocate s e x).heap x = s.heap x := relocate_other (Ne.symm hne)
  have hrefs : ∀ y, ((relocate s e x).heap y).refs = (s.heap y).refs := by
    intro y
    by_cases hy : y = e
    · subst hy
      show (update s.heap y _ y).refs = _
      rw [update_self]
      exact setPagingLocality_refs ha.paging
    · rw [relocate_other hy]
  have hheap : (addBoth x (relocate s e x)).heap = (relocate s e x).heap := by
    apply addBoth_heap
    intro k i _ z hz hzx
    rw [(relocate_placed s e x).same] at hzx
    have hze : z = e := hi.unique ((hi.refs k i z).mp hz).1 he (same_trans hzx (same_symm hsame))
    subst hze
    refine .inr (merge_of_subset ?_)
    intro k' j hj
    rw [hrefs]
    rw [hx] at hj
    exact ha.refs k' j hj
  refine again_inv hi he ha.key ha.last hheap ?_
  intro k i y
  rw [hspec.sets, hrefs x, hrefs y, ← hi.refs]
  constructor
  · rintro (h | ⟨-, hr, hwithout⟩)
    · exact h
    · -- the active one is in this set
      have hno := hwithout e ((hi.refs k i e).mpr ⟨he, ha.refs k i hr⟩)
      rw [(relocate_placed s e x).same, hsame] at hno
      cases hno
  · exact .inl

theorem ok_of_again (hi : Inv s) (he : e ∈ s.active) (hkey : sameKey s e x = true) (hc : Consistent (addSummary s x)) :
    e = x ∨ Again s e x := by
  by_cases hne : e = x
  · exact .inl hne
  have hspec := addBoth_spec (relocate s e x) x
  have hsame := same_of_sameKey hkey
  have hxe : (relocate s e x).heap x = s.heap x := relocate_other (Ne.symm hne)
  have hx : x ∉ s.active := fun hx => hne (hi.unique he hx hsame)
  have hpaging : pagingIndex (addSummary s x) e = pagingIndex s x := by
    rw [addSummary_again hi he hkey]
    exact (hspec.paging e).trans (relocate_paging s e x)
  have hrefs := hc.refs
  have hlast := hc.last
  rw [addSummary_again hi he hkey] at hrefs hlast
  refine .inr ⟨hkey, ?_, ?_, ?_⟩
  · -- something in the place of `x` is in the set; it is not `x`
    intro k i hxi
    by_contra hei
    have hwithout : Without (relocate s e x) x k i := by
      intro z hz
      rw [(relocate_placed s e x).same, eq_false_iff]
      intro hzx
      have hz' := (hi.refs k i z).mp hz
      rw [hi.unique hz'.1 he (same_trans hzx (same_symm hsame))] at hz'
      exact hei hz'.2
    have hmem : x ∈ (addBoth x (relocate s e x)).summaryRefs k i := by
      refine (hspec.sets k i x).mpr (.inr ⟨rfl, ?_, hwithout⟩)
      rw [hxe]
      exact hxi
    have hxa : x ∈ (addBoth x (relocate s e x)).active := ((hrefs k i x).mp hmem).1
    rw [hspec.active] at hxa
    exact hx hxa
  · -- the active one refers to its new paging file
    have hown : pagingIndex s x ∈ ((addBoth x (relocate s e x)).heap e).refs .paging := by
      apply hspec.grown
      simp [relocate, setSummary, PagedSummary.setPagingLocality, mem_addIndex, pagingIndex]
    have hea : e ∈ (addBoth x (relocate s e x)).active := by
      rw [hspec.active]
      exact he
    rcases (hspec.sets _ _ e).mp ((hrefs .paging _ e).mpr ⟨hea, hown⟩) with h | ⟨h, -⟩
    · exact ((hi.refs .paging _ e).mp h).2
    · exact absurd h hne
  · by_cases hp : pagingIndex s e = pagingIndex s x
    · exact .inl hp
    · refine .inr fun hle => hp ?_
      have hkeep : (addBoth x (relocate s e x)).last (pagingIndex s e) = some e := by
        rw [hspec.last]
        exact hle
      have h := hlast (pagingIndex s e) e ((update_of_ne hp _ _).trans hkeep)
      rw [← addSummary_again hi he hkey, hpaging] at h
      exact h.2.symm

/-- A call of addSummary keeps the agreement exactly if it meets the condition. -/
theorem add_iff (hi : Inv s) (x : Nat) : (Ok s (.add x) → Inv (addSummary s x)) ∧ (Consistent (addSummary s x) → Ok s (.add x)) := by
  by_cases h : ∃ e ∈ s.active, sameKey s e x = true
  · obtain ⟨e, he, hkey⟩ := h
    constructor
    · intro hok
      by_cases hx : x ∈ s.active
      · exact self_inv hi hx
      · rcases hok e he (same_of_sameKey hkey) with rfl | ha
        · exact absurd he hx
        · exact other_inv hi he (fun hex => hx (hex ▸ he)) ha
    · intro hc e' he' hsame
      rw [hi.unique he' he (same_trans hsame (same_symm (same_of_sameKey hkey)))]
      exact ok_of_again hi he hkey hc
  · have hnew : ∀ e ∈ s.active, sameKey s e x = false := by
      intro e he
      rw [eq_false_iff]
      exact fun hkey => h ⟨e, he, hkey⟩
    exact ⟨new_inv hi hnew, ok_of_new hi hnew⟩

/-! ### Removal -/

theorem removeBoth_spec (s : St) (x : Nat) : (removeBoth x s).heap = s.heap ∧ (removeBoth x s).active = s.active ∧
    (removeBoth x s).last = s.last ∧ (removeBoth x s).removed = s.removed ∧
    (∀ k i y, y ∈ (removeBoth x s).summaryRefs k i ↔ y ∈ s.summaryRefs k i ∧ ¬(i ∈ (s.heap x).refs k ∧ same s y x = true)) ∧
    (Separate s → Separate (removeBoth x s)) := by
  obtain ⟨hheap, hactive, hlast, hremoved, hsets, hseparate⟩ := removeRefs_spec s x .stream
  obtain ⟨hheap', hactive', hlast', hremoved', hsets', hseparate'⟩ := removeRefs_spec (removeRefs x s .stream) x .paging
  refine ⟨hheap'.trans hheap, hactive'.trans hactive, hlast'.trans hlast, hremoved'.trans hremoved, ?_, fun h => hseparate' (hseparate h)⟩
  intro k i y
  have hsame : same (removeRefs x s .stream) y x = same s y x := by simp only [same, hheap]
  rw [removeBoth, hsets', hsets, hheap, hsame]
  cases k <;> simp

/-- What a removal leaves. -/
structure Left (s s' : St) (x : Nat) : Prop where
  heap : s'.heap = s.heap
  active : ∀ y, y ∈ s'.active ↔ y ∈ s.active ∧ sameKey s y x = false
  last : ∀ i y, s'.last i = some y ↔ s.last i = some y ∧ ¬(i = pagingIndex s x ∧ y = x)
  removed : s'.removed = x :: s.removed
  sets : ∀ k i y, y ∈ s'.summaryRefs k i ↔ y ∈ s.summaryRefs k i ∧ ¬(i ∈ (s.heap x).refs k ∧ same s y x = true)
  separate : Separate s → Separate s'

/-- The entry of its paging file, if it is there. -/
def dropLast (s : St) (x : Nat) : St :=
  if s.last (pagingIndex s x) = some x then setLast s (pagingIndex s x) none else s

theorem dropLast_last (s : St) (x : Nat) (i : UInt16) (y : Nat) :
    (dropLast s x).last i = some y ↔ s.last i = some y ∧ ¬(i = pagingIndex s x ∧ y = x) := by
  unfold dropLast
  by_cases hx : s.last (pagingIndex s x) = some x
  · rw [if_pos hx]
    by_cases he : i = pagingIndex s x
    · subst he
      simp only [setLast, update_self, hx, Option.some.injEq]
      constructor
      · intro h
        cases h
      · rintro ⟨rfl, h⟩
        exact absurd ⟨trivial, rfl⟩ h
    · simp [setLast, he]
  · rw [if_neg hx]
    constructor
    · intro h
      refine ⟨h, ?_⟩
      rintro ⟨rfl, rfl⟩
      exact hx h
    · exact And.left

theorem dropLast_frame (s : St) (x : Nat) : (dropLast s x).heap = s.heap ∧ (dropLast s x).active = s.active ∧
    (dropLast s x).removed = s.removed ∧ (dropLast s x).summaryRefs = s.summaryRefs := by
  unfold dropLast
  split <;> exact ⟨rfl, rfl, rfl, rfl⟩

theorem removeSummary_left (s : St) (x : Nat) : Left s (removeSummary s x) x := by
  obtain ⟨hheap, hactive, hremoved, hsets⟩ := dropLast_frame s x
  have hspec := removeBoth_spec (dropLast s x) x
  have hlast := dropLast_last s x
  have hdef : removeSummary s x =
      let s2 := removeBoth x (dropLast s x)
      { s2 with active := s2.active.filter (!sameKey s2 · x), removed := x :: s2.removed } := rfl
  rw [hdef]
  generalize dropLast s x = s1 at hspec hlast hheap hactive hremoved hsets
  obtain ⟨hheap', hactive', hlast', hremoved', hsets', hseparate'⟩ := hspec
  generalize removeBoth x s1 = s2 at hheap' hactive' hlast' hremoved' hsets' hseparate'
  have hkey (y : Nat) : sameKey s2 y x = sameKey s y x := by simp only [sameKey, hheap', hheap]
  have hsame (y : Nat) : same s1 y x = same s y x := by simp only [same, hheap]
  refine ⟨hheap'.trans hheap, ?_, ?_, ?_, ?_, ?_⟩
  · intro y
    simp only [mem_filter, hkey, hactive', hactive]
    simp
  · intro i y
    show s2.last i = some y ↔ _
    rw [hlast']
    exact hlast i y
  · show x :: s2.removed = x :: s.removed
    rw [hremoved', hremoved]
  · intro k i y
    show y ∈ s2.summaryRefs k i ↔ _
    rw [hsets', hheap, hsame, hsets]
  · intro hsep
    refine hseparate' fun k i => ?_
    rw [hsets]
    exact (hsep k i).imp fun h => by simpa only [same, hheap] using h

theorem remove_inv (hi : Inv s) (hl : Left s s' x) (hok : Ok s (.remove x)) : Inv s' := by
  have hpaging (y : Nat) : pagingIndex s' y = pagingIndex s y := by simp only [pagingIndex, hl.heap]
  refine ⟨consistent_of ?_ ?_ ?_, hl.separate hi.separate⟩
  · intro k i y
    rw [hl.sets, hl.active, hl.heap, hi.refs]
    constructor
    · rintro ⟨⟨hy, hr⟩, hno⟩
      refine ⟨⟨hy, ?_⟩, hr⟩
      rw [eq_false_iff]
      intro hkey
      apply hno
      rcases hok y hy (same_of_sameKey hkey) with rfl | hcopy
      · exact ⟨hr, same_refl s y⟩
      · exact ⟨hcopy.refs k i hr, same_of_sameKey hkey⟩
    · rintro ⟨⟨hy, hkey⟩, hr⟩
      refine ⟨⟨hy, hr⟩, ?_⟩
      rintro ⟨-, hsame⟩
      rcases hok y hy hsame with rfl | hcopy
      · rw [sameKey_refl] at hkey
        cases hkey
      · rw [hcopy.key] at hkey
        cases hkey
  · intro i y hy
    obtain ⟨hy, hno⟩ := (hl.last i y).mp hy
    obtain ⟨ha, hp⟩ := hi.last i y hy
    rw [hl.active, hpaging]
    refine ⟨⟨ha, ?_⟩, hp⟩
    rw [eq_false_iff]
    intro hkey
    rcases hok y ha (same_of_sameKey hkey) with rfl | hcopy
    · exact hno ⟨hp.symm, rfl⟩
    · exact hcopy.last i hy
  · intro y hy
    rw [hl.active]
    rintro ⟨ha, hkey⟩
    rw [hl.removed] at hy
    rcases mem_cons.mp hy with rfl | hy
    · rw [sameKey_refl] at hkey
      cases hkey
    · exact (hi.removed y hy).1 ha

theorem ok_of_removed (hi : Inv s) (hl : Left s s' x) (hc : Consistent s') : Ok s (.remove x) := by
  intro e he hsame
  by_cases hne : e = x
  · exact .inl hne
  -- the set of its own file loses it, so it is not active any more
  have hown : (s.heap e).streamLocality.index ∈ (s.heap x).refs .stream := by
    rw [(same_iff.mp hsame).1]
    exact (s.heap x).own
  have hgone : e ∉ s'.active := by
    intro hea
    have hmem := (hc.refs .stream _ e).mpr ⟨hea, (s'.heap e).own⟩
    rw [hl.heap] at hmem
    exact ((hl.sets .stream _ e).mp hmem).2 ⟨hown, hsame⟩
  refine .inr ⟨?_, ?_, ?_⟩
  · by_contra hkey
    exact hgone ((hl.active e).mpr ⟨he, eq_false_iff.mpr hkey⟩)
  · intro k i hr
    by_contra hxi
    have hmem := (hl.sets k i e).mpr ⟨(hi.refs k i e).mpr ⟨he, hr⟩, fun h => hxi h.1⟩
    exact hgone ((hc.refs k i e).mp hmem).1
  · intro i hle
    have hkeep := (hl.last i e).mpr ⟨hle, fun h => hne h.2⟩
    exact hgone (hc.last i e hkeep).1

end Call

/-! ## Runs -/

theorem step_inv {s : St} {ev : Ev} (hi : Inv s) (hok : Ok s ev) : ∃ s', step s ev = some s' ∧ Inv s' := by
  cases ev with
  | add x => exact ⟨_, rfl, (add_iff hi x).1 hok⟩
  | remove x => exact ⟨_, rfl, remove_inv hi (removeSummary_left s x) hok⟩
  | clear => exact ⟨_, rfl, clear_inv s⟩

theorem ok_of_step {s s' : St} {ev : Ev} (hi : Inv s) (hs : step s ev = some s') (hc : Consistent s') : Ok s ev := by
  cases ev with
  | add x =>
    cases hs
    exact (add_iff hi x).2 hc
  | remove x =>
    cases hs
    exact ok_of_removed hi (removeSummary_left s x) hc
  | clear => trivial

/-- At every moment of a run the tables agree, exactly if every call meets the condition. -/
theorem consistent_iff (heap : Nat → PagedSummary) (calls : List Ev) :
    (∀ l, l <+: calls → ∃ s, exec step (init heap) l = some s ∧ Consistent s) ↔ Meets step Ok (init heap) calls :=
  @meets_iff _ _ _ _ Unit (fun _ _ => ()) (fun s _ => Inv s) (fun s _ => Consistent s) (fun hi => hi.toConsistent)
    (fun hi hok => step_inv hi hok) (fun hi hs hc => ok_of_step hi hs hc) (init heap) () (init_inv heap) calls

end DeepFabric.Store.SummarySet
