/-
  DeepFabric.Store.Segmentation — how the keys of a map are spread over its segments
  (core/RealTimeMap.cxx: getSegment, initSegment, addInformation, updateInformation, splitSegment,
  mergeSegments, deleteInformation, reseedSegment, deleteSegment, failedSegment, pageSegment;
  core/RealTimeAdaptive.h: physicalMaximum, virtualMaximum, byteMaximum, mergeFragmentation), on
  segments that are loaded.

  The branch tree files each segment under its first key. A key goes to the segment filed under the
  greatest key that is not above it. A key below all others opens a segment of its own, which may
  take in the one behind it. A segment that has reached one of its maxima is split in the middle,
  unless the key is at its end or behind it; behind it the key opens a segment. A removed first key
  is replaced in the branch tree, and a segment that lost its last key leaves it. The index cycle
  merges neighbours and splits what has grown too large.

  A split or a merge makes new entries for the keys it moves and hands them the versions and the
  lock of the old ones. A put on a key that is there also exchanges the key objects, in the branch
  tree too; they compare equal, and a key is all there is of them here.

  What the sizes compare to (`Env`), whether a segment is rolling or referenced and the other
  conditions of a merge come from outside.

  - `step_inv` / `inv`: the segments are a partition (`Partitioned`) of the keys that are bound.
-/
import Mathlib.Algebra.Group.Nat.Defs
import DeepFabric.Lib.Partition
import DeepFabric.Lib.Run
import DeepFabric.Lib.SortedMap

namespace DeepFabric.Store.Segmentation

open DeepFabric.Lib DeepFabric.Lib.Partition DeepFabric.Lib.Run List Option Function
open SortedMap (insertEntry insertEntry_mid)

/-- A storyline: the oldest version, and the lock, none before somebody needed it. -/
structure StoryLine where
  orginfo : Option Nat
  lock : Option Nat
  deriving DecidableEq, Repr

variable {K : Type} [LinearOrder K]

structure Env where
  segmentSize : Nat
  virtualSize : Nat
  /-- getValueSize or getValueAverage. -/
  rowSize : Int
  virtual : Bool
  vsize : Nat
  rolling : Bool
  /-- waitForReferences. -/
  unreferenced : Bool
  /-- The conditions of mergeFragmentation that are not on sizes. -/
  mergeable : Bool

/-! ## Sizes -/

def segmentByteSize : Int := 26214400

/-- What is left of a product in an inttype. -/
def int32 (x : Int) : Int := Int.bmod x (2 ^ 32)

/-- getSegmentSize, with its hard floor. -/
def getSegmentSize (env : Env) : Nat := max env.segmentSize 150

def virtualMaximum (env : Env) : Bool := env.vsize ≥ env.virtualSize

def physicalMaximum (env : Env) (size multiplier : Nat) : Bool := size ≥ getSegmentSize env * multiplier

def physicalMinimum (env : Env) : Bool := env.vsize < getSegmentSize env / 3

def byteMinimum (env : Env) (size : Nat) : Bool := int32 (size * env.rowSize) < segmentByteSize / 3

def byteMaximum (env : Env) (size : Nat) : Bool :=
  int32 ((if env.virtual then env.vsize else size) * env.rowSize) ≥ segmentByteSize

/-- The row size is one, the rest is about the two segments. -/
def mergeFragmentation (env nenv : Env) (size nsize : Nat) : Bool :=
  !byteMaximum env size && !byteMaximum nenv nsize && byteMinimum env size && byteMinimum nenv nsize
    && !virtualMaximum env && !virtualMaximum nenv && physicalMinimum env && physicalMinimum nenv && env.mergeable

/-- What addInformation splits at. -/
def exceeds (env : Env) (size : Nat) : Bool :=
  if env.virtual && virtualMaximum env then true
  else if !env.virtual && physicalMaximum env size 1 then true
  else byteMaximum env size

/-! ## Segments and the branch tree -/

/-- TreeMap::remove. -/
def remove {V : Type} (t : List (K × V)) (key : K) : List (K × V) := t.filter fun e => e.1 ≠ key

/-- The segment filed under a key has other entries. -/
def setSegment (branch : List (K × List (K × StoryLine))) (b : K) (entries : List (K × StoryLine)) :
    List (K × List (K × StoryLine)) :=
  branch.map fun s => if s.1 = b then (b, entries) else s

def lockOf (t : List (K × StoryLine)) (key : K) : Option Nat := (getEntry t key).bind (·.2.lock)

/-- updateInformation and initStoryLock: an entry that is there stays, and keeps the lock it has. -/
def updateInformation (branch : List (K × List (K × StoryLine))) (segment : K × List (K × StoryLine)) (key : K) (info fresh : Nat) :
    List (K × List (K × StoryLine)) :=
  setSegment branch segment.1
    (insertEntry key ⟨some info, (lockOf segment.2 key).or (some fresh)⟩ segment.2)

/-- The two halves, and the first key of the second one. -/
def splitSegment (t : List (K × StoryLine)) : Option (List (K × StoryLine) × K × List (K × StoryLine)) :=
  let middle := (t.length + 1) / 2
  match t.drop middle with
  | [] => none
  | p :: rest => some (t.take middle, p.1, p :: rest)

/-- Every entry of the second segment is added at the end of the first one. -/
def mergeSegments (t n : List (K × StoryLine)) : List (K × StoryLine) := n.foldl (fun t e => t ++ [e]) t

/-- A segment for a key below all others. -/
def initSegment (branch : List (K × List (K × StoryLine))) (key : K) (env nenv : Env) : List (K × List (K × StoryLine)) :=
  let segment := [(key, ⟨none, none⟩)]
  match higherEntry branch key with
  | none => insertEntry key segment branch
  | some n =>
    match n.2.head? with
    | some first =>
      if mergeFragmentation env nenv segment.length n.2.length then
        insertEntry key (mergeSegments segment n.2) (remove branch first.1)
      else insertEntry key segment branch
    | none => insertEntry key segment branch

/-- The branch tree, with a segment that is made if there is none. -/
def getSegment (branch : List (K × List (K × StoryLine))) (key : K) (env nenv : Env) : List (K × List (K × StoryLine)) :=
  if (floorEntry branch key).isSome then branch else initSegment branch key env nenv

def addInformation (branch : List (K × List (K × StoryLine))) (segment : K × List (K × StoryLine)) (key : K) (info fresh : Nat)
    (env : Env) : Option (List (K × List (K × StoryLine))) :=
  if exceeds env segment.2.length && !env.rolling then
    match segment.2.getLast? with
    | none => none
    | some last =>
      if last.1 < key then
        some (updateInformation (insertEntry key [] branch) (key, []) key info fresh)
      else if key < last.1 && (getEntry segment.2 key).isNone && env.unreferenced then
        match splitSegment segment.2 with
        | none => none
        | some (entries, firstKey, pentries) =>
          let branch := insertEntry firstKey pentries (setSegment branch segment.1 entries)
          if firstKey < key then some (updateInformation branch (firstKey, pentries) key info fresh)
          else some (updateInformation branch (segment.1, entries) key info fresh)
      else some (updateInformation branch segment key info fresh)
  else some (updateInformation branch segment key info fresh)

/-- With reseedSegment and deleteSegment. -/
def deleteInformation (branch : List (K × List (K × StoryLine))) (segment : K × List (K × StoryLine)) (key : K) :
    Option (List (K × List (K × StoryLine))) :=
  let firstKey := segment.2.head?.map (·.1)
  let retkey := (getEntry segment.2 key).map (·.1)
  let entries := remove segment.2 key
  match entries.head?, retkey with
  | some first, some retkey =>
    if some retkey = firstKey then some (insertEntry first.1 entries (remove branch retkey))
    else some (setSegment branch segment.1 entries)
  | some _, none => some (setSegment branch segment.1 entries)
  | none, some retkey => some (remove branch retkey)
  | none, none => none

/-- An insert that failed takes its key back, if getSegment has put it there. -/
def failedSegment (branch : List (K × List (K × StoryLine))) (segment : K × List (K × StoryLine)) (key : K) :
    Option (List (K × List (K × StoryLine))) :=
  if ((getEntry segment.2 key).bind (·.2.orginfo)).isNone then deleteInformation branch segment key else some branch

/-- pageSegment: the segment filed under a key takes in the next one. -/
def pageSegment (branch : List (K × List (K × StoryLine))) (b : K) (env nenv : Env) : List (K × List (K × StoryLine)) :=
  match getEntry branch b with
  | none => branch
  | some segment =>
    match segment.2.head?.bind fun first => higherEntry branch first.1 with
    | none => branch
    | some n =>
      if mergeFragmentation env nenv segment.2.length n.2.length then
        match n.2.head? with
        | some first => remove (setSegment branch b (mergeSegments segment.2 n.2)) first.1
        | none => branch
      else branch

/-- The split of the index cycle. -/
def indexSplit (branch : List (K × List (K × StoryLine))) (b : K) (env : Env) : Option (List (K × List (K × StoryLine))) :=
  match getEntry branch b with
  | none => some branch
  | some segment =>
    if !env.virtual && !env.rolling && physicalMaximum env segment.2.length 5 && env.unreferenced then
      (splitSegment segment.2).map fun p => insertEntry p.2.1 p.2.2 (setSegment branch b p.1)
    else some branch

/-! ## Runs -/

structure St (K : Type) where
  branch : List (K × List (K × StoryLine))
  /-- The next lock. -/
  fresh : Nat
  /-- What the inserts have bound and the removals not taken away. -/
  bound : K → Option StoryLine

def init : St K := ⟨[], 0, fun _ => none⟩

inductive Ev (K : Type) where
  | insert (key : K) (info : Nat) (env nenv : Env)
  | fail (key : K) (env nenv : Env)
  | remove (key : K)
  | page (b : K) (env nenv : Env)
  | split (b : K) (env : Env)

/-- A removal is of a key that was looked up. -/
def step (s : St K) : Ev K → Option (St K)
  | .insert key info env nenv =>
    let branch := getSegment s.branch key env nenv
    (floorEntry branch key).bind fun segment =>
      (addInformation branch segment key info s.fresh env).map fun branch =>
        { branch := branch
          fresh := s.fresh + 1
          bound := Function.update s.bound key (some ⟨some info, ((s.bound key).bind (·.lock)).or (some s.fresh)⟩) }
  | .fail key env nenv =>
    let branch := getSegment s.branch key env nenv
    (floorEntry branch key).bind fun segment =>
      (failedSegment branch segment key).map fun branch => { s with branch := branch }
  | .remove key =>
    match floorEntry s.branch key with
    | none => some s
    | some segment =>
      if (getEntry segment.2 key).isSome then
        (deleteInformation s.branch segment key).map fun branch =>
          { s with
            branch := branch
            bound := Function.update s.bound key none }
      else some s
  | .page b env nenv => some { s with branch := pageSegment s.branch b env nenv }
  | .split b env => (indexSplit s.branch b env).map fun branch => { s with branch := branch }

/-! ## The branch tree at a segment -/

section Branch
variable {pre post : List (K × List (K × StoryLine))} {s : K × List (K × StoryLine)} (h : Partitioned (pre ++ s :: post))
include h

theorem keys_below {u : K × List (K × StoryLine)} (hu : u ∈ pre) : u.1 < s.1 :=
  (pairwise_append.mp h.keys_ascending).2.2 u hu s mem_cons_self

theorem keys_above {u : K × List (K × StoryLine)} (hu : u ∈ post) : s.1 < u.1 :=
  (pairwise_cons.mp (pairwise_append.mp h.keys_ascending).2.1).1 u hu

theorem entries_below {e : K × StoryLine} (he : e ∈ flat pre) : e.1 < s.1 := by
  obtain ⟨v, hv⟩ := h.key_mem (mem_append_right _ mem_cons_self)
  exact h.across (b := (s.1, v)) he (by rw [flat_cons]; exact mem_append_left _ hv)

theorem setSegment_mid (entries : List (K × StoryLine)) :
    setSegment (pre ++ s :: post) s.1 entries = pre ++ (s.1, entries) :: post := by
  have hpre : pre.map (fun u => if u.1 = s.1 then (s.1, entries) else u) = pre := by
    refine (map_congr_left fun u hu => if_neg (ne_of_lt (keys_below h hu))).trans (map_id _)
  have hpost : post.map (fun u => if u.1 = s.1 then (s.1, entries) else u) = post := by
    refine (map_congr_left fun u hu => if_neg (ne_of_gt (keys_above h hu))).trans (map_id _)
  unfold setSegment
  rw [map_append, map_cons, if_pos rfl, hpre, hpost]

theorem remove_mid : remove (pre ++ s :: post) s.1 = pre ++ post := by
  have hpre : pre.filter (fun u => u.1 ≠ s.1) = pre :=
    filter_eq_self.mpr fun u hu => by simpa using ne_of_lt (keys_below h hu)
  have hpost : post.filter (fun u => u.1 ≠ s.1) = post :=
    filter_eq_self.mpr fun u hu => by simpa using ne_of_gt (keys_above h hu)
  rw [remove, filter_append, filter_cons_of_neg (by simp), hpre, hpost]

theorem segment_ascending : Ascending s.2 := h.within (mem_append_right _ mem_cons_self)

/-- The segment is exchanged for others whose keys are not below its own, nor above those behind it. -/
theorem exchange {mid : List (K × List (K × StoryLine))} (hmid : Partitioned mid) (hle : ∀ e ∈ flat mid, s.1 ≤ e.1)
    (hlt : ∀ e ∈ flat mid, ∀ x ∈ flat post, e.1 < x.1) : Partitioned (pre ++ mid ++ post) := by
  have h' : Partitioned (pre ++ [s] ++ post) := by
    rw [append_assoc]
    exact h
  refine h'.exchange hmid (fun e he x hx => ?_) hlt
  exact lt_of_lt_of_le (entries_below h hx) (hle e he)

variable {key : K} (hs : s.1 ≤ key) (hpost : ∀ e ∈ flat post, key < e.1)
include hs hpost

theorem put_spec (v : StoryLine) : Partitioned (pre ++ (s.1, insertEntry key v s.2) :: post)
    ∧ ∀ e, e ∈ flat (pre ++ (s.1, insertEntry key v s.2) :: post) ↔
        e = (key, v) ∨ e ∈ flat (pre ++ s :: post) ∧ e.1 ≠ key := by
  have hsorted := segment_ascending h
  have hmem := fun e => SortedMap.mem_of_insertEntry (k := key) (v := v) hsorted (e := e)
  obtain ⟨w, hw⟩ := h.filed s (mem_append_right _ mem_cons_self)
  obtain ⟨rest, hrest⟩ := List.head?_eq_some_iff.mp hw
  have hhead : ∃ w', (insertEntry key v s.2).head? = some (s.1, w') := by
    rw [hrest, insertEntry, if_neg (not_lt.mpr hs)]
    by_cases hk : s.1 < key
    · exact ⟨w, by rw [if_pos hk]; rfl⟩
    · exact ⟨v, by rw [if_neg hk, le_antisymm hs (not_lt.mp hk)]; rfl⟩
  have hmid : Partitioned [(s.1, insertEntry key v s.2)] :=
    { filed := fun u hu => by rw [mem_singleton.mp hu]; exact hhead
      ascending := by simpa [Partition.Ascending] using SortedMap.insertEntry_sorted key v hsorted }
  constructor
  · have := exchange h hmid (fun e he => ?_) fun e he x hx => ?_
    · simpa using this
    · rcases (hmem e).mp (by simpa using he) with rfl | ⟨he, -⟩
      · exact hs
      · exact h.key_le (mem_append_right _ mem_cons_self) he
    · rcases (hmem e).mp (by simpa using he) with rfl | ⟨he, -⟩
      · exact hpost x hx
      · exact Partitioned.across (t := [s]) h.right (by simpa using he) hx
  · intro e
    have hpre' : ∀ e ∈ flat pre, e.1 ≠ key := fun e he => ne_of_lt (lt_of_lt_of_le (entries_below h he) hs)
    have hpost' : ∀ e ∈ flat post, e.1 ≠ key := fun e he => ne_of_gt (hpost e he)
    simp only [flat_append, flat_cons, mem_append, hmem]
    constructor
    · rintro (he | (he | he) | he)
      · exact Or.inr ⟨Or.inl he, hpre' e he⟩
      · exact Or.inl he
      · exact Or.inr ⟨Or.inr (Or.inl he.1), he.2⟩
      · exact Or.inr ⟨Or.inr (Or.inr he), hpost' e he⟩
    · rintro (he | ⟨he | he | he, hne⟩)
      · exact Or.inr (Or.inl (Or.inl he))
      · exact Or.inl he
      · exact Or.inr (Or.inl (Or.inr ⟨he, hne⟩))
      · exact Or.inr (Or.inr he)

theorem update_spec (info fresh : Nat) :
    Partitioned (updateInformation (pre ++ s :: post) s key info fresh)
    ∧ ∀ e, e ∈ flat (updateInformation (pre ++ s :: post) s key info fresh) ↔
        e = (key, ⟨some info, (lockOf (flat (pre ++ s :: post)) key).or (some fresh)⟩)
        ∨ e ∈ flat (pre ++ s :: post) ∧ e.1 ≠ key := by
  unfold updateInformation
  rw [setSegment_mid h, lockOf, lockOf, h.getEntry_mid hs hpost]
  exact put_spec h hs hpost _

theorem append_spec (hlast : ∀ e ∈ s.2, e.1 < key) (info fresh : Nat) :
    Partitioned (updateInformation (insertEntry key [] (pre ++ s :: post)) (key, []) key info fresh)
    ∧ ∀ e, e ∈ flat (updateInformation (insertEntry key [] (pre ++ s :: post)) (key, []) key info fresh) ↔
        e = (key, ⟨some info, (lockOf (flat (pre ++ s :: post)) key).or (some fresh)⟩)
        ∨ e ∈ flat (pre ++ s :: post) ∧ e.1 ≠ key := by
  have hne : ∀ e ∈ flat (pre ++ s :: post), e.1 ≠ key := by
    intro e he
    simp only [flat_append, flat_cons, mem_append] at he
    rcases he with he | he | he
    · exact ne_of_lt (lt_of_lt_of_le (entries_below h he) hs)
    · exact ne_of_lt (hlast e he)
    · exact ne_of_gt (hpost e he)
  obtain ⟨v, hv⟩ := h.key_mem (mem_append_right _ mem_cons_self)
  have hskey : s.1 < key := hlast _ hv
  have hkeys : ∀ u ∈ post, key < u.1 := by
    intro u hu
    obtain ⟨w, hw⟩ := (Partitioned.right (t := [s]) h.right).key_mem hu
    exact hpost (u.1, w) (mem_flat.mpr ⟨u, hu, hw⟩)
  have hplace : insertEntry key [] (pre ++ s :: post) = pre ++ s :: (key, []) :: post := by
    have hbelow : ∀ u ∈ pre ++ [s], u.1 < key := by
      intro u hu
      rcases mem_append.mp hu with hu | hu
      · exact lt_trans (keys_below h hu) hskey
      · rw [mem_singleton.mp hu]
        exact hskey
    simpa using insertEntry_mid (v := []) hbelow hkeys
  have hset : ∀ entries, setSegment (pre ++ s :: (key, []) :: post) key entries = pre ++ s :: (key, entries) :: post := by
    intro entries
    have hpre' : pre.map (fun u => if u.1 = key then (key, entries) else u) = pre := by
      refine (map_congr_left fun u hu => if_neg ?_).trans (map_id _)
      exact ne_of_lt (lt_trans (keys_below h hu) hskey)
    have hpost' : post.map (fun u => if u.1 = key then (key, entries) else u) = post := by
      refine (map_congr_left fun u hu => if_neg ?_).trans (map_id _)
      exact ne_of_gt (hkeys u hu)
    unfold setSegment
    rw [map_append, map_cons, map_cons, if_neg (ne_of_lt hskey), if_pos rfl, hpre', hpost']
  have hlock : lockOf (flat (pre ++ s :: post)) key = none := by
    rw [lockOf, getEntry_none hne]
    rfl
  have hmid : Partitioned [s, (key, [(key, ⟨some info, some fresh⟩)])] :=
    { filed := by
        intro u hu
        rcases mem_cons.mp hu with rfl | hu
        · exact h.filed u (mem_append_right _ mem_cons_self)
        · rw [mem_singleton.mp hu]
          exact ⟨_, rfl⟩
      ascending := by
        simp only [flat_cons, flat_nil, append_nil]
        refine pairwise_append.mpr ⟨segment_ascending h, pairwise_singleton _ _, fun e he x hx => ?_⟩
        rw [mem_singleton.mp hx]
        exact hlast e he }
  unfold updateInformation
  rw [hplace, hset, hlock]
  constructor
  · have := exchange h hmid (fun e he => ?_) fun e he x hx => ?_
    · simpa [insertEntry, lockOf, getEntry] using this
    · simp only [flat_cons, flat_nil, append_nil, mem_append, mem_singleton] at he
      rcases he with he | rfl
      · exact h.key_le (mem_append_right _ mem_cons_self) he
      · exact hs
    · simp only [flat_cons, flat_nil, append_nil, mem_append, mem_singleton] at he
      rcases he with he | rfl
      · exact Partitioned.across (t := [s]) h.right (by simpa using he) hx
      · exact hpost x hx
  · intro e
    have hiff : e ∈ flat (pre ++ s :: post) ∧ e.1 ≠ key ↔ e ∈ flat (pre ++ s :: post) :=
      ⟨fun he => he.1, fun he => ⟨he, hne e he⟩⟩
    rw [hiff]
    simp only [flat_append, flat_cons, mem_append, insertEntry, mem_singleton, lockOf, getEntry,
      List.find?_nil, bind_none, none_or]
    tauto

end Branch

/-! ## Splits and merges -/

omit [LinearOrder K] in
theorem splitSegment_spec {t : List (K × StoryLine)} (ht : 2 ≤ t.length) :
    ∃ a v rest, splitSegment t = some (a, v.1, v :: rest) ∧ t = a ++ v :: rest ∧ a ≠ [] := by
  have hlt : (t.length + 1) / 2 < t.length := by omega
  have hdrop := drop_eq_getElem_cons hlt
  refine ⟨t.take ((t.length + 1) / 2), t[(t.length + 1) / 2], t.drop ((t.length + 1) / 2 + 1), ?_, ?_, ?_⟩
  · simp only [splitSegment, hdrop]
  · rw [← hdrop, take_append_drop]
  · intro hnil
    have := congrArg List.length hnil
    rw [length_take, length_nil] at this
    omega

omit [LinearOrder K] in
theorem mergeSegments_eq (t n : List (K × StoryLine)) : mergeSegments t n = t ++ n := by
  unfold mergeSegments
  induction n generalizing t with
  | nil => simp
  | cons e n ih => rw [foldl_cons, ih]; simp

section Halves
variable {pre post : List (K × List (K × StoryLine))} {s : K × List (K × StoryLine)} (h : Partitioned (pre ++ s :: post))
include h

theorem half_spec {a rest : List (K × StoryLine)} {v : K × StoryLine} (hs : s.2 = a ++ v :: rest) (ha : a ≠ []) :
    insertEntry v.1 (v :: rest) (setSegment (pre ++ s :: post) s.1 a) = pre ++ (s.1, a) :: (v.1, v :: rest) :: post
    ∧ Partitioned (pre ++ (s.1, a) :: (v.1, v :: rest) :: post)
    ∧ flat (pre ++ (s.1, a) :: (v.1, v :: rest) :: post) = flat (pre ++ s :: post) := by
  have hflat : flat (pre ++ (s.1, a) :: (v.1, v :: rest) :: post) = flat (pre ++ s :: post) := by
    simp [hs]
  obtain ⟨w, hw⟩ := h.filed s (mem_append_right _ mem_cons_self)
  have hhead : a.head? = some (s.1, w) := by
    cases a with
    | nil => exact absurd rfl ha
    | cons e a => simpa [hs] using hw
  have hsorted := segment_ascending h
  rw [hs] at hsorted
  have hsv : s.1 < v.1 := (pairwise_append.mp hsorted).2.2 (s.1, w) (mem_of_head? hhead) v mem_cons_self
  refine ⟨?_, ⟨?_, ?_⟩, hflat⟩
  · rw [setSegment_mid h]
    have hbelow : ∀ u ∈ pre ++ [(s.1, a)], u.1 < v.1 := by
      intro u hu
      rcases mem_append.mp hu with hu | hu
      · exact lt_trans (keys_below h hu) hsv
      · rw [mem_singleton.mp hu]
        exact hsv
    have := insertEntry_mid (v := v :: rest) hbelow (fun u hu => ?_ : ∀ u ∈ post, v.1 < u.1)
    · simpa using this
    · obtain ⟨x, hx⟩ := (Partitioned.right (t := [s]) h.right).key_mem hu
      exact Partitioned.across (t := [s]) (b := (u.1, x)) h.right (by simp [hs]) (mem_flat.mpr ⟨u, hu, hx⟩)
  · intro u hu
    rcases mem_append.mp hu with hu | hu
    · exact h.filed u (mem_append_left _ hu)
    · rcases mem_cons.mp hu with rfl | hu
      · exact ⟨w, hhead⟩
      · rcases mem_cons.mp hu with rfl | hu
        · exact ⟨v.2, rfl⟩
        · exact h.filed u (mem_append_right _ (mem_cons_of_mem _ hu))
  · rw [hflat]
    exact h.ascending

theorem merge_spec {n : K × List (K × StoryLine)} {rest : List (K × List (K × StoryLine))} (hpost : post = n :: rest) :
    remove (setSegment (pre ++ s :: post) s.1 (mergeSegments s.2 n.2)) n.1 = pre ++ (s.1, s.2 ++ n.2) :: rest
    ∧ Partitioned (pre ++ (s.1, s.2 ++ n.2) :: rest) ∧ flat (pre ++ (s.1, s.2 ++ n.2) :: rest) = flat (pre ++ s :: post) := by
  subst hpost
  have hflat : flat (pre ++ (s.1, s.2 ++ n.2) :: rest) = flat (pre ++ s :: n :: rest) := by simp
  obtain ⟨w, hw⟩ := h.filed s (mem_append_right _ mem_cons_self)
  have hn : Partitioned ((pre ++ [s]) ++ n :: rest) := by simpa using h
  refine ⟨?_, ⟨?_, ?_⟩, hflat⟩
  · have hpre : ∀ u ∈ pre ++ [(s.1, s.2 ++ n.2)], u.1 ≠ n.1 := by
      intro u hu
      rcases mem_append.mp hu with hu | hu
      · exact ne_of_lt (keys_below hn (mem_append_left _ hu))
      · rw [mem_singleton.mp hu]
        exact ne_of_lt (keys_below hn (u := s) (mem_append_right _ (mem_singleton.mpr rfl)))
    have hrest : ∀ u ∈ rest, u.1 ≠ n.1 := fun u hu => ne_of_gt (keys_above hn hu)
    have hcat : pre ++ (s.1, s.2 ++ n.2) :: n :: rest = (pre ++ [(s.1, s.2 ++ n.2)]) ++ n :: rest := by simp
    rw [setSegment_mid h, mergeSegments_eq, hcat, remove, filter_append, filter_cons_of_neg (by simp),
      filter_eq_self.mpr fun u hu => by simpa using hpre u hu,
      filter_eq_self.mpr fun u hu => by simpa using hrest u hu]
    simp
  · intro u hu
    rcases mem_append.mp hu with hu | hu
    · exact h.filed u (mem_append_left _ hu)
    · rcases mem_cons.mp hu with rfl | hu
      · exact ⟨w, by simp [List.head?_append, hw]⟩
      · exact h.filed u (mem_append_right _ (mem_cons_of_mem _ (mem_cons_of_mem _ hu)))
  · rw [hflat]
    exact h.ascending

end Halves

/-! ## The operations -/

section Floor
variable {pre post : List (K × List (K × StoryLine))} {s : K × List (K × StoryLine)} (h : Partitioned (pre ++ s :: post))
variable {key : K} (hs : s.1 ≤ key) (hpost : ∀ e ∈ flat post, key < e.1)
include h hs hpost

theorem addInformation_spec (info fresh : Nat) (env : Env) :
    ∃ branch, addInformation (pre ++ s :: post) s key info fresh env = some branch ∧ Partitioned branch
      ∧ ∀ e, e ∈ flat branch ↔ e = (key, ⟨some info, (lockOf (flat (pre ++ s :: post)) key).or (some fresh)⟩)
        ∨ e ∈ flat (pre ++ s :: post) ∧ e.1 ≠ key := by
  have hsorted := segment_ascending h
  have hupdate := update_spec h hs hpost info fresh
  obtain ⟨w, hw⟩ := h.filed s (mem_append_right _ mem_cons_self)
  have hkey := mem_of_head? hw
  unfold addInformation
  by_cases hx : (exceeds env s.2.length && !env.rolling) = true
  · rw [if_pos hx]
    cases hl : s.2.getLast? with
    | none =>
      rw [List.getLast?_eq_none_iff.mp hl] at hkey
      cases hkey
    | some last =>
      have hmax : ∀ e ∈ s.2, e.1 ≤ last.1 := fun e he =>
        (greatest hsorted (p := fun _ => true) (e := last) (by simpa using hl)).2.2 e he rfl
      simp only
      by_cases hlast : last.1 < key
      · rw [if_pos hlast]
        exact ⟨_, rfl, append_spec h hs hpost (fun e he => lt_of_le_of_lt (hmax e he) hlast) info fresh⟩
      · rw [if_neg hlast]
        by_cases hsplit : (key < last.1 && (getEntry s.2 key).isNone && env.unreferenced) = true
        · rw [if_pos hsplit]
          obtain ⟨⟨hlt, hnone⟩, -⟩ : (key < last.1 ∧ getEntry s.2 key = none) ∧ env.unreferenced = true := by
            simpa using hsplit
          have hne : ∀ e ∈ s.2, e.1 ≠ key := fun e he => by simpa using List.find?_eq_none.mp hnone e he
          -- the first key and the last one are not the same
          have htwo : 2 ≤ s.2.length := by
            have hskey : s.1 < key := lt_of_le_of_ne hs (hne _ hkey)
            have hlastmem := mem_of_getLast? hl
            match hs2 : s.2 with
            | [] => rw [hs2] at hkey; cases hkey
            | [e] =>
              rw [hs2] at hkey hlastmem
              rw [← mem_singleton.mp hkey] at hlastmem
              rw [mem_singleton.mp hlastmem] at hlt
              exact absurd (lt_trans hskey hlt) (lt_irrefl _)
            | _ :: _ :: _ => simp
          obtain ⟨a, v, rest, hsp, hcat, ha⟩ := splitSegment_spec htwo
          obtain ⟨hput, hpart, hflat⟩ := half_spec h hcat ha
          rw [hsp]
          simp only [hput]
          by_cases hswap : v.1 < key
          · rw [if_pos hswap]
            have hpart' : Partitioned ((pre ++ [(s.1, a)]) ++ (v.1, v :: rest) :: post) := by simpa using hpart
            have hspec := update_spec hpart' (le_of_lt hswap) hpost info fresh
            have hassoc : (pre ++ [(s.1, a)]) ++ (v.1, v :: rest) :: post = pre ++ (s.1, a) :: (v.1, v :: rest) :: post := by simp
            rw [hassoc, hflat] at hspec
            exact ⟨_, rfl, hspec⟩
          · rw [if_neg hswap]
            have hvkey : key < v.1 := lt_of_le_of_ne (not_lt.mp hswap) fun he => hne v (by simp [hcat]) he.symm
            have hspec := update_spec hpart hs (fun e he => ?_) info fresh
            · rw [hflat] at hspec
              exact ⟨_, rfl, hspec⟩
            · simp only [flat_cons, mem_append] at he
              rcases he with he | he
              · rw [hcat] at hsorted
                have hvrest := (pairwise_append.mp hsorted).2.1
                rcases mem_cons.mp he with rfl | he
                · exact hvkey
                · exact lt_trans hvkey ((pairwise_cons.mp hvrest).1 e he)
              · exact hpost e he
        · rw [if_neg hsplit]
          exact ⟨_, rfl, hupdate⟩
  · rw [if_neg hx]
    exact ⟨_, rfl, hupdate⟩

theorem deleteInformation_spec : ∃ branch, deleteInformation (pre ++ s :: post) s key = some branch ∧ Partitioned branch
    ∧ ∀ e, e ∈ flat branch ↔ e ∈ flat (pre ++ s :: post) ∧ e.1 ≠ key := by
  have hsorted := segment_ascending h
  obtain ⟨w, hw⟩ := h.filed s (mem_append_right _ mem_cons_self)
  obtain ⟨rest, hrest⟩ := List.head?_eq_some_iff.mp hw
  have hpre' : ∀ e ∈ flat pre, e.1 ≠ key := fun e he => ne_of_lt (lt_of_lt_of_le (entries_below h he) hs)
  have hpost' : ∀ e ∈ flat post, e.1 ≠ key := fun e he => ne_of_gt (hpost e he)
  -- what the other segments hold and what is left of this one
  have hmem : ∀ mid : List (K × List (K × StoryLine)), flat mid = remove s.2 key → ∀ e,
      e ∈ flat (pre ++ mid ++ post) ↔ e ∈ flat (pre ++ s :: post) ∧ e.1 ≠ key := by
    intro mid hmid e
    simp only [flat_append, flat_cons, mem_append, hmid, remove, mem_filter]
    constructor
    · rintro ((he | ⟨he, hne⟩) | he)
      · exact ⟨Or.inl he, hpre' e he⟩
      · exact ⟨Or.inr (Or.inl he), by simpa using hne⟩
      · exact ⟨Or.inr (Or.inr he), hpost' e he⟩
    · rintro ⟨he | he | he, hne⟩
      · exact Or.inl (Or.inl he)
      · exact Or.inl (Or.inr ⟨he, by simpa using hne⟩)
      · exact Or.inr he
  have hlt : ∀ e ∈ remove s.2 key, ∀ x ∈ flat post, e.1 < x.1 := fun e he x hx =>
    Partitioned.across (t := [s]) h.right (by simpa using (mem_filter.mp he).1) hx
  have hle : ∀ e ∈ remove s.2 key, s.1 ≤ e.1 := fun e he =>
    h.key_le (mem_append_right _ mem_cons_self) (mem_filter.mp he).1
  have hleft : Ascending (remove s.2 key) := hsorted.filter _
  unfold deleteInformation
  by_cases hk : key = s.1
  · -- the first key is removed
    subst hk
    have hget : getEntry s.2 s.1 = some (s.1, w) := getEntry_of_mem hsorted (mem_of_head? hw)
    have hremove : remove s.2 s.1 = rest := by
      rw [hrest] at hsorted ⊢
      rw [remove, filter_cons_of_neg (by simp), filter_eq_self.mpr]
      intro e he
      simpa using ne_of_gt ((pairwise_cons.mp hsorted).1 e he)
    rw [hremove] at hmem hlt hle hleft ⊢
    simp only [hget, hw, map_some]
    cases hr : rest with
    | nil =>
      refine ⟨pre ++ post, by simp [remove_mid h], ?_, fun e => ?_⟩
      · have hnil : Partitioned ([] : List (K × List (K × StoryLine))) :=
          ⟨fun _ hu => absurd hu not_mem_nil, List.Pairwise.nil⟩
        simpa using exchange h hnil (by simp) (by simp)
      · have := hmem [] (by simp [hr]) e
        simpa using this
    | cons f rest' =>
      subst hr
      have hplace : insertEntry f.1 (f :: rest') (pre ++ post) = pre ++ (f.1, f :: rest') :: post := by
        rw [hrest] at hsorted
        have hsf : s.1 < f.1 := (pairwise_cons.mp hsorted).1 f mem_cons_self
        refine insertEntry_mid (fun u hu => lt_trans (keys_below h hu) hsf) fun u hu => ?_
        obtain ⟨x, hx⟩ := (Partitioned.right (t := [s]) h.right).key_mem hu
        exact hlt f mem_cons_self (u.1, x) (mem_flat.mpr ⟨u, hu, hx⟩)
      refine ⟨pre ++ (f.1, f :: rest') :: post, by simp [remove_mid h, hplace], ?_, fun e => ?_⟩
      · have hf : Partitioned [(f.1, f :: rest')] := Partitioned.single hleft
        simpa using exchange h hf (by simpa using hle) (by simpa using hlt)
      · have := hmem [(f.1, f :: rest')] (by simp) e
        simpa using this
  · -- it stays
    have hremove : remove s.2 key = (s.1, w) :: remove rest key := by
      rw [hrest, remove, filter_cons_of_pos (by simpa using Ne.symm hk)]
      rfl
    refine ⟨pre ++ (s.1, remove s.2 key) :: post, ?_, ?_, fun e => ?_⟩
    · simp only [hremove, List.head?_cons, hw, map_some]
      rw [← hremove]
      cases hget : getEntry s.2 key with
      | none => simp [setSegment_mid h]
      | some e =>
        have he : e.1 = key := by simpa using List.find?_some hget
        have hne : ¬e.1 = s.1 := fun h => hk (he ▸ h)
        simp [setSegment_mid h, hne]
    · have hmid : Partitioned [(s.1, remove s.2 key)] := by
        rw [hremove] at hleft ⊢
        exact Partitioned.single hleft
      simpa using exchange h hmid (by simpa using hle) (by simpa using hlt)
    · have := hmem [(s.1, remove s.2 key)] (by simp) e
      simpa using this

end Floor

variable {branch : List (K × List (K × StoryLine))}

/-- A key below all others opens a segment, alone or ahead of the entries of the first one. -/
theorem initSegment_spec (h : Partitioned branch) {key : K}
    (hall : ∀ e ∈ flat branch, key < e.1) (env nenv : Env) :
    ∃ t post, initSegment branch key env nenv = (key, (key, ⟨none, none⟩) :: t) :: post
      ∧ Partitioned ((key, (key, ⟨none, none⟩) :: t) :: post)
      ∧ flat ((key, (key, ⟨none, none⟩) :: t) :: post) = (key, ⟨none, none⟩) :: flat branch := by
  have hkeys : ∀ u ∈ branch, key < u.1 := by
    intro u hu
    obtain ⟨x, hx⟩ := h.key_mem hu
    exact hall (u.1, x) (mem_flat.mpr ⟨u, hu, hx⟩)
  have hascending : Ascending ((key, ⟨none, none⟩) :: flat branch) := pairwise_cons.mpr ⟨hall, h.ascending⟩
  -- alone
  have halone : insertEntry key [(key, ⟨none, none⟩)] branch = (key, [(key, ⟨none, none⟩)]) :: branch :=
    SortedMap.insertEntry_front hkeys
  have hpalone : Partitioned ((key, [(key, (⟨none, none⟩ : StoryLine))]) :: branch) :=
    { filed := by
        intro u hu
        rcases mem_cons.mp hu with rfl | hu
        · exact ⟨_, rfl⟩
        · exact h.filed u hu
      ascending := by simpa using hascending }
  unfold initSegment
  rw [higherEntry_above hkeys]
  cases hb : branch with
  | nil => exact ⟨[], [], by simp [insertEntry], by simpa [hb] using hpalone, rfl⟩
  | cons n rest =>
    obtain ⟨w, hw⟩ := h.filed n (hb ▸ mem_cons_self)
    rw [hb] at halone hpalone h hascending
    simp only [List.head?_cons, hw]
    split
    · have hremove : remove (n :: rest) n.1 = rest := remove_mid (show Partitioned ([] ++ n :: rest) from h)
      have hplace : insertEntry key ((key, (⟨none, none⟩ : StoryLine)) :: n.2) rest
          = (key, (key, ⟨none, none⟩) :: n.2) :: rest :=
        SortedMap.insertEntry_front fun u hu => hkeys u (hb ▸ mem_cons_of_mem _ hu)
      refine ⟨n.2, rest, ?_, ⟨?_, ?_⟩, by simp⟩
      · rw [hremove, mergeSegments_eq, singleton_append, hplace]
      · intro u hu
        rcases mem_cons.mp hu with rfl | hu
        · exact ⟨_, rfl⟩
        · exact h.filed u (mem_cons_of_mem _ hu)
      · simpa using hascending
    · exact ⟨[], n :: rest, halone, hpalone, by simp⟩

/-- The segment a key goes to, in a branch tree that may have got one for it. -/
theorem getSegment_spec (h : Partitioned branch) (key : K) (env nenv : Env) :
    ∃ pre s post, getSegment branch key env nenv = pre ++ s :: post ∧ Partitioned (pre ++ s :: post)
      ∧ floorEntry (pre ++ s :: post) key = some s ∧ s.1 ≤ key ∧ (∀ e ∈ flat post, key < e.1)
      ∧ (flat (pre ++ s :: post) = flat branch
        ∨ (∀ e ∈ flat branch, e.1 ≠ key) ∧ flat (pre ++ s :: post) = (key, ⟨none, none⟩) :: flat branch) := by
  unfold getSegment
  rcases floor_cases h key with ⟨hf, hall⟩ | ⟨pre, s, post, ht, hf, hs, -, hpost⟩
  · rw [hf]
    obtain ⟨t, post, hinit, hpart, hflat⟩ := initSegment_spec h hall env nenv
    have hpost : ∀ e ∈ flat post, key < e.1 := fun e he =>
      Partitioned.across (t := [(key, (key, ⟨none, none⟩) :: t)]) (a := (key, ⟨none, none⟩)) hpart (by simp) he
    have hfloor : floorEntry ((key, (key, (⟨none, none⟩ : StoryLine)) :: t) :: post) key = some (key, (key, ⟨none, none⟩) :: t) := by
      have hnone : post.filter (fun u => u.1 ≤ key) = [] := by
        refine filter_eq_nil_iff.mpr fun u hu => ?_
        obtain ⟨x, hx⟩ := (Partitioned.right (t := [_]) hpart).key_mem hu
        simpa using hpost (u.1, x) (mem_flat.mpr ⟨u, hu, hx⟩)
      rw [floorEntry, filter_cons_of_pos (by simp), hnone]
      rfl
    exact ⟨[], _, post, by simpa using hinit, hpart, hfloor, le_refl _, hpost,
      Or.inr ⟨fun e he => ne_of_gt (hall e he), hflat⟩⟩
  · rw [hf]
    exact ⟨pre, s, post, ht, ht ▸ h, ht ▸ hf, hs, hpost, Or.inl (by rw [ht])⟩

theorem pageSegment_spec (h : Partitioned branch) (b : K) (env nenv : Env) :
    Partitioned (pageSegment branch b env nenv) ∧ flat (pageSegment branch b env nenv) = flat branch := by
  unfold pageSegment
  cases hg : getEntry branch b with
  | none => exact ⟨h, rfl⟩
  | some s =>
    obtain rfl : s.1 = b := by simpa using List.find?_some hg
    obtain ⟨pre, post, rfl⟩ := append_of_mem (mem_of_find?_eq_some hg)
    obtain ⟨w, hw⟩ := h.filed s (mem_append_right _ mem_cons_self)
    have hnext : higherEntry (pre ++ s :: post) s.1 = post.head? := by
      rw [higherEntry_append, higherEntry_below fun u hu => le_of_lt (keys_below h hu), none_or, higherEntry,
        List.find?_cons_of_neg (by simp), ← higherEntry, higherEntry_above fun u hu => keys_above h hu]
    simp only [hw, bind_some, hnext]
    cases hp : post with
    | nil =>
      rw [hp] at h
      exact ⟨h, rfl⟩
    | cons n rest =>
      obtain ⟨x, hx⟩ := h.filed n (by simp [hp])
      obtain ⟨hmerge, hpart, hflat⟩ := merge_spec h hp
      rw [hp] at h hmerge hflat
      simp only [List.head?_cons, hx]
      split
      · rw [hmerge]
        exact ⟨hpart, hflat⟩
      · exact ⟨h, rfl⟩

theorem indexSplit_spec (h : Partitioned branch) (b : K) (env : Env) :
    ∃ branch', indexSplit branch b env = some branch' ∧ Partitioned branch' ∧ flat branch' = flat branch := by
  unfold indexSplit
  cases hg : getEntry branch b with
  | none => exact ⟨branch, rfl, h, rfl⟩
  | some s =>
    obtain rfl : s.1 = b := by simpa using List.find?_some hg
    obtain ⟨pre, post, rfl⟩ := append_of_mem (mem_of_find?_eq_some hg)
    simp only
    split
    · rename_i hsplit
      have hmax : physicalMaximum env s.2.length 5 = true := by
        simp only [Bool.and_eq_true] at hsplit
        exact hsplit.1.2
      -- five times at least 150
      have htwo : 2 ≤ s.2.length := by
        have hge : max env.segmentSize 150 * 5 ≤ s.2.length := by simpa [physicalMaximum, getSegmentSize] using hmax
        omega
      obtain ⟨a, v, rest, hsp, hcat, ha⟩ := splitSegment_spec htwo
      obtain ⟨hput, hpart, hflat⟩ := half_spec h hcat ha
      exact ⟨_, by rw [hsp, map_some, hput], hpart, hflat⟩
    · exact ⟨_, rfl, h, rfl⟩

/-! ## Every run -/

structure Inv (s : St K) : Prop where
  partitioned : Partitioned s.branch
  bound : ∀ k l, (k, l) ∈ flat s.branch ↔ s.bound k = some l
  complete : ∀ k l, s.bound k = some l → l.orginfo.isSome ∧ ∃ n, l.lock = some n ∧ n < s.fresh
  own : ∀ k j l m, s.bound k = some l → s.bound j = some m → l.lock = m.lock → k = j

theorem init_inv : Inv (init : St K) where
  partitioned := ⟨fun _ hu => absurd hu not_mem_nil, List.Pairwise.nil⟩
  bound := by simp [init]
  complete := by simp [init]
  own := by simp [init]

section Steps
variable {s : St K} (hi : Inv s)
include hi

theorem lockOf_flat (key : K) : lockOf (flat s.branch) key = (s.bound key).bind (·.lock) := by
  unfold lockOf
  cases hg : getEntry (flat s.branch) key with
  | some e =>
    obtain rfl : e.1 = key := by simpa using List.find?_some hg
    rw [(hi.bound e.1 e.2).mp (mem_of_find?_eq_some hg)]
    rfl
  | none =>
    cases hb : s.bound key with
    | none => rfl
    | some l =>
      have := List.find?_eq_none.mp hg _ ((hi.bound key l).mpr hb)
      simp at this

theorem rearranged_inv {branch : List (K × List (K × StoryLine))} (h : Partitioned branch) (hflat : flat branch = flat s.branch) :
    Inv { s with branch := branch } where
  partitioned := h
  bound k l := by
    rw [← hi.bound]
    show (k, l) ∈ flat branch ↔ _
    rw [hflat]
  complete := hi.complete
  own := hi.own

theorem insert_inv (key : K) (info : Nat) (env nenv : Env) : ∃ s', step s (.insert key info env nenv) = some s' ∧ Inv s' := by
  obtain ⟨pre, g, post, hget, hpart, hfloor, hg, hpost, hflat⟩ := getSegment_spec hi.partitioned key env nenv
  obtain ⟨branch, hadd, hpart', hmem⟩ := addInformation_spec hpart hg hpost info s.fresh env
  have hlock : lockOf (flat (pre ++ g :: post)) key = (s.bound key).bind (·.lock) := by
    rw [← lockOf_flat hi]
    rcases hflat with hflat | ⟨hne, hflat⟩
    · rw [hflat]
    · rw [hflat, lockOf, lockOf, getEntry_none hne, getEntry, List.find?_cons_of_pos (by simp)]
      rfl
  have hold : ∀ e, e ∈ flat (pre ++ g :: post) ∧ e.1 ≠ key ↔ e ∈ flat s.branch ∧ e.1 ≠ key := by
    intro e
    rcases hflat with hflat | ⟨hne, hflat⟩
    · rw [hflat]
    · rw [hflat, mem_cons]
      constructor
      · rintro ⟨rfl | he, hk⟩
        · exact absurd rfl hk
        · exact ⟨he, hk⟩
      · rintro ⟨he, hk⟩
        exact ⟨Or.inr he, hk⟩
  refine ⟨_, by rw [step, hget, hfloor, bind_some, hadd, map_some], ?_⟩
  -- the lock of the key is its old one or the fresh one
  have hnew : ∃ n, ((s.bound key).bind (·.lock)).or (some s.fresh) = some n ∧ n < s.fresh + 1
      ∧ ∀ j m, j ≠ key → s.bound j = some m → m.lock ≠ some n := by
    cases hb : s.bound key with
    | none =>
      refine ⟨s.fresh, rfl, Nat.lt_succ_self _, fun j m _ hm hlk => ?_⟩
      obtain ⟨-, n, hn, hlt⟩ := hi.complete j m hm
      rw [hlk] at hn
      cases hn
      exact lt_irrefl _ hlt
    | some l =>
      obtain ⟨-, n, hn, hlt⟩ := hi.complete key l hb
      refine ⟨n, by simp [hn], Nat.lt_succ_of_lt hlt, fun j m hj hm hlk => ?_⟩
      exact hj (hi.own j key m l hm hb (by rw [hlk, hn]))
  obtain ⟨n, hn, hlt, hother⟩ := hnew
  refine ⟨hpart', fun k l => ?_, fun k l hl => ?_, fun k j l m hl hm hlk => ?_⟩
  · rw [hmem, hold, hlock]
    show _ ↔ Function.update s.bound key _ k = some l
    by_cases hk : k = key
    · subst hk
      rw [update_self]
      simp [eq_comm]
    · rw [update_of_ne hk, ← hi.bound]
      simp [hk]
  · by_cases hk : k = key
    · subst hk
      simp only [update_self, some_inj] at hl
      subst hl
      exact ⟨rfl, n, hn, hlt⟩
    · simp only [update_of_ne hk] at hl
      obtain ⟨hsome, n', hn', hlt'⟩ := hi.complete k l hl
      exact ⟨hsome, n', hn', Nat.lt_succ_of_lt hlt'⟩
  · by_cases hk : k = key <;> by_cases hj : j = key
    · rw [hk, hj]
    · subst hk
      simp only [update_self, some_inj] at hl
      simp only [update_of_ne hj] at hm
      subst hl
      exact absurd (hlk.symm.trans hn) (hother j m hj hm)
    · subst hj
      simp only [update_self, some_inj] at hm
      simp only [update_of_ne hk] at hl
      subst hm
      exact absurd (hlk.trans hn) (hother k l hk hl)
    · simp only [update_of_ne hk] at hl
      simp only [update_of_ne hj] at hm
      exact hi.own k j l m hl hm hlk

theorem fail_inv (key : K) (env nenv : Env) : ∃ s', step s (.fail key env nenv) = some s' ∧ Inv s' := by
  obtain ⟨pre, g, post, hget, hpart, hfloor, hg, hpost, hflat⟩ := getSegment_spec hi.partitioned key env nenv
  have hentry := hpart.getEntry_mid hg hpost
  have hstep : ∀ branch, failedSegment (pre ++ g :: post) g key = some branch →
      step s (.fail key env nenv) = some { s with branch := branch } := by
    intro branch hf
    rw [step, hget, hfloor, bind_some, hf, map_some]
  by_cases hnone : ((getEntry g.2 key).bind (·.2.orginfo)).isNone = true
  · -- nothing is bound, and what getSegment has put there is taken out
    obtain ⟨branch, hdel, hpart', hmem⟩ := deleteInformation_spec hpart hg hpost
    have hf : failedSegment (pre ++ g :: post) g key = some branch := by
      rw [failedSegment, if_pos hnone, hdel]
    refine ⟨_, hstep branch hf, hpart', fun k l => ?_, hi.complete, hi.own⟩
    have hfree : ∀ e ∈ flat s.branch, e.1 ≠ key := by
      intro e he hk
      rcases hflat with hflat | ⟨hne, -⟩
      · have hsome := (hi.complete e.1 e.2 ((hi.bound e.1 e.2).mp he)).1
        have hget := getEntry_of_mem hi.partitioned.ascending he
        rw [hflat, ← hk, hget] at hentry
        subst hk
        rw [← hentry] at hnone
        simp only [bind_some] at hnone
        rw [isNone_iff_eq_none.mp hnone] at hsome
        cases hsome
      · exact hne e he hk
    rw [hmem, ← hi.bound]
    rcases hflat with hflat | ⟨hne, hflat⟩
    · rw [hflat]
      exact ⟨fun h => h.1, fun h => ⟨h, hfree _ h⟩⟩
    · rw [hflat, mem_cons]
      constructor
      · rintro ⟨he | he, hk⟩
        · exact absurd (congrArg Prod.fst he) hk
        · exact he
      · exact fun h => ⟨Or.inr h, hfree _ h⟩
  · have hf : failedSegment (pre ++ g :: post) g key = some (pre ++ g :: post) := by
      rw [failedSegment, if_neg hnone]
    refine ⟨_, hstep _ hf, rearranged_inv hi hpart ?_⟩
    rcases hflat with hflat | ⟨hne, hflat⟩
    · exact hflat
    · rw [← hentry, hflat, getEntry, List.find?_cons_of_pos (by simp)] at hnone
      exact absurd rfl hnone

theorem remove_inv (key : K) : ∃ s', step s (.remove key) = some s' ∧ Inv s' := by
  rw [step]
  rcases floor_cases hi.partitioned key with ⟨hf, -⟩ | ⟨pre, g, post, ht, hf, hg, -, hpost⟩
  · rw [hf]
    exact ⟨s, rfl, hi⟩
  · rw [hf]
    simp only
    split
    · have hpart := hi.partitioned
      rw [ht] at hpart
      obtain ⟨branch, hdel, hpart', hmem⟩ := deleteInformation_spec hpart hg hpost
      refine ⟨_, by rw [ht, hdel, map_some], hpart', fun k l => ?_, fun k l hl => ?_, fun k j l m hl hm hlk => ?_⟩
      · rw [hmem, ← ht, hi.bound]
        show _ ↔ Function.update s.bound key none k = some l
        by_cases hk : k = key
        · subst hk
          simp
        · rw [update_of_ne hk]
          simp [hk]
      · by_cases hk : k = key
        · subst hk
          simp at hl
        · simp only [update_of_ne hk] at hl
          exact hi.complete k l hl
      · by_cases hk : k = key
        · subst hk
          simp at hl
        · by_cases hj : j = key
          · subst hj
            simp at hm
          · simp only [update_of_ne hk] at hl
            simp only [update_of_ne hj] at hm
            exact hi.own k j l m hl hm hlk
    · exact ⟨s, rfl, hi⟩

/-- Every step is possible and keeps the partition. -/
theorem step_inv (e : Ev K) : ∃ s', step s e = some s' ∧ Inv s' := by
  cases e with
  | insert key info env nenv => exact insert_inv hi key info env nenv
  | fail key env nenv => exact fail_inv hi key env nenv
  | remove key => exact remove_inv hi key
  | page b env nenv =>
    obtain ⟨hpart, hflat⟩ := pageSegment_spec hi.partitioned b env nenv
    exact ⟨_, rfl, rearranged_inv hi hpart hflat⟩
  | split b env =>
    obtain ⟨branch, hsplit, hpart, hflat⟩ := indexSplit_spec hi.partitioned b env
    exact ⟨_, by rw [step, hsplit, map_some], rearranged_inv hi hpart hflat⟩

end Steps

theorem inv {s : St K} (h : Reach step Free init s) : Inv s :=
  Reach.inv (P := Inv) init_inv (fun {s s' e} hi _ h => by
    obtain ⟨s₂, h₂, hinv⟩ := step_inv hi e
    rw [h] at h₂
    cases h₂
    exact hinv) h

/-- In every state the branch keys are strictly ascending and each is the first key of its segment, the keys of a segment
    are below the next branch key, the floor lookup of a bound key finds the one segment that has it, with its versions
    and its lock, no two keys share a lock, and every operation can be done. -/
theorem partition_kept {s : St K} (h : Reach step Free init s) :
    Ascending s.branch
    ∧ (∀ g ∈ s.branch, ∃ l, g.2.head? = some (g.1, l))
    ∧ (∀ pre g n post, s.branch = pre ++ g :: n :: post → ∀ e ∈ g.2, e.1 < n.1)
    ∧ (∀ k l, s.bound k = some l ↔ ∃ g, floorEntry s.branch k = some g ∧ (k, l) ∈ g.2)
    ∧ (∀ k l, s.bound k = some l → ∃ pre g post, s.branch = pre ++ g :: post ∧ getEntry g.2 k = some (k, l)
        ∧ ∀ u ∈ pre ++ post, ∀ e ∈ u.2, e.1 ≠ k)
    ∧ (∀ k l, s.bound k = some l → l.orginfo.isSome ∧ l.lock.isSome)
    ∧ (∀ k j l m, s.bound k = some l → s.bound j = some m → l.lock = m.lock → k = j)
    ∧ ∀ e, (step s e).isSome := by
  have hi := inv h
  have hpart := hi.partitioned
  refine ⟨hpart.keys_ascending, hpart.filed, ?_, fun k l => ?_, fun k l hl => ?_, ?_, hi.own, fun e => ?_⟩
  · intro pre g n post ht e he
    rw [ht] at hpart
    obtain ⟨x, hx⟩ := hpart.key_mem (s := n) (by simp)
    exact Partitioned.across (t := [g]) (u := n :: post) (b := (n.1, x)) hpart.right (by simpa using he) (by simp [hx])
  · rw [← hi.bound]
    rcases floor_cases hpart k with ⟨hf, hall⟩ | ⟨pre, g, post, ht, hf, hg, hpre, hpost⟩
    · rw [hf]
      exact ⟨fun he => absurd (hall _ he) (lt_irrefl _), fun ⟨g, hg, _⟩ => by cases hg⟩
    · rw [hf]
      constructor
      · intro he
        rw [ht] at hpart he
        have hget := hpart.getEntry_mid hg hpost
        rw [getEntry_of_mem (e := (k, l)) hpart.ascending he] at hget
        exact ⟨g, rfl, mem_of_find?_eq_some hget.symm⟩
      · intro ⟨g', hg', he⟩
        cases hg'
        rw [ht]
        exact mem_flat.mpr ⟨g, by simp, he⟩
  · obtain ⟨pre, g, post, ht, hmem⟩ : ∃ pre g post, s.branch = pre ++ g :: post ∧ (k, l) ∈ g.2 := by
      obtain ⟨g, hg, hmem⟩ := mem_flat.mp ((hi.bound k l).mpr hl)
      obtain ⟨pre, post, ht⟩ := append_of_mem hg
      exact ⟨pre, g, post, ht, hmem⟩
    rw [ht] at hpart
    refine ⟨pre, g, post, ht, getEntry_of_mem (e := (k, l)) (segment_ascending hpart) hmem, fun u hu e he => ?_⟩
    have hk : (k, l) ∈ flat (g :: post) := by
      rw [flat_cons]
      exact mem_append_left _ hmem
    rcases mem_append.mp hu with hu | hu
    · exact ne_of_lt (hpart.across (b := (k, l)) (mem_flat.mpr ⟨u, hu, he⟩) hk)
    · exact ne_of_gt (Partitioned.across (t := [g]) (a := (k, l)) hpart.right (by simpa using hmem) (mem_flat.mpr ⟨u, hu, he⟩))
  · intro k l hl
    obtain ⟨hsome, n, hn, -⟩ := hi.complete k l hl
    exact ⟨hsome, by rw [hn]; rfl⟩
  · obtain ⟨s', hs', -⟩ := step_inv hi e
    rw [hs']
    rfl

/-- Rows of a size. -/
def rows (rowSize : Int) : Env := ⟨1500, 7500, rowSize, false, 2, false, true, true⟩

/-- 7 comes into a segment with 5 and 9 that is too large by its bytes; 3 opens a segment that takes in 5 and 7; 3 and 9 are
    removed. -/
def splitTrace : List (Ev Nat) :=
  [.insert 5 50 (rows 10) (rows 10), .insert 9 90 (rows 10) (rows 10), .insert 7 70 (rows 20000000) (rows 20000000),
   .insert 3 30 (rows 10) (rows 10), .fail 8 (rows 10) (rows 10), .remove 3, .remove 9, .insert 6 60 (rows 30000000) (rows 10)]

theorem split_kept : ∃ s : St Nat, Reach step Free init s
    ∧ s.branch = [(5, [(5, ⟨some 50, some 0⟩), (6, ⟨some 60, some 4⟩)]), (7, [(7, ⟨some 70, some 2⟩)])]
    ∧ Ascending s.branch ∧ (∀ g ∈ s.branch, ∃ l, g.2.head? = some (g.1, l)) ∧ ∀ e, (step s e).isSome := by
  obtain ⟨s, hs, hb⟩ : ∃ s, exec step (init : St Nat) splitTrace = some s
      ∧ s.branch = [(5, [(5, ⟨some 50, some 0⟩), (6, ⟨some 60, some 4⟩)]), (7, [(7, ⟨some 70, some 2⟩)])] :=
    exec_ends (by decide +kernel)
  have hreach := reach_of_exec _ hs
  obtain ⟨hascending, hfiled, -, -, -, -, -, hstep⟩ := partition_kept hreach
  exact ⟨s, hreach, hb, hascending, hfiled, hstep⟩

end DeepFabric.Store.Segmentation
