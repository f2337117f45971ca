/-
  DeepFabric.Store.StreamIndexes — which value files a segment says its values are in, and
  that `reorganizeFiles` relies on it.

  A value goes to the current stream file when its transaction commits. The segment learns
  of the file only when an index cycle comes by (`keySpacePinning`), and only while no newer
  version of the key is pending. A version this has happened to is `settled` here; the source
  has no such flag.

  When the files of a segment no longer fit into a range of eight, the segment is rolled: all
  its values are written again, to the current file. Waiting for locks in there is left to
  other events (`rolling`).

  - `indexed_noted`: after an index cycle of a segment nothing is pending in, all its files
    are noted.

  `mergeFragmentation` means to compare the file ranges of the two segments it merges, and
  compares the first with itself. `merge_forgets` is what comes of it, so a merge is taken to
  be of equal ranges in `references_kept`.

  Left out: checkpoints (`m_old`, viewpoints other than 0), recovery, secondaries, compression,
  summaries, and the sizes that decide when to split, merge and reorganize.
-/
import DeepFabric.Lib.Run
import Mathlib.Data.List.Basic

namespace DeepFabric.Store.StreamIndexes

open DeepFabric.Lib.Run Option
open List (mem_cons mem_cons_of_mem mem_cons_self mem_singleton not_mem_nil forall_mem_cons)

/-! ## Versions -/

/-- A version at `LEVEL_COMMIT`. -/
structure Committed where
  deleting : Bool
  fileIndex : Nat
  settled : Bool
  deriving DecidableEq

/-- It has no file while its position is 0. -/
structure Pending where
  deleting : Bool
  fileIndex : Option Nat
  deriving DecidableEq

/-- The newest version is first. -/
structure StoryLine where
  committed : List Committed
  pending : List Pending
  deriving DecidableEq

namespace StoryLine

def newest (story : StoryLine) : Option Committed := story.committed.head?

def put (deleting : Bool) (story : StoryLine) : StoryLine := { story with pending := ⟨deleting, none⟩ :: story.pending }

/-- A large transaction writes its values before it commits. -/
def prewrite (fileIndex : Nat) (story : StoryLine) : StoryLine :=
  match story.pending with
  | p :: rest => { story with pending := { p with fileIndex := some (p.fileIndex.getD fileIndex) } :: rest }
  | [] => story

def commit (fileIndex : Nat) (story : StoryLine) : StoryLine :=
  match story.pending with
  | p :: _ => ⟨⟨p.deleting, p.fileIndex.getD fileIndex, false⟩ :: story.committed, []⟩
  | [] => story

def rollback (versions : Nat) (story : StoryLine) : StoryLine := { story with pending := story.pending.drop versions }

def deleteUnviewed (viewed : Nat) (story : StoryLine) : StoryLine := { story with committed := story.committed.take (viewed + 1) }

/-- The file of the newest version on disk, committed or not. -/
def isolateInformationLocality (story : StoryLine) : Option Nat :=
  (story.pending.findSome? Pending.fileIndex).or (story.newest.map Committed.fileIndex)

end StoryLine

/-! ## The range of a segment's files -/

def rangeSize : Nat := 8

structure NumberRangeSet where
  index : Nat
  range : BitVec rangeSize

/-- The second part says whether the range overflows. -/
def NumberRangeSet.add (s : NumberRangeSet) (index : Nat) : NumberRangeSet × Bool :=
  if index = s.index then (s, false)
  else if s.index < index then
    let diff := index - s.index
    (⟨index, s.range <<< diff ||| BitVec.ofNat rangeSize 1 <<< (diff - 1)⟩, rangeSize < diff || s.range >>> (rangeSize - diff) != 0)
  else
    let diff := s.index - index
    if rangeSize < diff then (s, true) else (⟨s.index, s.range ||| BitVec.ofNat rangeSize 1 <<< (diff - 1)⟩, false)

/-- A tree set of indexes; of its order only the last element matters. -/
abbrev Indexes := List Nat

namespace Indexes

def last (refs : Indexes) : Nat := refs.foldr max 0

def addStreamIndex (refs : Indexes) (index : Nat) : Indexes := List.insert index refs

def overflow (current : Nat) : NumberRangeSet → Indexes → Bool
  | _, [] => false
  | set, index :: refs => if index = current then overflow current set refs else (set.add index).2 || overflow current (set.add index).1 refs

def getStreamRangeOverflow (refs : Indexes) : Bool := !refs.isEmpty && overflow refs.last ⟨refs.last, 0⟩ refs

def range (current : Nat) : NumberRangeSet → Indexes → NumberRangeSet
  | set, [] => set
  | set, index :: refs => if index = current then range current set refs else range current (set.add index).1 refs

def getStreamRange (refs : Indexes) : BitVec rangeSize := (range refs.last ⟨refs.last, 0⟩ refs).range

end Indexes

/-! ## Segments -/

structure Segment (K : Type) where
  entries : List (K × StoryLine)
  streamIndexes : Indexes
  /-- To be rolled, and not to be indexed, split or merged before. -/
  rolling : Bool

def Segment.hasStreamIndex {K : Type} (segment : Segment K) (index : Nat) : Bool := segment.streamIndexes.contains index

/-- The second part says whether the segment has to be rolled. -/
def markSegment (refs : Indexes) (index : Nat) : Indexes × Bool :=
  if refs.isEmpty then (refs.addStreamIndex index, false) else (refs.addStreamIndex index, (refs.addStreamIndex index).getStreamRangeOverflow)

def keyWriteAccess (checkpointMode rebuild : Bool) (story : StoryLine) : Bool :=
  !story.committed.isEmpty && (story.pending.isEmpty || checkpointMode && rebuild)

def keySpacePinning (refs : Indexes) (story : StoryLine) : StoryLine × Indexes × Bool :=
  match story.committed, story.pending with
  | v :: rest, [] =>
    if v.deleting then (story, refs, false)
    else
      (⟨{ v with settled := true } :: rest, []⟩, if refs.contains v.fileIndex then (refs, false) else markSegment refs v.fileIndex)
  | _, _ => (story, refs, false)

/-- `roll` is `RETRY` after `rolloverRealTime`. -/
inductive WalkAction where
  | next
  | done
  | retry
  | roll
  deriving DecidableEq

def processInfo (checkpointMode rebuild : Bool) (refs : Indexes) (story : StoryLine) : StoryLine × Indexes × WalkAction :=
  if story.committed.isEmpty && story.pending.isEmpty then (story, refs, if rebuild then .next else .retry)
  else
    match keySpacePinning refs story with
    | (story, refs, true) => (story, refs, .roll)
    | (story, refs, false) =>
      if !keyWriteAccess checkpointMode rebuild story then (story, refs, if rebuild then .done else .next)
      else (story, refs, if story.newest.any Committed.deleting && !rebuild then .retry else .next)

variable {K : Type}

def walkSegment (checkpointMode rebuild : Bool) : Indexes → List (K × StoryLine) → List (K × StoryLine) × Indexes × WalkAction
  | refs, [] => ([], refs, .next)
  | refs, (key, story) :: entries =>
    match processInfo checkpointMode rebuild refs story with
    | (story, refs, .next) =>
      let (entries, refs, action) := walkSegment checkpointMode rebuild refs entries
      ((key, story) :: entries, refs, action)
    | (story, refs, action) => ((key, story) :: entries, refs, action)

def indexSegment (checkpointMode rebuild : Bool) (segment : Segment K) : Segment K :=
  match walkSegment checkpointMode rebuild segment.streamIndexes segment.entries with
  | (entries, refs, .retry) =>
    let (entries, refs, action) := walkSegment checkpointMode true refs entries
    ⟨entries, refs, action == .roll⟩
  | (entries, refs, action) => ⟨entries, refs, action == .roll⟩

/-- The comparisons of sizes and states are left to the caller. The two ranges are the same one. -/
def mergeFragmentation (segment nSegment : Segment K) : Bool :=
  segment.streamIndexes.isEmpty == nSegment.streamIndexes.isEmpty && !segment.rolling && !nSegment.rolling &&
    (segment.streamIndexes.isEmpty ||
      segment.streamIndexes.last == nSegment.streamIndexes.last &&
        segment.streamIndexes.getStreamRange == segment.streamIndexes.getStreamRange)

def mergeSegments (segment nSegment : Segment K) : Segment K := { segment with entries := segment.entries ++ nSegment.entries }

/-- The indexes of what is on disk, where the range has to be mended. -/
def localities (entries : List (K × StoryLine)) : Indexes :=
  (entries.filterMap fun e => e.2.isolateInformationLocality).foldl Indexes.addStreamIndex []

def splitSegment (segment : Segment K) : Segment K × Segment K :=
  let middle := (segment.entries.length + 1) / 2
  let left := segment.entries.take middle
  let right := segment.entries.drop middle
  if segment.streamIndexes.getStreamRangeOverflow then
    ({ segment with entries := left, streamIndexes := localities left }, ⟨right, localities right, false⟩)
  else ({ segment with entries := left }, ⟨right, segment.streamIndexes, false⟩)

/-! ## Streams -/

structure Streams where
  streamIndex : Nat
  vrtWriteFileList : List Nat
  /-- The `m_streamIndex` of the rolling transaction. -/
  rollIndex : Nat

def Streams.addStreamFile (index : Nat) (st : Streams) : Option Streams :=
  if index ∈ st.vrtWriteFileList then none else some { st with streamIndex := index, vrtWriteFileList := index :: st.vrtWriteFileList }

/-- The current file is left before it is destroyed. -/
def Streams.leaveFile (leave : Bool) (fresh : Nat) (st : Streams) : Option Streams := if leave then st.addStreamFile fresh else some st

/-- `turn` is the file begun before the value of a key, if any. A key somebody else has changed is waited for. -/
def rollEntries (turn : K → Option Nat) : List (K × StoryLine) → Streams → Option (List (K × StoryLine) × Streams)
  | [], st => some ([], st)
  | (key, story) :: entries, st =>
    match story.newest with
    | some v =>
      if v.deleting then (rollEntries turn entries st).map fun p => ((key, story) :: p.1, p.2)
      else if !story.pending.isEmpty then none
      else do
        let st ← (turn key).elim (some st) st.addStreamFile
        let (entries, st') ← rollEntries turn entries { st with rollIndex := st.streamIndex }
        return ((key, ⟨⟨false, st.streamIndex, false⟩ :: story.committed, []⟩) :: entries, st')
    | none => (rollEntries turn entries st).map fun p => ((key, story) :: p.1, p.2)

def rolloverSegment (turn : K → Option Nat) (segment : Segment K) (st : Streams) : Option (Segment K × Streams) :=
  (rollEntries turn segment.entries st).map fun p => (⟨p.1, [p.2.rollIndex], false⟩, p.2)

/-- `orderSegments` for the segments that name the file, each rolled first. -/
def orderSegments (checkpointMode : Bool) (file : Nat) (turn : K → Option Nat) : List (Segment K) → Streams → Option (List (Segment K) × Streams)
  | [], st => some ([], st)
  | segment :: segments, st =>
    if segment.hasStreamIndex file then do
      let (segment, st) ← rolloverSegment turn segment st
      let (segments, st) ← orderSegments checkpointMode file turn segments st
      return (indexSegment checkpointMode true segment :: segments, st)
    else (orderSegments checkpointMode file turn segments st).map fun p => (segment :: p.1, p.2)

/-! ## The map -/

structure RealTimeMap (K : Type) where
  segments : List (Segment K)
  streams : Streams

def init : RealTimeMap K := ⟨[], ⟨0, [0], 0⟩⟩

def referenced (segments : List (Segment K)) (file : Nat) : Bool :=
  segments.any fun segment => segment.entries.any fun e => e.2.pending.any fun p => p.fileIndex == some file

/-- `wfile` is destroyed in the end; `fresh` is the file the stream goes on in if it has to leave this one. -/
def reorganizeFiles (checkpointMode : Bool) (wfile fresh : Nat) (turn : K → Option Nat) (map : RealTimeMap K) : Option (RealTimeMap K) :=
  if wfile ∉ map.streams.vrtWriteFileList ∨ referenced map.segments wfile then none
  else do
    let st ← map.streams.leaveFile (map.segments.any (·.hasStreamIndex wfile) && wfile == map.streams.streamIndex) fresh
    let (segments, st) ← orderSegments checkpointMode wfile turn map.segments st
    let st ← st.leaveFile (wfile == st.streamIndex) fresh
    return ⟨segments, { st with vrtWriteFileList := st.vrtWriteFileList.filter (· ≠ wfile) }⟩

/-- What one transaction does to one key of one segment is one event. -/
inductive Event (K : Type) where
  | initSegment (segment : Nat)
  | put (segment : Nat) (key : K) (deleting : Bool)
  | prewrite (segment : Nat) (key : K)
  | commit (segment : Nat) (key : K)
  | rollback (segment : Nat) (key : K) (versions : Nat)
  | deleteUnviewed (segment : Nat) (key : K) (viewed : Nat)
  | deleteInformation (segment : Nat) (key : K)
  | deleteSegment (segment : Nat)
  | index (segment : Nat) (rebuild : Bool)
  | rollover (segment : Nat) (turn : K → Option Nat)
  | split (segment : Nat)
  | merge (segment : Nat)
  | streamFileManagement (fresh : Nat)
  | reorganizeFiles (wfile fresh : Nat) (turn : K → Option Nat)

namespace RealTimeMap

variable [DecidableEq K] (map : RealTimeMap K)

def onSegment (i : Nat) (f : Segment K → Segment K) : Option (RealTimeMap K) :=
  if i < map.segments.length then some { map with segments := map.segments.modify i f } else none

def onStoryLine (i : Nat) (key : K) (f : StoryLine → StoryLine) : Option (RealTimeMap K) :=
  map.onSegment i fun segment => { segment with entries := segment.entries.map fun e => if e.1 = key then (e.1, f e.2) else e }

def putEntry (key : K) (deleting : Bool) (entries : List (K × StoryLine)) : List (K × StoryLine) :=
  if entries.any (·.1 = key) then entries.map fun e => if e.1 = key then (e.1, e.2.put deleting) else e
  else entries ++ [(key, StoryLine.put deleting ⟨[], []⟩)]

def gone (story : StoryLine) : Bool := story.pending.isEmpty && story.newest.all Committed.deleting

end RealTimeMap

def step [DecidableEq K] (checkpointMode : Bool) (map : RealTimeMap K) : Event K → Option (RealTimeMap K)
  | .initSegment i => some { map with segments := map.segments.insertIdx i ⟨[], [], false⟩ }
  | .put i key deleting => map.onSegment i fun segment => { segment with entries := RealTimeMap.putEntry key deleting segment.entries }
  | .prewrite i key => map.onStoryLine i key (.prewrite map.streams.streamIndex)
  | .commit i key => map.onStoryLine i key (.commit map.streams.streamIndex)
  | .rollback i key versions => map.onStoryLine i key (.rollback versions)
  | .deleteUnviewed i key viewed => map.onStoryLine i key (.deleteUnviewed viewed)
  | .deleteInformation i key => map.onSegment i fun segment => { segment with entries := segment.entries.filter fun e => !(e.1 = key && RealTimeMap.gone e.2) }
  | .deleteSegment i =>
    if map.segments[i]?.any fun segment => segment.entries.isEmpty then some { map with segments := map.segments.eraseIdx i } else none
  | .index i rebuild => if map.segments[i]?.any (!·.rolling) then map.onSegment i (indexSegment checkpointMode rebuild) else none
  | .rollover i turn => do
    let segment ← map.segments[i]?
    let (segment, st) ← rolloverSegment turn segment map.streams
    return ⟨map.segments.set i segment, st⟩
  | .split i => do
    let segment ← map.segments[i]?
    if segment.rolling then none
    else
      let (segment, pSegment) := splitSegment segment
      return { map with segments := (map.segments.set i segment).insertIdx (i + 1) pSegment }
  | .merge i => do
    let segment ← map.segments[i]?
    let nSegment ← map.segments[i + 1]?
    if mergeFragmentation segment nSegment then
      return { map with segments := (map.segments.set i (mergeSegments segment nSegment)).eraseIdx (i + 1) }
    else none
  | .streamFileManagement fresh => (map.streams.addStreamFile fresh).map fun st => { map with streams := st }
  | .reorganizeFiles wfile fresh turn => reorganizeFiles checkpointMode wfile fresh turn map

/-- A value that was committed a moment ago is in a file its segment does not name, and the file goes. -/
theorem reference_missing :
    ∃ map, Reach (step false) Free (init : RealTimeMap Nat) map ∧ ∃ segment ∈ map.segments, ∃ e ∈ segment.entries, ∃ v,
      e.2.newest = some v ∧ v.deleting = false ∧ segment.hasStreamIndex v.fileIndex = false ∧ v.fileIndex ∉ map.streams.vrtWriteFileList := by
  obtain ⟨map, hs, h1, h2⟩ : ∃ map, exec (step false) (init : RealTimeMap Nat)
      [.initSegment 0, .put 0 7 false, .commit 0 7, .reorganizeFiles 0 1 fun _ => none] = some map ∧
      map.segments = [⟨[(7, ⟨[⟨false, 0, false⟩], []⟩)], [], false⟩] ∧ map.streams.vrtWriteFileList = [1] := by
    exact ⟨_, rfl, rfl, rfl⟩
  refine ⟨map, reach_of_exec _ hs, ?_⟩
  rw [h1, h2]
  exact ⟨_, mem_singleton.mpr rfl, _, mem_singleton.mpr rfl, _, rfl, rfl, rfl, by decide⟩

/-- Key 5 has its value in file 0, and an index cycle has noted it. The next segment to the left has
files of its own and the same current one, so the two are merged, and a change of key 5 that is
pending then keeps the file from being noted again. -/
theorem merge_forgets :
    ∃ map, Reach (step false) Free (init : RealTimeMap Nat) map ∧ ∃ segment ∈ map.segments, ∃ e ∈ segment.entries, ∃ v,
      e.2.newest = some v ∧ v.settled = true ∧ segment.hasStreamIndex v.fileIndex = false ∧ v.fileIndex ∉ map.streams.vrtWriteFileList := by
  obtain ⟨map, hs, h1, h2⟩ : ∃ map, exec (step false) (init : RealTimeMap Nat)
      [.initSegment 0, .initSegment 1, .put 1 5 false, .commit 1 5, .index 1 true, .streamFileManagement 1, .put 1 6 false, .commit 1 6,
        .index 1 true, .put 0 2 false, .commit 0 2, .index 0 true, .put 1 5 false, .merge 0, .index 0 true,
        .reorganizeFiles 0 2 fun _ => none, .rollback 0 5 1] = some map ∧
      map.segments = [⟨[(2, ⟨[⟨false, 1, true⟩], []⟩), (5, ⟨[⟨false, 0, true⟩], []⟩), (6, ⟨[⟨false, 1, true⟩], []⟩)], [1], false⟩] ∧
      map.streams.vrtWriteFileList = [1] := by
    exact ⟨_, rfl, rfl, rfl⟩
  refine ⟨map, reach_of_exec _ hs, ?_⟩
  rw [h1, h2]
  exact ⟨_, mem_singleton.mpr rfl, (5, _), mem_cons_of_mem _ mem_cons_self, _, rfl, rfl, rfl, by decide⟩

/-! ## The range of a set -/

namespace Indexes

variable {current : Nat} {set : NumberRangeSet} {refs : Indexes}

theorem le_last {index : Nat} (h : index ∈ refs) : index ≤ refs.last := by
  induction refs with
  | nil => exact absurd h not_mem_nil
  | cons i refs ih =>
    rcases mem_cons.mp h with rfl | h
    · exact Nat.le_max_left _ _
    · exact Nat.le_trans (ih h) (Nat.le_max_right _ _)

theorem last_mem (h : refs ≠ []) : refs.last ∈ refs := by
  induction refs with
  | nil => exact absurd rfl h
  | cons i refs ih =>
    show max i (last refs) ∈ i :: refs
    rcases Nat.le_total (last refs) i with hle | hle
    · rw [Nat.max_eq_left hle]
      exact mem_cons_self
    · rw [Nat.max_eq_right hle]
      cases refs with
      | nil =>
        have : i = 0 := Nat.le_zero.mp hle
        rw [this]
        exact mem_cons_self
      | cons => exact mem_cons_of_mem _ (ih (List.cons_ne_nil _ _))

/-- Below the last index, adding overflows exactly when the index is too far away. -/
theorem add_below {index : Nat} (h : index < set.index) :
    set.add index =
      if rangeSize < set.index - index then (set, true)
      else (⟨set.index, set.range ||| BitVec.ofNat rangeSize 1 <<< (set.index - index - 1)⟩, false) := by
  rw [NumberRangeSet.add, if_neg (by omega), if_neg (by omega)]

theorem add_index {index : Nat} (h : index < set.index) : (set.add index).1.index = set.index := by
  rw [add_below h]
  split_ifs <;> rfl

theorem overflow_iff (hset : set.index = current) (hle : ∀ i ∈ refs, i ≤ current) :
    overflow current set refs = true ↔ ∃ i ∈ refs, rangeSize < current - i := by
  induction refs generalizing set with
  | nil => simp [overflow]
  | cons i refs ih =>
    have hrefs : ∀ j ∈ refs, j ≤ current := (forall_mem_cons.mp hle).2
    have hi := hle i mem_cons_self
    rw [overflow]
    split_ifs with h
    · rw [ih hset hrefs]
      simp [h]
    · have hlt : i < set.index := by omega
      have hadd : (set.add i).2 = decide (rangeSize < current - i) := by
        rw [add_below hlt, hset]
        split_ifs with h' <;> simp [h']
      rw [Bool.or_eq_true, ih ((add_index hlt).trans hset) hrefs, hadd]
      simp

theorem bit_shifted {d : Nat} (h : 0 < d) (j : Nat) :
    (BitVec.ofNat rangeSize 1 <<< (d - 1)).getLsbD j = decide (j < rangeSize ∧ d = j + 1) := by
  have hsize : 0 < rangeSize := Nat.zero_lt_succ _
  rw [BitVec.getLsbD_shiftLeft, BitVec.getLsbD_one]
  by_cases hd : d = j + 1
  · simp [hd, hsize]
  · simp only [hd, hsize, decide_true, and_false, decide_false, Bool.true_and, Bool.and_eq_false_imp, decide_eq_false_iff_not]
    simp
    omega

theorem range_bit (hset : set.index = current) (hle : ∀ i ∈ refs, i ≤ current) (j : Nat) :
    (range current set refs).range.getLsbD j =
      (set.range.getLsbD j || decide (j < rangeSize ∧ ∃ i ∈ refs, current = i + j + 1)) := by
  induction refs generalizing set with
  | nil => simp [range]
  | cons i refs ih =>
    have hrefs : ∀ j ∈ refs, j ≤ current := (forall_mem_cons.mp hle).2
    have hi := hle i mem_cons_self
    rw [range]
    split_ifs with h
    · rw [ih hset hrefs]
      have hne : current ≠ i + j + 1 := by omega
      simp [hne]
    · have hlt : i < set.index := by omega
      have hadd : (set.add i).1.range.getLsbD j = (set.range.getLsbD j || decide (j < rangeSize ∧ current = i + j + 1)) := by
        rw [add_below hlt, hset]
        split_ifs with h'
        · have : ¬(j < rangeSize ∧ current = i + j + 1) := by omega
          simp [this]
        · have hd : (current - i = j + 1) ↔ current = i + j + 1 := by omega
          simp only [BitVec.getLsbD_or, bit_shifted (show 0 < current - i by omega), hd]
      rw [ih ((add_index hlt).trans hset) hrefs, hadd]
      by_cases hj : j < rangeSize <;> simp [hj, Bool.or_assoc]

theorem getStreamRangeOverflow_iff : refs.getStreamRangeOverflow = true ↔ ∃ i ∈ refs, rangeSize < refs.last - i := by
  have h : overflow refs.last ⟨refs.last, 0⟩ refs = true ↔ ∃ i ∈ refs, rangeSize < refs.last - i :=
    overflow_iff rfl fun i hi => le_last hi
  rw [getStreamRangeOverflow, Bool.and_eq_true, h]
  refine ⟨fun h => h.2, fun h => ⟨?_, h⟩⟩
  obtain ⟨i, hi, -⟩ := h
  rw [List.isEmpty_eq_false_iff.mpr (List.ne_nil_of_mem hi)]
  rfl

theorem getStreamRange_bit (j : Nat) : refs.getStreamRange.getLsbD j = true ↔ j < rangeSize ∧ ∃ i ∈ refs, refs.last = i + j + 1 := by
  have h := @range_bit refs.last ⟨refs.last, 0⟩ refs rfl (fun i hi => le_last hi) j
  rw [getStreamRange, h]
  simp

/-- A set that fits into a range is known by its range and its last index. -/
theorem subset_of_range {refs' : Indexes} (hne : refs ≠ []) (hlast : refs.last = refs'.last)
    (hrange : refs.getStreamRange = refs'.getStreamRange) (hfits : refs'.getStreamRangeOverflow = false) {index : Nat}
    (h : index ∈ refs') : index ∈ refs := by
  have hle : index ≤ refs.last := hlast ▸ le_last h
  rcases Nat.lt_or_eq_of_le hle with hlt | rfl
  · have hnear : ¬rangeSize < refs.last - index := by
      intro hfar
      rw [getStreamRangeOverflow_iff.mpr ⟨index, h, hlast ▸ hfar⟩] at hfits
      cases hfits
    obtain ⟨j, hj⟩ : ∃ j, refs.last = index + j + 1 := ⟨refs.last - index - 1, by omega⟩
    have hbit := (getStreamRange_bit j).mpr ⟨by omega, index, h, hlast ▸ hj⟩
    rw [← hrange, getStreamRange_bit] at hbit
    obtain ⟨-, i, hi, hij⟩ := hbit
    have : i = index := by omega
    exact this ▸ hi
  · exact last_mem hne

theorem fits_singleton (index : Nat) : getStreamRangeOverflow [index] = false := by
  have h : last [index] = index := Nat.max_zero index
  simp [getStreamRangeOverflow, overflow, h]

theorem mem_addStreamIndex {index i : Nat} : i ∈ refs.addStreamIndex index ↔ i = index ∨ i ∈ refs := List.mem_insert_iff

end Indexes

/-! ## What an index cycle notes -/

variable {refs : Indexes} {i : Nat}

theorem markSegment_mem {index : Nat} : i ∈ (markSegment refs index).1 ↔ i = index ∨ i ∈ refs := by
  rw [markSegment]
  split_ifs <;> exact Indexes.mem_addStreamIndex

theorem markSegment_fits {index : Nat} (h : (markSegment refs index).2 = false) :
    (markSegment refs index).1.getStreamRangeOverflow = false := by
  rw [markSegment] at h ⊢
  split_ifs at h ⊢ with hempty
  · rw [List.isEmpty_iff.mp hempty]
    exact Indexes.fits_singleton index
  · exact h

/-- An index cycle changes no version, and settles only what it has noted. -/
structure Settles (refs : Indexes) (story story' : StoryLine) : Prop where
  pending : story'.pending = story.pending
  nonempty : story'.committed.isEmpty = story.committed.isEmpty
  newest : ∀ {v'}, story'.newest = some v' → ∃ v, story.newest = some v ∧ v'.fileIndex = v.fileIndex ∧ v'.deleting = v.deleting ∧
    (v'.settled = true → v.settled = true ∨ v'.deleting = false ∧ v'.fileIndex ∈ refs)

theorem Settles.refl (story : StoryLine) : Settles refs story story where
  pending := rfl
  nonempty := rfl
  newest := fun h => ⟨_, h, rfl, rfl, Or.inl⟩

variable {refs' : Indexes} {story : StoryLine}

theorem Settles.mono {story' : StoryLine} (h : Settles refs story story') (hsub : ∀ i ∈ refs, i ∈ refs') :
    Settles refs' story story' where
  pending := h.pending
  nonempty := h.nonempty
  newest := fun hv => by
    obtain ⟨v, h1, h2, h3, h4⟩ := h.newest hv
    exact ⟨v, h1, h2, h3, fun hs => (h4 hs).imp_right fun ⟨hd, hm⟩ => ⟨hd, hsub _ hm⟩⟩

theorem Settles.trans {s1 s2 s3 : StoryLine} (h : Settles refs s1 s2) (h' : Settles refs s2 s3) : Settles refs s1 s3 where
  pending := h'.pending.trans h.pending
  nonempty := h'.nonempty.trans h.nonempty
  newest := fun hv => by
    obtain ⟨v2, h1, h2, h3, h4⟩ := h'.newest hv
    obtain ⟨v1, k1, k2, k3, k4⟩ := h.newest h1
    refine ⟨v1, k1, h2.trans k2, h3.trans k3, fun hs => ?_⟩
    rcases h4 hs with hs2 | hnew
    · rw [h3, h2]
      exact k4 hs2
    · exact Or.inr hnew

/-- The file of the newest value is noted, unless a transaction has gone past it. -/
def Seen (refs : Indexes) (story : StoryLine) : Prop :=
  story.pending = [] → ∀ v, story.newest = some v → v.deleting = false → v.fileIndex ∈ refs

/-- One key of the walk. -/
structure Pins (refs : Indexes) (story : StoryLine) (refs' : Indexes) (story' : StoryLine) : Prop where
  settles : Settles refs' story story'
  seen : Seen refs' story'
  kept : ∀ i ∈ refs, i ∈ refs'

theorem keySpacePinning_same
    (h : story.pending ≠ [] ∨ ∀ v, story.newest = some v → v.deleting = true) : keySpacePinning refs story = (story, refs, false) := by
  obtain ⟨committed, pending⟩ := story
  unfold keySpacePinning
  rcases committed with _ | ⟨v, rest⟩
  · rfl
  · rcases pending with _ | ⟨p, pending⟩
    · have hd : v.deleting = true := h.resolve_left (fun hp => hp rfl) v rfl
      simp only [hd, if_true]
    · rfl

theorem Pins.same (h : story.pending ≠ [] ∨ ∀ v, story.newest = some v → v.deleting = true) :
    Pins refs story refs story where
  settles := .refl story
  seen := fun hp v hv hd => by
    rw [h.resolve_left (fun hne => hne hp) v hv] at hd
    cases hd
  kept := fun _ hi => hi

theorem keySpacePinning_pins (refs : Indexes) (story : StoryLine) :
    Pins refs story (keySpacePinning refs story).2.1 (keySpacePinning refs story).1 := by
  by_cases h : story.pending ≠ [] ∨ ∀ v, story.newest = some v → v.deleting = true
  · rw [keySpacePinning_same h]
    exact .same h
  · obtain ⟨committed, pending⟩ := story
    simp only [not_or, not_not, not_forall, StoryLine.newest] at h
    obtain ⟨rfl, v, hv, hd⟩ := h
    obtain ⟨rest, rfl⟩ := List.head?_eq_some_iff.mp hv
    have hmem {i : Nat} : i ∈ (if refs.contains v.fileIndex then (refs, false) else markSegment refs v.fileIndex).1 ↔ i = v.fileIndex ∨ i ∈ refs := by
      split_ifs with hc
      · rw [List.contains_iff_mem] at hc
        exact ⟨Or.inr, fun hi => hi.elim (fun he => he ▸ hc) id⟩
      · exact markSegment_mem
    simp only [keySpacePinning, hd, Bool.false_eq_true, if_false]
    refine ⟨⟨rfl, rfl, fun hw => ?_⟩, fun _ w hw _ => ?_, fun i hi => hmem.mpr (Or.inr hi)⟩
    · cases hw
      exact ⟨v, rfl, rfl, (Bool.eq_false_iff.mpr hd).symm, fun _ => Or.inr ⟨rfl, hmem.mpr (Or.inl rfl)⟩⟩
    · cases hw
      exact hmem.mpr (Or.inl rfl)

theorem keySpacePinning_fits (h : (keySpacePinning refs story).2.2 = false)
    (hf : refs.getStreamRangeOverflow = false) : (keySpacePinning refs story).2.1.getStreamRangeOverflow = false := by
  unfold keySpacePinning at h ⊢
  split at h <;> try exact hf
  split_ifs at h ⊢ <;> try exact hf
  exact markSegment_fits h

variable (checkpointMode rebuild : Bool)

theorem processInfo_spec (refs : Indexes) (story : StoryLine) :
    ∃ action, processInfo checkpointMode rebuild refs story = ((keySpacePinning refs story).1, (keySpacePinning refs story).2.1, action) ∧
      (action ≠ .roll → (keySpacePinning refs story).2.2 = false) ∧ (action = .done → story.pending ≠ []) ∧
      (action = .retry → rebuild = false) := by
  have hsettles := (keySpacePinning_pins refs story).settles
  unfold processInfo
  by_cases hempty : (story.committed.isEmpty && story.pending.isEmpty) = true
  · obtain ⟨hc, -⟩ := Bool.and_eq_true_iff.mp hempty
    have hpin : keySpacePinning refs story = (story, refs, false) := by
      rw [keySpacePinning, List.isEmpty_iff.mp hc]
    rw [if_pos hempty, hpin]
    cases rebuild <;> simp
  · rw [if_neg hempty]
    rcases hpin : keySpacePinning refs story with ⟨story', refs', roll⟩
    rw [hpin] at hsettles
    cases roll with
    | true => exact ⟨.roll, rfl, fun h => absurd rfl h, fun h => (by cases h), fun h => (by cases h)⟩
    | false =>
      by_cases hw : keyWriteAccess checkpointMode rebuild story' = true
      · refine ⟨if story'.newest.any Committed.deleting && !rebuild then .retry else .next, by simp [hw], fun _ => rfl, ?_, ?_⟩
        · split_ifs <;> intro h <;> cases h
        · split_ifs with hr
          · exact fun _ => by simpa using (Bool.and_eq_true_iff.mp hr).2
          · intro h
            cases h
      · refine ⟨if rebuild then .done else .next, by simp [hw], fun _ => rfl, fun _ hp => hw ?_, fun h => ?_⟩
        · -- the root is committed, or something would be pending
          have hpending : story'.pending = [] := hsettles.pending.trans hp
          have hcommitted : story'.committed.isEmpty = false := by
            rw [hsettles.nonempty]
            simpa [hp] using hempty
          simp [keyWriteAccess, hpending, hcommitted]
        · cases rebuild <;> cases h

theorem Seen.mono (h : Seen refs story) (hsub : ∀ i ∈ refs, i ∈ refs') : Seen refs' story :=
  fun hp v hv hd => hsub _ (h hp v hv hd)

/-- A walk over the entries of a segment, to its end or not. -/
structure Walked (refs : Indexes) (entries : List (K × StoryLine)) (refs' : Indexes) (entries' : List (K × StoryLine)) : Prop where
  settles : ∀ e' ∈ entries', ∃ e ∈ entries, Settles refs' e.2 e'.2
  kept : ∀ i ∈ refs, i ∈ refs'

theorem Walked.same (refs : Indexes) (entries : List (K × StoryLine)) : Walked refs entries refs entries where
  settles := fun e he => ⟨e, he, .refl e.2⟩
  kept := fun _ hi => hi

theorem Walked.trans {refs'' : Indexes} {es es' es'' : List (K × StoryLine)} (h : Walked refs es refs' es')
    (h' : Walked refs' es' refs'' es'') : Walked refs es refs'' es'' where
  settles := fun e'' he'' => by
    obtain ⟨e', he', hs'⟩ := h'.settles e'' he''
    obtain ⟨e, he, hs⟩ := h.settles e' he'
    exact ⟨e, he, (hs.mono h'.kept).trans hs'⟩
  kept := fun i hi => h'.kept i (h.kept i hi)

variable {key : K}

theorem Walked.cons {refs1 refs2 : Indexes} {story' : StoryLine} {es es' : List (K × StoryLine)}
    (h : Pins refs story refs1 story') (h' : Walked refs1 es refs2 es') : Walked refs ((key, story) :: es) refs2 ((key, story') :: es') where
  settles := fun e' he' => by
    rcases mem_cons.mp he' with rfl | he'
    · exact ⟨(key, story), mem_cons_self, h.settles.mono h'.kept⟩
    · obtain ⟨e, he, hs⟩ := h'.settles e' he'
      exact ⟨e, mem_cons_of_mem _ he, hs⟩
  kept := fun i hi => h'.kept i (h.kept i hi)

theorem walkSegment_spec (refs : Indexes) (entries : List (K × StoryLine)) :
    ∃ entries' refs' action, walkSegment checkpointMode rebuild refs entries = (entries', refs', action) ∧ Walked refs entries refs' entries' ∧
      (action ≠ .roll → refs.getStreamRangeOverflow = false → refs'.getStreamRangeOverflow = false) ∧
      (action = .next → ∀ e' ∈ entries', Seen refs' e'.2) ∧ (action = .done → ∃ e' ∈ entries', e'.2.pending ≠ []) ∧
      (action = .retry → rebuild = false) := by
  induction entries generalizing refs with
  | nil =>
    exact ⟨[], refs, .next, rfl, .same _ _, fun _ hf => hf, fun _ e he => absurd he not_mem_nil, fun h => (by cases h), fun h => (by cases h)⟩
  | cons e entries ih =>
    obtain ⟨key, story⟩ := e
    obtain ⟨action, hinfo, hroll, hdone, hretry⟩ := processInfo_spec checkpointMode rebuild refs story
    have hpins := keySpacePinning_pins refs story
    rw [walkSegment, hinfo]
    by_cases hnext : action = .next
    · subst hnext
      obtain ⟨entries', refs', action, hwalk, hwalked, hfits, hall, hd, hr⟩ := ih (keySpacePinning refs story).2.1
      refine ⟨(key, (keySpacePinning refs story).1) :: entries', refs', action, by simp only [hwalk], .cons hpins hwalked, ?_, ?_, ?_, hr⟩
      · exact fun ha hf => hfits ha (keySpacePinning_fits (hroll (by simp)) hf)
      · intro ha e' he'
        rcases mem_cons.mp he' with rfl | he'
        · exact hpins.seen.mono hwalked.kept
        · exact hall ha e' he'
      · intro ha
        obtain ⟨e', he', hp⟩ := hd ha
        exact ⟨e', mem_cons_of_mem _ he', hp⟩
    · refine ⟨(key, (keySpacePinning refs story).1) :: entries, (keySpacePinning refs story).2.1, action, ?_, .cons hpins (.same _ _), ?_, ?_, ?_, hretry⟩
      · cases action <;> first | rfl | exact absurd rfl hnext
      · exact fun ha hf => keySpacePinning_fits (hroll ha) hf
      · exact fun ha => absurd ha hnext
      · exact fun ha => ⟨_, mem_cons_self, fun hp => hdone ha (hpins.settles.pending.symm.trans hp)⟩

/-- An index cycle of a segment nothing is pending in notes all its files, if it does not find that it has to be rolled. -/
theorem indexSegment_spec (segment : Segment K) :
    let segment' := indexSegment checkpointMode rebuild segment
    Walked segment.streamIndexes segment.entries segment'.streamIndexes segment'.entries ∧
      (segment'.rolling = false → segment.streamIndexes.getStreamRangeOverflow = false → segment'.streamIndexes.getStreamRangeOverflow = false) ∧
      (segment'.rolling = false → (∀ e ∈ segment'.entries, e.2.pending = []) → ∀ e ∈ segment'.entries, Seen segment'.streamIndexes e.2) := by
  obtain ⟨es, refs, action, hwalk, hwalked, hfits, hall, hdone, hretry⟩ :=
    walkSegment_spec checkpointMode rebuild segment.streamIndexes segment.entries
  unfold indexSegment
  rw [hwalk]
  by_cases ha : action = .retry
  · subst ha
    obtain ⟨es2, refs2, action2, hwalk2, hwalked2, hfits2, hall2, hdone2, hretry2⟩ :=
      walkSegment_spec checkpointMode true refs es
    simp only [hwalk2]
    refine ⟨hwalked.trans hwalked2, fun hroll hf => hfits2 (by simpa using hroll) (hfits (by simp) hf), fun hroll hp => ?_⟩
    cases action2 with
    | next => exact hall2 rfl
    | done =>
      obtain ⟨e, he, hne⟩ := hdone2 rfl
      exact absurd (hp e he) hne
    | retry => cases hretry2 rfl
    | roll => cases hroll
  · have hmatch : (match (es, refs, action) with
        | (entries, refs, .retry) =>
          let (entries, refs, action) := walkSegment checkpointMode true refs entries
          ⟨entries, refs, action == .roll⟩
        | (entries, refs, action) => ⟨entries, refs, action == .roll⟩ : Segment K) = ⟨es, refs, action == .roll⟩ := by
      cases action <;> first | rfl | exact absurd rfl ha
    rw [hmatch]
    refine ⟨hwalked, fun hroll hf => hfits (by simpa using hroll) hf, fun hroll hp => ?_⟩
    cases action with
    | next => exact hall rfl
    | done =>
      obtain ⟨e, he, hne⟩ := hdone rfl
      exact absurd (hp e he) hne
    | retry => exact absurd rfl ha
    | roll => cases hroll

/-! ## What every step keeps -/

structure Kept (segment : Segment K) : Prop where
  noted : ∀ e ∈ segment.entries, ∀ v, e.2.newest = some v → v.settled = true → v.fileIndex ∈ segment.streamIndexes ∧ v.deleting = false
  fits : segment.rolling = false → segment.streamIndexes.getStreamRangeOverflow = false

variable {checkpointMode rebuild : Bool}

variable {segment : Segment K}

theorem Kept.index (h : Kept segment) (hroll : segment.rolling = false) :
    Kept (indexSegment checkpointMode rebuild segment) := by
  obtain ⟨hwalked, hfits, -⟩ := indexSegment_spec checkpointMode rebuild segment
  refine ⟨fun e' he' v' hv' hs' => ?_, fun hr => hfits hr (h.fits hroll)⟩
  obtain ⟨e, he, hsettles⟩ := hwalked.settles e' he'
  obtain ⟨v, hv, hfile, hdel, hs⟩ := hsettles.newest hv'
  rcases hs hs' with hold | ⟨hd, hmem⟩
  · obtain ⟨hmem, hd⟩ := h.noted e he v hv hold
    exact ⟨hfile ▸ hwalked.kept _ hmem, hdel.trans hd⟩
  · exact ⟨hmem, hd⟩

/-- A change of the versions of a key, none of which is settled by it. -/
theorem Kept.entries (h : Kept segment) {entries : List (K × StoryLine)}
    (hnew : ∀ e' ∈ entries, ∀ v, e'.2.newest = some v → v.settled = true → ∃ e ∈ segment.entries, e.2.newest = some v) :
    Kept { segment with entries := entries } where
  noted := fun e' he' v hv hs => by
    obtain ⟨e, he, hv'⟩ := hnew e' he' v hv hs
    exact h.noted e he v hv' hs
  fits := h.fits

theorem StoryLine.newest_prewrite (fileIndex : Nat) (story : StoryLine) : (story.prewrite fileIndex).newest = story.newest := by
  unfold StoryLine.prewrite
  split <;> rfl

theorem StoryLine.newest_commit {fileIndex : Nat} {v : Committed} (h : (story.commit fileIndex).newest = some v)
    (hs : v.settled = true) : story.newest = some v := by
  unfold StoryLine.commit at h
  split at h
  · cases h
    cases hs
  · exact h

theorem StoryLine.newest_deleteUnviewed (viewed : Nat) (story : StoryLine) : (story.deleteUnviewed viewed).newest = story.newest := by
  unfold StoryLine.deleteUnviewed StoryLine.newest
  rw [List.head?_take, if_neg (Nat.succ_ne_zero viewed)]

section Rollover

variable {P : Streams → Prop} {Q : Nat → Prop} (hadd : ∀ {i st st'}, P st → st.addStreamFile i = some st' → P st')
  (hroll : ∀ {st} r, P st → P { st with rollIndex := r }) (hQ : ∀ {st}, P st → Q st.streamIndex) {turn : K → Option Nat}

include hadd hroll hQ

/-- What a rollover writes is in a stream file of its time, and the rest is deleted. -/
theorem rollEntries_spec {es es' : List (K × StoryLine)} {st st' : Streams} (hst : P st) (h : rollEntries turn es st = some (es', st')) :
    P st' ∧ ∀ e' ∈ es', ∀ v, e'.2.newest = some v → v.settled = false ∧ Q v.fileIndex ∨ v.deleting = true ∧ ∃ e ∈ es, e.2.newest = some v := by
  induction es generalizing st es' st' with
  | nil =>
    cases h
    exact ⟨hst, fun e he => absurd he not_mem_nil⟩
  | cons e es ih =>
    obtain ⟨key, story⟩ := e
    have hsame {p : List (K × StoryLine) × Streams} (hp : rollEntries turn es st = some p)
        (hd : ∀ v, story.newest = some v → v.deleting = true) : P p.2 ∧ ∀ e' ∈ (key, story) :: p.1, ∀ v, e'.2.newest = some v →
          v.settled = false ∧ Q v.fileIndex ∨ v.deleting = true ∧ ∃ e ∈ (key, story) :: es, e.2.newest = some v := by
      obtain ⟨hP, hes⟩ := ih hst hp
      refine ⟨hP, fun e' he' v hv => ?_⟩
      rcases mem_cons.mp he' with rfl | he'
      · exact Or.inr ⟨hd v hv, _, mem_cons_self, hv⟩
      · refine (hes e' he' v hv).imp_right fun ⟨hdel, e, he, hv⟩ => ⟨hdel, e, mem_cons_of_mem _ he, hv⟩
    unfold rollEntries at h
    split at h
    next v hv =>
      split_ifs at h with hd hp
      · obtain ⟨p, hp, hpe⟩ := map_eq_some_iff.mp h
        cases hpe
        refine hsame hp fun w hw => ?_
        cases hv.symm.trans hw
        exact hd
      · obtain ⟨st1, hst1, h⟩ := bind_eq_some_iff.mp h
        obtain ⟨⟨es1, st2⟩, hrec, h⟩ := bind_eq_some_iff.mp h
        cases h
        have hP1 : P st1 := by
          cases hturn : turn key with
          | none =>
            rw [hturn] at hst1
            cases hst1
            exact hst
          | some i =>
            rw [hturn] at hst1
            exact hadd hst hst1
        obtain ⟨hP, hes⟩ := ih (hroll _ hP1) hrec
        refine ⟨hP, fun e' he' w hw => ?_⟩
        rcases mem_cons.mp he' with rfl | he'
        · cases hw
          exact Or.inl ⟨rfl, hQ hP1⟩
        · refine (hes e' he' w hw).imp_right fun ⟨hdel, e, he, hv⟩ => ⟨hdel, e, mem_cons_of_mem _ he, hv⟩
    next hnone =>
      obtain ⟨p, hp, hpe⟩ := map_eq_some_iff.mp h
      cases hpe
      exact hsame hp fun w hw => by cases hnone.symm.trans hw

/-- A rolled segment starts with one file, and nothing is settled in it. -/
theorem rolloverSegment_spec {segment segment' : Segment K} {st st' : Streams} (hst : P st) (hk : Kept segment)
    (h : rolloverSegment turn segment st = some (segment', st')) :
    P st' ∧ segment'.rolling = false ∧ Kept segment' ∧ ∀ e ∈ segment'.entries, ∀ v, e.2.newest = some v → v.settled = false ∧ (v.deleting = false → Q v.fileIndex) := by
  obtain ⟨⟨es, st1⟩, hroll', hp⟩ := map_eq_some_iff.mp h
  cases hp
  obtain ⟨hP, hes⟩ := rollEntries_spec hadd hroll hQ hst hroll'
  have hall : ∀ e ∈ es, ∀ v, e.2.newest = some v → v.settled = false ∧ (v.deleting = false → Q v.fileIndex) := by
    intro e he v hv
    rcases hes e he v hv with ⟨hs, hq⟩ | ⟨hd, e0, he0, hv0⟩
    · exact ⟨hs, fun _ => hq⟩
    · refine ⟨Bool.eq_false_iff.mpr fun hs => ?_, fun hd' => ?_⟩
      · have := (hk.noted e0 he0 v hv0 hs).2
        rw [hd] at this
        cases this
      · rw [hd] at hd'
        cases hd'
  refine ⟨hP, rfl, ⟨fun e he v hv hs => ?_, fun _ => Indexes.fits_singleton _⟩, hall⟩
  rw [(hall e he v hv).1] at hs
  cases hs

end Rollover

/-! ## Reorganization -/

/-- What is settled in a segment is in other files. -/
def Away (file : Nat) (segment : Segment K) : Prop :=
  ∀ e ∈ segment.entries, ∀ v, e.2.newest = some v → v.settled = true → v.fileIndex ≠ file

variable {file : Nat}

theorem Kept.away (h : Kept segment) (hfile : segment.hasStreamIndex file = false) : Away file segment := by
  intro e he v hv hs heq
  have hmem := (h.noted e he v hv hs).1
  rw [heq] at hmem
  rw [Segment.hasStreamIndex, List.contains_iff_mem.mpr hmem] at hfile
  cases hfile

theorem addStreamFile_ne {index : Nat} {st st' : Streams} (hfile : file ∈ st.vrtWriteFileList) (h : st.addStreamFile index = some st') :
    file ∈ st'.vrtWriteFileList ∧ st'.streamIndex ≠ file := by
  unfold Streams.addStreamFile at h
  split_ifs at h with hmem
  cases h
  refine ⟨mem_cons_of_mem _ hfile, fun heq => hmem ?_⟩
  have heq : index = file := heq
  rw [heq]
  exact hfile

theorem orderSegments_spec {turn : K → Option Nat} {segments segments' : List (Segment K)} {st st' : Streams}
    (hk : ∀ segment ∈ segments, Kept segment) (hfile : file ∈ st.vrtWriteFileList)
    (hgone : segments.any (·.hasStreamIndex file) = true → st.streamIndex ≠ file)
    (h : orderSegments checkpointMode file turn segments st = some (segments', st')) :
    file ∈ st'.vrtWriteFileList ∧ ∀ segment ∈ segments', Kept segment ∧ Away file segment := by
  induction segments generalizing st segments' st' with
  | nil =>
    cases h
    exact ⟨hfile, fun e he => absurd he not_mem_nil⟩
  | cons segment segments ih =>
    have hks : ∀ s ∈ segments, Kept s := (forall_mem_cons.mp hk).2
    unfold orderSegments at h
    split_ifs at h with hc
    · have hne : st.streamIndex ≠ file := hgone (by rw [List.any_cons, hc]; rfl)
      obtain ⟨⟨segment1, st1⟩, hroll, h⟩ := bind_eq_some_iff.mp h
      obtain ⟨⟨segments1, st2⟩, hrec, h⟩ := bind_eq_some_iff.mp h
      cases h
      obtain ⟨⟨hfile1, hne1⟩, hrolling, hk1, hall⟩ := rolloverSegment_spec (P := fun st => file ∈ st.vrtWriteFileList ∧ st.streamIndex ≠ file)
        (Q := (· ≠ file)) (fun hP hadd => addStreamFile_ne hP.1 hadd) (fun _ hP => hP) (fun hP => hP.2) ⟨hfile, hne⟩
        (hk segment mem_cons_self) hroll
      obtain ⟨hfile2, hsegs⟩ := ih hks hfile1 (fun _ => hne1) hrec
      refine ⟨hfile2, fun s hs => ?_⟩
      rcases mem_cons.mp hs with rfl | hs
      · refine ⟨hk1.index hrolling, fun e' he' v' hv' hs' => ?_⟩
        obtain ⟨hwalked, -, -⟩ := indexSegment_spec checkpointMode true segment1
        obtain ⟨e, he, hsettles⟩ := hwalked.settles e' he'
        obtain ⟨v, hv, hfile', hdel, hs⟩ := hsettles.newest hv'
        obtain ⟨hun, hq⟩ := hall e he v hv
        rcases hs hs' with hold | ⟨hd, -⟩
        · rw [hun] at hold
          cases hold
        · rw [hfile']
          exact hq (hdel.symm.trans hd)
      · exact hsegs s hs
    · obtain ⟨⟨segments1, st1⟩, hrec, hp⟩ := map_eq_some_iff.mp h
      cases hp
      obtain ⟨hfile', hsegs⟩ := ih hks hfile (fun ha => hgone (by rw [List.any_cons, ha, Bool.or_true])) hrec
      refine ⟨hfile', fun s hs => ?_⟩
      rcases mem_cons.mp hs with rfl | hs
      · exact ⟨hk s mem_cons_self, (hk s mem_cons_self).away (Bool.eq_false_iff.mpr hc)⟩
      · exact hsegs s hs

variable {map map' : RealTimeMap K}

theorem reorganizeFiles_spec {wfile fresh : Nat} {turn : K → Option Nat} (hk : ∀ segment ∈ map.segments, Kept segment)
    (h : reorganizeFiles checkpointMode wfile fresh turn map = some map') :
    wfile ∉ map'.streams.vrtWriteFileList ∧ ∀ segment ∈ map'.segments, Kept segment ∧ Away wfile segment := by
  unfold reorganizeFiles at h
  split_ifs at h with hguard
  obtain ⟨hfile, -⟩ := not_or.mp hguard
  rw [not_not] at hfile
  obtain ⟨st1, hst1, h⟩ := bind_eq_some_iff.mp h
  obtain ⟨⟨segments, st2⟩, horder, h⟩ := bind_eq_some_iff.mp h
  obtain ⟨st3, hst3, h⟩ := bind_eq_some_iff.mp h
  cases h
  have hready : wfile ∈ st1.vrtWriteFileList ∧ (map.segments.any (·.hasStreamIndex wfile) = true → st1.streamIndex ≠ wfile) := by
    unfold Streams.leaveFile at hst1
    split_ifs at hst1 with hc
    · exact (addStreamFile_ne hfile hst1).imp_right fun hne _ => hne
    · cases hst1
      refine ⟨hfile, fun hany heq => hc ?_⟩
      rw [hany, heq]
      simp
  obtain ⟨-, hsegs⟩ := orderSegments_spec hk hready.1 hready.2 horder
  exact ⟨by simp, hsegs⟩

/-! ## Runs -/

/-- The comparison a merge means to make. -/
def RangesCompared (map : RealTimeMap K) : Event K → Prop
  | .merge i => map.segments[i]?.map (·.streamIndexes.getStreamRange) = map.segments[i + 1]?.map (·.streamIndexes.getStreamRange)
  | _ => True

theorem mem_modify {α : Type} {l : List α} {f : α → α} {a : α} (h : a ∈ l.modify i f) : a ∈ l ∨ ∃ b, l[i]? = some b ∧ a = f b := by
  obtain ⟨j, hj⟩ := List.mem_iff_getElem?.mp h
  rw [List.getElem?_modify] at hj
  obtain ⟨b, hb, hab⟩ := map_eq_some_iff.mp hj
  split_ifs at hab with hij
  · exact Or.inr ⟨b, hij ▸ hb, hab.symm⟩
  · exact Or.inl (hab ▸ List.mem_of_getElem? hb)

theorem mem_insertIdx {α : Type} {l : List α} {a b : α} (h : a ∈ l.insertIdx i b) : a = b ∨ a ∈ l := by
  rcases Nat.lt_or_ge l.length i with hi | hi
  · rw [List.insertIdx_of_length_lt hi] at h
    exact Or.inr h
  · exact (List.mem_insertIdx hi).mp h

theorem onSegment_kept (hk : ∀ segment ∈ map.segments, Kept segment) {f : Segment K → Segment K}
    (hf : ∀ segment, map.segments[i]? = some segment → Kept segment → Kept (f segment)) (h : map.onSegment i f = some map') :
    ∀ segment ∈ map'.segments, Kept segment := by
  unfold RealTimeMap.onSegment at h
  split_ifs at h
  cases h
  intro segment hs
  rcases mem_modify hs with hs | ⟨b, hb, rfl⟩
  · exact hk segment hs
  · exact hf b hb (hk b (List.mem_of_getElem? hb))

variable [DecidableEq K]

theorem onStoryLine_kept (hk : ∀ segment ∈ map.segments, Kept segment) {f : StoryLine → StoryLine}
    (hf : ∀ story v, (f story).newest = some v → v.settled = true → story.newest = some v) (h : map.onStoryLine i key f = some map') :
    ∀ segment ∈ map'.segments, Kept segment := by
  refine onSegment_kept hk (fun segment _ hs => hs.entries fun e' he' v hv hset => ?_) h
  obtain ⟨e, he, rfl⟩ := List.mem_map.mp he'
  split_ifs at hv with hkey
  · exact ⟨e, he, hf e.2 v hv hset⟩
  · exact ⟨e, he, hv⟩

theorem putEntry_newest {deleting : Bool} {entries : List (K × StoryLine)} {e' : K × StoryLine}
    (he' : e' ∈ RealTimeMap.putEntry key deleting entries) {v : Committed} (hv : e'.2.newest = some v) :
    ∃ e ∈ entries, e.2.newest = some v := by
  unfold RealTimeMap.putEntry at he'
  split_ifs at he'
  · obtain ⟨e, he, rfl⟩ := List.mem_map.mp he'
    refine ⟨e, he, ?_⟩
    split_ifs at hv
    · exact hv
    · exact hv
  · rcases List.mem_append.mp he' with he' | he'
    · exact ⟨e', he', hv⟩
    · rw [mem_singleton.mp he'] at hv
      cases hv

omit [DecidableEq K] in
/-- A merge of segments with the same files keeps what either has noted. -/
theorem Kept.merge {nSegment : Segment K} (h : Kept segment) (h' : Kept nSegment) (hm : mergeFragmentation segment nSegment = true)
    (hrange : segment.streamIndexes.getStreamRange = nSegment.streamIndexes.getStreamRange) : Kept (mergeSegments segment nSegment) := by
  simp only [mergeFragmentation, Bool.and_eq_true, beq_iff_eq, Bool.not_eq_true', Bool.or_eq_true] at hm
  obtain ⟨⟨⟨hempty, -⟩, hrolling⟩, hlast⟩ := hm
  refine ⟨fun e he v hv hs => ?_, h.fits⟩
  rcases List.mem_append.mp he with he | he
  · exact h.noted e he v hv hs
  · obtain ⟨hmem, hd⟩ := h'.noted e he v hv hs
    refine ⟨?_, hd⟩
    have hne' : nSegment.streamIndexes.isEmpty = false := List.isEmpty_eq_false_iff.mpr (List.ne_nil_of_mem hmem)
    have hne : segment.streamIndexes.isEmpty = false := hempty.trans hne'
    rcases hlast with hnil | ⟨hlast, -⟩
    · rw [hne] at hnil
      cases hnil
    · exact Indexes.subset_of_range (List.isEmpty_eq_false_iff.mp hne) hlast hrange (h'.fits hrolling) hmem

omit [DecidableEq K] in
/-- The range of a segment that may be split needs no mending, so both parts take all its files. -/
theorem Kept.split (h : Kept segment) (hrolling : segment.rolling = false) :
    Kept (splitSegment segment).1 ∧ Kept (splitSegment segment).2 := by
  have hfits := h.fits hrolling
  simp only [splitSegment, hfits, Bool.false_eq_true, if_false]
  exact ⟨h.entries fun e he v hv _ => ⟨e, List.mem_of_mem_take he, hv⟩,
    ⟨fun e he v hv hs => h.noted e (List.mem_of_mem_drop he) v hv hs, fun _ => hfits⟩⟩

theorem step_kept {e : Event K} (hk : ∀ segment ∈ map.segments, Kept segment) (hok : RangesCompared map e)
    (h : step checkpointMode map e = some map') : ∀ segment ∈ map'.segments, Kept segment := by
  cases e with
  | initSegment i =>
    cases h
    intro segment hs
    rcases mem_insertIdx hs with rfl | hs
    · exact ⟨fun e he => absurd he not_mem_nil, fun _ => rfl⟩
    · exact hk segment hs
  | put i key deleting => exact onSegment_kept hk (fun segment _ hs => hs.entries fun e' he' v hv _ => putEntry_newest he' hv) h
  | prewrite i key => exact onStoryLine_kept hk (fun story v hv _ => by rwa [StoryLine.newest_prewrite] at hv) h
  | commit i key => exact onStoryLine_kept hk (fun story v hv hs => StoryLine.newest_commit hv hs) h
  | rollback i key versions => exact onStoryLine_kept (f := StoryLine.rollback versions) hk (fun story v hv _ => hv) h
  | deleteUnviewed i key viewed => exact onStoryLine_kept hk (fun story v hv _ => by rwa [StoryLine.newest_deleteUnviewed] at hv) h
  | deleteInformation i key =>
    exact onSegment_kept hk (fun segment _ hs => hs.entries fun e' he' v hv _ => ⟨e', List.mem_of_mem_filter he', hv⟩) h
  | deleteSegment i =>
    rw [step] at h
    split_ifs at h
    cases h
    exact fun segment hs => hk segment (List.mem_of_mem_eraseIdx hs)
  | index i rebuild =>
    rw [step] at h
    split_ifs at h with hroll
    refine onSegment_kept hk (fun segment hi hs => hs.index ?_) h
    rw [hi] at hroll
    simpa using hroll
  | rollover i turn =>
    obtain ⟨segment, hi, h⟩ := bind_eq_some_iff.mp h
    obtain ⟨⟨segment', st⟩, hroll, h⟩ := bind_eq_some_iff.mp h
    cases h
    obtain ⟨-, -, hk', -⟩ := rolloverSegment_spec (P := fun _ => True) (Q := fun _ => True) (fun _ _ => trivial) (fun _ _ => trivial)
      (fun _ => trivial) trivial (hk segment (List.mem_of_getElem? hi)) hroll
    intro s hs
    rcases List.mem_or_eq_of_mem_set hs with hs | rfl
    · exact hk s hs
    · exact hk'
  | split i =>
    obtain ⟨segment, hi, h⟩ := bind_eq_some_iff.mp h
    split_ifs at h with hrolling
    cases h
    obtain ⟨h1, h2⟩ := (hk segment (List.mem_of_getElem? hi)).split (Bool.eq_false_iff.mpr hrolling)
    intro s hs
    rcases mem_insertIdx hs with rfl | hs
    · exact h2
    · rcases List.mem_or_eq_of_mem_set hs with hs | rfl
      · exact hk s hs
      · exact h1
  | merge i =>
    obtain ⟨segment, hi, h⟩ := bind_eq_some_iff.mp h
    obtain ⟨nSegment, hn, h⟩ := bind_eq_some_iff.mp h
    split_ifs at h with hm
    cases h
    have hrange : segment.streamIndexes.getStreamRange = nSegment.streamIndexes.getStreamRange := by
      have hok : map.segments[i]?.map (·.streamIndexes.getStreamRange) = map.segments[i + 1]?.map (·.streamIndexes.getStreamRange) := hok
      rw [hi, hn] at hok
      exact Option.some.inj hok
    intro s hs
    rcases List.mem_or_eq_of_mem_set (List.mem_of_mem_eraseIdx hs) with hs | rfl
    · exact hk s hs
    · exact (hk segment (List.mem_of_getElem? hi)).merge (hk nSegment (List.mem_of_getElem? hn)) hm hrange
  | streamFileManagement fresh =>
    obtain ⟨st, -, hst⟩ := map_eq_some_iff.mp h
    cases hst
    exact hk
  | reorganizeFiles wfile fresh turn => exact fun s hs => ((reorganizeFiles_spec hk h).2 s hs).1

theorem reach_kept (h : Reach (step checkpointMode) RangesCompared init map) : ∀ segment ∈ map.segments, Kept segment :=
  h.inv (fun _ hs => absurd hs not_mem_nil) fun hk hok hst => step_kept hk hok hst

/-- In every run, what an index cycle has noted of the newest value of a key stays noted until the next
value, an index cycle notes the file of every value no transaction has gone past, and a reorganization
destroys no file with a noted value in it. -/
theorem references_kept {map : RealTimeMap K} (h : Reach (step checkpointMode) RangesCompared init map) :
    (∀ segment ∈ map.segments, ∀ e ∈ segment.entries, ∀ v, e.2.newest = some v → v.settled = true →
      segment.hasStreamIndex v.fileIndex = true) ∧
    (∀ {i rebuild map' segment}, step checkpointMode map (.index i rebuild) = some map' → map'.segments[i]? = some segment →
      segment.rolling = false → (∀ e ∈ segment.entries, e.2.pending = []) →
      ∀ e ∈ segment.entries, ∀ v, e.2.newest = some v → v.deleting = false → segment.hasStreamIndex v.fileIndex = true) ∧
    ∀ {wfile fresh turn map'}, step checkpointMode map (.reorganizeFiles wfile fresh turn) = some map' →
      wfile ∉ map'.streams.vrtWriteFileList ∧
      ∀ segment ∈ map'.segments, ∀ e ∈ segment.entries, ∀ v, e.2.newest = some v → v.settled = true → v.fileIndex ≠ wfile := by
  have hk := reach_kept h
  refine ⟨fun segment hs e he v hv hset => ?_, fun {i rebuild map' segment} hst hi hroll hp e he v hv hd => ?_,
    fun {wfile fresh turn map'} hst => ?_⟩
  · exact List.contains_iff_mem.mpr ((hk segment hs).noted e he v hv hset).1
  · have hindex : ∃ s, segment = indexSegment checkpointMode rebuild s := by
      rw [step] at hst
      split_ifs at hst
      unfold RealTimeMap.onSegment at hst
      split_ifs at hst with hlt
      cases hst
      rw [List.getElem?_modify] at hi
      obtain ⟨s, -, hs⟩ := map_eq_some_iff.mp hi
      exact ⟨s, (by simpa using hs.symm)⟩
    obtain ⟨s, rfl⟩ := hindex
    obtain ⟨-, -, hall⟩ := indexSegment_spec checkpointMode rebuild s
    exact List.contains_iff_mem.mpr (hall hroll hp e he (hp e he) v hv hd)
  · obtain ⟨hfile, hall⟩ := reorganizeFiles_spec hk hst
    exact ⟨hfile, fun segment hs => (hall segment hs).2⟩

instance (map : RealTimeMap K) : (e : Event K) → Decidable (RangesCompared map e)
  | .merge _ => inferInstanceAs (Decidable (_ = _))
  | .initSegment _ | .put _ _ _ | .prewrite _ _ | .commit _ _ | .rollback _ _ _ | .deleteUnviewed _ _ _ | .deleteInformation _ _
  | .deleteSegment _ | .index _ _ | .rollover _ _ | .split _ | .streamFileManagement _ | .reorganizeFiles _ _ _ => .isTrue trivial

/-- Two keys in two files: the first file is given up once its value has been moved. -/
theorem references_kept_two :
    ∃ map map' : RealTimeMap Nat,
      exec (step false) init [.initSegment 0, .put 0 7 false, .commit 0 7, .streamFileManagement 1, .put 0 8 false, .commit 0 8,
        .index 0 true] = some map ∧
      map.segments = [⟨[(7, ⟨[⟨false, 0, true⟩], []⟩), (8, ⟨[⟨false, 1, true⟩], []⟩)], [1, 0], false⟩] ∧
      (∀ segment ∈ map.segments, ∀ e ∈ segment.entries, ∀ v, e.2.newest = some v → v.settled = true →
        segment.hasStreamIndex v.fileIndex = true) ∧
      step false map (.reorganizeFiles 0 2 fun _ => none) = some map' ∧ 0 ∉ map'.streams.vrtWriteFileList ∧
      ∀ segment ∈ map'.segments, ∀ e ∈ segment.entries, ∀ v, e.2.newest = some v → v.settled = true → v.fileIndex ≠ 0 := by
  obtain ⟨map, hs, hsegs, map', hs'⟩ : ∃ map, exec (guarded (step false) RangesCompared) (init : RealTimeMap Nat) [.initSegment 0, .put 0 7 false,
      .commit 0 7, .streamFileManagement 1, .put 0 8 false, .commit 0 8, .index 0 true] = some map ∧
      map.segments = [⟨[(7, ⟨[⟨false, 0, true⟩], []⟩), (8, ⟨[⟨false, 1, true⟩], []⟩)], [1, 0], false⟩] ∧
      ∃ map', step false map (.reorganizeFiles 0 2 fun _ => none) = some map' := ⟨_, rfl, rfl, _, rfl⟩
  obtain ⟨h1, -, h3⟩ := references_kept (reach_of_exec_guarded _ hs)
  refine ⟨map, map', ?_, hsegs, h1, hs', h3 hs'⟩
  rw [← hs]
  rfl

end DeepFabric.Store.StreamIndexes
