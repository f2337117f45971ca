/-
  DeepFabric.Distributed.SegmentPull — what the master of a segment sends a subscriber who asks for the rows of it
  (SegmentDataManager.cxx: createRequestForSegment, processRequest; VirtualKeySpace.cxx: isolateInformation).

  A subscriber asks for everything it does not have yet of what it knows of: its two viewpoints are the greatest one of
  its virtual representation and the greatest one of its rows. The master goes through its segment in key order, goes
  down the versions of each key to the last committed one within the virtual viewpoint, and sends it, if it is news to
  the subscriber. The requester puts whatever it is sent as a new row.

  - `processRequest_iff`: the request is answered as it should be exactly if it meets `Ok`.
-/
import DeepFabric.Lib.SortedMap
import DeepFabric.Store.Information
import DeepFabric.Distributed.ChangeLog
import DeepFabric.Distributed.VirtualStoryLine

namespace DeepFabric.Distributed.SegmentPull

open DeepFabric.Lib
open DeepFabric.Store (Information levelCommit)
open DeepFabric.Store.Information (Committed Stamped walk viewed)
open ChangeLog (DataLogEntry newEntry)

variable {K : Type} [LinearOrder K]

/-- The value of a version; the bytes may be on disk only. -/
structure Value where
  bytes : List UInt8
  paged : Bool
  fits : bytes.length < 2 ^ 32

def Value.size (x : Value) : UInt32 := UInt32.ofNat x.bytes.length

def Value.getData (x : Value) : Option (List UInt8) := if x.paged then none else some x.bytes

abbrev Chain := List (Information Value)

/-- A segment, as far as a request has to do with it: the versions of each key, and the greatest viewpoint of its rows. -/
structure Segment (K : Type) [LinearOrder K] where
  entries : SortedMap K Chain
  maxRealViewpoint : Nat

inductive DataRequestType where
  | requestNone
  | virtualRequest
  | fullRequest
  | partialRequest
  deriving DecidableEq, Repr

structure DataRequest (K : Type) where
  requestType : DataRequestType
  key : K
  vsize : Int
  maxVirtualViewpoint : Nat
  maxRealViewpoint : Nat

/-- createRequestForSegment; `isVirtual`: the subscriber has none of the segment's rows yet. -/
def createRequestForSegment (isVirtual : Bool) (firstKey : K) (storyLine : VirtualStoryLine.Segment) (maxRealViewpoint : Nat)
    (version : Int) : Except String (DataRequest K) := do
  let vsize ← VirtualStoryLine.isolateVirtualSize storyLine version
  let maxVirtualViewpoint ← VirtualStoryLine.isolateMaxVirtualViewpoint storyLine version
  .ok ⟨if isVirtual then .fullRequest else .partialRequest, firstKey, vsize, maxVirtualViewpoint, maxRealViewpoint⟩

/-- The walk does not look at limits and at the marks of deletion. -/
def isolateInformation (orginfo : Chain) (maxViewpoint : Nat) : Chain :=
  walk (fun info => info.level ≠ levelCommit) (fun info => info.viewpoint ≤ maxViewpoint) (fun _ => false) [] orginfo

/-- The entry for a version. -/
def addEntry (key : K) (info : Information Value) : DataLogEntry K :=
  newEntry .add key info.viewpoint info.data.size info.data.getData

/-- The turns of the loop; `none`: a null pointer is read through. -/
def pull (request : DataRequest K) : List (K × Chain) → Option (List (DataLogEntry K))
  | [] => some []
  | (key, chain) :: rest => do
    let info ← (isolateInformation chain request.maxVirtualViewpoint).head?
    let data ← pull request rest
    if request.maxVirtualViewpoint ≥ info.viewpoint then
      if request.requestType = .fullRequest ∨ request.maxRealViewpoint < info.viewpoint then some (addEntry key info :: data)
      else some data
    else some data

/-- What is returned, if anything is; `some none` is null. -/
def processRequest (segment : Segment K) (request : DataRequest K) : Option (Option (List (DataLogEntry K))) :=
  if request.requestType = .partialRequest ∧ request.maxRealViewpoint = segment.maxRealViewpoint then some none
  else (pull request segment.entries.entries).map some

/-! ## What a request should be answered -/

/-- The key's newest committed version within the viewpoint. -/
def newest (v : Nat) (chain : Chain) : Option (Information Value) :=
  ((chain.takeWhile fun i => i.level = levelCommit).filter fun i => i.viewpoint ≤ v).getLast?

/-- The key was deleted, and before the viewpoint. -/
def ended (v : Nat) (info : Information Value) : Bool := info.deleting && info.limit < v

def visible (v : Nat) (chain : Chain) : Option (Information Value) := (newest v chain).filter fun i => !ended v i

/-- The requester does not have the version. -/
def news (request : DataRequest K) (info : Information Value) : Prop :=
  request.requestType = .fullRequest ∨ request.maxRealViewpoint < info.viewpoint

instance (request : DataRequest K) (info : Information Value) : Decidable (news request info) :=
  inferInstanceAs (Decidable (_ ∨ _))

/-- The version is carried by the entry, all its bytes with it. -/
structure Carries (e : DataLogEntry K) (info : Information Value) : Prop where
  action : e.action = .add
  viewpoint : e.viewpoint = info.viewpoint
  size : e.size = info.data.size
  bytes : e.data.getD [] = info.data.bytes

/-- One entry for each version to be sent, in the order of the keys, and no other entry. -/
structure Served (segment : Segment K) (request : DataRequest K) (data : List (DataLogEntry K)) : Prop where
  ordered : data.Pairwise fun a b => a.key < b.key
  sent : ∀ key chain info, segment.entries.get key = some chain → visible request.maxVirtualViewpoint chain = some info →
    news request info → ∃ e ∈ data, e.key = key
  carried : ∀ e ∈ data, ∃ chain info, segment.entries.get e.key = some chain ∧
    visible request.maxVirtualViewpoint chain = some info ∧ news request info ∧ Carries e info

/-- The request is answered: nothing is read through a null pointer, and a list is as it should be. -/
def Answered (segment : Segment K) (request : DataRequest K) : Option (Option (List (DataLogEntry K))) → Prop
  | none => False
  | some none => True
  | some (some data) => Served segment request data

/-- The version goes to the requester rightly, or not at all. -/
def Sendable (request : DataRequest K) (info : Information Value) : Prop :=
  news request info → ended request.maxVirtualViewpoint info = false ∧ (info.data.paged = true → info.data.bytes = [])

/-- The requester is up to date, or every key has a version as old as the viewpoint that may be sent. -/
def Ok (segment : Segment K) (request : DataRequest K) : Prop :=
  (request.requestType = .partialRequest ∧ request.maxRealViewpoint = segment.maxRealViewpoint) ∨
    ∀ key chain, segment.entries.get key = some chain →
      ∃ info, newest request.maxVirtualViewpoint chain = some info ∧ Sendable request info

/-! ## As built -/

def version (viewpoint limit : Nat) (deleting : Bool) (x : Value) : Information Value :=
  ⟨x, levelCommit, false, false, deleting, viewpoint, limit⟩

/-- A segment of one key with one version. -/
def single (info : Information Value) (maxRealViewpoint : Nat) : Segment Nat := ⟨⟨[(1, [info])], by simp⟩, maxRealViewpoint⟩

def inMemory : Value := ⟨[7], false, by decide⟩

/-- A full request at viewpoint 5 for a row that was inserted at 6. -/
theorem as_built_newer_key : ∃ request : DataRequest Nat, request.requestType = .fullRequest ∧
    ¬Answered (single (version 6 0 false inMemory) 6) request (processRequest (single (version 6 0 false inMemory) 6) request) :=
  ⟨⟨.fullRequest, 1, 0, 5, 0⟩, rfl, fun h => h⟩

/-! ## The walk -/

theorem isolateInformation_newest (chain : Chain) (v : Nat) : (isolateInformation chain v).head? = newest v chain := by
  unfold isolateInformation newest
  rw [Information.head?_walk fun _ _ _ => rfl]
  simp

theorem newest_le {v : Nat} {chain : Chain} {info : Information Value} (h : newest v chain = some info) : info.viewpoint ≤ v := by
  have hmem := List.mem_of_getLast? h
  simpa using (List.mem_filter.mp hmem).2

section Visible
variable {versions writing : Chain} (hc : Committed versions) (hw : ∀ i ∈ writing, i.level ≠ levelCommit)

/-- The versions of a key are stamped in order, so those within a viewpoint are the first ones. -/
theorem filter_stamped (hs : Stamped versions) (v : Nat) :
    (versions.filter fun i => i.viewpoint ≤ v) = versions.takeWhile fun i => i.viewpoint ≤ v := by
  have hdrop : (versions.dropWhile fun i => i.viewpoint ≤ v).filter (fun i => i.viewpoint ≤ v) = [] := by
    apply List.filter_eq_nil_iff.mpr
    intro i hi
    have hv := Information.behind hs hi
    simpa using hv
  have htake : (versions.takeWhile fun i => i.viewpoint ≤ v).filter (fun i => i.viewpoint ≤ v) =
      versions.takeWhile fun i => i.viewpoint ≤ v := by
    apply List.filter_eq_self.mpr
    intro i hi
    simpa using List.mem_takeWhile_imp hi
  conv_lhs => rw [← List.takeWhile_append_dropWhile (p := fun i : Information Value => decide (i.viewpoint ≤ v)) (l := versions)]
  rw [List.filter_append, hdrop, htake, List.append_nil]

include hc hw in
theorem newest_chain (hs : Stamped versions) (v : Nat) :
    newest v (versions ++ writing) = (versions.takeWhile fun i => i.viewpoint ≤ v).getLast? := by
  have hall : ∀ i ∈ versions, decide (i.level = levelCommit) = true := by
    intro i hi
    simpa using hc.level i hi
  unfold newest
  rw [Information.takeWhile_chain hw fun i h => by simpa using h, List.takeWhile_eq_self_iff.mpr hall, filter_stamped hs]

include hc hw in
/-- What is visible of a key is what a reader finds at the viewpoint who does not own the key. -/
theorem visible_version (hs : Stamped versions) (v : Nat) :
    visible v (versions ++ writing) = (Information.checkIsolateLock (versions ++ writing) v .repeatable false).version := by
  rw [Information.version_repeatable hc hw hs, visible, newest_chain hc hw hs, viewed, if_pos rfl]
  rfl

end Visible

/-! ## The loop -/

section Pull
variable {segment : Segment K} {request : DataRequest K} {entries : List (K × Chain)}

/-- What a turn adds for a key that has a version as old as the viewpoint. -/
def turn (request : DataRequest K) (e : K × Chain) : Option (DataLogEntry K) :=
  (newest request.maxVirtualViewpoint e.2).bind fun info => if news request info then some (addEntry e.1 info) else none

omit [LinearOrder K] in
theorem pull_none (h : ∃ e ∈ entries, newest request.maxVirtualViewpoint e.2 = none) : pull request entries = none := by
  obtain ⟨e, he, hnone⟩ := h
  induction entries with
  | nil => exact absurd he List.not_mem_nil
  | cons a rest ih =>
    unfold pull
    rw [isolateInformation_newest]
    rcases List.mem_cons.mp he with rfl | he
    · rw [hnone]
      rfl
    · rw [ih he]
      cases newest request.maxVirtualViewpoint a.2 <;> rfl

omit [LinearOrder K] in
theorem pull_some (h : ∀ e ∈ entries, newest request.maxVirtualViewpoint e.2 ≠ none) :
    pull request entries = some (entries.filterMap (turn request)) := by
  induction entries with
  | nil => rfl
  | cons a rest ih =>
    obtain ⟨info, hinfo⟩ := Option.ne_none_iff_exists'.mp (h a List.mem_cons_self)
    have hle : request.maxVirtualViewpoint ≥ info.viewpoint := newest_le hinfo
    have hrest := ih (List.forall_mem_cons.mp h).2
    unfold pull
    rw [isolateInformation_newest, hinfo, hrest]
    by_cases hn : news request info
    · have hturn : turn request a = some (addEntry a.1 info) := by simp [turn, hinfo, hn]
      rw [List.filterMap_cons_some hturn]
      unfold news at hn
      simp [hle, hn]
    · have hturn : turn request a = none := by simp [turn, hinfo, hn]
      rw [List.filterMap_cons_none hturn]
      unfold news at hn
      simp [hle, hn]

omit [LinearOrder K] in
/-- An entry carries its version unless the version's bytes are on disk only. -/
theorem carries_addEntry {key : K} {info : Information Value} :
    Carries (addEntry key info) info ↔ (info.data.paged = true → info.data.bytes = []) := by
  have hsize : info.data.size = 0 ↔ info.data.bytes = [] := by
    have hlt := info.data.fits
    rw [Value.size, ← UInt32.toNat_inj, UInt32.toNat_ofNat_of_lt' hlt]
    simp
  have hbytes : (addEntry key info).data.getD [] = info.data.bytes ↔ (info.data.paged = true → info.data.bytes = []) := by
    by_cases hz : info.data.size = 0
    · simp [addEntry, newEntry, hz, hsize.mp hz]
    · by_cases hp : info.data.paged = true
      · simp [addEntry, newEntry, hz, Value.getData, hp, eq_comm]
      · simp [addEntry, newEntry, hz, Value.getData, hp]
  constructor
  · intro h
    exact hbytes.mp h.bytes
  · intro h
    exact ⟨rfl, rfl, rfl, hbytes.mpr h⟩

theorem mem_turns {e : DataLogEntry K} : e ∈ segment.entries.entries.filterMap (turn request) ↔
    ∃ key chain info, segment.entries.get key = some chain ∧ newest request.maxVirtualViewpoint chain = some info ∧
      news request info ∧ e = addEntry key info := by
  simp only [List.mem_filterMap, turn, Option.bind_eq_some_iff, Prod.exists]
  constructor
  · rintro ⟨key, chain, hmem, info, hinfo, he⟩
    split at he
    · rename_i hn
      exact ⟨key, chain, info, SortedMap.mem_entries.mp hmem, hinfo, hn, (Option.some.inj he).symm⟩
    · exact nomatch he
  · rintro ⟨key, chain, info, hget, hinfo, hn, rfl⟩
    exact ⟨key, chain, SortedMap.mem_entries.mpr hget, info, hinfo, by simp [hn]⟩

omit [LinearOrder K] in
theorem turn_key {a : K × Chain} {e : DataLogEntry K} (h : turn request a = some e) : e.key = a.1 := by
  obtain ⟨info, -, he⟩ := Option.bind_eq_some_iff.mp h
  split at he
  · rw [← Option.some.inj he]
    rfl
  · exact nomatch he

theorem turns_ordered : (segment.entries.entries.filterMap (turn request)).Pairwise fun a b => a.key < b.key := by
  refine List.Pairwise.filterMap _ ?_ segment.entries.sorted
  intro a a' hlt e he e' he'
  rw [turn_key he, turn_key he']
  exact hlt

/-- The list is as it should be exactly if each version that is sent may be. -/
theorem served_iff : Served segment request (segment.entries.entries.filterMap (turn request)) ↔
    ∀ key chain info, segment.entries.get key = some chain → newest request.maxVirtualViewpoint chain = some info →
      Sendable request info := by
  constructor
  · intro h key chain info hget hinfo hn
    obtain ⟨chain', info', hget', hvisible, -, hcarries⟩ :=
      h.carried (addEntry key info) (mem_turns.mpr ⟨key, chain, info, hget, hinfo, hn, rfl⟩)
    obtain rfl : chain = chain' := Option.some.inj (hget.symm.trans hget')
    obtain ⟨hnewest, hended⟩ := Option.filter_eq_some_iff.mp hvisible
    obtain rfl : info = info' := Option.some.inj (hinfo.symm.trans hnewest)
    exact ⟨by simpa using hended, carries_addEntry.mp hcarries⟩
  · intro h
    refine ⟨turns_ordered, ?_, ?_⟩
    · intro key chain info hget hvisible hn
      have hnewest := (Option.filter_eq_some_iff.mp hvisible).1
      exact ⟨_, mem_turns.mpr ⟨key, chain, info, hget, hnewest, hn, rfl⟩, rfl⟩
    · intro e he
      obtain ⟨key, chain, info, hget, hinfo, hn, rfl⟩ := mem_turns.mp he
      obtain ⟨hended, hpaged⟩ := h key chain info hget hinfo hn
      refine ⟨chain, info, hget, ?_, hn, carries_addEntry.mpr hpaged⟩
      exact Option.filter_eq_some_iff.mpr ⟨hinfo, by simp [hended]⟩

theorem processRequest_iff (segment : Segment K) (request : DataRequest K) :
    Answered segment request (processRequest segment request) ↔ Ok segment request := by
  by_cases hcut : request.requestType = .partialRequest ∧ request.maxRealViewpoint = segment.maxRealViewpoint
  · rw [processRequest, if_pos hcut]
    exact iff_of_true trivial (Or.inl hcut)
  · rw [processRequest, if_neg hcut, Ok, or_iff_right hcut]
    by_cases hsome : ∀ key chain, segment.entries.get key = some chain → newest request.maxVirtualViewpoint chain ≠ none
    · rw [pull_some fun e he => hsome e.1 e.2 (SortedMap.mem_entries.mp he)]
      refine served_iff.trans ⟨?_, ?_⟩
      · intro h key chain hget
        obtain ⟨info, hinfo⟩ := Option.ne_none_iff_exists'.mp (hsome key chain hget)
        exact ⟨info, hinfo, h key chain info hget hinfo⟩
      · intro h key chain info hget hinfo
        obtain ⟨info', hinfo', hsend⟩ := h key chain hget
        rw [Option.some.inj (hinfo.symm.trans hinfo')]
        exact hsend
    · simp only [ne_eq, not_forall, not_not] at hsome
      obtain ⟨key, chain, hget, hnone⟩ := hsome
      rw [pull_none ⟨(key, chain), SortedMap.mem_entries.mpr hget, hnone⟩]
      refine iff_of_false (fun h => h) ?_
      intro h
      obtain ⟨info, hinfo, -⟩ := h key chain hget
      rw [hnone] at hinfo
      exact nomatch hinfo

end Pull

end DeepFabric.Distributed.SegmentPull
