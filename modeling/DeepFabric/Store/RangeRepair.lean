/-
  DeepFabric.Store.RangeRepair — segments whose stream files do not fit into one range are split when a
  map is recovered (core/RealTimeRecovery.h: repairStreamRange, repairStreamRanges, partitionSegment;
  core/RealTimeMap.cxx: splitSegment as it is called there, isolateInformationLocality, purgeSegment;
  core/RealTimeAdaptive.h: allowPurgeSegment).

  The stream indexes of a segment are built again from its entries, up to the first that does not fit.
  Then a list of segments is worked off from its end: one that fits is done, one that does not is split
  in the middle, and the split builds the indexes of both halves from all their entries. The list holds
  the keys that its segments are filed under.

  Memory may be short meanwhile. A purge leaves the first entry of a segment in memory, and the others
  are read back from its file. It passes by what has been split.

  Left out: the values of compressed segments (`readValue`), the facilitator of a distributed map, and
  what a summary is expanded to.
-/
import DeepFabric.Lib.Partition
import DeepFabric.Store.FileRange
import DeepFabric.Store.Information

namespace DeepFabric.Store.RangeRepair

open DeepFabric.Lib DeepFabric.Lib.Partition DeepFabric.Platform.NumberRangeSets DeepFabric.Store.FileRanges List Option
open Prod (fst)
open SortedMap (empty get_at insertEntry keys_at mem_entries modify_at put_at)

/-! ## Versions -/

/-- Where a version is in the value files. -/
structure Locality where
  fileIndex : Short
  filePosition : Nat
  deriving DecidableEq

abbrev Version := Information Locality

structure StoryLine where
  /-- Oldest first. -/
  value : List Version
  storyLock : Option Nat
  deriving DecidableEq

def committedToDisk (info : Version) : Bool := info.level ≠ levelCommit && info.data.filePosition ≠ 0

def isolateInformationLocality (topinfo : List Version) : List Version :=
  Information.walk (fun _ => false) (fun next => next.level = levelCommit || committedToDisk next) (·.updating) [] topinfo

/-- The last version that is in a file, whatever a walk stops at. -/
def newestOnDisk (chain : List Version) : Option Version :=
  (chain.filter fun info => info.level = levelCommit || info.data.filePosition ≠ 0).getLast?

/-- A committed version, and perhaps newer ones. Only the newest may be marked. -/
structure Committed (chain : List Version) : Prop where
  committed : ∃ info ∈ chain, info.level = levelCommit
  unmarked : ∀ info ∈ chain.dropLast, info.updating = false

/-! ## Segments -/

variable {K : Type} [LinearOrder K]

structure Segment (K : Type) [LinearOrder K] extends FileRanges.Segment where
  entries : SortedMap K StoryLine
  /-- What is read when the segment is set up. -/
  filed : SortedMap K StoryLine
  summary : Bool
  deleted : Bool
  purged : Bool
  virtual : Bool
  dirty : Bool
  altered : Bool
  reseeded : Bool
  relocated : Bool
  viewed : Bool
  rolling : Bool
  fragmentedKey : Bool
  fragmentedValue : Bool
  filled : Bool
  streamPosition : Nat

abbrev RealTimeMap (K : Type) [LinearOrder K] := SortedMap K (Segment K)

/-- What a purge is told by others. -/
structure Resource where
  purgeFlag : Bool
  /-- Indexing may use more memory. -/
  indexing : Bool
  referenced : Bool

namespace Segment

def new : Segment K :=
  { FileRanges.Segment.new with
    entries := .empty
    filed := .empty
    summary := false
    deleted := false
    purged := false
    virtual := false
    dirty := false
    altered := false
    reseeded := false
    relocated := false
    viewed := false
    rolling := false
    fragmentedKey := false
    fragmentedValue := false
    filled := false
    streamPosition := 0 }

def addStreamIndex (s : Segment K) (fileIndex : Short) : Segment K := { s with streamIndexes := s.streamIndexes.put fileIndex false }

def resetStreamIndexes (s : Segment K) : Segment K := { s with streamIndexes := .empty }

def getValuesCompressed (s : Segment K) : Bool := s.streamPosition ≠ 0

/-- The entries a segment stands for. -/
def contents (s : Segment K) : List (K × StoryLine) := if s.purged || s.virtual then s.filed.entries else s.entries.entries

def fill (s : Segment K) : Segment K :=
  { s with
    entries := s.filed
    purged := false
    virtual := false }

/-- `none` is false. A summary is expanded, but not set up. -/
def forceSetup (s : Segment K) : Option (Segment K) :=
  if s.deleted || s.summary then none else if s.purged || s.virtual then some s.fill else some s

/-- allowPurgeSegment, with `index`, `growing` and `semi` false. -/
def allowPurge (res : Resource) (s : Segment K) : Bool :=
  if !res.purgeFlag then false
  else if s.summary then false
  else if s.purged || !s.paged then false
  else if res.indexing then false
  else if s.fragmentedKey || s.fragmentedValue then false
  else if s.reseeded || s.altered || s.relocated || s.viewed || s.rolling then false
  else if s.dirty then false
  else !res.referenced

def keepFirst (s : Segment K) (first : K × StoryLine) : Segment K :=
  { s with
    entries := empty.put first.1 ⟨first.2.value, none⟩
    filled := false
    purged := true }

/-- purgeSegment of a segment that is not dirty, as it is while the map is not running: memory compression is not allowed. -/
def purge (res : Resource) (s : Segment K) : Segment K :=
  if s.allowPurge res then
    match s.entries.entries.head? with
    | some first => s.keepFirst first
    | none => s
  else s

/-! ## The split -/

/-- The version whose file the indexes of a half are to name. -/
def curinfo (streamRangeOverflow : Bool) (storyLine : StoryLine) : Option Version :=
  if streamRangeOverflow then
    (isolateInformationLocality storyLine.value).head?.filter fun info => !(info.level ≠ levelCommit && info.data.filePosition = 0)
  else none

def addLocality (s : Segment K) : Option Version → Segment K
  | some info => s.addStreamIndex info.data.fileIndex
  | none => s

/-- The loop over the entries; those from `middle` on are moved. -/
def moveEntries (streamRangeOverflow : Bool) (middle : Nat) : List (K × StoryLine) → Nat → Segment K → Segment K → Segment K × Segment K
  | [], _, segment, pSegment => (segment, pSegment)
  | (key, storyLine) :: rest, i, segment, pSegment =>
    let info := curinfo streamRangeOverflow storyLine
    if middle ≤ i then
      let pSegment := { pSegment with entries := pSegment.entries.put key storyLine }
      let segment := { segment with entries := segment.entries.remove key }
      moveEntries streamRangeOverflow middle rest (i + 1) segment (pSegment.addLocality info)
    else moveEntries streamRangeOverflow middle rest (i + 1) (segment.addLocality info) pSegment

def setSplit (s : Segment K) : Segment K :=
  { s with
    fragmentedKey := true
    altered := true
    dirty := true }

/-- What a new segment has from the one it was split from. -/
def takeOver (pSegment segment : Segment K) : Segment K :=
  { pSegment with
    pagingIndexes := segment.pagingIndexes.elements.foldl FileRanges.Indexes.add pSegment.pagingIndexes
    relocated := segment.getValuesCompressed || segment.relocated
    fragmentedValue := segment.fragmentedValue }

/-- splitSegment with `recover` true: the first key of the new segment, and both. -/
def split (shl : Shift) (segment : Segment K) : Option (K × Segment K × Segment K) := do
  let segment := { segment with filled := segment.filled || segment.getValuesCompressed }
  let streamRangeOverflow ← segment.getStreamRangeOverflow shl true
  let segment := if streamRangeOverflow then segment.resetStreamIndexes else segment
  let middle := (segment.entries.entries.length + 1) / 2
  let (segment, pSegment) := moveEntries streamRangeOverflow middle segment.entries.entries 0 segment new
  let firstKey ← pSegment.entries.entries.head?.map fst
  return (firstKey, segment.setSplit, (pSegment.takeOver segment).setSplit)

end Segment

/-! ## The repair -/

def splitSegment (shl : Shift) (map : RealTimeMap K) (key : K) : Option (K × RealTimeMap K) := do
  let (firstKey, segment, pSegment) ← (← map.get key).split shl
  return (firstKey, (map.put key segment).put firstKey pSegment)

def purgeSegment (res : K → Resource) (map : RealTimeMap K) (key : K) : RealTimeMap K := map.modify key (·.purge (res key))

/-- The end of the list is first. -/
def partitionSegment (shl : Shift) (res : K → Resource) : Nat → List K → RealTimeMap K → Option (RealTimeMap K)
  | _, [], map => some map
  | 0, _ :: _, _ => none
  | fuel + 1, last :: rest, map => do
    if (← (← map.get last).getStreamRangeOverflow shl true) = false then partitionSegment shl res fuel rest (purgeSegment res map last)
    else
      let (firstKey, map) ← splitSegment shl map last
      let pSegment ← map.get firstKey
      if (← (← map.get last).getStreamRangeOverflow shl true) = false then
        partitionSegment shl res fuel (firstKey :: rest) ((purgeSegment res map last).put firstKey pSegment)
      else partitionSegment shl res fuel (firstKey :: last :: rest) (map.put firstKey pSegment)

/-- The loop of repairStreamRange over the entries, up to an overflow; `none` is a read through null. -/
def addStreamIndexes (shl : Shift) : List (K × StoryLine) → Segment K → Option (Segment K × Bool)
  | [], segment => some (segment, false)
  | (_, storyLine) :: rest, segment => do
    let curinfo ← (isolateInformationLocality storyLine.value).head?
    let segment := segment.addStreamIndex curinfo.data.fileIndex
    if ← segment.getStreamRangeOverflow shl true then return (segment, true) else addStreamIndexes shl rest segment

def repairStreamRange (shl : Shift) (res : K → Resource) (fuel : Nat) (map : RealTimeMap K) (key : K) : Option (RealTimeMap K × Bool) := do
  match (← map.get key).forceSetup with
  | none => return (map, false)
  | some segment =>
    let (segment, overflow) ← addStreamIndexes shl segment.entries.entries segment.resetStreamIndexes
    let map := map.put key segment
    if overflow then return (← partitionSegment shl res fuel [key] map, true) else return (purgeSegment res map key, false)

/-- Whether a segment is left as it is. -/
def Segment.skip (shl : Shift) (s : Segment K) : Option Bool := if s.summary then some true else (s.getStreamRangeOverflow shl true).map not

/-- `RETRY` is a start in front of the first segment. -/
def repairStreamRanges (shl : Shift) (res : K → Resource) : Nat → Option K → RealTimeMap K → Option (RealTimeMap K)
  | 0, _, _ => none
  | fuel + 1, place, map =>
    match map.behind place with
    | [] => some map
    | (key, segment) :: _ => do
      if ← segment.skip shl then repairStreamRanges shl res fuel (some key) map
      else
        let (map, again) ← repairStreamRange shl res fuel map key
        repairStreamRanges shl res fuel (if again then none else some key) map

/-! ## Versions on disk -/

theorem isolate_newest {chain : List Version} (h : Committed chain) : (isolateInformationLocality chain).head? = newestOnDisk chain := by
  have hwalk : (isolateInformationLocality chain).head? = _ := Information.head?_walk fun x hx _ => h.unmarked x hx
  have htake : chain.takeWhile (fun _ => !false) = chain := takeWhile_eq_self_iff.mpr fun _ _ => rfl
  rw [hwalk, htake, List.head?_nil, or_none, newestOnDisk]
  refine congrArg List.getLast? (filter_congr fun info _ => ?_)
  by_cases hlevel : info.level = levelCommit <;> simp [committedToDisk, hlevel]

/-- The file an entry's value is in. -/
def located (e : K × StoryLine) : Option Short := (newestOnDisk e.2.value).map (·.data.fileIndex)

section Located

variable {e : K × StoryLine} (h : Committed e.2.value)

omit [LinearOrder K]
include h

theorem newest_found : ∃ info, newestOnDisk e.2.value = some info ∧ (info.level = levelCommit ∨ info.data.filePosition ≠ 0) := by
  obtain ⟨info, hmem, hlevel⟩ := h.committed
  have hkept : info ∈ e.2.value.filter fun info => info.level = levelCommit || info.data.filePosition ≠ 0 :=
    mem_filter.mpr ⟨hmem, by simp [hlevel]⟩
  obtain ⟨last, hlast⟩ : ∃ last, newestOnDisk e.2.value = some last := ⟨_, List.getLast?_eq_some_getLast (ne_nil_of_mem hkept)⟩
  have hdisk := (mem_filter.mp (mem_of_getLast? hlast)).2
  exact ⟨last, hlast, by simpa using hdisk⟩

theorem curinfo_located : ∃ info, Segment.curinfo true e.2 = some info ∧ located e = some info.data.fileIndex := by
  obtain ⟨info, hinfo, hdisk⟩ := newest_found h
  refine ⟨info, ?_, by rw [located, hinfo]; rfl⟩
  rw [Segment.curinfo, if_pos rfl, isolate_newest h, hinfo, filter_some, if_pos]
  simpa using hdisk

end Located

/-! ## Indexes -/

/-- The indexes are the files of the entries' values. -/
def Notes (streamIndexes : Streams) (entries : List (K × StoryLine)) : Prop :=
  ∀ x old, streamIndexes.get x = some old ↔ old = false ∧ ∃ e ∈ entries, located e = some x

section Notes

omit [LinearOrder K]

variable {streamIndexes : Streams} {entries : List (K × StoryLine)}

theorem notes_nil : Notes .empty ([] : List (K × StoryLine)) := fun x old => by simp

theorem Notes.add (h : Notes streamIndexes entries) {e : K × StoryLine} {fileIndex : Short} (he : located e = some fileIndex) :
    Notes (streamIndexes.put fileIndex false) (entries ++ [e]) := by
  intro x old
  rw [SortedMap.get_put]
  by_cases hx : x = fileIndex
  · subst hx
    simp [he, eq_comm]
  · have hne : fileIndex ≠ x := fun h => hx h.symm
    simp [hx, h x old, he, hne]

theorem Notes.two (shl : Shift) {s : FileRanges.Segment} (h : Notes s.streamIndexes entries)
    (hover : s.getStreamRangeOverflow shl true = some true) : 2 ≤ entries.length := by
  obtain ⟨overflow, hov, hiff⟩ := FileRanges.Segment.streamOverflow_iff shl s true
  obtain rfl : overflow = true := Option.some.inj (hov.symm.trans hover)
  obtain ⟨x, y, ⟨oldx, hx, -⟩, ⟨oldy, hy, -⟩, hfar⟩ := hiff.mp rfl
  obtain ⟨-, ex, hex, hlx⟩ := (h x oldx).mp (mem_entries.mp hx)
  obtain ⟨-, ey, hey, hly⟩ := (h y oldy).mp (mem_entries.mp hy)
  match entries, hex, hey with
  | [e], hex, hey =>
    rw [mem_singleton.mp hex] at hlx
    rw [mem_singleton.mp hey, hlx] at hly
    cases hly
    omega
  | _ :: _ :: _, _, _ => simp

end Notes

theorem overflow_total (shl : Shift) (s : FileRanges.Segment) :
    s.getStreamRangeOverflow shl true = some false ∨ s.getStreamRangeOverflow shl true = some true := by
  obtain ⟨overflow, hov, -⟩ := FileRanges.Segment.streamOverflow_iff shl s true
  cases overflow with
  | false => exact .inl hov
  | true => exact .inr hov

/-! ## The halves -/

namespace Segment

/-- A segment but for its entries and its indexes. -/
def SameButEntries (s s' : Segment K) : Prop := s' = { s with entries := s'.entries, streamIndexes := s'.streamIndexes }

variable {s : Segment K}

theorem moveEntries_front {front : List (K × StoryLine)} (back : List (K × StoryLine)) (p : Segment K)
    (hcommitted : ∀ e ∈ front, Committed e.2.value) {done : List (K × StoryLine)} (hnotes : Notes s.streamIndexes done) {i middle : Nat}
    (hmiddle : i + front.length = middle) :
    ∃ s' : Segment K, moveEntries true middle (front ++ back) i s p = moveEntries true middle back middle s' p ∧
      SameButEntries s s' ∧ s'.entries = s.entries ∧ Notes s'.streamIndexes (done ++ front) := by
  induction front generalizing i s done with
  | nil =>
    subst hmiddle
    exact ⟨s, rfl, rfl, rfl, by rwa [append_nil]⟩
  | cons e front ih =>
    rw [length_cons] at hmiddle
    obtain ⟨info, hinfo, hlocated⟩ := curinfo_located (hcommitted e mem_cons_self)
    have hnotes' : Notes (s.addStreamIndex info.data.fileIndex).streamIndexes (done ++ [e]) := hnotes.add hlocated
    have hmiddle' : i + 1 + front.length = middle := by omega
    obtain ⟨s', hs', hsame, hentries, hn⟩ := ih (forall_mem_cons.mp hcommitted).2 hnotes' hmiddle'
    refine ⟨s', ?_, ?_, hentries, by rwa [append_assoc] at hn⟩
    · rw [cons_append, moveEntries, if_neg (by omega)]
      simp only [hinfo, addLocality]
      exact hs'
    · rw [SameButEntries, hsame]
      rfl

theorem moveEntries_back {back kept moved : List (K × StoryLine)} {p : Segment K} (hcommitted : ∀ e ∈ back, Committed e.2.value)
    (hs : s.entries.entries = kept ++ back) (hp : p.entries.entries = moved) (hbelow : ∀ e ∈ moved, ∀ e' ∈ back, e.1 < e'.1)
    (hnotes : Notes p.streamIndexes moved) {i middle : Nat} (hi : middle ≤ i) :
    ∃ s' p' : Segment K, moveEntries true middle back i s p = (s', p') ∧ SameButEntries s s' ∧ s'.streamIndexes = s.streamIndexes ∧
      s'.entries.entries = kept ∧ SameButEntries p p' ∧ p'.entries.entries = moved ++ back ∧ Notes p'.streamIndexes (moved ++ back) := by
  induction back generalizing i s p moved with
  | nil =>
    rw [append_nil] at hs ⊢
    exact ⟨s, p, rfl, rfl, rfl, hs, rfl, hp, hnotes⟩
  | cons e back ih =>
    obtain ⟨info, hinfo, hlocated⟩ := curinfo_located (hcommitted e mem_cons_self)
    have hsorted := s.entries.sorted
    rw [hs] at hsorted
    obtain ⟨-, hback, hkept⟩ := pairwise_append.mp hsorted
    obtain ⟨hfirst, -⟩ := pairwise_cons.mp hback
    have hremove : (s.entries.remove e.1).entries = kept ++ back := by
      have hk : kept.filter (fun x => x.1 ≠ e.1) = kept :=
        filter_eq_self.mpr fun x hx => by simpa using ne_of_lt (hkept x hx e mem_cons_self)
      have hb : back.filter (fun x => x.1 ≠ e.1) = back := filter_eq_self.mpr fun x hx => by simpa using ne_of_gt (hfirst x hx)
      show s.entries.entries.filter (fun x => x.1 ≠ e.1) = kept ++ back
      rw [hs, filter_append, hk, filter_cons_of_neg (by simp), hb]
    have hput : (p.entries.put e.1 e.2).entries = moved ++ [e] := by
      have hlast : insertEntry e.1 e.2 (moved ++ []) = moved ++ [e] :=
        SortedMap.insertEntry_mid (fun x hx => hbelow x hx e mem_cons_self) (forall_mem_nil _)
      show insertEntry e.1 e.2 p.entries.entries = moved ++ [e]
      rw [hp]
      rwa [append_nil] at hlast
    have hbelow' : ∀ x ∈ moved ++ [e], ∀ y ∈ back, x.1 < y.1 := by
      intro x hx y hy
      rcases mem_append.mp hx with hx | hx
      · exact hbelow x hx y (mem_cons_of_mem _ hy)
      · rw [mem_singleton.mp hx]
        exact hfirst y hy
    have hnotes' : Notes (({ p with entries := p.entries.put e.1 e.2 } : Segment K).addStreamIndex info.data.fileIndex).streamIndexes
        (moved ++ [e]) := hnotes.add hlocated
    obtain ⟨s', p', hmove, hs', hindexes, hentries, hp', hpentries, hn⟩ :=
      ih (s := { s with entries := s.entries.remove e.1 }) (forall_mem_cons.mp hcommitted).2 hremove hput hbelow' hnotes'
        (Nat.le_succ_of_le hi)
    refine ⟨s', p', ?_, ?_, hindexes, hentries, ?_, by rw [hpentries, append_assoc]; rfl, by rwa [append_assoc] at hn⟩
    · rw [moveEntries, if_pos hi]
      simp only [hinfo, addLocality]
      exact hmove
    · rw [SameButEntries, hs']
    · rw [SameButEntries, hp']
      rfl

/-- A segment of committed entries. What has not changed since it was filed is what the file has. -/
structure Sound (s : Segment K) : Prop where
  present : s.deleted = false ∧ s.summary = false
  committed : ∀ e ∈ s.contents, Committed e.2.value
  saved : s.purged = false ∧ s.virtual = false → s.dirty = false → s.filed = s.entries

/-- Such a segment in memory. -/
structure Loaded (s : Segment K) : Prop where
  present : s.deleted = false ∧ s.summary = false
  inMemory : s.purged = false ∧ s.virtual = false
  committed : ∀ e ∈ s.entries.entries, Committed e.2.value

theorem contents_memory (h : s.purged = false ∧ s.virtual = false) : s.contents = s.entries.entries := by
  simp [contents, h]

theorem Loaded.contents_eq (h : Loaded s) : s.contents = s.entries.entries := contents_memory h.inMemory

theorem Loaded.sound (h : Loaded s) (hsaved : s.dirty = false → s.filed = s.entries) : Sound s :=
  ⟨h.present, by rw [h.contents_eq]; exact h.committed, fun _ => hsaved⟩

/-- Both halves of a segment whose indexes do not fit, with the indexes of their own entries. -/
theorem split_spec {shl : Shift} (h : Loaded s) (htwo : 2 ≤ s.entries.entries.length)
    (hover : s.getStreamRangeOverflow shl true = some true) :
    ∃ (firstKey : K) (s' p : Segment K) (front back : List (K × StoryLine)), s.split shl = some (firstKey, s', p) ∧
      s.entries.entries = front ++ back ∧ front ≠ [] ∧ back ≠ [] ∧ back.head?.map fst = some firstKey ∧
      (Loaded s' ∧ s'.entries.entries = front ∧ Notes s'.streamIndexes front ∧ s'.fragmentedKey = true ∧ s'.dirty = true) ∧
      (Loaded p ∧ p.entries.entries = back ∧ Notes p.streamIndexes back ∧ p.fragmentedKey = true ∧ p.dirty = true) := by
  obtain ⟨middle, hmiddle⟩ : ∃ middle, middle = (s.entries.entries.length + 1) / 2 := ⟨_, rfl⟩
  obtain ⟨front, hfront⟩ : ∃ front, front = s.entries.entries.take middle := ⟨_, rfl⟩
  obtain ⟨back, hback⟩ : ∃ back, back = s.entries.entries.drop middle := ⟨_, rfl⟩
  have hcut : s.entries.entries = front ++ back := by rw [hfront, hback, take_append_drop]
  have hlength : front.length = middle := by
    rw [hfront, length_take]
    omega
  have hfrontne : front ≠ [] := ne_nil_of_length_pos (by omega)
  have hbackne : back ≠ [] := by
    refine ne_nil_of_length_pos ?_
    rw [hback, length_drop]
    omega
  obtain ⟨start, hstart⟩ : ∃ start : Segment K,
      start = ({ s with filled := s.filled || s.getValuesCompressed } : Segment K).resetStreamIndexes := ⟨_, rfl⟩
  have hcommitted : ∀ e ∈ front ++ back, Committed e.2.value := hcut ▸ h.committed
  have hblank : Notes start.streamIndexes ([] : List (K × StoryLine)) := by
    rw [hstart]
    exact notes_nil
  obtain ⟨s1, hmove1, hsame1, hentries1, hnotes1⟩ :=
    moveEntries_front back new (fun e he => hcommitted e (mem_append_left _ he)) hblank (show 0 + front.length = middle by omega)
  have hcut1 : s1.entries.entries = front ++ back := by rw [hentries1, hstart, ← hcut]; rfl
  have hempty : (new : Segment K).entries.entries = [] := rfl
  obtain ⟨s2, p2, hmove2, hsame2, hindexes2, hentries2, hsamep, hpentries, hpnotes⟩ :=
    moveEntries_back (fun e he => hcommitted e (mem_append_right _ he)) hcut1 hempty (forall_mem_nil _) notes_nil (le_refl middle)
  rw [nil_append] at hpentries hpnotes hnotes1
  obtain ⟨firstKey, hfirst⟩ : ∃ firstKey, back.head?.map fst = some firstKey := by
    obtain ⟨e, rest, rfl⟩ := exists_cons_of_ne_nil hbackne
    exact ⟨e.1, rfl⟩
  have hmoves : moveEntries true middle s.entries.entries 0 start new = (s2, p2) := by rw [hcut, hmove1, hmove2]
  have hloaded2 : Loaded s2.setSplit := by
    refine ⟨?_, ?_, fun e he => hcommitted e (mem_append_left _ (hentries2 ▸ he))⟩
    · rw [hsame2, hsame1, hstart]
      exact h.present
    · rw [hsame2, hsame1, hstart]
      exact h.inMemory
  have hloadedp : Loaded (p2.takeOver s2).setSplit := by
    refine ⟨?_, ?_, fun e he => hcommitted e (mem_append_right _ (hpentries ▸ he))⟩ <;> rw [hsamep] <;> exact ⟨rfl, rfl⟩
  refine ⟨firstKey, s2.setSplit, (p2.takeOver s2).setSplit, front, back, ?_, hcut, hfrontne, hbackne, hfirst,
    ⟨hloaded2, hentries2, ?_, rfl, rfl⟩, hloadedp, hpentries, hpnotes, rfl, rfl⟩
  · rw [split, show ({ s with filled := s.filled || s.getValuesCompressed } : Segment K).getStreamRangeOverflow shl true = some true from hover]
    simp only [bind_eq_bind, bind_some, if_true, ← hstart]
    rw [show start.entries = s.entries by rw [hstart]; rfl, ← hmiddle, hmoves]
    simp only [hpentries, hfirst, bind_some]
    rfl
  · rw [← hindexes2] at hnotes1
    exact hnotes1

theorem purge_fragmented {res : Resource} (h : s.fragmentedKey = true) : s.purge res = s := by
  have hrefused : s.allowPurge res = false := by simp [allowPurge, h]
  simp [purge, hrefused]

end Segment

/-! ## The list of segments -/

section Partition

variable (shl : Shift) (res : K → Resource)

/-- A segment of the list. -/
structure Item (key : K) (s : Segment K) : Prop where
  loaded : s.Loaded
  filed : s.entries.entries.head?.map fst = some key
  fits : s.getStreamRangeOverflow shl true = some false → Notes s.streamIndexes s.entries.entries ∧ s.fragmentedKey = true ∧ s.dirty = true
  spread : s.getStreamRangeOverflow shl true = some true → 2 ≤ s.entries.entries.length

/-- A segment that is done. -/
structure Repaired (key : K) (s : Segment K) : Prop where
  sound : s.Sound
  filed : s.contents.head?.map fst = some key
  fits : s.getStreamRangeOverflow shl true = some false
  notes : Notes s.streamIndexes s.contents

variable {shl}

variable {key : K} {s : Segment K}

theorem Item.repaired (h : Item shl key s) (hfits : s.getStreamRangeOverflow shl true = some false) :
    s.purge (res key) = s ∧ Repaired shl key s := by
  obtain ⟨hnotes, hfragmented, hdirty⟩ := h.fits hfits
  have hcontents := h.loaded.contents_eq
  have hsound : s.Sound := h.loaded.sound fun hclean => by simp [hdirty] at hclean
  exact ⟨Segment.purge_fragmented hfragmented, hsound, by rw [hcontents]; exact h.filed, hfits, by rw [hcontents]; exact hnotes⟩

omit [LinearOrder K] in
theorem filed_mem {entries : List (K × StoryLine)} (h : entries.head?.map fst = some key) : ∃ e ∈ entries, e.1 = key := by
  obtain ⟨e, he, hkey⟩ := map_eq_some_iff.mp h
  exact ⟨e, mem_of_head? he, hkey⟩

theorem half_item {half : List (K × StoryLine)}
    (hhalf : s.Loaded ∧ s.entries.entries = half ∧ Notes s.streamIndexes half ∧ s.fragmentedKey = true ∧ s.dirty = true)
    (hfiled : half.head?.map fst = some key) : Item shl key s := by
  obtain ⟨hloaded, hentries, hnotes, hflags⟩ := hhalf
  subst hentries
  exact ⟨hloaded, hfiled, fun _ => ⟨hnotes, hflags⟩, hnotes.two shl⟩

/-- What is at the end of the list is replaced by parts that fit, and the rest of the list goes on. -/
theorem partition_one (hitem : Item shl key s) {map : RealTimeMap K} {pre post : List (K × Segment K)}
    (hmap : map.entries = pre ++ (key, s) :: post) (hpost : ∀ e ∈ s.entries.entries, ∀ q ∈ post, e.1 < q.1) (rest : List K) :
    ∃ (steps : Nat) (map' : RealTimeMap K) (parts : List (K × Segment K)),
      (∀ fuel, partitionSegment shl res (fuel + steps) (key :: rest) map = partitionSegment shl res fuel rest map') ∧
      map'.entries = pre ++ parts ++ post ∧ parts.flatMap (fun q => q.2.contents) = s.entries.entries ∧ ∀ q ∈ parts, Repaired shl q.1 q.2 := by
  induction hn : s.entries.entries.length using Nat.strong_induction_on generalizing key s map pre post rest with
  | h n ih =>
    subst hn
    rcases overflow_total shl s.toSegment with hfits | hover
    · obtain ⟨hpurge, hrepaired⟩ := hitem.repaired res hfits
      have hmodify := modify_at hmap (·.purge (res key))
      rw [hpurge] at hmodify
      refine ⟨1, purgeSegment res map key, [(key, s)], fun fuel => ?_, by simp [purgeSegment, hmodify], ?_, ?_⟩
      · rw [partitionSegment, get_at hmap]
        simp [hfits]
      · rw [flatMap_singleton, hitem.loaded.contents_eq]
      · intro q hq
        rwa [mem_singleton.mp hq]
    · obtain ⟨firstKey, s', p, front, back, hsplit, hcut, hfront, hback, hfirst, hs', hp⟩ :=
        Segment.split_spec hitem.loaded (hitem.spread hover) hover
      have hsorted := s.entries.sorted
      rw [hcut] at hsorted hpost ⊢
      obtain ⟨-, -, hacross⟩ := pairwise_append.mp hsorted
      have hfiled : front.head?.map fst = some key := by
        have := hitem.filed
        rwa [hcut, List.head?_append_of_ne_nil _ hfront] at this
      have hitem' : Item shl key s' := half_item hs' hfiled
      have hitemp : Item shl firstKey p := half_item hp hfirst
      obtain ⟨e, he, hekey⟩ := filed_mem hfiled
      obtain ⟨e', he', hekey'⟩ := filed_mem hfirst
      have hlt : key < firstKey := hekey ▸ hekey' ▸ hacross e he e' he'
      have hbehind : ∀ q ∈ post, firstKey < q.1 := fun q hq => hekey' ▸ hpost e' (mem_append_right _ he') q hq
      have hbefore : ∀ q ∈ pre ++ [(key, s')], q.1 < firstKey := by
        intro q hq
        rcases mem_append.mp hq with hq | hq
        · exact lt_trans ((keys_at hmap).1 q hq) hlt
        · rwa [mem_singleton.mp hq]
      have hshorter : s'.entries.entries.length < s.entries.entries.length ∧ p.entries.entries.length < s.entries.entries.length := by
        have := length_pos_of_ne_nil hfront
        have := length_pos_of_ne_nil hback
        rw [hcut, hs'.2.1, hp.2.1, length_append]
        omega
      -- the branch tree with both halves
      obtain ⟨map', hmap'⟩ : ∃ map', map' = (map.put key s').put firstKey p := ⟨_, rfl⟩
      have hentries : map'.entries = pre ++ (key, s') :: (firstKey, p) :: post := by
        have hput := put_at hmap s'
        rw [append_cons] at hput ⊢
        exact hmap' ▸ SortedMap.put_between hput hbefore hbehind p
      have hentries' : map'.entries = (pre ++ [(key, s')]) ++ (firstKey, p) :: post := by simp [hentries]
      have hsplits : splitSegment shl map key = some (firstKey, map') := by
        rw [splitSegment, get_at hmap, hmap']
        simp [hsplit]
      have hstep : ∀ fuel, partitionSegment shl res (fuel + 1) (key :: rest) map =
          if s'.getStreamRangeOverflow shl true = some false then
            partitionSegment shl res fuel (firstKey :: rest) ((purgeSegment res map' key).put firstKey p)
          else partitionSegment shl res fuel (firstKey :: key :: rest) (map'.put firstKey p) := by
        intro fuel
        rw [partitionSegment, get_at hmap]
        rcases overflow_total shl s'.toSegment with h | h <;> simp [hover, hsplits, get_at hentries, get_at hentries', h]
      have hpback : ∀ e ∈ p.entries.entries, ∀ q ∈ post, e.1 < q.1 := fun e he => hpost e (mem_append_right _ (hp.2.1 ▸ he))
      by_cases hfits : s'.getStreamRangeOverflow shl true = some false
      · obtain ⟨hpurge, hrepaired⟩ := hitem'.repaired res hfits
        have hmodify := modify_at hentries (·.purge (res key))
        rw [hpurge, ← hentries, hentries'] at hmodify
        obtain ⟨steps, map'', parts, hrun, hmap'', hparts, hall⟩ := ih _ hshorter.2 hitemp (put_at hmodify p) hpback rest rfl
        refine ⟨steps + 1, map'', (key, s') :: parts, fun fuel => ?_, by simp [hmap''], ?_, forall_mem_cons.mpr ⟨hrepaired, hall⟩⟩
        · rw [← Nat.add_assoc, hstep, if_pos hfits]
          exact hrun fuel
        · rw [flatMap_cons, hparts, hitem'.loaded.contents_eq, hs'.2.1, hp.2.1]
      · obtain ⟨steps, map'', parts, hrun, hmap'', hparts, hall⟩ := ih _ hshorter.2 hitemp (put_at hentries' p) hpback (key :: rest) rfl
        have hfront' : ∀ e ∈ s'.entries.entries, ∀ q ∈ parts ++ post, e.1 < q.1 := by
          intro e he q hq
          rw [hs'.2.1] at he
          rcases mem_append.mp hq with hq | hq
          · obtain ⟨x, hx, hxkey⟩ := filed_mem (hall q hq).filed
            have hxback : x ∈ p.entries.entries := hparts ▸ mem_flatMap.mpr ⟨q, hq, hx⟩
            exact hxkey ▸ hacross e he x (hp.2.1 ▸ hxback)
          · exact hpost e (mem_append_left _ he) q hq
        obtain ⟨steps', map3, parts', hrun', hmap3, hparts', hall'⟩ :=
          ih _ hshorter.1 hitem' (show map''.entries = pre ++ (key, s') :: (parts ++ post) by simp [hmap'']) hfront' rest rfl
        refine ⟨steps' + steps + 1, map3, parts' ++ parts, fun fuel => ?_, by simp [hmap3], ?_, ?_⟩
        · rw [← Nat.add_assoc, hstep, if_neg hfits, ← Nat.add_assoc, hrun, hrun']
        · rw [flatMap_append, hparts, hparts', hs'.2.1, hp.2.1]
        · intro q hq
          exact (mem_append.mp hq).elim (hall' q) (hall q)

end Partition

/-! ## A segment -/

variable {s : Segment K}

/-- The loop ends with the indexes of all entries, or with those of the first ones, which do not fit. -/
theorem addStreamIndexes_spec (shl : Shift) {done rest : List (K × StoryLine)} (hnotes : Notes s.streamIndexes done)
    (hfits : s.getStreamRangeOverflow shl true = some false) (hcommitted : ∀ e ∈ rest, Committed e.2.value) :
    ∃ (s' : Segment K) (overflow : Bool), addStreamIndexes shl rest s = some (s', overflow) ∧ s' = { s with streamIndexes := s'.streamIndexes } ∧
      s'.getStreamRangeOverflow shl true = some overflow ∧
      ∃ front back, done ++ rest = front ++ back ∧ Notes s'.streamIndexes front ∧ (overflow = false → back = []) := by
  induction rest generalizing s done with
  | nil => exact ⟨s, false, rfl, rfl, hfits, done, [], rfl, hnotes, fun _ => rfl⟩
  | cons e rest ih =>
    obtain ⟨info, hinfo, -⟩ := newest_found (hcommitted e mem_cons_self)
    have hlocated : located e = some info.data.fileIndex := by rw [located, hinfo]; rfl
    have hhead : (isolateInformationLocality e.2.value).head? = some info := (isolate_newest (hcommitted e mem_cons_self)).trans hinfo
    have hadded : Notes (s.addStreamIndex info.data.fileIndex).streamIndexes (done ++ [e]) := hnotes.add hlocated
    rcases overflow_total shl (s.addStreamIndex info.data.fileIndex).toSegment with h | h
    · obtain ⟨s', overflow, hrun, hsame, hover, front, back, hcut, hn, hall⟩ := ih hadded h (forall_mem_cons.mp hcommitted).2
      refine ⟨s', overflow, ?_, by rw [hsame]; rfl, hover, front, back, by rw [← hcut, append_assoc]; rfl, hn, hall⟩
      rw [addStreamIndexes]
      simp [hhead, h, hrun]
    · refine ⟨s.addStreamIndex info.data.fileIndex, true, ?_, rfl, h, done ++ [e], rest, by rw [append_assoc]; rfl, hadded, nofun⟩
      rw [addStreamIndexes]
      simp [hhead, h]

theorem purge_contents (res : Resource) (h : s.Loaded) (hsaved : s.dirty = false → s.filed = s.entries) :
    (s.purge res).contents = s.entries.entries ∧ (s.purge res).Sound ∧ (s.purge res).toSegment = s.toSegment := by
  have hkept : s.contents = s.entries.entries ∧ s.Sound ∧ s.toSegment = s.toSegment := ⟨h.contents_eq, h.sound hsaved, rfl⟩
  rw [Segment.purge]
  split_ifs with hallow
  · cases s.entries.entries.head? with
    | none => exact hkept
    | some first =>
      have hclean : s.dirty = false := by
        by_contra hdirty
        simp [Segment.allowPurge, hdirty] at hallow
      have hcontents : (s.keepFirst first).contents = s.entries.entries := by simp [Segment.contents, Segment.keepFirst, hsaved hclean]
      refine ⟨hcontents, ⟨h.present, ?_, fun hin => absurd hin.1 (by simp [Segment.keepFirst])⟩, rfl⟩
      show ∀ e ∈ (s.keepFirst first).contents, Committed e.2.value
      rw [hcontents]
      exact h.committed
  · exact hkept

theorem forceSetup_sound (h : s.Sound) :
    ∃ s' : Segment K, s.forceSetup = some s' ∧ s'.Loaded ∧ s'.entries.entries = s.contents ∧ (s'.dirty = false → s'.filed = s'.entries) := by
  by_cases hin : s.purged = false ∧ s.virtual = false
  · have hcontents := Segment.contents_memory hin
    refine ⟨s, ?_, ⟨h.present, hin, hcontents ▸ h.committed⟩, hcontents.symm, h.saved hin⟩
    simp [Segment.forceSetup, h.present, hin]
  · have hout : (s.purged || s.virtual) = true := by
      by_contra hno
      exact hin (by simpa using hno)
    have hcontents : s.contents = s.filed.entries := by rw [Segment.contents, if_pos hout]
    have hcommitted := h.committed
    rw [hcontents] at hcommitted ⊢
    refine ⟨s.fill, ?_, ⟨h.present, ⟨rfl, rfl⟩, hcommitted⟩, rfl, fun _ => rfl⟩
    rw [Segment.forceSetup, if_neg (by simp [h.present]), if_pos hout]

theorem repair_one (shl : Shift) (res : K → Resource) {key : K} (hs : s.Sound) (hfiled : s.contents.head?.map fst = some key)
    {map : RealTimeMap K} {pre post : List (K × Segment K)} (hmap : map.entries = pre ++ (key, s) :: post)
    (hpost : ∀ e ∈ s.contents, ∀ q ∈ post, e.1 < q.1) :
    ∃ (steps : Nat) (map' : RealTimeMap K) (again : Bool) (parts : List (K × Segment K)),
      (∀ fuel, repairStreamRange shl res (fuel + steps) map key = some (map', again)) ∧
      map'.entries = pre ++ parts ++ post ∧ parts.flatMap (fun q => q.2.contents) = s.contents ∧ ∀ q ∈ parts, Repaired shl q.1 q.2 := by
  obtain ⟨loaded, hsetup, hloaded, hentries, hsaved⟩ := forceSetup_sound hs
  have hreset : Notes loaded.resetStreamIndexes.streamIndexes ([] : List (K × StoryLine)) := notes_nil
  obtain ⟨s', overflow, hrun, hsame, hover, front, back, hcut, hnotes, hall⟩ :=
    addStreamIndexes_spec shl hreset rfl (show ∀ e ∈ loaded.entries.entries, Committed e.2.value from hloaded.committed)
  rw [nil_append] at hcut
  have hentries' : s'.entries.entries = loaded.entries.entries := by rw [hsame]; rfl
  have hloaded' : s'.Loaded := by
    rw [hsame]
    exact ⟨hloaded.present, hloaded.inMemory, hloaded.committed⟩
  have hsaved' : s'.dirty = false → s'.filed = s'.entries := by
    rw [hsame]
    exact hsaved
  have hput : (map.put key s').entries = pre ++ (key, s') :: post := put_at hmap s'
  cases overflow with
  | false =>
    obtain ⟨hcontents, hsound, hto⟩ := purge_contents (res key) hloaded' hsaved'
    rw [hentries', hentries] at hcontents
    have hback := hall rfl
    subst hback
    rw [append_nil] at hcut
    refine ⟨0, purgeSegment res (map.put key s') key, false, [(key, s'.purge (res key))], fun fuel => ?_, ?_, by simpa using hcontents, ?_⟩
    · rw [repairStreamRange, get_at hmap]
      simp [hsetup, hrun]
    · simpa [purgeSegment] using modify_at hput (·.purge (res key))
    · intro q hq
      rw [mem_singleton.mp hq]
      refine ⟨hsound, by rw [hcontents]; exact hfiled, by rw [hto]; exact hover, ?_⟩
      rwa [hcontents, hto, ← hentries, hcut]
  | true =>
    have hitem : Item shl key s' := by
      refine ⟨hloaded', by rw [hentries', hentries]; exact hfiled, fun h => by simp [hover] at h, fun h => ?_⟩
      have := hnotes.two shl h
      rw [hentries', hcut, length_append]
      omega
    obtain ⟨steps, map', parts, hsteps, hmap', hparts, hrepaired⟩ :=
      partition_one res hitem hput (by rwa [hentries', hentries]) []
    refine ⟨steps, map', true, parts, fun fuel => ?_, hmap', by rw [hparts, hentries', hentries], hrepaired⟩
    have hdone : partitionSegment shl res fuel [] map' = some map' := by cases fuel <;> rfl
    rw [repairStreamRange, get_at hmap]
    simp [hsetup, hrun, hsteps, hdone]

/-- The segments with what they stand for. -/
def held (map : RealTimeMap K) : List (K × List (K × StoryLine)) := map.entries.map fun q => (q.1, q.2.contents)

theorem held_append {map : RealTimeMap K} {pre post : List (K × Segment K)} (h : map.entries = pre ++ post) :
    flat (held map) = pre.flatMap (fun q => q.2.contents) ++ post.flatMap (fun q => q.2.contents) := by
  simp [held, flat, h, flatMap_map]

theorem filed_held {key : K} (h : s.contents.head?.map fst = some key) : ∃ v, s.contents.head? = some (key, v) := by
  obtain ⟨e, he, rfl⟩ := map_eq_some_iff.mp h
  exact ⟨e.2, he⟩

section Map

variable {map : RealTimeMap K} {pre post : List (K × Segment K)} {key : K} {s : Segment K} (hp : Partitioned (held map))
  (hmap : map.entries = pre ++ (key, s) :: post)

include hp hmap

theorem segment_held : s.contents.head?.map fst = some key ∧ ∀ e ∈ s.contents, ∀ q ∈ post, e.1 < q.1 := by
  have hheld : held map = pre.map (fun q => (q.1, q.2.contents)) ++ (key, s.contents) :: post.map fun q => (q.1, q.2.contents) := by
    simp [held, hmap]
  rw [hheld] at hp
  obtain ⟨v, hv⟩ := hp.filed _ (mem_append_right _ mem_cons_self)
  refine ⟨by rw [show s.contents.head? = _ from hv]; rfl, fun e he q hq => ?_⟩
  have hright := hp.right
  have hmem : (q.1, q.2.contents) ∈ post.map fun q => (q.1, q.2.contents) := mem_map_of_mem hq
  obtain ⟨w, hw⟩ := hright.key_mem (mem_cons_of_mem _ hmem)
  exact Partitioned.across (t := [(key, s.contents)]) hright (by simpa using he) (mem_flat.mpr ⟨_, hmem, hw⟩)

/-- Where a segment is replaced by parts of it, the partition stays one. -/
theorem exchanged {map' : RealTimeMap K} {parts : List (K × Segment K)} (hmap' : map'.entries = pre ++ parts ++ post)
    (hparts : parts.flatMap (fun q => q.2.contents) = s.contents) (hfiled : ∀ q ∈ parts, q.2.contents.head?.map fst = some q.1) :
    Partitioned (held map') ∧ flat (held map') = flat (held map) := by
  have hflat : flat (held map') = flat (held map) := by
    rw [held_append hmap, held_append hmap', flatMap_append, flatMap_cons, hparts, append_assoc]
  refine ⟨⟨fun q hq => ?_, by rw [hflat]; exact hp.ascending⟩, hflat⟩
  obtain ⟨x, hx, rfl⟩ := mem_map.mp hq
  rw [hmap', append_assoc] at hx
  rcases mem_append.mp hx with hx | hx
  · exact hp.filed _ (mem_map_of_mem (hmap ▸ mem_append_left _ hx))
  · rcases mem_append.mp hx with hx | hx
    · exact filed_held (hfiled x hx)
    · exact hp.filed _ (mem_map_of_mem (hmap ▸ mem_append_right _ (mem_cons_of_mem _ hx)))

end Map

/-- The repair of a segment ends, with segments in its place that have its entries in their order. None is empty, each is filed under its
first key, and each has the files of its own entries' newest versions on disk as its indexes, which fit. -/
theorem ranges_repaired (shl : Shift) (res : K → Resource) (map : RealTimeMap K) (hp : Partitioned (held map)) {key : K} {segment : Segment K}
    (hget : map.get key = some segment) (hsound : segment.Sound) :
    ∃ (steps : Nat) (map' : RealTimeMap K) (again : Bool) (pre parts post : List (K × Segment K)),
      (∀ fuel, repairStreamRange shl res (fuel + steps) map key = some (map', again)) ∧
      map.entries = pre ++ (key, segment) :: post ∧ map'.entries = pre ++ parts ++ post ∧
      parts.flatMap (fun q => q.2.contents) = segment.contents ∧ Partitioned (held map') ∧ flat (held map') = flat (held map) ∧
      ∀ q ∈ parts, q.2.contents ≠ [] ∧ q.2.getStreamRangeOverflow shl true = some false ∧
        ∀ x old, q.2.streamIndexes.get x = some old ↔
          old = false ∧ ∃ e ∈ q.2.contents, (newestOnDisk e.2.value).map (·.data.fileIndex) = some x := by
  obtain ⟨pre, post, hmap⟩ := append_of_mem (mem_entries.mpr hget)
  obtain ⟨hfiled, hpost⟩ := segment_held hp hmap
  obtain ⟨steps, map', again, parts, hrun, hmap', hparts, hall⟩ := repair_one shl res hsound hfiled hmap hpost
  obtain ⟨hp', hflat⟩ := exchanged hp hmap hmap' hparts fun q hq => (hall q hq).filed
  refine ⟨steps, map', again, pre, parts, post, hrun, hmap, hmap', hparts, hp', hflat, fun q hq => ⟨?_, (hall q hq).fits, (hall q hq).notes⟩⟩
  obtain ⟨e, he, -⟩ := filed_mem (hall q hq).filed
  exact ne_nil_of_mem he

def inFile (fileIndex : Short) : StoryLine := ⟨[⟨⟨fileIndex, 100⟩, levelCommit, false, false, false, 0, 0⟩], none⟩

def threeFiles : SortedMap Nat StoryLine := ⟨[(1, inFile 1), (2, inFile 20), (3, inFile 40)], by decide⟩

/-- Three entries in the files 1, 20 and 40, and no indexes. -/
def threeEntries : Segment Nat :=
  { (Segment.new : Segment Nat) with
    entries := threeFiles
    filed := threeFiles }

theorem three_files_repaired : ∃ (map : RealTimeMap Nat) (steps : Nat) (map' : RealTimeMap Nat) (again : Bool),
    map.entries.map (fun q => q.2.entries.entries.filterMap located) = [[1, 20, 40]] ∧
    (∀ fuel, repairStreamRange shiftModulo (fun _ => ⟨false, false, false⟩) (fuel + steps) map 1 = some (map', again)) ∧
    flat (held map') = threeFiles.entries := by
  obtain ⟨segment, hsegment⟩ : ∃ segment : Segment Nat, segment = threeEntries := ⟨_, rfl⟩
  obtain ⟨map, hmap⟩ : ∃ map : RealTimeMap Nat, map.entries = [(1, segment)] := ⟨⟨[(1, segment)], pairwise_singleton _ _⟩, rfl⟩
  have hheld : held map = [(1, threeFiles.entries)] := by simp [held, hmap, hsegment, Segment.contents, threeEntries, Segment.new]
  have hp : Partitioned (held map) := by
    rw [hheld]
    exact Partitioned.single threeFiles.sorted
  have hsound : segment.Sound := by
    rw [hsegment]
    refine ⟨⟨rfl, rfl⟩, fun e he => ?_, fun _ _ => rfl⟩
    obtain ⟨fileIndex, hone⟩ : ∃ fileIndex, e.2 = inFile fileIndex := by
      have hin : e ∈ [(1, inFile 1), (2, inFile 20), (3, inFile 40)] := he
      simp only [mem_cons, not_mem_nil, or_false] at hin
      rcases hin with rfl | rfl | rfl <;> exact ⟨_, rfl⟩
    rw [hone]
    exact ⟨⟨_, mem_singleton_self _, rfl⟩, forall_mem_nil _⟩
  have hget : map.get 1 = some segment := mem_entries.mp (by simp [hmap])
  obtain ⟨steps, map', again, -, -, -, hrun, -, -, -, -, hflat, -⟩ := ranges_repaired shiftModulo (fun _ => ⟨false, false, false⟩) map hp hget hsound
  refine ⟨map, steps, map', again, ?_, hrun, ?_⟩
  · rw [hmap, hsegment]
    decide
  · rw [hflat, hheld]
    exact append_nil _

/-- The first half does not fit either. -/
example : (repairStreamRange shiftModulo (fun _ => ⟨false, false, false⟩) 5 (empty.put 1 threeEntries) 1).map
      (fun r => r.1.entries.map fun q => (q.1, q.2.streamIndexes.entries)) =
    some [(1, [(1, false)]), (2, [(20, false)]), (3, [(40, false)])] := by decide

/-! ## All segments -/

section Pass

variable (shl : Shift) (res : K → Resource)

/-- The pass leaves such a segment as it is. -/
def Skipped (s : Segment K) : Prop := s.summary = true ∨ s.getStreamRangeOverflow shl true = some false

instance (s : Segment K) : Decidable (Skipped shl s) := inferInstanceAs (Decidable (_ ∨ _))

theorem skip_eq (s : Segment K) : s.skip shl = some (decide (Skipped shl s)) := by
  rcases overflow_total shl s.toSegment with h | h <;> cases hsummary : s.summary <;> simp [Segment.skip, Skipped, h, hsummary]

/-- The segments that have to be repaired. -/
def faulty (entries : List (K × Segment K)) : Nat := entries.countP fun q => ¬Skipped shl q.2

theorem faulty_parts {parts : List (K × Segment K)} (h : ∀ q ∈ parts, Repaired shl q.1 q.2) : faulty shl parts = 0 := by
  refine countP_eq_zero.mpr fun q hq => ?_
  have hskipped : Skipped shl q.2 := .inr (h q hq).fits
  simp [hskipped]

theorem faulty_mid (pre mid post : List (K × Segment K)) : faulty shl (pre ++ mid ++ post) = faulty shl pre + faulty shl mid + faulty shl post := by
  rw [faulty, countP_append, countP_append]
  rfl

/-- The pass ends, and then goes by all segments; the entries are what they were. -/
theorem pass_ends {map : RealTimeMap K} (hp : Partitioned (held map)) (hsound : ∀ q ∈ map.entries, q.2.summary = false → q.2.Sound)
    {place : Option K} (hplace : ∀ q ∈ map.entries, q ∉ map.behind place → Skipped shl q.2) :
    ∃ (steps : Nat) (map' : RealTimeMap K), (∀ fuel, repairStreamRanges shl res (fuel + steps) place map = some map') ∧
      Partitioned (held map') ∧ flat (held map') = flat (held map) ∧ ∀ q ∈ map'.entries, Skipped shl q.2 := by
  induction hn : faulty shl map.entries using Nat.strong_induction_on generalizing map place with
  | h n ihfaulty =>
    subst hn
    induction hl : map.behind place generalizing place with
    | nil => exact ⟨1, map, fun fuel => by rw [repairStreamRanges, hl], hp, rfl, fun q hq => hplace q hq (by simp [hl])⟩
    | cons q rest ihbehind =>
      obtain ⟨key, s⟩ := q
      obtain ⟨pre, hmap⟩ := SortedMap.behind_next hl
      have hnext := SortedMap.behind_at hmap
      have hmem : (key, s) ∈ map.entries := hmap ▸ mem_append_right _ mem_cons_self
      have hpre : ∀ q ∈ pre, Skipped shl q.2 := by
        intro q hq
        refine hplace q (hmap ▸ mem_append_left _ hq) fun hbehind => ?_
        have hlt := (keys_at hmap).1 q hq
        rw [hl] at hbehind
        rcases mem_cons.mp hbehind with rfl | hq'
        · exact lt_irrefl _ hlt
        · exact lt_asymm hlt ((keys_at hmap).2 q hq')
      by_cases hskipped : Skipped shl s
      · have hplace1 : ∀ q ∈ map.entries, q ∉ map.behind (some key) → Skipped shl q.2 := by
          intro q hq hnot
          rw [hnext] at hnot
          rw [hmap] at hq
          rcases mem_append.mp hq with hq | hq
          · exact hpre q hq
          · rcases mem_cons.mp hq with rfl | hq
            · exact hskipped
            · exact absurd hq hnot
        obtain ⟨steps, map', hrun, hresult⟩ := ihbehind hplace1 hnext
        refine ⟨steps + 1, map', fun fuel => ?_, hresult⟩
        rw [← Nat.add_assoc, repairStreamRanges, hl]
        simpa [skip_eq, hskipped] using hrun fuel
      · have hsummary : s.summary = false := by
          by_contra hsum
          exact hskipped (.inl (by simpa using hsum))
        obtain ⟨hfiled, hpost⟩ := segment_held hp hmap
        obtain ⟨steps1, map1, again, parts, hrun1, hmap1, hparts, hall⟩ := repair_one shl res (hsound _ hmem hsummary) hfiled hmap hpost
        obtain ⟨hp1, hflat1⟩ := exchanged hp hmap hmap1 hparts fun q hq => (hall q hq).filed
        have hfewer : faulty shl map1.entries < faulty shl map.entries := by
          have hone : faulty shl [(key, s)] = 1 := by simp [faulty, hskipped]
          rw [hmap1, hmap, ← singleton_append, ← append_assoc, faulty_mid, faulty_mid, faulty_parts shl hall, hone]
          omega
        have hsound1 : ∀ q ∈ map1.entries, q.2.summary = false → q.2.Sound := by
          intro q hq hqs
          rw [hmap1, append_assoc] at hq
          rcases mem_append.mp hq with hq | hq
          · exact hsound q (hmap ▸ mem_append_left _ hq) hqs
          · rcases mem_append.mp hq with hq | hq
            · exact (hall q hq).sound
            · exact hsound q (hmap ▸ mem_append_right _ (mem_cons_of_mem _ hq)) hqs
        have hplace1 : ∀ q ∈ map1.entries, q ∉ map1.behind (if again then none else some key) → Skipped shl q.2 := by
          intro q hq hnot
          rw [hmap1, append_assoc] at hq
          rcases mem_append.mp hq with hq' | hq'
          · exact hpre q hq'
          · rcases mem_append.mp hq' with hq' | hq'
            · exact .inr (hall q hq').fits
            · refine absurd ?_ hnot
              have hq1 : q ∈ map1.entries := hmap1 ▸ mem_append_right _ hq'
              cases again with
              | true => exact hq1
              | false => exact mem_filter.mpr ⟨hq1, by simpa using (keys_at hmap).2 q hq'⟩
        obtain ⟨steps2, map', hrun2, hp', hflat', hall'⟩ := ihfaulty _ hfewer hp1 hsound1 hplace1 rfl
        refine ⟨steps2 + steps1 + 1, map', fun fuel => ?_, hp', hflat'.trans hflat1, hall'⟩
        have hrun := hrun2 (fuel + steps1)
        rw [Nat.add_right_comm] at hrun
        rw [← Nat.add_assoc, ← Nat.add_assoc, repairStreamRanges, hl]
        simpa [skip_eq, hskipped, hrun1] using hrun

theorem pass_ends_three_files : ∃ (map : RealTimeMap Nat) (steps : Nat) (map' : RealTimeMap Nat), map.entries = [(1, threeEntries)] ∧
    (∀ fuel, repairStreamRanges shiftModulo (fun _ => ⟨false, false, false⟩) (fuel + steps) none map = some map') ∧
    flat (held map') = flat (held map) ∧ ∀ q ∈ map'.entries, Skipped shiftModulo q.2 := by
  obtain ⟨map, hmap⟩ : ∃ map : RealTimeMap Nat, map.entries = [(1, threeEntries)] := ⟨⟨_, pairwise_singleton _ _⟩, rfl⟩
  have hp : Partitioned (held map) := by
    rw [held, hmap]
    exact Partitioned.single threeFiles.sorted
  have hsound : threeEntries.Sound := ⟨⟨rfl, rfl⟩, fun e he => ⟨by revert e; decide, by revert e; decide⟩, fun _ _ => rfl⟩
  obtain ⟨steps, map', hrun, -, hflat, hskip⟩ := @pass_ends Nat _ shiftModulo (fun _ => ⟨false, false, false⟩) map hp
    (fun q hq _ => by rw [hmap, mem_singleton] at hq; exact hq ▸ hsound) none fun _ hq hbehind => absurd hq hbehind
  exact ⟨map, steps, map', hmap, hrun, hflat, hskip⟩

end Pass

end DeepFabric.Store.RangeRepair
