/-
  DeepFabric.Store.Retention — which files awaiting deletion go, and the checkpoints that stay
  (core/RealTimeAdaptive.h: SummaryImpact, getFullSummaryImpact, allowFileClobber, ClobberUtil), with checkpoints on.

  A summary is known by its locality in the log, and refers to stream and paging files. The active localities of a primary and its
  secondaries go into one set, the anchoring ones into another, both ordered by the creation times of the log's files. A candidate is a
  set of the files that await deletion: any, if there are at most ten of them, and each on its own if there are more. It is allowed if
  no summary refers to its files, or none at the current locality does and enough of the others stay, or if what awaits deletion has
  grown too large. Of the allowed ones the heaviest goes.

  The localities that a candidate takes with it are collected in the order of the files' indexes, and looked up in the two sets. Where
  a log file is missing from the list, the order by creation times is none, and a search may miss what is in a set.

  What comes of the files is left out. The sizes of what is in use and of what awaits deletion are sums of 64 bits.
-/
import Mathlib.Data.Finset.Card
import Mathlib.Data.List.Dedup
import DeepFabric.Platform.ComparatorSet
import DeepFabric.Store.LocalityOrder
import DeepFabric.Store.SummarySet

namespace DeepFabric.Store.Retention

open Lib Platform ComparatorSet RecoveryBoundary List
open SummarySet (Kind)
open Option (bind_eq_bind bind_some some)

/-- MeasuredRandomAccessFile; files of other kinds have no type here. -/
structure File where
  indexValue : Nat
  type : Option Kind
  fileIndex : UInt16
  length : Int
  deriving DecidableEq, Repr

/-- What the summary set of a map answers, as localities. -/
structure Summaries where
  allSummaries : List Locality
  lastSummaries : List Locality
  summariesFor : Kind → UInt16 → List Locality

/-- A primary map with its secondaries; a dropped one leaves its slot. -/
structure Content where
  primary : Summaries
  secondaries : List (Option Summaries)
  checkpointFullyComplete : Bool
  currentLrtLocality : Locality
  awaitingDeletion : List File

/-- m_activeSize and m_deferredSize. -/
structure Storage where
  activeSize : UInt64
  deferredSize : UInt64
  deriving DecidableEq, Repr

def summaryTarget : Nat := 3

def summaryAnchor : Nat := 2

def summaryStorageThreshold : UInt64 := 2

structure SummaryImpact where
  active : ElementSet Locality
  anchors : ElementSet Locality

namespace Content

variable (x : Content)

def maps : List Summaries := x.primary :: x.secondaries.filterMap id

def map (indexValue : Nat) : Option Summaries :=
  if indexValue = 0 then some x.primary else (x.secondaries[indexValue - 1]?).join

/-- The localities of the summaries that refer to a file. -/
def refs (file : File) : List Locality :=
  match x.map file.indexValue, file.type with
  | some rt, some kind => rt.summariesFor kind file.fileIndex
  | _, _ => []

def active : List Locality := x.maps.flatMap (·.allSummaries)

def anchors : List Locality := x.maps.flatMap (·.lastSummaries)

end Content

section Choice

variable (lrt : List LrtFile) (storage : Storage) (x : Content)

def getFullSummaryImpact : Option SummaryImpact := do
  let active ← addAllAbsent (compareNoViewpoint lrt) init x.active
  let anchors ← addAllAbsent (compareNoViewpoint lrt) init x.anchors
  some ⟨active, anchors⟩

/-- How many of the summaries a search finds in the set. -/
def found (set summaries : ElementSet Locality) : Nat := (elements summaries).countP fun l => contains (compareNoViewpoint lrt) set l

/-- The difference of two numbers of 32 bits. -/
def minus (a b : Nat) : Nat := if b ≤ a then a - b else a + 2 ^ 32 - b

variable (report : SummaryImpact)

def allowInvalidateSummaries (summaries : ElementSet Locality) : Bool :=
  if (elements summaries).any fun l => compareNoViewpoint lrt x.currentLrtLocality l == 0 then false
  else if summaryTarget ≤ minus report.active.size (found lrt report.active summaries) ∧
      summaryAnchor ≤ minus report.anchors.size (found lrt report.anchors summaries) then true
  else storage.deferredSize > storage.activeSize * summaryStorageThreshold

/-- The localities that go with the files, in the order of the files' indexes. -/
def impacted (files : List File) : Option (ElementSet Locality) := addAllAbsent (compareNoViewpoint []) init (files.flatMap x.refs)

def allowFileClobber (files : List File) : Option Bool :=
  if x.checkpointFullyComplete = false then some false
  else do
    let summaries ← impacted x files
    if report.active.size = 0 ∨ summaries.size = 0 then some true
    else some (allowInvalidateSummaries lrt storage x report summaries)

/-- The place of the file's first checkpoint among the active ones, from 1 on. -/
def orderOf (file : File) : Nat :=
  match (x.refs file).head? with
  | none => 0
  | some minCheckpoint => ((elements report.active).findIdx? fun l => compareNoViewpoint lrt l minCheckpoint == 0).elim 0 (· + 1)

def weightedAggregateSize (files : List File) : UInt64 :=
  let maxOrder := report.active.size + 1
  let size := files.foldl (fun size file => if file.length > 0 then size + UInt64.ofNat file.length.toNat else size) 0
  let order := files.foldl (fun order file => if orderOf lrt x report file < order then orderOf lrt x report file else order) maxOrder
  size * UInt64.ofNat (maxOrder + (maxOrder - order)) / UInt64.ofNat maxOrder

end Choice

/-- The sub-lists there are, with the element and without, and the one with the element only. -/
def combine (s : List (List File)) (v : File) : List (List File) := s ++ s.map (· ++ [v]) ++ [[v]]

def subsets (elements : List File) : List (List File) := elements.foldl combine []

def candidates (deferred : List File) : List (List File) := if deferred.length ≤ 10 then subsets deferred else deferred.map ([·])

/-- A turn of chooseFiles: the greatest size so far, and whose it is. -/
def consider (lrt : List LrtFile) (storage : Storage) (x : Content) (report : SummaryImpact) (max : UInt64 × Option (List File))
    (candidate : List File) : Option (UInt64 × Option (List File)) := do
  let size := weightedAggregateSize lrt x report candidate
  if size > max.1 then
    if ← allowFileClobber lrt storage x report candidate then some (size, some candidate) else some max
  else some max

def chooseFiles (lrt : List LrtFile) (storage : Storage) (x : Content) (report : SummaryImpact) : Option (List File) :=
  ((candidates x.awaitingDeletion).foldlM (consider lrt storage x report) (0, none)).map fun max => max.2.getD []

/-! ## What should stay -/

/-- What a comparator without viewpoints sees of a locality. -/
def place (l : Locality) : Option (UInt16 × UInt32) := if l.isNone then none else some (l.index, l.length)

def places (localities : List Locality) : Finset (Option (UInt16 × UInt32)) := (localities.map place).toFinset

/-- The deferred storage exceeds the threshold. -/
def Exceeds (storage : Storage) : Prop := storage.activeSize.toNat * summaryStorageThreshold.toNat < storage.deferredSize.toNat

instance (storage : Storage) : Decidable (Exceeds storage) := inferInstanceAs (Decidable (_ < _))

/-- Enough active and anchoring localities stay that no summary of the files has. -/
structure Enough (x : Content) (files : List File) : Prop where
  active : summaryTarget ≤ (places x.active \ places (files.flatMap x.refs)).card
  anchors : summaryAnchor ≤ (places x.anchors \ places (files.flatMap x.refs)).card

/-- No summary at the current locality refers to a file that goes, and enough of the others stay unless there is too much to delete. -/
structure Kept (storage : Storage) (x : Content) (files : List File) : Prop where
  current : ∀ file ∈ files, ∀ l ∈ x.refs file, place l ≠ place x.currentLrtLocality
  enough : Exceeds storage ∨ Enough x files

structure Retains (storage : Storage) (x : Content) (files : List File) : Prop where
  deferred : ∀ file ∈ files, file ∈ x.awaitingDeletion
  kept : (∀ file ∈ files, ∀ l ∈ x.refs file, place l ∉ places x.active) ∨ Kept storage x files

/-- No more is taken off a total than it is. -/
def Counts (lrt : List LrtFile) (x : Content) (report : SummaryImpact) : Prop :=
  ∀ files summaries, impacted x files = some summaries →
    found lrt report.active summaries ≤ report.active.size ∧ found lrt report.anchors summaries ≤ report.anchors.size

def Meets (lrt : List LrtFile) (storage : Storage) (x : Content) : Prop :=
  ∃ report files, getFullSummaryImpact lrt x = some report ∧ chooseFiles lrt storage x report = some files ∧
    Retains storage x files ∧ Counts lrt x report

/-- Twice the size in use is no number of 64 bits, and what is left of it is below what awaits deletion. -/
def Wraps (storage : Storage) : Prop := storage.deferredSize > storage.activeSize * summaryStorageThreshold

instance (storage : Storage) : Decidable (Wraps storage) := inferInstanceAs (Decidable (_ > _))

/-- There is too much to delete, or it does not look like it and no index that is not in the list is between those of two files created
    the other way around. -/
def Ok (lrt : List LrtFile) (storage : Storage) : Prop := Exceeds storage ∨ (¬Wraps storage ∧ Unmixed (creationTime lrt))

/-! ## The sets -/

section Sets

variable {lrt : List LrtFile}

theorem compare_place {a b : Locality} : compareNoViewpoint lrt a b = 0 ↔ place a = place b := by
  have hnone (h : a.length = b.length) : a.isNone = b.isNone := by rw [Locality.isNone, Locality.isNone, h]
  rw [compareNoViewpoint_eq]
  unfold place
  by_cases ha : a.isNone = true
  · by_cases hb : b.isNone = true
    · simp [ha, hb]
    · have hne : ¬(a.index = b.index ∧ a.length = b.length) := fun h => hb (hnone h.2 ▸ ha)
      simp [ha, hb, hne]
  · by_cases hb : b.isNone = true
    · have hne : ¬(a.index = b.index ∧ a.length = b.length) := fun h => ha (hnone h.2 ▸ hb)
      simp [ha, hb, hne]
    · simp [ha, hb]

theorem orders (h : Unmixed (creationTime lrt)) : Orders (compareNoViewpoint lrt) where
  swap a b := by
    have := compareNoViewpoint_swap lrt a b
    omega
  trans {a b c} hab hbc := by
    have hac : compareNoViewpoint lrt a c ≤ 0 := compareNoViewpoint_trans h (Int.le_of_lt hab) (Int.le_of_lt hbc)
    refine lt_of_le_of_ne hac fun hzero => ?_
    have hba : compareNoViewpoint lrt b a ≤ 0 :=
      compareNoViewpoint_trans h (Int.le_of_lt hbc) (compareNoViewpoint_nonneg.mp (Int.le_of_eq hzero.symm))
    have := compareNoViewpoint_swap lrt a b
    omega

theorem unmixed_nil : Unmixed (creationTime []) := by
  intro i u j a b _ _ hi _ _
  cases hi

/-- What is collected has the places of all that was added, and each once where the comparator is an order. -/
theorem collect (lrt : List LrtFile) (keys : List Locality) : ∃ t, addAllAbsent (compareNoViewpoint lrt) init keys = some t ∧ t.Built ∧
    places (elements t) = places keys ∧ (Unmixed (creationTime lrt) → (elements t).Pairwise fun a b => compareNoViewpoint lrt a b < 0) := by
  have hinit : (init : ElementSet Locality).Built := TreeMap.init_built 3 false
  obtain ⟨t, hadd, hb, hkinds⟩ := addAllAbsent_kinds (fun a b => @compare_place lrt a b) hinit keys
  refine ⟨t, hadd, hb, ?_, ?_⟩
  · ext p
    have hmem := hkinds p
    have hnil : elements (init : ElementSet Locality) = [] := rfl
    rw [hnil, map_nil, or_iff_right not_mem_nil] at hmem
    rw [places, places, mem_toFinset, mem_toFinset]
    exact hmem
  · intro h
    obtain ⟨t', hadd', -, hs⟩ := addAllAbsent_ordered (orders h) hinit List.Pairwise.nil keys
    obtain rfl : t = t' := some.inj (hadd.symm.trans hadd')
    exact hs

variable {set summaries : ElementSet Locality}

theorem found_le_size (hset : set.Built) (hs : (elements summaries).Pairwise fun a b => compareNoViewpoint [] a b < 0) :
    found lrt set summaries ≤ set.size := by
  have hnodup : ((elements summaries).map place).Nodup := kinds_nodup (fun a b => @compare_place [] a b) hs
  have hsub : (((elements summaries).filter fun l => contains (compareNoViewpoint lrt) set l).map place).Nodup :=
    hnodup.sublist (filter_sublist.map place)
  have hin : ((elements summaries).filter fun l => contains (compareNoViewpoint lrt) set l).map place ⊆ (elements set).map place := by
    intro p hp
    obtain ⟨l, hl, rfl⟩ := mem_map.mp hp
    obtain ⟨e, he, hzero⟩ := contains_sound (mem_filter.mp hl).2
    rw [← compare_place.mp hzero]
    exact mem_map_of_mem he
  have hle := (subperm_of_subset hsub hin).length_le
  rw [length_map, length_map, ← countP_eq_length_filter] at hle
  rw [size_elements hset]
  exact hle

/-- Where the comparator is an order, what is left of the total is what the summaries do not have. -/
theorem size_sub_found (hmix : Unmixed (creationTime lrt)) (hset : set.Built)
    (hord : (elements set).Pairwise fun a b => compareNoViewpoint lrt a b < 0)
    (hs : (elements summaries).Pairwise fun a b => compareNoViewpoint [] a b < 0) :
    set.size - found lrt set summaries = (places (elements set) \ places (elements summaries)).card := by
  have hcard : (places (elements set)).card = set.size := by
    rw [places, toFinset_card_of_nodup (kinds_nodup (fun a b => @compare_place lrt a b) hord), length_map, size_elements hset]
  have hcontains (l : Locality) : contains (compareNoViewpoint lrt) set l = true ↔ place l ∈ places (elements set) := by
    rw [contains_iff (orders hmix) hord, places, mem_toFinset, mem_map]
    simp only [compare_place]
  have hfound : found lrt set summaries = (places (elements summaries) ∩ places (elements set)).card := by
    have hnodup : ((elements summaries).map place).Nodup := kinds_nodup (fun a b => @compare_place [] a b) hs
    have hfilter : places (elements summaries) ∩ places (elements set) =
        (((elements summaries).filter fun l => contains (compareNoViewpoint lrt) set l).map place).toFinset := by
      ext p
      simp only [Finset.mem_inter, mem_toFinset, mem_map, mem_filter, hcontains, places]
      constructor
      · rintro ⟨⟨l, hl, rfl⟩, hp⟩
        exact ⟨l, ⟨hl, hp⟩, rfl⟩
      · rintro ⟨l, ⟨hl, hp⟩, rfl⟩
        exact ⟨⟨l, hl, rfl⟩, hp⟩
    rw [hfilter, toFinset_card_of_nodup (hnodup.sublist (filter_sublist.map place)), length_map,
      ← countP_eq_length_filter]
    rfl
  rw [Finset.card_sdiff, hcard, hfound]

end Sets

/-! ## The choice -/

section Choice

variable {lrt : List LrtFile} {storage : Storage} {x : Content} {report : SummaryImpact} {files : List File}

/-- A report has the places of the active and of the anchoring summaries. -/
structure Reports (lrt : List LrtFile) (x : Content) (report : SummaryImpact) : Prop where
  active : report.active.Built ∧ places (elements report.active) = places x.active
  anchors : report.anchors.Built ∧ places (elements report.anchors) = places x.anchors
  ordered : Unmixed (creationTime lrt) → ((elements report.active).Pairwise fun a b => compareNoViewpoint lrt a b < 0) ∧
    (elements report.anchors).Pairwise fun a b => compareNoViewpoint lrt a b < 0

theorem getFullSummaryImpact_spec (lrt : List LrtFile) (x : Content) :
    ∃ report, getFullSummaryImpact lrt x = some report ∧ Reports lrt x report := by
  obtain ⟨active, ha, hab, hap, hao⟩ := collect lrt x.active
  obtain ⟨anchors, hc, hcb, hcp, hco⟩ := collect lrt x.anchors
  refine ⟨⟨active, anchors⟩, ?_, ⟨hab, hap⟩, ⟨hcb, hcp⟩, fun h => ⟨hao h, hco h⟩⟩
  rw [getFullSummaryImpact, ha, bind_eq_bind, bind_some, hc]
  rfl

theorem impacted_spec (x : Content) (files : List File) : ∃ summaries, impacted x files = some summaries ∧ summaries.Built ∧
    places (elements summaries) = places (files.flatMap x.refs) ∧
    (elements summaries).Pairwise fun a b => compareNoViewpoint [] a b < 0 := by
  obtain ⟨summaries, hadd, hb, hp, ho⟩ := collect [] (files.flatMap x.refs)
  exact ⟨summaries, hadd, hb, hp, ho unmixed_nil⟩

theorem counts (h : Reports lrt x report) : Counts lrt x report := by
  intro files summaries himpacted
  obtain ⟨summaries', hadd, -, -, hs⟩ := impacted_spec x files
  obtain rfl : summaries = summaries' := some.inj (himpacted.symm.trans hadd)
  exact ⟨found_le_size h.active.1 hs, found_le_size h.anchors.1 hs⟩

theorem allowFileClobber_total : ∃ allowed, allowFileClobber lrt storage x report files = some allowed := by
  unfold allowFileClobber
  split_ifs
  · exact ⟨_, rfl⟩
  · obtain ⟨summaries, himpacted, -⟩ := impacted_spec x files
    rw [himpacted, bind_eq_bind, bind_some]
    split_ifs <;> exact ⟨_, rfl⟩

/-- What goes is nothing, or an allowed candidate. -/
def Chosen (lrt : List LrtFile) (storage : Storage) (x : Content) (report : SummaryImpact) (cs : List (List File)) (files : List File) : Prop :=
  files = [] ∨ files ∈ cs ∧ allowFileClobber lrt storage x report files = some true

theorem consider_spec {max : UInt64 × Option (List File)} {done : List (List File)} {candidate : List File}
    (h : Chosen lrt storage x report done (max.2.getD [])) : ∃ max', consider lrt storage x report max candidate = some max' ∧
      Chosen lrt storage x report (done ++ [candidate]) (max'.2.getD []) := by
  have hkeep : Chosen lrt storage x report (done ++ [candidate]) (max.2.getD []) :=
    h.imp id fun h => ⟨mem_append_left _ h.1, h.2⟩
  obtain ⟨allowed, hallow⟩ := @allowFileClobber_total lrt storage x report candidate
  unfold consider
  dsimp only
  split_ifs with hsize
  · rw [hallow, bind_eq_bind, bind_some]
    cases allowed with
    | true => exact ⟨_, rfl, .inr ⟨by simp, hallow⟩⟩
    | false => exact ⟨_, rfl, hkeep⟩
  · exact ⟨_, rfl, hkeep⟩

theorem chooseFiles_spec (lrt : List LrtFile) (storage : Storage) (x : Content) (report : SummaryImpact) :
    ∃ files, chooseFiles lrt storage x report = some files ∧ Chosen lrt storage x report (candidates x.awaitingDeletion) files := by
  have hfold (cs done : List (List File)) (max : UInt64 × Option (List File)) (h : Chosen lrt storage x report done (max.2.getD [])) :
      ∃ max', cs.foldlM (consider lrt storage x report) max = some max' ∧ Chosen lrt storage x report (done ++ cs) (max'.2.getD []) := by
    induction cs generalizing done max with
    | nil => exact ⟨max, rfl, by rwa [append_nil]⟩
    | cons c cs ih =>
      obtain ⟨max1, hturn, h1⟩ := @consider_spec lrt storage x report _ _ c h
      obtain ⟨max', hrest, h'⟩ := ih (done ++ [c]) max1 h1
      refine ⟨max', by rw [foldlM_cons, hturn]; exact hrest, ?_⟩
      rwa [append_assoc, singleton_append] at h'
  obtain ⟨max, hmax, hchosen⟩ := hfold (candidates x.awaitingDeletion) [] (0, none) (.inl rfl)
  exact ⟨max.2.getD [], by rw [chooseFiles, hmax]; rfl, hchosen⟩

theorem mem_candidates {deferred candidate : List File} (h : candidate ∈ candidates deferred) : ∀ file ∈ candidate, file ∈ deferred := by
  have hsubsets (l seen : List File) (s : List (List File)) (hs : ∀ c ∈ s, ∀ f ∈ c, f ∈ seen) :
      ∀ c ∈ l.foldl combine s, ∀ f ∈ c, f ∈ seen ++ l := by
    induction l generalizing seen s with
    | nil => simpa using hs
    | cons v l ih =>
      have hturn : ∀ c ∈ combine s v, ∀ f ∈ c, f ∈ seen ++ [v] := by
        intro c hc f hf
        rw [combine, append_assoc, mem_append, mem_append] at hc
        rcases hc with hc | hc | hc
        · exact mem_append_left _ (hs c hc f hf)
        · obtain ⟨c', hc', rfl⟩ := mem_map.mp hc
          rcases mem_append.mp hf with hf | hf
          · exact mem_append_left _ (hs c' hc' f hf)
          · exact mem_append_right _ hf
        · rw [mem_singleton.mp hc] at hf
          exact mem_append_right _ hf
      have hrest := ih (seen ++ [v]) (combine s v) hturn
      rwa [append_assoc, singleton_append] at hrest
  unfold candidates at h
  split_ifs at h
  · exact hsubsets deferred [] [] (forall_mem_nil _) candidate h
  · obtain ⟨v, hv, rfl⟩ := mem_map.mp h
    intro file hfile
    rwa [mem_singleton.mp hfile]

theorem place_mem {l : Locality} {ls : List Locality} (h : l ∈ ls) : place l ∈ places ls := by
  rw [places, mem_toFinset]
  exact mem_map_of_mem h

theorem places_eq_empty {t : ElementSet Locality} (ht : t.Built) (h : t.size = 0) : places (elements t) = ∅ := by
  rw [size_elements ht] at h
  rw [eq_nil_of_length_eq_zero h]
  rfl

/-- What is allowed is referred to by nothing active, or by nothing at the current locality; and where lookups and sizes can be relied on,
    enough stay. -/
theorem kept_of_allowed (hr : Reports lrt x report) (hok : Ok lrt storage) (h : allowFileClobber lrt storage x report files = some true) :
    (∀ file ∈ files, ∀ l ∈ x.refs file, place l ∉ places x.active) ∨ Kept storage x files := by
  obtain ⟨summaries, himpacted, hb, hplaces, hs⟩ := impacted_spec x files
  have hmem {file : File} {l : Locality} (hf : file ∈ files) (hl : l ∈ x.refs file) : place l ∈ places (elements summaries) := by
    rw [hplaces]
    exact place_mem (mem_flatMap.mpr ⟨file, hf, hl⟩)
  unfold allowFileClobber at h
  split_ifs at h with hcomplete
  · cases h
  rw [himpacted, bind_eq_bind, bind_some] at h
  split_ifs at h with hzero
  · refine .inl fun file hf l hl => ?_
    rcases hzero with hactive | hnone
    · rw [← hr.active.2, places_eq_empty hr.active.1 hactive]
      exact Finset.notMem_empty _
    · have hm := hmem hf hl
      rw [places_eq_empty hb hnone] at hm
      exact absurd hm (Finset.notMem_empty _)
  · right
    have hallow : allowInvalidateSummaries lrt storage x report summaries = true := some.inj h
    unfold allowInvalidateSummaries at hallow
    split_ifs at hallow with hcurrent hremain
    · refine ⟨?_, ?_⟩
      · intro file hf l hl heq
        apply hcurrent
        obtain ⟨e, he, hplace⟩ := mem_map.mp (mem_toFinset.mp (hmem hf hl))
        refine any_eq_true.mpr ⟨e, he, ?_⟩
        rw [beq_iff_eq, compare_place, hplace, heq]
      · by_cases hexceeds : Exceeds storage
        · exact .inl hexceeds
        · right
          obtain ⟨-, hmix⟩ := hok.resolve_left hexceeds
          have hcounts := counts hr files summaries himpacted
          have hactive := size_sub_found hmix hr.active.1 (hr.ordered hmix).1 hs
          have hanchors := size_sub_found hmix hr.anchors.1 (hr.ordered hmix).2 hs
          rw [hr.active.2, hplaces] at hactive
          rw [hr.anchors.2, hplaces] at hanchors
          rw [minus, if_pos hcounts.1, minus, if_pos hcounts.2, hactive, hanchors] at hremain
          exact ⟨hremain.1, hremain.2⟩
    · refine ⟨?_, ?_⟩
      · intro file hf l hl heq
        apply hcurrent
        obtain ⟨e, he, hplace⟩ := mem_map.mp (mem_toFinset.mp (hmem hf hl))
        refine any_eq_true.mpr ⟨e, he, ?_⟩
        rw [beq_iff_eq, compare_place, hplace, heq]
      · left
        by_contra hexceeds
        exact (hok.resolve_left hexceeds).1 (of_decide_eq_true hallow)

theorem meets_of_ok (hok : Ok lrt storage) (x : Content) : Meets lrt storage x := by
  obtain ⟨report, hreport, hr⟩ := getFullSummaryImpact_spec lrt x
  obtain ⟨files, hchoose, hchosen⟩ := chooseFiles_spec lrt storage x report
  refine ⟨report, files, hreport, hchoose, ?_, counts hr⟩
  rcases hchosen with rfl | ⟨hmem, hallow⟩
  · exact ⟨forall_mem_nil _, .inl (forall_mem_nil _)⟩
  · exact ⟨mem_candidates hmem, kept_of_allowed hr hok hallow⟩

end Choice

/-! ## What goes wrong -/

section

variable {lrt : List LrtFile} {storage : Storage} {x : Content} {report : SummaryImpact} {file : File}

theorem weightedAggregateSize_pos (hlength : file.length = 1) (hsize : report.active.size < 5) :
    weightedAggregateSize lrt x report [file] > 0 := by
  have hquotient (maxOrder order : Nat) (h0 : 0 < maxOrder) (h5 : maxOrder ≤ 5) (horder : order ≤ maxOrder) :
      0 < (0 + UInt64.ofNat 1) * UInt64.ofNat (maxOrder + (maxOrder - order)) / UInt64.ofNat maxOrder := by
    rw [UInt64.lt_iff_toNat_lt, UInt64.toNat_div, UInt64.toNat_mul]
    simp only [UInt64.toNat_ofNat', UInt64.toNat_add]
    rw [Nat.mod_eq_of_lt (show maxOrder < 2 ^ 64 by omega), Nat.mod_eq_of_lt (show maxOrder + (maxOrder - order) < 2 ^ 64 by omega)]
    simp
    omega
  unfold weightedAggregateSize
  simp only [foldl_cons, foldl_nil, hlength]
  refine hquotient _ _ (Nat.succ_pos _) (by omega) ?_
  split_ifs <;> omega

/-- A file that awaits deletion on its own goes if it is allowed. -/
theorem chooseFiles_single (hawaiting : x.awaitingDeletion = [file]) (hlength : file.length = 1) (hsize : report.active.size < 5)
    (hallow : allowFileClobber lrt storage x report [file] = some true) : chooseFiles lrt storage x report = some [file] := by
  rw [chooseFiles, hawaiting]
  show ([[file]].foldlM (consider lrt storage x report) (0, none)).map _ = _
  rw [foldlM_cons, consider, if_pos (weightedAggregateSize_pos hlength hsize), hallow]
  rfl

/-- What is not at the current locality is allowed if enough seem to stay, or if there seems to be too much to delete. -/
theorem allowFileClobber_of {files : List File} {summaries : ElementSet Locality} (hcomplete : x.checkpointFullyComplete = true)
    (himpacted : impacted x files = some summaries) (hcurrent : ∀ l ∈ elements summaries, place l ≠ place x.currentLrtLocality)
    (hstay : (summaryTarget ≤ minus report.active.size (found lrt report.active summaries) ∧
      summaryAnchor ≤ minus report.anchors.size (found lrt report.anchors summaries)) ∨ Wraps storage) :
    allowFileClobber lrt storage x report files = some true := by
  have hother : ¬((elements summaries).any fun l => compareNoViewpoint lrt x.currentLrtLocality l == 0) = true := by
    intro hany
    obtain ⟨l, hl, hzero⟩ := any_eq_true.mp hany
    exact hcurrent l hl (compare_place.mp (beq_iff_eq.mp hzero)).symm
  unfold allowFileClobber
  rw [if_neg (by rw [hcomplete]; exact nofun), himpacted, bind_eq_bind, bind_some]
  split_ifs
  · rfl
  · unfold allowInvalidateSummaries
    rw [if_neg hother]
    split_ifs with hremain
    · rfl
    · exact congrArg some (decide_eq_true (hstay.resolve_left hremain))

/-- What goes should not, where an active summary refers to it and too few are left without it. -/
theorem not_meets_of_chosen (hreport : getFullSummaryImpact lrt x = some report) (hchoose : chooseFiles lrt storage x report = some [file])
    (hexceeds : ¬Exceeds storage) (hactive : ∃ l ∈ x.refs file, place l ∈ places x.active) (hfew : ¬Enough x [file]) :
    ¬Meets lrt storage x := by
  rintro ⟨report', files, hreport', hchoose', ⟨-, hretains⟩, -⟩
  obtain rfl : report = report' := some.inj (hreport.symm.trans hreport')
  obtain rfl : [file] = files := some.inj (hchoose.symm.trans hchoose')
  rcases hretains with hnone | hkept
  · obtain ⟨l, hl, hin⟩ := hactive
    exact hnone file mem_cons_self l hl hin
  · exact hkept.enough.elim hexceeds hfew

/-- One checkpoint, and a file that it refers to. -/
def single : Content where
  primary := ⟨[⟨1, 60, 0⟩], [⟨1, 60, 0⟩], fun _ _ => [⟨1, 60, 0⟩]⟩
  secondaries := []
  checkpointFullyComplete := true
  currentLrtLocality := ⟨1, 70, 0⟩
  awaitingDeletion := [⟨0, some .stream, 1, 1⟩]

theorem not_meets_of_wraps (hexceeds : ¬Exceeds storage) (hwraps : Wraps storage) : ¬Meets lrt storage single := by
  have himpacted : impacted single [⟨0, some .stream, 1, 1⟩] = some (leaf [⟨1, 60, 0⟩]) := rfl
  have hreport : getFullSummaryImpact lrt single = some ⟨leaf [⟨1, 60, 0⟩], leaf [⟨1, 60, 0⟩]⟩ := rfl
  refine not_meets_of_chosen hreport (chooseFiles_single rfl rfl (by decide) ?_) hexceeds ?_ ?_
  · refine allowFileClobber_of rfl himpacted ?_ (.inr hwraps)
    intro l hl
    obtain rfl := mem_singleton.mp hl
    decide
  · exact ⟨⟨1, 60, 0⟩, mem_cons_self, by decide⟩
  · exact fun henough => absurd henough.active (by decide)

/-- Four checkpoints, two of them of the primary only, and a file that these refer to. -/
def four (i u j : UInt16) : Content where
  primary := ⟨[⟨u, 60, 0⟩, ⟨j, 60, 0⟩], [⟨j, 60, 0⟩], fun _ _ => [⟨u, 60, 0⟩, ⟨j, 60, 0⟩]⟩
  secondaries := [some ⟨[⟨i, 50, 0⟩, ⟨i, 60, 0⟩], [⟨i, 50, 0⟩, ⟨i, 60, 0⟩], fun _ _ => [⟨i, 50, 0⟩, ⟨i, 60, 0⟩]⟩]
  checkpointFullyComplete := true
  currentLrtLocality := ⟨i, 60, 0⟩
  awaitingDeletion := [⟨0, some .stream, 1, 1⟩]

theorem compare_neg {a b : Locality} (ha : a.isNone = false) (hb : b.isNone = false) (h : Before (creationTime lrt) a.index.toFin b.index.toFin) :
    compareNoViewpoint lrt a b < 0 ∧ 0 < compareNoViewpoint lrt b a := by
  have hswap := compareNoViewpoint_swap lrt a b
  have hne : ¬compareNoViewpoint lrt b a ≤ 0 := by
    rw [compareNoViewpoint_le hb ha]
    rintro (hba | ⟨heq, -⟩)
    · exact before_asymm h hba
    · rw [heq] at h
      exact before_asymm h h
  omega

theorem found_pair_le {set : ElementSet Locality} {k l : Locality}
    (h : contains (compareNoViewpoint lrt) set k = false ∨ contains (compareNoViewpoint lrt) set l = false) :
    found lrt set (leaf [k, l]) ≤ 1 := by
  rw [found, elements_leaf]
  rcases h with h | h
  · simp [countP_cons, h]
    split_ifs <;> omega
  · simp [countP_cons, h]
    split_ifs <;> omega

theorem le_minus {target total taken : Nat} (h : target + taken ≤ total) : target ≤ minus total taken := by
  rw [minus, if_pos (by omega)]
  omega

theorem not_meets_of_mixed (hexceeds : ¬Exceeds storage) {i u j : UInt16} {a b : Int} (hiu : i.toFin < u.toFin) (huj : u.toFin < j.toFin)
    (hi : creationTime lrt i.toFin = some a) (hu : creationTime lrt u.toFin = none) (hj : creationTime lrt j.toFin = some b) (hba : b < a) :
    ¬Meets lrt storage (four i u j) := by
  have hiu' : Before (creationTime lrt) i.toFin u.toFin := by simpa only [Before, hi, hu] using hiu
  have huj' : Before (creationTime lrt) u.toFin j.toFin := by simpa only [Before, hu, hj] using huj
  have hji' : Before (creationTime lrt) j.toFin i.toFin := by simpa only [Before, hi, hj] using Or.inl hba
  have hLi0u := @compare_neg lrt ⟨i, 50, 0⟩ ⟨u, 60, 0⟩ rfl rfl hiu'
  have hLiu := @compare_neg lrt ⟨i, 60, 0⟩ ⟨u, 60, 0⟩ rfl rfl hiu'
  have hLuj := @compare_neg lrt ⟨u, 60, 0⟩ ⟨j, 60, 0⟩ rfl rfl huj'
  have hLji0 := @compare_neg lrt ⟨j, 60, 0⟩ ⟨i, 50, 0⟩ rfl rfl hji'
  have hLji := @compare_neg lrt ⟨j, 60, 0⟩ ⟨i, 60, 0⟩ rfl rfl hji'
  have hLi0i : compareNoViewpoint lrt ⟨i, 50, 0⟩ ⟨i, 60, 0⟩ < 0 := by
    refine lt_of_le_of_ne ((compareNoViewpoint_le rfl rfl).mpr (.inr ⟨rfl, show 50 ≤ 60 by decide⟩)) fun hzero => ?_
    have := compare_place.mp hzero
    simp [place, Locality.isNone] at this
  obtain ⟨hactive, hmiss⟩ := cycle_leaf hLi0i hLuj.1 hLi0u.2 hLiu.2 hLji.2 hLji0.2
  have hanchors := three_leaf hLji0.1 hLji.1 hLi0i
  have hunfound : contains (compareNoViewpoint lrt) (leaf [⟨j, 60, 0⟩, ⟨i, 50, 0⟩, ⟨i, 60, 0⟩]) ⟨u, 60, 0⟩ = false := by
    refine @contains_leaf _ _ _ _ 3 ?_
    simp [Cardinality.searchAt, Cardinality.probeAt, Cardinality.compareAt, Cardinality.scanAt, hLi0u.1, hLi0u.1.ne, hLiu.1, hLiu.1.ne]
  have himpacted : impacted (four i u j) [⟨0, some .stream, 1, 1⟩] = some (leaf [⟨u, 60, 0⟩, ⟨j, 60, 0⟩]) :=
    pair_leaf (@compare_neg [] ⟨u, 60, 0⟩ ⟨j, 60, 0⟩ rfl rfl huj).1
  have hreport : getFullSummaryImpact lrt (four i u j) = some ⟨leaf [⟨i, 50, 0⟩, ⟨i, 60, 0⟩, ⟨u, 60, 0⟩, ⟨j, 60, 0⟩],
      leaf [⟨j, 60, 0⟩, ⟨i, 50, 0⟩, ⟨i, 60, 0⟩]⟩ := by
    show (addAllAbsent _ init _).bind _ = _
    rw [show (four i u j).active = [⟨u, 60, 0⟩, ⟨j, 60, 0⟩, ⟨i, 50, 0⟩, ⟨i, 60, 0⟩] from rfl, hactive, bind_some]
    rw [show (four i u j).anchors = [⟨j, 60, 0⟩, ⟨i, 50, 0⟩, ⟨i, 60, 0⟩] from rfl, hanchors]
    rfl
  have hother {k : UInt16} (hne : k ≠ i) : place ⟨k, 60, 0⟩ ≠ place ⟨i, 60, 0⟩ := by simp [place, Locality.isNone, hne]
  refine not_meets_of_chosen hreport (chooseFiles_single rfl rfl (show 4 < 5 by decide) ?_) hexceeds ?_ ?_
  · refine allowFileClobber_of rfl himpacted ?_ (.inl ⟨?_, ?_⟩)
    · intro l hl
      rw [elements_leaf] at hl
      rcases mem_cons.mp hl with rfl | hl
      · exact hother fun h => absurd hiu (by simp [h])
      · obtain rfl := mem_singleton.mp hl
        exact hother fun h => absurd (hiu.trans huj) (by simp [h])
    · exact le_minus (Nat.add_le_add_left (found_pair_le (.inr hmiss)) 3)
    · exact le_minus (Nat.add_le_add_left (found_pair_le (.inl hunfound)) 2)
  · exact ⟨⟨u, 60, 0⟩, mem_cons_self, place_mem mem_cons_self⟩
  · intro henough
    have hsub : places (four i u j).active \ places ([⟨0, some .stream, 1, 1⟩].flatMap (four i u j).refs) ⊆
        {place ⟨i, 50, 0⟩, place ⟨i, 60, 0⟩} := by
      intro p hp
      obtain ⟨hin, hout⟩ := Finset.mem_sdiff.mp hp
      obtain ⟨l, hl, rfl⟩ := mem_map.mp (mem_toFinset.mp hin)
      have hl' : l ∈ [(⟨u, 60, 0⟩ : Locality), ⟨j, 60, 0⟩] ∨ l ∈ [(⟨i, 50, 0⟩ : Locality), ⟨i, 60, 0⟩] :=
        mem_append.mp (show l ∈ [_, _] ++ [_, _] from hl)
      rcases hl' with hl | hl
      · exact absurd (place_mem (show l ∈ [(⟨0, some .stream, 1, 1⟩ : File)].flatMap (four i u j).refs from hl)) hout
      · rcases mem_cons.mp hl with rfl | hl
        · exact Finset.mem_insert_self _ _
        · rw [mem_singleton.mp hl]
          exact Finset.mem_insert_of_mem (Finset.mem_singleton_self _)
    have h3 : 3 ≤ 2 := henough.active.trans ((Finset.card_le_card hsub).trans Finset.card_le_two)
    omega

end

end DeepFabric.Store.Retention
