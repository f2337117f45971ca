/-
  DeepFabric.Store.IndexScan — where validateKeyPaging ends, and what it leaves of an index file.

  The forward scan goes on behind the location that the header of a segment has in it, wherever that
  is. With DEEP_DEBUG it is asserted that this is where the header has just been read; without, the
  scan may be led back, to a segment that it has been at.

  - `endless`: two segments with one location, and no end.
-/
import DeepFabric.Store.IndexFile

namespace DeepFabric.Store.IndexScan

open IndexFile Lib.Scan Lib.BigEndian Relation

variable {f : File} {m : Map} {c c' next : Cursor} {v n : Nat}

/-! ## Plain cursors -/

/-- What is before the cursor is what the file has at its position. -/
def Plain (f : File) (c : Cursor) : Prop := ∃ position : Nat, c = f.at position

theorem Plain.forward (h : Plain f c) (n : Nat) : Plain f (c.forward n) := by
  obtain ⟨position, rfl⟩ := h
  exact ⟨position + n, at_forward n⟩

theorem Plain.eq (h : Plain f c) (h' : Plain f c') (hposition : c.position = c'.position) : c = c' := by
  obtain ⟨position, rfl⟩ := h
  obtain ⟨position', rfl⟩ := h'
  rw [show position = position' from Int.ofNat_inj.mp hposition]

theorem Plain.readNumber (h : Plain f c) (hread : readNumber n c = .ok (v, c')) : Plain f c' := by
  rw [(readNumber_spec hread).2.2]
  exact h.forward n

theorem Plain.skipBytes (h : Plain f c) {n : Int} (hskip : skipBytes f n c = .ok c') : Plain f c' := by
  obtain ⟨position, rfl⟩ := h
  unfold IndexFile.skipBytes at hskip
  split at hskip
  · split at hskip
    · cases hskip
    · rw [if_neg (show ¬(f.at position).inflated = true from Bool.false_ne_true)] at hskip
      split at hskip
      · rename_i hback
        cases hskip
        obtain ⟨before, hbefore⟩ := Int.eq_ofNat_of_zero_le hback
        exact ⟨before, by rw [hbefore]⟩
      · cases hskip
  · rename_i hforward
    split at hskip
    · cases hskip
      refine ⟨position + n.toNat, ?_⟩
      rw [← at_forward, Cursor.forward, Int.toNat_of_nonneg (Int.not_lt.mp hforward)]
    · unfold Cursor.ended at hskip
      split at hskip <;> cases hskip

theorem Plain.skipKey (h : Plain f c) (hskip : skipKey f m c = .ok c') : Plain f c' := by
  unfold IndexFile.skipKey at hskip
  split at hskip
  · exact h.skipBytes hskip
  · obtain ⟨⟨keySize, c1⟩, hsize, hskip⟩ := bind_eq_ok.mp hskip
    exact (h.readNumber hsize).skipBytes hskip

theorem Plain.readOptional (h : Plain f c) {present : Bool} (hread : readOptional present c = .ok (v, c')) : Plain f c' := by
  cases present with
  | true => exact h.readNumber hread
  | false =>
    cases hread
    exact h

theorem Plain.readPagingInfo (h : Plain f c) {u : UInt48} (hread : readPagingInfo f m c = .ok (u, c')) : Plain f c' := by
  obtain ⟨⟨flags, hasCompressedOffset, c1⟩, hflags, hread⟩ := bind_eq_ok.mp hread
  obtain ⟨⟨b, c0⟩, hbyte, hflags⟩ := bind_eq_ok.mp hflags
  cases hflags
  unfold readEntry at hread
  obtain ⟨⟨index, c2⟩, h2, hread⟩ := bind_eq_ok.mp hread
  obtain ⟨⟨position, c3⟩, h3, hread⟩ := bind_eq_ok.mp hread
  obtain ⟨⟨_, c4⟩, h4, hread⟩ := bind_eq_ok.mp hread
  obtain ⟨⟨_, c5⟩, h5, hread⟩ := bind_eq_ok.mp hread
  have hplain : Plain f c5 := ((((h.readNumber hbyte).readNumber h2).readNumber h3).readOptional h4).readOptional h5
  dsimp only at hread
  split at hread
  · obtain ⟨c6, h6, hread⟩ := bind_eq_ok.mp hread
    cases hread
    exact hplain.skipKey h6
  · obtain ⟨c6, h6, hread⟩ := bind_eq_ok.mp hread
    cases hread
    cases h6
    exact hplain

theorem Plain.readEntries (h : Plain f c) (hread : readEntries f m n c = .ok c') : Plain f c' := by
  induction n generalizing c with
  | zero =>
    cases hread
    exact h
  | succ n ih =>
    unfold IndexFile.readEntries at hread
    split at hread
    · obtain ⟨⟨u, c1⟩, hentry, hread⟩ := bind_eq_ok.mp hread
      exact ih (h.readPagingInfo hentry) hread
    · cases hread
      exact h

/-! ## The forward scan -/

/-- Behind the segment at a place. -/
def behind (f : File) (m : Map) (c : Cursor) : Option Cursor :=
  match segmentAt f m c with
  | .accepted _ _ next => some next
  | _ => none

theorem behind_eq_some : behind f m c = some next ↔ ∃ header flags, segmentAt f m c = .accepted header flags next := by
  unfold behind
  split
  · rename_i header flags next' hsegment
    rw [hsegment, Option.some.injEq]
    constructor
    · intro h
      subst h
      exact ⟨header, flags, rfl⟩
    · intro ⟨_, _, h⟩
      cases h
      rfl
  · rename_i hno
    exact ⟨nofun, fun ⟨header, flags, h⟩ => absurd h (hno header flags next)⟩

theorem behind_scanStep (s : Cursor × Option Nat) : (scanStep f m s).map Prod.fst = behind f m s.1 := by
  unfold scanStep behind
  cases segmentAt f m s.1 <;> rfl

/-- The header at a place has its own location in it, and the segment ends behind that. -/
def Own (f : File) (m : Map) (c : Cursor) : Prop :=
  ∀ header flags next, segmentAt f m c = .accepted header flags next →
    header.preSegmentLocation = c.position + (30 + 4 * m.cardinalities) ∧ header.preSegmentLocation + 8 ≤ next.position

/-- From one place to the next there is a segment, with its location before its entries and behind them. -/
def Complete (f : File) (m : Map) (c next : Cursor) : Prop :=
  ∃ header flags, segmentAt f m c = .accepted header flags next ∧ header.preSegmentLocation = c.position + (30 + 4 * m.cardinalities) ∧
    header.preSegmentLocation + 8 ≤ next.position ∧ ∃ c', readInt c' = .ok (header.preSegmentLocation, next)

theorem Complete.behind (h : Complete f m c next) : behind f m c = some next := by
  obtain ⟨header, flags, h, -⟩ := h
  exact behind_eq_some.mpr ⟨header, flags, h⟩

theorem skipSegmentBody_accepted {header header' : SegmentMetadata} {flags : UInt8}
    (h : skipSegmentBody f m header c = .accepted header' flags next) :
    header' = header ∧ ∃ c', Plain f c' ∧ readInt c' = .ok (header.preSegmentLocation, next) := by
  unfold skipSegmentBody at h
  split at h
  · split at h
    · cases h
    · cases h
    · rename_i compressedSize hskip
      split at h
      · rename_i hread
        split at h
        · rename_i hlocation
          cases h
          refine ⟨rfl, _, ⟨header.preSegmentLocation + 4 + (8 + compressedSize), rfl⟩, hread.trans ?_⟩
          rw [hlocation]
        · cases h
      · cases h
  · split at h
    · split at h
      · cases h
      · cases h
      · rename_i hentries
        split at h
        · cases h
        · split at h
          · rename_i hread
            split at h
            · rename_i hlocation
              cases h
              refine ⟨rfl, _, Plain.readEntries ⟨header.preSegmentLocation + 4, rfl⟩ hentries, hread.trans ?_⟩
              rw [hlocation]
            · cases h
          · cases h
    · cases h

/-- What the scan gets over begins behind the file header and ends with its location. -/
theorem segmentAt_accepted {header : SegmentMetadata} {flags : UInt8} (h : segmentAt f m c = .accepted header flags next) :
    (DEFAULT_FILE_HEADER ≤ c.position ∧ c.position ≤ f.length - m.getIrtHeader) ∧
      ∃ c', Plain f c' ∧ readInt c' = .ok (header.preSegmentLocation, next) := by
  unfold segmentAt at h
  split at h
  · rename_i hpossible
    split at h
    · obtain ⟨rfl, hread⟩ := skipSegmentBody_accepted h
      exact ⟨of_decide_eq_true hpossible, hread⟩
    · cases h
  · cases h

theorem Own.complete (h : Own f m c) (hnext : behind f m c = some next) : Complete f m c next := by
  obtain ⟨header, flags, hsegment⟩ := behind_eq_some.mp hnext
  obtain ⟨hown, hend⟩ := h header flags next hsegment
  obtain ⟨-, c', -, hread⟩ := segmentAt_accepted hsegment
  exact ⟨header, flags, hsegment, hown, hend, c', hread⟩

theorem Complete.own (h : Complete f m c next) : Own f m c := by
  obtain ⟨header, flags, hsegment, hown, hend, -⟩ := h
  intro header' flags' next' h
  cases hsegment.symm.trans h
  exact ⟨hown, hend⟩

/-- Behind a segment, compressed or not, the file is read from its position. -/
theorem behind_plain (h : behind f m c = some next) : Plain f next := by
  obtain ⟨header, flags, hsegment⟩ := behind_eq_some.mp h
  obtain ⟨-, c', hplain, hread⟩ := segmentAt_accepted hsegment
  exact hplain.readNumber hread

theorem behind_position (h : behind f m c = some next) : DEFAULT_FILE_HEADER ≤ c.position ∧ c.position ≤ f.length - m.getIrtHeader := by
  obtain ⟨header, flags, hsegment⟩ := behind_eq_some.mp h
  exact (segmentAt_accepted hsegment).1

theorem Complete.position (h : Complete f m c next) : c.position + 38 ≤ next.position := by
  obtain ⟨header, flags, -, hown, hend, -⟩ := h
  omega

/-- The end is reached over complete segments only if there are no others. -/
theorem complete_iff (start : Cursor) : (∃ c, Ends (behind f m) start c ∧ ReflTransGen (Complete f m) start c) ↔
    ∀ c, Reaches (behind f m) start c → Own f m c := by
  rw [chain_iff (fun _ _ h => h.behind) (fun c => (f.length - c.position).toNat)]
  · constructor
    · intro h c hc header flags next hsegment
      exact (h c next hc (behind_eq_some.mpr ⟨header, flags, hsegment⟩)).own header flags next hsegment
    · intro h c next hc hnext
      exact (h c hc).complete hnext
  · intro c next h
    have hposition := h.position
    have hrange := behind_position h.behind
    have hheader := m.cardinalities_le
    omega

/-! ## A turn -/

variable {mode : Mode} {stale : Bool} {vars vars' : Vars} {out out' : Out}

/-- A segment is found by a location: with the location before it, the one in its header and the flags of its first entry. -/
def Found (f : File) (m : Map) (stale : Bool) (location prev pre : Nat) (flags : UInt8) : Prop :=
  possiblePostSegmentLocation f location = true ∧ ∃ c header c' body hasCompressedOffset next,
    seekSegment f m stale location = .ok (some (prev, c)) ∧ readMetaHeader m c = .ok (header, c') ∧ header.preSegmentLocation = pre ∧
      (if header.keyCompression = 0 then some c' else f.device.inflate c'.position) = some body ∧
      readFlags body = .ok (flags, hasCompressedOffset, next)

theorem readPagingInfoAt_flags (h : readPagingInfoAt f m vars c = some vars') (heof : vars'.eof = false) : ∃ hasCompressedOffset c',
    readFlags c = .ok (vars'.flags, hasCompressedOffset, c') := by
  unfold readPagingInfoAt at h
  split at h
  · cases h
  · cases h
    cases heof
  · rename_i hflags
    split at h
    · cases h
    · cases h
      cases heof
    · cases h
      exact ⟨_, _, hflags⟩

/-- Without an end there is a segment, unless there was nothing to look at. -/
theorem look_found (h : look f m stale vars = some vars')
    (hready : vars.eof = true ∨ possiblePostSegmentLocation f vars.postSegmentLocation = true ∨ IRT_FLAG_REF_VRT < vars.flags)
    (heof : vars'.eof = false) (hflags : ¬IRT_FLAG_REF_VRT < vars'.flags) : vars.eof = false ∧
      vars'.postSegmentLocation = vars.postSegmentLocation ∧
        Found f m stale vars.postSegmentLocation vars'.nextSegmentPSL vars'.preSegmentLocation vars'.flags := by
  rcases look_cases h with ⟨rfl, hskip⟩ | ⟨hend, -, -⟩ | ⟨prev, c, header, c', body, hnoend, hpossible, hseek, hheader, hplain, hentry⟩
  · rcases hready with hready | hready | hready
    · cases hready.symm.trans heof
    · rcases hskip with hskip | hskip
      · cases hskip.symm.trans heof
      · cases hskip.symm.trans hready
    · exact absurd hready hflags
  · cases hend.symm.trans heof
  · obtain ⟨-, hpost, hpre, hnext, -⟩ := readPagingInfoAt_spec hentry
    obtain ⟨hasCompressedOffset, next, hread⟩ := readPagingInfoAt_flags hentry heof
    rw [hpre, hnext]
    exact ⟨hnoend, hpost, hpossible, c, header, c', body, hasCompressedOffset, next, hseek, hheader, rfl, hplain, hread⟩

theorem retryOther_cut : (retryOther mode vars out).out.cut = out.cut := by
  unfold retryOther
  split
  · split <;> rfl
  · split
    · rfl
    · split <;> rfl

theorem retry_cut (f : File) (m : Map) (mode : Mode) (vars : Vars) (out : Out) : (retry f m mode vars out).out.cut = out.cut := by
  unfold retry
  split
  · simp only
    split
    · rfl
    · split
      · exact retryOther_cut
      · split <;> rfl
  · exact retryOther_cut

theorem closureEntries_spec {recoveryEpoch : BitVec 32} {invalid : Bool}
    (h : closureEntries f m vars = some (vars', recoveryEpoch, invalid)) :
    vars'.postSegmentLocation = vars.postSegmentLocation ∧ vars'.nextSegmentPSL = vars.nextSegmentPSL := by
  unfold closureEntries at h
  split at h
  · obtain ⟨second, hsecond, h⟩ := Option.bind_eq_some_iff.mp h
    obtain ⟨-, hpost, -, hnext, -⟩ := readPagingInfoAt_spec hsecond
    simp only at h
    split at h
    · obtain ⟨third, hthird, h⟩ := Option.bind_eq_some_iff.mp h
      obtain ⟨-, hpost', -, hnext', -⟩ := readPagingInfoAt_spec hthird
      cases h
      exact ⟨hpost'.trans hpost, hnext'.trans hnext⟩
    · cases h
      exact ⟨hpost, hnext⟩
  · cases h
    exact ⟨rfl, rfl⟩

/-- Where a segment is gone back from. -/
structure Back (vars vars' : Vars) : Prop where
  eof : vars.eof = false
  flags : ¬IRT_FLAG_REF_VRT < vars.flags
  least : DEFAULT_FILE_HEADER ≤ vars.nextSegmentPSL
  before : vars.nextSegmentPSL < vars.postSegmentLocation
  postSegmentLocation : vars'.postSegmentLocation = vars.nextSegmentPSL

theorem retryOther_back (h : retryOther mode vars out = .nextSegment vars' out') : Back vars vars' := by
  unfold retryOther at h
  split at h
  · split at h <;> cases h
  · rename_i hplain
    rw [not_or, not_or, Bool.not_eq_true] at hplain
    split at h
    · cases h
    · split at h
      · cases h
      · rename_i hbefore
        cases h
        exact ⟨hplain.1, hplain.2.1, by omega, by omega, rfl⟩

theorem retry_back (h : retry f m mode vars out = .nextSegment vars' out') : Back vars vars' := by
  unfold retry at h
  split at h
  · rename_i hclosure
    simp only at h
    split at h
    · cases h
    · rename_i hentries
      split at h
      · obtain ⟨hpost, hnext⟩ := closureEntries_spec hentries
        have hback := retryOther_back h
        refine ⟨hclosure.1, ?_, ?_, ?_, ?_⟩
        · rw [hclosure.2.1]
          decide
        · exact hnext ▸ hback.least
        · exact hnext ▸ hpost ▸ hback.before
        · exact hnext ▸ hback.postSegmentLocation
      · split at h <;> cases h
  · exact retryOther_back h

theorem retryOther_scan (h : retryOther mode vars out = .scan vars' out') : mode = .c := by
  unfold retryOther at h
  split at h
  · split at h
    · assumption
    · cases h
  · split at h
    · cases h
    · split at h <;> cases h

theorem retry_scan (h : retry f m mode vars out = .scan vars' out') : mode = .c := by
  unfold retry at h
  split at h
  · simp only at h
    split at h
    · cases h
    · split at h
      · exact retryOther_scan h
      · split at h <;> cases h
  · exact retryOther_scan h

/-! ## Where it ends -/

/-- What is found behind a segment: at the end of the file, before the header of another, or by the forward scan. -/
inductive PostSegmentLocation (f : File) (m : Map) : Nat → Prop
  | last {location : Nat} {c : Cursor} : readInt (f.at (f.length - 4)) = .ok (location, c) → PostSegmentLocation f m location
  | before {location prev pre : Nat} {flags : UInt8} : PostSegmentLocation f m location → Found f m false location prev pre flags →
      PostSegmentLocation f m prev
  | scanned {c next : Cursor} {header : SegmentMetadata} : ReflTransGen (Complete f m) (f.at DEFAULT_FILE_HEADER) c →
      segmentAt f m c = .accepted header IRT_FLAG_CLOSURE next → PostSegmentLocation f m header.preSegmentLocation

/-- The file as it is left. -/
def left (f : File) (out : Out) : File :=
  match out.cut with
  | none => f
  | some length => f.setLength length

structure Sound (f : File) (m : Map) (r : Return) : Prop where
  /-- There are complete segments up to where the file is cut. -/
  cut : ∀ length, r.out.cut = some length → ∃ c, ReflTransGen (Complete f m) (f.at DEFAULT_FILE_HEADER) c ∧ c.position = length
  /-- A closure has one location before its entries and behind them. -/
  intact : ∀ out, r = .returned .intact out → ∃ (location : Nat) (stale : Bool) (prev : Nat),
    out.lastIrtLength = location - (m.getIrtHeader - OFFSET) ∧ PostSegmentLocation f m location ∧
      Found (left f out) m stale location prev location IRT_FLAG_CLOSURE

def Validates (f : File) (m : Map) (isEmptyMap : Option Nat) : Prop :=
  ∃ fuel r, validateKeyPaging f m fuel isEmptyMap = some r ∧ Sound f m r

/-- The last segment is none, and the forward scan is begun. -/
def Scans (f : File) (m : Map) (isEmptyMap : Option Nat) : Prop :=
  (if f.length = DEFAULT_FILE_HEADER then isEmptyMap else none) = none ∧
    ∃ vars vars' out, look f m false (Vars.init f) = some vars ∧ retry f m .c vars Out.init = .scan vars' out

/-- The forward scan comes to an exception that it does not catch. -/
def Throws (f : File) (m : Map) : Prop := ∃ c, Ends (behind f m) (f.at DEFAULT_FILE_HEADER) c ∧ segmentAt f m c = .thrown

/-! ## No end -/

/-- Two segments without entries, each with the location of the first in its header. -/
def twoSegments : Bytes :=
  List.replicate DEFAULT_FILE_HEADER 0 ++ (List.replicate 30 0 ++ writeInt 80 ++ writeInt 80) ++ (List.replicate 30 0 ++ writeInt 80 ++ writeInt 0)

def twoSegmentsFile : File := .of twoSegments (plainDevice twoSegments)

/-- The second leads to where the first has ended, and so to itself. -/
theorem follow_twoSegments (fuel : Nat) :
    follow (scanStep twoSegmentsFile (Map.bytes 1 (by decide))) fuel (twoSegmentsFile.at DEFAULT_FILE_HEADER, none) = none := by
  cases fuel with
  | zero => rfl
  | succ fuel =>
    have hfirst : scanStep twoSegmentsFile (Map.bytes 1 (by decide)) (twoSegmentsFile.at DEFAULT_FILE_HEADER, none) =
        some (twoSegmentsFile.at 88, none) := by decide +kernel
    have hsecond : scanStep twoSegmentsFile (Map.bytes 1 (by decide)) (twoSegmentsFile.at 88, none) = some (twoSegmentsFile.at 88, none) := by
      decide +kernel
    rw [follow, hfirst]
    exact follow_cycle hsecond fuel

theorem endless : ¬Validates twoSegmentsFile (Map.bytes 1 (by decide)) none := by
  intro ⟨fuel, r, hvalid, _⟩
  rw [validateKeyPaging, ite_self] at hvalid
  cases fuel with
  | zero =>
    rw [nextSegment] at hvalid
    cases hvalid
  | succ fuel =>
    have hlook : look twoSegmentsFile (Map.bytes 1 (by decide)) false (Vars.init twoSegmentsFile) = some (Vars.init twoSegmentsFile) := by
      decide +kernel
    have hretry : retry twoSegmentsFile (Map.bytes 1 (by decide)) .c (Vars.init twoSegmentsFile) Out.init =
        .scan (Vars.init twoSegmentsFile) Out.init := by decide +kernel
    rw [nextSegment, hlook] at hvalid
    simp only [hretry, follow_twoSegments] at hvalid
    cases hvalid

/-! ### Going back -/

theorem left_none (h : out.cut = none) : left f out = f := by rw [left, h]

theorem turn_intact (hlook : look f m stale vars = some vars')
    (hready : vars.eof = true ∨ possiblePostSegmentLocation f vars.postSegmentLocation = true ∨ IRT_FLAG_REF_VRT < vars.flags)
    (hretry : retry f m mode vars' out = .done (.returned .intact out')) :
    vars.eof = false ∧ out'.lastIrtLength = vars.postSegmentLocation - (m.getIrtHeader - OFFSET) ∧
      ∃ prev, Found f m stale vars.postSegmentLocation prev vars.postSegmentLocation IRT_FLAG_CLOSURE := by
  obtain ⟨heof, hflags, hlocations, hlength⟩ := retry_intact hretry
  obtain ⟨heof', hpost, hfound⟩ := look_found hlook hready heof (by rw [hflags]; decide)
  rw [← hlocations, hflags, hpost] at hfound
  exact ⟨heof', by rw [hlength, hpost], _, hfound⟩

variable (hlook : look f m false vars = some vars')
  (hready : vars.eof = true ∨ possiblePostSegmentLocation f vars.postSegmentLocation = true ∨ IRT_FLAG_REF_VRT < vars.flags)
  (hpost : vars.eof = false → PostSegmentLocation f m vars.postSegmentLocation)
include hlook hready hpost

theorem turn_done {r : Return} (hcut : out.cut = none)
    (hretry : retry f m mode vars' out = .done r) : Sound f m r := by
  have hrcut : r.out.cut = none := by
    have := retry_cut f m mode vars' out
    rw [hretry] at this
    exact this.trans hcut
  constructor
  · intro length h
    cases hrcut.symm.trans h
  · intro out' h
    subst h
    obtain ⟨heof, hlength, prev, hfound⟩ := turn_intact hlook hready hretry
    rw [left_none (show out'.cut = none from hrcut)]
    exact ⟨_, false, prev, hlength, hpost heof, hfound⟩

theorem turn_back {vars'' : Vars}
    (hretry : retry f m mode vars' out = .nextSegment vars'' out') : vars''.postSegmentLocation < vars.postSegmentLocation ∧
      possiblePostSegmentLocation f vars''.postSegmentLocation = true ∧ PostSegmentLocation f m vars''.postSegmentLocation ∧
      out'.cut = out.cut := by
  have hback := retry_back hretry
  obtain ⟨heof, hsame, hfound⟩ := look_found hlook hready hback.eof hback.flags
  have hrange := of_decide_eq_true hfound.1
  have hleast := hback.least
  have hbefore := hback.before
  have hcut := retry_cut f m mode vars' out
  rw [hretry] at hcut
  rw [hback.postSegmentLocation]
  refine ⟨by omega, decide_eq_true ⟨hleast, by omega⟩, .before (hpost heof) hfound, hcut⟩

omit hlook hready hpost

theorem back_returns (hpossible : possiblePostSegmentLocation f vars.postSegmentLocation = true)
    (hpost : PostSegmentLocation f m vars.postSegmentLocation) (hcut : out.cut = none) :
    ∃ fuel r, nextSegment m fuel f .q false vars out = some r ∧ Sound f m r := by
  induction hn : vars.postSegmentLocation using Nat.strongRecOn generalizing vars out with
  | ind n ih =>
    cases hlook : look f m false vars with
    | none =>
      refine ⟨1, .thrown out, by rw [nextSegment, hlook], fun length h => ?_, nofun⟩
      cases hcut.symm.trans h
    | some vars' =>
      cases hretry : retry f m .q vars' out with
      | done r =>
        exact ⟨1, r, by rw [nextSegment, hlook]; simp only [hretry], turn_done hlook (.inr (.inl hpossible)) (fun _ => hpost) hcut hretry⟩
      | scan _ _ => cases retry_scan hretry
      | nextSegment vars'' out'' =>
        obtain ⟨hless, hpossible', hpost', hcut'⟩ := turn_back hlook (.inr (.inl hpossible)) (fun _ => hpost) hretry
        obtain ⟨fuel, r, hnext, hsound⟩ := ih _ (hn ▸ hless) hpossible' hpost' (hcut'.trans hcut) rfl
        exact ⟨fuel + 1, r, by rw [nextSegment, hlook]; simp only [hretry, hnext], hsound⟩

theorem init_flags (f : File) : IRT_FLAG_REF_VRT < (Vars.init f).flags := by
  unfold Vars.init
  simp only
  split <;> exact (by decide : IRT_FLAG_REF_VRT < IRT_FLAG_REF_VRT + 1)

theorem init_post (heof : (Vars.init f).eof = false) : PostSegmentLocation f m (Vars.init f).postSegmentLocation := by
  unfold Vars.init at heof ⊢
  simp only at heof ⊢
  split at heof
  · rename_i hread
    exact .last hread
  · cases heof

theorem validates_without_scan {isEmptyMap : Option Nat} (h : ¬Scans f m isEmptyMap) : Validates f m isEmptyMap := by
  cases hstart : if f.length = DEFAULT_FILE_HEADER then isEmptyMap else none with
  | some lrtIndex =>
    refine ⟨0, _, by rw [validateKeyPaging, hstart], ?_, fun out h => by cases h⟩
    exact fun length hcut => by cases hcut
  | none =>
    have hvalid : ∀ fuel, validateKeyPaging f m fuel isEmptyMap = nextSegment m fuel f .c false (Vars.init f) Out.init := by
      intro fuel
      rw [validateKeyPaging, hstart]
    have hready : (Vars.init f).eof = true ∨ possiblePostSegmentLocation f (Vars.init f).postSegmentLocation = true ∨
        IRT_FLAG_REF_VRT < (Vars.init f).flags := .inr (.inr (init_flags f))
    cases hlook : look f m false (Vars.init f) with
    | none =>
      refine ⟨1, .thrown Out.init, by rw [hvalid, nextSegment, hlook], ?_, fun out h => by cases h⟩
      exact fun length hcut => by cases hcut
    | some vars =>
      cases hretry : retry f m .c vars Out.init with
      | done r => exact ⟨1, r, by rw [hvalid, nextSegment, hlook]; simp only [hretry], turn_done hlook hready init_post rfl hretry⟩
      | scan vars' out => exact absurd ⟨hstart, vars, vars', out, hlook, hretry⟩ h
      | nextSegment vars' out =>
        obtain ⟨-, hpossible, hpost, hcut⟩ := turn_back hlook hready init_post hretry
        obtain ⟨fuel, r, hnext, hsound⟩ := back_returns hpossible hpost hcut
        exact ⟨fuel + 1, r, by rw [hvalid, nextSegment, hlook]; simp only [hretry, hnext], hsound⟩

/-! ### Going forward -/

theorem chain_plain (h : ReflTransGen (Complete f m) (f.at DEFAULT_FILE_HEADER) c) : Plain f c := by
  cases h with
  | refl => exact ⟨DEFAULT_FILE_HEADER, rfl⟩
  | tail _ h => exact behind_plain h.behind

theorem ends_plain (h : Ends (behind f m) (f.at DEFAULT_FILE_HEADER) c) : Plain f c :=
  h.invariant (Plain f) (fun _ _ _ hnext => behind_plain hnext) ⟨DEFAULT_FILE_HEADER, rfl⟩

/-- What is known of the last closure on the way. -/
def Closure (f : File) (m : Map) (s : Cursor × Option Nat) : Prop :=
  ∀ location, s.2 = some location → DEFAULT_FILE_HEADER ≤ location ∧ location + 8 ≤ s.1.position ∧ PostSegmentLocation f m location

theorem closure_step {s s' : Cursor × Option Nat} (hchain : ReflTransGen (Complete f m) (f.at DEFAULT_FILE_HEADER) s.1) (hown : Own f m s.1)
    (hs : Closure f m s) (hstep : scanStep f m s = some s') :
    ReflTransGen (Complete f m) (f.at DEFAULT_FILE_HEADER) s'.1 ∧ Closure f m s' := by
  unfold scanStep at hstep
  split at hstep
  · rename_i header flags next hsegment
    cases hstep
    have hcomplete := hown.complete (behind_eq_some.mpr ⟨header, flags, hsegment⟩)
    refine ⟨hchain.tail hcomplete, ?_⟩
    intro location hlocation
    simp only at hlocation
    split at hlocation
    · rename_i hflags
      cases hlocation
      obtain ⟨hposition, hend⟩ := hown header flags next hsegment
      have hleast := (segmentAt_accepted hsegment).1.1
      rw [hflags] at hsegment
      exact ⟨by omega, hend, .scanned hchain hsegment⟩
    · obtain ⟨hleast, hbefore, hpost⟩ := hs location hlocation
      have hposition := hcomplete.position
      exact ⟨hleast, Int.le_trans hbefore (by omega : s.1.position ≤ next.position), hpost⟩
  · cases hstep

theorem p_turn (f : File) (m : Map) (stale : Bool) (vars : Vars) (out : Out) : ∃ r,
    (∀ fuel, nextSegment m (fuel + 1) f .p stale vars out = some r) ∧ r.out.cut = out.cut ∧
    (vars.eof = true ∨ possiblePostSegmentLocation f vars.postSegmentLocation = true → ∀ out', r = .returned .intact out' →
      out'.lastIrtLength = vars.postSegmentLocation - (m.getIrtHeader - OFFSET) ∧
        ∃ prev, Found f m stale vars.postSegmentLocation prev vars.postSegmentLocation IRT_FLAG_CLOSURE) := by
  cases hlook : look f m stale vars with
  | none => exact ⟨.thrown out, fun fuel => by rw [nextSegment, hlook], rfl, fun _ => nofun⟩
  | some vars' =>
    obtain ⟨r, hretry⟩ := retry_p f m vars' out
    have hcut := retry_cut f m .p vars' out
    rw [hretry] at hcut
    refine ⟨r, fun fuel => by rw [nextSegment, hlook]; simp only [hretry], hcut, ?_⟩
    intro hready out' hr
    subst hr
    obtain ⟨-, hlength, hfound⟩ := turn_intact hlook (hready.imp_right .inl) hretry
    exact ⟨hlength, hfound⟩

/-! ## The exact condition -/

section Scan

variable {isEmptyMap : Option Nat} {found : Option Nat}

theorem scanned_inl {stop : Segment} {currentPosition : Int} {r : Return} (h : scanned stop currentPosition found vars out = .inl r) :
    ((stop = .thrown ∨ currentPosition = DEFAULT_FILE_HEADER) ∧ r.out.cut = out.cut) ∨ r.out.cut = some currentPosition := by
  unfold scanned at h
  split at h
  · cases h
    exact .inl ⟨.inl rfl, rfl⟩
  · split at h
    · rename_i hposition
      cases h
      exact .inl ⟨.inr hposition, rfl⟩
    · simp only at h
      split at h
      · cases h
        exact .inr rfl
      · cases h

/-- Without an exception the file is cut where the scan ends, whatever comes of the closure. -/
theorem Validates.own (h : Validates f m isEmptyMap) (hscans : Scans f m isEmptyMap) :
    Throws f m ∨ ∀ c, Reaches (behind f m) (f.at DEFAULT_FILE_HEADER) c → Own f m c := by
  obtain ⟨fuel, r, hvalid, hsound⟩ := h
  obtain ⟨hstart, vars, vars', out, hlook, hretry⟩ := hscans
  rw [validateKeyPaging, hstart] at hvalid
  simp only at hvalid
  cases fuel with
  | zero => cases hvalid
  | succ fuel =>
    rw [nextSegment, hlook] at hvalid
    simp only [hretry] at hvalid
    split at hvalid
    · cases hvalid
    · rename_i c found hfollow
      have hends : Ends (behind f m) (f.at DEFAULT_FILE_HEADER) c := (Ends.of_follow hfollow).map behind_scanStep
      by_cases hthrown : segmentAt f m c = .thrown
      · exact .inl ⟨c, hends, hthrown⟩
      · refine .inr ((complete_iff _).mp ⟨c, hends, ?_⟩)
        by_cases hnone : c.position = DEFAULT_FILE_HEADER
        · rw [(ends_plain hends).eq ⟨DEFAULT_FILE_HEADER, rfl⟩ hnone]
        · have hcut : r.out.cut = some c.position := by
            split at hvalid
            · rename_i hscanned
              cases hvalid
              exact (scanned_inl hscanned).resolve_left fun hno => hno.1.elim hthrown hnone
            · rename_i hscanned
              obtain ⟨location, -, -, rfl⟩ := scanned_inr hscanned
              cases fuel with
              | zero => cases hvalid
              | succ fuel =>
                obtain ⟨r', hr', hcut, -⟩ := p_turn (f.setLength c.position) m (segmentAt f m c = .rejected true) _
                  { out with cut := some c.position }
                cases (hr' fuel).symm.trans hvalid
                exact hcut
          obtain ⟨c', hchain, hposition⟩ := hsound.cut c.position hcut
          rw [(ends_plain hends).eq (chain_plain hchain) hposition.symm]
          exact hchain

theorem validateKeyPaging_scan {fuel : Nat} (hstart : (if f.length = DEFAULT_FILE_HEADER then isEmptyMap else none) = none)
    (hlook : look f m false (Vars.init f) = some vars) (hretry : retry f m .c vars Out.init = .scan vars' out)
    (hfollow : follow (scanStep f m) fuel (f.at DEFAULT_FILE_HEADER, none) = some (c, found)) :
    validateKeyPaging f m (fuel + 1) isEmptyMap = match scanned (segmentAt f m c) c.position found vars' out with
      | .inl r => some r
      | .inr (v, out) => nextSegment m fuel (f.setLength c.position) .p (segmentAt f m c = .rejected true) v out := by
  rw [validateKeyPaging, hstart]
  simp only
  rw [nextSegment, hlook]
  cases hscanned : scanned (segmentAt f m c) c.position found vars' out with
  | inl r => simp only [hretry, hfollow, hscanned]
  | inr next => simp only [hretry, hfollow, hscanned]

theorem validates_throwing (hscans : Scans f m isEmptyMap) (h : Throws f m) : Validates f m isEmptyMap := by
  obtain ⟨hstart, vars, vars', out, hlook, hretry⟩ := hscans
  obtain ⟨c, hends, hthrown⟩ := h
  obtain ⟨⟨c', found⟩, hpairs, hc⟩ := hends.lift behind_scanStep (f.at DEFAULT_FILE_HEADER, none) rfl
  subst hc
  obtain ⟨fuel, hfollow⟩ := follow_iff.mpr hpairs
  have hcut := retry_cut f m .c vars Out.init
  rw [hretry] at hcut
  refine ⟨fuel + 1, .thrown out, ?_, fun length h => ?_, nofun⟩
  · rw [validateKeyPaging_scan hstart hlook hretry hfollow, hthrown]
    rfl
  · cases hcut.symm.trans h

theorem validates_own (hscans : Scans f m isEmptyMap) (h : ∀ c, Reaches (behind f m) (f.at DEFAULT_FILE_HEADER) c → Own f m c) :
    Validates f m isEmptyMap := by
  obtain ⟨hstart, vars, vars', out, hlook, hretry⟩ := hscans
  obtain ⟨c, hends, -⟩ := (complete_iff _).mpr h
  obtain ⟨⟨c', found⟩, hpairs, hc⟩ := hends.lift behind_scanStep (f.at DEFAULT_FILE_HEADER, none) rfl
  subst hc
  obtain ⟨fuel, hfollow⟩ := hpairs.follow
  have hinv : ReflTransGen (Complete f m) (f.at DEFAULT_FILE_HEADER) c' ∧ Closure f m (c', found) := by
    refine hpairs.invariant (fun s => ReflTransGen (Complete f m) (f.at DEFAULT_FILE_HEADER) s.1 ∧ Closure f m s) ?_
      ⟨.refl, fun _ hnone => by cases hnone⟩
    intro s s' ⟨hchain, hclosure⟩ hstep
    exact closure_step hchain (h _ (hchain.lift id fun _ _ hcomplete => Complete.behind hcomplete)) hclosure hstep
  obtain ⟨hchain, hclosure⟩ := hinv
  have hcut := retry_cut f m .c vars Out.init
  rw [hretry] at hcut
  have hturn := validateKeyPaging_scan hstart hlook hretry (hfollow 1)
  cases hscanned : scanned (segmentAt f m c') c'.position found vars' out with
  | inl r =>
    refine ⟨fuel + 1 + 1, r, by rw [hturn, hscanned], fun length hlength => ?_, fun out' hr => ?_⟩
    · rcases scanned_inl hscanned with ⟨-, hno⟩ | hsome
      · cases (hno.trans hcut).symm.trans hlength
      · cases hsome.symm.trans hlength
        exact ⟨c', hchain, rfl⟩
    · subst hr
      exact absurd hscanned scanned_not_intact
  | inr next =>
    obtain ⟨location, rfl, hvars, hout⟩ := scanned_inr hscanned
    obtain ⟨hleast, hbefore, hpost⟩ := hclosure location rfl
    obtain ⟨r, hr, hrcut, hintact⟩ := p_turn (f.setLength c'.position) m (segmentAt f m c' = .rejected true) next.1 next.2
    rw [hout] at hrcut
    refine ⟨fuel + 1 + 1, r, by rw [hturn, hscanned]; exact hr fuel, fun length hlength => ?_, fun out' hreturned => ?_⟩
    · cases hrcut.symm.trans hlength
      exact ⟨c', hchain, rfl⟩
    · have hwithin : (location : Int) + 8 ≤ c'.position := hbefore
      have hpossible : possiblePostSegmentLocation (f.setLength c'.position) location = true :=
        decide_eq_true ⟨hleast, (by omega : (location : Int) + 1 < c'.position)⟩
      rw [hvars] at hintact
      obtain ⟨hlength, prev, hfound⟩ := hintact (.inr hpossible) out' hreturned
      subst hreturned
      have hleft : left f out' = f.setLength c'.position := by rw [left, show out'.cut = _ from hrcut]
      exact ⟨location, _, prev, hlength, hpost, hleft ▸ hfound⟩

/-- Either the scan is not begun or throws, or it gets over nothing but segments that stand where they say. -/
theorem validates_iff (f : File) (m : Map) (isEmptyMap : Option Nat) : Validates f m isEmptyMap ↔
    (Scans f m isEmptyMap → Throws f m ∨ ∀ c, Reaches (behind f m) (f.at DEFAULT_FILE_HEADER) c → Own f m c) := by
  constructor
  · exact fun h hscans => h.own hscans
  · intro h
    by_cases hscans : Scans f m isEmptyMap
    · rcases h hscans with hthrows | hown
      · exact validates_throwing hscans hthrows
      · exact validates_own hscans hown
    · exact validates_without_scan hscans

end Scan

end DeepFabric.Store.IndexScan
