/-
  DeepFabric.Store.SummarySearch — the summary of a recovery point, searched for in an index file (findSummaryPaging
  in core/RealTimeProtocol_v1_1.h).

  The search goes back from the last segment. A turn reads the location of the segment before, which stands right
  before the header, then the header and the entries of its own segment; it goes on at the location it has read.

  As built a turn stops only at a location above its own, so that one at its own goes on for ever (`search_circles`). The
  index and the length of a header are taken with their signs, and those that are searched for without.

  A read behind the end of the file throws here. Left out: what is logged, and the entries of a compressed section,
  of which only the length counts.
-/
import Mathlib.Data.BitVec
import DeepFabric.Store.IndexScan

namespace DeepFabric.Store.SummarySearch

open IndexFile IndexScan Lib.Scan Relation

def SEGMENT_FLAG_SUMMARY : Nat := 0x40

/-- What of a header counts here; `epoch` is its stream position. -/
structure Head where
  summarySegment : Bool
  lrtFileIndex : Nat
  lrtFileLength : Nat
  physicalSize : Nat
  keyCompression : Bool
  epoch : Nat
  preSegmentLocation : Nat

section

variable (f : File) (m : Map) (block : Int → Option Nat)

def readHead (c : Cursor) : Outcome (Head × Cursor) := do
  let (segmentFlags, c) ← readByte c
  let (lrtFileIndex, c) ← readShort c
  let (lrtFileLength, c) ← readInt c
  let (_, c) ← readInt c
  let c ← readKeyCardinality m.cardinalities c
  let (_, c) ← readByte c
  let (_, c) ← readInt c
  let (_, c) ← readByte c
  let (_, c) ← readShort c
  let (_, c) ← readInt c
  let (physicalSize, c) ← readShort c
  let (keyCompression, c) ← readByte c
  let (epoch, c) ← readInt c
  let (preSegmentLocation, c) ← readInt c
  return (⟨segmentFlags &&& SEGMENT_FLAG_SUMMARY ≠ 0, lrtFileIndex, lrtFileLength, physicalSize, keyCompression ≠ 0, epoch, preSegmentLocation⟩, c)

/-- The location behind the entries, and the cursor behind that; none where the search gives up. `block` is the length of
the compressed section at a place, or none if the seek to it throws. -/
def readBody (head : Head) (c : Cursor) : Outcome (Option (Nat × Cursor)) :=
  if head.keyCompression then
    match block c.position with
    | none => .ok none
    | some blockLength => do
      let r ← readInt (f.at (c.position + blockLength))
      return some r
  else do
    let (_, _) ← readByte c
    let c ← readEntries f m head.physicalSize c -- from the byte that was just read
    if f.length - 4 < c.position then return none
    else do
      let r ← readInt c
      return some r

/-- The log's index and length, and the recovery epoch. -/
structure Sought where
  index : BitVec 16
  length : BitVec 32
  recoveryEpoch : BitVec 32

/-- No number of it has a sign bit. -/
def Unsigned (sought : Sought) : Prop := sought.index.toNat < 2 ^ 15 ∧ sought.length.toNat < 2 ^ 31

/-- The index is compared with an inttype from a shorttype, the length with a longtype from an inttype. -/
def Sought.is (sought : Sought) (head : Head) : Bool :=
  sought.recoveryEpoch.toNat = head.epoch ∧ (sought.index.toNat : Int) = (BitVec.ofNat 16 head.lrtFileIndex).toInt ∧
    (sought.length.toNat : Int) = (BitVec.ofNat 32 head.lrtFileLength).toInt

variable (sought : Sought)

/-- A turn at a location: the end with what is returned, or the location of the next turn. -/
def turn (currentPosition : Nat) : Outcome (Int ⊕ Nat) :=
  if currentPosition ≤ DEFAULT_FILE_HEADER then .ok (.inl (-1))
  else do
    let (position, c) ← readInt (f.at (currentPosition - (m.getIrtHeader - 4)))
    if currentPosition < position then return .inl (-1)
    else do
      let (head, c) ← readHead m c
      match ← readBody f m block head c with
      | none => return .inl (-1)
      | some (postSegmentLocation, _) =>
        if postSegmentLocation ≠ head.preSegmentLocation then return .inl (-1)
        else if ¬ head.summarySegment then return .inr position
        else if sought.is head then return .inl (postSegmentLocation - (m.getIrtHeader - OFFSET))
        else return .inr position

def next (currentPosition : Nat) : Option Nat :=
  match turn f m block sought currentPosition with
  | .ok (.inr position) => some position
  | _ => none

/-- Where the search starts; a uinttype. -/
def start (lastIrtLength : Int) : Nat := ((lastIrtLength + (m.getIrtHeader - OFFSET)) % 2 ^ 32).toNat

/-- none: there were too few turns. -/
def findSummaryPaging (lastIrtLength : Int) (fuel : Nat) : Option (Outcome (Int ⊕ Nat)) :=
  (follow (next f m block sought) fuel (start m lastIrtLength)).map (turn f m block sought)

/-- The search comes to an end, with a number or an exception. -/
def Terminates (lastIrtLength : Int) : Prop := ∃ fuel r, findSummaryPaging f m block sought lastIrtLength fuel = some r

def Returns (lastIrtLength offset : Int) : Prop := ∃ fuel, findSummaryPaging f m block sought lastIrtLength fuel = some (.ok (.inl offset))

/-- Some turn is led to its own location. -/
def Circles (lastIrtLength : Int) : Prop :=
  ∃ position, Reaches (next f m block sought) (start m lastIrtLength) position ∧ next f m block sought position = some position

/-- The location of a segment: where the two numbers are, seen from its place. -/
def location (place : Nat) : Nat := (place + (m.getIrtHeader - OFFSET)).toNat

/-- A segment from one place to a later one, with its location before its entries and behind them. -/
def Complete (place behind : Nat) : Prop :=
  place < behind ∧ ∃ head c c', readHead m (f.at place) = .ok (head, c) ∧ head.preSegmentLocation = location m place ∧
    readBody f m block head c = .ok (some (location m place, c')) ∧ c'.position = behind

/-- Segments from the file header to a place, the last one first. -/
def Segments : List Nat → Nat → Prop
  | [], behind => behind = DEFAULT_FILE_HEADER
  | place :: before, behind => Complete f m block place behind ∧ Segments before place

/-- The segment at a place is a summary of this log, this length and this epoch. -/
def isSummary (place : Nat) : Bool :=
  match readHead m (f.at place) with
  | .ok (head, _) => head.summarySegment && head.epoch = sought.recoveryEpoch.toNat && head.lrtFileIndex = sought.index.toNat &&
      head.lrtFileLength = sought.length.toNat
  | _ => false

/-- The last of them, or -1. -/
def expected (places : List Nat) : Int := ((places.find? (isSummary f m sought)).map Int.ofNat).getD (-1)

end

/-- A file header whose last four bytes are the location of the segment behind it. -/
def circleFile : File := .of (List.replicate 46 0 ++ writeInt 80 ++ List.replicate 30 0 ++ writeInt 80 ++ writeInt 80) (plainDevice [])

/-- A file with one segment, which is a summary. -/
def oneSummary (lrtFileLength : Nat) : Bytes :=
  List.replicate 50 0 ++ writeByte 0x40 ++ writeShort 1 ++ writeInt lrtFileLength ++ List.replicate 23 0 ++ writeInt 80 ++ writeInt 80

section

variable {f : File} {m : Map} {block : Int → Option Nat} {sought : Sought} {position p : Nat}

/-! ## The end -/

theorem next_le (h : next f m block sought position = some p) : p ≤ position := by
  unfold next at h
  split at h
  · rename_i position' hturn
    cases h
    unfold turn at hturn
    split at hturn
    · cases hturn
    · obtain ⟨⟨position', c⟩, -, hturn⟩ := bind_eq_ok.mp hturn
      dsimp only at hturn
      split at hturn
      · cases hturn
      · rename_i hle
        obtain ⟨⟨head, c⟩, -, hturn⟩ := bind_eq_ok.mp hturn
        obtain ⟨body, -, hturn⟩ := bind_eq_ok.mp hturn
        dsimp only at hturn
        split at hturn
        · cases hturn
        · split_ifs at hturn <;> cases hturn <;> omega
  · cases h

/-- There is an end exactly if no turn is led to its own location. -/
theorem ends_iff (lastIrtLength : Int) : Terminates f m block sought lastIrtLength ↔ ¬ Circles f m block sought lastIrtLength := by
  constructor
  · rintro ⟨fuel, r, h⟩ ⟨position, hreach, hcircle⟩
    obtain ⟨stop, hfollow, -⟩ := Option.map_eq_some_iff.mp h
    have hends := Ends.of_follow hfollow
    -- the end is also reached from the place that leads to itself
    have hstop : Ends (next f m block sought) position stop := by
      clear hcircle hfollow h
      induction hreach with
      | refl => exact hends
      | tail _ hstep ih =>
        cases ih with
        | stop hnone => cases hnone.symm.trans hstep
        | step hstep' hrest =>
          cases hstep'.symm.trans hstep
          exact hrest
    obtain ⟨fuel, hfollow⟩ := follow_iff.mpr hstop
    rw [follow_cycle hcircle] at hfollow
    cases hfollow
  · intro hno
    have hgood (p q : Nat) (hp : Reaches (next f m block sought) (start m lastIrtLength) p) (hq : next f m block sought p = some q) :
        next f m block sought p = some q ∧ q < p :=
      ⟨hq, Nat.lt_of_le_of_ne (next_le hq) fun heq => hno ⟨p, hp, heq ▸ hq⟩⟩
    obtain ⟨stop, hends, -⟩ := @ends_of_good _ (next f m block sought) (fun p q => next f m block sought p = some q ∧ q < p) _ id
      (fun _ _ h => h.2) hgood
    obtain ⟨fuel, hfollow⟩ := follow_iff.mpr hends
    exact ⟨fuel, _, congrArg (Option.map _) hfollow⟩

/-! ## Complete segments -/

theorem location_eq (m : Map) (place : Nat) : (location m place : Int) = place + (m.getIrtHeader - OFFSET) := by
  have := m.cardinalities_le
  unfold location OFFSET
  omega

variable {c c' : Cursor} {v n : Nat} {head : Head} {place behind : Nat}

theorem readNumber_lt (h : readNumber n c = .ok (v, c')) : v < 256 ^ n := by
  obtain ⟨hlen, rfl, -⟩ := readNumber_spec h
  refine Nat.lt_of_lt_of_le (Lib.BigEndian.decode_lt _) (Nat.le_of_eq ?_)
  rw [List.length_take, Nat.min_eq_left hlen]

theorem plain_readKeyCardinality (h : Plain f c) (hread : readKeyCardinality n c = .ok c') : Plain f c' := by
  rw [readKeyCardinality_spec hread]
  exact h.forward _

/-- A header is read forward, and its numbers have their widths. -/
theorem readHead_spec (h : Plain f c) (hread : readHead m c = .ok (head, c')) : Plain f c' ∧ head.lrtFileIndex < 2 ^ 16 ∧
    head.lrtFileLength < 2 ^ 32 ∧ head.preSegmentLocation < 2 ^ 32 := by
  obtain ⟨⟨_, c1⟩, h1, hread⟩ := bind_eq_ok.mp hread
  obtain ⟨⟨_, c2⟩, h2, hread⟩ := bind_eq_ok.mp hread
  obtain ⟨⟨_, c3⟩, h3, hread⟩ := bind_eq_ok.mp hread
  obtain ⟨⟨_, c4⟩, h4, hread⟩ := bind_eq_ok.mp hread
  obtain ⟨c5, h5, hread⟩ := bind_eq_ok.mp hread
  obtain ⟨⟨_, c6⟩, h6, hread⟩ := bind_eq_ok.mp hread
  obtain ⟨⟨_, c7⟩, h7, hread⟩ := bind_eq_ok.mp hread
  obtain ⟨⟨_, c8⟩, h8, hread⟩ := bind_eq_ok.mp hread
  obtain ⟨⟨_, c9⟩, h9, hread⟩ := bind_eq_ok.mp hread
  obtain ⟨⟨_, c10⟩, h10, hread⟩ := bind_eq_ok.mp hread
  obtain ⟨⟨_, c11⟩, h11, hread⟩ := bind_eq_ok.mp hread
  obtain ⟨⟨_, c12⟩, h12, hread⟩ := bind_eq_ok.mp hread
  obtain ⟨⟨_, c13⟩, h13, hread⟩ := bind_eq_ok.mp hread
  obtain ⟨⟨_, c14⟩, h14, hread⟩ := bind_eq_ok.mp hread
  have p5 : Plain f c5 := plain_readKeyCardinality ((((h.readNumber h1).readNumber h2).readNumber h3).readNumber h4) h5
  have p10 : Plain f c10 := ((((p5.readNumber h6).readNumber h7).readNumber h8).readNumber h9).readNumber h10
  cases hread
  exact ⟨(((p10.readNumber h11).readNumber h12).readNumber h13).readNumber h14, readNumber_lt h2, readNumber_lt h3, readNumber_lt h14⟩

theorem readBody_spec (h : Plain f c) (hread : readBody f m block head c = .ok (some (v, c'))) : ∃ c0, Plain f c0 ∧ readInt c0 = .ok (v, c') := by
  unfold readBody at hread
  split_ifs at hread with hcompressed
  · split at hread
    · cases hread
    · rename_i blockLength _
      obtain ⟨r, hr, hread⟩ := bind_eq_ok.mp hread
      cases hread
      obtain ⟨position, rfl⟩ := h
      exact ⟨_, ⟨position + blockLength, rfl⟩, hr⟩
  · obtain ⟨⟨_, _⟩, -, hread⟩ := bind_eq_ok.mp hread
    obtain ⟨c1, h1, hread⟩ := bind_eq_ok.mp hread
    split_ifs at hread
    · cases hread
    · obtain ⟨r, hr, hread⟩ := bind_eq_ok.mp hread
      cases hread
      exact ⟨c1, h.readEntries h1, hr⟩

/-- Right before what comes behind a segment its location is read. -/
theorem Complete.before (h : Complete f m block place behind) : readInt (f.at (behind - 4)) = .ok (location m place, f.at behind) := by
  obtain ⟨-, head, c, c', hhead, -, hbody, hbehind⟩ := h
  obtain ⟨c0, ⟨position, rfl⟩, hread⟩ := readBody_spec (readHead_spec ⟨place, rfl⟩ hhead).1 hbody
  have hc' := (readNumber_spec hread).2.2
  rw [at_forward] at hc'
  subst hc'
  have hposition : ((position + 4 : Nat) : Int) = behind := hbehind
  rw [← hposition, show ((position + 4 : Nat) : Int) - 4 = position by omega]
  exact hread

/-- A summary that is told by its header. -/
def isFound (f : File) (m : Map) (sought : Sought) (place : Nat) : Bool :=
  match readHead m (f.at place) with
  | .ok (head, _) => head.summarySegment && sought.is head
  | _ => false

variable (sought) in
theorem turn_complete (h : Complete f m block place behind) (hplace : DEFAULT_FILE_HEADER ≤ place)
    (hread : readInt (f.at (place - 4)) = .ok (position, f.at place)) (hle : position ≤ location m place) :
    turn f m block sought (location m place) = .ok (if isFound f m sought place then .inl place else .inr position) := by
  obtain ⟨-, head, c, c', hhead, hpre, hbody, -⟩ := h
  have hlocation := location_eq m place
  have hheader := m.cardinalities_le
  have hseek : (location m place : Int) - (m.getIrtHeader - 4) = place - 4 := by
    rw [hlocation, OFFSET]
    omega
  have hback : (location m place : Int) - (m.getIrtHeader - OFFSET) = place := by omega
  have habove : ¬ location m place ≤ DEFAULT_FILE_HEADER := by
    rw [OFFSET] at hlocation
    omega
  rw [turn, if_neg habove, hseek, hread, ok_bind]
  simp only [if_neg (Nat.not_lt.mpr hle), hhead, ok_bind, hbody, hpre, ne_eq, not_true_eq_false, if_false, hback, isFound]
  cases head.summarySegment with
  | false => rfl
  | true => cases sought.is head <;> rfl

/-! ## The search -/

/-- The numbers of a header, without signs, where the sought ones have none. -/
theorem is_iff {sought : Sought} (hindex : head.lrtFileIndex < 2 ^ 16) (hlength : head.lrtFileLength < 2 ^ 32) : sought.is head = true ↔
    (head.epoch = sought.recoveryEpoch.toNat ∧ head.lrtFileIndex = sought.index.toNat ∧ head.lrtFileLength = sought.length.toNat) ∧
      sought.index.toNat < 2 ^ 15 ∧ sought.length.toNat < 2 ^ 31 := by
  have h16 := BitVec.toInt_eq_toNat_cond (BitVec.ofNat 16 head.lrtFileIndex)
  have h32 := BitVec.toInt_eq_toNat_cond (BitVec.ofNat 32 head.lrtFileLength)
  rw [BitVec.toNat_ofNat, Nat.mod_eq_of_lt hindex] at h16
  rw [BitVec.toNat_ofNat, Nat.mod_eq_of_lt hlength] at h32
  rw [Sought.is, decide_eq_true_iff, h16, h32]
  constructor
  · rintro ⟨hepoch, hi, hl⟩
    split at hi <;> split at hl <;> omega
  · rintro ⟨⟨hepoch, hi, hl⟩, hi15, hl31⟩
    rw [if_pos (by omega), if_pos (by omega)]
    omega

theorem isFound_iff : isFound f m sought place = true ↔ isSummary f m sought place = true ∧ Unsigned sought := by
  unfold isFound isSummary
  cases hhead : readHead m (f.at place) with
  | ok r =>
    obtain ⟨-, hindex, hlength, -⟩ := readHead_spec ⟨place, rfl⟩ hhead
    simp only [Bool.and_eq_true, decide_eq_true_iff, is_iff hindex hlength, Unsigned]
    tauto
  | eof => simp
  | thrown => simp

theorem Segments.le {places : List Nat} (h : Segments f m block places behind) : DEFAULT_FILE_HEADER ≤ behind := by
  induction places generalizing behind with
  | nil => exact Nat.le_of_eq h.symm
  | cons place before ih => exact Nat.le_trans (ih h.2) (Nat.le_of_lt h.1.1)

theorem next_of_found {offset : Int} (h : turn f m block sought position = .ok (.inl offset)) : next f m block sought position = none := by
  rw [next, h]

theorem next_of_passed (h : turn f m block sought position = .ok (.inr p)) : next f m block sought position = some p := by
  rw [next, h]

variable (sought) in
/-- Where a search ends that goes back over complete segments. -/
theorem walk {before : List Nat} (h : Segments f m block (place :: before) behind) (hzero : readInt (f.at (46 : Nat)) = .ok (0, f.at (50 : Nat))) :
    ∃ stop, Ends (next f m block sought) (location m place) stop ∧
      turn f m block sought stop = .ok (.inl ((((place :: before).find? (isFound f m sought)).map Int.ofNat).getD (-1))) := by
  induction before generalizing place behind with
  | nil =>
    obtain ⟨hcomplete, rfl⟩ := h
    have hturn := turn_complete sought hcomplete (Nat.le_refl _) hzero (Nat.zero_le _)
    by_cases hfound : isFound f m sought DEFAULT_FILE_HEADER = true
    · rw [if_pos hfound] at hturn
      exact ⟨_, .stop (next_of_found hturn), by rw [hturn, List.find?_cons_of_pos hfound]; rfl⟩
    · rw [if_neg hfound] at hturn
      exact ⟨0, .step (next_of_passed hturn) (.stop rfl), by rw [List.find?_cons_of_neg hfound]; rfl⟩
  | cons place' before ih =>
    obtain ⟨hcomplete, hbefore⟩ := h
    have hle : location m place' ≤ location m place := by
      have := location_eq m place
      have := location_eq m place'
      have := hbefore.1.1
      omega
    have hturn := turn_complete sought hcomplete (Segments.le hbefore) hbefore.1.before hle
    by_cases hfound : isFound f m sought place = true
    · rw [if_pos hfound] at hturn
      exact ⟨_, .stop (next_of_found hturn), by rw [hturn, List.find?_cons_of_pos hfound]; rfl⟩
    · rw [if_neg hfound] at hturn
      obtain ⟨stop, hends, hstop⟩ := ih hbefore
      exact ⟨stop, .step (next_of_passed hturn) hends, by rw [hstop, List.find?_cons_of_neg hfound]⟩

theorem start_location (h : Complete f m block place behind) : start m place = location m place := by
  obtain ⟨-, head, c, -, hhead, hpre, -⟩ := h
  have hlt := (readHead_spec ⟨place, rfl⟩ hhead).2.2.2
  have := location_eq m place
  unfold start
  omega

theorem returns_iff {lastIrtLength offset : Int} {stop : Nat} (h : Ends (next f m block sought) (start m lastIrtLength) stop) :
    Returns f m block sought lastIrtLength offset ↔ turn f m block sought stop = .ok (.inl offset) := by
  constructor
  · rintro ⟨fuel, hfind⟩
    obtain ⟨stop', hfollow, hturn⟩ := Option.map_eq_some_iff.mp hfind
    rw [h.unique (Ends.of_follow hfollow)]
    exact hturn
  · intro hturn
    obtain ⟨fuel, hfollow⟩ := follow_iff.mpr h
    exact ⟨fuel, by rw [findSummaryPaging, hfollow, Option.map_some, hturn]⟩

theorem find_isFound (hunsigned : Unsigned sought) (places : List Nat) :
    places.find? (isFound f m sought) = places.find? (isSummary f m sought) := by
  refine congrArg (List.find? · places) (funext fun place => Bool.eq_iff_iff.mpr ?_)
  rw [isFound_iff, and_iff_left hunsigned]

theorem find_isFound_none (hsigned : ¬ Unsigned sought) (places : List Nat) : places.find? (isFound f m sought) = none :=
  List.find?_eq_none.mpr fun _ _ hfound => hsigned (isFound_iff.mp hfound).2

end

/-- A file begins with its version, and zeros up to the length of a file header. -/
def Headed (bytes : Bytes) : Prop := ∃ version rest, version.length = 32 ∧ bytes = version ++ List.replicate 18 0 ++ rest

section

variable {bytes : Bytes} {device : Device} {m : Map} {block : Int → Option Nat} {sought : Sought}

theorem Headed.zero (h : Headed bytes) : readInt ((File.of bytes device).at (46 : Nat)) = .ok (0, (File.of bytes device).at (50 : Nat)) := by
  obtain ⟨version, rest, hlen, rfl⟩ := h
  have h46 : (version ++ List.replicate 14 (0 : UInt8)).length = 46 := by rw [List.length_append, hlen, List.length_replicate]
  have h50 : (version ++ List.replicate 14 (0 : UInt8) ++ writeInt 0).length = 50 := by rw [List.length_append, h46, length_writeInt]
  have hfile : (File.of (version ++ List.replicate 18 0 ++ rest) device).bytes = version ++ List.replicate 14 0 ++ (writeInt 0 ++ rest) := by
    simp [File.of, writeInt, Lib.BigEndian.encode, List.replicate_succ]
  have hat := at_append hfile
  rw [← List.append_assoc] at hfile
  have hbehind := at_append hfile
  rw [h46] at hat
  rw [h50] at hbehind
  rw [hat, hbehind, readInt_writeInt]
  rfl

/-- A file without a segment ends the search with an exception. -/
theorem empty_thrown (h : Headed bytes) (hlen : bytes.length = DEFAULT_FILE_HEADER) :
    turn (File.of bytes device) m block sought (start m DEFAULT_FILE_HEADER) = .eof := by
  have hlocation := location_eq m DEFAULT_FILE_HEADER
  have hheader := m.cardinalities_le
  have hkeyParts := m.keyParts_lt
  have hstart : start m DEFAULT_FILE_HEADER = location m DEFAULT_FILE_HEADER := by
    unfold start location Map.getIrtHeader IRT_HEAD_FORMAT_FIX OFFSET DEFAULT_FILE_HEADER
    split <;> omega
  have hseek : (location m DEFAULT_FILE_HEADER : Int) - (m.getIrtHeader - 4) = (46 : Nat) := by
    rw [hlocation, OFFSET, DEFAULT_FILE_HEADER]
    omega
  have habove : ¬ location m DEFAULT_FILE_HEADER ≤ DEFAULT_FILE_HEADER := by
    rw [OFFSET] at hlocation
    omega
  have hend : (File.of bytes device).at (50 : Nat) = ⟨50, [], false⟩ :=
    congrArg (Cursor.mk 50 · false) (List.drop_eq_nil_of_le (Nat.le_of_eq hlen))
  rw [hstart, turn, if_neg habove, hseek, h.zero, ok_bind, hend]
  rfl

/-- In a file of complete segments the search finds the last segment that it is for, or that there is none, exactly if there is a segment and
nothing to be found whose index or length is taken for a negative number. -/
theorem found_iff (h : Headed bytes) {places : List Nat} (hsegments : Segments (File.of bytes device) m block places bytes.length) :
    Returns (File.of bytes device) m block sought (places.headD DEFAULT_FILE_HEADER : Nat) (expected (File.of bytes device) m sought places) ↔
      places ≠ [] ∧ ((∃ place ∈ places, isSummary (File.of bytes device) m sought place = true) → Unsigned sought) := by
  cases places with
  | nil =>
    have hthrown : turn (File.of bytes device) m block sought (start m DEFAULT_FILE_HEADER) = .eof := empty_thrown h hsegments
    have hnext : next (File.of bytes device) m block sought (start m DEFAULT_FILE_HEADER) = none := by rw [next, hthrown]
    refine iff_of_false (fun hreturns => ?_) fun hc => hc.1 rfl
    cases hthrown.symm.trans ((returns_iff (.stop hnext)).mp hreturns)
  | cons place before =>
    obtain ⟨stop, hends, hstop⟩ := walk sought hsegments h.zero
    rw [← start_location hsegments.1] at hends
    rw [List.headD_cons, returns_iff hends, hstop, and_iff_right (List.cons_ne_nil _ _), Outcome.ok.injEq, Sum.inl.injEq, expected]
    by_cases hunsigned : Unsigned sought
    · rw [find_isFound hunsigned]
      exact iff_of_true rfl fun _ => hunsigned
    · rw [find_isFound_none hunsigned]
      cases hfind : (place :: before).find? (isSummary (File.of bytes device) m sought) with
      | none =>
        refine iff_of_true rfl fun ⟨place', hmem, hsummary⟩ => ?_
        exact absurd hsummary (List.find?_eq_none.mp hfind place' hmem)
      | some place' =>
        refine iff_of_false (fun heq => ?_) fun hc => hunsigned (hc ⟨place', List.mem_of_find?_eq_some hfind, List.find?_some hfind⟩)
        have heq : (-1 : Int) = Int.ofNat place' := heq
        cases heq

end

end DeepFabric.Store.SummarySearch
