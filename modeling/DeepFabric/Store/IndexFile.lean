/-
  DeepFabric.Store.IndexFile — an index file checked from its end (terminatePaging,
  validateKeyPaging, readPagingInfo and SegmentMetadata_v1_1 in core/RealTimeProtocol_v1_1.h,
  writeHeader, writePagingIndex and writeKeyCardinality in core/RealTimeProtocol_v1_0.h,
  RealTimeLocality, RealTimeBuilder), in a build without DEEP_DEBUG.

  A segment has a header, its location, its entries and its location again, so that it is found from
  either side; m_irtHeader is where a location is, seen from the header. The last segment of a file
  that was summarized is a closure, with the summary's locality and counts in its fields.

  validateKeyPaging looks at the last segment. If that is a closure, the file is intact. If it is
  another one it goes back along the locations, to the first closure there is. If it is none it reads
  the file from its header on, cuts off what comes behind the last segment that it gets over, and
  looks at the last closure before that.

  A reader gives what it reads, finds the end of the file or throws. What is no plain reading of
  the file is a `Device`: sections inflated by zlib, and what a buffer has or has not. Statistics
  and the reorganization of files are left out.

  - `round_trip_iff`: a closure is read back, whatever the file, exactly if m_irtHeader is right and
    the location of the block fits.
-/
import Mathlib.Data.Nat.Basic
import DeepFabric.Lib.BigEndian
import DeepFabric.Lib.Scan

namespace DeepFabric.Store.IndexFile

open Lib.BigEndian Lib.Scan
open List (append_assoc drop_drop length_append length_replicate replicate)
open BitVec (ofNat ofNat_toNat setWidth_eq toInt_lt toNat_ofNat)

abbrev Bytes := List UInt8

def DEFAULT_FILE_HEADER : Nat := 50

def IRT_HEAD_FORMAT_FIX : Int := 38

/-- The locations before and behind the entries. -/
def OFFSET : Int := 8

def IRT_FLAG_CONTENT : UInt8 := 0
def IRT_FLAG_DELETED : UInt8 := 2
def IRT_FLAG_CLOSURE : UInt8 := 3
def IRT_FLAG_REF_IRT : UInt8 := 4
def IRT_FLAG_REF_VRT : UInt8 := 5
def IRT_MFLAG_VCOMPRESS : UInt8 := 0x80

structure Map where
  /-- getKeyParts of the key builder. -/
  keyParts : Nat
  /-- The bytes of a key in a file; none if they come after their number. -/
  keyWidth : Option Nat
  /-- The bytes of a key after clearKey. -/
  cleared : Bytes
  /-- getValueSize is -1. -/
  variableValue : Bool
  /-- m_irtHeader, an inttype, has four bytes for each; a key, whose length is a ushorttype, has far fewer. -/
  keyParts_lt : keyParts < 2 ^ 29
  cleared_width : ∀ n ∈ keyWidth, cleared.length = n
  /-- A key's size is a shorttype. -/
  cleared_size : cleared.length < 2 ^ 15

namespace Map

variable (m : Map)

/-- The number is kept in a bytetype to write and to read them. -/
def cardinalities : Nat :=
  let keyParts := (ofNat 8 m.keyParts).toInt
  if 1 < keyParts then keyParts.toNat else 0

def getIrtHeader : Int := if 1 < m.keyParts then m.keyParts * 4 + IRT_HEAD_FORMAT_FIX else IRT_HEAD_FORMAT_FIX

theorem cardinalities_le : 38 + 4 * m.cardinalities ≤ m.getIrtHeader := by
  have hsigned := BitVec.toInt_eq_toNat_cond (ofNat 8 m.keyParts)
  rw [toNat_ofNat] at hsigned
  unfold getIrtHeader cardinalities IRT_HEAD_FORMAT_FIX
  simp only
  split at hsigned <;> split <;> split <;> omega

/-- A bytetype holds the number of key parts up to 127, and no other. -/
theorem getIrtHeader_eq_iff : m.getIrtHeader = 38 + 4 * m.cardinalities ↔ m.keyParts < 2 ^ 7 := by
  have hbyte : (ofNat 8 m.keyParts).toInt < 2 ^ 7 := toInt_lt
  unfold getIrtHeader cardinalities IRT_HEAD_FORMAT_FIX
  constructor
  · intro h
    simp only at h
    split at h <;> split at h <;> omega
  · intro h
    have heq : (ofNat 8 m.keyParts).toInt = m.keyParts := by
      rw [BitVec.toInt_eq_toNat_of_lt, toNat_ofNat, Nat.mod_eq_of_lt (by omega)]
      rw [toNat_ofNat, Nat.mod_eq_of_lt (by omega)]
      omega
    simp only [heq]
    split <;> split <;> omega

end Map

/-! ## The writer -/

/-- A RealTimeLocality; its viewpoint is VIEWPOINT_NONE here. -/
structure Locality where
  index : BitVec 16
  length : BitVec 32
  time : BitVec 64
  deriving DecidableEq, Repr

def writeByte (v : Nat) : Bytes := encode 1 v

def writeShort (v : Nat) : Bytes := encode 2 v

def writeInt (v : Nat) : Bytes := encode 4 v

def writeHeader (flags index length size : Nat) : Bytes := writeByte flags ++ writeShort index ++ writeInt length ++ writeInt size

def writePagingIndex (range index reference : Nat) : Bytes := writeByte range ++ writeShort index ++ writeInt reference

/-- Of no segment: -1 for every part. -/
def writeKeyCardinality (m : Map) : Bytes := (replicate m.cardinalities (writeInt (2 ^ 32 - 1))).flatten

/-- Of the cleared key. -/
def writeKey (m : Map) : Bytes :=
  match m.keyWidth with
  | none => writeShort m.cleared.length ++ m.cleared
  | some _ => m.cleared

def writeInfoPaging (m : Map) (flags : UInt8) (fileIndex position size : Nat) : Bytes :=
  flags :: (writeShort fileIndex ++ writeInt position ++ (if m.variableValue then writeInt size else []) ++ writeKey m)

/-- What memcpy puts into { ushorttype s1; ushorttype s2; uinttype i; }. -/
structure ULong64 where
  s1 : Nat
  s2 : Nat
  i : Nat
  deriving DecidableEq, Repr

def ULong64.ofTime (time : Nat) : ULong64 := ⟨time % 2 ^ 16, time / 2 ^ 16 % 2 ^ 16, time / 2 ^ 32 % 2 ^ 32⟩

def ULong64.time (u : ULong64) : Nat := u.s1 + u.s2 * 2 ^ 16 + u.i * 2 ^ 32

/-- What memcpy puts into { uinttype i; ushorttype s; }, and the six bytes of it. -/
structure UInt48 where
  s : Nat
  i : Nat
  deriving DecidableEq, Repr

def UInt48.of (v : Nat) : UInt48 := ⟨v / 2 ^ 32 % 2 ^ 16, v % 2 ^ 32⟩

def UInt48.toLong (u : UInt48) : Nat := u.i + u.s * 2 ^ 32

/-- What terminatePaging writes at a file pointer. `size` is map->size(). -/
def terminatePaging (m : Map) (summary : Locality) (size : Nat) (recoveryEpoch : BitVec 32) (invalidate : Bool) (pointer : Nat) : Bytes :=
  let u := ULong64.ofTime summary.time.toNat
  let header := writeHeader 0 summary.index.toNat summary.length.toNat 0 ++ writeKeyCardinality m ++
    (writeShort 0 ++ writeByte 0 ++ writeShort u.s1) ++ writePagingIndex 0 u.s2 u.i ++
    writeShort (if invalidate then 3 else 2) ++ writeByte 0 ++ writeInt 0
  let location := pointer + header.length
  let entrySize := UInt48.of size
  let epoch := UInt48.of recoveryEpoch.toNat
  header ++ writeInt location ++
    (writeInfoPaging m IRT_FLAG_CLOSURE entrySize.s entrySize.i 0 ++ writeInfoPaging m IRT_FLAG_CLOSURE epoch.s epoch.i 0 ++
      (if invalidate then writeInfoPaging m IRT_FLAG_CLOSURE 0 0 0 else [])) ++
    writeInt location

/-! ## Readers -/

inductive Outcome (α : Type) where
  | ok (a : α)
  | eof
  | thrown
  deriving DecidableEq, Repr

def Outcome.bind {α β : Type} : Outcome α → (α → Outcome β) → Outcome β
  | .ok a, f => f a
  | .eof, _ => .eof
  | .thrown, _ => .thrown

instance : Monad Outcome where
  pure := .ok
  bind := Outcome.bind

/-- Where a reader is in its file, and what it has before it. -/
structure Cursor where
  position : Int
  rest : Bytes
  /-- In an inflated section, which ends with an exception. -/
  inflated : Bool
  deriving DecidableEq, Repr

/-- What skipSegmentBody makes of a compressed body. -/
inductive Inflated where
  | thrown
  /-- An exception is caught, or the end of the file found; COMPRESS_READ stays on after an exception. -/
  | rejected (stale : Bool)
  | accepted (flags : UInt8) (compressedSize : Nat)
  deriving DecidableEq, Repr

structure Device where
  /-- What is read after a seek to a place before the file, which fails. -/
  stray : Int → Bytes
  /-- What an inflated section has that far back; none if the buffer of a file or a section does not reach there: this is
  undefined, and taken for an exception. -/
  back : Cursor → Int → Option Bytes
  /-- What the buffer still has behind the length that the file was cut to. -/
  buffered : Int → Bytes
  /-- What a seek leads to while COMPRESS_READ is on by mistake; none if it throws. -/
  stale : Int → Option Cursor
  /-- What a validating seek to a compressed section leads to; none if it throws. -/
  inflate : Int → Option Cursor
  skipCompressed : Int → Nat → Inflated

structure File where
  /-- What is read of it. -/
  bytes : Bytes
  length : Int
  device : Device

def File.of (bytes : Bytes) (device : Device) : File := ⟨bytes, bytes.length, device⟩

variable (f : File) (m : Map)

def File.setLength (length : Int) : File := ⟨f.bytes.take length.toNat ++ f.device.buffered length, length, f.device⟩

/-- A plain seek. -/
def File.at (position : Int) : Cursor := ⟨position, if 0 ≤ position then f.bytes.drop position.toNat else f.device.stray position, false⟩

def File.seek (stale : Bool) (position : Int) : Outcome Cursor :=
  if stale then
    match f.device.stale position with
    | none => .thrown
    | some c => .ok c
  else .ok (f.at position)

def Cursor.ended {α : Type} (c : Cursor) : Outcome α := if c.inflated then .thrown else .eof

def readNumber (n : Nat) (c : Cursor) : Outcome (Nat × Cursor) :=
  match number n c.rest with
  | none => c.ended
  | some (v, rest) => .ok (v, { c with position := c.position + n, rest := rest })

def readByte : Cursor → Outcome (Nat × Cursor) := readNumber 1

def readShort : Cursor → Outcome (Nat × Cursor) := readNumber 2

def readInt : Cursor → Outcome (Nat × Cursor) := readNumber 4

def skipBytes (n : Int) (c : Cursor) : Outcome Cursor :=
  if n < 0 then
    match f.device.back c n with
    | none => .thrown
    | some rest =>
      if c.inflated then .ok { c with position := c.position + n, rest := rest }
      else if 0 ≤ c.position + n then .ok (f.at (c.position + n))
      else .thrown
  else if n.toNat ≤ c.rest.length then .ok { c with position := c.position + n, rest := c.rest.drop n.toNat }
  else c.ended

def skipKey (c : Cursor) : Outcome Cursor :=
  match m.keyWidth with
  | some n => skipBytes f n c
  | none => do
    let (keySize, c) ← readShort c
    skipBytes f (ofNat 16 keySize).toInt c

/-- The flags of an entry, without the mark of a compressed offset. -/
def readFlags (c : Cursor) : Outcome (UInt8 × Bool × Cursor) := do
  let (b, c) ← readByte c
  let flags := UInt8.ofNat b
  return (flags &&& 0x7F, flags &&& IRT_MFLAG_VCOMPRESS ≠ 0, c)

/-- An entry with these flags has a key. -/
def keyed (flags : UInt8) : Bool :=
  flags = IRT_FLAG_CONTENT || flags = IRT_FLAG_DELETED || flags = IRT_FLAG_CLOSURE || flags = IRT_FLAG_REF_IRT || flags = IRT_FLAG_REF_VRT

/-- A number that is not in every entry. -/
def readOptional (present : Bool) (c : Cursor) : Outcome (Nat × Cursor) := if present then readInt c else .ok (0, c)

/-- The rest of an entry, of which its index and position are kept. -/
def readEntry (flags : UInt8) (hasCompressedOffset : Bool) (c : Cursor) : Outcome (UInt48 × Cursor) := do
  let (index, c) ← readShort c
  let (position, c) ← readInt c
  let (_, c) ← readOptional m.variableValue c
  let (_, c) ← readOptional hasCompressedOffset c
  let c ← if keyed flags then skipKey f m c else .ok c
  return (⟨index, position⟩, c)

def readPagingInfo (c : Cursor) : Outcome (UInt48 × Cursor) := do
  let (flags, hasCompressedOffset, c) ← readFlags c
  readEntry f m flags hasCompressedOffset c

structure SegmentMetadata where
  lrtFileIndex : Nat
  lrtFileLength : Nat
  vrtFileIndex : Nat
  irtFileIndex : Nat
  irtReference : Nat
  physicalSize : Nat
  keyCompression : Nat
  preSegmentLocation : Nat
  deriving DecidableEq, Repr

/-- The unions of SegmentMetadata_v1_1: s1 is the lower half of the vrt file index. -/
def SegmentMetadata.ulongtype64 (h : SegmentMetadata) : ULong64 := ⟨h.vrtFileIndex % 2 ^ 16, h.irtFileIndex, h.irtReference⟩

def readKeyCardinality : Nat → Cursor → Outcome Cursor
  | 0, c => .ok c
  | n + 1, c => do
    let (_, c) ← readInt c
    readKeyCardinality n c

def readMetaHeader (c : Cursor) : Outcome (SegmentMetadata × Cursor) := do
  let (_, c) ← readByte c
  let (lrtFileIndex, c) ← readShort c
  let (lrtFileLength, c) ← readInt c
  let (_, c) ← readInt c
  let c ← readKeyCardinality m.cardinalities c
  let (_, c) ← readByte c
  let (vrtFileIndex, c) ← readInt c
  let (_, c) ← readByte c
  let (irtFileIndex, c) ← readShort c
  let (irtReference, c) ← readInt c
  let (physicalSize, c) ← readShort c
  let (keyCompression, c) ← readByte c
  let (_, c) ← readInt c
  let (preSegmentLocation, c) ← readInt c
  return (⟨lrtFileIndex, lrtFileLength, vrtFileIndex, irtFileIndex, irtReference, physicalSize, keyCompression, preSegmentLocation⟩, c)

/-! ## Segments -/

def possibleSegmentStart (pos : Int) : Bool := DEFAULT_FILE_HEADER ≤ pos ∧ pos ≤ f.length - m.getIrtHeader

def possiblePostSegmentLocation (pos : Nat) : Bool := DEFAULT_FILE_HEADER ≤ pos ∧ (pos : Int) + 1 < f.length

/-- With the location of the segment before, and the cursor where the header begins; none: this is no location. -/
def seekSegment (stale : Bool) (pos : Nat) : Outcome (Option (Nat × Cursor)) :=
  if pos < DEFAULT_FILE_HEADER ∨ f.length - 4 ≤ pos then .ok none
  else
    match (f.seek stale pos).bind readInt with
    | .thrown => .thrown
    | .eof => .ok none
    | .ok (preSegmentLocation, _) =>
      if preSegmentLocation = pos then do
        let c ← f.seek stale (pos - (m.getIrtHeader - OFFSET) - 4)
        let (prev, c) ← readInt c
        return some (prev, c)
      else .ok none

/-- The entries of a plain body, as long as the file has not come to its end. -/
def readEntries : Nat → Cursor → Outcome Cursor
  | 0, c => .ok c
  | n + 1, c =>
    if c.position < f.length then do
      let (_, c) ← readPagingInfo f m c
      readEntries n c
    else .ok c

/-- What comes of a place in a forward scan. -/
inductive Segment where
  /-- No segment can start there. -/
  | none
  | eof
  | rejected (stale : Bool)
  | thrown
  | accepted (header : SegmentMetadata) (flags : UInt8) (next : Cursor)
  deriving DecidableEq, Repr

/-- From the cursor behind the header. Where the body begins is told from the header, not from the cursor. -/
def skipSegmentBody (header : SegmentMetadata) (c : Cursor) : Segment :=
  if header.keyCompression = 1 then
    match f.device.skipCompressed (header.preSegmentLocation + 4) header.physicalSize with
    | .thrown => .thrown
    | .rejected stale => .rejected stale
    | .accepted flags compressedSize =>
      match readInt (f.at (header.preSegmentLocation + 4 + (8 + compressedSize))) with
      | .ok (postSegmentLocation, c) =>
        if header.preSegmentLocation = postSegmentLocation then .accepted header flags c else .rejected false
      | _ => .rejected false
  else
    match readByte c with
    | .ok (flags, _) =>
      match readEntries f m header.physicalSize (f.at (header.preSegmentLocation + 4)) with
      | .thrown => .thrown
      | .eof => .rejected false
      | .ok c =>
        if f.length - 4 < c.position then .rejected false
        else
          match readInt c with
          | .ok (postSegmentLocation, c) =>
            if header.preSegmentLocation = postSegmentLocation then .accepted header (UInt8.ofNat flags) c else .rejected false
          | _ => .rejected false
    | _ => .rejected false

def segmentAt (c : Cursor) : Segment :=
  if possibleSegmentStart f m c.position then
    match readMetaHeader m c with
    | .ok (header, c) => skipSegmentBody f m header c
    | _ => .eof
  else .none

/-- A turn of the scan, with the location of the last closure. -/
def scanStep (s : Cursor × Option Nat) : Option (Cursor × Option Nat) :=
  match segmentAt f m s.1 with
  | .accepted header flags next => some (next, if flags = IRT_FLAG_CLOSURE then some header.preSegmentLocation else s.2)
  | _ => none

/-! ## validateKeyPaging -/

inductive Summary where
  | error
  | intact
  | ignore
  | empty
  deriving DecidableEq, Repr

/-- What is left in the caller's variables and in the file to write. -/
structure Out where
  lastLrtLocality : Locality
  lastIrtLength : Int
  entrySize : Nat
  recoveryEpoch : BitVec 32
  invalidSummary : Bool
  /-- What the file was cut to. -/
  cut : Option Int
  deriving DecidableEq, Repr

def LOCALITY_NONE : Locality := ⟨0, 0, 0⟩

def Out.init : Out := ⟨LOCALITY_NONE, -1, 0, 0, false, none⟩

inductive Return where
  | thrown (out : Out)
  | returned (summary : Summary) (out : Out)
  deriving DecidableEq, Repr

def Return.out : Return → Out
  | .thrown out => out
  | .returned _ out => out

def safeLocality (index length : Nat) (time : ULong64) : Locality :=
  if length < DEFAULT_FILE_HEADER then LOCALITY_NONE else ⟨ofNat 16 index, ofNat 32 length, ofNat 64 time.time⟩

inductive Mode where
  | c
  | q
  | p
  deriving DecidableEq, Repr

/-- The variables that go from label to label. -/
structure Vars where
  eof : Bool
  flags : UInt8
  postSegmentLocation : Nat
  preSegmentLocation : Nat
  nextSegmentPSL : Nat
  header : SegmentMetadata
  uinttype48 : UInt48
  /-- Where entries are read. -/
  cursor : Cursor
  deriving DecidableEq, Repr

/-- An entry, with its flags; none: it throws. -/
def readPagingInfoAt (v : Vars) (c : Cursor) : Option Vars :=
  match readFlags c with
  | .thrown => none
  | .eof => some { v with eof := true, flags := 0x7F }
  | .ok (flags, hasCompressedOffset, c) =>
    match readEntry f m flags hasCompressedOffset c with
    | .thrown => none
    | .eof => some { v with eof := true, flags := flags }
    | .ok (u, c) => some { v with flags := flags, uinttype48 := u, cursor := c }

/-- From NEXT_SEGMENT to RETRY; none: it throws. Where the file ended, only this counts. -/
def look (stale : Bool) (v : Vars) : Option Vars :=
  if !v.eof && possiblePostSegmentLocation f v.postSegmentLocation then
    match seekSegment f m stale v.postSegmentLocation with
    | .thrown => none
    | .eof => some { v with eof := true, flags := 0x7F }
    | .ok none => some { v with eof := true }
    | .ok (some (prev, c)) =>
      match readMetaHeader m c with
      | .thrown => none
      | .eof => some { v with eof := true, flags := 0x7F, nextSegmentPSL := prev }
      | .ok (header, c) =>
        let v := { v with nextSegmentPSL := prev, header := header, preSegmentLocation := header.preSegmentLocation }
        match if header.keyCompression = 0 then some c else f.device.inflate c.position with
        | none => some { v with eof := true }
        | some c => readPagingInfoAt f m v c
  else some v

inductive Next where
  | done (r : Return)
  | scan (v : Vars) (out : Out)
  | nextSegment (v : Vars) (out : Out)
  deriving DecidableEq, Repr

def Next.out : Next → Out
  | .done r => r.out
  | .scan _ out => out
  | .nextSegment _ out => out

/-- The branches of RETRY that are for no closure. -/
def retryOther (mode : Mode) (v : Vars) (out : Out) : Next :=
  if v.eof ∨ IRT_FLAG_REF_VRT < v.flags ∨ v.postSegmentLocation ≠ v.preSegmentLocation then
    if mode = .c then .scan v out else .done (.returned .error out)
  else if mode = .p then .done (.returned .error out)
  else if v.nextSegmentPSL < DEFAULT_FILE_HEADER ∨ v.postSegmentLocation ≤ v.nextSegmentPSL then .done (.returned .ignore out)
  else .nextSegment { v with postSegmentLocation := v.nextSegmentPSL } out

/-- The entries of a closure behind the first: the recovery epoch, and one if the summary is not valid. -/
def closureEntries (v : Vars) : Option (Vars × BitVec 32 × Bool) :=
  if 1 < v.header.physicalSize then do
    let v ← readPagingInfoAt f m v v.cursor
    let recoveryEpoch := ofNat 32 v.uinttype48.i
    if 2 < v.header.physicalSize then
      let v ← readPagingInfoAt f m v v.cursor
      return (v, recoveryEpoch, true)
    else return (v, recoveryEpoch, false)
  else return (v, 0, false)

def retry (mode : Mode) (v : Vars) (out : Out) : Next :=
  if v.eof = false ∧ v.flags = IRT_FLAG_CLOSURE ∧ v.postSegmentLocation = v.preSegmentLocation then
    let out := { out with lastIrtLength := v.postSegmentLocation - (m.getIrtHeader - OFFSET) }
    let entrySize := v.uinttype48.toLong
    match closureEntries f m v with
    | none => .done (.thrown out)
    | some (v, recoveryEpoch, invalid) =>
      let out := { out with invalidSummary := out.invalidSummary || invalid }
      if v.eof ∨ v.flags ≠ IRT_FLAG_CLOSURE then retryOther mode v out
      else
        let lastLrtLocality := safeLocality v.header.lrtFileIndex v.header.lrtFileLength v.header.ulongtype64
        let out := { out with lastLrtLocality := lastLrtLocality, entrySize := entrySize, recoveryEpoch := recoveryEpoch }
        if (v.header.lrtFileIndex = 0 ∧ v.header.lrtFileLength = 0) ∨ lastLrtLocality.length ≠ 0 then .done (.returned .intact out)
        else .done (.returned .error out)
  else retryOther mode v out

/-- Where the forward scan has come to an end. -/
def scanned (stop : Segment) (currentPosition : Int) (found : Option Nat) (v : Vars) (out : Out) : Sum Return (Vars × Out) :=
  match stop with
  | .thrown => .inl (.thrown out)
  | stop =>
    if currentPosition = DEFAULT_FILE_HEADER then .inl (.returned .error out)
    else
      let out := { out with cut := some currentPosition }
      match found with
      | none => .inl (.returned .ignore out)
      | some location => .inr ({ v with eof := stop = .eof, postSegmentLocation := location }, out)

/-- From NEXT_SEGMENT on; none: there were too few turns. -/
def nextSegment : Nat → File → Mode → Bool → Vars → Out → Option Return
  | 0, _, _, _, _, _ => none
  | fuel + 1, f, mode, stale, v, out =>
    match look f m stale v with
    | none => some (.thrown out)
    | some v =>
      match retry f m mode v out with
      | .done r => some r
      | .nextSegment v out => nextSegment fuel f .q false v out
      | .scan v out =>
        match follow (scanStep f m) fuel (f.at DEFAULT_FILE_HEADER, none) with
        | none => none
        | some (c, found) =>
          match scanned (segmentAt f m c) c.position found v out with
          | .inl r => some r
          | .inr (v, out) => nextSegment fuel (f.setLength c.position) .p (segmentAt f m c = .rejected true) v out

/-- The variables at the beginning. -/
def Vars.init : Vars :=
  let start : Vars := ⟨true, IRT_FLAG_REF_VRT + 1, 0, 0, 0, ⟨0, 0, 0, 0, 0, 0, 0, 0⟩, ⟨0, 0⟩, f.at 0⟩
  match readInt (f.at (f.length - 4)) with
  | .ok (postSegmentLocation, _) => { start with eof := false, postSegmentLocation := postSegmentLocation }
  | _ => start

/-- `isEmptyMap` has the index of the log if the map is empty. -/
def validateKeyPaging (fuel : Nat) (isEmptyMap : Option Nat) : Option Return :=
  match if f.length = DEFAULT_FILE_HEADER then isEmptyMap else none with
  | some lrtIndex =>
    some (.returned .empty { Out.init with
      lastLrtLocality := ⟨ofNat 16 lrtIndex, ofNat 32 DEFAULT_FILE_HEADER, 0⟩, lastIrtLength := DEFAULT_FILE_HEADER })
  | none => nextSegment m fuel f .c false (Vars.init f) Out.init

/-! ## Reading what was written -/

variable {f m} {position : Int} {v n : Nat} {rest : Bytes} {inflated : Bool}

theorem readNumber_encode (n v : Nat) (rest : Bytes) (position : Int) (inflated : Bool) :
    readNumber n ⟨position, encode n v ++ rest, inflated⟩ = .ok (v % 256 ^ n, ⟨position + n, rest, inflated⟩) := by
  have h : number n (encode n v ++ rest) = some (v % 256 ^ n, rest) := by
    rw [number, take_append length_encode, Option.map_some, decode_encode]
  rw [readNumber, h]

@[simp] theorem readByte_writeByte : readByte ⟨position, writeByte v ++ rest, inflated⟩ = .ok (v % 2 ^ 8, ⟨position + 1, rest, inflated⟩) :=
  readNumber_encode 1 v rest position inflated

@[simp] theorem readShort_writeShort : readShort ⟨position, writeShort v ++ rest, inflated⟩ = .ok (v % 2 ^ 16, ⟨position + 2, rest, inflated⟩) :=
  readNumber_encode 2 v rest position inflated

@[simp] theorem readInt_writeInt : readInt ⟨position, writeInt v ++ rest, inflated⟩ = .ok (v % 2 ^ 32, ⟨position + 4, rest, inflated⟩) :=
  readNumber_encode 4 v rest position inflated

@[simp] theorem ok_bind {α β : Type} (a : α) (g : α → Outcome β) : (Outcome.ok a >>= g) = g a := rfl

@[simp] theorem length_writeByte : (writeByte v).length = 1 := length_encode

@[simp] theorem length_writeShort : (writeShort v).length = 2 := length_encode

@[simp] theorem length_writeInt : (writeInt v).length = 4 := length_encode

theorem readKeyCardinality_flatten (n v : Nat) (rest : Bytes) (position : Int) (inflated : Bool) :
    readKeyCardinality n ⟨position, (replicate n (writeInt v)).flatten ++ rest, inflated⟩ = .ok ⟨position + 4 * n, rest, inflated⟩ := by
  induction n generalizing position with
  | zero => simp [readKeyCardinality]
  | succ n ih =>
    rw [List.replicate_succ, List.flatten_cons, append_assoc, readKeyCardinality, readInt_writeInt, ok_bind]
    show readKeyCardinality n _ = _
    rw [ih]
    simp only [Outcome.ok.injEq, Cursor.mk.injEq, and_true]
    omega

/-- The header that terminatePaging writes, up to its location. -/
def closureHeader (m : Map) (summary : Locality) (invalidate : Bool) : Bytes :=
  let u := ULong64.ofTime summary.time.toNat
  writeHeader 0 summary.index.toNat summary.length.toNat 0 ++ writeKeyCardinality m ++
    (writeShort 0 ++ writeByte 0 ++ writeShort u.s1) ++ writePagingIndex 0 u.s2 u.i ++
    writeShort (if invalidate then 3 else 2) ++ writeByte 0 ++ writeInt 0

theorem length_closureHeader (m : Map) (summary : Locality) (invalidate : Bool) :
    (closureHeader m summary invalidate).length = 30 + 4 * m.cardinalities := by
  simp only [closureHeader, writeHeader, writePagingIndex, writeKeyCardinality, length_append, length_writeByte, length_writeShort,
    length_writeInt, List.length_flatten, List.map_replicate, List.sum_replicate_nat]
  omega

theorem writeShort_eq (h : v < 2 ^ 16) : writeShort 0 ++ writeByte 0 ++ writeShort v = writeByte 0 ++ writeInt v := by
  have h3 : v / 16777216 = 0 := Nat.div_eq_of_lt (by omega)
  have h2 : v / 65536 = 0 := Nat.div_eq_of_lt (by omega)
  simp [writeShort, writeByte, writeInt, encode, h3, h2]

theorem readMetaHeader_closureHeader (m : Map) (summary : Locality) (invalidate : Bool) (location : Nat) (rest : Bytes) (position : Int) :
    readMetaHeader m ⟨position, closureHeader m summary invalidate ++ (writeInt location ++ rest), false⟩ =
      .ok (⟨summary.index.toNat, summary.length.toNat, summary.time.toNat % 2 ^ 16, summary.time.toNat / 2 ^ 16 % 2 ^ 16,
        summary.time.toNat / 2 ^ 32 % 2 ^ 32, if invalidate then 3 else 2, 0, location % 2 ^ 32⟩,
        ⟨position + (34 + 4 * m.cardinalities : Nat), rest, false⟩) := by
  have hs1 : summary.time.toNat % 2 ^ 16 < 2 ^ 16 := Nat.mod_lt _ (by decide)
  rw [closureHeader]
  simp only [ULong64.ofTime]
  rw [writeShort_eq hs1]
  simp only [readMetaHeader, writeHeader, writePagingIndex, writeKeyCardinality, append_assoc, readByte_writeByte, ok_bind,
    readShort_writeShort, readInt_writeInt, readKeyCardinality_flatten]
  have hindex : summary.index.toNat % 2 ^ 16 = summary.index.toNat := Nat.mod_eq_of_lt summary.index.isLt
  have hlength : summary.length.toNat % 2 ^ 32 = summary.length.toNat := Nat.mod_eq_of_lt summary.length.isLt
  have hlow : summary.time.toNat % 2 ^ 16 % 2 ^ 32 = summary.time.toNat % 2 ^ 16 := Nat.mod_eq_of_lt (by omega)
  have hsize : (if invalidate = true then 3 else 2) % 2 ^ 16 = if invalidate = true then 3 else 2 := by cases invalidate <;> rfl
  have hposition : position + 1 + 2 + 4 + 4 + 4 * (m.cardinalities : Int) + 1 + 4 + 1 + 2 + 4 + 2 + 1 + 4 + 4 =
      position + (34 + 4 * m.cardinalities : Nat) := by omega
  rw [hindex, hlength, hlow, hsize, Nat.mod_mod, Nat.mod_mod, Nat.zero_mod, hposition]
  rfl

/-! ## The entries of a closure -/

variable {c c' : Cursor}

theorem skipKey_writeKey (f : File) (m : Map) (rest : Bytes) (position : Int) : ∃ position',
    skipKey f m ⟨position, writeKey m ++ rest, false⟩ = .ok ⟨position', rest, false⟩ := by
  have hskip : ∀ position, ∃ position', skipBytes f m.cleared.length ⟨position, m.cleared ++ rest, false⟩ = .ok ⟨position', rest, false⟩ := by
    intro position
    refine ⟨position + m.cleared.length, ?_⟩
    rw [skipBytes, if_neg (by omega), Int.toNat_natCast, if_pos (by simp), List.drop_left]
  unfold skipKey writeKey
  cases hwidth : m.keyWidth with
  | none =>
    have hsigned : (ofNat 16 (m.cleared.length % 2 ^ 16)).toInt = m.cleared.length := by
      have := m.cleared_size
      rw [BitVec.toInt_eq_toNat_of_lt] <;> simp <;> omega
    simp only [append_assoc, readShort_writeShort, ok_bind, hsigned]
    exact hskip _
  | some n =>
    simp only [← m.cleared_width n hwidth]
    exact hskip _

theorem readFlags_writeInfoPaging (m : Map) (s i size : Nat) (rest : Bytes) (position : Int) :
    readFlags ⟨position, writeInfoPaging m IRT_FLAG_CLOSURE s i size ++ rest, false⟩ = .ok (IRT_FLAG_CLOSURE, false, ⟨position + 1,
      writeShort s ++ (writeInt i ++ ((if m.variableValue then writeInt size else []) ++ (writeKey m ++ rest))), false⟩) := by
  have hbyte : writeInfoPaging m IRT_FLAG_CLOSURE s i size ++ rest =
      writeByte 3 ++ (writeShort s ++ (writeInt i ++ ((if m.variableValue then writeInt size else []) ++ (writeKey m ++ rest)))) := by
    simp [writeInfoPaging, writeByte, encode, IRT_FLAG_CLOSURE]
  rw [hbyte]
  have hflags : UInt8.ofNat (3 % 2 ^ 8) &&& 0x7F = IRT_FLAG_CLOSURE := by decide
  have hcompressed : decide (UInt8.ofNat (3 % 2 ^ 8) &&& IRT_MFLAG_VCOMPRESS ≠ 0) = false := by decide
  simp only [readFlags, readByte_writeByte, ok_bind, hflags, hcompressed]
  rfl

theorem readEntry_closure (f : File) (m : Map) (s i size : Nat) (rest : Bytes) (position : Int) : ∃ position',
    readEntry f m IRT_FLAG_CLOSURE false ⟨position,
      writeShort s ++ (writeInt i ++ ((if m.variableValue then writeInt size else []) ++ (writeKey m ++ rest))), false⟩ =
      .ok (⟨s % 2 ^ 16, i % 2 ^ 32⟩, ⟨position', rest, false⟩) := by
  have hkeyed : keyed IRT_FLAG_CLOSURE = true := by decide
  cases hvalue : m.variableValue with
  | true =>
    obtain ⟨position', hkey⟩ := skipKey_writeKey f m rest (position + 2 + 4 + 4)
    refine ⟨position', ?_⟩
    simp only [readEntry, hvalue, readOptional, if_true, readShort_writeShort, ok_bind, readInt_writeInt, Bool.false_eq_true, if_false, pure,
      hkeyed, hkey]
  | false =>
    obtain ⟨position', hkey⟩ := skipKey_writeKey f m rest (position + 2 + 4)
    refine ⟨position', ?_⟩
    simp only [readEntry, hvalue, readOptional, if_true, readShort_writeShort, ok_bind, readInt_writeInt, Bool.false_eq_true, if_false, pure,
      hkeyed, hkey, List.nil_append]

/-! ## A file with a closure at its end -/

theorem readInt_append {a : Bytes} (h : a.length = 4) (rest : Bytes) (position : Int) (inflated : Bool) :
    readInt ⟨position, a ++ rest, inflated⟩ = .ok (decode a, ⟨position + 4, rest, inflated⟩) := by
  have hnumber : number 4 (a ++ rest) = some (decode a, rest) := by
    rw [number, take_append h, Option.map_some]
  rw [readInt, readNumber, hnumber]
  rfl

theorem at_append {a b : Bytes} (h : f.bytes = a ++ b) : f.at a.length = ⟨a.length, b, false⟩ := by
  rw [File.at, if_pos (Int.natCast_nonneg _), Int.toNat_natCast, h, List.drop_left]

/-- The entries of a closure. -/
def closureBody (m : Map) (size : Nat) (recoveryEpoch : BitVec 32) (invalidate : Bool) : Bytes :=
  let entrySize := UInt48.of size
  let epoch := UInt48.of recoveryEpoch.toNat
  writeInfoPaging m IRT_FLAG_CLOSURE entrySize.s entrySize.i 0 ++ writeInfoPaging m IRT_FLAG_CLOSURE epoch.s epoch.i 0 ++
    (if invalidate then writeInfoPaging m IRT_FLAG_CLOSURE 0 0 0 else [])

section Closure

variable {summary : Locality} {size : Nat} {recoveryEpoch : BitVec 32} {invalidate : Bool} {content : Bytes}

theorem terminatePaging_eq (m : Map) (summary : Locality) (size : Nat) (recoveryEpoch : BitVec 32) (invalidate : Bool) (pointer : Nat) :
    terminatePaging m summary size recoveryEpoch invalidate pointer = closureHeader m summary invalidate ++
      (writeInt (pointer + (30 + 4 * m.cardinalities)) ++ (closureBody m size recoveryEpoch invalidate ++
        writeInt (pointer + (30 + 4 * m.cardinalities)))) := by
  rw [← length_closureHeader m summary invalidate]
  simp only [terminatePaging, closureHeader, closureBody, append_assoc]

/-- The number of key parts fits a bytetype, and the location of a block at the pointer an uinttype. -/
structure Fits (m : Map) (pointer : Nat) : Prop where
  keyParts : m.keyParts < 2 ^ 7
  fits : pointer + (m.getIrtHeader - OFFSET) < 2 ^ 32

theorem Fits.header {pointer : Nat} (h : Fits m pointer) : m.getIrtHeader = 38 + 4 * m.cardinalities := m.getIrtHeader_eq_iff.mpr h.keyParts

theorem Fits.location {pointer : Nat} (h : Fits m pointer) : pointer + (30 + 4 * m.cardinalities) < 2 ^ 32 := by
  have hfits := h.fits
  rw [h.header, OFFSET] at hfits
  omega

variable (hf : f.bytes = content ++ terminatePaging m summary size recoveryEpoch invalidate content.length) (hcut : f.length = f.bytes.length)
  (hcontent : DEFAULT_FILE_HEADER ≤ content.length)
include hf hcut hcontent

theorem possible_location :
    possiblePostSegmentLocation f (content.length + (30 + 4 * m.cardinalities)) = true ∧
      ¬(content.length + (30 + 4 * m.cardinalities) < DEFAULT_FILE_HEADER ∨
        f.length - 4 ≤ (content.length + (30 + 4 * m.cardinalities) : Nat)) := by
  have hlen : (f.bytes.length : Int) = (content.length : Int) + (terminatePaging m summary size recoveryEpoch invalidate content.length).length := by
    rw [hf, length_append, Int.natCast_add]
  have hbody : 7 + 7 ≤ (closureBody m size recoveryEpoch invalidate).length := by
    simp only [closureBody, writeInfoPaging, length_append, List.length_cons, length_writeShort, length_writeInt]
    omega
  have hblock : 30 + 4 * m.cardinalities + 4 + 14 + 4 ≤ (terminatePaging m summary size recoveryEpoch invalidate content.length).length := by
    rw [terminatePaging_eq]
    simp only [length_append, length_closureHeader, length_writeInt]
    omega
  rw [possiblePostSegmentLocation, hcut]
  exact ⟨decide_eq_true ⟨by omega, by omega⟩, by omega⟩

theorem seekSegment_block (hfits : Fits m content.length) : ∃ prev,
    seekSegment f m false (content.length + (30 + 4 * m.cardinalities)) = .ok (some (prev, ⟨content.length,
      terminatePaging m summary size recoveryEpoch invalidate content.length, false⟩)) := by
  have hlocation : f.bytes = (content ++ closureHeader m summary invalidate) ++ (writeInt (content.length + (30 + 4 * m.cardinalities)) ++
      (closureBody m size recoveryEpoch invalidate ++ writeInt (content.length + (30 + 4 * m.cardinalities)))) := by
    rw [hf, terminatePaging_eq, append_assoc]
  have hlen : (content ++ closureHeader m summary invalidate).length = content.length + (30 + 4 * m.cardinalities) := by
    rw [length_append, length_closureHeader]
  have hat := at_append hlocation
  rw [hlen] at hat
  have hbefore : 4 ≤ content.length := Nat.le_trans (by decide) hcontent
  have hsplit : f.bytes = content.take (content.length - 4) ++ (content.drop (content.length - 4) ++
      terminatePaging m summary size recoveryEpoch invalidate content.length) := by
    rw [← append_assoc, List.take_append_drop, hf]
  have hprev := at_append hsplit
  rw [List.length_take_of_le (Nat.sub_le _ _)] at hprev
  have hstart : ((content.length + (30 + 4 * m.cardinalities) : Nat) : Int) - (m.getIrtHeader - OFFSET) - 4 = (content.length - 4 : Nat) := by
    rw [hfits.header, OFFSET]
    omega
  refine ⟨decode (content.drop (content.length - 4)), ?_⟩
  have hdrop : (content.drop (content.length - 4)).length = 4 := by
    rw [List.length_drop]
    omega
  rw [seekSegment, if_neg (possible_location hf hcut hcontent).2]
  simp only [File.seek, Bool.false_eq_true, if_false, hat, Outcome.bind, readInt_writeInt, Nat.mod_eq_of_lt hfits.location, if_true, hstart, hprev,
    readInt_append hdrop, ok_bind, pure]
  simp only [Outcome.ok.injEq, Option.some.injEq, Prod.mk.injEq, Cursor.mk.injEq, and_true, true_and]
  omega

variable {v : Vars}

/-- What is found at the end of the file, with the rest of the entries before the cursor. -/
theorem look_block (hfits : Fits m content.length)
    (heof : v.eof = false) (hpost : v.postSegmentLocation = content.length + (30 + 4 * m.cardinalities)) : ∃ prev position,
    look f m false v = some { v with
      flags := IRT_FLAG_CLOSURE
      preSegmentLocation := content.length + (30 + 4 * m.cardinalities)
      nextSegmentPSL := prev
      header := ⟨summary.index.toNat, summary.length.toNat, summary.time.toNat % 2 ^ 16, summary.time.toNat / 2 ^ 16 % 2 ^ 16,
        summary.time.toNat / 2 ^ 32 % 2 ^ 32, if invalidate then 3 else 2, 0, content.length + (30 + 4 * m.cardinalities)⟩
      uinttype48 := ⟨size / 2 ^ 32 % 2 ^ 16, size % 2 ^ 32⟩
      cursor := ⟨position, writeInfoPaging m IRT_FLAG_CLOSURE 0 recoveryEpoch.toNat 0 ++
        ((if invalidate then writeInfoPaging m IRT_FLAG_CLOSURE 0 0 0 else []) ++
          writeInt (content.length + (30 + 4 * m.cardinalities))), false⟩ } := by
  obtain ⟨prev, hseek⟩ := seekSegment_block hf hcut hcontent hfits
  have hepoch : UInt48.of recoveryEpoch.toNat = ⟨0, recoveryEpoch.toNat⟩ := by
    simp only [UInt48.of, UInt48.mk.injEq]
    omega
  obtain ⟨position, hentry⟩ := readEntry_closure f m (size / 2 ^ 32 % 2 ^ 16) (size % 2 ^ 32) 0
    (writeInfoPaging m IRT_FLAG_CLOSURE 0 recoveryEpoch.toNat 0 ++ ((if invalidate then writeInfoPaging m IRT_FLAG_CLOSURE 0 0 0 else []) ++
      writeInt (content.length + (30 + 4 * m.cardinalities)))) (content.length + (34 + 4 * m.cardinalities : Nat) + 1)
  refine ⟨prev, position, ?_⟩
  rw [look, heof, hpost, (possible_location hf hcut hcontent).1, hseek, terminatePaging_eq]
  simp only [Bool.not_false, Bool.and_self, if_true, readMetaHeader_closureHeader, closureBody, hepoch, append_assoc]
  simp only [readPagingInfoAt, readFlags_writeInfoPaging, UInt48.of, hentry, Nat.mod_mod, Nat.mod_eq_of_lt hfits.location]

omit hf hcut hcontent

variable {rest : Bytes} {position : Int}

theorem readPagingInfoAt_closure {s i : Nat}
    (hcursor : v.cursor = ⟨position, writeInfoPaging m IRT_FLAG_CLOSURE s i 0 ++ rest, false⟩) : ∃ v',
    readPagingInfoAt f m v v.cursor = some v' ∧ v'.eof = v.eof ∧ v'.flags = IRT_FLAG_CLOSURE ∧ v'.header = v.header ∧
      v'.uinttype48 = ⟨s % 2 ^ 16, i % 2 ^ 32⟩ ∧ ∃ position', v'.cursor = ⟨position', rest, false⟩ := by
  obtain ⟨position', hentry⟩ := readEntry_closure f m s i 0 rest (position + 1)
  refine ⟨{ v with flags := IRT_FLAG_CLOSURE, uinttype48 := ⟨s % 2 ^ 16, i % 2 ^ 32⟩, cursor := ⟨position', rest, false⟩ }, ?_,
    rfl, rfl, rfl, rfl, position', rfl⟩
  simp only [readPagingInfoAt, hcursor, readFlags_writeInfoPaging, hentry]

theorem closureEntries_block (hsize : v.header.physicalSize = if invalidate then 3 else 2)
    (hcursor : v.cursor = ⟨position, writeInfoPaging m IRT_FLAG_CLOSURE 0 recoveryEpoch.toNat 0 ++
      ((if invalidate then writeInfoPaging m IRT_FLAG_CLOSURE 0 0 0 else []) ++ rest), false⟩) : ∃ v',
    closureEntries f m v = some (v', recoveryEpoch, invalidate) ∧ v'.eof = v.eof ∧ v'.flags = IRT_FLAG_CLOSURE ∧ v'.header = v.header := by
  obtain ⟨second, hsecond, heof, hflags, hheader, hu, position', hbehind⟩ := readPagingInfoAt_closure (f := f) hcursor
  have hepoch : ofNat 32 second.uinttype48.i = recoveryEpoch := by
    rw [hu, Nat.mod_eq_of_lt recoveryEpoch.isLt, ofNat_toNat, setWidth_eq]
  cases invalidate with
  | false =>
    refine ⟨second, ?_, heof, hflags, hheader⟩
    simp [closureEntries, hsize, hsecond, hheader, hepoch]
  | true =>
    obtain ⟨third, hthird, heof', hflags', hheader', -⟩ := readPagingInfoAt_closure (f := f) hbehind
    refine ⟨third, ?_, heof'.trans heof, hflags', hheader'.trans hheader⟩
    simp [closureEntries, hsize, hsecond, hthird, hheader, hepoch]

theorem time_ofTime (time : BitVec 64) : ofNat 64 (ULong64.ofTime time.toNat).time = time := by
  have h : (ULong64.ofTime time.toNat).time = time.toNat := by
    simp only [ULong64.ofTime, ULong64.time]
    omega
  rw [h, ofNat_toNat, setWidth_eq]

/-- A closure is found intact, with what was written into it. -/
theorem retry_block {mode : Mode} {out : Out} (hfits : Fits m content.length)
    (hlength : DEFAULT_FILE_HEADER ≤ summary.length.toNat) (hsize : size < 2 ^ 48) (heof : v.eof = false) (hflags : v.flags = IRT_FLAG_CLOSURE)
    (hpost : v.postSegmentLocation = content.length + (30 + 4 * m.cardinalities)) (hpre : v.postSegmentLocation = v.preSegmentLocation)
    (hheader : v.header = ⟨summary.index.toNat, summary.length.toNat, summary.time.toNat % 2 ^ 16, summary.time.toNat / 2 ^ 16 % 2 ^ 16,
      summary.time.toNat / 2 ^ 32 % 2 ^ 32, if invalidate then 3 else 2, 0, content.length + (30 + 4 * m.cardinalities)⟩)
    (hcount : v.uinttype48 = ⟨size / 2 ^ 32 % 2 ^ 16, size % 2 ^ 32⟩)
    (hcursor : v.cursor = ⟨position, writeInfoPaging m IRT_FLAG_CLOSURE 0 recoveryEpoch.toNat 0 ++
      ((if invalidate then writeInfoPaging m IRT_FLAG_CLOSURE 0 0 0 else []) ++ rest), false⟩) :
    retry f m mode v out = .done (.returned .intact { out with
      lastLrtLocality := summary, lastIrtLength := content.length, entrySize := size, recoveryEpoch := recoveryEpoch
      invalidSummary := out.invalidSummary || invalidate }) := by
  obtain ⟨last, hentries, hlasteof, hlastflags, hlastheader⟩ := closureEntries_block (f := f) (by rw [hheader]) hcursor
  have hentrySize : v.uinttype48.toLong = size := by
    rw [hcount]
    simp only [UInt48.toLong]
    omega
  have hstart : (v.postSegmentLocation : Int) - (m.getIrtHeader - OFFSET) = content.length := by
    rw [hpost, hfits.header, OFFSET]
    omega
  have hlocality : safeLocality last.header.lrtFileIndex last.header.lrtFileLength last.header.ulongtype64 = summary := by
    have hlow : summary.time.toNat % 2 ^ 16 % 2 ^ 16 = summary.time.toNat % 2 ^ 16 := Nat.mod_mod _ _
    have htime := time_ofTime summary.time
    rw [ULong64.ofTime] at htime
    rw [hlastheader, hheader, safeLocality, if_neg (Nat.not_lt.mpr hlength), SegmentMetadata.ulongtype64, hlow, htime]
    simp only [ofNat_toNat, setWidth_eq]
  have hsome : summary.length ≠ 0 := by
    intro hzero
    rw [hzero] at hlength
    exact absurd hlength (by decide)
  rw [retry, if_pos ⟨heof, hflags, hpre⟩, hentries]
  simp only [hlasteof, heof, hlastflags, ne_eq, not_true_eq_false, Bool.false_eq_true, or_self, if_false, hlocality, hsome, not_false_eq_true,
    or_true, if_true, hstart, hentrySize]

end Closure

/-! ## Moving on -/

def Cursor.forward (n : Nat) (c : Cursor) : Cursor := ⟨c.position + n, c.rest.drop n, c.inflated⟩

@[simp] theorem forward_forward (a b : Nat) (c : Cursor) : (c.forward a).forward b = c.forward (a + b) := by
  simp only [Cursor.forward, drop_drop, Cursor.mk.injEq, and_true]
  omega

theorem bind_eq_ok {α β : Type} {x : Outcome α} {g : α → Outcome β} {b : β} : (x >>= g) = .ok b ↔ ∃ a, x = .ok a ∧ g a = .ok b := by
  cases x with
  | ok a => exact ⟨fun h => ⟨a, rfl, h⟩, fun ⟨_, ha, h⟩ => by cases ha; exact h⟩
  | eof => exact ⟨nofun, nofun⟩
  | thrown => exact ⟨nofun, nofun⟩

theorem readNumber_spec (h : readNumber n c = .ok (v, c')) : n ≤ c.rest.length ∧ v = decode (c.rest.take n) ∧ c' = c.forward n := by
  unfold readNumber at h
  split at h
  · unfold Cursor.ended at h
    split at h <;> cases h
  · rename_i hnumber
    obtain ⟨⟨a, rest⟩, htake, hp⟩ := Option.map_eq_some_iff.mp hnumber
    unfold take at htake
    split at htake
    · rename_i hle
      cases htake
      cases hp
      cases h
      exact ⟨hle, rfl, rfl⟩
    · cases htake

theorem readKeyCardinality_spec (h : readKeyCardinality n c = .ok c') : c' = c.forward (4 * n) := by
  induction n generalizing c with
  | zero =>
    cases h
    simp [Cursor.forward]
  | succ n ih =>
    obtain ⟨⟨_, c1⟩, h1, h⟩ := bind_eq_ok.mp h
    rw [ih h, (readNumber_spec h1).2.2, forward_forward]
    congr 1
    omega

/-- Where the location of a segment is, seen from its header. -/
theorem readMetaHeader_spec {header : SegmentMetadata} (h : readMetaHeader m c = .ok (header, c')) :
    34 + 4 * m.cardinalities ≤ c.rest.length ∧ c' = c.forward (34 + 4 * m.cardinalities) ∧
      header.preSegmentLocation = decode ((c.rest.drop (30 + 4 * m.cardinalities)).take 4) := by
  unfold readMetaHeader at h
  obtain ⟨⟨_, c1⟩, h1, h⟩ := bind_eq_ok.mp h
  obtain ⟨⟨_, c2⟩, h2, h⟩ := bind_eq_ok.mp h
  obtain ⟨⟨_, c3⟩, h3, h⟩ := bind_eq_ok.mp h
  obtain ⟨⟨_, c4⟩, h4, h⟩ := bind_eq_ok.mp h
  obtain ⟨c5, h5, h⟩ := bind_eq_ok.mp h
  obtain ⟨⟨_, c6⟩, h6, h⟩ := bind_eq_ok.mp h
  obtain ⟨⟨_, c7⟩, h7, h⟩ := bind_eq_ok.mp h
  obtain ⟨⟨_, c8⟩, h8, h⟩ := bind_eq_ok.mp h
  obtain ⟨⟨_, c9⟩, h9, h⟩ := bind_eq_ok.mp h
  obtain ⟨⟨_, c10⟩, h10, h⟩ := bind_eq_ok.mp h
  obtain ⟨⟨_, c11⟩, h11, h⟩ := bind_eq_ok.mp h
  obtain ⟨⟨_, c12⟩, h12, h⟩ := bind_eq_ok.mp h
  obtain ⟨⟨_, c13⟩, h13, h⟩ := bind_eq_ok.mp h
  obtain ⟨⟨location, c14⟩, h14, h⟩ := bind_eq_ok.mp h
  cases h
  have hbefore : c13 = c.forward (30 + 4 * m.cardinalities) := by
    rw [(readNumber_spec h13).2.2, (readNumber_spec h12).2.2, (readNumber_spec h11).2.2, (readNumber_spec h10).2.2, (readNumber_spec h9).2.2,
      (readNumber_spec h8).2.2, (readNumber_spec h7).2.2, (readNumber_spec h6).2.2, readKeyCardinality_spec h5, (readNumber_spec h4).2.2,
      (readNumber_spec h3).2.2, (readNumber_spec h2).2.2, (readNumber_spec h1).2.2]
    simp only [forward_forward]
    congr 1
    omega
  obtain ⟨hle, hlocation, hbehind⟩ := readNumber_spec h14
  rw [hbefore] at hle hlocation hbehind
  refine ⟨?_, ?_, hlocation⟩
  · simp only [Cursor.forward, List.length_drop] at hle
    omega
  · rw [hbehind, forward_forward]
    congr 1
    omega

theorem at_rest (f : File) (start : Nat) : (f.at start).rest = f.bytes.drop start := by
  rw [File.at, if_pos (Int.natCast_nonneg _), Int.toNat_natCast]

theorem at_forward {start : Nat} (n : Nat) : (f.at start).forward n = f.at (start + n : Nat) := by
  rw [File.at, File.at, if_pos (Int.natCast_nonneg _), if_pos (Int.natCast_nonneg _)]
  simp only [Cursor.forward, Int.toNat_natCast, drop_drop]
  rfl

/-- Where a location is found there is one, and a header as far before it as m_irtHeader says. -/
theorem seekSegment_spec (hstray : ∀ position, f.device.stray position = []) {location prev : Nat}
    (h : seekSegment f m false location = .ok (some (prev, c))) : DEFAULT_FILE_HEADER ≤ location ∧
      decode ((f.bytes.drop location).take 4) = location ∧ ∃ start : Nat, (start : Int) = location - (m.getIrtHeader - OFFSET) ∧ c = f.at start := by
  rw [seekSegment] at h
  split at h
  · cases h
  · rename_i hrange
    simp only [File.seek, Bool.false_eq_true, if_false, ok_bind] at h
    rw [Outcome.bind] at h
    split at h
    · cases h
    · cases h
    · rename_i hread
      split at h
      · rename_i hlocation
        obtain ⟨⟨prev', c1⟩, h1, h⟩ := bind_eq_ok.mp h
        cases h
        obtain ⟨hle, -, hc⟩ := readNumber_spec h1
        have hstart : 0 ≤ (location : Int) - (m.getIrtHeader - OFFSET) - 4 := by
          by_contra hneg
          rw [File.at, if_neg hneg, hstray] at hle
          exact Nat.not_succ_le_zero 3 hle
        obtain ⟨start, hstart⟩ := Int.eq_ofNat_of_zero_le hstart
        have hfound := (readNumber_spec hread).2.1
        rw [at_rest] at hfound
        refine ⟨by omega, by rw [← hfound, hlocation], start + 4, by omega, ?_⟩
        rw [hc, hstart]
        exact at_forward 4
      · cases h

/-- A device that inflates nothing, and a buffer with all of the file in it. -/
def plainDevice (bytes : Bytes) : Device where
  stray _ := []
  back _ _ := none
  buffered length := bytes.drop length.toNat
  stale _ := none
  inflate _ := none
  skipCompressed _ _ := .rejected false

theorem decode_zeros (n : Nat) : decode (replicate n 0) = 0 := by
  induction n with
  | zero => rfl
  | succ n ih => rw [List.replicate_succ, decode, ih, UInt8.toNat_zero, Nat.zero_mul]

theorem take_zeros {a b n : Nat} (bytes : Bytes) (h : b + n ≤ a) : ((replicate a 0 ++ bytes).drop b).take n = replicate n 0 := by
  rw [List.drop_append_of_le_length (by rw [length_replicate]; omega), List.drop_replicate,
    List.take_append_of_le_length (by rw [length_replicate]; omega), List.take_replicate, Nat.min_eq_left (by omega)]

/-- From 128 key parts on, m_irtHeader is far behind the cardinalities. -/
theorem Map.cardinalities_lt (h : 2 ^ 7 ≤ m.keyParts) : 8 * m.cardinalities + 35 ≤ 4 * m.keyParts := by
  have hsigned := BitVec.toInt_eq_toNat_cond (ofNat 8 m.keyParts)
  rw [toNat_ofNat] at hsigned
  unfold Map.cardinalities
  simp only
  split at hsigned <;> split <;> omega

/-- With cardinalities missing, the header is looked for before the block. -/
theorem seekSegment_zeros {pointer prev : Nat} {block : Bytes} (hf : f.bytes = replicate pointer 0 ++ block)
    (hstray : ∀ position, f.device.stray position = []) (hfits : ¬Fits m pointer)
    (h : seekSegment f m false ((pointer + (30 + 4 * m.cardinalities)) % 2 ^ 32) = .ok (some (prev, c))) :
    ∃ start : Nat, c = f.at start ∧ start + (35 + 4 * m.cardinalities) ≤ pointer := by
  obtain ⟨hmin, hlocation, start, hstart, hc⟩ := seekSegment_spec hstray h
  refine ⟨start, hc, ?_⟩
  have hbyte : (ofNat 8 m.keyParts).toInt < 2 ^ 7 := toInt_lt
  have hcard : m.cardinalities < 2 ^ 7 := by
    unfold Map.cardinalities
    simp only
    split <;> omega
  -- No location is in the zeros.
  have hbehind : pointer < (pointer + (30 + 4 * m.cardinalities)) % 2 ^ 32 + 4 := by
    by_contra hle
    rw [hf, take_zeros block (Nat.le_of_not_lt hle), decode_zeros] at hlocation
    rw [← hlocation] at hmin
    exact absurd hmin (by decide)
  have hplain : (pointer + (30 + 4 * m.cardinalities)) % 2 ^ 32 = pointer + (30 + 4 * m.cardinalities) := by omega
  have hparts : 2 ^ 7 ≤ m.keyParts := by
    by_contra hlt
    have hheader := m.getIrtHeader_eq_iff.mpr (Nat.lt_of_not_le hlt)
    refine hfits ⟨Nat.lt_of_not_le hlt, ?_⟩
    rw [hheader, OFFSET]
    omega
  have hfar := Map.cardinalities_lt hparts
  rw [hplain, Map.getIrtHeader, if_pos (by omega), IRT_HEAD_FORMAT_FIX, OFFSET] at hstart
  omega

variable {v v' : Vars}

theorem readPagingInfoAt_spec (h : readPagingInfoAt f m v c = some v') : (v'.eof = true ∨ v'.eof = v.eof) ∧
    v'.postSegmentLocation = v.postSegmentLocation ∧ v'.preSegmentLocation = v.preSegmentLocation ∧ v'.nextSegmentPSL = v.nextSegmentPSL ∧
      v'.header = v.header := by
  unfold readPagingInfoAt at h
  split at h
  · cases h
  · cases h
    exact ⟨.inl rfl, rfl, rfl, rfl, rfl⟩
  · split at h
    · cases h
    · cases h
      exact ⟨.inl rfl, rfl, rfl, rfl, rfl⟩
    · cases h
      exact ⟨.inr rfl, rfl, rfl, rfl, rfl⟩

/-- What a look can come to: nothing to look at, an end on the way, or an entry of the segment there. -/
theorem look_cases {stale : Bool} (h : look f m stale v = some v') :
    (v' = v ∧ (v.eof = true ∨ possiblePostSegmentLocation f v.postSegmentLocation = false)) ∨
    (v'.eof = true ∧ v'.postSegmentLocation = v.postSegmentLocation ∧ (v'.flags = v.flags ∨ v'.flags = 0x7F)) ∨
    ∃ prev c header c' c'', v.eof = false ∧ possiblePostSegmentLocation f v.postSegmentLocation = true ∧
      seekSegment f m stale v.postSegmentLocation = .ok (some (prev, c)) ∧ readMetaHeader m c = .ok (header, c') ∧
      (if header.keyCompression = 0 then some c' else f.device.inflate c'.position) = some c'' ∧
      readPagingInfoAt f m { v with nextSegmentPSL := prev, header := header, preSegmentLocation := header.preSegmentLocation } c'' = some v' := by
  unfold look at h
  split at h
  · rename_i hpossible
    simp only [Bool.and_eq_true, Bool.not_eq_true'] at hpossible
    split at h
    · cases h
    · cases h
      exact .inr (.inl ⟨rfl, rfl, .inr rfl⟩)
    · cases h
      exact .inr (.inl ⟨rfl, rfl, .inl rfl⟩)
    · rename_i prev c hseek
      split at h
      · cases h
      · cases h
        exact .inr (.inl ⟨rfl, rfl, .inr rfl⟩)
      · rename_i header c' hheader
        simp only at h
        split at h
        · cases h
          exact .inr (.inl ⟨rfl, rfl, .inl rfl⟩)
        · rename_i c'' hplain
          exact .inr (.inr ⟨prev, c, header, c', c'', hpossible.1, hpossible.2, hseek, hheader, hplain, h⟩)
  · rename_i hnot
    cases h
    refine .inl ⟨rfl, ?_⟩
    cases heof : v.eof with
    | true => exact .inl rfl
    | false =>
      rw [heof, Bool.not_false, Bool.true_and, Bool.not_eq_true] at hnot
      exact .inr hnot

theorem readPagingInfoAt_zero (hzero : c.rest.take 1 = [0]) (h : readPagingInfoAt f m v c = some v') :
    v'.flags ≠ IRT_FLAG_CLOSURE := by
  unfold readPagingInfoAt at h
  split at h
  · cases h
  · cases h
    exact nofun
  · rename_i flags hasCompressedOffset c' hflags
    have hcontent : flags = IRT_FLAG_CONTENT := by
      obtain ⟨⟨b, c1⟩, hbyte, hflags⟩ := bind_eq_ok.mp hflags
      cases hflags
      rw [(readNumber_spec hbyte).2.1, hzero]
      rfl
    rw [hcontent] at h
    split at h
    · cases h
    · cases h
      exact nofun
    · cases h
      exact nofun

theorem look_zeros {pointer : Nat} {block : Bytes} (hf : f.bytes = replicate pointer 0 ++ block)
    (hdevice : f.device = plainDevice f.bytes) (hfits : ¬Fits m pointer) (hflags : v.flags = IRT_FLAG_REF_VRT + 1)
    (hpost : v.postSegmentLocation = (pointer + (30 + 4 * m.cardinalities)) % 2 ^ 32) (h : look f m false v = some v') :
    v'.flags ≠ IRT_FLAG_CLOSURE ∧ (v'.eof = true ∨ IRT_FLAG_REF_VRT < v'.flags ∨ v'.postSegmentLocation ≠ v'.preSegmentLocation) := by
  have hno : v.flags ≠ IRT_FLAG_CLOSURE := by
    rw [hflags]
    decide
  rcases look_cases h with ⟨rfl, -⟩ | ⟨heof, -, hflags' | hflags'⟩ | ⟨prev, c, header, c', c'', -, hpossible, hseek, hheader, hplain, hentry⟩
  · exact ⟨hno, .inr (.inl (by rw [hflags]; decide))⟩
  · exact ⟨by rw [hflags']; exact hno, .inl heof⟩
  · exact ⟨by rw [hflags']; decide, .inl heof⟩
  · have hmin : DEFAULT_FILE_HEADER ≤ v.postSegmentLocation := (of_decide_eq_true hpossible).1
    rw [hpost] at hseek
    obtain ⟨start, rfl, hstart⟩ := seekSegment_zeros hf (by rw [hdevice]; exact fun _ => rfl) hfits hseek
    have hat : (f.at start).rest = (replicate pointer 0 ++ block).drop start := by rw [at_rest, hf]
    obtain ⟨-, rfl, hpre⟩ := readMetaHeader_spec hheader
    rw [hat, drop_drop, take_zeros block (by omega), decode_zeros] at hpre
    obtain ⟨-, hpost', hpre', -⟩ := readPagingInfoAt_spec hentry
    constructor
    · split at hplain
      · cases hplain
        refine readPagingInfoAt_zero ?_ hentry
        rw [Cursor.forward, hat, drop_drop, take_zeros block (by omega)]
        rfl
      · rw [hdevice] at hplain
        cases hplain
    · refine .inr (.inr ?_)
      rw [hpost', hpre']
      simp only [hpre]
      exact Nat.ne_of_gt (Nat.lt_of_lt_of_le (by decide) hmin)

theorem seekSegment_stale (hstale : ∀ position, f.device.stale position = none) (location : Nat) :
    seekSegment f m true location = .thrown ∨ seekSegment f m true location = .ok none := by
  rw [seekSegment]
  split
  · exact .inr rfl
  · simp [File.seek, hstale, Outcome.bind]

/-- A closure that is found now is one whose header is as far before its location as m_irtHeader says. -/
theorem look_closure {bytes : Bytes} {stale : Bool} (hdevice : f.device = plainDevice bytes) (h : look f m stale v = some v')
    (hno : v.flags ≠ IRT_FLAG_CLOSURE) (heof : v'.eof = false) (hflags : v'.flags = IRT_FLAG_CLOSURE) : ∃ (start : Nat) (header : _) (c : _),
    (start : Int) = v'.postSegmentLocation - (m.getIrtHeader - OFFSET) ∧ readMetaHeader m (f.at start) = .ok (header, c) ∧
      header.preSegmentLocation = v'.preSegmentLocation := by
  rcases look_cases h with ⟨rfl, -⟩ | ⟨hended, -, -⟩ | ⟨prev, c, header, c', c'', -, -, hseek, hheader, -, hentry⟩
  · exact absurd hflags hno
  · rw [heof] at hended
    cases hended
  · have hplain : stale = false := by
      refine Bool.eq_false_iff.mpr fun hs => ?_
      rw [hs] at hseek
      rcases seekSegment_stale (f := f) (m := m) (by rw [hdevice]; exact fun _ => rfl) v.postSegmentLocation with hthrown | hnone
      · cases hseek.symm.trans hthrown
      · cases hseek.symm.trans hnone
    rw [hplain] at hseek
    obtain ⟨-, -, start, hstart, rfl⟩ := seekSegment_spec (by rw [hdevice]; exact fun _ => rfl) hseek
    obtain ⟨-, hpost, hpre, -⟩ := readPagingInfoAt_spec hentry
    refine ⟨start, header, c', ?_, hheader, hpre.symm⟩
    rw [hpost]
    exact hstart

theorem retryOther_not_intact {mode : Mode} {out out' : Out} : retryOther mode v out ≠ .done (.returned .intact out') := by
  unfold retryOther
  split
  · split <;> nofun
  · split
    · nofun
    · split <;> nofun

theorem retry_intact {mode : Mode} {out out' : Out} (h : retry f m mode v out = .done (.returned .intact out')) :
    v.eof = false ∧ v.flags = IRT_FLAG_CLOSURE ∧ v.postSegmentLocation = v.preSegmentLocation ∧
      out'.lastIrtLength = v.postSegmentLocation - (m.getIrtHeader - OFFSET) := by
  unfold retry at h
  split at h
  · rename_i hclosure
    refine ⟨hclosure.1, hclosure.2.1, hclosure.2.2, ?_⟩
    simp only at h
    split at h
    · cases h
    · split at h
      · exact absurd h retryOther_not_intact
      · split at h
        · cases h
          rfl
        · cases h
  · exact absurd h retryOther_not_intact

theorem retry_p (f : File) (m : Map) (v : Vars) (out : Out) : ∃ r, retry f m .p v out = .done r := by
  have hother : ∀ v out, ∃ r, retryOther .p v out = .done r := by
    intro v out
    unfold retryOther
    split
    · exact ⟨_, if_neg nofun⟩
    · exact ⟨_, if_pos rfl⟩
  unfold retry
  split
  · simp only
    split
    · exact ⟨_, rfl⟩
    · split
      · exact hother _ _
      · split
        · exact ⟨_, rfl⟩
        · exact ⟨_, rfl⟩
  · exact hother _ _

/-! ## The round trip -/

/-- A closure at the end of any file is read back. -/
def RoundTrip (m : Map) (pointer : Nat) (summary : Locality) (size : Nat) (recoveryEpoch : BitVec 32) (invalidate : Bool) : Prop :=
  ∀ content : Bytes, content.length = pointer → ∀ device isEmptyMap, ∃ fuel out,
    validateKeyPaging (.of (content ++ terminatePaging m summary size recoveryEpoch invalidate pointer) device) m fuel isEmptyMap =
      some (.returned .intact out) ∧
    out.lastLrtLocality = summary ∧ out.entrySize = size ∧ out.recoveryEpoch = recoveryEpoch ∧ out.invalidSummary = invalidate ∧
    out.lastIrtLength = pointer

section RoundTrip

variable {summary : Locality} {size : Nat} {recoveryEpoch : BitVec 32} {invalidate : Bool} {pointer : Nat}

theorem validateKeyPaging_block (content : Bytes) {device : Device}
    (hf : f = .of (content ++ terminatePaging m summary size recoveryEpoch invalidate content.length) device)
    (hcontent : DEFAULT_FILE_HEADER ≤ content.length) (fuel : Nat) (isEmptyMap : Option Nat) :
    validateKeyPaging f m fuel isEmptyMap = nextSegment m fuel f .c false ⟨false, IRT_FLAG_REF_VRT + 1,
      (content.length + (30 + 4 * m.cardinalities)) % 2 ^ 32, 0, 0, ⟨0, 0, 0, 0, 0, 0, 0, 0⟩, ⟨0, 0⟩, f.at 0⟩ Out.init := by
  have hbytes : f.bytes = (content ++ (closureHeader m summary invalidate ++ (writeInt (content.length + (30 + 4 * m.cardinalities)) ++
      closureBody m size recoveryEpoch invalidate))) ++ (writeInt (content.length + (30 + 4 * m.cardinalities)) ++ []) := by
    rw [hf, File.of, terminatePaging_eq, List.append_nil]
    simp only [append_assoc]
  have hlength : f.length = f.bytes.length := by rw [hf, File.of]
  have hend := at_append hbytes
  have hlong : f.length ≠ DEFAULT_FILE_HEADER := by
    rw [hlength, hbytes]
    simp only [length_append, length_writeInt, length_closureHeader]
    omega
  have hlast : f.length - 4 = ((content ++ (closureHeader m summary invalidate ++ (writeInt (content.length + (30 + 4 * m.cardinalities)) ++
      closureBody m size recoveryEpoch invalidate))).length : Nat) := by
    rw [hlength, hbytes, List.append_nil, length_append, length_writeInt, Int.natCast_add]
    omega
  rw [validateKeyPaging, if_neg hlong, Vars.init, hlast, hend, readInt_writeInt]

theorem Fits.validates_block (h : Fits m pointer) (hpointer : DEFAULT_FILE_HEADER ≤ pointer) (hlength : DEFAULT_FILE_HEADER ≤ summary.length.toNat)
    (hsize : size < 2 ^ 48) : RoundTrip m pointer summary size recoveryEpoch invalidate := by
  intro content hcontent device isEmptyMap
  subst hcontent
  refine ⟨1, { Out.init with lastLrtLocality := summary, lastIrtLength := content.length, entrySize := size, recoveryEpoch := recoveryEpoch
                             invalidSummary := invalidate }, ?_, rfl, rfl, rfl, rfl, rfl⟩
  rw [validateKeyPaging_block content rfl hpointer, Nat.mod_eq_of_lt h.location, nextSegment]
  obtain ⟨prev, position, hlook⟩ := look_block (f := .of (content ++ terminatePaging m summary size recoveryEpoch invalidate content.length) device)
    (v := ⟨false, IRT_FLAG_REF_VRT + 1, content.length + (30 + 4 * m.cardinalities), 0, 0, ⟨0, 0, 0, 0, 0, 0, 0, 0⟩, ⟨0, 0⟩, _⟩)
    rfl rfl hpointer h rfl rfl
  rw [hlook]
  simp only
  rw [retry_block h hlength hsize rfl rfl rfl rfl rfl rfl rfl]
  rfl

variable {v : Vars} {out out' : Out}

/-- The header of what is read leads back to it. -/
def Led (m : Map) (f : File) (out : Out) : Prop :=
  ∃ (start : Nat) (header : _) (c : _), start = out.lastIrtLength ∧ readMetaHeader m (f.at start) = .ok (header, c) ∧
    (header.preSegmentLocation : Int) - (m.getIrtHeader - OFFSET) = start

theorem nextSegment_p {bytes : Bytes} {fuel : Nat} {stale : Bool} (hdevice : f.device = plainDevice bytes)
    (hno : v.flags ≠ IRT_FLAG_CLOSURE) (h : nextSegment m fuel f .p stale v out = some (.returned .intact out')) : Led m f out' := by
  cases fuel with
  | zero => cases h
  | succ fuel =>
    rw [nextSegment] at h
    cases hlook : look f m stale v with
    | none =>
      rw [hlook] at h
      cases h
    | some v' =>
      obtain ⟨r, hretry⟩ := retry_p f m v' out
      rw [hlook] at h
      simp only [hretry] at h
      cases h
      obtain ⟨heof, hflags, hlocations, hlength⟩ := retry_intact hretry
      obtain ⟨start, header, c, hstart, hheader, hpre⟩ := look_closure hdevice hlook hno heof hflags
      exact ⟨start, header, c, hstart.trans hlength.symm, hheader, by rw [hpre, ← hlocations, hstart]⟩

theorem scanned_inr {stop : Segment} {currentPosition : Int} {found : Option Nat} {v' : Vars}
    (h : scanned stop currentPosition found v out = .inr (v', out')) : ∃ location, found = some location ∧
      v' = { v with eof := stop = .eof, postSegmentLocation := location } ∧ out' = { out with cut := some currentPosition } := by
  unfold scanned at h
  split at h
  · cases h
  · split at h
    · cases h
    · simp only at h
      split at h
      · cases h
      · cases h
        exact ⟨_, rfl, rfl, rfl⟩

theorem scanned_not_intact {stop : Segment} {currentPosition : Int} {found : Option Nat} :
    scanned stop currentPosition found v out ≠ .inl (.returned .intact out') := by
  unfold scanned
  split
  · nofun
  · split
    · nofun
    · simp only
      split <;> nofun

/-- With zeros before the block the file is scanned, if the block is not found. -/
theorem nextSegment_zeros {block : Bytes} {fuel : Nat} (hf : f.bytes = replicate pointer 0 ++ block)
    (hdevice : f.device = plainDevice f.bytes) (hfits : ¬Fits m pointer) (hflags : v.flags = IRT_FLAG_REF_VRT + 1)
    (hpost : v.postSegmentLocation = (pointer + (30 + 4 * m.cardinalities)) % 2 ^ 32)
    (h : nextSegment m fuel f .c false v out = some (.returned .intact out')) : Led m f out' := by
  cases fuel with
  | zero => cases h
  | succ fuel =>
    rw [nextSegment] at h
    cases hlook : look f m false v with
    | none =>
      rw [hlook] at h
      cases h
    | some v' =>
      obtain ⟨hno, hscan⟩ := look_zeros hf hdevice hfits hflags hpost hlook
      have hretry : retry f m .c v' out = .scan v' out := by
        rw [retry, if_neg fun hclosure => hno hclosure.2.1, retryOther, if_pos hscan, if_pos rfl]
      rw [hlook] at h
      simp only [hretry] at h
      split at h
      · cases h
      · rename_i c found hfollow
        have hsame : ∀ start : Nat, (f.setLength c.position).at start = f.at start := by
          intro start
          rw [File.at, File.at, File.setLength, hdevice, plainDevice, List.take_append_drop]
        split at h
        · rename_i hscanned
          cases h
          exact absurd hscanned scanned_not_intact
        · rename_i hscanned
          obtain ⟨location, -, rfl, -⟩ := scanned_inr hscanned
          obtain ⟨start, header, c', hstart, hheader, hpre⟩ := nextSegment_p (f := f.setLength c.position) hdevice (by exact hno) h
          exact ⟨start, header, c', hstart, hsame start ▸ hheader, hpre⟩

theorem RoundTrip.fits (h : RoundTrip m pointer summary size recoveryEpoch invalidate) (hpointer : DEFAULT_FILE_HEADER ≤ pointer) :
    Fits m pointer := by
  by_contra hfits
  have hzeros : (replicate pointer (0 : UInt8)).length = pointer := length_replicate
  obtain ⟨fuel, out, hvalid, -, -, -, -, hlength⟩ := h _ hzeros
    (plainDevice (replicate pointer 0 ++ terminatePaging m summary size recoveryEpoch invalidate pointer)) none
  rw [validateKeyPaging_block (replicate pointer 0) (by rw [hzeros]) (by rw [hzeros]; exact hpointer), hzeros] at hvalid
  obtain ⟨start, header, c, hstart, hheader, hpre⟩ := nextSegment_zeros rfl rfl hfits rfl rfl hvalid
  obtain rfl : start = pointer := by omega
  have hat := at_append (f := .of (replicate start 0 ++ terminatePaging m summary size recoveryEpoch invalidate start)
    (plainDevice (replicate start 0 ++ terminatePaging m summary size recoveryEpoch invalidate start))) rfl
  rw [hzeros] at hat
  rw [hat, terminatePaging_eq, readMetaHeader_closureHeader] at hheader
  cases hheader
  simp only [OFFSET] at hpre
  have hparts : m.keyParts < 2 ^ 7 := by
    rw [← m.getIrtHeader_eq_iff]
    have hle := m.cardinalities_le
    omega
  refine hfits ⟨hparts, ?_⟩
  rw [OFFSET]
  omega

theorem round_trip_iff (hpointer : DEFAULT_FILE_HEADER ≤ pointer) (hlength : DEFAULT_FILE_HEADER ≤ summary.length.toNat) (hsize : size < 2 ^ 48) :
    RoundTrip m pointer summary size recoveryEpoch invalidate ↔ Fits m pointer :=
  ⟨fun h => h.fits hpointer, fun h => h.validates_block hpointer hlength hsize⟩

/-- A map with keys of a byte for each part. -/
def Map.bytes (keyParts : Nat) (h : keyParts < 2 ^ 15) : Map where
  keyParts := keyParts
  keyWidth := some keyParts
  cleared := replicate keyParts 0
  variableValue := false
  keyParts_lt := Nat.lt_trans h (by decide)
  cleared_width := by
    intro n hn
    cases hn
    exact length_replicate
  cleared_size := by rw [length_replicate]; exact h

theorem round_trip_two_parts : RoundTrip (Map.bytes 2 (by decide)) 50 ⟨1, 50, 0x0102030405060708⟩ (2 ^ 48 - 1) 0xFFFFFFFF true :=
  (round_trip_iff (by decide) (by decide) (by decide)).mpr ⟨by decide, by decide⟩

/-- No file with a closure of 128 key parts is intact, if all that there is before it are zeros. -/
theorem missing_cardinalities : ¬RoundTrip (Map.bytes 128 (by decide)) 50 ⟨1, 50, 0⟩ 3 1 false :=
  fun h => absurd (h.fits (by decide)).keyParts (by decide)

end RoundTrip

end DeepFabric.Store.IndexFile
