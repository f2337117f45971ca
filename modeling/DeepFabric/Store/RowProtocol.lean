/-
  DeepFabric.Store.RowProtocol — rows as the store keeps them (api/deep/Protocol.h: RowProtocol_v1;
  api/deep/Store.h: DeepField, Store).

  An unpacked row has every column at its own offset: a fixed column as it is, a varchar as a
  length and room for the longest text, a blob as a length and a pointer, a multi-byte text padded
  with spaces. A packed row has the null bytes and the fixed columns one behind the other, then,
  from blobStartOffset on, four bytes of length and the bytes themselves of each variable one.
  Generated virtual columns come last in both parts, so both loops go over the columns twice.
  Fixed columns that follow each other are collapsed into one copy.

  Offsets and lengths are numbers: none passes the length of the packed row, which its caller has
  as a uinttype. Pointers are numbers too, and their image in a row has blobPtrSize bytes.
-/
import DeepFabric.Lib.Buffer

namespace DeepFabric.Store.RowProtocol

open DeepFabric.Lib Buffer

/-- CT_DATASTORE_ types, as far as a row's layout depends on them. -/
inductive DataType where
  | varText1
  | blob
  | textMultibyte
  | other (code : UInt8)
  deriving DecidableEq, Repr

structure DeepField where
  type : DataType
  realType : DataType
  packLength : Nat
  rowPackLength : Nat
  keyLength : Nat
  lengthBytes : Nat
  nullBit : UInt8
  nullOffset : Nat
  valueOffset : Nat
  characterSet : Int
  gcVirtual : Bool
  deriving DecidableEq, Repr

structure SchemaBuilder where
  nullBytes : Nat
  fields : List DeepField
  hasVariableLengthFields : Bool
  hasVirtualFields : Bool
  blobStartOffset : Nat
  blobPtrSize : Nat
  unpackedRowLength : Nat
  deriving Repr

def fixedVarcharLength : Nat := 10

namespace DeepField

variable (f : DeepField)

def isNull (value : Buffer) : Bool := value f.nullOffset &&& f.nullBit ≠ 0

def isVariableLengthVarchar : Bool := f.realType = .varText1 ∧ f.keyLength > fixedVarcharLength

/-- getLength<CT_DATASTORE_BLOB>. The signed reads of 2 and 4 bytes lose their sign in the result. -/
def getLength (value : Buffer) : Except String Nat :=
  match f.packLength with
  | 1 => .ok (load value f.valueOffset 1)
  | 2 => .ok (load value f.valueOffset 2)
  | 3 => .ok (load value f.valueOffset 3)
  | 4 => .ok (load value f.valueOffset 4)
  | _ => .error "Invalid pack length"

end DeepField

/-- The loop of getMultiByteTextLength over the trailing spaces. -/
def stripSpaces (value : Buffer) (ptr minLen : Nat) : Nat → Nat
  | 0 => 0
  | n + 1 => if n + 1 > minLen ∧ value (ptr + n) = 0x20 then stripSpaces value ptr minLen n else n + 1

section

-- getCharset()->getMultiByteMaxLen
variable (multiByteMaxLen : Int → Nat)

def getMultiByteTextLength (length : Nat) (charset : Int) (value : Buffer) (ptr : Nat) : Nat :=
  stripSpaces value ptr (length / multiByteMaxLen charset) length

def padMultiByteText (length valueLength : Nat) (value : Buffer) (ptr : Nat) : Buffer :=
  if valueLength < length then memset value (ptr + valueLength) 0x20 (length - valueLength) else value

/-! ## Packing -/

/-- The state of the loops: fixedLength bytes wait for one copy from unpackedFixedPtr to packedFixedPtr. -/
structure Packing where
  packedRow : Buffer
  unpackedFixedPtr : Nat
  packedFixedPtr : Nat
  fixedLength : Nat
  packedRowOffset : Nat
  blobOffset : Nat

variable (s : SchemaBuilder) (memory unpackedRow : Buffer)

def Packing.flush (p : Packing) : Packing :=
  if p.fixedLength ≠ 0 then
    { p with packedRow := memcpy p.packedRow p.packedFixedPtr unpackedRow p.unpackedFixedPtr p.fixedLength, fixedLength := 0 }
  else p

/-- The length of variable data in four bytes, and the data. -/
def Packing.append (p : Packing) (src : Buffer) (ptr blobLen : Nat) : Packing :=
  let packedRow := store p.packedRow (s.blobStartOffset + p.blobOffset) 4 blobLen
  let blobOffset := p.blobOffset + 4
  if blobLen > 0 then
    { p with packedRow := memcpy packedRow (s.blobStartOffset + blobOffset) src ptr blobLen, blobOffset := blobOffset + blobLen }
  else { p with packedRow := packedRow, blobOffset := blobOffset }

/-- A column's turn in the pass that it belongs to. -/
def packField (p : Packing) (f : DeepField) : Except String Packing :=
  let ptr := f.valueOffset
  if f.isVariableLengthVarchar then
    let blobLen := if f.isNull unpackedRow then 0
      else if f.lengthBytes = 1 then load unpackedRow ptr 1 else load unpackedRow ptr 2
    .ok ((p.flush unpackedRow).append s unpackedRow (ptr + f.lengthBytes) blobLen)
  else if f.type = .blob then
    (if f.isNull unpackedRow then .ok 0 else f.getLength unpackedRow).map fun blobLen =>
      (p.flush unpackedRow).append s memory (load unpackedRow (ptr + f.rowPackLength) s.blobPtrSize) blobLen
  else if f.type = .textMultibyte then
    let blobLen := if f.isNull unpackedRow then 0
      else getMultiByteTextLength multiByteMaxLen f.packLength f.characterSet unpackedRow ptr
    .ok ((p.flush unpackedRow).append s unpackedRow ptr blobLen)
  else
    let p := if p.fixedLength = 0 then { p with unpackedFixedPtr := ptr, packedFixedPtr := p.packedRowOffset } else p
    .ok { p with fixedLength := p.fixedLength + f.packLength, packedRowOffset := p.packedRowOffset + f.packLength }

/-- The inner loop: in the first pass a virtual column ends a run of fixed ones, in the second the others are just
    skipped. -/
def packFields (j : Nat) : List DeepField → Packing → Except String Packing
  | [], p => .ok (p.flush unpackedRow)
  | f :: fs, p =>
    if f.gcVirtual then
      if j = 0 then packFields j fs (p.flush unpackedRow)
      else do packFields j fs (← packField multiByteMaxLen s memory unpackedRow p f)
    else if j = 1 then packFields j fs p
    else do packFields j fs (← packField multiByteMaxLen s memory unpackedRow p f)

/-- packRow, into a buffer that is long enough. -/
def packRow (buffer : Buffer) : Except String Buffer :=
  if s.hasVariableLengthFields = false ∧ s.hasVirtualFields = false then .ok unpackedRow
  else do
    let p ← packFields multiByteMaxLen s memory unpackedRow 0 s.fields
      ⟨memcpy buffer 0 unpackedRow 0 s.nullBytes, 0, 0, 0, s.nullBytes, 0⟩
    if s.hasVirtualFields then
      let p ← packFields multiByteMaxLen s memory unpackedRow 1 s.fields p
      return p.packedRow
    else return p.packedRow

end

/-! ## Unpacking -/

/-- The state of the loops; blob data goes into memory from blobBuffer on. -/
structure Unpacking where
  unpackedRow : Buffer
  memory : Buffer
  unpackedFixedPtr : Nat
  packedFixedPtr : Nat
  fixedLength : Nat
  packedRowOffset : Nat
  deepBlobOffset : Nat
  blobField : Nat

section

variable (s : SchemaBuilder) (packedRow : Buffer)

def getPackedRowOffset : Nat → Nat
  | 0 => s.blobStartOffset
  | n + 1 => getPackedRowOffset n + (load packedRow (getPackedRowOffset n) 4 + 4)

def Unpacking.flush (u : Unpacking) : Unpacking :=
  if u.fixedLength ≠ 0 then
    { u with unpackedRow := memcpy u.unpackedRow u.unpackedFixedPtr packedRow u.packedFixedPtr u.fixedLength, fixedLength := 0 }
  else u

variable (blobBuffer : Nat)

def unpackField (u : Unpacking) (f : DeepField) : Unpacking :=
  let fieldOffset := f.valueOffset
  if f.isVariableLengthVarchar then
    let u := u.flush packedRow
    let packedRowOffset := getPackedRowOffset s packedRow u.blobField
    let blobLen := load packedRow packedRowOffset 4
    let row := store u.unpackedRow fieldOffset (if f.lengthBytes = 2 then 2 else 1) blobLen
    let row := if blobLen > 0 then memcpy row (fieldOffset + f.lengthBytes) packedRow (packedRowOffset + 4) blobLen else row
    { u with unpackedRow := row, blobField := u.blobField + 1 }
  else if f.type = .blob then
    let u := u.flush packedRow
    let packedRowOffset := getPackedRowOffset s packedRow u.blobField
    let blobLen := load packedRow packedRowOffset 4
    let row := store u.unpackedRow fieldOffset
      (if f.rowPackLength = 4 then 4 else if f.rowPackLength = 3 then 3 else if f.rowPackLength = 2 then 2 else 1) blobLen
    if blobLen > 0 then
      let deepBlobPtr := blobBuffer + u.deepBlobOffset
      { u with
        memory := memcpy u.memory deepBlobPtr packedRow (packedRowOffset + 4) blobLen
        unpackedRow := store row (fieldOffset + f.rowPackLength) s.blobPtrSize deepBlobPtr
        deepBlobOffset := u.deepBlobOffset + blobLen
        blobField := u.blobField + 1 }
    else { u with unpackedRow := row, blobField := u.blobField + 1 }
  else if f.type = .textMultibyte then
    let u := u.flush packedRow
    let packedRowOffset := getPackedRowOffset s packedRow u.blobField
    let blobLen := load packedRow packedRowOffset 4
    let row := if blobLen > 0 then
        padMultiByteText f.packLength blobLen (memcpy u.unpackedRow fieldOffset packedRow (packedRowOffset + 4) blobLen) fieldOffset
      else u.unpackedRow
    { u with unpackedRow := row, blobField := u.blobField + 1 }
  else
    let u := if u.fixedLength = 0 then { u with unpackedFixedPtr := fieldOffset, packedFixedPtr := u.packedRowOffset } else u
    { u with fixedLength := u.fixedLength + f.packLength, packedRowOffset := u.packedRowOffset + f.packLength }

def unpackFields (j : Nat) : List DeepField → Unpacking → Unpacking
  | [], u => u.flush packedRow
  | f :: fs, u =>
    if f.gcVirtual then
      if j = 0 then unpackFields j fs (u.flush packedRow) else unpackFields j fs (unpackField s packedRow blobBuffer u f)
    else if j = 1 then unpackFields j fs u
    else unpackFields j fs (unpackField s packedRow blobBuffer u f)

/-- unpackRow, with the buffer for blob data at `blobBuffer`: the row and the memory after it. -/
def unpackRow (memory unpackedRow : Buffer) : Buffer × Buffer :=
  if s.hasVariableLengthFields = false then (memcpy unpackedRow 0 packedRow 0 s.unpackedRowLength, memory)
  else
    let u := unpackFields s packedRow blobBuffer 0 s.fields
      ⟨memcpy unpackedRow 0 packedRow 0 s.nullBytes, memory, 0, 0, 0, s.nullBytes, 0, 0⟩
    let u := if s.hasVirtualFields then unpackFields s packedRow blobBuffer 1 s.fields u else u
    (u.unpackedRow, u.memory)

end

/-! ## Schemas and rows -/

namespace DeepField

variable (f : DeepField)

def isVariable : Bool := f.isVariableLengthVarchar ∨ f.type = .blob ∨ f.type = .textMultibyte

/-- The room of a column in an unpacked row. -/
def room (s : SchemaBuilder) : Nat :=
  if ¬f.isVariableLengthVarchar ∧ f.type = .blob then f.rowPackLength + s.blobPtrSize else f.packLength

end DeepField

/-- The length of the fixed columns. -/
def fixedLengthOf (fs : List DeepField) : Nat := ((fs.filter (!·.isVariable)).map DeepField.packLength).sum

/-- Columns lie one behind the other from `offset` on. -/
def Laid (s : SchemaBuilder) : Nat → List DeepField → Prop
  | _, [] => True
  | offset, f :: fs => f.valueOffset = offset ∧ Laid s (offset + f.room s) fs

structure WellFormed (s : SchemaBuilder) : Prop where
  laid : Laid s s.nullBytes s.fields
  blobStartOffset : s.blobStartOffset = s.nullBytes + fixedLengthOf s.fields
  unpackedRowLength : s.unpackedRowLength = s.nullBytes + (s.fields.map (·.room s)).sum
  hasVariableLengthFields : s.hasVariableLengthFields = s.fields.any (·.isVariable)
  hasVirtualFields : s.hasVirtualFields = s.fields.any (·.gcVirtual)
  varchar : ∀ f ∈ s.fields, f.isVariableLengthVarchar = true → (f.lengthBytes = 1 ∨ f.lengthBytes = 2) ∧ f.lengthBytes ≤ f.packLength
  blob : ∀ f ∈ s.fields, f.isVariableLengthVarchar = false → f.type = .blob →
    f.packLength = f.rowPackLength ∧ 1 ≤ f.rowPackLength ∧ f.rowPackLength ≤ 4
  nullable : ∀ f ∈ s.fields, f.nullBit = 0 ∨ f.nullOffset < s.nullBytes
  /-- packLength is a uinttype. -/
  packLength : ∀ f ∈ s.fields, f.packLength < 2 ^ 32

section

variable (multiByteMaxLen : Int → Nat) (memory row : Buffer)

/-- The length of a variable column's data. -/
def blobLen (f : DeepField) : Nat :=
  if f.isNull row then 0
  else if f.isVariableLengthVarchar then load row f.valueOffset f.lengthBytes
  else if f.type = .blob then load row f.valueOffset f.rowPackLength
  else getMultiByteTextLength multiByteMaxLen f.packLength f.characterSet row f.valueOffset

/-- Where they are. -/
def blobData (s : SchemaBuilder) (f : DeepField) : Buffer × Nat :=
  if f.isVariableLengthVarchar then (row, f.valueOffset + f.lengthBytes)
  else if f.type = .blob then (memory, load row (f.valueOffset + f.rowPackLength) s.blobPtrSize)
  else (row, f.valueOffset)

/-- A varchar is not longer than its room. -/
def RowFits (s : SchemaBuilder) : Prop :=
  ∀ f ∈ s.fields, f.isVariableLengthVarchar = true → f.isNull row = false →
    f.lengthBytes + load row f.valueOffset f.lengthBytes ≤ f.packLength

/-- A column of the row is as it was: a fixed one byte for byte, a variable one, unless it was null, in its length and
    content. -/
def Restored (s : SchemaBuilder) (row' memory' : Buffer) (f : DeepField) : Prop :=
  if f.isVariable then
    f.isNull row = false →
      if f.isVariableLengthVarchar then
        bytes row' f.valueOffset (f.lengthBytes + blobLen multiByteMaxLen row f)
          = bytes row f.valueOffset (f.lengthBytes + blobLen multiByteMaxLen row f)
      else if f.type = .blob then
        bytes row' f.valueOffset f.rowPackLength = bytes row f.valueOffset f.rowPackLength ∧
          bytes memory' (load row' (f.valueOffset + f.rowPackLength) s.blobPtrSize) (blobLen multiByteMaxLen row f)
            = bytes memory (load row (f.valueOffset + f.rowPackLength) s.blobPtrSize) (blobLen multiByteMaxLen row f)
      else bytes row' f.valueOffset f.packLength = bytes row f.valueOffset f.packLength
  else bytes row' f.valueOffset f.packLength = bytes row f.valueOffset f.packLength

/-- The length of the blob data of a row. -/
def blobLength (fs : List DeepField) : Nat :=
  ((fs.filter fun f => !f.isVariableLengthVarchar && f.type = .blob).map (blobLen multiByteMaxLen row)).sum

end

/-- Every row that fits is restored, whatever was in the buffers before, and wherever the blob data goes. -/
def RoundTrips (multiByteMaxLen : Int → Nat) (s : SchemaBuilder) : Prop :=
  ∀ memory row buffer memory' target : Buffer, ∀ blobBuffer : Nat, RowFits row s →
    blobBuffer + blobLength multiByteMaxLen row s.fields ≤ 256 ^ s.blobPtrSize →
    ∃ packed, packRow multiByteMaxLen s memory row buffer = .ok packed ∧
      bytes (unpackRow s packed blobBuffer memory' target).1 0 s.nullBytes = bytes row 0 s.nullBytes ∧
      ∀ f ∈ s.fields, Restored multiByteMaxLen memory row s (unpackRow s packed blobBuffer memory' target).1
        (unpackRow s packed blobBuffer memory' target).2 f

end DeepFabric.Store.RowProtocol
