/-
  DeepFabric.Wire.EncodeProtocol — a message as typed, numbered fields
  (cxx/io/EncodeProtocol.h: writer and reader).

  A message is a header of four fixed numbers and a payload of fields; a field is a fixed number
  with its type and id, and its value. The writer is created for a payload size that the caller
  has summed up before; each setter checks the room that is left and answers 0 or -1. The reader
  decodes the whole payload into one bucket an id; each getter checks the bucket's type.

  A uinttype is a `BitVec 32`: sizes, lengths and what is left wrap as they do. A pointer into a
  buffer is the list of the bytes from it on, and `reached` says how far a writer has written,
  inside its allocation or not.
-/
import Mathlib.Logic.Function.Basic
import Mathlib.Data.List.Basic
import Mathlib.Data.List.Nodup
import DeepFabric.Wire.BinaryWireFormat

namespace DeepFabric.Wire

open List
open Nat (mod_eq_of_lt)
open BitVec (eq_of_toNat_eq le_def not_le not_lt ofNat ofNat_eq_ofNat toNat_add toNat_and toNat_ofNat toNat_sub_of_le toNat_zero)

/-- `types`. -/
inductive FieldType where
  | nil | int32 | uint32 | int64 | uint64 | float | double | raw | string | boolean | bundle | voidptr | uint32Array
  deriving DecidableEq, Repr

def FieldType.code : FieldType → BitVec 8
  | .nil => 0 | .int32 => 1 | .uint32 => 2 | .int64 => 3 | .uint64 => 4 | .float => 5 | .double => 6 | .raw => 7
  | .string => 8 | .boolean => 9 | .bundle => 10 | .voidptr => 11 | .uint32Array => 0x82

def FieldType.ofCode (iType : BitVec 8) : Option FieldType :=
  [.nil, .int32, .uint32, .int64, .uint64, .float, .double, .raw, .string, .boolean, .bundle, .voidptr,
    .uint32Array].find? (·.code = iType)

@[simp] theorem FieldType.ofCode_code (t : FieldType) : ofCode t.code = some t := by
  cases t <;> rfl

def deepMagic : BitVec 32 := 0x50454544
def version : BitVec 32 := 1
def headerSize : BitVec 32 := 16
def fieldHdrSize : BitVec 32 := 4
def fieldMax : BitVec 32 := 256
def fieldBundleId : BitVec 32 := 1

theorem toNat_fieldHdrSize : fieldHdrSize.toNat = 4 := rfl

def makeHeader (iType : BitVec 8) (iId : BitVec 32) : BitVec 32 := (0x00ffffff &&& iId) <<< 8 ||| iType.setWidth 32

def getTypeId (iFieldHdr : BitVec 32) : BitVec 8 × BitVec 32 :=
  ((0x000000ff &&& iFieldHdr).setWidth 8, iFieldHdr >>> 8 &&& 0x00ffffff)

/-! ## The writer -/

structure Writer where
  /-- The bytes from m_piBuffer to m_piPos. -/
  written : Bytes
  iWritten : BitVec 32
  actualLen : BitVec 32
  bufferLen : BitVec 32
  /-- The offset behind the last byte written, wherever m_piPos stands now. -/
  reached : Nat

/-- Bytes are written at m_piPos, and WRITE_SPINS moves on by their number, which is a uinttype. -/
def Writer.put (w : Writer) (bytes : Bytes) : Writer :=
  { w with
    written := w.written ++ bytes.take (ofNat 32 bytes.length).toNat
    iWritten := w.iWritten + ofNat 32 bytes.length
    bufferLen := w.bufferLen - ofNat 32 bytes.length
    reached := max w.reached (w.written.length + bytes.length) }

/-- writer(iBufferLen, iMsgId) and its _init. -/
def Writer.create (iBufferLen iMsgId : BitVec 32) : Writer :=
  ((((⟨[], 0, iBufferLen + headerSize, iBufferLen + headerSize, 0⟩ : Writer).put (writeFixed32 deepMagic)).put
    (writeFixed32 version)).put (writeFixed32 iMsgId)).put (writeFixed32 iBufferLen)

/-- A setter: the room is checked against `iSize`, then the header and the value are written. `value` is the Write call
    for the room that is left, and gives no bytes where it returns 0. -/
def setField (iType : FieldType) (iSize : BitVec 32) (value : BitVec 32 → Bytes) (iFieldNum : BitVec 32) (w : Writer) :
    Int × Writer :=
  if fieldMax ≤ iFieldNum then (-1, w)
  else if w.bufferLen < iSize then (-1, w)
  else
    let w := w.put (writeFixed32 (makeHeader iType.code iFieldNum))
    let bytes := value w.bufferLen
    (if ofNat 32 bytes.length = 0 then -1 else 0, w.put bytes)

/-- WriteRawToBuffer and WriteStringToBuffer. -/
def writeRaw (piRaw : Bytes) (iLen : BitVec 32) : Bytes :=
  if ofNat 32 piRaw.length + 4 > iLen then [] else writeFixed32 (ofNat 32 piRaw.length) ++ piRaw

def writeUint32Array (cValues : List (BitVec 32)) : Bytes :=
  writeVarInt (ofNat 32 cValues.length).toNat ++ cValues.flatMap fun v => writeVarInt v.toNat

def writeFloat (fValue : BitVec 32) (iLen : BitVec 32) : Bytes := if 4 > iLen then [] else writeFixed32 fValue

def sizeOfInt32 (iValue : BitVec 32) : BitVec 32 := varIntLength (encodeZigZag iValue).toNat + fieldHdrSize
def sizeOfUint32 (iValue : BitVec 32) : BitVec 32 := varIntLength iValue.toNat + fieldHdrSize
def sizeOfInt64 (iValue : BitVec 64) : BitVec 32 := varIntLength (encodeZigZag iValue).toNat + fieldHdrSize
def sizeOfUint64 (iValue : BitVec 64) : BitVec 32 := varIntLength iValue.toNat + fieldHdrSize
def sizeOfFloat : BitVec 32 := 4 + fieldHdrSize
def sizeOfDouble : BitVec 32 := 8 + fieldHdrSize
def sizeOfString (cValue : Bytes) : BitVec 32 := ofNat 32 cValue.length + 4 + fieldHdrSize
def sizeOfRaw (iRawLen : BitVec 32) : BitVec 32 := iRawLen + 4 + fieldHdrSize
def sizeOfUint32Array (cValues : List (BitVec 32)) : BitVec 32 :=
  cValues.foldl (fun iSize v => iSize + varIntLength v.toNat) fieldHdrSize
    + varIntLength (ofNat 32 cValues.length).toNat

def setInt32Field (iFieldNum iValue : BitVec 32) : Writer → Int × Writer :=
  setField .int32 (sizeOfInt32 iValue) (fun _ => writeVarInt (encodeZigZag iValue).toNat) iFieldNum
def setUint32Field (iFieldNum iValue : BitVec 32) : Writer → Int × Writer :=
  setField .uint32 (sizeOfUint32 iValue) (fun _ => writeVarInt iValue.toNat) iFieldNum
def setInt64Field (iFieldNum : BitVec 32) (iValue : BitVec 64) : Writer → Int × Writer :=
  setField .int64 (sizeOfInt64 iValue) (fun _ => writeVarInt (encodeZigZag iValue).toNat) iFieldNum
def setUint64Field (iFieldNum : BitVec 32) (iValue : BitVec 64) : Writer → Int × Writer :=
  setField .uint64 (sizeOfUint64 iValue) (fun _ => writeVarInt iValue.toNat) iFieldNum
def setFloatField (iFieldNum fValue : BitVec 32) : Writer → Int × Writer :=
  setField .float sizeOfFloat (writeFloat fValue) iFieldNum
-- The room for a double is checked as that for a float is.
def setDoubleField (iFieldNum : BitVec 32) (fValue : BitVec 64) : Writer → Int × Writer :=
  setField .double sizeOfFloat (fun _ => writeFixed64 fValue) iFieldNum
def setStringField (iFieldNum : BitVec 32) (cValue : Bytes) : Writer → Int × Writer :=
  setField .string (sizeOfString cValue) (writeRaw cValue) iFieldNum
def setRawField (iFieldNum : BitVec 32) (piRaw : Bytes) : Writer → Int × Writer :=
  setField .raw (sizeOfRaw (ofNat 32 piRaw.length)) (writeRaw piRaw) iFieldNum
def setUint32ArrayField (iFieldNum : BitVec 32) (cValues : List (BitVec 32)) : Writer → Int × Writer :=
  setField .uint32Array (sizeOfUint32Array cValues) (fun _ => writeUint32Array cValues) iFieldNum

/-- Setter calls one after the other, and what they return. -/
def writeAll (w : Writer) : List (Writer → Int × Writer) → List Int × Writer
  | [] => ([], w)
  | call :: calls => ((call w).1 :: (writeAll (call w).2 calls).1, (writeAll (call w).2 calls).2)

/-! ## The reader -/

/-- The union `values`, by the member written last. -/
inductive Values where
  | i32 (v : BitVec 32)
  | ui32 (v : BitVec 32)
  | i64 (v : BitVec 64)
  | ui64 (v : BitVec 64)
  | f (v : BitVec 32)
  | d (v : BitVec 64)
  | piRaw (p : Bytes)
  | pArray (p : Option (List (BitVec 32)))

/-- Whether the upper half of the union is not 0. A member of four bytes leaves it as it was, and an address does not
    fit the lower half. -/
def Values.high (old : Bool) : Values → Bool
  | .i32 _ | .ui32 _ | .f _ => old
  | .i64 v | .ui64 v | .d v => v >>> 32 ≠ 0
  | .piRaw _ => true
  | .pArray a => a.isSome

structure FieldBucket where
  iType : FieldType
  values : Values
  encodedLen : BitVec 32

structure Reader where
  buffer : Bytes
  bufferLen : BitVec 32
  msgId : BitVec 32
  flags : BitVec 32
  fields : BitVec 32 → FieldBucket
  high : BitVec 32 → Bool
  copyAll : Bool

/-- reader(piBuffer, iBufferLen) with bCopyAll false, on a buffer of just that length. -/
def Reader.create (buffer : Bytes) : Reader :=
  ⟨buffer, ofNat 32 buffer.length, 0, 0, fun _ => ⟨.nil, .pArray none, 0⟩, fun _ => false, false⟩

def Reader.set (r : Reader) (iId : BitVec 32) (b : FieldBucket) : Reader :=
  { r with fields := Function.update r.fields iId b, high := Function.update r.high iId (b.values.high (r.high iId)) }

/-- pArray, read as a pointer to an array, can be deleted: it is null or an array. -/
def Reader.deletable (r : Reader) (iId : BitVec 32) : Bool :=
  match (r.fields iId).values with
  | .i32 v | .ui32 v | .f v => v = 0 && !r.high iId
  | .i64 v | .ui64 v | .d v => v = 0
  | .piRaw _ => false
  | .pArray _ => true

theorem set_fields_self (r : Reader) (id : BitVec 32) (b : FieldBucket) : (r.set id b).fields id = b :=
  Function.update_self ..

variable {id : BitVec 32}

theorem set_fields_of_ne (r : Reader) {id' : BitVec 32} (h : id' ≠ id) (b : FieldBucket) :
    (r.set id b).fields id' = r.fields id' := Function.update_of_ne h ..

theorem set_deletable_of_ne (r : Reader) {id' : BitVec 32} (h : id' ≠ id) (b : FieldBucket) :
    (r.set id b).deletable id' = r.deletable id' := by
  have hh : (r.set id b).high id' = r.high id' := Function.update_of_ne h ..
  rw [Reader.deletable, set_fields_of_ne r h, hh, Reader.deletable]

/-- A Read call: the number of bytes read, 0 for a failure, and the value, left at 0 by a failure. -/
def readNumber {w : Nat} (piBuffer : Bytes) (iLen : BitVec 32) : Except Fault (BitVec 32 × BitVec w) := do
  match ← readVarInt w piBuffer iLen with
  | none => return (0, 0)
  | some (v, n) => return (ofNat 32 n, v)

def readZigZag {w : Nat} (piBuffer : Bytes) (iLen : BitVec 32) : Except Fault (BitVec 32 × BitVec w) := do
  match ← readVarInt w piBuffer iLen with
  | none => return (0, 0)
  | some (v, n) => return (ofNat 32 n, decodeZigZag v)

def readFloat (piBuffer : Bytes) (iLen : BitVec 32) : Except Fault (BitVec 32 × BitVec 32) :=
  if 4 > iLen then .ok (0, 0) else (readFixed32 piBuffer).map fun v => (4, v)

def readDouble (piBuffer : Bytes) (iLen : BitVec 32) : Except Fault (BitVec 32 × BitVec 64) :=
  if 8 > iLen then .ok (0, 0) else (readFixed64 piBuffer).map fun v => (8, v)

/-- A turn of the loop: the status it returns with, 0 to go on, and where it stands. -/
structure Turn where
  status : Int
  reader : Reader
  piPos : Bytes
  iLen : BitVec 32

/-- The end of a turn: a read of 0 bytes is a failure, but for a raw or a string value. -/
def advance (r : Reader) (iType : FieldType) (piPos : Bytes) (iLen iRead : BitVec 32) : Turn :=
  if iRead = 0 ∧ iType ≠ .raw ∧ iType ≠ .string then ⟨-5, r, piPos, iLen⟩
  else ⟨0, r, piPos.drop iRead.toNat, iLen - iRead⟩

/-- A case of the switch that stores a number. -/
def decodeNumber {w : Nat} (r : Reader) (iType : FieldType) (iId : BitVec 32) (piPos : Bytes) (iLen : BitVec 32)
    (read : Bytes → BitVec 32 → Except Fault (BitVec 32 × BitVec w)) (value : BitVec w → Values) : Except Fault Turn := do
  let (iRead, iVal) ← read piPos iLen
  return advance (r.set iId ⟨iType, value iVal, iRead⟩) iType piPos iLen iRead

/-- The loop over the elements: those read, what is left of the buffer, and the last iArrayRead. -/
def readElements : Nat → Bytes → BitVec 32 → Except Fault (List (BitVec 32) × BitVec 32 × Bool)
  | 0, _, iLen2 => .ok ([], iLen2, true)
  | n + 1, piArrayPos, iLen2 => do
    let (iArrayRead, iValue) ← readNumber piArrayPos iLen2
    if iArrayRead = 0 then return ([], iLen2, false)
    let (vs, iLen2, done) ← readElements n (piArrayPos.drop iArrayRead.toNat) (iLen2 - iArrayRead)
    return (iValue :: vs, iLen2, done)

/-- The UINT32_ARRAY case. An array's length is a signed int, and its elements start as 0; where an element cannot be
    read, the rest stays so and iRead is still that of the field's header. -/
def decodeArray (r : Reader) (iId : BitVec 32) (piPos : Bytes) (iLen : BitVec 32) : Except Fault Turn := do
  let (iArrayRead, iCount) ← readNumber piPos iLen
  if iArrayRead = 0 then
    return advance (r.set iId { r.fields iId with iType := .uint32Array, encodedLen := 0 }) .uint32Array piPos iLen 4
  if ¬r.deletable iId ∨ iCount.msb then throw .overrun
  let (vs, iLen2, done) ← readElements iCount.toNat (piPos.drop iArrayRead.toNat) (iLen - iArrayRead)
  let r := r.set iId ⟨.uint32Array, .pArray (some (vs ++ List.replicate (iCount.toNat - vs.length) 0)), iCount⟩
  return advance r .uint32Array piPos iLen (if done then iLen - iLen2 else 4)

/-- memcpy, or String::assign, of `len` bytes from a pointer. -/
def copy (p : Bytes) (len : BitVec 32) : Except Fault Bytes :=
  if len.toNat ≤ p.length then .ok (p.take len.toNat) else .error .overrun

/-- The pointer kept of a raw or string value: into the buffer, or with bCopyAll to a copy. -/
def Reader.rawValue (r : Reader) (piPos : Bytes) (iRawLen : BitVec 32) : Except Fault Bytes :=
  if r.copyAll then copy piPos iRawLen else .ok piPos

/-- The RAW and STRING cases: nothing compares the length with iLen. -/
def decodeRaw (r : Reader) (iType : FieldType) (iId : BitVec 32) (piPos : Bytes) (iLen : BitVec 32) : Except Fault Turn := do
  let iRawLen ← readFixed32 piPos
  let piRaw ← r.rawValue (piPos.drop 4) iRawLen
  return advance (r.set iId ⟨iType, .piRaw piRaw, iRawLen⟩) iType (piPos.drop 4) (iLen - 4) iRawLen

def decodeBundle (r : Reader) (iId : BitVec 32) (piPos : Bytes) (iLen : BitVec 32) : Turn :=
  if fieldBundleId ≠ iId then ⟨-2, r, piPos, iLen⟩
  else if piPos.length + 20 ≠ r.buffer.length then ⟨-4, r, piPos, iLen⟩
  else advance (r.set iId ⟨.bundle, .piRaw piPos, iLen⟩) .bundle piPos iLen iLen

def decodeField (r : Reader) (iType : BitVec 8) (iId : BitVec 32) (piPos : Bytes) (iLen : BitVec 32) : Except Fault Turn :=
  match FieldType.ofCode iType with
  | some .int32 => decodeNumber r .int32 iId piPos iLen readZigZag .i32
  | some .uint32 => decodeNumber r .uint32 iId piPos iLen readNumber .ui32
  | some .uint32Array => decodeArray r iId piPos iLen
  | some .int64 => decodeNumber r .int64 iId piPos iLen readZigZag .i64
  | some .uint64 => decodeNumber r .uint64 iId piPos iLen readNumber .ui64
  | some .float => decodeNumber r .float iId piPos iLen readFloat .f
  | some .double => decodeNumber r .double iId piPos iLen readDouble .d
  | some .raw => decodeRaw r .raw iId piPos iLen
  | some .string => decodeRaw r .string iId piPos iLen
  | some .bundle => .ok (decodeBundle r iId piPos iLen)
  | _ => .ok ⟨-1, r, piPos, iLen⟩

/-- The loop over the payload, a turn for each unit of fuel. A turn takes at least the four bytes of a header off
    `piPos`, so that a fuel of its length is enough: with none left the header is behind the buffer. -/
def decodeLoop : Nat → Reader → Bytes → BitVec 32 → Except Fault (Int × Reader)
  | 0, r, _, iLen => if iLen = 0 then .ok (0, r) else .error .overrun
  | fuel + 1, r, piPos, iLen =>
    if iLen = 0 then .ok (0, r)
    else do
      let (iType, iId) := getTypeId (← readFixed32 piPos)
      if fieldMax ≤ iId then return (-2, r)
      let turn ← decodeField r iType iId (piPos.drop 4) (iLen - 4)
      if turn.status ≠ 0 then return (turn.status, turn.reader)
      decodeLoop fuel turn.reader turn.piPos turn.iLen

def decodeFields (r : Reader) : Except Fault (Int × Reader) := do
  if r.bufferLen = 0 then return (0, r)
  if (← readFixed32 r.buffer) ≠ deepMagic then throw .abort
  let verFlags ← readFixed32 (r.buffer.drop 4)
  if version &&& verFlags ≠ version then throw .abort
  let msgId ← readFixed32 (r.buffer.drop 8)
  let iPayloadLen ← readFixed32 (r.buffer.drop 12)
  if iPayloadLen + headerSize > r.bufferLen then throw .abort
  let r := { r with flags := verFlags &&& 0x0000ff00, msgId := msgId, bufferLen := iPayloadLen + headerSize }
  decodeLoop r.buffer.length r (r.buffer.drop 16) iPayloadLen

/-! ## The getters -/

/-- The getter of a number, with the value of its out parameter before the call. -/
def getNumber {α : Type} (iType : FieldType) (value : Values → Option α) (r : Reader) (iId : BitVec 32) (iVal : α) : Int × α :=
  if fieldMax ≤ iId then (-1, iVal)
  else if iType ≠ (r.fields iId).iType then (-2, iVal)
  else if (r.fields iId).encodedLen = 0 then (-3, iVal)
  else (0, (value (r.fields iId).values).getD iVal)

def getInt32Field : Reader → BitVec 32 → BitVec 32 → Int × BitVec 32 :=
  getNumber .int32 fun | .i32 v => some v | _ => none
def getUint32Field : Reader → BitVec 32 → BitVec 32 → Int × BitVec 32 :=
  getNumber .uint32 fun | .ui32 v => some v | _ => none
def getInt64Field : Reader → BitVec 32 → BitVec 64 → Int × BitVec 64 :=
  getNumber .int64 fun | .i64 v => some v | _ => none
def getUint64Field : Reader → BitVec 32 → BitVec 64 → Int × BitVec 64 :=
  getNumber .uint64 fun | .ui64 v => some v | _ => none
def getFloatField : Reader → BitVec 32 → BitVec 32 → Int × BitVec 32 :=
  getNumber .float fun | .f v => some v | _ => none
def getDoubleField : Reader → BitVec 32 → BitVec 64 → Int × BitVec 64 :=
  getNumber .double fun | .d v => some v | _ => none

def Values.raw : Values → Bytes
  | .piRaw p => p
  | _ => []

def getStringField (r : Reader) (iId : BitVec 32) (cStr : Bytes) : Except Fault (Int × Bytes) :=
  if fieldMax ≤ iId then .ok (-1, cStr)
  else if .string ≠ (r.fields iId).iType then .ok (-2, cStr)
  else if (r.fields iId).encodedLen = 0 then .ok (0, [])
  else (copy (r.fields iId).values.raw (r.fields iId).encodedLen).map fun s => (0, s)

/-- The pointer, null as no bytes at all, and the size. -/
def getRawFieldRef (r : Reader) (iId : BitVec 32) (pcRaw : Bytes) (iSize : BitVec 32) : Int × Bytes × BitVec 32 :=
  if fieldMax ≤ iId then (-1, pcRaw, iSize)
  else if .raw ≠ (r.fields iId).iType then (-2, pcRaw, iSize)
  else if (r.fields iId).encodedLen = 0 then (0, [], 0)
  else (0, (r.fields iId).values.raw, (r.fields iId).encodedLen)

/-! ## Fields -/

/-- A field's value by its type. -/
inductive Field where
  | int32 (v : BitVec 32)
  | uint32 (v : BitVec 32)
  | int64 (v : BitVec 64)
  | uint64 (v : BitVec 64)
  | float (v : BitVec 32)
  | double (v : BitVec 64)
  | raw (bytes : Bytes)
  | string (bytes : Bytes)
  | uint32Array (vs : List (BitVec 32))

namespace Field

def type : Field → FieldType
  | int32 _ => .int32 | uint32 _ => .uint32 | int64 _ => .int64 | uint64 _ => .uint64 | float _ => .float
  | double _ => .double | raw _ => .raw | string _ => .string | uint32Array _ => .uint32Array

def set (id : BitVec 32) : Field → Writer → Int × Writer
  | int32 v => setInt32Field id v
  | uint32 v => setUint32Field id v
  | int64 v => setInt64Field id v
  | uint64 v => setUint64Field id v
  | float v => setFloatField id v
  | double v => setDoubleField id v
  | raw bytes => setRawField id bytes
  | string bytes => setStringField id bytes
  | uint32Array vs => setUint32ArrayField id vs

def sizeOf : Field → BitVec 32
  | int32 v => sizeOfInt32 v
  | uint32 v => sizeOfUint32 v
  | int64 v => sizeOfInt64 v
  | uint64 v => sizeOfUint64 v
  | float _ => sizeOfFloat
  | double _ => sizeOfDouble
  | raw bytes => sizeOfRaw (ofNat 32 bytes.length)
  | string bytes => sizeOfString bytes
  | uint32Array vs => sizeOfUint32Array vs

/-- The bytes of the value. -/
def payload : Field → Bytes
  | int32 v => writeVarInt (encodeZigZag v).toNat
  | uint32 v => writeVarInt v.toNat
  | int64 v => writeVarInt (encodeZigZag v).toNat
  | uint64 v => writeVarInt v.toNat
  | float v => writeFixed32 v
  | double v => writeFixed64 v
  | raw bytes => writeFixed32 (ofNat 32 bytes.length) ++ bytes
  | string bytes => writeFixed32 (ofNat 32 bytes.length) ++ bytes
  | uint32Array vs => writeUint32Array vs

def encode (id : BitVec 32) (f : Field) : Bytes := writeFixed32 (makeHeader f.type.code id) ++ f.payload

/-- What the reader stores of a field that `rest` follows in the buffer. -/
def bucket (f : Field) (rest : Bytes) : FieldBucket :=
  match f with
  | int32 v => ⟨.int32, .i32 v, ofNat 32 f.payload.length⟩
  | uint32 v => ⟨.uint32, .ui32 v, ofNat 32 f.payload.length⟩
  | int64 v => ⟨.int64, .i64 v, ofNat 32 f.payload.length⟩
  | uint64 v => ⟨.uint64, .ui64 v, ofNat 32 f.payload.length⟩
  | float v => ⟨.float, .f v, 4⟩
  | double v => ⟨.double, .d v, 8⟩
  | raw bytes => ⟨.raw, .piRaw (bytes ++ rest), ofNat 32 bytes.length⟩
  | string bytes => ⟨.string, .piRaw (bytes ++ rest), ofNat 32 bytes.length⟩
  | uint32Array vs => ⟨.uint32Array, .pArray (some vs), ofNat 32 vs.length⟩

end Field

variable {w : Nat}

theorem length_writeVarInt_bv (v : BitVec w) (hw : w ≤ 64) :
    (writeVarInt v.toNat).length = (varIntLength v.toNat).toNat :=
  length_writeVarInt (Nat.lt_of_lt_of_le v.isLt (Nat.pow_le_pow_right (by omega) hw))

theorem one_le_length_writeVarInt (n : Nat) : 1 ≤ (writeVarInt n).length := by
  rw [writeVarInt]
  split <;> simp

theorem varIntLength_hdr (n : Nat) : (varIntLength n + fieldHdrSize).toNat = (varIntLength n).toNat + 4 := by
  have h := varIntLength_lt n
  rw [toNat_add, toNat_fieldHdrSize]
  exact mod_eq_of_lt (by omega)

theorem sizeOf_elements (vs : List (BitVec 32)) (a : BitVec 32)
    (h : a.toNat + (vs.flatMap fun v => writeVarInt v.toNat).length < 2 ^ 32) :
    (vs.foldl (fun iSize v => iSize + varIntLength v.toNat) a).toNat
      = a.toNat + (vs.flatMap fun v => writeVarInt v.toNat).length := by
  induction vs generalizing a with
  | nil => rfl
  | cons v vs ih =>
    rw [flatMap_cons, length_append, length_writeVarInt_bv v (by decide)] at h
    have ha : (a + varIntLength v.toNat).toNat = a.toNat + (varIntLength v.toNat).toNat := by
      rw [toNat_add]
      exact mod_eq_of_lt (by omega)
    rw [foldl_cons, ih _ (by omega), ha, flatMap_cons, length_append, length_writeVarInt_bv v (by decide)]
    omega

/-- What a caller sums up for a field is what the field takes. -/
theorem sizeOf_toNat (id : BitVec 32) (f : Field) (h : (f.encode id).length < 2 ^ 32) :
    f.sizeOf.toNat = (f.encode id).length := by
  simp only [Field.encode, length_append, length_writeFixed32] at h ⊢
  have raw_toNat (bytes : Bytes) (h : 4 + (4 + bytes.length) < 2 ^ 32) :
      (ofNat 32 bytes.length + 4 + fieldHdrSize).toNat = 4 + (4 + bytes.length) := by
    have h4 : (4 : BitVec 32).toNat = 4 := rfl
    simp only [toNat_add, toNat_ofNat, toNat_fieldHdrSize, h4]
    omega
  cases f with
  | int32 v | int64 v =>
    rw [Field.payload, length_writeVarInt_bv _ (by decide), Nat.add_comm]
    exact varIntLength_hdr _
  | uint32 v | uint64 v =>
    rw [Field.payload, length_writeVarInt_bv _ (by decide), Nat.add_comm]
    exact varIntLength_hdr _
  | float v | double v => rfl
  | raw bytes | string bytes =>
    rw [Field.payload, length_append, length_writeFixed32] at h ⊢
    exact raw_toNat bytes h
  | uint32Array vs =>
    rw [Field.payload, writeUint32Array, length_append, length_writeVarInt_bv _ (by decide)] at h ⊢
    have he := sizeOf_elements vs fieldHdrSize (by rw [toNat_fieldHdrSize]; omega)
    rw [Field.sizeOf, sizeOfUint32Array, toNat_add, he, toNat_fieldHdrSize, mod_eq_of_lt (by omega)]
    omega

theorem length_ne_zero {n : Nat} (hpos : 1 ≤ n) (hlt : n < 2 ^ 32) : ofNat 32 n ≠ 0 := by
  intro h0
  have h : (ofNat 32 n).toNat = (0#32).toNat := congrArg _ h0
  rw [toNat_ofNat, mod_eq_of_lt hlt, toNat_zero] at h
  omega

theorem payload_pos (f : Field) : 1 ≤ f.payload.length := by
  cases f with
  | int32 v | uint32 v | int64 v | uint64 v => exact one_le_length_writeVarInt _
  | float v | double v => simp [Field.payload]
  | raw bytes | string bytes =>
    rw [Field.payload, length_append, length_writeFixed32]
    omega
  | uint32Array vs =>
    have h := one_le_length_writeVarInt (ofNat 32 vs.length).toNat
    rw [Field.payload, writeUint32Array, length_append]
    omega

/-! ## Writing -/

/-- A writer that has stayed inside its buffer. -/
structure Writer.Ok (w : Writer) : Prop where
  reached : w.reached = w.written.length
  iWritten : w.iWritten.toNat = w.written.length
  left : w.written.length + w.bufferLen.toNat = w.actualLen.toNat

theorem put_ok {w : Writer} (hw : w.Ok) (bytes : Bytes) (h : bytes.length ≤ w.bufferLen.toNat) :
    (w.put bytes).Ok ∧ (w.put bytes).written = w.written ++ bytes ∧ (w.put bytes).actualLen = w.actualLen
      ∧ (w.put bytes).bufferLen.toNat = w.bufferLen.toNat - bytes.length := by
  have hn : (ofNat 32 bytes.length).toNat = bytes.length := mod_eq_of_lt (by omega)
  have hwritten : (w.put bytes).written = w.written ++ bytes := by simp [Writer.put, hn]
  have hleft : (w.put bytes).bufferLen.toNat = w.bufferLen.toNat - bytes.length := by
    rw [Writer.put, toNat_sub_of_le (by rw [le_def, hn]; exact h), hn]
  obtain ⟨hreached, hiw, hsum⟩ := hw
  refine ⟨⟨?_, ?_, ?_⟩, hwritten, rfl, hleft⟩
  · rw [hwritten, length_append]
    simp only [Writer.put, hreached]
    omega
  · rw [hwritten, length_append, Writer.put, toNat_add, hn, hiw]
    exact mod_eq_of_lt (by omega)
  · have hact : (w.put bytes).actualLen = w.actualLen := rfl
    rw [hwritten, hleft, hact, length_append]
    omega

theorem create_ok (size msgId : BitVec 32) (h : size.toNat + 16 < 2 ^ 32) :
    (Writer.create size msgId).Ok ∧ (Writer.create size msgId).actualLen.toNat = size.toNat + 16
      ∧ (Writer.create size msgId).bufferLen = size ∧ (Writer.create size msgId).written
        = writeFixed32 deepMagic ++ writeFixed32 version ++ writeFixed32 msgId ++ writeFixed32 size := by
  have hs : (size + headerSize).toNat = size.toNat + 16 := by
    rw [toNat_add]
    exact mod_eq_of_lt h
  have hleft : (Writer.create size msgId).bufferLen = size := by
    have h' : size + headerSize - 4#32 - 4#32 - 4#32 - 4#32 = size := by simp only [headerSize]; bv_omega
    exact h'
  refine ⟨⟨rfl, rfl, ?_⟩, hs, hleft, rfl⟩
  rw [hleft]
  exact (Nat.add_comm 16 size.toNat).trans hs.symm

variable {bytes : Bytes}

theorem setField_ok {iType : FieldType} {iSize : BitVec 32} {value : BitVec 32 → Bytes} {w : Writer}
    (hw : w.Ok) (hid : id < fieldMax) (hsize : iSize.toNat ≤ 4 + bytes.length) (hpos : 1 ≤ bytes.length)
    (hroom : 4 + bytes.length ≤ w.bufferLen.toNat) (hvalue : ∀ iLen, bytes.length ≤ iLen.toNat → value iLen = bytes) :
    ∃ w', setField iType iSize value id w = (0, w') ∧ w'.Ok
      ∧ w'.written = w.written ++ (writeFixed32 (makeHeader iType.code id) ++ bytes) ∧ w'.actualLen = w.actualLen
      ∧ w'.bufferLen.toNat = w.bufferLen.toNat - (4 + bytes.length) := by
  obtain ⟨hw₁, hwr₁, hact₁, hleft₁⟩ := put_ok hw (writeFixed32 (makeHeader iType.code id)) (by simp; omega)
  rw [length_writeFixed32] at hleft₁
  have hv := hvalue _ (by omega : bytes.length ≤ (w.put (writeFixed32 (makeHeader iType.code id))).bufferLen.toNat)
  obtain ⟨hw₂, hwr₂, hact₂, hleft₂⟩ := put_ok hw₁ bytes (by omega)
  refine ⟨_, ?_, hw₂, by rw [hwr₂, hwr₁, append_assoc], hact₂.trans hact₁, by omega⟩
  have hne := length_ne_zero hpos (by omega)
  rw [setField, if_neg (by rw [not_le]; exact hid), if_neg (by rw [not_lt, le_def]; omega)]
  simp only [hv, hne, if_false]

variable {iLen : BitVec 32}

theorem writeRaw_ok (h : 4 + bytes.length ≤ iLen.toNat) :
    writeRaw bytes iLen = writeFixed32 (ofNat 32 bytes.length) ++ bytes := by
  have h4 : (4 : BitVec 32).toNat = 4 := rfl
  have hn : (ofNat 32 bytes.length + 4).toNat = bytes.length + 4 := by
    simp only [toNat_add, toNat_ofNat, h4]
    omega
  rw [writeRaw, if_neg]
  rw [gt_iff_lt, BitVec.lt_def, hn]
  omega

variable {f : Field}

theorem set_ok {w : Writer} (hw : w.Ok) (hid : id < fieldMax)
    (hroom : (f.encode id).length ≤ w.bufferLen.toNat) :
    ∃ w', f.set id w = (0, w') ∧ w'.Ok ∧ w'.written = w.written ++ f.encode id ∧ w'.actualLen = w.actualLen
      ∧ w'.bufferLen.toNat = w.bufferLen.toNat - (f.encode id).length := by
  have hsize := sizeOf_toNat id f (by omega)
  have hlen : (f.encode id).length = 4 + f.payload.length := by simp [Field.encode]
  rw [hlen] at hroom hsize ⊢
  have hpos := payload_pos f
  cases f with
  | int32 v | uint32 v | int64 v | uint64 v | uint32Array vs =>
    exact setField_ok hw hid hsize.le hpos hroom fun _ _ => rfl
  | float v =>
    refine setField_ok hw hid hsize.le hpos hroom fun iLen h => ?_
    rw [writeFloat, if_neg (by rw [gt_iff_lt, not_lt]; exact h)]
    rfl
  | double v => exact setField_ok hw hid (by simp [Field.payload, sizeOfFloat, fieldHdrSize]) hpos hroom fun _ _ => rfl
  | raw bytes | string bytes =>
    refine setField_ok hw hid hsize.le hpos hroom fun iLen h => writeRaw_ok ?_
    simpa [Field.payload] using h

/-- The encodings of fields, one after the other. -/
def encodeAll (fs : List (BitVec 32 × Field)) : Bytes := fs.flatMap fun p => p.2.encode p.1

theorem encodeAll_cons (p : BitVec 32 × Field) (fs : List (BitVec 32 × Field)) :
    encodeAll (p :: fs) = p.2.encode p.1 ++ encodeAll fs := rfl

theorem writeAll_ok (fs : List (BitVec 32 × Field)) (hid : ∀ p ∈ fs, p.1 < fieldMax) {w : Writer} (hw : w.Ok)
    (hroom : (encodeAll fs).length ≤ w.bufferLen.toNat) :
    ∃ w', writeAll w (fs.map fun p => p.2.set p.1) = (fs.map fun _ => 0, w') ∧ w'.Ok
      ∧ w'.written = w.written ++ encodeAll fs ∧ w'.actualLen = w.actualLen := by
  induction fs generalizing w with
  | nil => exact ⟨w, rfl, hw, by simp [encodeAll], rfl⟩
  | cons p fs ih =>
    rw [encodeAll_cons, length_append] at hroom
    obtain ⟨w₁, hset, hw₁, hwr₁, hact₁, hleft₁⟩ := set_ok hw (hid p mem_cons_self) (f := p.2) (by omega)
    obtain ⟨w₂, hall, hw₂, hwr₂, hact₂⟩ := ih (forall_mem_cons.mp hid).2 hw₁ (by omega)
    refine ⟨w₂, ?_, hw₂, by rw [hwr₂, hwr₁, encodeAll_cons, append_assoc], hact₂.trans hact₁⟩
    simp only [map_cons, writeAll, hset, hall]

/-! ## Reading -/

theorem toNat_makeHeader (t : BitVec 8) (hid : id < fieldMax) :
    (makeHeader t id).toNat = id.toNat * 256 + t.toNat := by
  have hid' : id.toNat < 256 := hid
  have hmask : (0x00ffffff &&& id : BitVec 32).toNat = id.toNat := by
    have h : (0x00ffffff &&& id : BitVec 32).toNat = id.toNat &&& (2 ^ 24 - 1) := by
      rw [toNat_and, Nat.and_comm]
      rfl
    rw [h, Nat.and_two_pow_sub_one_eq_mod, mod_eq_of_lt (by omega)]
  have ht : t.toNat < 2 ^ 8 := t.isLt
  rw [makeHeader, BitVec.toNat_or, BitVec.toNat_shiftLeft, hmask, BitVec.toNat_setWidth,
    mod_eq_of_lt (by omega : t.toNat < 2 ^ 32), Nat.shiftLeft_eq, mod_eq_of_lt (by omega), ← Nat.shiftLeft_eq,
    ← Nat.shiftLeft_add_eq_or_of_lt ht, Nat.shiftLeft_eq]

theorem getTypeId_makeHeader (t : BitVec 8) (hid : id < fieldMax) :
    getTypeId (makeHeader t id) = (t, id) := by
  have hh := toNat_makeHeader t hid
  refine Prod.ext (eq_of_toNat_eq ?_) (eq_of_toNat_eq ?_)
  · have h : ((0x000000ff &&& makeHeader t id).setWidth 8).toNat = ((makeHeader t id).toNat &&& (2 ^ 8 - 1)) % 2 ^ 8 := by
      rw [BitVec.toNat_setWidth, toNat_and, Nat.and_comm]
      rfl
    rw [getTypeId, h, Nat.and_two_pow_sub_one_eq_mod, hh]
    change _ = t.toNat
    omega
  · have h : (makeHeader t id >>> 8 &&& 0x00ffffff).toNat = (makeHeader t id).toNat / 2 ^ 8 &&& (2 ^ 24 - 1) := by
      rw [toNat_and, BitVec.toNat_ushiftRight, Nat.shiftRight_eq_div_pow]
      rfl
    rw [getTypeId, h, Nat.and_two_pow_sub_one_eq_mod, hh]
    change _ = id.toNat
    omega

theorem readNumber_write (v : BitVec w) (rest : Bytes)
    (h : (writeVarInt v.toNat).length ≤ iLen.toNat) :
    readNumber (writeVarInt v.toNat ++ rest) iLen = .ok (ofNat 32 (writeVarInt v.toNat).length, v) := by
  rw [readNumber, readVarInt_writeVarInt v rest h]
  rfl

theorem readZigZag_write (v : BitVec w) (rest : Bytes)
    (h : (writeVarInt (encodeZigZag v).toNat).length ≤ iLen.toNat) :
    readZigZag (writeVarInt (encodeZigZag v).toNat ++ rest) iLen
      = .ok (ofNat 32 (writeVarInt (encodeZigZag v).toNat).length, v) := by
  rw [readZigZag, readVarInt_writeVarInt _ rest h]
  simp only [bind, Except.bind, pure, Except.pure, decodeZigZag_encodeZigZag]

variable {t : FieldType}

theorem advance_ok (r : Reader) (rest : Bytes)
    (h : bytes.length ≤ iLen.toNat) (hpos : t = .raw ∨ t = .string ∨ 1 ≤ bytes.length) :
    advance r t (bytes ++ rest) iLen (ofNat 32 bytes.length)
      = ⟨0, r, rest, iLen - ofNat 32 bytes.length⟩ := by
  rw [advance, if_neg, toNat_ofNat, mod_eq_of_lt (by omega), drop_left]
  intro ⟨h0, hraw, hstring⟩
  rcases hpos with rfl | rfl | hpos
  · exact hraw rfl
  · exact hstring rfl
  · exact length_ne_zero hpos (by omega) h0

theorem decodeNumber_ok (r : Reader) (id : BitVec 32) {rest : Bytes}
    {read : Bytes → BitVec 32 → Except Fault (BitVec 32 × BitVec w)} {value : BitVec w → Values} {v : BitVec w}
    (h : bytes.length ≤ iLen.toNat) (hpos : 1 ≤ bytes.length)
    (hread : read (bytes ++ rest) iLen = .ok (ofNat 32 bytes.length, v)) :
    decodeNumber r t id (bytes ++ rest) iLen read value
      = .ok ⟨0, r.set id ⟨t, value v, ofNat 32 bytes.length⟩, rest, iLen - ofNat 32 bytes.length⟩ := by
  rw [decodeNumber, hread]
  simp only [bind, Except.bind, pure, Except.pure, advance_ok _ rest h (.inr (.inr hpos))]

theorem sub_length_sub (iLen : BitVec 32) (m n : Nat) :
    iLen - ofNat 32 m - ofNat 32 n = iLen - ofNat 32 (m + n) := by
  rw [BitVec.ofNat_add]
  generalize ofNat 32 m = a
  generalize ofNat 32 n = b
  bv_omega

/-- What is left to be seen behind a raw value. -/
def Reader.behind (r : Reader) (rest : Bytes) : Bytes := if r.copyAll then [] else rest

theorem copy_append (rest : Bytes) (hlen : bytes.length < 2 ^ 32) :
    copy (bytes ++ rest) (ofNat 32 bytes.length) = .ok bytes := by
  have hn : (ofNat 32 bytes.length).toNat = bytes.length := mod_eq_of_lt hlen
  rw [copy, hn, if_pos (by rw [length_append]; omega), take_left]

theorem rawValue_append (r : Reader) (rest : Bytes) (hlen : bytes.length < 2 ^ 32) :
    r.rawValue (bytes ++ rest) (ofNat 32 bytes.length) = .ok (bytes ++ r.behind rest) := by
  rw [Reader.rawValue, Reader.behind, copy_append rest hlen]
  cases r.copyAll
  · rfl
  · rw [if_pos rfl, if_pos rfl, append_nil]

theorem decodeRaw_ok (r : Reader) (ht : t = .raw ∨ t = .string) (id : BitVec 32) {rest : Bytes} (h : 4 + bytes.length ≤ iLen.toNat) :
    decodeRaw r t id (writeFixed32 (ofNat 32 bytes.length) ++ bytes ++ rest) iLen
      = .ok ⟨0, r.set id ⟨t, .piRaw (bytes ++ r.behind rest), ofNat 32 bytes.length⟩, rest,
          iLen - ofNat 32 (4 + bytes.length)⟩ := by
  have h4 : (4 : BitVec 32).toNat = 4 := rfl
  have hsub : (iLen - 4).toNat = iLen.toNat - 4 := toNat_sub_of_le (by rw [le_def, h4]; omega)
  have hdrop : (writeFixed32 (ofNat 32 bytes.length) ++ (bytes ++ rest)).drop 4 = bytes ++ rest := rfl
  rw [append_assoc, decodeRaw, read_writeFixed32]
  simp only [bind, Except.bind, pure, Except.pure, hdrop, rawValue_append r rest (by omega : bytes.length < 2 ^ 32)]
  rw [advance_ok _ rest (by omega) (by tauto), ← sub_length_sub]
  rfl

theorem toNat_sub_length (iLen : BitVec 32) (n : Nat) (h : n ≤ iLen.toNat) :
    (iLen - ofNat 32 n).toNat = iLen.toNat - n := by
  have hn : (ofNat 32 n).toNat = n := mod_eq_of_lt (by omega)
  rw [toNat_sub_of_le (by rw [le_def, hn]; exact h), hn]

theorem readElements_write (vs : List (BitVec 32)) (rest : Bytes) (iLen : BitVec 32)
    (h : (vs.flatMap fun v => writeVarInt v.toNat).length ≤ iLen.toNat) :
    readElements vs.length ((vs.flatMap fun v => writeVarInt v.toNat) ++ rest) iLen
      = .ok (vs, iLen - ofNat 32 (vs.flatMap fun v => writeVarInt v.toNat).length, true) := by
  have hlt : iLen.toNat < 2 ^ 32 := iLen.isLt
  induction vs generalizing iLen with
  | nil => simp [readElements]
  | cons v vs ih =>
    rw [flatMap_cons, length_append] at h
    have hne := length_ne_zero (one_le_length_writeVarInt v.toNat) (by omega)
    have hn : (ofNat 32 (writeVarInt v.toNat).length).toNat = (writeVarInt v.toNat).length :=
      mod_eq_of_lt (by omega)
    have hsub := toNat_sub_length iLen (writeVarInt v.toNat).length (by omega)
    rw [flatMap_cons, append_assoc, length_cons, readElements, readNumber_write v _ (by omega)]
    simp only [bind, Except.bind, pure, Except.pure, hne, if_false, hn, drop_left]
    rw [ih _ (by omega) (by omega), length_append, sub_length_sub]

theorem decodeArray_ok (r : Reader) (hfree : r.deletable id) (vs : List (BitVec 32))
    (hvs : vs.length < 2 ^ 31) (rest : Bytes) (h : (writeUint32Array vs).length ≤ iLen.toNat) :
    decodeArray r id (writeUint32Array vs ++ rest) iLen
      = .ok ⟨0, r.set id ⟨.uint32Array, .pArray (some vs), ofNat 32 vs.length⟩, rest,
          iLen - ofNat 32 (writeUint32Array vs).length⟩ := by
  have hcount : (ofNat 32 vs.length).toNat = vs.length := mod_eq_of_lt (by omega)
  have hmsb : (ofNat 32 vs.length).msb = false := by
    rw [BitVec.msb_eq_false_iff_two_mul_lt, hcount]
    omega
  have hadv := advance_ok (r.set id ⟨.uint32Array, .pArray (some vs), ofNat 32 vs.length⟩) (t := .uint32Array)
    rest h (.inr (.inr (payload_pos (.uint32Array vs))))
  rw [writeUint32Array, length_append] at h
  have hne := length_ne_zero (one_le_length_writeVarInt (ofNat 32 vs.length).toNat) (by omega)
  have hn : (ofNat 32 (writeVarInt (ofNat 32 vs.length).toNat).length).toNat
      = (writeVarInt (ofNat 32 vs.length).toNat).length := mod_eq_of_lt (by omega)
  have hsub := toNat_sub_length iLen (writeVarInt (ofNat 32 vs.length).toNat).length (by omega)
  have hel := readElements_write vs rest (iLen - ofNat 32 (writeVarInt (ofNat 32 vs.length).toNat).length)
    (by omega)
  have hback : iLen - (iLen - ofNat 32 (writeUint32Array vs).length) = ofNat 32 (writeUint32Array vs).length := by
    generalize ofNat 32 (writeUint32Array vs).length = a
    bv_omega
  rw [← hadv, ← hback, decodeArray, writeUint32Array, append_assoc, readNumber_write _ _ (by omega), length_append]
  generalize writeVarInt (ofNat 32 vs.length).toNat = count at *
  simp only [bind, Except.bind, pure, Except.pure, hne, if_false, hfree, not_true, hmsb, Bool.false_eq_true, or_self, hn,
    drop_left, hcount, hel, sub_length_sub, if_true, Nat.sub_self, replicate_zero, append_nil]

/-- A field whose value fits the reader's own types: an array's length is a signed int. -/
def Field.Fits : Field → Prop
  | uint32Array vs => vs.length < 2 ^ 31
  | _ => True

theorem bucket_deletable (r : Reader) (h : f.type = .uint32Array) (rest : Bytes) :
    (r.set id (f.bucket rest)).deletable id := by
  cases f with
  | uint32Array vs => rw [Reader.deletable, set_fields_self, Field.bucket]
  | _ => cases h

theorem decodeField_encode (r : Reader) (hfree : f.type = .uint32Array → r.deletable id)
    (hf : f.Fits) (rest : Bytes) (iLen : BitVec 32) (h : f.payload.length ≤ iLen.toNat) :
    decodeField r f.type.code id (f.payload ++ rest) iLen
      = .ok ⟨0, r.set id (f.bucket (r.behind rest)), rest, iLen - ofNat 32 f.payload.length⟩ := by
  have hpos := payload_pos f
  cases f with
  | int32 v => exact decodeNumber_ok r id h hpos (readZigZag_write v rest h)
  | uint32 v => exact decodeNumber_ok r id h hpos (readNumber_write v rest h)
  | int64 v => exact decodeNumber_ok r id h hpos (readZigZag_write v rest h)
  | uint64 v => exact decodeNumber_ok r id h hpos (readNumber_write v rest h)
  | float v =>
    refine decodeNumber_ok r id h hpos ?_
    rw [readFloat, if_neg (by rw [gt_iff_lt, not_lt]; exact h), Field.payload, read_writeFixed32]
    rfl
  | double v =>
    refine decodeNumber_ok r id h hpos ?_
    rw [readDouble, if_neg (by rw [gt_iff_lt, not_lt]; exact h), Field.payload, read_writeFixed64]
    rfl
  | raw bytes =>
    rw [Field.payload, length_append, length_writeFixed32] at h ⊢
    exact decodeRaw_ok r (.inl rfl) id h
  | string bytes =>
    rw [Field.payload, length_append, length_writeFixed32] at h ⊢
    exact decodeRaw_ok r (.inr rfl) id h
  | uint32Array vs => exact decodeArray_ok r (hfree rfl) vs hf rest h

/-- The reader after the fields of a payload that `rest` follows. -/
def setAll (r : Reader) : List (BitVec 32 × Field) → Bytes → Reader
  | [], _ => r
  | p :: fs, rest => setAll (r.set p.1 (p.2.bucket (r.behind (encodeAll fs ++ rest)))) fs rest

variable {fs : List (BitVec 32 × Field)}

theorem setAll_of_notMem (h : id ∉ fs.map Prod.fst) (r : Reader)
    (rest : Bytes) : (setAll r fs rest).fields id = r.fields id := by
  induction fs generalizing r with
  | nil => rfl
  | cons p fs ih =>
    rw [map_cons, mem_cons, not_or] at h
    rw [setAll, ih h.2, set_fields_of_ne r h.1]

/-- No field number comes with two values. -/
def Consistent (fs : List (BitVec 32 × Field)) : Prop := ∀ p ∈ fs, ∀ q ∈ fs, p.1 = q.1 → p = q

theorem consistent_of_nodup (h : (fs.map Prod.fst).Nodup) : Consistent fs := by
  intro p hp q hq
  exact inj_on_of_nodup_map h hp hq

theorem Consistent.tail {p : BitVec 32 × Field} (h : Consistent (p :: fs)) : Consistent fs :=
  fun q hq q' hq' => h q (mem_cons_of_mem _ hq) q' (mem_cons_of_mem _ hq')

theorem setAll_of_mem (hfs : Consistent fs)
    (h : (id, f) ∈ fs) (r : Reader) (rest : Bytes) : ∃ rest', (setAll r fs rest).fields id = f.bucket rest' := by
  induction fs generalizing r with
  | nil => exact absurd h not_mem_nil
  | cons p fs ih =>
    by_cases hin : (id, f) ∈ fs
    · exact ih hfs.tail hin _
    · obtain rfl : (id, f) = p := (mem_cons.mp h).resolve_right hin
      have hn : id ∉ fs.map Prod.fst := by
        intro hmem
        obtain ⟨q, hq, hqid⟩ := mem_map.mp hmem
        have heq := hfs q (mem_cons_of_mem _ hq) (id, f) h hqid
        exact hin (heq ▸ hq)
      exact ⟨_, by rw [setAll, setAll_of_notMem hn, set_fields_self]⟩

/-- Where a payload has an array, the reader holds nothing there that is no array. -/
def AllFree (r : Reader) : List (BitVec 32 × Field) → Bytes → Prop
  | [], _ => True
  | p :: fs, rest => (p.2.type = .uint32Array → r.deletable p.1) ∧
      AllFree (r.set p.1 (p.2.bucket (r.behind (encodeAll fs ++ rest)))) fs rest

variable {r : Reader}

theorem allFree_of_consistent (hfs : Consistent fs)
    (hfree : ∀ p ∈ fs, p.2.type = .uint32Array → r.deletable p.1) (rest : Bytes) : AllFree r fs rest := by
  induction fs generalizing r with
  | nil => trivial
  | cons p fs ih =>
    refine ⟨hfree p mem_cons_self, ih hfs.tail fun q hq hq' => ?_⟩
    have hmem : q ∈ p :: fs := mem_cons_of_mem _ hq
    by_cases heq : q.1 = p.1
    · -- the bucket holds the same array already
      rw [← hfs q hmem p mem_cons_self heq]
      exact bucket_deletable r hq' _
    · rw [set_deletable_of_ne r heq]
      exact hfree q hmem hq'

theorem allFree_of_no_array (h : ∀ p ∈ fs, p.2.type ≠ .uint32Array) (r : Reader) (rest : Bytes) :
    AllFree r fs rest := by
  induction fs generalizing r with
  | nil => trivial
  | cons p fs ih =>
    exact ⟨fun ht => absurd ht (h p mem_cons_self), ih (forall_mem_cons.mp h).2 _⟩

theorem decodeLoop_encode (hid : ∀ p ∈ fs, p.1 < fieldMax) (hfits : ∀ p ∈ fs, p.2.Fits)
    (rest : Bytes) {fuel : Nat} (hfuel : fs.length ≤ fuel) (hfree : AllFree r fs rest)
    (h : iLen.toNat = (encodeAll fs).length) : decodeLoop fuel r (encodeAll fs ++ rest) iLen = .ok (0, setAll r fs rest) := by
  induction fs generalizing fuel r iLen with
  | nil =>
    have h0 : iLen = 0 := eq_of_toNat_eq h
    cases fuel <;> simp [decodeLoop, h0, setAll]
  | cons p fs ih =>
    obtain ⟨fuel, rfl⟩ : ∃ n, fuel = n + 1 := ⟨fuel - 1, by simp at hfuel; omega⟩
    rw [encodeAll_cons, Field.encode, length_append, length_append, length_writeFixed32] at h
    have h4 : (4 : BitVec 32).toNat = 4 := rfl
    have hsub : (iLen - 4).toNat = iLen.toNat - 4 := toNat_sub_of_le (by rw [le_def, h4]; omega)
    have hsub' := toNat_sub_length (iLen - 4) p.2.payload.length (by omega)
    have hne : iLen ≠ 0 := by
      rintro rfl
      rw [ofNat_eq_ofNat, toNat_zero] at h
      omega
    have hp := hid p mem_cons_self
    have hfield := decodeField_encode r hfree.1 (hfits p mem_cons_self) (encodeAll fs ++ rest) (iLen - 4) (by omega)
    have hdrop : (writeFixed32 (makeHeader p.2.type.code p.1) ++ (p.2.payload ++ (encodeAll fs ++ rest))).drop 4
      = p.2.payload ++ (encodeAll fs ++ rest) := rfl
    rw [encodeAll_cons, Field.encode, append_assoc, append_assoc, decodeLoop, if_neg hne, read_writeFixed32]
    simp only [bind, Except.bind, pure, Except.pure, getTypeId_makeHeader _ hp, not_le.mpr hp, if_false, hdrop,
      hfield, ne_eq, not_true]
    exact ih (forall_mem_cons.mp hid).2 (forall_mem_cons.mp hfits).2
      (by simp at hfuel; omega) hfree.2 (by omega)

theorem length_le_encodeAll (fs : List (BitVec 32 × Field)) : fs.length ≤ (encodeAll fs).length := by
  induction fs with
  | nil => exact Nat.zero_le _
  | cons p fs ih =>
    rw [encodeAll_cons, Field.encode, length_append, length_append, length_writeFixed32, length_cons]
    omega

/-- The message header in front of a payload of `size` bytes. -/
def messageHeader (verFlags msgId size : BitVec 32) : Bytes :=
  writeFixed32 deepMagic ++ writeFixed32 verFlags ++ writeFixed32 msgId ++ writeFixed32 size

@[simp] theorem setAll_msgId (r : Reader) (fs : List (BitVec 32 × Field)) (rest : Bytes) :
    (setAll r fs rest).msgId = r.msgId := by
  induction fs generalizing r with
  | nil => rfl
  | cons p fs ih => exact ih _

@[simp] theorem setAll_flags (r : Reader) (fs : List (BitVec 32 × Field)) (rest : Bytes) :
    (setAll r fs rest).flags = r.flags := by
  induction fs generalizing r with
  | nil => rfl
  | cons p fs ih => exact ih _

@[simp] theorem setAll_bufferLen (r : Reader) (fs : List (BitVec 32 × Field)) (rest : Bytes) :
    (setAll r fs rest).bufferLen = r.bufferLen := by
  induction fs generalizing r with
  | nil => rfl
  | cons p fs ih => exact ih _

/-- The reader of a message before the first field. -/
def Reader.begun (buffer : Bytes) (verFlags msgId size : BitVec 32) (copyAll : Bool) : Reader :=
  ⟨buffer, size + headerSize, msgId, verFlags &&& 0x0000ff00, fun _ => ⟨.nil, .pArray none, 0⟩, fun _ => false, copyAll⟩

variable {verFlags size : BitVec 32}

/-- A message is decoded field by field, whatever stands behind it in the buffer. -/
theorem decodeFields_message (hid : ∀ p ∈ fs, p.1 < fieldMax) (hfits : ∀ p ∈ fs, p.2.Fits)
    (msgId : BitVec 32) (hver : version &&& verFlags = version) (hsize : size.toNat = (encodeAll fs).length)
    (rest : Bytes) {n : BitVec 32} (h : size.toNat + 16 ≤ n.toNat) (copyAll : Bool) {buffer : Bytes}
    (hbuf : buffer = messageHeader verFlags msgId size ++ encodeAll fs ++ rest)
    (hfree : AllFree (.begun buffer verFlags msgId size copyAll) fs rest) :
    decodeFields { Reader.create buffer with bufferLen := n, copyAll := copyAll }
      = .ok (0, setAll (.begun buffer verFlags msgId size copyAll) fs rest) := by
  have hsum : (size + headerSize).toNat = size.toNat + 16 := by
    rw [toNat_add]
    exact mod_eq_of_lt (by rw [show headerSize.toNat = 16 from rfl]; omega)
  have hne : n ≠ 0 := by
    rintro rfl
    rw [ofNat_eq_ofNat, toNat_zero] at h
    omega
  have hgt : ¬size + headerSize > n := by
    rw [gt_iff_lt, not_lt, le_def, hsum]
    exact h
  subst hbuf
  have h0 : readFixed32 (messageHeader verFlags msgId size ++ encodeAll fs ++ rest) = .ok deepMagic := by
    simp only [messageHeader, append_assoc, read_writeFixed32]
  have h4 : readFixed32 ((messageHeader verFlags msgId size ++ encodeAll fs ++ rest).drop 4) = .ok verFlags :=
    read_writeFixed32 verFlags (writeFixed32 msgId ++ writeFixed32 size ++ encodeAll fs ++ rest)
  have h8 : readFixed32 ((messageHeader verFlags msgId size ++ encodeAll fs ++ rest).drop 8) = .ok msgId :=
    read_writeFixed32 msgId (writeFixed32 size ++ encodeAll fs ++ rest)
  have h12 : readFixed32 ((messageHeader verFlags msgId size ++ encodeAll fs ++ rest).drop 12) = .ok size :=
    read_writeFixed32 size (encodeAll fs ++ rest)
  have h16 : (messageHeader verFlags msgId size ++ encodeAll fs ++ rest).drop 16 = encodeAll fs ++ rest := rfl
  have hfuel : fs.length ≤ (messageHeader verFlags msgId size ++ encodeAll fs ++ rest).length := by
    have := length_le_encodeAll fs
    rw [length_append, length_append]
    omega
  rw [decodeFields]
  simp only [Reader.create, hne, if_false, h0, h4, h8, h12, bind, Except.bind, pure, Except.pure, ne_eq, not_true, hver, hgt, h16]
  exact decodeLoop_encode hid hfits rest hfuel hfree hsize

/-- A message is taken apart into its fields, whatever stands behind it in the buffer. -/
theorem decodeFields_append (hid : ∀ p ∈ fs, p.1 < fieldMax) (hfs : Consistent fs)
    (hfits : ∀ p ∈ fs, p.2.Fits) (msgId : BitVec 32) (hver : version &&& verFlags = version)
    (hsize : size.toNat = (encodeAll fs).length) (rest : Bytes) {n : BitVec 32} (h : size.toNat + 16 ≤ n.toNat) (copyAll : Bool) :
    ∃ r, decodeFields { Reader.create (messageHeader verFlags msgId size ++ encodeAll fs ++ rest) with
        bufferLen := n, copyAll := copyAll } = .ok (0, r)
      ∧ r.msgId = msgId ∧ r.flags = verFlags &&& 0x0000ff00 ∧ r.bufferLen.toNat = size.toNat + 16
      ∧ (∀ p ∈ fs, ∃ rest, r.fields p.1 = p.2.bucket rest)
      ∧ ∀ id ∉ fs.map Prod.fst, r.fields id = ⟨.nil, .pArray none, 0⟩ := by
  have hn : n.toNat < 2 ^ 32 := n.isLt
  have hsum : (size + headerSize).toNat = size.toNat + 16 := by
    rw [toNat_add]
    exact mod_eq_of_lt (by rw [show headerSize.toNat = 16 from rfl]; omega)
  have hdec := decodeFields_message hid hfits msgId hver hsize rest h copyAll rfl (allFree_of_consistent hfs (fun _ _ _ => rfl) rest)
  refine ⟨_, hdec, setAll_msgId .., setAll_flags .., ?_, fun p hp => setAll_of_mem hfs hp _ _, fun id hn => setAll_of_notMem hn _ _⟩
  rw [setAll_bufferLen]
  exact hsum

/-- A message of fields with ids of their own is taken apart into them. -/
theorem decodeFields_encode (hid : ∀ p ∈ fs, p.1 < fieldMax)
    (hdup : (fs.map Prod.fst).Nodup) (hfits : ∀ p ∈ fs, p.2.Fits) (msgId : BitVec 32)
    (hver : version &&& verFlags = version) (hsize : size.toNat = (encodeAll fs).length) (h : size.toNat + 16 < 2 ^ 32) :
    ∃ r, decodeFields (.create (messageHeader verFlags msgId size ++ encodeAll fs)) = .ok (0, r)
      ∧ r.msgId = msgId ∧ r.flags = verFlags &&& 0x0000ff00
      ∧ (∀ p ∈ fs, ∃ rest, r.fields p.1 = p.2.bucket rest)
      ∧ ∀ id ∉ fs.map Prod.fst, r.fields id = ⟨.nil, .pArray none, 0⟩ := by
  have hlen : (messageHeader verFlags msgId size ++ encodeAll fs).length = size.toNat + 16 := by
    rw [length_append, hsize, Nat.add_comm]
    rfl
  have hn : size.toNat + 16 ≤ (ofNat 32 (messageHeader verFlags msgId size ++ encodeAll fs).length).toNat := by
    rw [hlen, toNat_ofNat, mod_eq_of_lt h]
  obtain ⟨r, hdec, hmsg, hflags, -, hfields, habsent⟩ :=
    decodeFields_append hid (consistent_of_nodup hdup) hfits msgId hver hsize [] hn false
  rw [append_nil] at hdec
  exact ⟨r, hdec, hmsg, hflags, hfields, habsent⟩

theorem getNumber_bucket {α : Type} {iType : FieldType} {value : Values → Option α}
    (iVal : α) (hid : id < fieldMax) {vals : Values} {len : BitVec 32} (h : r.fields id = ⟨iType, vals, len⟩)
    (hlen : len ≠ 0) {v : α} (hv : value vals = some v) : getNumber iType value r id iVal = (0, v) := by
  rw [getNumber, if_neg (not_le.mpr hid), h, if_neg (by simp), if_neg hlen, hv]
  rfl

theorem varInt_length_ne_zero (v : BitVec w) (hw : w ≤ 64) :
    ofNat 32 (writeVarInt v.toNat).length ≠ 0 := by
  exact length_ne_zero (one_le_length_writeVarInt _) (by rw [length_writeVarInt_bv v hw]; omega)

theorem eq_nil_of_length_zero (hlen : bytes.length < 2 ^ 32) (h0 : ofNat 32 bytes.length = 0) :
    bytes = [] := by
  by_contra hne
  exact length_ne_zero (length_pos_iff.mpr hne) hlen h0

section Getters

variable {r : Reader} {id : BitVec 32} (hid : id < fieldMax) {rest : Bytes}
include hid

theorem getInt32Field_bucket {v : BitVec 32} (h : r.fields id = (Field.int32 v).bucket rest) (d : BitVec 32) :
    getInt32Field r id d = (0, v) :=
  getNumber_bucket d hid h (varInt_length_ne_zero (encodeZigZag v) (by decide)) rfl

theorem getUint32Field_bucket {v : BitVec 32} (h : r.fields id = (Field.uint32 v).bucket rest) (d : BitVec 32) :
    getUint32Field r id d = (0, v) :=
  getNumber_bucket d hid h (varInt_length_ne_zero v (by decide)) rfl

theorem getInt64Field_bucket {v : BitVec 64} (h : r.fields id = (Field.int64 v).bucket rest) (d : BitVec 64) :
    getInt64Field r id d = (0, v) :=
  getNumber_bucket d hid h (varInt_length_ne_zero (encodeZigZag v) (by decide)) rfl

theorem getUint64Field_bucket {v : BitVec 64} (h : r.fields id = (Field.uint64 v).bucket rest) (d : BitVec 64) :
    getUint64Field r id d = (0, v) :=
  getNumber_bucket d hid h (varInt_length_ne_zero v (by decide)) rfl

theorem getStringField_bucket {bytes : Bytes} (hlen : bytes.length < 2 ^ 32)
    (h : r.fields id = (Field.string bytes).bucket rest) (d : Bytes) : getStringField r id d = .ok (0, bytes) := by
  rw [getStringField, if_neg (not_le.mpr hid), h, Field.bucket, if_neg (by simp)]
  by_cases h0 : ofNat 32 bytes.length = 0
  · rw [if_pos h0, eq_nil_of_length_zero hlen h0]
  · rw [if_neg h0, Values.raw, copy_append rest hlen]
    rfl

theorem getRawFieldRef_bucket {bytes : Bytes} (hlen : bytes.length < 2 ^ 32)
    (h : r.fields id = (Field.raw bytes).bucket rest) (p : Bytes) (n : BitVec 32) :
    copy (getRawFieldRef r id p n).2.1 (getRawFieldRef r id p n).2.2 = .ok bytes := by
  rw [getRawFieldRef, if_neg (not_le.mpr hid), h, Field.bucket, if_neg (by simp)]
  by_cases h0 : ofNat 32 bytes.length = 0
  · rw [if_pos h0, eq_nil_of_length_zero hlen h0]
    rfl
  · rw [if_neg h0, Values.raw, copy_append rest hlen]

end Getters

/-! ## Whole messages -/

def sizeAll (fs : List (BitVec 32 × Field)) : BitVec 32 := fs.foldl (fun size p => size + p.2.sizeOf) 0

theorem foldl_sizeOf (fs : List (BitVec 32 × Field)) (a : BitVec 32) (h : a.toNat + (encodeAll fs).length < 2 ^ 32) :
    (fs.foldl (fun size p => size + p.2.sizeOf) a).toNat = a.toNat + (encodeAll fs).length := by
  induction fs generalizing a with
  | nil => rfl
  | cons p fs ih =>
    rw [encodeAll_cons, length_append] at h ⊢
    have hp := sizeOf_toNat p.1 p.2 (by omega)
    have ha : (a + p.2.sizeOf).toNat = a.toNat + (p.2.encode p.1).length := by
      rw [toNat_add, hp]
      exact mod_eq_of_lt (by omega)
    rw [foldl_cons, ih _ (by omega), ha, Nat.add_assoc]

theorem sizeAll_toNat (fs : List (BitVec 32 × Field)) (h : (encodeAll fs).length < 2 ^ 32) :
    (sizeAll fs).toNat = (encodeAll fs).length := by
  rw [sizeAll, foldl_sizeOf fs 0 (by rw [ofNat_eq_ofNat, toNat_zero]; omega), ofNat_eq_ofNat,
    toNat_zero, Nat.zero_add]

/-- A message of fields with ids of their own, written into a writer created for the sum of their sizes, fills it, and a
    reader gets every field back. -/
theorem write_decode (hid : ∀ p ∈ fs, p.1 < fieldMax) (hdup : (fs.map Prod.fst).Nodup)
    (hfits : ∀ p ∈ fs, p.2.Fits) (msgId : BitVec 32) (h : (encodeAll fs).length + 16 < 2 ^ 32) :
    ∃ w r, writeAll (.create (sizeAll fs) msgId) (fs.map fun p => p.2.set p.1) = (fs.map fun _ => 0, w)
      ∧ w.reached = w.actualLen.toNat ∧ w.written.length = w.actualLen.toNat
      ∧ w.actualLen.toNat = (sizeAll fs).toNat + 16
      ∧ decodeFields (.create w.written) = .ok (0, r) ∧ r.msgId = msgId
      ∧ ∀ p ∈ fs, ∃ rest, r.fields p.1 = p.2.bucket rest := by
  have hsize := sizeAll_toNat fs (by omega)
  obtain ⟨hok, hact, hleft, hwr⟩ := create_ok (sizeAll fs) msgId (by omega)
  obtain ⟨w, hall, hw, hwritten, hact'⟩ := writeAll_ok fs hid hok (by rw [hleft]; omega)
  obtain ⟨r, hdec, hmsg, -, hfields, -⟩ := decodeFields_encode hid hdup hfits msgId
    (BitVec.and_self : version &&& version = version) hsize (by omega)
  have hlen : w.written.length = w.actualLen.toNat := by
    rw [hwritten, hact', hact, hwr, length_append, hsize, Nat.add_comm]
    rfl
  refine ⟨w, r, hall, hw.reached.trans hlen, hlen, by rw [hact', hact], ?_, hmsg, hfields⟩
  rw [hwritten, hwr]
  exact hdec

end DeepFabric.Wire
