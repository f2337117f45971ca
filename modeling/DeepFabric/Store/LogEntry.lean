/-
  DeepFabric.Store.LogEntry — the entries of a log file (writeLrtEntry, writeRolloverLrtData,
  terminateStreaming and recoveryRead in core/RealTimeProtocol_v1_1.h, KeyProtocol_v1 in
  core/RealTimeProtocol_v1_0.h), of file protocol 1.3 on.

  An entry has flags, an id if its transaction spans several tables, the position of its value, the
  size of the value if the map has no fixed one, and its key if the map does not keep it in the
  value. In a compressed group only the opening entry has a position, and the values are counted on
  from there. Three writers decide for themselves what to leave out, and one reader finds out again.

  `completed` is the verdict on an id, and `vend` the length of the value file. A key that is `none`
  is the type's NULL_VALUE, which a pointer type cannot write.

  - `rollover_without_position`: writeRolloverLrtData leaves the position out of an entry of a map
    with keys and values of fixed size; the reader takes the key for it.
-/
import DeepFabric.Lib.BigEndian

namespace DeepFabric.Store.LogEntry

open Lib.BigEndian
open Bool (eq_false_iff false_eq_true)
open Option (bind_eq_some_iff)

abbrev Bytes := List UInt8

/-! ## Flags -/

structure StateFlags where
  opening : Bool
  closing : Bool
  acp : Bool
  rolling : Bool
  destroy : Bool
  marking : Bool
  compress : Bool
  closure : Bool
  deriving DecidableEq, Repr

namespace StateFlags

def bit (b : Bool) (flag : UInt8) : UInt8 := if b then flag else 0

def byte (f : StateFlags) : UInt8 :=
  bit f.opening 0x01 ||| bit f.closing 0x02 ||| bit f.acp 0x04 ||| bit f.rolling 0x08 |||
    bit f.destroy 0x10 ||| bit f.marking 0x20 ||| bit f.compress 0x40 ||| bit f.closure 0x80

def ofByte (b : UInt8) : StateFlags :=
  ⟨b &&& 0x01 ≠ 0, b &&& 0x02 ≠ 0, b &&& 0x04 ≠ 0, b &&& 0x08 ≠ 0, b &&& 0x10 ≠ 0, b &&& 0x20 ≠ 0, b &&& 0x40 ≠ 0, b &&& 0x80 ≠ 0⟩

theorem ofByte_byte (f : StateFlags) : ofByte f.byte = f := by
  obtain ⟨opening, closing, acp, rolling, destroy, marking, compress, closure⟩ := f
  revert opening closing acp rolling destroy marking compress closure
  decide

end StateFlags

/-! ## Fields -/

def writeInt (v : BitVec 32) : Bytes := encode 4 v.toNat

def writeLong (v : BitVec 64) : Bytes := encode 8 v.toNat

def readInt : Reader (BitVec 32) := fun bytes => (number 4 bytes).map fun p => (BitVec.ofNat 32 p.1, p.2)

def readLong : Reader (BitVec 64) := fun bytes => (number 8 bytes).map fun p => (BitVec.ofNat 64 p.1, p.2)

/-- What a RealTimeMap and its share say of a log. -/
structure Map where
  /-- m_keyProtocol, none for -1. -/
  keyProtocol : Option Nat
  /-- m_valueSize, none for -1. -/
  valueSize : Option (BitVec 32)
  rowStoreMode : Bool
  /-- The bytes of NULL_VALUE for a type of numbers, none for nbyte*. -/
  nullKey : Option Bytes

variable (map : Map)

/-- KeyProtocol_v1::writeKey; none: null is followed, or a size below 0 or above the key's is written. -/
def writeKey (key : Option Bytes) : Option Bytes :=
  match map.nullKey, key, map.keyProtocol with
  | some null, key, _ => some (key.getD null)
  | none, none, _ => none
  | none, some key, none => if key.length < 2 ^ 15 then some (encode 2 key.length ++ key) else none
  | none, some key, some keySize => if keySize ≤ key.length then some (key.take keySize) else none

/-- readKey; a key of less than no bytes is not read either. -/
def readKey : Reader (Option Bytes) := fun bytes =>
  match map.nullKey, map.keyProtocol with
  | some null, _ => do
    let (key, bytes) ← take null.length bytes
    return (if key = null then none else some key, bytes)
  | none, none => do
    let (keySize, bytes) ← number 2 bytes
    if keySize < 2 ^ 15 then
      let (key, bytes) ← take keySize bytes
      return (some key, bytes)
    else none
  | none, some keySize => do
    let (key, bytes) ← take keySize bytes
    return (some key, bytes)

/-! ## The writers -/

structure Information where
  filePosition : BitVec 32
  size : BitVec 32
  deleting : Bool
  deriving DecidableEq, Repr

def sizeField (size : BitVec 32) : Bytes := if map.valueSize = none then writeInt size else []

def keyField (key : Option Bytes) : Option Bytes := if map.rowStoreMode then some [] else writeKey map key

def writeLrtEntry (key : Option Bytes) (info : Information) (first next marking cursor rolling compressing : Bool)
    (transactionId : BitVec 64) : Option Bytes := do
  let stateFlags : StateFlags :=
    { opening := first, compress := first && compressing, destroy := info.deleting, closing := !next && !cursor
      marking := marking, rolling := rolling, acp := transactionId ≠ 0, closure := false }
  let id := if transactionId ≠ 0 then writeLong transactionId else []
  let value :=
    if compressing then (if stateFlags.compress then writeInt info.filePosition else []) ++ sizeField map info.size
    else writeInt info.filePosition ++ sizeField map info.size
  return stateFlags.byte :: (id ++ value ++ (← keyField map key))

def writeRolloverLrtData (key : Option Bytes) (info : Information) (position streamPosition : BitVec 32)
    (first last compressing marking : Bool) : Option Bytes := do
  let stateFlags : StateFlags :=
    { opening := first, compress := first && compressing, destroy := false, closing := last
      marking := last && marking, rolling := true, acp := false, closure := false }
  let value :=
    if compressing then (if stateFlags.compress then writeInt streamPosition else []) ++ sizeField map info.size
    else
      match map.valueSize, map.keyProtocol with
      | none, _ => writeInt position ++ writeInt info.size
      | some _, none => writeInt position
      | some _, some _ => []
  return stateFlags.byte :: (value ++ (← keyField map key))

/-- The size of nullInfo, whose value terminateStreaming writes at the position. -/
def nullSize : BitVec 32 := map.valueSize.getD 1

def terminateStreaming (filePosition : BitVec 32) : Option Bytes := do
  let stateFlags : StateFlags :=
    { opening := false, compress := false, destroy := false, closing := false
      marking := false, rolling := false, acp := false, closure := true }
  return stateFlags.byte :: (writeInt filePosition ++ sizeField map (nullSize map) ++ (← keyField map none))

inductive Call where
  | entry (key : Option Bytes) (info : Information) (first next marking cursor rolling compressing : Bool) (transactionId : BitVec 64)
  | rollover (key : Option Bytes) (info : Information) (position streamPosition : BitVec 32) (first last compressing marking : Bool)
  | terminate (filePosition : BitVec 32)
  deriving DecidableEq, Repr

def Call.bytes : Call → Option Bytes
  | .entry key info first next marking cursor rolling compressing transactionId =>
    writeLrtEntry map key info first next marking cursor rolling compressing transactionId
  | .rollover key info position streamPosition first last compressing marking =>
    writeRolloverLrtData map key info position streamPosition first last compressing marking
  | .terminate filePosition => terminateStreaming map filePosition

def writeAll : List Call → Option Bytes
  | [] => some []
  | c :: cs => do
    let bytes ← c.bytes map
    let rest ← writeAll cs
    return bytes ++ rest

/-! ## The reader -/

/-- What recoveryRead finds in an entry; the key of a mark, or of a row that has it in its value, is passed over. -/
structure Entry where
  stateFlags : StateFlags
  transactionId : Option (BitVec 64)
  vposition : BitVec 32
  /-- Of an entry in a compressed group. -/
  compressedOffset : Option (BitVec 32)
  vsize : BitVec 32
  key : Option Bytes
  deriving DecidableEq, Repr

structure Reading where
  withinTransaction : Bool
  compressed : Bool
  compressedOffset : BitVec 32
  vposition : BitVec 32
  deriving DecidableEq, Repr

variable (completed : BitVec 64 → Bool) (vend : Nat)

/-- readLong, and the ACP check. -/
def readTransactionId (stateFlags : StateFlags) : Reader (Option (BitVec 64)) := fun bytes =>
  if stateFlags.acp then do
    let (transactionId, bytes) ← readLong bytes
    if completed transactionId then return (some transactionId, bytes) else none
  else some (none, bytes)

def openGroup (s : Reading) (stateFlags : StateFlags) : Reader Reading := fun bytes =>
  if stateFlags.opening then
    if stateFlags.compress then do
      let (vposition, bytes) ← readInt bytes
      return (⟨true, true, 0, vposition⟩, bytes)
    else some ({ s with withinTransaction := true, compressed := false }, bytes)
  else some (s, bytes)

def readPosition (s : Reading) : Reader Reading := fun bytes =>
  if s.compressed then some (s, bytes)
  else do
    let (vposition, bytes) ← readInt bytes
    return ({ s with vposition := vposition }, bytes)

def readSize : Reader (BitVec 32) := fun bytes =>
  match map.valueSize with
  | none => readInt bytes
  | some valueSize => some (valueSize, bytes)

/-- The value lies in the value file; sizes are signed here. -/
def valueInFile (s : Reading) (vsize : BitVec 32) : Bool :=
  !(vsize = 0 || (!s.compressed && (s.vposition.toNat : Int) > vend - vsize.toInt))

def readKeyField (stateFlags : StateFlags) : Reader (Option Bytes) := fun bytes =>
  if map.rowStoreMode then some (none, bytes)
  else do
    let (key, bytes) ← readKey map bytes
    if stateFlags.marking || stateFlags.closure then return (none, bytes)
    else if key = none then none
    else return (key, bytes)

/-- Behind an entry: the values of a compressed group are counted on, and the closing entry ends the group. -/
def Reading.past (s : Reading) (stateFlags : StateFlags) (vsize : BitVec 32) : Reading :=
  let s := if s.compressed then { s with compressedOffset := s.compressedOffset + vsize } else s
  if stateFlags.closing then { s with withinTransaction := false, compressed := false } else s

/-- One turn of recoveryRead's loop; none: a break, or the end of the file. A flag byte of 0 outside a group is space that
    was allocated before. -/
def turn (s : Reading) : Bytes → Option (Reading × Option Entry × Bytes)
  | [] => none
  | b :: bytes => do
    let stateFlags := StateFlags.ofByte b
    let (transactionId, bytes) ← readTransactionId completed stateFlags bytes
    if !s.withinTransaction && b = 0 then return (s, none, bytes)
    let (s, bytes) ← openGroup s stateFlags bytes
    let (s, bytes) ← readPosition s bytes
    let (vsize, bytes) ← readSize map bytes
    if valueInFile vend s vsize then
      let (key, bytes) ← readKeyField map stateFlags bytes
      let compressedOffset := if s.compressed then some s.compressedOffset else none
      return (s.past stateFlags vsize, some ⟨stateFlags, transactionId, s.vposition, compressedOffset, vsize, key⟩, bytes)
    else none

/-- The entries, each with how many bytes are left behind it. -/
def recoveryLoop : Nat → Reading → Bytes → List (Entry × Nat)
  | 0, _, _ => []
  | fuel + 1, s, bytes =>
    match turn map completed vend s bytes with
    | none => []
    | some (s, none, rest) => recoveryLoop fuel s rest
    | some (s, some entry, rest) => (entry, rest.length) :: recoveryLoop fuel s rest

/-- Every turn takes a flag byte. -/
def recoveryRead (bytes : Bytes) : List (Entry × Nat) := recoveryLoop map completed vend bytes.length ⟨false, false, 0, 0⟩ bytes

/-! ## What is written -/

/-- What a call has to say, whichever writer it is. -/
structure Written where
  stateFlags : StateFlags
  transactionId : BitVec 64
  compressing : Bool
  /-- The position of the value, or of the group's values if they are compressed. -/
  position : BitVec 32
  size : BitVec 32
  key : Option Bytes
  deriving DecidableEq, Repr

def Call.written : Call → Written
  | .entry key info first next marking cursor rolling compressing transactionId =>
    { stateFlags :=
        { opening := first, compress := first && compressing, destroy := info.deleting, closing := !next && !cursor
          marking := marking, rolling := rolling, acp := transactionId ≠ 0, closure := false }
      transactionId := transactionId, compressing := compressing, position := info.filePosition, size := info.size, key := key }
  | .rollover key info position streamPosition first last compressing marking =>
    { stateFlags :=
        { opening := first, compress := first && compressing, destroy := false, closing := last
          marking := last && marking, rolling := true, acp := false, closure := false }
      transactionId := 0, compressing := compressing, position := if compressing then streamPosition else position
      size := info.size, key := key }
  | .terminate filePosition =>
    { stateFlags :=
        { opening := false, compress := false, destroy := false, closing := false
          marking := false, rolling := false, acp := false, closure := true }
      transactionId := 0, compressing := false, position := filePosition, size := nullSize map, key := none }

/-- The writer puts the position into a plain entry. -/
def Call.positioned : Call → Bool
  | .rollover .. => map.valueSize = none || map.keyProtocol = none
  | _ => true

inductive Group where
  | outside
  | plain
  | compressed (position offset : BitVec 32)
  deriving DecidableEq, Repr

/-- The group an entry is in. -/
def Group.opened (g : Group) (w : Written) : Group :=
  if w.stateFlags.opening then (if w.compressing then .compressed w.position 0 else .plain) else g

/-- The group behind an entry of `g`. -/
def Group.next (g : Group) (w : Written) : Group :=
  if w.stateFlags.closing then .outside
  else
    match g with
    | .compressed position offset => .compressed position (offset + w.size)
    | g => g

/-- A call belongs where it is made: it opens a group, or is of the kind of the group it is in; a file is closed outside of
    groups and in plain ones. A number that is a key has the bytes of its type. -/
def Call.Belongs (g : Group) (c : Call) : Prop :=
  ((c.written map).stateFlags.opening = true ∨
    match g with
    | .outside => (c.written map).stateFlags.closure = true
    | .plain => (c.written map).compressing = false
    | .compressed .. => (c.written map).compressing = true) ∧
  ∀ null ∈ map.nullKey, ∀ key ∈ (c.written map).key, key.length = null.length

def Grouped : Group → List Call → Prop
  | _, [] => True
  | g, c :: cs => c.Belongs map g ∧ Grouped ((g.opened (c.written map)).next (c.written map)) cs

/-- What the reader should find, in the group the entry is in. -/
def Written.entry (w : Written) (g : Group) : Entry where
  stateFlags := w.stateFlags
  transactionId := if w.stateFlags.acp then some w.transactionId else none
  vposition :=
    match g with
    | .compressed position _ => position
    | _ => w.position
  compressedOffset :=
    match g with
    | .compressed _ offset => some offset
    | _ => none
  vsize := w.size
  key := if map.rowStoreMode || w.stateFlags.marking || w.stateFlags.closure then none else w.key

/-- The entries, each with how many bytes were written behind it. -/
def entries : Group → List Call → List (Entry × Nat)
  | _, [] => []
  | g, c :: cs =>
    let opened := g.opened (c.written map)
    ((c.written map).entry map opened, ((writeAll map cs).getD []).length) :: entries (opened.next (c.written map)) cs

/-- The key is written, and the reader passes over it. -/
def KeyWritten (key : Option Bytes) : Prop :=
  match map.nullKey, key, map.keyProtocol with
  | some _, _, _ => True
  | none, none, _ => False
  | none, some key, none => key.length < 2 ^ 15
  | none, some key, some keySize => keySize ≤ key.length

/-- The key is not NULL_VALUE, and as long as the log says. -/
def KeyReadable (key : Option Bytes) : Prop :=
  match map.nullKey, key, map.keyProtocol with
  | _, none, _ => False
  | some null, some key, _ => key ≠ null
  | none, some key, none => key.length < 2 ^ 15
  | none, some key, some keySize => key.length = keySize

/-- The condition on a call. -/
structure Readable (c : Call) : Prop where
  positioned : (c.written map).compressing = false → c.positioned map = true
  size : (c.written map).size ≠ 0
  fixed : ∀ valueSize ∈ map.valueSize, (c.written map).size = valueSize
  inFile : (c.written map).compressing = false → ((c.written map).position.toNat : Int) ≤ vend - (c.written map).size.toInt
  completed : (c.written map).stateFlags.acp = true → completed (c.written map).transactionId = true
  marked : map.rowStoreMode = false → (c.written map).stateFlags.marking = true ∨ (c.written map).stateFlags.closure = true →
    KeyWritten map (c.written map).key
  key : map.rowStoreMode = false → (c.written map).stateFlags.marking = false → (c.written map).stateFlags.closure = false →
    KeyReadable map (c.written map).key

/-! ## As built -/

/-- Keys and values of four bytes. -/
def fixedMap : Map := ⟨some 4, some 4, false, some [255, 255, 255, 255]⟩

/-- A rolled segment of one entry, and the entry of a commit behind it. -/
def rolled : List Call :=
  [.rollover (some [0, 0, 0, 7]) ⟨0, 4, false⟩ 50 50 true true false false,
    .entry (some [0, 0, 0, 8]) ⟨54, 4, false⟩ true false false false false false 0]

theorem rollover_without_position : Grouped fixedMap .outside rolled ∧ ∃ bytes, writeAll fixedMap rolled = some bytes ∧
    bytes.length = 14 ∧ recoveryRead fixedMap (fun _ => true) 58 bytes =
      [(⟨⟨true, true, false, true, false, false, false, false⟩, none, 7, none, 4, some [3, 0, 0, 0]⟩, 5)] ∧
    entries fixedMap .outside rolled =
      [(⟨⟨true, true, false, true, false, false, false, false⟩, none, 50, none, 4, some [0, 0, 0, 7]⟩, 9),
        (⟨⟨true, true, false, false, false, false, false, false⟩, none, 54, none, 4, some [0, 0, 0, 8]⟩, 0)] := by
  refine ⟨?_, _, rfl, ?_, ?_, ?_⟩
  · simp [Grouped, Call.Belongs, Call.written, rolled, fixedMap, Group.next]
  · decide
  · decide
  · decide

/-! ## The layout -/

/-- What all three writers lay out. -/
def Written.layout (w : Written) (positioned : Bool) : Option Bytes := do
  let key ← keyField map w.key
  return w.stateFlags.byte :: ((if w.stateFlags.acp then writeLong w.transactionId else []) ++
    (if (if w.compressing then w.stateFlags.compress else positioned) then writeInt w.position else []) ++ sizeField map w.size ++ key)

variable {map} {c : Call}

theorem bytes_eq (c : Call) : c.bytes map = (c.written map).layout map (c.positioned map) := by
  cases c with
  | entry key info first next marking cursor rolling compressing transactionId =>
    simp only [Call.bytes, writeLrtEntry, Call.written, Written.layout, Call.positioned, ne_eq, decide_not]
    cases compressing <;> by_cases h : transactionId = 0 <;> simp [h]
  | rollover key info position streamPosition first last compressing marking =>
    simp only [Call.bytes, writeRolloverLrtData, Call.written, Written.layout, Call.positioned]
    cases compressing
    · obtain ⟨keyProtocol, valueSize, rowStoreMode, nullKey⟩ := map
      cases valueSize <;> cases keyProtocol <;> simp [sizeField]
    · simp
  | terminate filePosition => simp [Call.bytes, terminateStreaming, Call.written, Written.layout, Call.positioned]

theorem written_compress (c : Call) : (c.written map).stateFlags.compress = ((c.written map).stateFlags.opening && (c.written map).compressing) := by
  cases c <;> simp [Call.written]

theorem readInt_writeInt (v : BitVec 32) (rest : Bytes) : readInt (writeInt v ++ rest) = some (v, rest) := by
  rw [readInt, writeInt, number_encode v.isLt, Option.map_some, BitVec.ofNat_toNat, BitVec.setWidth_eq]

theorem readLong_writeLong (v : BitVec 64) (rest : Bytes) : readLong (writeLong v ++ rest) = some (v, rest) := by
  rw [readLong, writeLong, number_encode v.isLt, Option.map_some, BitVec.ofNat_toNat, BitVec.setWidth_eq]

theorem readInt_some {v : BitVec 32} {bytes rest : Bytes} (h : readInt bytes = some (v, rest)) : bytes.length = 4 + rest.length := by
  obtain ⟨p, hp, heq⟩ := Option.map_eq_some_iff.mp h
  cases heq
  exact (number_some hp).2

/-! ## Keys -/

section Keys

variable {key read : Option Bytes} {bytes rest rest' : Bytes}

/-- A key that is written is passed over, and what is read is the key if it is readable. -/
theorem readKey_writeKey (htyped : ∀ null ∈ map.nullKey, ∀ k ∈ key, k.length = null.length) (h : writeKey map key = some bytes)
    (rest : Bytes) : ∃ read, readKey map (bytes ++ rest) = some (read, rest) ∧ KeyWritten map key ∧
      (read = key ∧ read ≠ none ↔ KeyReadable map key) := by
  unfold writeKey at h
  unfold readKey KeyWritten KeyReadable
  cases hnull : map.nullKey with
  | some null =>
    simp only [hnull] at h
    cases h
    have hlen : (key.getD null).length = null.length := by
      cases key with
      | none => rfl
      | some k => exact htyped null hnull k rfl
    simp only [bind, Option.bind, pure, take_append hlen]
    refine ⟨_, rfl, trivial, ?_⟩
    cases key with
    | none => simp
    | some k => by_cases hk : k = null <;> simp [hk]
  | none =>
    cases key with
    | none =>
      simp only [hnull] at h
      cases h
    | some k =>
      cases hsize : map.keyProtocol with
      | none =>
        simp only [hnull, hsize] at h
        obtain ⟨hlt, hb⟩ := Option.ite_none_right_eq_some.mp h
        cases hb
        have hlt' : k.length < 256 ^ 2 := by omega
        simp only [bind, Option.bind, pure, List.append_assoc, number_encode hlt', hlt, if_true, take_append]
        exact ⟨_, rfl, trivial, by simp⟩
      | some keySize =>
        simp only [hnull, hsize] at h
        obtain ⟨hle, hb⟩ := Option.ite_none_right_eq_some.mp h
        cases hb
        simp only [bind, Option.bind, pure, take_append (List.length_take_of_le hle)]
        refine ⟨_, rfl, hle, ?_⟩
        constructor
        · intro ⟨heq, _⟩
          rw [← Option.some.inj heq]
          exact List.length_take_of_le hle
        · intro hlen
          rw [← hlen, List.take_length]
          exact ⟨rfl, nofun⟩

theorem writeKey_some (h : KeyWritten map key) : ∃ bytes, writeKey map key = some bytes := by
  unfold KeyWritten at h
  unfold writeKey
  cases hnull : map.nullKey with
  | some null => exact ⟨_, rfl⟩
  | none =>
    cases key with
    | none =>
      simp only [hnull] at h
    | some k =>
      cases hsize : map.keyProtocol with
      | none =>
        simp only [hnull, hsize] at h
        exact ⟨_, if_pos h⟩
      | some keySize =>
        simp only [hnull, hsize] at h
        exact ⟨_, if_pos h⟩

theorem KeyReadable.written (h : KeyReadable map key) : KeyWritten map key := by
  unfold KeyReadable at h
  unfold KeyWritten
  cases key with
  | none => exact h.elim
  | some k =>
    cases hnull : map.nullKey with
    | some null => trivial
    | none =>
      cases hsize : map.keyProtocol with
      | none => simpa only [hnull, hsize] using h
      | some keySize =>
        simp only [hnull, hsize] at h
        exact h.ge

end Keys

/-! ## One turn -/

/-- The reader knows the group it is in. -/
def At (g : Group) (s : Reading) : Prop :=
  match g with
  | .outside => s.withinTransaction = false ∧ s.compressed = false
  | .plain => s.withinTransaction = true ∧ s.compressed = false
  | .compressed position offset => s.withinTransaction = true ∧ s.compressed = true ∧ s.vposition = position ∧ s.compressedOffset = offset

section Turn

variable {g : Group} {s : Reading} {w : Written} {bytes rest : Bytes}

/-- The kind of the group is known, or opened here. -/
def Written.Fits (w : Written) (g : Group) : Prop :=
  w.stateFlags.opening = true ∨
    match g with
    | .outside => w.stateFlags.closure = true
    | .plain => w.compressing = false
    | .compressed .. => w.compressing = true

theorem readPosition_plain (hs : s.compressed = false) (v : BitVec 32) (rest : Bytes) :
    readPosition s (writeInt v ++ rest) = some ({ s with vposition := v }, rest) := by
  unfold readPosition
  rw [hs, if_neg Bool.false_ne_true, readInt_writeInt]
  rfl

theorem readPosition_compressed (hs : s.compressed = true) (bytes : Bytes) : readPosition s bytes = some (s, bytes) := if_pos hs

/-- The group and the position of an entry that says where its value is. -/
theorem openGroup_readPosition (hat : At g s) (hclosure : w.stateFlags.closure = true → w.compressing = false) (hfits : w.Fits g)
    (hcompress : w.stateFlags.compress = (w.stateFlags.opening && w.compressing)) (rest : Bytes) : ∃ s1 bytes1 r,
      openGroup s w.stateFlags ((if (if w.compressing then w.stateFlags.compress else true) then writeInt w.position else []) ++ rest) =
        some (s1, bytes1) ∧ readPosition s1 bytes1 = some (r, rest) ∧ At (g.opened w) r ∧ r.vposition = (w.entry map (g.opened w)).vposition ∧
        r.compressed = w.compressing := by
  cases hopening : w.stateFlags.opening with
  | true =>
    have hopened : g.opened w = if w.compressing then .compressed w.position 0 else .plain := if_pos hopening
    rw [hopened]
    cases hcompressing : w.compressing with
    | true =>
      rw [hopening, hcompressing] at hcompress
      refine ⟨⟨true, true, 0, w.position⟩, rest, _, ?_, readPosition_compressed rfl rest, ⟨rfl, rfl, rfl, rfl⟩, rfl, rfl⟩
      simp only [openGroup, hopening, hcompress, Bool.and_true, if_true, bind, Option.bind, readInt_writeInt, pure]
    | false =>
      rw [hopening, hcompressing] at hcompress
      refine ⟨{ s with withinTransaction := true, compressed := false }, writeInt w.position ++ rest, _, ?_,
        readPosition_plain rfl w.position rest, ⟨rfl, rfl⟩, rfl, rfl⟩
      simp [openGroup, hopening, hcompress]
  | false =>
    have hopened : g.opened w = g := if_neg (by simp [hopening])
    have hsame (b : Bytes) : openGroup s w.stateFlags b = some (s, b) := by simp [openGroup, hopening]
    have hfits := hfits.resolve_left (by simp [hopening])
    rw [hopening, Bool.false_and] at hcompress
    rw [hopened, hsame, hcompress]
    cases g with
    | outside =>
      obtain ⟨hwithin, hs⟩ := hat
      have hplain := hclosure hfits
      rw [hplain]
      exact ⟨s, _, _, rfl, readPosition_plain hs w.position rest, ⟨hwithin, hs⟩, rfl, hs⟩
    | plain =>
      obtain ⟨hwithin, hs⟩ := hat
      have hplain : w.compressing = false := hfits
      rw [hplain]
      exact ⟨s, _, _, rfl, readPosition_plain hs w.position rest, ⟨hwithin, hs⟩, rfl, hs⟩
    | compressed position offset =>
      obtain ⟨hwithin, hs, hposition, hoffset⟩ := hat
      have hin : w.compressing = true := hfits
      rw [hin]
      exact ⟨s, _, _, rfl, readPosition_compressed hs rest, ⟨hwithin, hs, hposition, hoffset⟩, hposition, hs⟩

theorem byte_ne_zero (hat : At g s) (hfits : w.Fits g) : (!s.withinTransaction && w.stateFlags.byte = 0) = false := by
  have hzero (h : w.stateFlags.byte = 0) : w.stateFlags.opening = false ∧ w.stateFlags.closure = false := by
    have hflags := StateFlags.ofByte_byte w.stateFlags
    rw [h] at hflags
    rw [← hflags]
    decide
  by_cases hb : w.stateFlags.byte = 0
  · obtain ⟨hopening, hclosure⟩ := hzero hb
    have hfits := hfits.resolve_left (by simp [hopening])
    cases g with
    | outside => exact absurd (hclosure.symm.trans hfits) (by decide)
    | plain => simp [hat.1]
    | compressed => simp [hat.1]
  · simp [hb]

theorem readSize_sizeField (size : BitVec 32) (rest : Bytes) : readSize map (sizeField map size ++ rest) = some (map.valueSize.getD size, rest) := by
  unfold readSize sizeField
  cases map.valueSize with
  | none => exact readInt_writeInt size rest
  | some valueSize => rfl

/-- What the reader makes of an entry that says where its value is. -/
theorem turn_written (hat : At g s) (hclosure : w.stateFlags.closure = true → w.compressing = false) (hfits : w.Fits g)
    (hcompress : w.stateFlags.compress = (w.stateFlags.opening && w.compressing)) (h : w.layout map true = some bytes) (rest : Bytes) :
    ∃ r key, At (g.opened w) r ∧ r.vposition = (w.entry map (g.opened w)).vposition ∧ r.compressed = w.compressing ∧
      keyField map w.key = some key ∧ turn map completed vend s (bytes ++ rest) =
        if w.stateFlags.acp = true ∧ completed w.transactionId = false then none
        else if valueInFile vend r (map.valueSize.getD w.size) then
          (readKeyField map w.stateFlags (key ++ rest)).map fun p =>
            (r.past w.stateFlags (map.valueSize.getD w.size), some ⟨w.stateFlags, if w.stateFlags.acp then some w.transactionId else none,
              r.vposition, if r.compressed then some r.compressedOffset else none, map.valueSize.getD w.size, p.1⟩, p.2)
        else none := by
  obtain ⟨key, hkey, hb⟩ := bind_eq_some_iff.mp h
  cases hb
  obtain ⟨s1, bytes1, r, hopen, hread, hr, hposition, hkind⟩ := @openGroup_readPosition map g s w hat hclosure hfits hcompress
    (sizeField map w.size ++ (key ++ rest))
  refine ⟨r, key, hr, hposition, hkind, hkey, ?_⟩
  have hid (rest : Bytes) : readTransactionId completed w.stateFlags ((if w.stateFlags.acp then writeLong w.transactionId else []) ++ rest) =
      if w.stateFlags.acp = true ∧ completed w.transactionId = false then none
      else some (if w.stateFlags.acp then some w.transactionId else none, rest) := by
    unfold readTransactionId
    cases hacp : w.stateFlags.acp with
    | true =>
      simp only [if_true, bind, Option.bind, readLong_writeLong, pure]
      cases completed w.transactionId <;> rfl
    | false => simp
  simp only [turn, List.cons_append, List.append_assoc, StateFlags.ofByte_byte, hid, bind, Option.bind]
  by_cases hend : w.stateFlags.acp = true ∧ completed w.transactionId = false
  · rw [if_pos hend, if_pos hend]
  · rw [if_neg hend, if_neg hend]
    simp only [byte_ne_zero hat hfits, false_eq_true, if_false, hopen, hread, readSize_sizeField]
    by_cases hvalue : valueInFile vend r (map.valueSize.getD w.size) = true
    · rw [if_pos hvalue, if_pos hvalue]
      cases readKeyField map w.stateFlags (key ++ rest) <;> rfl
    · rw [if_neg hvalue, if_neg hvalue]

theorem past_at (hat : At g s) (w : Written) : At (g.next w) (s.past w.stateFlags w.size) := by
  unfold Reading.past Group.next
  cases hclosing : w.stateFlags.closing with
  | true =>
    simp only [if_true]
    exact ⟨rfl, rfl⟩
  | false =>
    simp only [false_eq_true, if_false]
    cases g with
    | outside =>
      obtain ⟨hwithin, hs⟩ := hat
      simp only [hs, false_eq_true, if_false]
      exact ⟨hwithin, hs⟩
    | plain =>
      obtain ⟨hwithin, hs⟩ := hat
      simp only [hs, false_eq_true, if_false]
      exact ⟨hwithin, hs⟩
    | compressed position offset =>
      obtain ⟨hwithin, hs, hposition, hoffset⟩ := hat
      simp only [hs, if_true]
      exact ⟨hwithin, rfl, hposition, by rw [hoffset]⟩

theorem offset_at (hat : At g s) (w : Written) :
    (if s.compressed then some s.compressedOffset else none) = (w.entry map g).compressedOffset := by
  cases g with
  | outside => simp [hat.2, Written.entry]
  | plain => simp [hat.2, Written.entry]
  | compressed => simp [hat.2.1, hat.2.2.2, Written.entry]

/-- The key's part of the condition, for an entry with these flags. -/
def KeyCondition (map : Map) (stateFlags : StateFlags) (key : Option Bytes) : Prop :=
  map.rowStoreMode = false → (stateFlags.marking = true ∨ stateFlags.closure = true → KeyWritten map key) ∧
    (stateFlags.marking = false → stateFlags.closure = false → KeyReadable map key)

/-- A key that was written is read to its end or not at all, and is found if it meets its condition. -/
theorem readKeyField_keyField {key : Option Bytes} (htyped : ∀ null ∈ map.nullKey, ∀ k ∈ key, k.length = null.length)
    (h : keyField map key = some bytes) (stateFlags : StateFlags) (rest : Bytes) :
    readKeyField map stateFlags (bytes ++ rest) = none ∧ ¬KeyCondition map stateFlags key ∨
      ∃ read, readKeyField map stateFlags (bytes ++ rest) = some (read, rest) ∧
        (read = (if map.rowStoreMode || stateFlags.marking || stateFlags.closure then none else key) ↔ KeyCondition map stateFlags key) := by
  unfold keyField at h
  unfold readKeyField KeyCondition
  cases hrow : map.rowStoreMode with
  | true =>
    simp only [hrow, if_true, Option.some.injEq] at h
    subst h
    exact .inr ⟨none, by simp⟩
  | false =>
    simp only [hrow, false_eq_true, if_false] at h
    obtain ⟨read, hread, hwritten, hreadable⟩ := readKey_writeKey htyped h rest
    simp only [hread, bind, Option.bind, pure, false_eq_true, if_false, true_implies, Bool.false_or]
    by_cases hmark : (stateFlags.marking || stateFlags.closure) = true
    · refine .inr ⟨none, by simp [hmark], ?_⟩
      simp only [hmark, if_true, true_iff]
      refine ⟨fun _ => hwritten, fun hm hc => ?_⟩
      rw [hm, hc] at hmark
      cases hmark
    · have hmark := eq_false_iff.mpr hmark
      obtain ⟨hm, hc⟩ := Bool.or_eq_false_iff.mp hmark
      simp only [hm, hc, false_eq_true, or_self, false_implies, true_implies, true_and, ← hreadable]
      by_cases hnone : read = none
      · exact .inl ⟨if_pos hnone, fun hk => hk.2 hnone⟩
      · exact .inr ⟨read, if_neg hnone, fun heq => ⟨heq, hnone⟩, fun hk => hk.1⟩

end Turn

/-! ## One call -/

section OneCall

variable {g : Group} {s : Reading} {bytes rest : Bytes}

theorem written_closure (c : Call) (h : (c.written map).stateFlags.closure = true) : (c.written map).compressing = false := by
  cases c with
  | entry => cases h
  | rollover => cases h
  | terminate => rfl

/-- A position is left out of a rolled entry only, which has no id, and whose map has keys of fixed size. -/
theorem not_positioned (h : c.positioned map = false) : (c.written map).stateFlags.acp = false ∧
    (∃ valueSize, map.valueSize = some valueSize) ∧ ∃ keySize, map.keyProtocol = some keySize := by
  cases c with
  | entry => cases h
  | rollover =>
    obtain ⟨hv, hk⟩ := Bool.or_eq_false_iff.mp h
    exact ⟨rfl, Option.ne_none_iff_exists'.mp (of_decide_eq_false hv), Option.ne_none_iff_exists'.mp (of_decide_eq_false hk)⟩
  | terminate => cases h

theorem readable_iff (c : Call) : Readable map completed vend c ↔ ((c.written map).compressing = false → c.positioned map = true) ∧
    ((c.written map).stateFlags.acp = true → completed (c.written map).transactionId = true) ∧
    map.valueSize.getD (c.written map).size = (c.written map).size ∧ (c.written map).size ≠ 0 ∧
    ((c.written map).compressing = false → ((c.written map).position.toNat : Int) ≤ vend - (c.written map).size.toInt) ∧
    KeyCondition map (c.written map).stateFlags (c.written map).key := by
  have hfixed : map.valueSize.getD (c.written map).size = (c.written map).size ↔
      ∀ valueSize ∈ map.valueSize, (c.written map).size = valueSize := by
    cases map.valueSize <;> simp [eq_comm]
  rw [hfixed]
  constructor
  · intro ⟨h1, h2, h3, h4, h5, h6, h7⟩
    exact ⟨h1, h5, h3, h2, h4, fun hrow => ⟨h6 hrow, h7 hrow⟩⟩
  · intro ⟨h1, h5, h3, h2, h4, hkey⟩
    exact ⟨h1, h2, h3, h4, h5, fun hrow => (hkey hrow).1, fun hrow => (hkey hrow).2⟩

theorem valueInFile_iff {r : Reading} {size : BitVec 32} : valueInFile vend r size = true ↔
    size ≠ 0 ∧ (r.compressed = false → (r.vposition.toNat : Int) ≤ vend - size.toInt) := by
  unfold valueInFile
  cases r.compressed <;> simp

/-- An entry that says where its value is, is found as it was written exactly if it meets its condition. -/
theorem turn_positioned (hat : At g s) (hbelongs : c.Belongs map g) (hpositioned : (c.written map).compressing = false → c.positioned map = true)
    (h : c.bytes map = some bytes) (rest : Bytes) :
    turn map completed vend s (bytes ++ rest) = none ∧ ¬Readable map completed vend c ∨
      ∃ s' e, turn map completed vend s (bytes ++ rest) = some (s', some e, rest) ∧
        (e = (c.written map).entry map (g.opened (c.written map)) ↔ Readable map completed vend c) ∧
        (Readable map completed vend c → At ((g.opened (c.written map)).next (c.written map)) s') := by
  have hlayout : (c.written map).layout map true = some bytes := by
    rw [← h, bytes_eq]
    unfold Written.layout
    cases hcompressing : (c.written map).compressing with
    | true => rfl
    | false => rw [hpositioned hcompressing]
  obtain ⟨r, key, hr, hposition, hkind, hkey, hturn⟩ := turn_written completed vend hat (written_closure c) hbelongs.1
    (written_compress c) hlayout rest
  rw [hturn, readable_iff]
  by_cases hend : (c.written map).stateFlags.acp = true ∧ completed (c.written map).transactionId = false
  · rw [if_pos hend]
    refine .inl ⟨rfl, fun hreadable => ?_⟩
    rw [hreadable.2.1 hend.1] at hend
    cases hend.2
  have hcompleted : (c.written map).stateFlags.acp = true → completed (c.written map).transactionId = true := by
    intro hacp
    by_contra hc
    exact hend ⟨hacp, eq_false_iff.mpr hc⟩
  have hplain (hc : (c.written map).compressing = false) : r.vposition = (c.written map).position := by
    rw [hposition]
    cases hopened : g.opened (c.written map) with
    | compressed position offset =>
      rw [hopened] at hr
      rw [hr.2.1, hc] at hkind
      cases hkind
    | outside => rfl
    | plain => rfl
  rw [if_neg hend]
  by_cases hvalue : valueInFile vend r (map.valueSize.getD (c.written map).size) = true
  · rw [if_pos hvalue]
    obtain ⟨hsize, hfile⟩ := (valueInFile_iff vend).mp hvalue
    rcases readKeyField_keyField hbelongs.2 hkey (c.written map).stateFlags rest with ⟨hnone, hnot⟩ | ⟨read, hread, hiff⟩
    · rw [hnone]
      exact .inl ⟨rfl, fun hreadable => hnot hreadable.2.2.2.2.2⟩
    · rw [hread]
      have hoffset : (if r.compressed then some r.compressedOffset else none) =
          ((c.written map).entry map (g.opened (c.written map))).compressedOffset := offset_at hr _
      refine .inr ⟨_, _, rfl, ?_, ?_⟩
      · rw [hoffset, hposition]
        constructor
        · intro heq
          have hsame : map.valueSize.getD (c.written map).size = (c.written map).size := congrArg Entry.vsize heq
          rw [hsame] at hsize hfile
          refine ⟨hpositioned, hcompleted, hsame, hsize, fun hc => ?_, hiff.mp (congrArg Entry.key heq)⟩
          rw [← hplain hc]
          exact hfile (hkind.trans hc)
        · intro ⟨_, _, hsame, _, _, hcondition⟩
          rw [hsame, hiff.mpr hcondition]
          rfl
      · intro hreadable
        rw [hreadable.2.2.1]
        exact past_at hr _
  · rw [if_neg hvalue]
    refine .inl ⟨rfl, fun hreadable => hvalue ?_⟩
    obtain ⟨_, _, hsame, hsize, hfile, _⟩ := hreadable
    rw [hsame]
    refine (valueInFile_iff vend).mpr ⟨hsize, fun hc => ?_⟩
    have hc' := hkind.symm.trans hc
    rw [hplain hc']
    exact hfile hc'

/-- A key of fixed size takes as many bytes as were written for it. -/
theorem length_readKeyField {stateFlags : StateFlags} {key read : Option Bytes} {keySize : Nat} {b : Bytes} (hsize : map.keyProtocol = some keySize)
    (htyped : ∀ null ∈ map.nullKey, ∀ k ∈ key, k.length = null.length) (hkey : keyField map key = some bytes)
    (h : readKeyField map stateFlags b = some (read, rest)) : b.length = bytes.length + rest.length := by
  unfold readKeyField at h
  unfold keyField at hkey
  cases hrow : map.rowStoreMode with
  | true =>
    simp only [hrow, if_true, Option.some.injEq] at h hkey
    cases h
    rw [← hkey]
    exact (Nat.zero_add _).symm
  | false =>
    simp only [hrow, false_eq_true, if_false] at h hkey
    obtain ⟨⟨k, b'⟩, hread, htail⟩ := bind_eq_some_iff.mp h
    have hsame : b' = rest := by
      simp only at htail
      split at htail
      · cases htail
        rfl
      · split at htail
        · cases htail
        · cases htail
          rfl
    rw [← hsame]
    unfold readKey at hread
    unfold writeKey at hkey
    cases hnull : map.nullKey with
    | some null =>
      simp only [hnull] at hread hkey
      obtain ⟨⟨a, b''⟩, htake, hpair⟩ := bind_eq_some_iff.mp hread
      cases hpair
      cases hkey
      obtain ⟨hlen, rfl⟩ := take_some htake
      have hwidth : (key.getD null).length = null.length := by
        cases key with
        | none => rfl
        | some k => exact htyped null hnull k rfl
      rw [List.length_append, hlen, hwidth]
    | none =>
      cases key with
      | none =>
        simp only [hnull] at hkey
        cases hkey
      | some key =>
        simp only [hnull, hsize] at hread hkey
        obtain ⟨⟨a, b''⟩, htake, hpair⟩ := bind_eq_some_iff.mp hread
        cases hpair
        obtain ⟨hle, hbytes⟩ := Option.ite_none_right_eq_some.mp hkey
        cases hbytes
        obtain ⟨hlen, rfl⟩ := take_some htake
        rw [List.length_append, hlen, List.length_take_of_le hle]

/-- Where the position was left out the reader takes four bytes too many, if it does not stop. -/
theorem turn_unpositioned (hat : At g s) (hbelongs : c.Belongs map g) (hcompressing : (c.written map).compressing = false)
    (hpositioned : c.positioned map = false) (h : c.bytes map = some bytes) (rest : Bytes) :
    turn map completed vend s (bytes ++ rest) = none ∨
      ∃ s' e rest', turn map completed vend s (bytes ++ rest) = some (s', some e, rest') ∧ rest'.length ≠ rest.length := by
  obtain ⟨hacp, ⟨valueSize, hvalue⟩, keySize, hsize⟩ := not_positioned hpositioned
  have hcompress : (c.written map).stateFlags.compress = false := by
    rw [written_compress, hcompressing, Bool.and_false]
  rw [bytes_eq] at h
  obtain ⟨key, hkey, hb⟩ := bind_eq_some_iff.mp h
  rw [hpositioned, hcompressing, hacp] at hb
  simp only [false_eq_true, if_false, List.nil_append, sizeField, hvalue, reduceCtorEq] at hb
  cases hb
  have hid (b : Bytes) : readTransactionId completed (c.written map).stateFlags b = some (none, b) := by simp [readTransactionId, hacp]
  obtain ⟨s1, hopen, hs1⟩ : ∃ s1, (∀ b, openGroup s (c.written map).stateFlags b = some (s1, b)) ∧ s1.compressed = false := by
    cases hopening : (c.written map).stateFlags.opening with
    | true => exact ⟨{ s with withinTransaction := true, compressed := false }, fun b => by simp [openGroup, hopening, hcompress], rfl⟩
    | false =>
      refine ⟨s, fun b => by simp [openGroup, hopening], ?_⟩
      have hfits := hbelongs.1.resolve_left (by simp [hopening])
      cases g with
      | outside => exact hat.2
      | plain => exact hat.2
      | compressed => exact absurd (hcompressing.symm.trans hfits) (by decide)
  have hread : readPosition s1 (key ++ rest) = (readInt (key ++ rest)).map fun p => ({ s1 with vposition := p.1 }, p.2) := by
    unfold readPosition
    rw [hs1, if_neg Bool.false_ne_true]
    cases readInt (key ++ rest) <;> rfl
  simp only [turn, List.cons_append, StateFlags.ofByte_byte, hid, bind, Option.bind, byte_ne_zero hat hbelongs.1, false_eq_true,
    if_false, hopen, hread]
  cases hint : readInt (key ++ rest) with
  | none => exact .inl rfl
  | some p =>
    have hlen := readInt_some hint
    simp only [Option.map_some, readSize, hvalue]
    split
    · cases hfield : readKeyField map (c.written map).stateFlags p.2 with
      | none => exact .inl rfl
      | some q =>
        refine .inr ⟨_, _, _, rfl, ?_⟩
        have htaken := length_readKeyField hsize hbelongs.2 hkey hfield
        rw [List.length_append] at hlen
        omega
    · exact .inl rfl

end OneCall

/-! ## The log -/

theorem writes_of_readable (h : Readable map completed vend c) : ∃ bytes, c.bytes map = some bytes := by
  have hkey : ∃ bytes, keyField map (c.written map).key = some bytes := by
    unfold keyField
    cases hrow : map.rowStoreMode with
    | true => exact ⟨[], rfl⟩
    | false =>
      refine writeKey_some ?_
      by_cases hmark : (c.written map).stateFlags.marking = true ∨ (c.written map).stateFlags.closure = true
      · exact h.marked hrow hmark
      · obtain ⟨hm, hc⟩ := not_or.mp hmark
        exact (h.key hrow (eq_false_iff.mpr hm) (eq_false_iff.mpr hc)).written
  obtain ⟨key, hkey⟩ := hkey
  rw [bytes_eq]
  unfold Written.layout
  rw [hkey]
  exact ⟨_, rfl⟩

/-- The reader finds the entries of the calls from any group on, exactly if all meet their condition. -/
theorem loop_iff {g : Group} {s : Reading} {calls : List Call} {bytes : Bytes} {fuel : Nat} (hat : At g s) (hgrouped : Grouped map g calls)
    (h : writeAll map calls = some bytes) (hfuel : bytes.length ≤ fuel) :
    recoveryLoop map completed vend fuel s bytes = entries map g calls ↔ ∀ c ∈ calls, Readable map completed vend c := by
  induction calls generalizing g s bytes fuel with
  | nil =>
    cases h
    refine iff_of_true ?_ nofun
    cases fuel <;> rfl
  | cons c cs ih =>
    obtain ⟨first, hfirst, h⟩ := bind_eq_some_iff.mp h
    obtain ⟨rest, hrest, h⟩ := bind_eq_some_iff.mp h
    cases h
    obtain ⟨hbelongs, hgrouped⟩ := hgrouped
    have hpos : 0 < first.length := by
      have hb := hfirst
      rw [bytes_eq] at hb
      obtain ⟨key, -, hb⟩ := bind_eq_some_iff.mp hb
      cases hb
      exact Nat.succ_pos _
    obtain ⟨fuel, rfl⟩ : ∃ n, fuel = n + 1 := by
      rw [List.length_append] at hfuel
      exact ⟨fuel - 1, by omega⟩
    rw [entries, hrest, Option.getD_some, recoveryLoop, List.forall_mem_cons]
    by_cases hpositioned : (c.written map).compressing = false → c.positioned map = true
    · rcases turn_positioned completed vend hat hbelongs hpositioned hfirst rest with ⟨hnone, hnot⟩ | ⟨s', e, hturn, hentry, hnext⟩
      · rw [hnone]
        exact iff_of_false nofun fun hall => hnot hall.1
      · rw [hturn]
        simp only [List.cons.injEq, Prod.mk.injEq, and_true, hentry]
        refine and_congr_right fun hreadable => ih (hnext hreadable) hgrouped hrest ?_
        rw [List.length_append] at hfuel
        omega
    · obtain ⟨hcompressing, hp⟩ := Classical.not_imp.mp hpositioned
      have hnot : ¬(Readable map completed vend c ∧ ∀ x ∈ cs, Readable map completed vend x) := fun hall => hpositioned hall.1.positioned
      rcases turn_unpositioned completed vend hat hbelongs hcompressing (eq_false_iff.mpr hp) hfirst rest with
        hnone | ⟨s', e, rest', hturn, hlen⟩
      · rw [hnone]
        exact iff_of_false nofun hnot
      · rw [hturn]
        refine iff_of_false (fun heq => ?_) hnot
        simp only [List.cons.injEq, Prod.mk.injEq] at heq
        exact hlen heq.1.2

/-- A log is written and read back, entry by entry and each to its last byte, exactly if all its entries are readable. -/
theorem log_iff (map : Map) (completed : BitVec 64 → Bool) (vend : Nat) {calls : List Call} (h : Grouped map .outside calls) :
    (∃ bytes, writeAll map calls = some bytes ∧ recoveryRead map completed vend bytes = entries map .outside calls) ↔
      ∀ c ∈ calls, Readable map completed vend c := by
  have hat : At .outside ⟨false, false, 0, 0⟩ := ⟨rfl, rfl⟩
  constructor
  · intro ⟨bytes, hbytes, hread⟩
    exact (loop_iff completed vend hat h hbytes (Nat.le_refl _)).mp hread
  · intro hall
    have hwrites : ∃ bytes, writeAll map calls = some bytes := by
      clear h
      induction calls with
      | nil => exact ⟨[], rfl⟩
      | cons c cs ih =>
        obtain ⟨hc, hcs⟩ := List.forall_mem_cons.mp hall
        obtain ⟨first, hfirst⟩ := writes_of_readable completed vend hc
        obtain ⟨rest, hrest⟩ := ih hcs
        exact ⟨first ++ rest, by rw [writeAll, hfirst, hrest]; rfl⟩
    obtain ⟨bytes, hbytes⟩ := hwrites
    exact ⟨bytes, hbytes, (loop_iff completed vend hat h hbytes (Nat.le_refl _)).mpr hall⟩

/-- Keys and values of any size. -/
def variableMap : Map := ⟨none, none, false, none⟩

/-- A compressed group of two entries, a plain one of a transaction over several tables. -/
def committed : List Call :=
  [.entry (some [1]) ⟨50, 3, false⟩ true true false false true true 0,
    .entry (some [1, 2]) ⟨50, 5, false⟩ false false false false true true 0,
    .entry (some [2]) ⟨80, 1, true⟩ true false false false false false 9]

theorem committed_read : ∃ bytes, writeAll variableMap committed = some bytes ∧
    recoveryRead variableMap (fun _ => true) 81 bytes = entries variableMap .outside committed := by
  refine (log_iff variableMap (fun _ => true) 81 ?_).mpr ?_
  · simp [Grouped, Call.Belongs, Call.written, committed, variableMap, Group.opened, Group.next]
  · intro c hc
    rw [readable_iff]
    simp only [committed, List.mem_cons, List.not_mem_nil, or_false] at hc
    rcases hc with rfl | rfl | rfl <;> simp [Call.written, KeyCondition, KeyWritten, KeyReadable, variableMap, Call.positioned]

end DeepFabric.Store.LogEntry
