/-
  DeepFabric.Wire.MsgBundle — several messages carried as one field of another
  (cxx/io/MsgBundle.h: writer and reader).

  Messages are laid one behind the other into a buffer of fixed size: written there by a writer
  reserved for it, or copied from a writer of its own. Closing the bundle puts a message header
  and the header of a BUNDLE field in front of them. Nothing says where a message ends but its own
  payload length, which the reader takes to find the next one.

  As built: `empty_bundle_lost`, a bundle closed with no message in it is not decoded.
-/
import DeepFabric.Wire.Decoding

namespace DeepFabric.Wire

open List
open BitVec (le_def not_lt ofNat ofNat_add toNat_add toNat_ofNat toNat_sub_of_le)
open Prod (fst snd)

/-- writer(piBuffer, iBufferLen, iPayloadLen, iMsgId), around the buffer of someone else. -/
def Writer.around (iBufferLen iPayloadLen iMsgId : BitVec 32) : Writer :=
  ((((⟨[], 0, iBufferLen, iBufferLen, 0⟩ : Writer).put (writeFixed32 deepMagic)).put (writeFixed32 version)).put
    (writeFixed32 iMsgId)).put (writeFixed32 iPayloadLen)

namespace MsgBundle

/-- What ends a call other than a return. -/
inductive Stop where
  /-- A MsgBundleException. -/
  | exception (message : String)
  | fault (f : Fault)
  deriving DecidableEq, Repr

def lift {α : Type} : Except Fault α → Except Stop α
  | .ok a => .ok a
  | .error f => .error (.fault f)

def bundleSize : BitVec 32 := 4096 <<< 2
def bundlePreamble : BitVec 32 := headerSize + fieldHdrSize

/-! ## The writer -/

structure Writer where
  /-- BUNDLE_SIZE bytes, or null once they have been handed over. -/
  buffer : Option Bytes
  bufferLen : BitVec 32
  written : BitVec 32

/-- The constructor; `mem` is what the new buffer holds. -/
def Writer.create (mem : Bytes) : Writer := ⟨some mem, bundleSize, bundlePreamble⟩

/-- `open`. -/
def Writer.reopen (b : Writer) (mem : Bytes) : Writer := ⟨some (b.buffer.getD mem), bundleSize, bundlePreamble⟩

/-- Bytes written into memory from `pos` on. -/
def store (mem : Bytes) (pos : Nat) (bytes : Bytes) : Bytes := mem.take pos ++ bytes ++ mem.drop (pos + bytes.length)

def Writer.reserve (b : Writer) (iBufferLen iMsgId : BitVec 32) : Except Stop Wire.Writer :=
  let iReserve := iBufferLen + headerSize
  if b.bufferLen - b.written < iReserve then .error (.exception "Reservation exceeds remaining buffer size.")
  else if b.buffer = none ∧ b.written = 0 then .error (.exception "Internal buffer error.")
  else if headerSize > iReserve then .error (.fault .abort)
  else if b.buffer = none then .error (.fault .overrun)
  else .ok (.around iReserve iBufferLen iMsgId)

def Writer.append (b : Writer) (pcMsg : Wire.Writer) : Except Stop (Int × Writer) :=
  if b.bufferLen - b.written < pcMsg.iWritten then .error (.exception "Reservation exceeds remaining buffer size.")
  else match b.buffer with
    | none => .error (if b.written = 0 then .exception "Internal buffer error." else .fault .overrun)
    | some mem => do
      let bytes ← lift (copy pcMsg.written pcMsg.iWritten)
      return (0, { b with buffer := some (store mem b.written.toNat bytes), written := b.written + pcMsg.iWritten })

/-- What a reserved writer wrote is in the bundle's buffer from then on; here it gets there. -/
def Writer.finalizeReservation (b : Writer) (pcWriter : Wire.Writer) : Except Stop (Int × Writer) :=
  let iWritten := b.written + pcWriter.iWritten
  if iWritten > b.bufferLen then .error (.exception "Finalize operation caused buffer overrun.")
  else .ok (0, { b with
    buffer := b.buffer.map fun mem => store mem b.written.toNat pcWriter.written
    written := iWritten })

/-- `close`: the status, and the message in the writer that it makes around the buffer. -/
def Writer.close (b : Writer) (iMsgId : BitVec 32) : Except Stop (Int × Bytes × Writer) :=
  if b.written > b.bufferLen then .error (.exception "Mutable buffer error discovered.")
  else if b.written = 0 then .ok (-1, [], b)
  else if headerSize > b.written then .error (.exception "Written length is incorrect.")
  else
    let iPayloadLen := b.written - headerSize
    match b.buffer with
    | none => .error (.fault .overrun)
    | some mem =>
      if headerSize > b.bufferLen then .error (.fault .abort)
      else do
        let shim := (Wire.Writer.around b.bufferLen iPayloadLen iMsgId).written
          ++ writeFixed32 (makeHeader FieldType.bundle.code fieldBundleId)
        let bytes ← lift (copy (store mem 0 shim) (headerSize + iPayloadLen))
        return (0, bytes, { b with buffer := none, bufferLen := 0 })

/-! ## The reader -/

structure Reader where
  piPos : Bytes
  iSize : BitVec 32

def Reader.getNextMsg (b : Reader) : Except Stop (Option (Wire.Reader × Reader)) :=
  if b.iSize = 0 then .ok none
  else do
    let (status, r) ← lift (decodeFields { Wire.Reader.create b.piPos with bufferLen := b.iSize, copyAll := true })
    if status ≠ 0 then throw (.exception "Unable to decode the message.")
    let iSize := r.bufferLen
    if iSize > b.iSize then throw (.exception "Bad Message payload length decoded.")
    return some (r, ⟨b.piPos.drop iSize.toNat, b.iSize - iSize⟩)

/-- getNextMsg called until it gives null. -/
inductive Reader.Reads : Reader → List Wire.Reader → Prop
  | null {b : Reader} : b.getNextMsg = .ok none → Reads b []
  | next {b b' : Reader} {r : Wire.Reader} {rs : List Wire.Reader} :
      b.getNextMsg = .ok (some (r, b')) → Reads b' rs → Reads b (r :: rs)

/-! ## Messages -/

inductive Way where
  | reserved
  | appended
  deriving DecidableEq, Repr

/-- A message and the way it gets into the bundle. -/
structure Msg where
  way : Way
  msgId : BitVec 32
  flags : BitVec 32
  fields : List (BitVec 32 × Field)

namespace Msg

variable (m : Msg)

/-- The setters one after the other, then the flags, and what they return. -/
def write (w : Wire.Writer) : Except Stop (List Int × Wire.Writer) := do
  let (rets, w) := writeAll w (m.fields.map fun p => p.2.set p.1)
  let (ret, w) ← lift (setFlags m.flags w)
  return (rets ++ [ret], w)

def bytes : Bytes :=
  messageHeader (version ||| (version ||| m.flags)) m.msgId (sizeAll m.fields) ++ encodeAll m.fields

/-- A reader gives the message back: its id, its flags, every field and nothing else. -/
structure ReadAs (r : Wire.Reader) : Prop where
  msgId : r.msgId = m.msgId
  flags : r.flags = m.flags &&& 0x0000ff00
  fields : ∀ p ∈ m.fields, p.2.Got r p.1
  others : ∀ id, id < fieldMax → id ∉ m.fields.map fst → ∀ t s, (t, s) ∈ statuses r id → s = .ok (-2)

end Msg

def Writer.add (b : Writer) (m : Msg) : Except Stop (List Int × Writer) :=
  match m.way with
  | .reserved => do
    let w ← b.reserve (sizeAll m.fields) m.msgId
    let (rets, w) ← m.write w
    let (ret, b) ← b.finalizeReservation w
    return (rets ++ [ret], b)
  | .appended => do
    let (rets, w) ← m.write (.create (sizeAll m.fields) m.msgId)
    let (ret, b) ← b.append w
    return (rets ++ [ret], b)

def Writer.addAll (b : Writer) : List Msg → Except Stop (List Int × Writer)
  | [] => .ok ([], b)
  | m :: ms => do
    let (rets, b) ← b.add m
    let (rets', b) ← b.addAll ms
    return (rets ++ rets', b)

/-- Messages are added, the bundle is closed, decoded and iterated, and they come out again. -/
def RoundTrips (b : Writer) (ms : List Msg) (msgId : BitVec 32) : Prop :=
  ∃ rets b' bytes closed r p n rs, b.addAll ms = .ok (rets, b') ∧ (∀ ret ∈ rets, ret = 0) ∧
    b'.close msgId = .ok (0, bytes, closed) ∧ decodeFields (.create bytes) = .ok (0, r) ∧ r.msgId = msgId ∧
    getBundleBuffer r [] 0 = (0, p, n) ∧ Reader.Reads ⟨p, n⟩ rs ∧ List.Forall₂ Msg.ReadAs ms rs

/-! ## Writing -/

variable {m : Msg}

theorem Msg.write_ok (hid : ∀ p ∈ m.fields, p.1 < fieldMax) (h : (encodeAll m.fields).length + 16 < 2 ^ 32) :
    ∃ rets w, m.write (.create (sizeAll m.fields) m.msgId) = .ok (rets, w) ∧ (∀ ret ∈ rets, ret = 0) ∧ w.Ok ∧ w.written = m.bytes := by
  have hsize := sizeAll_toNat m.fields (by omega)
  obtain ⟨hok, hact, hleft, hwr⟩ := create_ok (sizeAll m.fields) m.msgId (by omega)
  obtain ⟨w, hall, hokw, hwritten, -⟩ := writeAll_ok m.fields hid hok (by rw [hleft]; omega)
  obtain ⟨w', hset, hokw', -, -, hwritten'⟩ := setFlags_ok hokw (hwritten.trans (congrArg (· ++ encodeAll m.fields) hwr)) m.flags
  refine ⟨(m.fields.map fun _ => 0) ++ [0], w', ?_, ?_, hokw', hwritten'⟩
  · rw [Msg.write, hall]
    simp only [hset, lift, bind, Except.bind, pure, Except.pure]
  · intro ret hret
    rcases mem_append.mp hret with hret | hret
    · obtain ⟨p, -, rfl⟩ := mem_map.mp hret
      rfl
    · exact mem_singleton.mp hret

theorem Msg.length_bytes (m : Msg) : m.bytes.length = 16 + (encodeAll m.fields).length := by
  rw [Msg.bytes, length_append]
  rfl

/-- A bundle whose buffer holds `pre` up to m_iWritten. -/
structure Holds (b : Writer) (pre : Bytes) : Prop where
  buffer : ∃ rest, b.buffer = some (pre ++ rest) ∧ pre.length + rest.length = bundleSize.toNat
  bufferLen : b.bufferLen = bundleSize
  written : b.written = ofNat 32 pre.length

theorem toNat_bundleSize : bundleSize.toNat = 16384 := rfl

variable {b : Writer} {pre : Bytes}

theorem Holds.toNat_written (hb : Holds b pre) : b.written.toNat = pre.length ∧ pre.length ≤ 16384 := by
  obtain ⟨rest, -, hlen⟩ := hb.buffer
  rw [toNat_bundleSize] at hlen
  rw [hb.written, toNat_ofNat]
  exact ⟨Nat.mod_eq_of_lt (by omega), by omega⟩

theorem Holds.remain (hb : Holds b pre) : (b.bufferLen - b.written).toNat = 16384 - pre.length := by
  obtain ⟨hw, hle⟩ := hb.toNat_written
  rw [hb.bufferLen, toNat_sub_of_le (by rw [le_def, hw, toNat_bundleSize]; exact hle), hw, toNat_bundleSize]

theorem Holds.store (hb : Holds b pre) (bytes : Bytes) (h : pre.length + bytes.length ≤ 16384) :
    Holds { b with
      buffer := b.buffer.map fun mem => MsgBundle.store mem b.written.toNat bytes
      written := b.written + ofNat 32 bytes.length } (pre ++ bytes) := by
  obtain ⟨rest, hbuf, hlen⟩ := hb.buffer
  obtain ⟨hw, -⟩ := hb.toNat_written
  rw [toNat_bundleSize] at hlen
  refine ⟨⟨rest.drop bytes.length, ?_, ?_⟩, hb.bufferLen, ?_⟩
  · show b.buffer.map (fun mem => MsgBundle.store mem b.written.toNat bytes) = _
    rw [hbuf, hw, Option.map_some, MsgBundle.store, take_left, ← drop_drop, drop_left]
  · rw [length_append, length_drop, toNat_bundleSize]
    omega
  · show b.written + ofNat 32 bytes.length = _
    rw [hb.written, length_append, ofNat_add]

/-- An open bundle gives a writer for what passes the check and has room for a header. -/
theorem Writer.reserve_open {mem : Bytes} (hbuf : b.buffer = some mem) {iBufferLen : BitVec 32}
    (hroom : ¬b.bufferLen - b.written < iBufferLen + headerSize) (hheader : ¬headerSize > iBufferLen + headerSize) (iMsgId : BitVec 32) :
    b.reserve iBufferLen iMsgId = .ok (.around (iBufferLen + headerSize) iBufferLen iMsgId) := by
  have hopen : b.buffer ≠ none := by
    rw [hbuf]
    exact Option.some_ne_none mem
  simp only [Writer.reserve]
  rw [if_neg hroom, if_neg fun h => hopen h.1, if_neg hheader, if_neg hopen]

theorem Writer.append_open {mem : Bytes} (hbuf : b.buffer = some mem) {pcMsg : Wire.Writer}
    (hroom : ¬b.bufferLen - b.written < pcMsg.iWritten) {bytes : Bytes} (hcopy : copy pcMsg.written pcMsg.iWritten = .ok bytes) :
    b.append pcMsg = .ok (0, { b with
      buffer := some (MsgBundle.store mem b.written.toNat bytes)
      written := b.written + pcMsg.iWritten }) := by
  rw [Writer.append, if_neg hroom, hbuf, hcopy]
  rfl

theorem Writer.add_ok (hb : Holds b pre) (hid : ∀ p ∈ m.fields, p.1 < fieldMax)
    (hroom : pre.length + m.bytes.length ≤ 16384) :
    ∃ rets b', b.add m = .ok (rets, b') ∧ (∀ ret ∈ rets, ret = 0) ∧ Holds b' (pre ++ m.bytes) := by
  obtain ⟨hw, hle⟩ := hb.toNat_written
  have hremain := hb.remain
  have hbytes := m.length_bytes
  obtain ⟨rets, w, hwrite, hzero, hok, hwritten⟩ := m.write_ok hid (by omega)
  have hiw : w.iWritten = ofNat 32 m.bytes.length := by
    rw [← hwritten, ← hok.iWritten, BitVec.ofNat_toNat, BitVec.setWidth_eq]
  have hn : (ofNat 32 m.bytes.length).toNat = m.bytes.length := Nat.mod_eq_of_lt (by omega)
  have hstored := hb.store m.bytes hroom
  obtain ⟨rest, hbuf, -⟩ := hb.buffer
  have hzeros : ∀ ret ∈ rets ++ [0], ret = 0 := by
    intro ret hret
    rcases mem_append.mp hret with hret | hret
    · exact hzero ret hret
    · exact mem_singleton.mp hret
  rw [Writer.add]
  cases m.way with
  | reserved =>
    have hsize := sizeAll_toNat m.fields (by omega)
    have hreserve : (sizeAll m.fields + headerSize).toNat = (encodeAll m.fields).length + 16 := by
      rw [toNat_add, hsize]
      exact Nat.mod_eq_of_lt (by rw [show headerSize.toNat = 16 from rfl]; omega)
    have hres : b.reserve (sizeAll m.fields) m.msgId = .ok (.create (sizeAll m.fields) m.msgId) := by
      have h16 : headerSize.toNat = 16 := rfl
      exact Writer.reserve_open hbuf (by rw [not_lt, le_def]; omega) (by rw [gt_iff_lt, not_lt, le_def]; omega) m.msgId
    have hfin : b.finalizeReservation w = .ok (0, { b with
        buffer := b.buffer.map fun mem => MsgBundle.store mem b.written.toNat m.bytes
        written := b.written + ofNat 32 m.bytes.length }) := by
      have hsum : (b.written + w.iWritten).toNat = pre.length + m.bytes.length := by
        rw [toNat_add, hiw, hn, hw]
        exact Nat.mod_eq_of_lt (by omega)
      rw [Writer.finalizeReservation, if_neg (by rw [gt_iff_lt, not_lt, le_def, hsum, hb.bufferLen, toNat_bundleSize]; exact hroom),
        hwritten, hiw]
    refine ⟨rets ++ [0], _, ?_, hzeros, hstored⟩
    simp only [hres, hwrite, hfin, bind, Except.bind, pure, Except.pure]
  | appended =>
    have happ : b.append w = .ok (0, { b with
        buffer := b.buffer.map fun mem => MsgBundle.store mem b.written.toNat m.bytes
        written := b.written + ofNat 32 m.bytes.length }) := by
      have hcopy : copy w.written w.iWritten = .ok m.bytes := by
        have := @copy_append m.bytes [] (by omega)
        rw [append_nil] at this
        rw [hwritten, hiw, this]
      rw [Writer.append_open hbuf (by rw [not_lt, le_def, hiw, hn, hremain]; omega) hcopy, hbuf, hiw]
      rfl
    refine ⟨rets ++ [0], _, ?_, hzeros, hstored⟩
    simp only [hwrite, happ, bind, Except.bind, pure, Except.pure]

/-- The messages as they lie in the bundle. -/
def bytesAll (ms : List Msg) : Bytes := ms.flatMap Msg.bytes

variable {ms : List Msg}

theorem Writer.addAll_ok (hid : ∀ m ∈ ms, ∀ p ∈ m.fields, p.1 < fieldMax) (hb : Holds b pre)
    (hroom : pre.length + (bytesAll ms).length ≤ 16384) :
    ∃ rets b', b.addAll ms = .ok (rets, b') ∧ (∀ ret ∈ rets, ret = 0) ∧ Holds b' (pre ++ bytesAll ms) := by
  induction ms generalizing b pre with
  | nil => exact ⟨[], b, rfl, fun ret h => absurd h not_mem_nil, by rw [bytesAll, flatMap_nil, append_nil]; exact hb⟩
  | cons m ms ih =>
    have hcons : bytesAll (m :: ms) = m.bytes ++ bytesAll ms := flatMap_cons
    rw [hcons, length_append] at hroom
    obtain ⟨rets, b₁, hadd, hzero, hb₁⟩ := Writer.add_ok hb (hid m mem_cons_self) (by omega)
    obtain ⟨rets', b₂, hall, hzero', hb₂⟩ := ih (forall_mem_cons.mp hid).2 hb₁
      (by rw [length_append]; omega)
    refine ⟨rets ++ rets', b₂, ?_, ?_, ?_⟩
    · simp only [Writer.addAll, hadd, hall, bind, Except.bind, pure, Except.pure]
    · intro ret hret
      exact (mem_append.mp hret).elim (hzero ret) (hzero' ret)
    · rw [hcons, ← append_assoc]
      exact hb₂

/-- The message around the messages of a bundle. -/
def bundleBytes (msgId : BitVec 32) (body : Bytes) : Bytes :=
  messageHeader version msgId (ofNat 32 (4 + body.length)) ++ (writeFixed32 (makeHeader FieldType.bundle.code fieldBundleId) ++ body)

theorem length_bundleBytes (msgId : BitVec 32) (body : Bytes) : (bundleBytes msgId body).length = 20 + body.length := by
  show (_ ++ (_ ++ body)).length = _
  rw [length_append, length_append, ← Nat.add_assoc]
  rfl

theorem Writer.close_ok {body : Bytes} (hb : Holds b (pre ++ body)) (hpre : pre.length = 20) (msgId : BitVec 32) :
    ∃ closed, b.close msgId = .ok (0, bundleBytes msgId body, closed) := by
  obtain ⟨hw, hle⟩ := hb.toNat_written
  obtain ⟨rest, hbuf, -⟩ := hb.buffer
  have h16 : headerSize.toNat = 16 := rfl
  rw [length_append] at hw hle
  have hpayload : b.written - headerSize = ofNat 32 (4 + body.length) := by
    apply BitVec.eq_of_toNat_eq
    rw [toNat_sub_of_le (by rw [le_def]; omega), hw, toNat_ofNat]
    omega
  have hsum : (headerSize + ofNat 32 (4 + body.length)).toNat = 20 + body.length := by
    rw [toNat_add, toNat_ofNat, h16]
    omega
  have hne : b.written ≠ 0 := by
    intro h0
    rw [h0, BitVec.ofNat_eq_ofNat, BitVec.toNat_zero] at hw
    omega
  have hshim : (Wire.Writer.around bundleSize (ofNat 32 (4 + body.length)) msgId).written
      = messageHeader version msgId (ofNat 32 (4 + body.length)) := rfl
  have hstore : MsgBundle.store (pre ++ body ++ rest) 0 (messageHeader version msgId (ofNat 32 (4 + body.length))
      ++ writeFixed32 (makeHeader FieldType.bundle.code fieldBundleId)) = bundleBytes msgId body ++ rest := by
    have hdrop : (pre ++ body ++ rest).drop 20 = body ++ rest := by rw [← hpre, append_assoc, drop_left]
    show _ ++ (pre ++ body ++ rest).drop 20 = _
    rw [hdrop, take_zero, nil_append, bundleBytes]
    simp only [append_assoc]
  have hcopy : copy (bundleBytes msgId body ++ rest) (headerSize + ofNat 32 (4 + body.length)) = .ok (bundleBytes msgId body) := by
    rw [copy, hsum, ← length_bundleBytes msgId body, if_pos (by rw [length_append]; omega), take_left]
  refine ⟨{ b with buffer := none, bufferLen := 0 }, ?_⟩
  rw [Writer.close, if_neg (by rw [gt_iff_lt, not_lt, le_def, hw, hb.bufferLen, toNat_bundleSize]; exact hle), if_neg hne,
    if_neg (by rw [gt_iff_lt, not_lt, le_def, hw, h16]; omega), hpayload]
  simp only [hbuf, hb.bufferLen]
  rw [if_neg (by decide)]
  simp only [hshim, hstore, hcopy, lift, bind, Except.bind, pure, Except.pure]

/-! ## Reading -/

theorem bundle_header (msgId : BitVec 32) {body : Bytes} (h : body.length ≤ 16384) :
    ValidHeader (bundleBytes msgId body) (ofNat 32 (4 + body.length)) := by
  have hn : (ofNat 32 (4 + body.length)).toNat = 4 + body.length := Nat.mod_eq_of_lt (by omega)
  have hlen := length_bundleBytes msgId body
  refine ⟨?_, ⟨version, ?_, rfl⟩, ?_, by omega, by omega⟩
  · exact read_writeFixed32 deepMagic _
  · exact read_writeFixed32 version _
  · exact read_writeFixed32 (ofNat 32 (4 + body.length)) _

/-- The message around a bundle is decoded, and its BUNDLE field holds the messages, if there are any. -/
theorem decodeFields_bundle (msgId : BitVec 32) {body : Bytes} (h : body.length ≤ 16384) :
    ∃ r, decodeFields (.create (bundleBytes msgId body)) = .ok (if body = [] then -5 else 0, r) ∧
      (body ≠ [] → r.msgId = msgId ∧ getBundleBuffer r [] 0 = (0, body, ofNat 32 body.length)) := by
  obtain ⟨r, hbuf, -, hmsg, hdec⟩ := decodeFields_start (bundle_header msgId h)
  have hid : r.msgId = msgId := by
    have hread : readFixed32 ((bundleBytes msgId body).drop 8) = .ok msgId := read_writeFixed32 msgId _
    rw [hread] at hmsg
    exact (Except.ok.inj hmsg).symm
  have hlen := length_bundleBytes msgId body
  have hdrop : (bundleBytes msgId body).drop 16 = writeFixed32 (makeHeader FieldType.bundle.code fieldBundleId) ++ body := rfl
  have hne : ofNat 32 (4 + body.length) ≠ 0 := length_ne_zero (by omega) (by omega)
  have hleft : ofNat 32 (4 + body.length) - 4 = ofNat 32 body.length := by
    rw [Nat.add_comm, ofNat_add]
    generalize ofNat 32 body.length = a
    bv_omega
  have hbody : (writeFixed32 (makeHeader FieldType.bundle.code fieldBundleId) ++ body).drop 4 = body := rfl
  have hmax : ¬fieldMax ≤ fieldBundleId := by decide
  have hfield : decodeField r FieldType.bundle.code fieldBundleId body (ofNat 32 body.length)
      = .ok (decodeBundle r fieldBundleId body (ofNat 32 body.length)) := by rw [decodeField, FieldType.ofCode_code]
  rw [hlen, hdrop, Nat.add_comm, decodeLoop, if_neg hne, read_writeFixed32] at hdec
  simp only [bind, Except.bind, pure, Except.pure, getTypeId_makeHeader _ (by decide : fieldBundleId < fieldMax), hmax, if_false, hbody,
    hleft, hfield] at hdec
  by_cases hnil : body = []
  · subst hnil
    have hturn : decodeBundle r fieldBundleId [] (ofNat 32 0) = ⟨-5, r.set fieldBundleId ⟨.bundle, .piRaw [], 0⟩, [], 0⟩ := by
      rw [decodeBundle, if_neg (not_not.mpr rfl), if_neg (by rw [hbuf, hlen]; decide), advance, if_pos ⟨rfl, by decide⟩]
      rfl
    rw [length_nil, hturn] at hdec
    exact ⟨_, hdec, fun hne => absurd rfl hne⟩
  · have hl : (ofNat 32 body.length).toNat = body.length := Nat.mod_eq_of_lt (by omega)
    have hturn := decodeBundle_end r [] hnil rfl (by rw [append_nil, hbuf, hlen, Nat.add_comm]) hl
    rw [append_nil, BitVec.sub_self] at hturn
    simp only [hturn, ne_eq, not_true, if_false] at hdec
    refine ⟨r.set fieldBundleId ⟨.bundle, .piRaw body, ofNat 32 body.length⟩, ?_, fun _ => ⟨hid, ?_⟩⟩
    · rw [if_neg hnil]
      exact hdec.trans (decodeLoop_nil ..)
    have hne : ofNat 32 body.length ≠ 0 := length_ne_zero (length_pos_iff.mpr hnil) (by omega)
    rw [getBundleBuffer, set_fields_self, if_neg (not_not.mpr rfl), if_neg hne]
    rfl

theorem bytesAll_cons (m : Msg) (ms : List Msg) : bytesAll (m :: ms) = m.bytes ++ bytesAll ms := flatMap_cons

theorem length_le_elements (vs : List (BitVec 32)) : vs.length ≤ (vs.flatMap fun v => writeVarInt v.toNat).length := by
  induction vs with
  | nil => exact Nat.zero_le _
  | cons v vs ih =>
    have := one_le_length_writeVarInt v.toNat
    rw [flatMap_cons, length_append, length_cons]
    omega

theorem Msg.fits (h : m.bytes.length ≤ 16384) : ∀ p ∈ m.fields, p.2.Fits := by
  intro p hp
  have hle := payload_le_encodeAll hp
  rw [m.length_bytes] at h
  cases hf : p.2 with
  | uint32Array vs =>
    have := length_le_elements vs
    rw [hf, Field.payload, writeUint32Array, length_append] at hle
    show vs.length < 2 ^ 31
    omega
  | _ => trivial

/-- The next message is the first of those left, and the rest is left behind it. -/
theorem getNextMsg_message (hid : ∀ p ∈ m.fields, p.1 < fieldMax) (hm : Consistent m.fields)
    (h : (bytesAll (m :: ms)).length ≤ 16384) :
    ∃ r, Reader.getNextMsg ⟨bytesAll (m :: ms), ofNat 32 (bytesAll (m :: ms)).length⟩
        = .ok (some (r, ⟨bytesAll ms, ofNat 32 (bytesAll ms).length⟩)) ∧ m.ReadAs r := by
  have hbytes := m.length_bytes
  have hlen : (bytesAll (m :: ms)).length = m.bytes.length + (bytesAll ms).length := by rw [bytesAll_cons, length_append]
  have hfits : ∀ p ∈ m.fields, p.2.Fits := m.fits (by omega)
  have hsize := sizeAll_toNat m.fields (by omega)
  generalize hn : ofNat 32 (bytesAll (m :: ms)).length = n
  have hnat : n.toNat = (bytesAll (m :: ms)).length := by
    rw [← hn]
    exact Nat.mod_eq_of_lt (by omega)
  obtain ⟨r, hdec, hmsg, hflags, hblen, hfields, habsent⟩ := decodeFields_append hid hm hfits m.msgId (version_and version m.flags) hsize
    (bytesAll ms) (n := n) (by omega) true
  have hne : n ≠ 0 := by
    intro h0
    rw [h0, BitVec.ofNat_eq_ofNat, BitVec.toNat_zero] at hnat
    omega
  have hgt : ¬r.bufferLen > n := by
    rw [gt_iff_lt, not_lt, le_def]
    omega
  have hrest : (bytesAll (m :: ms)).drop r.bufferLen.toNat = bytesAll ms := by
    rw [hblen, hsize, Nat.add_comm, ← hbytes, bytesAll_cons, drop_left]
  have hleft : n - r.bufferLen = ofNat 32 (bytesAll ms).length := by
    apply BitVec.eq_of_toNat_eq
    rw [toNat_sub_of_le (not_lt.mp hgt), toNat_ofNat]
    omega
  refine ⟨r, ?_, hmsg, by rw [hflags, flags_or], fun p hp => ?_, fun id hlt hid' t s hs => ?_⟩
  · have hdec' : decodeFields { Wire.Reader.create (bytesAll (m :: ms)) with bufferLen := n, copyAll := true } = .ok (0, r) := by
      rw [bytesAll_cons, Msg.bytes]
      exact hdec
    rw [Reader.getNextMsg, if_neg hne]
    simp only [hdec', lift, bind, Except.bind, pure, Except.pure, ne_eq, not_true, if_false, hgt, hrest, hleft]
  · obtain ⟨rest, hr⟩ := hfields p hp
    have := payload_le_encodeAll hp
    exact got_bucket (hid p hp) (by omega) hr
  · refine status_of_ne hlt hs ?_
    rw [habsent id hid']
    simp only [statuses, mem_cons, Prod.mk.injEq, not_mem_nil, or_false] at hs
    rcases hs with ⟨rfl, -⟩ | ⟨rfl, -⟩ | ⟨rfl, -⟩ | ⟨rfl, -⟩ | ⟨rfl, -⟩ | ⟨rfl, -⟩ | ⟨rfl, -⟩ | ⟨rfl, -⟩ | ⟨rfl, -⟩ | ⟨rfl, -⟩ |
      ⟨rfl, -⟩ <;> decide

theorem reads_messages (hid : ∀ m ∈ ms, ∀ p ∈ m.fields, p.1 < fieldMax) (hms : ∀ m ∈ ms, Consistent m.fields)
    (h : (bytesAll ms).length ≤ 16384) :
    ∃ rs, Reader.Reads ⟨bytesAll ms, ofNat 32 (bytesAll ms).length⟩ rs ∧ List.Forall₂ Msg.ReadAs ms rs := by
  induction ms with
  | nil => exact ⟨[], .null rfl, .nil⟩
  | cons m ms ih =>
    obtain ⟨r, hnext, hr⟩ := getNextMsg_message (hid m mem_cons_self) (hms m mem_cons_self) h
    obtain ⟨rs, hreads, hrs⟩ := ih (forall_mem_cons.mp hid).2 (forall_mem_cons.mp hms).2
      (by rw [bytesAll_cons, length_append] at h; omega)
    exact ⟨r :: rs, .next hnext hreads, .cons hr hrs⟩

/-! ## What a reader can give back -/

variable {r : Wire.Reader}

theorem got_type {id : BitVec 32} (hid : id < fieldMax) {f : Field} (h : f.Got r id) : (r.fields id).iType = f.type := by
  by_contra hne
  have other {t : FieldType} {s : Except Fault Int} (ht : t = f.type) (hs : (t, s) ∈ statuses r id) : s = .ok (-2) :=
    status_of_ne hid hs (by rw [ht]; exact Ne.symm hne)
  have contra {s : Int} (h0 : s = 0) (h2 : (.ok s : Except Fault Int) = .ok (-2)) : False := by
    rw [h0] at h2
    cases h2
  cases f with
  | int32 v => exact contra (congrArg fst (h 0)) (@other .int32 (.ok (getInt32Field r id 0).1) rfl (by simp [statuses]))
  | uint32 v => exact contra (congrArg fst (h 0)) (@other .uint32 (.ok (getUint32Field r id 0).1) rfl (by simp [statuses]))
  | int64 v => exact contra (congrArg fst (h 0)) (@other .int64 (.ok (getInt64Field r id 0).1) rfl (by simp [statuses]))
  | uint64 v => exact contra (congrArg fst (h 0)) (@other .uint64 (.ok (getUint64Field r id 0).1) rfl (by simp [statuses]))
  | float v => exact contra (congrArg fst (h 0)) (@other .float (.ok (getFloatField r id 0).1) rfl (by simp [statuses]))
  | double v => exact contra (congrArg fst (h 0)) (@other .double (.ok (getDoubleField r id 0).1) rfl (by simp [statuses]))
  | raw bytes => exact contra (h [] 0).1 (@other .raw (.ok (getRawFieldRef r id [] 0).1) rfl (by simp [statuses]))
  | string bytes => exact contra (h.2 [] 0).1 (@other .string (.ok (getStringFieldRef r id [] 0).1) rfl (by simp [statuses]))
  | uint32Array vs => exact contra (h none).1 (@other .uint32Array (.ok (getUint32ArrayField r id none).1) rfl (by simp [statuses]))

theorem got_unique {id : BitVec 32} (hid : id < fieldMax) {f g : Field} (hf : f.Got r id) (hg : g.Got r id) : f = g := by
  have ht : f.type = g.type := (got_type hid hf).symm.trans (got_type hid hg)
  cases f with
  | int32 v => cases g with
    | int32 v' => exact congrArg Field.int32 (congrArg snd ((hf 0).symm.trans (hg 0)))
    | _ => cases ht
  | uint32 v => cases g with
    | uint32 v' => exact congrArg Field.uint32 (congrArg snd ((hf 0).symm.trans (hg 0)))
    | _ => cases ht
  | int64 v => cases g with
    | int64 v' => exact congrArg Field.int64 (congrArg snd ((hf 0).symm.trans (hg 0)))
    | _ => cases ht
  | uint64 v => cases g with
    | uint64 v' => exact congrArg Field.uint64 (congrArg snd ((hf 0).symm.trans (hg 0)))
    | _ => cases ht
  | float v => cases g with
    | float v' => exact congrArg Field.float (congrArg snd ((hf 0).symm.trans (hg 0)))
    | _ => cases ht
  | double v => cases g with
    | double v' => exact congrArg Field.double (congrArg snd ((hf 0).symm.trans (hg 0)))
    | _ => cases ht
  | raw bytes => cases g with
    | raw bytes' => rw [Except.ok.inj ((hf [] 0).2.symm.trans (hg [] 0).2)]
    | _ => cases ht
  | string bytes => cases g with
    | string bytes' => exact congrArg Field.string (congrArg snd (Except.ok.inj ((hf.1 []).symm.trans (hg.1 []))))
    | _ => cases ht
  | uint32Array vs => cases g with
    | uint32Array vs' => rw [Option.some.inj ((hf none).2.symm.trans (hg none).2)]
    | _ => cases ht

theorem Msg.ReadAs.consistent (h : m.ReadAs r) (hid : ∀ p ∈ m.fields, p.1 < fieldMax) : Consistent m.fields := by
  intro p hp q hq heq
  have hgot := h.fields q hq
  rw [← heq] at hgot
  exact Prod.ext heq (got_unique (hid p hp) (h.fields p hp) hgot)

theorem consistent_of_reads {rs : List Wire.Reader} (h : List.Forall₂ Msg.ReadAs ms rs)
    (hid : ∀ m ∈ ms, ∀ p ∈ m.fields, p.1 < fieldMax) : ∀ m ∈ ms, Consistent m.fields := by
  induction h with
  | nil => exact fun m hm => absurd hm not_mem_nil
  | cons hr _ ih =>
    intro m hm
    rcases mem_cons.mp hm with rfl | hm
    · exact hr.consistent (hid m mem_cons_self)
    · exact ih (forall_mem_cons.mp hid).2 m hm

/-- Messages that fit a bundle come out of it as they went in, exactly if there is one and none of them sets a field
    number to two values. -/
theorem bundle_round_trip_iff {mem : Bytes} (hmem : mem.length = bundleSize.toNat) {ms : List Msg}
    (hid : ∀ m ∈ ms, ∀ p ∈ m.fields, p.1 < fieldMax)
    (hroom : (bytesAll ms).length ≤ bundleSize.toNat - bundlePreamble.toNat) (msgId : BitVec 32) :
    RoundTrips (.create mem) ms msgId ↔ ms ≠ [] ∧ ∀ m ∈ ms, Consistent m.fields := by
  rw [toNat_bundleSize] at hmem hroom
  have h20 : bundlePreamble.toNat = 20 := rfl
  have hpre : (mem.take 20).length = 20 := length_take_of_le (by omega)
  have hb : Holds (.create mem) (mem.take 20) := by
    refine ⟨⟨mem.drop 20, ?_, ?_⟩, rfl, ?_⟩
    · rw [take_append_drop]
      rfl
    · rw [hpre, length_drop, toNat_bundleSize]
      omega
    · rw [hpre]
      rfl
  obtain ⟨rets, b', hall, hzero, hb'⟩ := Writer.addAll_ok hid hb (by omega)
  obtain ⟨closed, hclose⟩ := Writer.close_ok hb' hpre msgId
  obtain ⟨r, hdec, hgot⟩ := decodeFields_bundle msgId (by omega : (bytesAll ms).length ≤ 16384)
  constructor
  · rintro ⟨rets₁, b₁, bytes, closed₁, r₁, p, n, rs, hall₁, -, hclose₁, hdec₁, -, -, -, hread⟩
    rw [hall] at hall₁
    cases hall₁
    rw [hclose] at hclose₁
    cases hclose₁
    refine ⟨?_, consistent_of_reads hread hid⟩
    rintro rfl
    rw [hdec] at hdec₁
    cases hdec₁
  · intro ⟨hne, hms⟩
    have hbody : bytesAll ms ≠ [] := by
      intro hnil
      obtain ⟨m, ms', rfl⟩ := exists_cons_of_ne_nil hne
      have := congrArg List.length hnil
      rw [bytesAll_cons, length_append, m.length_bytes, length_nil] at this
      omega
    rw [if_neg hbody] at hdec
    obtain ⟨rs, hreads, hrs⟩ := reads_messages hid hms (by omega)
    exact ⟨rets, b', _, closed, r, _, _, rs, hall, hzero, hclose, hdec, (hgot hbody).1, (hgot hbody).2, hreads, hrs⟩

theorem bundle_of_two :
    RoundTrips (.create (List.replicate 16384 0)) [⟨.reserved, 5, 0, [(1, .uint32 3)]⟩, ⟨.appended, 6, firstFlag, []⟩] 9 := by
  refine (bundle_round_trip_iff length_replicate (by decide) ?_ 9).mpr ⟨by simp, ?_⟩
  · have h (v : BitVec 32) : (writeVarInt v.toNat).length ≤ 10 := by
      rw [length_writeVarInt_bv v (by decide)]
      exact varIntLength_lt _
    have h3 := h 3
    simp only [bytesAll, flatMap_cons, flatMap_nil, length_append, Msg.length_bytes, encodeAll, Field.encode,
      length_writeFixed32, Field.payload, length_nil, toNat_bundleSize, show bundlePreamble.toNat = 20 from rfl]
    omega
  · intro m hm
    rcases mem_cons.mp hm with rfl | hm
    · exact consistent_of_nodup (by decide)
    · obtain rfl := mem_singleton.mp hm
      exact consistent_of_nodup nodup_nil

theorem empty_bundle_lost : ¬∀ (mem : Bytes) (ms : List Msg) (msgId : BitVec 32), mem.length = bundleSize.toNat →
    (∀ m ∈ ms, ∀ p ∈ m.fields, p.1 < fieldMax) → (∀ m ∈ ms, (m.fields.map fst).Nodup) →
    (bytesAll ms).length ≤ bundleSize.toNat - bundlePreamble.toNat → RoundTrips (.create mem) ms msgId := by
  intro h
  obtain ⟨rets, b, bytes, closed, r, p, n, rs, hall, -, hclose, hdec, -⟩ := h (List.replicate 16384 0) [] 9 length_replicate
    (fun m hm => absurd hm not_mem_nil) (fun m hm => absurd hm not_mem_nil) (Nat.zero_le _)
  cases hall
  have hb : Holds (.create (List.replicate 16384 0)) (List.replicate 20 0 ++ []) :=
    ⟨⟨List.replicate 16364 0, by rw [append_nil, replicate_append_replicate]; rfl, by
      rw [append_nil, length_replicate, length_replicate]; rfl⟩, rfl, rfl⟩
  obtain ⟨closed', hclose'⟩ := Writer.close_ok hb length_replicate 9
  rw [hclose'] at hclose
  cases hclose
  obtain ⟨r', hdec', -⟩ := @decodeFields_bundle 9 [] (Nat.zero_le _)
  rw [hdec'] at hdec
  cases hdec

end MsgBundle

end DeepFabric.Wire
