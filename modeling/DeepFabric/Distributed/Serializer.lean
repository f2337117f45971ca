/-
  DeepFabric.Distributed.Serializer — the messages of a distributed map with 32-bit integer keys
  (distributed/Serializer.h, with Converter<inttype>, ObjectMessageService and
  FabricMessageService for the part that every message begins with).

  A message names its fields three times: it sums up their sizes, sets them in a writer of that
  size, and gets them from a reader. The statuses of the setters are dropped, here they are
  returned beside the writer. An object is deserialised into another of its kind: what the
  message does not carry stays as the target has it. That is the processed flag of a virtual log
  entry, which needs no encoding, and the key space version of a peer. The address of a peer goes
  through c_str() and ends at its first NUL. The sizes are 32 bits wide: a message of 2^32 bytes
  with its header is beyond them.
-/
import Mathlib.Data.List.Nodup
import Mathlib.Data.List.TakeWhile
import DeepFabric.Distributed.VirtualKeySpace
import DeepFabric.Wire.EncodeProtocol

namespace DeepFabric.Distributed.Serializer

open DeepFabric.Wire
open DeepFabric.Distributed.VirtualKeySpace (LogEntryAction)

/-! ## Enumerations -/

/-- An enumeration from its number. -/
def ofCode {E : Type} (members : List E) (code : E → BitVec 32) (v : BitVec 32) : Except Fault E :=
  match members.find? (code · = v) with
  | some e => .ok e
  | none => .error .enumeration

def actionCode : LogEntryAction → BitVec 32
  | .none => 0
  | .add => 1
  | .update => 2
  | .remove => 3

def toAction : BitVec 32 → Except Fault LogEntryAction := ofCode [.none, .add, .update, .remove] actionCode

inductive DataRequestType where
  | requestNone
  | virtual
  | full
  | partially
  deriving DecidableEq, Repr

def DataRequestType.code : DataRequestType → BitVec 32
  | .requestNone => 0
  | .virtual => 1
  | .full => 2
  | .partially => 3

def toRequestType : BitVec 32 → Except Fault DataRequestType :=
  ofCode [.requestNone, .virtual, .full, .partially] DataRequestType.code

inductive MapBehavior where
  | standalone
  | peer
  | master
  | lazySlave
  | haSyncSlave
  | haAsyncSlave
  deriving DecidableEq, Repr

def MapBehavior.code : MapBehavior → BitVec 32
  | .standalone => 0
  | .peer => 1
  | .master => 2
  | .lazySlave => 3
  | .haSyncSlave => 4
  | .haAsyncSlave => 5

def toBehavior : BitVec 32 → Except Fault MapBehavior :=
  ofCode [.standalone, .peer, .master, .lazySlave, .haSyncSlave, .haAsyncSlave] MapBehavior.code

theorem toAction_code (a : LogEntryAction) : toAction (actionCode a) = .ok a := by
  cases a <;> rfl

theorem toRequestType_code (t : DataRequestType) : toRequestType t.code = .ok t := by
  cases t <;> rfl

theorem toBehavior_code (b : MapBehavior) : toBehavior b.code = .ok b := by
  cases b <;> rfl

/-! ## Keys and base messages -/

/-- Converter<inttype>::encodedSize: a key goes as unsigned. -/
def encodedSize (o : BitVec 32) : BitVec 32 := sizeOfUint32 o

def encode (field o : BitVec 32) : Writer → Int × Writer := setUint32Field field o

def decode (r : Reader) (field : BitVec 32) : BitVec 32 := (getUint32Field r field 0).2

structure BaseMessageData where
  serverId : BitVec 32
  tableId : BitVec 32
  threadId : BitVec 64

/-- The implementations of IMessageService. -/
inductive MessageService where
  | object
  | fabric

namespace MessageService

/-- MSG_ID(msgPrefix::REALTIME_DISTRIBUTED_CASSI, msgId) for the fabric. -/
def getMessageId (msgId : BitVec 32) : MessageService → BitVec 32
  | object => msgId
  | fabric => (0x0003 &&& 0xffff) <<< 16 ||| msgId &&& 0xffff

def getBaseMessageSize (base : BaseMessageData) : MessageService → BitVec 32
  | object => 0
  | fabric => sizeOfUint32 base.serverId + sizeOfInt64 base.threadId + sizeOfUint32 base.tableId

def encodeBaseMessage (base : BaseMessageData) : MessageService → List (Writer → Int × Writer)
  | object => []
  | fabric => [setUint32Field 1 base.serverId, setInt64Field 2 base.threadId, setUint32Field 3 base.tableId]

end MessageService

/-! ## The objects -/

structure StatusRequest where
  key : BitVec 32
  maxViewpoint : BitVec 32

structure StatusResponse where
  maxViewpoint : BitVec 32

structure DataRequest where
  requestType : DataRequestType
  key : BitVec 32
  vsize : BitVec 32
  maxVirtualViewpoint : BitVec 32
  maxRealViewpoint : BitVec 32

structure VirtualInfo where
  vsize : BitVec 32
  minViewpoint : BitVec 32
  maxViewpoint : BitVec 32
  version : BitVec 64

/-- m_data holds m_size bytes, and m_size is a uinttype. -/
structure DataLogEntry where
  action : LogEntryAction
  key : BitVec 32
  viewpoint : BitVec 32
  data : Bytes
  sized : data.length < 2 ^ 32

def DataLogEntry.size (m : DataLogEntry) : BitVec 32 := BitVec.ofNat 32 m.data.length

structure VirtualLogEntry where
  action : LogEntryAction
  key : BitVec 32
  processed : Bool
  vsize : BitVec 32
  minViewpoint : BitVec 32
  maxViewpoint : BitVec 32

structure PeerInfo where
  serverId : BitVec 32
  address : Bytes
  mapBehavior : MapBehavior
  /-- A pointer. -/
  facilitator : BitVec 64
  virtualKeySpaceVersion : BitVec 64

/-- setAddress(address.c_str()). -/
def PeerInfo.setAddress (p : PeerInfo) (address : Bytes) : PeerInfo :=
  { p with address := address.takeWhile (· ≠ 0) }

inductive Message where
  | statusRequest (m : StatusRequest)
  | statusResponse (m : StatusResponse)
  | dataRequest (m : DataRequest)
  | virtualInfo (m : VirtualInfo)
  | dataLogEntry (m : DataLogEntry)
  | virtualLogEntry (m : VirtualLogEntry)
  | peerInfo (m : PeerInfo)
  | version (version : BitVec 64)

namespace Message

/-- MSG_ID_STATUS_REQUEST and the others. -/
def messageId : Message → BitVec 32
  | statusRequest _ => 0x00000001
  | statusResponse _ => 0x00000002
  | dataRequest _ => 0x00000003
  | virtualInfo _ => 0x00000004
  | dataLogEntry _ => 0x00000005
  | virtualLogEntry _ => 0x00000007
  | peerInfo _ => 0x00000008
  | version _ => 0x00000009

/-! ## serialize -/

variable (service : MessageService) (base : BaseMessageData)

def size : Message → BitVec 32
  | statusRequest m => service.getBaseMessageSize base + encodedSize m.key + sizeOfUint32 m.maxViewpoint
  | statusResponse m => service.getBaseMessageSize base + sizeOfUint32 m.maxViewpoint
  | dataRequest m => service.getBaseMessageSize base + encodedSize m.key + sizeOfUint32 m.requestType.code
      + sizeOfInt32 m.vsize + sizeOfUint32 m.maxVirtualViewpoint + sizeOfUint32 m.maxRealViewpoint
  | virtualInfo m => service.getBaseMessageSize base + sizeOfInt32 m.vsize + sizeOfUint32 m.minViewpoint
      + sizeOfUint32 m.maxViewpoint + sizeOfInt64 m.version
  | dataLogEntry m => service.getBaseMessageSize base + encodedSize m.key + sizeOfUint32 (actionCode m.action)
      + sizeOfUint32 m.viewpoint + sizeOfRaw m.size
  | virtualLogEntry m => service.getBaseMessageSize base + encodedSize m.key + sizeOfUint32 (actionCode m.action)
      + sizeOfInt32 m.vsize + sizeOfUint32 m.minViewpoint + sizeOfUint32 m.maxViewpoint
  | peerInfo m => service.getBaseMessageSize base + sizeOfUint32 m.serverId + sizeOfString m.address
      + sizeOfUint32 m.mapBehavior.code + sizeOfUint64 m.facilitator
  | version v => service.getBaseMessageSize base + sizeOfInt64 v

/-- The setter calls behind those of the base message. -/
def setters : Message → List (Writer → Int × Writer)
  | statusRequest m => [encode 4 m.key, setUint32Field 5 m.maxViewpoint]
  | statusResponse m => [setUint32Field 4 m.maxViewpoint]
  | dataRequest m => [encode 4 m.key, setUint32Field 5 m.requestType.code, setInt32Field 6 m.vsize,
      setUint32Field 7 m.maxVirtualViewpoint, setUint32Field 8 m.maxRealViewpoint]
  | virtualInfo m => [setInt32Field 4 m.vsize, setUint32Field 5 m.minViewpoint, setUint32Field 6 m.maxViewpoint,
      setInt64Field 7 m.version]
  | dataLogEntry m => [encode 4 m.key, setUint32Field 5 (actionCode m.action), setUint32Field 6 m.viewpoint,
      setRawField 7 m.data]
  | virtualLogEntry m => [encode 4 m.key, setUint32Field 5 (actionCode m.action), setInt32Field 6 m.vsize,
      setUint32Field 7 m.minViewpoint, setUint32Field 8 m.maxViewpoint]
  | peerInfo m => [setUint32Field 4 m.serverId, setStringField 5 m.address, setUint32Field 6 m.mapBehavior.code,
      setUint64Field 7 m.facilitator]
  | version v => [setInt64Field 4 v]

/-- The statuses of the setters and the writer that is returned. -/
def serialize (m : Message) : List Int × Writer :=
  writeAll (.create (m.size service base) (service.getMessageId m.messageId)) (service.encodeBaseMessage base ++ m.setters)

/-! ## deserialize -/

/-- deserialize(encodeReader, object), into an object of the kind. -/
def deserialize (r : Reader) : Message → Except Fault Message
  | statusRequest _ => .ok (statusRequest ⟨decode r 4, (getUint32Field r 5 0).2⟩)
  | statusResponse _ => .ok (statusResponse ⟨(getUint32Field r 4 0).2⟩)
  | dataRequest _ => do
    let requestType ← toRequestType (getUint32Field r 5 0).2
    return dataRequest ⟨requestType, decode r 4, (getInt32Field r 6 0).2, (getUint32Field r 7 0).2, (getUint32Field r 8 0).2⟩
  | virtualInfo _ => .ok (virtualInfo ⟨(getInt32Field r 4 0).2, (getUint32Field r 5 0).2, (getUint32Field r 6 0).2,
      (getInt64Field r 7 0).2⟩)
  | dataLogEntry _ => do
    let action ← toAction (getUint32Field r 5 0).2
    let field := (getRawFieldRef r 7 [] 0).2
    let data ← copy field.1 field.2
    if h : data.length < 2 ^ 32 then return dataLogEntry ⟨action, decode r 4, (getUint32Field r 6 0).2, data, h⟩
    else throw .overrun
  | virtualLogEntry o => do
    let action ← toAction (getUint32Field r 5 0).2
    return virtualLogEntry { o with
      key := decode r 4
      action := action
      vsize := (getInt32Field r 6 0).2
      minViewpoint := (getUint32Field r 7 0).2
      maxViewpoint := (getUint32Field r 8 0).2 }
  | peerInfo o => do
    let address ← getStringField r 5 []
    let mapBehavior ← toBehavior (getUint32Field r 6 0).2
    return peerInfo { o.setAddress address.2 with
      serverId := (getUint32Field r 4 0).2
      mapBehavior := mapBehavior
      facilitator := (getUint64Field r 7 0).2 }
  | version v => .ok (version (getInt64Field r 4 v).2)

/-- deserialize(object, data, dataSize): the status of decodeFields is dropped. -/
def receive (into : Message) (data : Bytes) : Except Fault Message := do
  let (_, r) ← decodeFields (.create data)
  into.deserialize r

/-! ## The fields of a message -/

def baseFields : MessageService → List (BitVec 32 × Field)
  | .object => []
  | .fabric => [(1, .uint32 base.serverId), (2, .int64 base.threadId), (3, .uint32 base.tableId)]

def ownFields : Message → List (BitVec 32 × Field)
  | statusRequest m => [(4, .uint32 m.key), (5, .uint32 m.maxViewpoint)]
  | statusResponse m => [(4, .uint32 m.maxViewpoint)]
  | dataRequest m => [(4, .uint32 m.key), (5, .uint32 m.requestType.code), (6, .int32 m.vsize),
      (7, .uint32 m.maxVirtualViewpoint), (8, .uint32 m.maxRealViewpoint)]
  | virtualInfo m => [(4, .int32 m.vsize), (5, .uint32 m.minViewpoint), (6, .uint32 m.maxViewpoint), (7, .int64 m.version)]
  | dataLogEntry m => [(4, .uint32 m.key), (5, .uint32 (actionCode m.action)), (6, .uint32 m.viewpoint), (7, .raw m.data)]
  | virtualLogEntry m => [(4, .uint32 m.key), (5, .uint32 (actionCode m.action)), (6, .int32 m.vsize),
      (7, .uint32 m.minViewpoint), (8, .uint32 m.maxViewpoint)]
  | peerInfo m => [(4, .uint32 m.serverId), (5, .string m.address), (6, .uint32 m.mapBehavior.code),
      (7, .uint64 m.facilitator)]
  | version v => [(4, .int64 v)]

def fields (m : Message) : List (BitVec 32 × Field) := baseFields base service ++ m.ownFields

/-- The size, summed up in a third place, is that of the fields. -/
theorem size_eq (m : Message) : m.size service base = sizeAll (m.fields service base) := by
  cases service <;> cases m <;>
    simp [size, sizeAll, fields, baseFields, ownFields, MessageService.getBaseMessageSize, Field.sizeOf, encodedSize,
      DataLogEntry.size]

theorem serialize_eq (m : Message) : m.serialize service base
    = writeAll (.create (sizeAll (m.fields service base)) (service.getMessageId m.messageId))
        ((m.fields service base).map fun p => p.2.set p.1) := by
  rw [serialize, size_eq]
  cases service <;> cases m <;> rfl

theorem fields_lt (m : Message) : ∀ p ∈ m.fields service base, p.1 < fieldMax := by
  cases service <;> cases m <;> simp [fields, baseFields, ownFields, fieldMax]

theorem fields_nodup (m : Message) : ((m.fields service base).map Prod.fst).Nodup := by
  cases service <;> cases m <;> simp [fields, baseFields, ownFields]

theorem fields_fit (m : Message) : ∀ p ∈ m.fields service base, p.2.Fits := by
  cases service <;> cases m <;> simp [fields, baseFields, ownFields, Field.Fits]

/-- The message with its header has less than 2^32 bytes. -/
def Short (m : Message) : Prop := (encodeAll (m.fields service base)).length + 16 < 2 ^ 32

/-- What a message has to meet to come back: the two with a text or a byte array are short, and a text has no NUL. -/
def Fits (m : Message) : Prop :=
  match m with
  | dataLogEntry _ => m.Short service base
  | peerInfo p => m.Short service base ∧ 0 ∉ p.address
  | _ => True

/-- What comes back: what is not carried is the target's. -/
def carried (m into : Message) : Message :=
  match m, into with
  | virtualLogEntry m, virtualLogEntry o => virtualLogEntry { m with processed := o.processed }
  | peerInfo m, peerInfo o => peerInfo { m with virtualKeySpaceVersion := o.virtualKeySpaceVersion }
  | m, _ => m

/-- A field that is one number. -/
def IsNumber : Field → Prop
  | .int32 _ | .uint32 _ | .int64 _ | .uint64 _ => True
  | _ => False

theorem length_encode_le {f : Field} (hf : IsNumber f) (id : BitVec 32) : (f.encode id).length ≤ 14 := by
  have h (n : Nat) (hn : n < 2 ^ 64) : 4 + (writeVarInt n).length ≤ 14 := by
    have := varIntLength_lt n
    rw [length_writeVarInt hn]
    omega
  cases f with
  | int32 v => simpa [Field.encode, Field.payload] using h _ (Nat.lt_trans (encodeZigZag v).isLt (by decide))
  | uint32 v => simpa [Field.encode, Field.payload] using h _ (Nat.lt_trans v.isLt (by decide))
  | int64 v => simpa [Field.encode, Field.payload] using h _ (encodeZigZag v).isLt
  | uint64 v => simpa [Field.encode, Field.payload] using h _ v.isLt
  | _ => exact hf.elim

theorem length_encodeAll_le {fs : List (BitVec 32 × Field)} (h : ∀ p ∈ fs, IsNumber p.2) :
    (encodeAll fs).length ≤ 14 * fs.length := by
  induction fs with
  | nil => exact Nat.zero_le _
  | cons p fs ih =>
    have hp := length_encode_le (h p List.mem_cons_self) p.1
    have ih := ih (List.forall_mem_cons.mp h).2
    rw [encodeAll_cons, List.length_append, List.length_cons]
    omega

variable {m : Message}

theorem fits_short (h : m.Fits service base) : m.Short service base := by
  have numbers {m : Message} (hn : ∀ p ∈ m.fields service base, IsNumber p.2) (hl : (m.fields service base).length ≤ 8) :
      m.Short service base := by
    have := length_encodeAll_le hn
    rw [Short]
    omega
  cases m with
  | dataLogEntry m => exact h
  | peerInfo m => exact h.1
  | _ =>
    refine numbers ?_ ?_
    · cases service <;> simp [fields, baseFields, ownFields, IsNumber]
    · cases service <;> simp [fields, baseFields, ownFields]

/-! ## There and back -/

/-- A reader holds the fields of a message. -/
def Holds (r : Reader) (fs : List (BitVec 32 × Field)) : Prop := ∀ p ∈ fs, ∃ rest, r.fields p.1 = p.2.bucket rest

section Got
variable {r : Reader} {fs : List (BitVec 32 × Field)} (h : Holds r fs) (id : BitVec 32)
include h

theorem got_int32 (v : BitVec 32) (hm : (id, Field.int32 v) ∈ fs) (hid : id < fieldMax) :
    (getInt32Field r id 0).2 = v := by
  obtain ⟨rest, hb⟩ := h _ hm
  rw [getInt32Field_bucket hid hb]

theorem got_uint32 (v : BitVec 32) (hm : (id, Field.uint32 v) ∈ fs) (hid : id < fieldMax) :
    (getUint32Field r id 0).2 = v := by
  obtain ⟨rest, hb⟩ := h _ hm
  rw [getUint32Field_bucket hid hb]

theorem got_int64 (v : BitVec 64) (hm : (id, Field.int64 v) ∈ fs) (hid : id < fieldMax) (d : BitVec 64) :
    (getInt64Field r id d).2 = v := by
  obtain ⟨rest, hb⟩ := h _ hm
  rw [getInt64Field_bucket hid hb]

theorem got_uint64 (v : BitVec 64) (hm : (id, Field.uint64 v) ∈ fs) (hid : id < fieldMax) :
    (getUint64Field r id 0).2 = v := by
  obtain ⟨rest, hb⟩ := h _ hm
  rw [getUint64Field_bucket hid hb]

end Got

variable {r : Reader}

theorem deserialize_statusRequest {m : StatusRequest} (h : Holds r (statusRequest m).ownFields)
    (o : StatusRequest) : (statusRequest o).deserialize r = .ok (statusRequest m) := by
  have h4 := got_uint32 h 4 m.key (by simp [ownFields]) (by decide)
  have h5 := got_uint32 h 5 m.maxViewpoint (by simp [ownFields]) (by decide)
  rw [deserialize, decode, h4, h5]

theorem deserialize_statusResponse {m : StatusResponse} (h : Holds r (statusResponse m).ownFields)
    (o : StatusResponse) : (statusResponse o).deserialize r = .ok (statusResponse m) := by
  have h4 := got_uint32 h 4 m.maxViewpoint (by simp [ownFields]) (by decide)
  rw [deserialize, h4]

theorem deserialize_dataRequest {m : DataRequest} (h : Holds r (dataRequest m).ownFields)
    (o : DataRequest) : (dataRequest o).deserialize r = .ok (dataRequest m) := by
  have h4 := got_uint32 h 4 m.key (by simp [ownFields]) (by decide)
  have h5 := got_uint32 h 5 m.requestType.code (by simp [ownFields]) (by decide)
  have h6 := got_int32 h 6 m.vsize (by simp [ownFields]) (by decide)
  have h7 := got_uint32 h 7 m.maxVirtualViewpoint (by simp [ownFields]) (by decide)
  have h8 := got_uint32 h 8 m.maxRealViewpoint (by simp [ownFields]) (by decide)
  rw [deserialize, decode, h4, h5, h6, h7, h8, toRequestType_code]
  rfl

theorem deserialize_virtualInfo {m : VirtualInfo} (h : Holds r (virtualInfo m).ownFields)
    (o : VirtualInfo) : (virtualInfo o).deserialize r = .ok (virtualInfo m) := by
  have h4 := got_int32 h 4 m.vsize (by simp [ownFields]) (by decide)
  have h5 := got_uint32 h 5 m.minViewpoint (by simp [ownFields]) (by decide)
  have h6 := got_uint32 h 6 m.maxViewpoint (by simp [ownFields]) (by decide)
  have h7 := got_int64 h 7 m.version (by simp [ownFields]) (by decide) 0
  rw [deserialize, h4, h5, h6, h7]

theorem deserialize_dataLogEntry {m : DataLogEntry} (h : Holds r (dataLogEntry m).ownFields)
    (o : DataLogEntry) : (dataLogEntry o).deserialize r = .ok (dataLogEntry m) := by
  have h4 := got_uint32 h 4 m.key (by simp [ownFields]) (by decide)
  have h5 := got_uint32 h 5 (actionCode m.action) (by simp [ownFields]) (by decide)
  have h6 := got_uint32 h 6 m.viewpoint (by simp [ownFields]) (by decide)
  obtain ⟨rest, h7⟩ := h (7, .raw m.data) (by simp [ownFields])
  have h7 := getRawFieldRef_bucket (by decide : (7 : BitVec 32) < fieldMax) m.sized h7 [] 0
  rw [deserialize, decode, h4, h5, h6, toAction_code]
  simp only [bind, Except.bind, h7, m.sized, dite_true]
  rfl

theorem deserialize_virtualLogEntry {m : VirtualLogEntry} (h : Holds r (virtualLogEntry m).ownFields)
    (o : VirtualLogEntry) :
    (virtualLogEntry o).deserialize r = .ok (virtualLogEntry { m with processed := o.processed }) := by
  have h4 := got_uint32 h 4 m.key (by simp [ownFields]) (by decide)
  have h5 := got_uint32 h 5 (actionCode m.action) (by simp [ownFields]) (by decide)
  have h6 := got_int32 h 6 m.vsize (by simp [ownFields]) (by decide)
  have h7 := got_uint32 h 7 m.minViewpoint (by simp [ownFields]) (by decide)
  have h8 := got_uint32 h 8 m.maxViewpoint (by simp [ownFields]) (by decide)
  rw [deserialize, decode, h4, h5, h6, h7, h8, toAction_code]
  rfl

theorem deserialize_peerInfo {m : PeerInfo} (h : Holds r (peerInfo m).ownFields)
    (hlen : m.address.length < 2 ^ 32) (o : PeerInfo) :
    (peerInfo o).deserialize r = .ok (peerInfo { m.setAddress m.address with
      virtualKeySpaceVersion := o.virtualKeySpaceVersion }) := by
  have h4 := got_uint32 h 4 m.serverId (by simp [ownFields]) (by decide)
  obtain ⟨rest, h5⟩ := h (5, .string m.address) (by simp [ownFields])
  have h5 := getStringField_bucket (by decide : (5 : BitVec 32) < fieldMax) hlen h5 []
  have h6 := got_uint32 h 6 m.mapBehavior.code (by simp [ownFields]) (by decide)
  have h7 := got_uint64 h 7 m.facilitator (by simp [ownFields]) (by decide)
  rw [deserialize, h4, h5, h6, h7, toBehavior_code]
  rfl

theorem deserialize_version {v : BitVec 64} (h : Holds r (version v).ownFields) (o : BitVec 64) :
    (version o).deserialize r = .ok (version v) := by
  rw [deserialize, got_int64 h 4 v (by simp [ownFields]) (by decide) o]

theorem setAddress_self {m : PeerInfo} (h : 0 ∉ m.address) : m.setAddress m.address = m := by
  have ht : m.address.takeWhile (· ≠ 0) = m.address :=
    List.takeWhile_eq_self_iff.mpr fun b hb => by simpa using fun h0 : b = 0 => h (h0 ▸ hb)
  rw [PeerInfo.setAddress, ht]

theorem address_lt {m : PeerInfo} (h : (peerInfo m).Short service base) : m.address.length < 2 ^ 32 := by
  have hl : m.address.length ≤ (encodeAll ((peerInfo m).fields service base)).length := by
    cases service <;> simp [fields, baseFields, ownFields, encodeAll, Field.encode, Field.payload] <;> omega
  rw [Short] at h
  omega

/-- A short message fills its writer, every setter succeeds, and a reader has its fields. -/
theorem sent (hm : m.Short service base) : ∃ w r,
    m.serialize service base = ((m.fields service base).map fun _ => 0, w)
      ∧ w.reached = w.actualLen.toNat ∧ w.written.length = w.actualLen.toNat
      ∧ w.actualLen.toNat = (m.size service base).toNat + 16
      ∧ decodeFields (.create w.written) = .ok (0, r) ∧ Holds r m.ownFields := by
  obtain ⟨w, r, hall, hreached, hlen, hact, hdec, -, hfields⟩ := write_decode (m.fields_lt service base)
    (m.fields_nodup service base) (m.fields_fit service base) (service.getMessageId m.messageId) hm
  rw [← m.size_eq] at hact
  exact ⟨w, r, (m.serialize_eq service base).trans hall, hreached, hlen, hact, hdec,
    fun p hp => hfields p (List.mem_append_right _ hp)⟩

/-- The size of a message is the sum of the sizes of its fields, also as a number without a bound. -/
theorem size_toNat (hm : m.Short service base) :
    (m.size service base).toNat = ((m.fields service base).map fun p => p.2.sizeOf.toNat).sum := by
  have sum_eq (fs : List (BitVec 32 × Field)) (h : (encodeAll fs).length < 2 ^ 32) :
      (encodeAll fs).length = (fs.map fun p => p.2.sizeOf.toNat).sum := by
    induction fs with
    | nil => rfl
    | cons p fs ih =>
      rw [encodeAll_cons, List.length_append] at h
      rw [encodeAll_cons, List.length_append, List.map_cons, List.sum_cons, sizeOf_toNat p.1 p.2 (by omega), ih (by omega)]
  have hlt : (encodeAll (m.fields service base)).length < 2 ^ 32 := by
    rw [Short] at hm
    omega
  rw [size_eq, sizeAll_toNat _ hlt, sum_eq _ hlt]

theorem deserialize_carried {into : Message} (hkind : into.messageId = m.messageId) (hm : m.Fits service base)
    (h : Holds r m.ownFields) : into.deserialize r = .ok (m.carried into) := by
  cases m with
  | statusRequest m =>
    cases into with
    | statusRequest o => exact deserialize_statusRequest h o
    | _ => simp [messageId] at hkind
  | statusResponse m =>
    cases into with
    | statusResponse o => exact deserialize_statusResponse h o
    | _ => simp [messageId] at hkind
  | dataRequest m =>
    cases into with
    | dataRequest o => exact deserialize_dataRequest h o
    | _ => simp [messageId] at hkind
  | virtualInfo m =>
    cases into with
    | virtualInfo o => exact deserialize_virtualInfo h o
    | _ => simp [messageId] at hkind
  | dataLogEntry m =>
    cases into with
    | dataLogEntry o => exact deserialize_dataLogEntry h o
    | _ => simp [messageId] at hkind
  | virtualLogEntry m =>
    cases into with
    | virtualLogEntry o => exact deserialize_virtualLogEntry h o
    | _ => simp [messageId] at hkind
  | peerInfo m =>
    cases into with
    | peerInfo o =>
      have hlen := address_lt service base hm.1
      rw [deserialize_peerInfo h hlen o, setAddress_self hm.2]
      rfl
    | _ => simp [messageId] at hkind
  | version v =>
    cases into with
    | version o => exact deserialize_version h o
    | _ => simp [messageId] at hkind

/-- Every message that fits is accepted by its writer, field by field, fills it, and comes back as it was, but for what
    it does not carry. -/
theorem round_trip (m into : Message) (hkind : into.messageId = m.messageId) (hm : m.Fits service base) :
    (m.size service base).toNat = ((m.fields service base).map fun p => p.2.sizeOf.toNat).sum
      ∧ (∀ status ∈ (m.serialize service base).1, status = 0)
      ∧ (m.serialize service base).2.written.length = (m.size service base).toNat + 16
      ∧ (m.serialize service base).2.reached = (m.serialize service base).2.actualLen.toNat
      ∧ into.receive (m.serialize service base).2.written = .ok (m.carried into) := by
  have hshort := fits_short service base hm
  obtain ⟨w, r, hser, hreached, hlen, hact, hdec, hfields⟩ := sent service base hshort
  rw [hser]
  refine ⟨size_toNat service base hshort, by simp, hlen.trans hact, hreached, ?_⟩
  rw [receive, hdec]
  exact deserialize_carried service base hkind hm hfields

/-- A peer's address and everything else arrives; the version of its key space is the target's. -/
theorem peer_round_trip : (peerInfo ⟨1, [49, 48], .master, 0x7f00, 5⟩).Fits .fabric ⟨1, 2, 3⟩
    ∧ (peerInfo ⟨0, [], .standalone, 0, 0⟩).receive
        ((peerInfo ⟨1, [49, 48], .master, 0x7f00, 5⟩).serialize .fabric ⟨1, 2, 3⟩).2.written
      = .ok (peerInfo ⟨1, [49, 48], .master, 0x7f00, 0⟩) := by
  have hm : (peerInfo ⟨1, [49, 48], .master, 0x7f00, 5⟩).Fits .fabric ⟨1, 2, 3⟩ := by
    refine ⟨?_, by simp⟩
    rw [Short]
    decide +kernel
  exact ⟨hm, (round_trip .fabric ⟨1, 2, 3⟩ (peerInfo ⟨1, [49, 48], .master, 0x7f00, 5⟩) (peerInfo ⟨0, [], .standalone, 0, 0⟩)
    rfl hm).2.2.2.2⟩

/-! ## What is not carried -/

theorem receive_sent {into : Message} (hm : m.Short service base) {result : Except Fault Message}
    (h : ∀ r, Holds r m.ownFields → into.deserialize r = result) :
    into.receive (m.serialize service base).2.written = result := by
  obtain ⟨w, r, hser, -, -, -, hdec, hfields⟩ := sent service base hm
  rw [hser, receive, hdec]
  exact h r hfields

theorem writeAll_append (w : Writer) (l l' : List (Writer → Int × Writer)) :
    (writeAll w (l ++ l')).2 = (writeAll (writeAll w l).2 l').2 := by
  induction l generalizing w with
  | nil => rfl
  | cons call l ih => exact ih _

/-- A raw field whose length wraps to what is left: the check passes, and the bytes run past the end. -/
theorem setRawField_overrun {w : Writer} (hw : w.Ok) (hleft : w.bufferLen.toNat = 7) {id : BitVec 32} (hid : id < fieldMax)
    {bytes : Bytes} (hlong : bytes.length = 2 ^ 32 - 1) :
    (setRawField id bytes w).2.actualLen.toNat < (setRawField id bytes w).2.reached := by
  obtain ⟨-, -, hact, hleft₁⟩ := put_ok hw (writeFixed32 (makeHeader FieldType.raw.code id)) (by simp; omega)
  rw [hleft, length_writeFixed32] at hleft₁
  have hsize : sizeOfRaw (BitVec.ofNat 32 bytes.length) = 7#32 := by rw [hlong]; rfl
  have hraw : writeRaw bytes (w.put (writeFixed32 (makeHeader FieldType.raw.code id))).bufferLen
      = writeFixed32 (BitVec.ofNat 32 bytes.length) ++ bytes := by
    have h3 : (BitVec.ofNat 32 bytes.length + 4).toNat = 3 := by rw [hlong]; rfl
    rw [writeRaw, if_neg]
    rw [gt_iff_lt, BitVec.lt_def, h3]
    omega
  have h7 : ¬w.bufferLen < 7#32 := by
    rw [BitVec.lt_def, hleft]
    decide
  have hlt := w.actualLen.isLt
  rw [setRawField, setField, if_neg (BitVec.not_le.mpr hid), hsize, if_neg h7]
  simp only [hraw]
  refine Nat.lt_of_lt_of_le ?_ (Nat.le_max_right _ _)
  rw [List.length_append, hlong, length_writeFixed32]
  exact Nat.lt_of_lt_of_le hlt (by omega)

/-- A byte array that is longer by its headers than a uinttype counts is written past the end of the buffer. -/
theorem overlong {m : DataLogEntry} (hlong : m.data.length = 2 ^ 32 - 1) :
    ((dataLogEntry m).serialize .object base).2.actualLen.toNat < ((dataLogEntry m).serialize .object base).2.reached := by
  let fs : List (BitVec 32 × Field) := [(4, .uint32 m.key), (5, .uint32 (actionCode m.action)), (6, .uint32 m.viewpoint)]
  have hn : (encodeAll fs).length ≤ 14 * fs.length := length_encodeAll_le (by simp [fs, IsNumber])
  have hn : (encodeAll fs).length ≤ 42 := hn
  have hsize : (dataLogEntry m).size .object base = sizeAll fs + 7#32 := by
    have h7 : sizeOfRaw m.size = 7#32 := by rw [DataLogEntry.size, hlong]; rfl
    rw [size, h7]
    rfl
  have hall := sizeAll_toNat fs (by omega)
  have hnat : (sizeAll fs + 7#32).toNat = (encodeAll fs).length + 7 := by
    rw [BitVec.toNat_add, hall]
    exact Nat.mod_eq_of_lt (by simp; omega)
  obtain ⟨hok, hact, hbuf, hwr⟩ := create_ok (sizeAll fs + 7#32) 5 (by omega)
  obtain ⟨w, hw, hwok, hwritten, hact'⟩ := writeAll_ok fs (by simp [fs, fieldMax]) hok (by rw [hbuf]; omega)
  have hleft : w.bufferLen.toNat = 7 := by
    have hl := hwok.left
    have h16 : (writeFixed32 deepMagic ++ writeFixed32 Wire.version ++ writeFixed32 5 ++ writeFixed32 (sizeAll fs + 7#32)).length
      = 16 := rfl
    rw [hact', hact, hwritten, hwr, List.length_append, h16, hnat] at hl
    omega
  have hser : ((dataLogEntry m).serialize .object base).2 = (setRawField 7 m.data w).2 := by
    rw [serialize, hsize]
    have := writeAll_append (.create (sizeAll fs + 7#32) 5) (fs.map fun p => p.2.set p.1) [setRawField 7 m.data]
    rw [hw] at this
    exact this
  rw [hser]
  exact setRawField_overrun hwok hleft (by decide) hlong

/-- A flag that is set, a version, an address with a NUL do not come back, and an entry of 2^32 - 1 bytes overruns. -/
theorem not_all_carried :
    (virtualLogEntry ⟨.none, 0, false, 0, 0, 0⟩).receive
        ((virtualLogEntry ⟨.add, 1, true, 2, 3, 4⟩).serialize .object ⟨1, 2, 3⟩).2.written
      ≠ .ok (virtualLogEntry ⟨.add, 1, true, 2, 3, 4⟩)
    ∧ (peerInfo ⟨0, [], .standalone, 0, 0⟩).receive
        ((peerInfo ⟨1, [49], .master, 0, 5⟩).serialize .object ⟨1, 2, 3⟩).2.written ≠ .ok (peerInfo ⟨1, [49], .master, 0, 5⟩)
    ∧ (peerInfo ⟨0, [], .standalone, 0, 0⟩).receive
        ((peerInfo ⟨1, [49, 0, 48], .master, 0, 0⟩).serialize .object ⟨1, 2, 3⟩).2.written
      ≠ .ok (peerInfo ⟨1, [49, 0, 48], .master, 0, 0⟩)
    ∧ ¬∀ m : DataLogEntry, ((dataLogEntry m).serialize .object ⟨1, 2, 3⟩).2.reached
        ≤ ((dataLogEntry m).serialize .object ⟨1, 2, 3⟩).2.actualLen.toNat := by
  refine ⟨?_, ?_, ?_, ?_⟩
  · have hm : (virtualLogEntry ⟨.add, 1, true, 2, 3, 4⟩).Fits .object ⟨1, 2, 3⟩ := trivial
    rw [receive_sent .object _ (fits_short .object _ hm) fun r h => deserialize_virtualLogEntry h _]
    simp
  · rw [receive_sent .object _ (by rw [Short]; decide +kernel) fun r h => deserialize_peerInfo h (by simp) _]
    simp
  · rw [receive_sent .object _ (by rw [Short]; decide +kernel) fun r h => deserialize_peerInfo h (by simp) _]
    simp [PeerInfo.setAddress]
  · intro h
    have hlen : (List.replicate (2 ^ 32 - 1) (0 : UInt8)).length = 2 ^ 32 - 1 := List.length_replicate
    have hlt : (List.replicate (2 ^ 32 - 1) (0 : UInt8)).length < 2 ^ 32 := by
      rw [hlen]
      omega
    exact absurd (h ⟨.add, 1, 2, List.replicate (2 ^ 32 - 1) 0, hlt⟩) (Nat.not_le.mpr (overlong ⟨1, 2, 3⟩ hlen))

end Message

end DeepFabric.Distributed.Serializer
