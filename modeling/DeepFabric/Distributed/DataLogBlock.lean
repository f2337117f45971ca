/-
  DeepFabric.Distributed.DataLogBlock — a list of data log entries in one message
  (distributed/LogEntry.h: getBytes, setBytes; distributed/Serializer.h: DataLogEntryBlock),
  for 32-bit keys.

  Entry after entry is copied into a block, and the reader walks it by the sizes it finds. The block
  is allocated when the first entry is copied, for as many entries of that size ("TODO: handle
  resize"). An entry's numbers are copied as they lie in memory, which is little endian here, and all
  sizes are 32 bits wide. The do loop calls the first entry before it asks whether there is one.

  - `second_entry_overruns`: a list whose second entry is longer than its first, and the empty list.
-/
import DeepFabric.Distributed.Serializer

namespace DeepFabric.Distributed.Serializer

open DeepFabric.Wire List
open BitVec (ofNat toNat_add toNat_ofNat)

/-- What goes wrong besides a fault of the message. -/
inductive BlockFault where
  | wire (fault : Fault)
  /-- A call on an entry that is null. -/
  | null
  /-- What is deleted was not allocated. -/
  | free
  deriving DecidableEq, Repr

/-! ## Entries -/

namespace DataLogEntry

/-- What is copied for an entry. -/
def image (e : DataLogEntry) : Bytes :=
  writeFixed32 (actionCode e.action) ++ writeFixed32 e.key ++ writeFixed32 e.viewpoint ++ writeFixed32 e.size ++ e.data

/-- The bytes and `*size`; a size that wraps is one of too few bytes. -/
def getBytes (e : DataLogEntry) : Except BlockFault (Bytes × BitVec 32) :=
  let size := 4 + 4 + 4 + 4 + e.size
  if e.image.length ≤ size.toNat then .ok (e.image, size) else .error (.wire .overrun)

/-- The entry in the bytes from a pointer on, and how many it has. -/
def setBytes (bytes : Bytes) : Except BlockFault (DataLogEntry × BitVec 32) :=
  Except.mapError .wire do
    let action ← toAction (← readFixed32 bytes)
    let key ← readFixed32 (bytes.drop 4)
    let viewpoint ← readFixed32 (bytes.drop 8)
    let size ← readFixed32 (bytes.drop 12)
    let data ← copy (bytes.drop 16) size
    if h : data.length < 2 ^ 32 then return (⟨action, key, viewpoint, data, h⟩, 4 + 4 + 4 + 4 + size) else throw .overrun

end DataLogEntry

/-! ## The block -/

/-- The loop of serialize: `allocated` is the size of the block, none as long as it is null, and `block` the bytes below `pointer`. -/
def encodeEntries (entryCount : BitVec 32) :
    List DataLogEntry → Option (BitVec 32) → Bytes → BitVec 32 → Except BlockFault (Bytes × BitVec 32)
  | [], _, block, pointer => .ok (block, pointer)
  | entry :: rest, allocated, block, pointer => do
    let (bytes, entrySize) ← entry.getBytes
    let allocated := allocated.getD (entryCount * entrySize)
    if pointer.toNat + entrySize.toNat ≤ allocated.toNat then
      encodeEntries entryCount rest (some allocated) (block ++ bytes) (pointer + entrySize)
    else .error (.wire .overrun)

/-- The number of entries, the block and how much of it is used. -/
def encodeBlock (dataLogEntries : List DataLogEntry) : Except BlockFault (BitVec 32 × Bytes × BitVec 32) :=
  match dataLogEntries with
  | [] => .error .null
  | _ :: _ => do
    let entryCount := ofNat 32 dataLogEntries.length
    let (block, pointer) ← encodeEntries entryCount dataLogEntries none [] 0
    return (entryCount, block, pointer)

/-- The loop of deserialize, for the entries that are left. -/
def decodeEntries (block : Bytes) : Nat → BitVec 32 → List DataLogEntry → Except BlockFault (List DataLogEntry)
  | 0, _, dataLogEntries => .ok dataLogEntries
  | left + 1, pointer, dataLogEntries => do
    let (logEntry, size) ← DataLogEntry.setBytes (block.drop pointer.toNat)
    decodeEntries block left (pointer + size) (dataLogEntries ++ [logEntry])

def decodeBlock (entryCount : BitVec 32) (block : Bytes) : Except BlockFault (List DataLogEntry) := decodeEntries block entryCount.toNat 0 []

/-! ## The message -/

variable (service : MessageService) (base : BaseMessageData)

/-- MSG_ID_DATA_LOG_ENTRY_BLOCK is 6, the count is field 4 and the block field 5. -/
def serializeBlock (dataLogEntries : List DataLogEntry) : Except BlockFault (List Int × Writer) := do
  let (entryCount, block, pointer) ← encodeBlock dataLogEntries
  let size := service.getBaseMessageSize base + sizeOfUint32 entryCount + sizeOfRaw pointer
  return writeAll (.create size (service.getMessageId 0x00000006))
    (service.encodeBaseMessage base ++ [setUint32Field 4 entryCount, setRawField 5 (block.take pointer.toNat)])

/-- deserialize(encodeReader, dataLogEntries), into an empty list. -/
def deserializeBlock (r : Reader) : Except BlockFault (List DataLogEntry) :=
  decodeBlock (getUint32Field r 4 0).2 (getRawFieldRef r 5 [] 0).2.1

/-- deserialize(dataLogEntries, data, dataSize): a block that is not empty lies in the data, and is deleted. -/
def deserializeData (data : Bytes) : Except BlockFault (List DataLogEntry) := do
  let (_, r) ← Except.mapError .wire (decodeFields (.create data))
  let dataLogEntries ← deserializeBlock r
  if (getRawFieldRef r 5 [] 0).2.2 = 0 then return dataLogEntries else throw .free

/-- The list is encoded inside its block, and decoded to itself. -/
def Carried (l : List DataLogEntry) : Prop :=
  ∃ entryCount block pointer, encodeBlock l = .ok (entryCount, block, pointer) ∧ decodeBlock entryCount (block.take pointer.toNat) = .ok l

/-! ## As built -/

def short : DataLogEntry := ⟨.remove, 1, 2, [], by decide⟩

theorem seven_sized : ([7] : Bytes).length < 2 ^ 32 := by decide

def long : DataLogEntry := ⟨.add, 3, 2, [7], seven_sized⟩

theorem second_entry_overruns : encodeBlock [short, long] = .error (.wire .overrun) ∧ encodeBlock [] = .error .null ∧
    ¬Carried [short, long] ∧ ¬Carried [] := by
  have hlong : encodeBlock [short, long] = .error (.wire .overrun) := by decide
  have hnull : encodeBlock [] = .error .null := rfl
  refine ⟨hlong, hnull, fun ⟨_, _, _, h, _⟩ => ?_, fun ⟨_, _, _, h, _⟩ => ?_⟩
  · rw [hlong] at h
    cases h
  · rw [hnull] at h
    cases h

/-! ## An entry -/

namespace DataLogEntry

variable {e : DataLogEntry}

/-- The size of an entry does not wrap. -/
def Small (e : DataLogEntry) : Prop := e.data.length + 16 < 2 ^ 32

theorem length_image : e.image.length = 16 + e.data.length := by
  simp only [image, length_append, length_writeFixed32]

theorem size_toNat : (4 + 4 + 4 + 4 + e.size).toNat = (16 + e.data.length) % 2 ^ 32 := by
  rw [show (4 + 4 + 4 + 4 : BitVec 32) = ofNat 32 16 from rfl, size, ← BitVec.ofNat_add, toNat_ofNat]

theorem Small.size (h : e.Small) : (4 + 4 + 4 + 4 + e.size).toNat = e.image.length := by
  unfold Small at h
  rw [size_toNat, length_image]
  exact Nat.mod_eq_of_lt (by omega)

theorem Small.getBytes (h : e.Small) : e.getBytes = .ok (e.image, 4 + 4 + 4 + 4 + e.size) := if_pos h.size.ge

theorem getBytes_wraps (h : ¬e.Small) : e.getBytes = .error (.wire .overrun) := by
  refine if_neg ?_
  unfold Small at h
  rw [size_toNat, length_image]
  omega

theorem setBytes_image (rest : Bytes) : setBytes (e.image ++ rest) = .ok (e, 4 + 4 + 4 + 4 + e.size) := by
  have haction : readFixed32 (e.image ++ rest) = .ok (actionCode e.action) := by
    rw [image, append_assoc, append_assoc, append_assoc, append_assoc]
    exact read_writeFixed32 _ _
  have hkey : readFixed32 ((e.image ++ rest).drop 4) = .ok e.key := by
    rw [image, append_assoc, append_assoc, append_assoc, append_assoc]
    exact read_writeFixed32 e.key _
  have hviewpoint : readFixed32 ((e.image ++ rest).drop 8) = .ok e.viewpoint := by
    rw [image, append_assoc, append_assoc, append_assoc, append_assoc]
    exact read_writeFixed32 e.viewpoint _
  have hsize : readFixed32 ((e.image ++ rest).drop 12) = .ok e.size := by
    rw [image, append_assoc, append_assoc, append_assoc, append_assoc]
    exact read_writeFixed32 e.size _
  have hdata : copy ((e.image ++ rest).drop 16) e.size = .ok e.data := by
    have hlen : e.size.toNat = e.data.length := by
      rw [size, toNat_ofNat]
      exact Nat.mod_eq_of_lt e.sized
    have hdrop : (e.image ++ rest).drop 16 = e.data ++ rest := by
      rw [image, append_assoc, append_assoc, append_assoc, append_assoc]
      rfl
    rw [hdrop, copy, hlen, if_pos (by simp), take_left]
  unfold setBytes
  simp only [bind, Except.bind, haction, toAction_code, hkey, hviewpoint, hsize, hdata, e.sized, dite_true]
  rfl

end DataLogEntry

/-! ## The loops -/

section Loops

variable {entryCount allocated pointer : BitVec 32} {e : DataLogEntry} {es : List DataLogEntry} {block post : Bytes}

/-- The images of a list of entries, one behind the other. -/
def images (es : List DataLogEntry) : Bytes := es.flatMap DataLogEntry.image

theorem encodeEntries_ok (hpointer : pointer.toNat = block.length) (hsmall : ∀ e ∈ es, e.Small)
    (hroom : (block ++ images es).length ≤ allocated.toNat) :
    encodeEntries entryCount es (some allocated) block pointer = .ok (block ++ images es, ofNat 32 (block ++ images es).length) := by
  induction es generalizing block pointer with
  | nil => simp [encodeEntries, images, ← hpointer]
  | cons e es ih =>
    have he := hsmall e mem_cons_self
    have himages : block ++ images (e :: es) = block ++ e.image ++ images es := by simp [images]
    rw [himages] at hroom ⊢
    have hnext : (pointer + (4 + 4 + 4 + 4 + e.size)).toNat = (block ++ e.image).length := by
      rw [length_append] at hroom
      rw [toNat_add, he.size, hpointer, length_append]
      rw [length_append] at hroom
      exact Nat.mod_eq_of_lt (by omega)
    rw [encodeEntries, he.getBytes]
    simp only [bind, Except.bind, Option.getD_some]
    rw [if_pos, ih hnext (forall_mem_cons.mp hsmall).2 hroom]
    rw [hpointer, he.size]
    rw [length_append, length_append] at hroom
    omega

theorem of_encodeEntries_ok {r : Bytes × BitVec 32} (hpointer : pointer.toNat = block.length) (hblock : block.length ≤ allocated.toNat)
    (h : encodeEntries entryCount es (some allocated) block pointer = .ok r) :
    (∀ e ∈ es, e.Small) ∧ (block ++ images es).length ≤ allocated.toNat := by
  induction es generalizing block pointer with
  | nil => simpa [images] using hblock
  | cons e es ih =>
    rw [encodeEntries] at h
    by_cases he : e.Small
    · rw [he.getBytes] at h
      simp only [bind, Except.bind, Option.getD_some] at h
      split at h
      · rename_i hroom
        have hnext : (pointer + (4 + 4 + 4 + 4 + e.size)).toNat = (block ++ e.image).length := by
          rw [he.size, hpointer] at hroom
          rw [toNat_add, he.size, hpointer, length_append]
          exact Nat.mod_eq_of_lt (by omega)
        have hblock' : (block ++ e.image).length ≤ allocated.toNat := by
          rw [length_append, ← he.size, ← hpointer]
          exact hroom
        obtain ⟨hsmall, hlen⟩ := ih hnext hblock' h
        refine ⟨forall_mem_cons.mpr ⟨he, hsmall⟩, ?_⟩
        simpa [images] using hlen
      · cases h
    · rw [DataLogEntry.getBytes_wraps he] at h
      cases h

/-- The first turn allocates the block, for entries of its own size. -/
theorem encodeEntries_none : encodeEntries entryCount (e :: es) none block pointer =
    encodeEntries entryCount (e :: es) (some (entryCount * (4 + 4 + 4 + 4 + e.size))) block pointer := by
  rw [encodeEntries, encodeEntries]
  by_cases he : e.Small
  · rw [he.getBytes]
    rfl
  · rw [DataLogEntry.getBytes_wraps he]
    rfl

theorem decodeEntries_images {acc : List DataLogEntry} (hpointer : pointer.toNat = block.length) (hlen : (block ++ images es).length < 2 ^ 32) :
    decodeEntries (block ++ images es ++ post) es.length pointer acc = .ok (acc ++ es) := by
  induction es generalizing block pointer acc with
  | nil => simp [decodeEntries]
  | cons e es ih =>
    have himages : block ++ images (e :: es) = block ++ e.image ++ images es := by simp [images]
    rw [himages] at hlen ⊢
    have hsmall : e.Small := by
      unfold DataLogEntry.Small
      rw [length_append, length_append, DataLogEntry.length_image] at hlen
      omega
    have hnext : (pointer + (4 + 4 + 4 + 4 + e.size)).toNat = (block ++ e.image).length := by
      rw [length_append] at hlen
      rw [toNat_add, hsmall.size, hpointer, length_append]
      rw [length_append] at hlen
      exact Nat.mod_eq_of_lt (by omega)
    have hdrop : (block ++ e.image ++ images es ++ post).drop pointer.toNat = e.image ++ (images es ++ post) := by
      rw [hpointer, append_assoc, append_assoc, drop_left]
    rw [length_cons, decodeEntries, hdrop, DataLogEntry.setBytes_image]
    simp only [bind, Except.bind]
    rw [ih hnext hlen, append_assoc, singleton_append]

end Loops

/-! ## The block -/

/-- A list is not empty, and all of it fits in the block that is allocated for its first entry. -/
def FitsBlock : List DataLogEntry → Prop
  | [] => False
  | e :: es => (∀ x ∈ e :: es, x.Small) ∧
      ((e :: es).map fun x => 16 + x.data.length).sum ≤ (e :: es).length * (16 + e.data.length) % 2 ^ 32

theorem allocated_toNat (e : DataLogEntry) (es : List DataLogEntry) :
    (ofNat 32 (e :: es).length * (4 + 4 + 4 + 4 + e.size)).toNat = (e :: es).length * (16 + e.data.length) % 2 ^ 32 := by
  rw [BitVec.toNat_mul, DataLogEntry.size_toNat, toNat_ofNat, ← Nat.mul_mod]

theorem length_images (es : List DataLogEntry) : (images es).length = (es.map fun x => 16 + x.data.length).sum := by
  rw [images, length_flatMap]
  exact congrArg List.sum (map_congr_left fun x _ => DataLogEntry.length_image)

theorem length_le_images (es : List DataLogEntry) : es.length ≤ (images es).length := by
  rw [length_images]
  induction es with
  | nil => exact Nat.le_refl 0
  | cons e es ih =>
    rw [length_cons, map_cons, sum_cons]
    omega

variable {l : List DataLogEntry}

theorem encodeBlock_ok (h : FitsBlock l) : encodeBlock l = .ok (ofNat 32 l.length, images l, ofNat 32 (images l).length) ∧
    (images l).length < 2 ^ 32 ∧ l.length < 2 ^ 32 := by
  cases l with
  | nil => exact h.elim
  | cons e es =>
    obtain ⟨hsmall, hroom⟩ := h
    rw [← length_images, ← allocated_toNat] at hroom
    have hlt : (images (e :: es)).length < 2 ^ 32 := Nat.lt_of_le_of_lt hroom (BitVec.isLt _)
    refine ⟨?_, hlt, Nat.lt_of_le_of_lt (length_le_images _) hlt⟩
    unfold encodeBlock
    simp only
    rw [encodeEntries_none, encodeEntries_ok rfl hsmall hroom]
    rfl

theorem fits_of_encodeBlock {r : BitVec 32 × Bytes × BitVec 32} (h : encodeBlock l = .ok r) : FitsBlock l := by
  cases l with
  | nil => cases h
  | cons e es =>
    unfold encodeBlock at h
    simp only at h
    rw [encodeEntries_none] at h
    cases hrun : encodeEntries (ofNat 32 (e :: es).length) (e :: es)
        (some (ofNat 32 (e :: es).length * (4 + 4 + 4 + 4 + e.size))) [] 0 with
    | error fault =>
      rw [hrun] at h
      cases h
    | ok r =>
      obtain ⟨hsmall, hroom⟩ := of_encodeEntries_ok rfl (Nat.zero_le _) hrun
      refine ⟨hsmall, ?_⟩
      rw [← length_images, ← allocated_toNat]
      exact hroom

/-- A list that fits is decoded to itself, whatever lies behind its block. -/
theorem decodeBlock_images (h : FitsBlock l) (post : Bytes) : decodeBlock (ofNat 32 l.length) (images l ++ post) = .ok l := by
  obtain ⟨-, himages, hcount⟩ := encodeBlock_ok h
  rw [decodeBlock, toNat_ofNat, Nat.mod_eq_of_lt hcount]
  exact @decodeEntries_images 0 l [] post [] rfl himages

/-- A list stays inside its block and comes back exactly if it fits. -/
theorem block_iff (l : List DataLogEntry) : Carried l ↔ FitsBlock l := by
  constructor
  · intro ⟨entryCount, block, pointer, h, _⟩
    exact fits_of_encodeBlock h
  · intro h
    obtain ⟨hencode, hlt, -⟩ := encodeBlock_ok h
    refine ⟨_, _, _, hencode, ?_⟩
    rw [toNat_ofNat, Nat.mod_eq_of_lt hlt, take_length]
    simpa using decodeBlock_images h []

/-! ## The message -/

/-- The fields of the message. -/
def blockFields (l : List DataLogEntry) : List (BitVec 32 × Field) :=
  Message.baseFields base service ++ [(4, .uint32 (ofNat 32 l.length)), (5, .raw (images l))]

theorem serializeBlock_eq (h : FitsBlock l) : serializeBlock service base l = .ok (writeAll
    (.create (sizeAll (blockFields service base l)) (service.getMessageId 6)) ((blockFields service base l).map fun p => p.2.set p.1)) := by
  obtain ⟨hencode, hlt, -⟩ := encodeBlock_ok h
  unfold serializeBlock
  rw [hencode]
  simp only [bind, Except.bind, pure, Except.pure, toNat_ofNat, Nat.mod_eq_of_lt hlt, take_length]
  cases service with
  | object => simp [blockFields, Message.baseFields, sizeAll, Field.sizeOf, MessageService.getBaseMessageSize]; rfl
  | fabric => simp [blockFields, Message.baseFields, sizeAll, Field.sizeOf, MessageService.getBaseMessageSize]; rfl

variable (h : FitsBlock l) (hshort : (encodeAll (blockFields service base l)).length + 16 < 2 ^ 32)

include h hshort in
theorem blockSent : ∃ statuses w r,
    serializeBlock service base l = .ok (statuses, w) ∧ (∀ status ∈ statuses, status = 0) ∧ decodeFields (.create w.written) = .ok (0, r) ∧
      Message.Holds r (blockFields service base l) := by
  have hid : ∀ p ∈ blockFields service base l, p.1 < fieldMax := by
    cases service <;> simp [blockFields, Message.baseFields, fieldMax]
  have hdup : ((blockFields service base l).map Prod.fst).Nodup := by
    cases service <;> simp [blockFields, Message.baseFields]
  have hfits : ∀ p ∈ blockFields service base l, p.2.Fits := by
    cases service <;> simp [blockFields, Message.baseFields, Field.Fits]
  obtain ⟨w, r, hall, -, -, -, hdecode, -, hfields⟩ := write_decode hid hdup hfits (service.getMessageId 6) hshort
  refine ⟨_, w, r, (serializeBlock_eq service base h).trans (congrArg Except.ok hall), ?_, hdecode, hfields⟩
  simp

/-- A reader that has the fields gives the list, and a pointer into the message. -/
theorem deserialize_held (h : FitsBlock l) {r : Reader} (hr : Message.Holds r (blockFields service base l)) :
    deserializeBlock r = .ok l ∧ (getRawFieldRef r 5 [] 0).2.2 ≠ 0 := by
  obtain ⟨-, hlt, -⟩ := encodeBlock_ok h
  have h4 := Message.got_uint32 hr 4 (ofNat 32 l.length) (by simp [blockFields]) (by decide)
  obtain ⟨rest, h5⟩ := hr (5, .raw (images l)) (by simp [blockFields])
  have hne : ofNat 32 (images l).length ≠ 0 := by
    intro hzero
    have hnat := congrArg BitVec.toNat hzero
    rw [toNat_ofNat, Nat.mod_eq_of_lt hlt] at hnat
    have hnil : images l = [] := eq_nil_of_length_eq_zero hnat
    cases l with
    | nil => exact h
    | cons e es =>
      have hlen := length_le_images (e :: es)
      rw [hnil] at hlen
      exact Nat.not_succ_le_zero _ hlen
  have href : getRawFieldRef r 5 [] 0 = (0, images l ++ rest, ofNat 32 (images l).length) := by
    unfold getRawFieldRef
    rw [if_neg (by decide), h5, Field.bucket, if_neg (by simp), if_neg hne]
    rfl
  unfold deserializeBlock
  rw [href]
  refine ⟨?_, hne⟩
  rw [h4]
  exact decodeBlock_images h rest

include h hshort in
/-- The overload for the data of such a message deletes what it did not allocate. -/
theorem deserializeData_frees :
    ∃ statuses w, serializeBlock service base l = .ok (statuses, w) ∧ deserializeData w.written = .error .free := by
  obtain ⟨statuses, w, r, hwrite, -, hdecode, hr⟩ := blockSent service base h hshort
  obtain ⟨hlist, hsize⟩ := deserialize_held service base h hr
  refine ⟨statuses, w, hwrite, ?_⟩
  unfold deserializeData
  simp only [hdecode, Except.mapError, bind, Except.bind, hlist]
  rw [if_neg hsize]
  rfl

end DeepFabric.Distributed.Serializer
