/-
  DeepFabric.Wire.Message — a whole message, from its writer to the getters of its reader
  (cxx/io/EncodeProtocol.h: setFlags and the getters of references).

  Flags are or'ed into the version word of the header at any time once it is written, and the
  reader keeps the second byte of that word.

  - `message_round_trip`: fields written in any order into a writer created for the sum of their
    sizes fill it, and a reader gives back the id, the flags and every field, and nothing else.
-/
import DeepFabric.Wire.EncodeProtocol

namespace DeepFabric.Wire

def replyFlag : BitVec 32 := 0x00000100
def firstFlag : BitVec 32 := 0x00000200
def lastFlag : BitVec 32 := 0x00000400
def blockFlag : BitVec 32 := 0x00000800

/-- setFlags(piBuffer, iFlags), on the bytes of a message. -/
def setFlagsAt (piBuffer : Bytes) (iFlags : BitVec 32) : Except Fault Bytes := do
  let iVerFlags ← readFixed32 (piBuffer.drop 4)
  return piBuffer.take 4 ++ writeFixed32 (iVerFlags ||| (version ||| iFlags)) ++ piBuffer.drop 8

def setFlags (iFlags : BitVec 32) (w : Writer) : Except Fault (Int × Writer) :=
  if w.iWritten = 0 ∨ w.iWritten < headerSize then .ok (-1, w)
  else (setFlagsAt w.written iFlags).map fun written => (0, { w with written := written })

namespace Reader

variable (r : Reader)

def isReply : Bool := replyFlag &&& r.flags ≠ 0
def isFirst : Bool := firstFlag &&& r.flags ≠ 0
def isLast : Bool := lastFlag &&& r.flags ≠ 0
def toBlock : Bool := blockFlag &&& r.flags ≠ 0

end Reader

def getStringFieldRef (r : Reader) (iId : BitVec 32) (pcStr : Bytes) (iSize : BitVec 32) : Int × Bytes × BitVec 32 :=
  if fieldMax ≤ iId then (-1, pcStr, iSize)
  else if .string ≠ (r.fields iId).iType then (-2, pcStr, iSize)
  else if (r.fields iId).encodedLen = 0 then (0, [], 0)
  else (0, (r.fields iId).values.raw, (r.fields iId).encodedLen)

def Values.array : Values → Option (List (BitVec 32))
  | .pArray a => a
  | _ => none

/-- The array goes over to the caller, and the field is left without it. -/
def getUint32ArrayField (r : Reader) (iId : BitVec 32) (pcValues : Option (List (BitVec 32))) :
    Int × Option (List (BitVec 32)) × Reader :=
  if fieldMax ≤ iId then (-1, pcValues, r)
  else if .uint32Array ≠ (r.fields iId).iType then (-2, pcValues, r)
  else (0, (r.fields iId).values.array, r.set iId ⟨.uint32Array, .pArray none, 0⟩)

def getBundleBuffer (r : Reader) (pBuffer : Bytes) (iSize : BitVec 32) : Int × Bytes × BitVec 32 :=
  if .bundle ≠ (r.fields fieldBundleId).iType then (-2, pBuffer, iSize)
  else if (r.fields fieldBundleId).encodedLen = 0 then (0, [], 0)
  else (0, (r.fields fieldBundleId).values.raw, (r.fields fieldBundleId).encodedLen)

/-- `getVoidPtr`, but for the pointer: no message carries one. -/
def getVoidPtr (r : Reader) (iId : BitVec 32) : Int :=
  if fieldMax ≤ iId then -1 else if .voidptr ≠ (r.fields iId).iType then -2 else 0

/-! ## Flags -/

theorem version_and (v f : BitVec 32) : version &&& (v ||| (version ||| f)) = version := by
  ext i hi
  simp only [BitVec.getElem_and, BitVec.getElem_or]
  cases version[i] <;> simp

theorem flags_or (f : BitVec 32) : (version ||| (version ||| f)) &&& 0x0000ff00 = f &&& 0x0000ff00 := by
  have h : version &&& 0x0000ff00#32 = 0 := rfl
  ext i hi
  have hi' : (version &&& 0x0000ff00#32)[i] = false := by
    rw [h]
    exact BitVec.getElem_zero hi
  simp only [BitVec.getElem_and, BitVec.getElem_or] at hi' ⊢
  revert hi'
  cases version[i] <;> cases f[i] <;> simp

theorem flag_and {flag : BitVec 32} (h : flag &&& 0x0000ff00 = flag) (f : BitVec 32) : flag &&& (f &&& 0x0000ff00) = flag &&& f := by
  rw [BitVec.and_comm f, ← BitVec.and_assoc, h]

theorem read_verFlags (verFlags msgId size : BitVec 32) (payload : Bytes) :
    readFixed32 ((messageHeader verFlags msgId size ++ payload).drop 4) = .ok verFlags :=
  read_writeFixed32 verFlags (writeFixed32 msgId ++ writeFixed32 size ++ payload)

theorem setFlagsAt_header (verFlags msgId size : BitVec 32) (payload : Bytes) (flags : BitVec 32) :
    setFlagsAt (messageHeader verFlags msgId size ++ payload) flags
      = .ok (messageHeader (verFlags ||| (version ||| flags)) msgId size ++ payload) := by
  rw [setFlagsAt, read_verFlags]
  rfl

theorem setFlags_ok {w : Writer} (hw : w.Ok) {verFlags msgId size : BitVec 32} {payload : Bytes}
    (h : w.written = messageHeader verFlags msgId size ++ payload) (flags : BitVec 32) :
    ∃ w', setFlags flags w = .ok (0, w') ∧ w'.Ok ∧ w'.actualLen = w.actualLen ∧ w'.bufferLen = w.bufferLen ∧
      w'.written = messageHeader (verFlags ||| (version ||| flags)) msgId size ++ payload := by
  have hlen : w.written.length = payload.length + 16 := by
    rw [h, List.length_append, Nat.add_comm]
    rfl
  have hiw : w.iWritten.toNat = payload.length + 16 := hw.iWritten.trans hlen
  have hnot : ¬(w.iWritten = 0 ∨ w.iWritten < headerSize) := by
    have h16 : headerSize.toNat = 16 := rfl
    rintro (h0 | hlt)
    · rw [h0, BitVec.ofNat_eq_ofNat, BitVec.toNat_zero] at hiw
      omega
    · rw [BitVec.lt_def] at hlt
      omega
  have hset : setFlagsAt w.written flags = .ok (messageHeader (verFlags ||| (version ||| flags)) msgId size ++ payload) := by
    rw [h]
    exact setFlagsAt_header verFlags msgId size payload flags
  refine ⟨{ w with written := messageHeader (verFlags ||| (version ||| flags)) msgId size ++ payload }, ?_, ⟨?_, ?_, ?_⟩, rfl, rfl, rfl⟩
  · rw [setFlags, if_neg hnot, hset]
    rfl
  all_goals
    have hlen' : (messageHeader (verFlags ||| (version ||| flags)) msgId size ++ payload).length = w.written.length := by
      rw [h]
      rfl
  · exact hw.reached.trans hlen'.symm
  · exact hw.iWritten.trans hlen'.symm
  · show (messageHeader (verFlags ||| (version ||| flags)) msgId size ++ payload).length + w.bufferLen.toNat = w.actualLen.toNat
    rw [hlen']
    exact hw.left

/-! ## Getters -/

/-- The statuses of the getters of a field, by the type each is for. -/
def statuses (r : Reader) (iId : BitVec 32) : List (FieldType × Except Fault Int) :=
  [(.int32, .ok (getInt32Field r iId 0).1), (.uint32, .ok (getUint32Field r iId 0).1), (.int64, .ok (getInt64Field r iId 0).1),
    (.uint64, .ok (getUint64Field r iId 0).1), (.float, .ok (getFloatField r iId 0).1), (.double, .ok (getDoubleField r iId 0).1),
    (.string, (getStringField r iId []).map Prod.fst), (.string, .ok (getStringFieldRef r iId [] 0).1),
    (.raw, .ok (getRawFieldRef r iId [] 0).1), (.uint32Array, .ok (getUint32ArrayField r iId none).1), (.voidptr, .ok (getVoidPtr r iId))]

theorem getNumber_of_ne {α : Type} {iType : FieldType} {value : Values → Option α} {r : Reader} {id : BitVec 32} (hid : id < fieldMax)
    (h : iType ≠ (r.fields id).iType) (iVal : α) : (getNumber iType value r id iVal).1 = -2 := by
  rw [getNumber, if_neg (BitVec.not_le.mpr hid), if_pos h]

theorem status_of_ne {r : Reader} {id : BitVec 32} (hid : id < fieldMax) {t : FieldType} {s : Except Fault Int}
    (h : (t, s) ∈ statuses r id) (ht : t ≠ (r.fields id).iType) : s = .ok (-2) := by
  have hid' : ¬fieldMax ≤ id := BitVec.not_le.mpr hid
  simp only [statuses, List.mem_cons, Prod.mk.injEq, List.not_mem_nil, or_false] at h
  rcases h with ⟨rfl, rfl⟩ | ⟨rfl, rfl⟩ | ⟨rfl, rfl⟩ | ⟨rfl, rfl⟩ | ⟨rfl, rfl⟩ | ⟨rfl, rfl⟩ | ⟨rfl, rfl⟩ | ⟨rfl, rfl⟩ | ⟨rfl, rfl⟩ |
    ⟨rfl, rfl⟩ | ⟨rfl, rfl⟩
  iterate 6 exact congrArg _ (getNumber_of_ne hid ht 0)
  · rw [getStringField, if_neg hid', if_pos ht]
    rfl
  · rw [getStringFieldRef, if_neg hid', if_pos ht]
  · rw [getRawFieldRef, if_neg hid', if_pos ht]
  · rw [getUint32ArrayField, if_neg hid', if_pos ht]
  · rw [getVoidPtr, if_neg hid', if_pos ht]

/-- The getters of a field's type give its value, whatever their out parameters were. -/
def Field.Got (r : Reader) (id : BitVec 32) : Field → Prop
  | int32 v => ∀ d, getInt32Field r id d = (0, v)
  | uint32 v => ∀ d, getUint32Field r id d = (0, v)
  | int64 v => ∀ d, getInt64Field r id d = (0, v)
  | uint64 v => ∀ d, getUint64Field r id d = (0, v)
  | float v => ∀ d, getFloatField r id d = (0, v)
  | double v => ∀ d, getDoubleField r id d = (0, v)
  | raw bytes => ∀ d n, (getRawFieldRef r id d n).1 = 0 ∧
      copy (getRawFieldRef r id d n).2.1 (getRawFieldRef r id d n).2.2 = .ok bytes
  | string bytes => (∀ d, getStringField r id d = .ok (0, bytes)) ∧ ∀ d n, (getStringFieldRef r id d n).1 = 0 ∧
      copy (getStringFieldRef r id d n).2.1 (getStringFieldRef r id d n).2.2 = .ok bytes
  | uint32Array vs => ∀ d, (getUint32ArrayField r id d).1 = 0 ∧ (getUint32ArrayField r id d).2.1 = some vs

theorem bucket_iType (f : Field) (rest : Bytes) : (f.bucket rest).iType = f.type := by
  cases f <;> rfl

theorem copy_ref {bytes : Bytes} (rest : Bytes) (hlen : bytes.length < 2 ^ 32) :
    let ref := if BitVec.ofNat 32 bytes.length = 0 then ((0 : Int), ([] : Bytes), (0 : BitVec 32))
      else (0, bytes ++ rest, BitVec.ofNat 32 bytes.length)
    ref.1 = 0 ∧ copy ref.2.1 ref.2.2 = .ok bytes := by
  dsimp only
  by_cases h0 : BitVec.ofNat 32 bytes.length = 0
  · rw [if_pos h0, eq_nil_of_length_zero hlen h0]
    exact ⟨rfl, rfl⟩
  · rw [if_neg h0]
    exact ⟨rfl, copy_append rest hlen⟩

theorem got_bucket {r : Reader} {id : BitVec 32} (hid : id < fieldMax) {f : Field} {rest : Bytes} (hlen : f.payload.length < 2 ^ 32)
    (h : r.fields id = f.bucket rest) : f.Got r id := by
  have hid' : ¬fieldMax ≤ id := BitVec.not_le.mpr hid
  cases f with
  | int32 v => exact getInt32Field_bucket hid h
  | uint32 v => exact getUint32Field_bucket hid h
  | int64 v => exact getInt64Field_bucket hid h
  | uint64 v => exact getUint64Field_bucket hid h
  | float v => exact fun d => getNumber_bucket d hid h (show (4 : BitVec 32) ≠ 0 by decide) rfl
  | double v => exact fun d => getNumber_bucket d hid h (show (8 : BitVec 32) ≠ 0 by decide) rfl
  | raw bytes =>
    rw [Field.payload, List.length_append] at hlen
    intro d n
    rw [getRawFieldRef, if_neg hid', h, Field.bucket, if_neg (by simp)]
    exact copy_ref rest (by omega)
  | string bytes =>
    rw [Field.payload, List.length_append] at hlen
    refine ⟨getStringField_bucket hid (by omega) h, fun d n => ?_⟩
    rw [getStringFieldRef, if_neg hid', h, Field.bucket, if_neg (by simp)]
    exact copy_ref rest (by omega)
  | uint32Array vs =>
    intro d
    rw [getUint32ArrayField, if_neg hid', h, Field.bucket, if_neg (by simp)]
    exact ⟨rfl, rfl⟩

/-! ## A whole message -/

theorem encodeAll_append (fs₁ fs₂ : List (BitVec 32 × Field)) : encodeAll (fs₁ ++ fs₂) = encodeAll fs₁ ++ encodeAll fs₂ :=
  List.flatMap_append

theorem payload_le_encodeAll {fs : List (BitVec 32 × Field)} {p : BitVec 32 × Field} (h : p ∈ fs) :
    p.2.payload.length ≤ (encodeAll fs).length := by
  obtain ⟨xs, ys, rfl⟩ := List.append_of_mem h
  rw [encodeAll_append, encodeAll_cons, List.length_append, List.length_append, Field.encode, List.length_append]
  omega

theorem message_round_trip {fs₁ fs₂ : List (BitVec 32 × Field)} (hid : ∀ p ∈ fs₁ ++ fs₂, p.1 < fieldMax)
    (hdup : ((fs₁ ++ fs₂).map Prod.fst).Nodup) (hfits : ∀ p ∈ fs₁ ++ fs₂, p.2.Fits) (msgId flags : BitVec 32)
    (h : (encodeAll (fs₁ ++ fs₂)).length + 16 < 2 ^ 32) :
    ∃ w₁ w₂ w r,
      writeAll (.create (sizeAll (fs₁ ++ fs₂)) msgId) (fs₁.map fun p => p.2.set p.1) = (fs₁.map fun _ => 0, w₁) ∧
      setFlags flags w₁ = .ok (0, w₂) ∧
      writeAll w₂ (fs₂.map fun p => p.2.set p.1) = (fs₂.map fun _ => 0, w) ∧
      w.iWritten = w.actualLen ∧ w.written.length = w.actualLen.toNat ∧ w.reached = w.actualLen.toNat ∧
      decodeFields (.create w.written) = .ok (0, r) ∧
      r.msgId = msgId ∧ r.flags = flags &&& 0x0000ff00 ∧
      (r.isReply ↔ replyFlag &&& flags ≠ 0) ∧ (r.isFirst ↔ firstFlag &&& flags ≠ 0) ∧
      (r.isLast ↔ lastFlag &&& flags ≠ 0) ∧ (r.toBlock ↔ blockFlag &&& flags ≠ 0) ∧
      (∀ p ∈ fs₁ ++ fs₂, p.2.Got r p.1 ∧ ∀ t s, (t, s) ∈ statuses r p.1 → t ≠ p.2.type → s = .ok (-2)) ∧
      (∀ id, id < fieldMax → id ∉ (fs₁ ++ fs₂).map Prod.fst → ∀ t s, (t, s) ∈ statuses r id → s = .ok (-2)) ∧
      ∀ p n, (getBundleBuffer r p n).1 = -2 := by
  have hsize := sizeAll_toNat (fs₁ ++ fs₂) (by omega)
  have happ := encodeAll_append fs₁ fs₂
  have hlen : (encodeAll (fs₁ ++ fs₂)).length = (encodeAll fs₁).length + (encodeAll fs₂).length := by
    rw [happ, List.length_append]
  obtain ⟨hok, hact, hleft, hwr⟩ := create_ok (sizeAll (fs₁ ++ fs₂)) msgId (by omega)
  obtain ⟨w₁, hall₁, hok₁, hwr₁, hact₁⟩ := writeAll_ok fs₁ (fun p hp => hid p (List.mem_append_left _ hp)) hok
    (by rw [hleft]; omega)
  obtain ⟨w₂, hset, hok₂, hact₂, -, hwr₂⟩ := setFlags_ok hok₁ (hwr₁.trans (congrArg (· ++ encodeAll fs₁) hwr)) flags
  have hleft₂ : w₂.bufferLen.toNat = (encodeAll fs₂).length := by
    have := hok₂.left
    rw [hwr₂, hact₂, hact₁, hact, List.length_append] at this
    have h16 : (messageHeader (version ||| (version ||| flags)) msgId (sizeAll (fs₁ ++ fs₂))).length = 16 := rfl
    omega
  obtain ⟨w, hall, hokw, hwrw, hactw⟩ := writeAll_ok fs₂ (fun p hp => hid p (List.mem_append_right _ hp)) hok₂
    (Nat.le_of_eq hleft₂.symm)
  have hwritten : w.written = messageHeader (version ||| (version ||| flags)) msgId (sizeAll (fs₁ ++ fs₂)) ++ encodeAll (fs₁ ++ fs₂) := by
    rw [hwrw, hwr₂, happ, List.append_assoc]
  obtain ⟨r, hdec, hmsg, hflags, hfields, habsent⟩ := decodeFields_encode hid hdup hfits msgId (version_and version flags) hsize (by omega)
  rw [flags_or] at hflags
  have hfull : w.written.length = w.actualLen.toNat := by
    rw [hwritten, hactw, hact₂, hact₁, hact, hsize, List.length_append, Nat.add_comm]
    rfl
  have htype : ∀ p ∈ fs₁ ++ fs₂, (r.fields p.1).iType = p.2.type := by
    intro p hp
    obtain ⟨rest, hrest⟩ := hfields p hp
    rw [hrest, bucket_iType]
  refine ⟨w₁, w₂, w, r, hall₁, hset, hall, BitVec.eq_of_toNat_eq (hokw.iWritten.trans hfull), hfull, hokw.reached.trans hfull, ?_, hmsg,
    hflags, ?_, ?_, ?_, ?_, fun p hp => ⟨?_, fun t s hs ht => ?_⟩, fun id hlt hn t s hs => ?_, fun p n => ?_⟩
  · rw [hwritten]
    exact hdec
  · rw [Reader.isReply, hflags, flag_and rfl, decide_eq_true_eq]
  · rw [Reader.isFirst, hflags, flag_and rfl, decide_eq_true_eq]
  · rw [Reader.isLast, hflags, flag_and rfl, decide_eq_true_eq]
  · rw [Reader.toBlock, hflags, flag_and rfl, decide_eq_true_eq]
  · obtain ⟨rest, hrest⟩ := hfields p hp
    have := payload_le_encodeAll hp
    exact got_bucket (hid p hp) (by omega) hrest
  · exact status_of_ne (hid p hp) hs (by rw [htype p hp]; exact ht)
  · refine status_of_ne hlt hs ?_
    rw [habsent id hn]
    simp only [statuses, List.mem_cons, Prod.mk.injEq, List.not_mem_nil, or_false] at hs
    rcases hs with ⟨rfl, -⟩ | ⟨rfl, -⟩ | ⟨rfl, -⟩ | ⟨rfl, -⟩ | ⟨rfl, -⟩ | ⟨rfl, -⟩ | ⟨rfl, -⟩ | ⟨rfl, -⟩ | ⟨rfl, -⟩ | ⟨rfl, -⟩ |
      ⟨rfl, -⟩ <;> decide
  · have hne : FieldType.bundle ≠ (r.fields fieldBundleId).iType := by
      by_cases hin : fieldBundleId ∈ (fs₁ ++ fs₂).map Prod.fst
      · obtain ⟨q, hq, hqid⟩ := List.mem_map.mp hin
        rw [← hqid, htype q hq]
        cases q.2 <;> exact fun he => (by cases he)
      · rw [habsent _ hin]
        decide
    rw [getBundleBuffer, if_pos hne]

theorem message_round_trip_three : ∃ w₁ w₂ w r,
    writeAll (.create (sizeAll [(3, .string []), (1, .uint32 5), (7, .uint32Array [])]) 9) [setStringField 3 []] = ([0], w₁) ∧
    setFlags firstFlag w₁ = .ok (0, w₂) ∧
    writeAll w₂ [setUint32Field 1 5, setUint32ArrayField 7 []] = ([0, 0], w) ∧
    decodeFields (.create w.written) = .ok (0, r) ∧ getUint32Field r 1 0 = (0, 5) ∧ (getInt32Field r 1 0).1 = -2 := by
  obtain ⟨w₁, w₂, w, r, h₁, h₂, h₃, -, -, -, h₄, -, -, -, -, -, -, h₅, -, -⟩ :=
    @message_round_trip [(3, .string [])] [(1, .uint32 5), (7, .uint32Array [])] (by decide) (by decide)
      (by simp [Field.Fits]) 9 firstFlag
      (by simp [encodeAll, Field.encode, Field.payload, writeUint32Array, writeVarInt_last (show 0 < 128 by decide),
        writeVarInt_last (show 5 < 128 by decide)])
  obtain ⟨hgot, hne⟩ := h₅ (1, .uint32 5) (by simp)
  refine ⟨w₁, w₂, w, r, h₁, h₂, h₃, h₄, hgot 0, ?_⟩
  exact Except.ok.inj (hne .int32 (.ok (getInt32Field r 1 0).1) (by simp [statuses]) (by decide))

end DeepFabric.Wire
