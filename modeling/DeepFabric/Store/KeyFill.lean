/-
  DeepFabric.Store.KeyFill — how a composite key is filled from a row, and packed and unpacked
  (api/deep/KeyBuilder.h: KeyBuilder<DeepComposite*>; api/deep/DeepTypes.h: populateKey of the key
  parts; api/deep/DeepStore.h: DeepCharset).

  populateKey has every part write its image behind that of the part before it. A part that may be
  null writes a byte that tells whether it is, and nothing more if it is; the fixed variable ones
  clear their slot first. A variable part looks for its record in the row's variable data: each
  record has its length in four bytes ahead of it, and the part keeps two of them.
  In an unpacked key every part is at the beginning of its own slot. Packed lengths are ushorttypes.

  The character set's populate copies the leading bytes of the data that it is given: a parameter
  says how many.
-/
import DeepFabric.Lib.Put
import DeepFabric.Store.CompositeKey

namespace DeepFabric.Store.KeyFill

open DeepFabric.Lib Buffer CompositeKey List

/-- How many bytes `DeepCharset::populate` copies of the data: the character set, the data and the limit. -/
abbrev Populate := Int → List UInt8 → Nat → Nat

/-- What is asked of it. -/
def Leading (populate : Populate) : Prop := ∀ characterSet data limit, populate characterSet data limit ≤ min data.length limit

/-- A key part with what it reads of a row and of a primary key. -/
structure KeyPart extends DeepKeyPart where
  valueOffset : Nat
  nullOffset : Nat
  primaryPosition : Int
  deriving DecidableEq, Repr

/-! ## Filling -/

namespace KeyPart

variable (part : KeyPart)

def isNull (value : Buffer) : UInt8 := value part.nullOffset &&& part.nullBit

/-- The loop over the records before the part's own; `offset` is a uinttype. -/
def variableOffset (value : Buffer) : Nat → Nat
  | 0 => 0
  | i + 1 => (variableOffset value i + (load value (part.valueOffset + variableOffset value i) 4 + 4)) % 2 ^ 32

/-- `ushorttype length`: what it keeps of the length of the record. -/
def variableLength (value : Buffer) : Nat :=
  load value (part.valueOffset + part.variableOffset value part.variablePosition.toNat) 4 % 2 ^ 16

def variableData (value : Buffer) : Nat := part.valueOffset + part.variableOffset value part.variablePosition.toNat + 4

/-- The null byte, if the part may be null, and behind it what `write` writes. -/
def populateNull (value key : Buffer) (d : Nat) (write : Buffer → Nat → Buffer) : Buffer :=
  if part.maybeNull then
    let nullKey := part.isNull value
    let key := key.memset d nullKey 1
    if nullKey = 0 then write key (d + 1) else key
  else write key d

variable (populate : Populate)

/-- populateKey into the buffer from `d` on: the buffer and the length returned. -/
def populateKey (pkey : Option Buffer) (value key : Buffer) (d : Nat) : Except String (Buffer × Nat) :=
  match part.type with
  | .longInt | .ulongInt | .longLong | .ulongLong | .shortInt | .ushortInt | .int8 | .uint8 =>
    let key := part.populateNull value key d fun key p => key.memcpy p value part.valueOffset part.length
    .ok (key, if part.maybeNull then part.unpackLength else part.length)
  | .int24 | .uint24 | .text | .binary =>
    let key := part.populateNull value key d fun key p => key.memcpy p value part.valueOffset part.length
    .ok (key, part.unpackLength)
  | .varText =>
    let key := part.populateNull value key d fun key p =>
      let data := part.variableData value
      let length := populate part.characterSet (bytes value data (part.variableLength value)) part.length
      (key.memcpy (p + 2) value data length).store p 2 length
    .ok (key, part.getPackLength key d)
  | .fixedVarText =>
    let key := part.populateNull value (key.memset d 0 part.unpackLength) d fun key p =>
      let data := part.valueOffset + 1
      let length := populate part.characterSet (bytes value data (value part.valueOffset).toNat) part.length
      (key.memcpy (p + 2) value data length).store p 2 length
    .ok (key, part.unpackLength)
  | .textMultibyte =>
    let key := part.populateNull value key d fun key p =>
      let data := part.variableData value
      let length := populate part.characterSet (bytes value data (part.variableLength value)) part.length
      let key := key.memcpy p value data length
      -- padMultiByteText
      if length < part.length then key.memset (p + length) 0x20 (part.length - length) else key
    .ok (key, part.unpackLength)
  | .varBinary =>
    let key := part.populateNull value key d fun key p =>
      let length := if part.variableLength value < part.length then part.variableLength value else part.length
      (key.store p 2 length).memcpy (p + 2) value (part.variableData value) length
    .ok (key, part.getPackLength key d)
  | .fixedVarBinary =>
    let key := part.populateNull value (key.memset d 0 part.unpackLength) d fun key p =>
      let length := (value part.valueOffset).toNat
      (key.store p 2 length).memcpy (p + 2) value (part.valueOffset + 1) length
    .ok (key, part.unpackLength)
  | .hidden =>
    match pkey with
    | some pkey => .ok (key.memcpy d pkey 0 part.length, part.length)
    | none => .error "Primary key is null during hidden key populate"

end KeyPart

/-- The loop of KeyBuilder::populateKey; a schema has a part, so the first turn is one of them. -/
def populateKeys (populate : Populate) (pkey : Option Buffer) (value : Buffer) :
    List KeyPart → Buffer → (keyOffset : Nat) → Except String (Buffer × Nat)
  | [], key, keyOffset => .ok (key, keyOffset)
  | part :: parts, key, keyOffset => do
    let r ← part.populateKey populate pkey value key keyOffset
    populateKeys populate pkey value parts r.1 ((keyOffset + r.2) % 2 ^ 16)

/-- A DeepComposite with its length. -/
structure Key extends DeepComposite where
  length : Nat

def fillKey (populate : Populate) (parts : List KeyPart) (pkey : Option Buffer) (value : Buffer) (key : Key) : Except String Key := do
  let r ← populateKeys populate pkey value parts key.data 0
  return { key with data := r.1, length := r.2, keyPartMask := fullMask, keyPartWeight := -1 }

/-! ## Packing -/

/-- KeyBuilder::getPackLength from the part at `length` on. -/
def getPackLength (key : Buffer) : List KeyPart → (length : Nat) → Nat
  | [], length => length
  | part :: parts, length => getPackLength key parts ((length + part.getPackLength key length) % 2 ^ 16)

/-- Store::getUnpackLength. -/
def getUnpackLength (parts : List KeyPart) : Nat := parts.foldl (fun length part => (length + part.unpackLength) % 2 ^ 16) 0

def unpackKey (key : Buffer) : List KeyPart → Buffer → (keyOffset bufOffset : Nat) → Buffer
  | [], keyBuffer, _, _ => keyBuffer
  | part :: parts, keyBuffer, keyOffset, bufOffset =>
    let packLength := part.getPackLength key keyOffset
    unpackKey key parts (keyBuffer.memcpy bufOffset key keyOffset packLength) (keyOffset + packLength) (bufOffset + part.unpackLength)

/-- The key and its length. -/
def packKey (keyBuffer : Buffer) : List KeyPart → (keyPartMask : Nat) → Buffer → (keyOffset bufOffset : Nat) → Buffer × Nat
  | [], _, key, keyOffset, _ => (key, keyOffset)
  | part :: parts, keyPartMask, key, keyOffset, bufOffset =>
    let packLength := part.getPackLength keyBuffer bufOffset
    let key := key.memcpy keyOffset keyBuffer bufOffset packLength
    if keyPartMask / 2 ≠ 0 then
      packKey keyBuffer parts (keyPartMask / 2) key (keyOffset + packLength) (bufOffset + part.unpackLength)
    else (key, keyOffset + packLength)

def isEqual (key1 key2 : Key) : Bool :=
  if key1.length = key2.length then memcmp key1.data 0 key2.data 0 key1.length = 0 else false

/-! ## Schemas -/

namespace KeyPart

variable (part : KeyPart)

/-- The room of a part in an unpacked key, as a number. -/
def slot : Nat := part.lengthBytes + part.nullBytes + part.length

structure Sound : Prop where
  /-- A variable part has a position. -/
  positioned : part.type = .varText ∨ part.type = .varBinary → part.variablePosition ≠ -1
  /-- A hidden part cannot be null. -/
  hidden : part.type = .hidden → part.nullBit = 0

end KeyPart

/-- The parts of a composite key: a mask has a bit for each of them, and a key's lengths are ushorttypes. -/
structure KeySchema where
  parts : List KeyPart
  nonempty : parts ≠ []
  masked : parts.length ≤ 32
  sound : ∀ part ∈ parts, part.Sound
  short : (parts.map KeyPart.slot).sum < 2 ^ 16

/-! ## What a part writes -/

section Image

namespace KeyPart

variable (part : KeyPart) (populate : Populate)

/-- The part is null in this row. -/
def null (value : Buffer) : Bool := part.maybeNull && part.isNull value ≠ 0

/-- What stands for the column behind the null byte. -/
def payload (value : Buffer) : List UInt8 :=
  match part.type with
  | .varText =>
    let n := populate part.characterSet (bytes value (part.variableData value) (part.variableLength value)) part.length
    leBytes 2 n ++ bytes value (part.variableData value) n
  | .fixedVarText =>
    let n := populate part.characterSet (bytes value (part.valueOffset + 1) (value part.valueOffset).toNat) part.length
    leBytes 2 n ++ bytes value (part.valueOffset + 1) n
  | .textMultibyte =>
    let n := populate part.characterSet (bytes value (part.variableData value) (part.variableLength value)) part.length
    bytes value (part.variableData value) n ++ List.replicate (part.length - n) 0x20
  | .varBinary =>
    let n := min (part.variableLength value) part.length
    leBytes 2 n ++ bytes value (part.variableData value) n
  | .fixedVarBinary =>
    leBytes 2 (value part.valueOffset).toNat ++ bytes value (part.valueOffset + 1) (value part.valueOffset).toNat
  | _ => bytes value part.valueOffset part.length

def head (value : Buffer) : List UInt8 :=
  if part.maybeNull then part.isNull value :: if part.isNull value = 0 then part.payload populate value else []
  else part.payload populate value

/-- The bytes a part writes, from the beginning of its slot on. -/
def image (pkey value : Buffer) : List UInt8 :=
  match part.type with
  | .hidden => bytes pkey 0 part.length
  | .fixedVarText | .fixedVarBinary =>
    part.head populate value ++ (List.replicate part.unpackLength 0).drop (part.head populate value).length
  | _ => part.head populate value

/-- How far a part goes on. -/
def fillWidth (value : Buffer) : Nat :=
  match part.type with
  | .varText | .varBinary => part.nullBytes + if part.null value then 2 else (part.payload populate value).length
  | _ => part.slot

end KeyPart

variable {part : KeyPart} {populate : Populate} {pkey value key : Buffer} {d : Nat}

variable (populate) in
theorem populateNull_put {write : Buffer → Nat → Buffer} (h : ∀ key p, write key p = put key p (part.payload populate value)) :
    part.populateNull value key d write = put key d (part.head populate value) := by
  unfold KeyPart.populateNull KeyPart.head
  by_cases hn : part.maybeNull = true
  · simp only [hn, if_true]
    rw [memset_eq_put, replicate_one]
    by_cases hz : part.isNull value = 0
    · simp only [hz, if_true, h]
      exact put_append
    · simp only [hz, if_false]
  · simp only [hn, if_false, Bool.false_eq_true, h]

/-- A variable part has a length in two bytes, no longer than the part, and its data. -/
theorem payload_variable (hl : Leading populate) (ht : part.type = .varText ∨ part.type = .varBinary) (value : Buffer) :
    ∃ n ≤ part.length, part.payload populate value = leBytes 2 n ++ bytes value (part.variableData value) n := by
  rcases ht with ht | ht
  · refine ⟨_, ?_, by rw [KeyPart.payload, ht]⟩
    exact le_trans (hl _ _ _) (Nat.min_le_right _ _)
  · exact ⟨_, Nat.min_le_right _ _, by rw [KeyPart.payload, ht]⟩

theorem maybeNull_iff : part.maybeNull = true ↔ part.nullBytes = 1 := by
  unfold DeepKeyPart.nullBytes
  split_ifs with h <;> simp [h]

theorem image_variable (ht : part.type = .varText ∨ part.type = .varBinary) :
    part.image populate pkey value = part.head populate value := by
  rcases ht with ht | ht <;> rw [KeyPart.image, ht]

variable (populate value) in
theorem fillWidth_variable (ht : part.type = .varText ∨ part.type = .varBinary) :
    part.fillWidth populate value = part.nullBytes + if part.null value then 2 else (part.payload populate value).length := by
  rcases ht with ht | ht <;> rw [KeyPart.fillWidth, ht]

theorem unpackLength_eq (hslot : part.slot < 2 ^ 16) : part.unpackLength = part.slot := Nat.mod_eq_of_lt hslot

variable (populate value key) in
theorem getPackLength_fixed (ht : ¬(part.type = .varText ∨ part.type = .varBinary)) (hslot : part.slot < 2 ^ 16) (d : Nat) :
    part.getPackLength key d = part.slot ∧ part.fillWidth populate value = part.slot := by
  unfold DeepKeyPart.getPackLength KeyPart.fillWidth
  rw [unpackLength_eq hslot]
  cases h : part.type <;> simp_all

theorem load_of_bytes {b : Buffer} {p n : Nat} (h : bytes b p 2 = leBytes 2 n) (hn : n < 2 ^ 16) : load b p 2 = n := by
  rw [load_leBytes (bytes_eq_leBytes.mp h)]
  exact Nat.mod_eq_of_lt hn

/-- The image of a part is at `d`, as far as it is inside the part's width. -/
def Shown (populate : Populate) (pkey value : Buffer) (part : KeyPart) (b : Buffer) (d : Nat) : Prop :=
  ∀ i (h : i < (part.image populate pkey value).length), i < part.fillWidth populate value →
    b (d + i) = (part.image populate pkey value)[i]

theorem Shown.bytes (h : Shown populate pkey value part key d)
    (hle : (part.image populate pkey value).length ≤ part.fillWidth populate value) :
    bytes key d (part.image populate pkey value).length = part.image populate pkey value :=
  bytes_eq_iff.mpr fun i hi => h i hi (lt_of_lt_of_le hi hle)

/-- The null byte, if there is one. -/
def KeyPart.nullImage (part : KeyPart) (value : Buffer) : List UInt8 := if part.maybeNull then [part.isNull value] else []

@[simp] theorem length_nullImage : (part.nullImage value).length = part.nullBytes := by
  unfold KeyPart.nullImage DeepKeyPart.nullBytes
  split_ifs <;> rfl

theorem head_eq : part.head populate value =
    part.nullImage value ++ if part.null value then [] else part.payload populate value := by
  unfold KeyPart.head KeyPart.nullImage KeyPart.null
  by_cases hm : part.maybeNull = true
  · by_cases hz : part.isNull value = 0 <;> simp [hm, hz]
  · simp [hm]

variable (part populate value) in
theorem length_head : (part.head populate value).length =
    part.nullBytes + if part.null value then 0 else (part.payload populate value).length := by
  rw [head_eq, length_append, length_nullImage]
  split_ifs <;> rfl

theorem nullKey_eq (h : bytes key d part.nullBytes = part.nullImage value) : part.nullKey key d = part.null value := by
  unfold DeepKeyPart.nullKey KeyPart.null
  by_cases hm : part.maybeNull = true
  · have hkey : key d = part.isNull value := by
      rw [maybeNull_iff.mp hm, KeyPart.nullImage, if_pos hm] at h
      simpa [Buffer.bytes] using h
    simp [hm, hkey]
  · simp [hm]

theorem getPackLength_variable (hs : part.Sound) (ht : part.type = .varText ∨ part.type = .varBinary) (key : Buffer) (d : Nat) :
    part.lengthBytes = 2 ∧ part.getPackLength key d =
      (part.nullBytes + 2 + if part.nullKey key d then 0 else load key (d + part.nullBytes) 2) % 2 ^ 16 := by
  have hlb : part.lengthBytes = 2 := by
    unfold DeepKeyPart.lengthBytes
    rcases ht with ht | ht <;> simp [ht, hs.positioned]
  refine ⟨hlb, ?_⟩
  unfold DeepKeyPart.getPackLength
  rcases ht with ht | ht <;> simp [ht, hlb]

/-- What is read of a part's length is what it was filled with. -/
theorem Shown.getPackLength (hl : Leading populate) (hs : part.Sound) (hslot : part.slot < 2 ^ 16)
    (h : Shown populate pkey value part key d) : part.getPackLength key d = part.fillWidth populate value := by
  by_cases ht : part.type = .varText ∨ part.type = .varBinary
  · obtain ⟨n, hn, hpay⟩ := payload_variable hl ht value
    obtain ⟨hlb, hpack⟩ := getPackLength_variable hs ht key d
    have hwidth := fillWidth_variable populate value ht
    have hbytes := h.bytes
    rw [image_variable ht, head_eq, length_append, length_nullImage] at hbytes
    rw [KeyPart.slot, hlb] at hslot
    cases hnull : part.null value with
    | true =>
      rw [hnull, if_pos rfl] at hwidth
      simp only [hnull, if_true, length_nil, append_nil, Nat.add_zero] at hbytes
      have hnk := nullKey_eq (hbytes (by omega))
      rw [hpack, hwidth, hnk, hnull, if_pos rfl]
      omega
    | false =>
      simp only [hnull, Bool.false_eq_true, if_false, hpay, length_append, length_leBytes, length_bytes] at hwidth hbytes
      obtain ⟨h0, hrest⟩ := bytes_split (hbytes (by omega)) length_nullImage
      obtain ⟨h2, -⟩ := bytes_split hrest length_leBytes
      rw [hpack, hwidth, nullKey_eq h0, hnull, if_neg (by decide), load_of_bytes h2 (by omega)]
      omega
  · obtain ⟨h1, h2⟩ := getPackLength_fixed populate value key ht hslot d
    rw [h1, h2]

variable (populate pkey value part key d) in
theorem shown_put : Shown populate pkey value part (put key d (part.image populate pkey value)) d :=
  fun _ h _ => put_inside h

/-- A part that is copied with its width still shows its image. -/
theorem Shown.copy {b : Buffer} {o : Nat} (h : Shown populate pkey value part key d)
    (hb : Buffer.bytes b o (part.fillWidth populate value) = Buffer.bytes key d (part.fillWidth populate value)) :
    Shown populate pkey value part b o := by
  intro i hi hlt
  rw [bytes_inj.mp hb i hlt]
  exact h i hi hlt

theorem store_memcpy (key : Buffer) (p data n : Nat) :
    (key.store p 2 n).memcpy (p + 2) value data n = put key p (leBytes 2 n ++ bytes value data n) := by
  rw [store_eq_put, memcpy_eq_put, ← put_append, length_leBytes]

theorem memcpy_store (key : Buffer) (p data n : Nat) :
    (key.memcpy (p + 2) value data n).store p 2 n = put key p (leBytes 2 n ++ bytes value data n) := by
  rw [memcpy_eq_put, store_eq_put, ← put_before, length_leBytes]

variable (populate) in
theorem populateNull_cleared {write : Buffer → Nat → Buffer} {n : Nat}
    (h : ∀ key p, write key p = put key p (part.payload populate value)) :
    part.populateNull value (key.memset d 0 n) d write =
      put key d (part.head populate value ++ (List.replicate n 0).drop (part.head populate value).length) := by
  rw [populateNull_put populate h, memset_eq_put, put_over]

theorem slot_number (ht : part.lengthBytes = 0) (hslot : part.slot < 2 ^ 16) :
    (if part.maybeNull then part.unpackLength else part.length) = part.slot := by
  rw [unpackLength_eq hslot, KeyPart.slot, ht, DeepKeyPart.nullBytes]
  split_ifs <;> omega

/-- A part puts its image into the key, and returns its width. -/
theorem populateKey_eq (hl : Leading populate) (hs : part.Sound) (hslot : part.slot < 2 ^ 16) (pkey value key : Buffer) (d : Nat) :
    part.populateKey populate (some pkey) value key d =
      .ok (put key d (part.image populate pkey value), part.fillWidth populate value) := by
  have hpack := (shown_put part populate pkey value key d).getPackLength hl hs hslot
  have hunpack := unpackLength_eq hslot
  unfold KeyPart.populateKey
  cases ht : part.type with
  | longInt | ulongInt | longLong | ulongLong | shortInt | ushortInt | int8 | uint8 =>
    simp only
    rw [populateNull_put populate fun key p => by rw [memcpy_eq_put, KeyPart.payload, ht],
      slot_number (by rw [DeepKeyPart.lengthBytes, ht]) hslot, KeyPart.image, KeyPart.fillWidth, ht]
  | int24 | uint24 | text | binary =>
    simp only
    rw [populateNull_put populate fun key p => by rw [memcpy_eq_put, KeyPart.payload, ht], hunpack, KeyPart.image,
      KeyPart.fillWidth, ht]
  | varText =>
    rw [image_variable (.inl ht)] at hpack ⊢
    simp only
    rw [populateNull_put populate fun key p => by rw [memcpy_store, KeyPart.payload, ht], hpack]
  | varBinary =>
    rw [image_variable (.inr ht)] at hpack ⊢
    have hmin : (if part.variableLength value < part.length then part.variableLength value else part.length) =
        min (part.variableLength value) part.length := by split_ifs <;> omega
    simp only [hmin]
    rw [populateNull_put populate fun key p => by rw [store_memcpy, KeyPart.payload, ht], hpack]
  | fixedVarText =>
    simp only
    rw [populateNull_cleared populate fun key p => by rw [memcpy_store, KeyPart.payload, ht], hunpack, KeyPart.image,
      KeyPart.fillWidth, ht, hunpack]
  | fixedVarBinary =>
    simp only
    rw [populateNull_cleared populate fun key p => by rw [store_memcpy, KeyPart.payload, ht], hunpack, KeyPart.image,
      KeyPart.fillWidth, ht, hunpack]
  | textMultibyte =>
    simp only
    rw [populateNull_put populate fun key p => ?_, hunpack, KeyPart.image, KeyPart.fillWidth, ht]
    rw [KeyPart.payload, ht, memcpy_eq_put, ← put_append, length_bytes]
    split_ifs with hlt
    · rw [memset_eq_put]
    · rw [Nat.sub_eq_zero_of_le (Nat.le_of_not_lt hlt), replicate_zero, put_nil]
  | hidden =>
    have hnb : part.nullBytes = 0 := by
      rw [DeepKeyPart.nullBytes, if_neg (by simp [DeepKeyPart.maybeNull, hs.hidden ht])]
    simp only
    rw [memcpy_eq_put, KeyPart.image, KeyPart.fillWidth, ht, KeyPart.slot, hnb, DeepKeyPart.lengthBytes, ht]
    simp only [Nat.zero_add]

/-! ## What a key is filled with -/

section Parts

variable {parts : List KeyPart}

/-- The images of the parts one behind the other, a part's width apart. -/
def fillParts (populate : Populate) (pkey value : Buffer) : List KeyPart → Buffer → Nat → Buffer
  | [], key, _ => key
  | part :: parts, key, d =>
    fillParts populate pkey value parts (put key d (part.image populate pkey value)) (d + part.fillWidth populate value)

/-- The width of a key. -/
def fillLength (populate : Populate) (value : Buffer) (parts : List KeyPart) : Nat :=
  (parts.map (KeyPart.fillWidth · populate value)).sum

def ShownFrom (populate : Populate) (pkey value : Buffer) : List KeyPart → Buffer → Nat → Prop
  | [], _, _ => True
  | part :: parts, b, d =>
    Shown populate pkey value part b d ∧ ShownFrom populate pkey value parts b (d + part.fillWidth populate value)

/-- The parts are sound and their slots have room for ushorttype lengths. -/
structure Short (parts : List KeyPart) : Prop where
  sound : ∀ part ∈ parts, part.Sound
  short : (parts.map KeyPart.slot).sum < 2 ^ 16

theorem KeySchema.toShort (schema : KeySchema) : Short schema.parts := ⟨schema.sound, schema.short⟩

theorem Short.head (h : Short (part :: parts)) : part.Sound ∧ part.slot < 2 ^ 16 := by
  have hs := h.short
  rw [map_cons, sum_cons] at hs
  exact ⟨h.sound part mem_cons_self, by omega⟩

theorem Short.tail (h : Short (part :: parts)) : Short parts := by
  have hs := h.short
  rw [map_cons, sum_cons] at hs
  exact ⟨(forall_mem_cons.mp h.sound).2, by omega⟩

@[simp] theorem fillLength_nil : fillLength populate value [] = 0 := rfl

@[simp] theorem fillLength_cons :
    fillLength populate value (part :: parts) = part.fillWidth populate value + fillLength populate value parts := by
  simp [fillLength]

@[simp] theorem fillLength_append {l r : List KeyPart} :
    fillLength populate value (l ++ r) = fillLength populate value l + fillLength populate value r := by
  simp [fillLength]

theorem fillWidth_le_slot (hl : Leading populate) (hs : part.Sound) (value : Buffer) : part.fillWidth populate value ≤ part.slot := by
  by_cases ht : part.type = .varText ∨ part.type = .varBinary
  · obtain ⟨n, hn, hpay⟩ := payload_variable hl ht value
    obtain ⟨hlb, -⟩ := getPackLength_variable hs ht value 0
    rw [fillWidth_variable populate value ht, KeyPart.slot, hlb, hpay, length_append, length_leBytes, length_bytes]
    split_ifs <;> omega
  · refine le_of_eq ?_
    unfold KeyPart.fillWidth
    cases h : part.type <;> simp_all

theorem fillLength_le (hl : Leading populate) (h : ∀ part ∈ parts, part.Sound) (value : Buffer) :
    fillLength populate value parts ≤ (parts.map KeyPart.slot).sum := by
  induction parts with
  | nil => exact Nat.le_refl _
  | cons part parts ih =>
    have hw := fillWidth_le_slot hl (h part mem_cons_self) value
    have := ih (forall_mem_cons.mp h).2
    rw [fillLength_cons, map_cons, sum_cons]
    omega

theorem populateKeys_eq (hl : Leading populate) (h : Short parts) (hd : d + (parts.map KeyPart.slot).sum < 2 ^ 16)
    (pkey value key : Buffer) : populateKeys populate (some pkey) value parts key d =
      .ok (fillParts populate pkey value parts key d, d + fillLength populate value parts) := by
  induction parts generalizing key d with
  | nil => rfl
  | cons part parts ih =>
    obtain ⟨hs, hslot⟩ := h.head
    have hw := fillWidth_le_slot hl hs value
    rw [map_cons, sum_cons] at hd
    have hmod : (d + part.fillWidth populate value) % 2 ^ 16 = d + part.fillWidth populate value := Nat.mod_eq_of_lt (by omega)
    rw [populateKeys, populateKey_eq hl hs hslot]
    show populateKeys populate (some pkey) value parts _ ((d + part.fillWidth populate value) % 2 ^ 16) = _
    rw [hmod, ih h.tail (by omega), fillLength_cons, Nat.add_assoc]
    rfl

theorem fillParts_append {l r : List KeyPart} : fillParts populate pkey value (l ++ r) key d =
    fillParts populate pkey value r (fillParts populate pkey value l key d) (d + fillLength populate value l) := by
  induction l generalizing key d with
  | nil => rfl
  | cons part l ih =>
    rw [cons_append, fillParts, fillParts, ih, fillLength_cons, Nat.add_assoc]

theorem fillParts_below {i : Nat} (hi : i < d) : fillParts populate pkey value parts key d i = key i := by
  induction parts generalizing key d with
  | nil => rfl
  | cons part parts ih =>
    rw [fillParts, ih (by omega), put_outside (by omega)]

variable (populate pkey value parts key d) in
theorem fillParts_shown : ShownFrom populate pkey value parts (fillParts populate pkey value parts key d) d := by
  induction parts generalizing key d with
  | nil => trivial
  | cons part parts ih =>
    refine ⟨fun i hi hlt => ?_, ih _ _⟩
    rw [fillParts, fillParts_below (by omega)]
    exact put_inside hi

theorem ShownFrom.take (h : ShownFrom populate pkey value parts key d) (k : Nat) :
    ShownFrom populate pkey value (parts.take k) key d := by
  induction parts generalizing d k with
  | nil =>
    rw [take_nil]
    trivial
  | cons part parts ih =>
    cases k with
    | zero => trivial
    | succ k => exact ⟨h.1, ih h.2 k⟩

theorem Short.take (h : Short parts) (k : Nat) : Short (parts.take k) := by
  refine ⟨fun part hp => h.sound part (mem_of_mem_take hp), ?_⟩
  have hs := h.short
  rw [← take_append_drop k parts, map_append, sum_append] at hs
  omega

theorem getPackLength_shown (hl : Leading populate) (h : Short parts) (hd : d + (parts.map KeyPart.slot).sum < 2 ^ 16)
    (hk : ShownFrom populate pkey value parts key d) : getPackLength key parts d = d + fillLength populate value parts := by
  induction parts generalizing d with
  | nil => rfl
  | cons part parts ih =>
    obtain ⟨hs, hslot⟩ := h.head
    have hw := fillWidth_le_slot hl hs value
    rw [map_cons, sum_cons] at hd
    have hmod : (d + part.fillWidth populate value) % 2 ^ 16 = d + part.fillWidth populate value := Nat.mod_eq_of_lt (by omega)
    rw [getPackLength, hk.1.getPackLength hl hs hslot, hmod, ih h.tail (by omega) hk.2, fillLength_cons, Nat.add_assoc]

end Parts

end Image

end DeepFabric.Store.KeyFill
