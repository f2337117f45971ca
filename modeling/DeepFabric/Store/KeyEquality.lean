/-
  DeepFabric.Store.KeyEquality — equal bytes and equal keys (api/deep/KeyBuilder.h: fillKey, isEqual;
  api/deep/Comparator.h; api/deep/DeepTypes.h: populateKey and compareKey of the key parts).

  isEqual compares the packed bytes of two keys, and compare the values of their parts. The two
  agree as long as a key's bytes are those of its row. But a part that is null and does not clear
  its slot leaves the bytes of the key that was in the buffer before: two keys of one row are then
  equal to compare and not to isEqual.

  - `agrees_iff`: the two agree on the keys of two rows, and both keys hang on their rows alone,
    exactly if no part that leaves bytes unwritten is null in either.
-/
import DeepFabric.Store.KeyImage

namespace DeepFabric.Store.KeyEquality

open DeepFabric.Lib Buffer CompositeKey KeyFill KeyImage List
open Std (LawfulEqCmp)

/-- The bytes of a number, which a part has for its length. -/
def size : KeyPartType → Option Nat
  | .longInt | .ulongInt => some 4
  | .longLong | .ulongLong | .hidden => some 8
  | .shortInt | .ushortInt => some 2
  | .int24 | .uint24 => some 3
  | .int8 | .uint8 => some 1
  | _ => none

structure Plain (part : KeyPart) : Prop where
  /-- It is not compared by a character set. -/
  text : part.isText = false
  sized : ∀ n, size part.type = some n → part.length = n
  /-- A null bit is one bit, or there is none. -/
  bit : part.nullBit ∈ ([0, 1, 2, 4, 8, 16, 32, 64, 128] : List UInt8)

def Stable (populate : Populate) (parts : List KeyPart) (pkey value : Buffer) : Prop :=
  ∀ key key' : Key, ∃ k k', fillKey populate parts (some pkey) value key = .ok k ∧ fillKey populate parts (some pkey) value key' = .ok k' ∧
    k.length = k'.length ∧ bytes k.data 0 k.length = bytes k'.data 0 k.length

/-- isEqual and compare agree on the keys of two rows, whatever was in the buffers. -/
structure Agrees (charset : Charset) (populate : Populate) (parts : List KeyPart) (pkey1 value1 pkey2 value2 : Buffer) : Prop where
  equal : ∀ key1 key2 : Key, ∃ k1 k2,
    fillKey populate parts (some pkey1) value1 key1 = .ok k1 ∧ fillKey populate parts (some pkey2) value2 key2 = .ok k2 ∧
      (isEqual k1 k2 = true ↔
        compare charset (parts.map KeyPart.toDeepKeyPart) k1.toDeepComposite k2.toDeepComposite = 0)
  left : Stable populate parts pkey1 value1
  right : Stable populate parts pkey2 value2

/-- A number that may be null, and a row where it is. -/
def nullableNumber : KeySchema where
  parts := [⟨⟨.longInt, 4, 1, -1, 0⟩, 1, 0, -1⟩]
  nonempty := by decide
  masked := by decide
  sound := by
    intro part hp
    obtain rfl := mem_singleton.mp hp
    exact ⟨by decide, by decide⟩
  short := by decide

def keyOver (data : Buffer) : Key := ⟨⟨data, fullMask, -1, false⟩, 5⟩

variable {charset : Charset} {populate : Populate} {pkey value key buf pkey1 value1 pkey2 value2 b1 b2 : Buffer} {part : KeyPart}
  {parts : List KeyPart} {d n p1 p2 d1 d2 : Nat}

theorem load_eq_iff : load b1 p1 n = load b2 p2 n ↔ bytes b1 p1 n = bytes b2 p2 n := by
  constructor
  · intro h
    rw [bytes_load, bytes_load, h]
  · intro h
    exact load_congr (bytes_inj.mp h)

theorem unsigned_eq_iff : unsigned b1 p1 n = unsigned b2 p2 n ↔ bytes b1 p1 n = bytes b2 p2 n := by
  rw [← load_eq_iff]
  exact Int.ofNat_inj

theorem signed_eq_iff : signed b1 p1 n = signed b2 p2 n ↔ bytes b1 p1 n = bytes b2 p2 n := by
  have h1 : load b1 p1 n < 256 ^ n := load_lt
  have h2 : load b2 p2 n < 256 ^ n := load_lt
  rw [← load_eq_iff, signed, signed]
  generalize load b1 p1 n = x at *
  generalize load b2 p2 n = y at *
  generalize hm : 256 ^ n = m at *
  have hcast : (256 : Int) ^ n = (m : Int) := by
    rw [← hm]
    norm_cast
  rw [hcast]
  split_ifs <;> omega

/-- What a part keeps of its column or of the primary key. -/
def content (part : KeyPart) (populate : Populate) (pkey value : Buffer) : List UInt8 :=
  if part.type = .hidden then bytes pkey 0 part.length else part.payload populate value

/-- The value of a part that is not null, from behind its null byte on. -/
def reading (part : KeyPart) (key : Buffer) (p : Nat) : Value :=
  match part.type with
  | .longInt => .number (signed key p 4)
  | .ulongInt => .number (unsigned key p 4)
  | .longLong => .number (signed key p 8)
  | .ulongLong | .hidden => .number (unsigned key p 8)
  | .shortInt => .number (signed key p 2)
  | .ushortInt => .number (unsigned key p 2)
  | .int24 => .number (signed key p 3)
  | .uint24 => .number (unsigned key p 3)
  | .int8 => .number (signed key p 1)
  | .uint8 => .number (unsigned key p 1)
  | .varText | .fixedVarText | .varBinary | .fixedVarBinary => .bytes (bytes key (p + 2) (load key p 2))
  | .text | .textMultibyte | .binary => .bytes (bytes key p part.length)

theorem value_reading (hs : part.Sound) (key : Buffer) (d : Nat) :
    part.value key d = if part.nullKey key d then none else some (reading part key (d + part.nullBytes)) := by
  unfold DeepKeyPart.value reading
  cases h : part.type with
  | hidden =>
    have hm : part.maybeNull = false := by simp [DeepKeyPart.maybeNull, hs.hidden h]
    simp [DeepKeyPart.nullKey, DeepKeyPart.nullBytes, hm]
  | _ => rfl

theorem length_content (hl : Leading populate) (hv : ¬(part.type = .varBinary ∨ part.type = .fixedVarBinary)) (ht : part.isText = false) :
    (content part populate pkey value).length = part.length := by
  unfold content
  split_ifs with hh
  · exact length_bytes
  · refine (length_payload_fixed hl ?_ ?_ value).1
    · rintro (h | h)
      · simp [DeepKeyPart.isText, h] at ht
      · exact hv (.inl h)
    · rintro (h | h)
      · simp [DeepKeyPart.isText, h] at ht
      · exact hv (.inr h)

variable (populate) in
theorem content_variable (hslot : part.slot < 2 ^ 16) (hv : part.type = .varBinary ∨ part.type = .fixedVarBinary) (pkey value : Buffer) :
    ∃ data : List UInt8, content part populate pkey value = leBytes 2 data.length ++ data ∧ data.length < 2 ^ 16 := by
  rw [KeyPart.slot] at hslot
  rcases hv with h | h
  · refine ⟨bytes value (part.variableData value) (min (part.variableLength value) part.length), ?_, ?_⟩
    · simp [content, KeyPart.payload, h]
    · rw [length_bytes]
      omega
  · refine ⟨bytes value (part.valueOffset + 1) (value part.valueOffset).toNat, ?_, ?_⟩
    · simp [content, KeyPart.payload, h]
    · have := (value part.valueOffset).toNat_lt
      rw [length_bytes]
      omega

theorem reading_variable {data : List UInt8} (hv : part.type = .varBinary ∨ part.type = .fixedVarBinary) (hlt : data.length < 2 ^ 16)
    (h : bytes key d (leBytes 2 data.length ++ data).length = leBytes 2 data.length ++ data) : reading part key d = .bytes data := by
  rw [length_append, length_leBytes] at h
  obtain ⟨hlen, hdata⟩ := bytes_split h length_leBytes
  unfold reading
  rcases hv with ht | ht <;> simp only [ht, load_of_bytes hlen hlt, hdata]

theorem reading_eq_iff (hl : Leading populate) (hslot : part.slot < 2 ^ 16) (hp : Plain part)
    (h1 : bytes b1 p1 (content part populate pkey1 value1).length = content part populate pkey1 value1)
    (h2 : bytes b2 p2 (content part populate pkey2 value2).length = content part populate pkey2 value2) :
    reading part b1 p1 = reading part b2 p2 ↔ content part populate pkey1 value1 = content part populate pkey2 value2 := by
  by_cases hv : part.type = .varBinary ∨ part.type = .fixedVarBinary
  · obtain ⟨data1, hc1, hlt1⟩ := content_variable populate hslot hv pkey1 value1
    obtain ⟨data2, hc2, hlt2⟩ := content_variable populate hslot hv pkey2 value2
    rw [hc1] at h1
    rw [hc2] at h2
    rw [reading_variable hv hlt1 h1, reading_variable hv hlt2 h2, hc1, hc2]
    constructor
    · intro h
      rw [Value.bytes.inj h]
    · intro h
      rw [(append_inj h (by simp)).2]
  · rw [length_content hl hv hp.text] at h1 h2
    rw [← h1, ← h2]
    have hsize := hp.sized
    have htext := hp.text
    unfold reading
    cases ht : part.type with
    | longInt | longLong | shortInt | int24 | int8 =>
      rw [ht] at hsize
      rw [Value.number.injEq, hsize _ rfl, signed_eq_iff]
    | ulongInt | ulongLong | ushortInt | uint24 | uint8 | hidden =>
      rw [ht] at hsize
      rw [Value.number.injEq, hsize _ rfl, unsigned_eq_iff]
    | binary => rw [Value.bytes.injEq]
    | varBinary => exact absurd (.inl ht) hv
    | fixedVarBinary => exact absurd (.inr ht) hv
    | _ => simp [DeepKeyPart.isText, ht] at htext

/-- The rows have the same in the column of a part. -/
def Same (part : KeyPart) (populate : Populate) (pkey1 value1 pkey2 value2 : Buffer) : Prop :=
  part.null value1 = part.null value2 ∧
    (part.null value1 = false → content part populate pkey1 value1 = content part populate pkey2 value2)

theorem same_refl : Same part populate pkey value pkey value := ⟨rfl, fun _ => rfl⟩

theorem image_content (hs : part.Sound) (pkey value : Buffer) : part.image populate pkey value =
    (part.nullImage value ++ if part.null value then [] else content part populate pkey value) ++
      if part.type = .fixedVarText ∨ part.type = .fixedVarBinary then
        (List.replicate part.unpackLength 0).drop (part.head populate value).length
      else [] := by
  by_cases hh : part.type = .hidden
  · have hm : part.maybeNull = false := by simp [DeepKeyPart.maybeNull, hs.hidden hh]
    simp [KeyPart.image, KeyPart.nullImage, KeyPart.null, content, hh, hm]
  · rw [content, if_neg hh, ← head_eq]
    by_cases hf : part.type = .fixedVarText ∨ part.type = .fixedVarBinary
    · rw [image_cleared hf, if_pos hf]
    · rw [image_plain hf hh, if_neg hf, append_nil]

/-- Where a part is to be seen, so are its null byte and its content. -/
theorem content_shown (hl : Leading populate) (hs : part.Sound) (hslot : part.slot < 2 ^ 16) (hshort : Trimmed part value)
    (h : Shown populate pkey value part key d) : part.nullKey key d = part.null value ∧
      (part.null value = false →
        bytes key (d + part.nullBytes) (content part populate pkey value).length = content part populate pkey value) := by
  have hbytes := h.bytes (length_image_le pkey hl hs hslot hshort)
  rw [image_content hs pkey value, length_append, length_append, length_nullImage] at hbytes
  obtain ⟨hfront, -⟩ := bytes_split hbytes (by rw [length_append, length_nullImage])
  obtain ⟨hnull, hrest⟩ := bytes_split hfront length_nullImage
  refine ⟨nullKey_eq hnull, fun hn => ?_⟩
  simpa only [hn, Bool.false_eq_true, if_false] using hrest

/-- Where a part is to be seen in two keys, its values tell what its columns do. -/
theorem value_eq_iff (hl : Leading populate) (hs : part.Sound) (hslot : part.slot < 2 ^ 16) (hp : Plain part)
    (hshort1 : Trimmed part value1) (hshort2 : Trimmed part value2)
    (h1 : Shown populate pkey1 value1 part b1 d1) (h2 : Shown populate pkey2 value2 part b2 d2) :
    part.value b1 d1 = part.value b2 d2 ↔ Same part populate pkey1 value1 pkey2 value2 := by
  obtain ⟨hn1, hc1⟩ := content_shown hl hs hslot hshort1 h1
  obtain ⟨hn2, hc2⟩ := content_shown hl hs hslot hshort2 h2
  rw [value_reading hs, value_reading hs, hn1, hn2, Same]
  cases hnull1 : part.null value1 with
  | true => cases hnull2 : part.null value2 <;> simp
  | false =>
    cases hnull2 : part.null value2 with
    | true => simp
    | false =>
      simp only [Bool.false_eq_true, if_false, Option.some.injEq, true_and, true_implies]
      exact reading_eq_iff hl hslot hp (hc1 hnull1) (hc2 hnull2)

theorem and_bit {b : UInt8} (hb : b ∈ ([0, 1, 2, 4, 8, 16, 32, 64, 128] : List UInt8)) (x : UInt8) : x &&& b = 0 ∨ x &&& b = b := by
  have hall : ∀ b : BitVec 8, b ∈ [0#8, 1#8, 2#8, 4#8, 8#8, 16#8, 32#8, 64#8, 128#8] → ∀ x : BitVec 8, x &&& b = 0#8 ∨ x &&& b = b := by
    decide
  have hb' : b.toBitVec ∈ [0#8, 1#8, 2#8, 4#8, 8#8, 16#8, 32#8, 64#8, 128#8] := mem_map_of_mem (f := UInt8.toBitVec) hb
  rcases hall _ hb' x.toBitVec with h | h
  · exact .inl (UInt8.eq_of_toBitVec_eq h)
  · exact .inr (UInt8.eq_of_toBitVec_eq h)

theorem nullImage_eq (hp : Plain part) (h : part.null value1 = part.null value2) : part.nullImage value1 = part.nullImage value2 := by
  have h1 := and_bit hp.bit (value1 part.nullOffset)
  have h2 := and_bit hp.bit (value2 part.nullOffset)
  unfold KeyPart.null at h
  unfold KeyPart.nullImage
  by_cases hm : part.maybeNull = true
  · simp only [hm, Bool.true_and, decide_eq_decide] at h
    have hsame : part.isNull value1 = part.isNull value2 := by
      unfold KeyPart.isNull at h ⊢
      rcases h1 with h1 | h1 <;> rcases h2 with h2 | h2 <;> simp_all
    rw [if_pos hm, if_pos hm, hsame]
  · rw [if_neg hm, if_neg hm]

/-- What is the same in two rows is the same in their keys. -/
theorem Same.image (hs : part.Sound) (hp : Plain part) (h : Same part populate pkey1 value1 pkey2 value2) :
    part.image populate pkey1 value1 = part.image populate pkey2 value2 ∧
      part.fillWidth populate value1 = part.fillWidth populate value2 := by
  have hnull := nullImage_eq hp h.1
  have hfront : (if part.null value1 then [] else content part populate pkey1 value1) =
      if part.null value2 then [] else content part populate pkey2 value2 := by
    rw [← h.1]
    cases hn : part.null value1 with
    | true => rfl
    | false => exact h.2 hn
  have hhead : part.type ≠ .hidden → part.head populate value1 = part.head populate value2 := by
    intro hh
    simp only [content, if_neg hh] at hfront
    rw [head_eq, head_eq, hnull, hfront]
  constructor
  · rw [image_content hs, image_content hs, hnull, hfront]
    congr 1
    split_ifs with hf
    · rw [hhead (by rcases hf with hf | hf <;> simp [hf])]
    · rfl
  · by_cases ht : part.type = .varText ∨ part.type = .varBinary
    · have hlen := congrArg List.length (hhead (by rcases ht with ht | ht <;> simp [ht]))
      rw [length_head, length_head, ← h.1] at hlen
      rw [fillWidth_variable populate value1 ht, fillWidth_variable populate value2 ht, ← h.1]
      split_ifs at hlen ⊢ <;> omega
    · rw [fillWidth_fixed ht, fillWidth_fixed ht]

/-! ## Whole keys -/

theorem ShownFrom.copy (h : ShownFrom populate pkey value parts key d)
    (hb : bytes buf d (fillLength populate value parts) = bytes key d (fillLength populate value parts)) :
    ShownFrom populate pkey value parts buf d := by
  induction parts generalizing d with
  | nil => trivial
  | cons part parts ih =>
    rw [fillLength_cons, bytes_append, bytes_append] at hb
    obtain ⟨hpart, hrest⟩ := append_inj hb (by rw [length_bytes, length_bytes])
    exact ⟨h.1.copy hpart, ih h.2 hrest⟩

/-- Two keys have the same values where their rows have the same columns. -/
theorem walk_eq_iff (hl : Leading populate) (h : Short parts) (hp : ∀ part ∈ parts, Plain part)
    (hshort1 : ∀ part ∈ parts, Trimmed part value1) (hshort2 : ∀ part ∈ parts, Trimmed part value2)
    (h1 : ShownFrom populate pkey1 value1 parts b1 d1) (h2 : ShownFrom populate pkey2 value2 parts b2 d2) :
    walk (parts.map KeyPart.toDeepKeyPart) b1 d1 = walk (parts.map KeyPart.toDeepKeyPart) b2 d2 ↔
      ∀ part ∈ parts, Same part populate pkey1 value1 pkey2 value2 := by
  induction parts generalizing d1 d2 with
  | nil => simp [walk]
  | cons part parts ih =>
    obtain ⟨hs, hslot⟩ := h.head
    have hmem := fun (P : KeyPart → Prop) (hall : ∀ p ∈ part :: parts, P p) p (hp : p ∈ parts) => hall p (mem_cons_of_mem _ hp)
    rw [map_cons, walk, walk, List.cons.injEq, forall_mem_cons, h1.1.getPackLength hl hs hslot,
      h2.1.getPackLength hl hs hslot, ih h.tail (hmem _ hp) (hmem _ hshort1) (hmem _ hshort2) h1.2 h2.2,
      value_eq_iff hl hs hslot (hp part mem_cons_self) (hshort1 part mem_cons_self) (hshort2 part mem_cons_self)
        h1.1 h2.1]

theorem memcmp_eq_zero : memcmp b1 p1 b2 p2 n = 0 ↔ bytes b1 p1 n = bytes b2 p2 n := by
  rw [← Int.compare_eq_eq, memcmp_order, Std.compare_eq_iff_eq]

theorem isEqual_iff (k1 k2 : Key) : isEqual k1 k2 = true ↔ k1.length = k2.length ∧ bytes k1.data 0 k1.length = bytes k2.data 0 k1.length := by
  unfold isEqual
  split_ifs with h
  · rw [decide_eq_true_eq, memcmp_eq_zero, and_iff_right h]
  · exact iff_of_false (by decide) fun h' => h h'.1

theorem fillKey_eq (hl : Leading populate) (h : Short parts) (pkey value : Buffer) (key : Key) :
    fillKey populate parts (some pkey) value key = .ok { key with
      data := fillParts populate pkey value parts key.data 0
      length := fillLength populate value parts
      keyPartMask := fullMask
      keyPartWeight := -1 } := by
  have hsum := h.short
  rw [fillKey, populateKeys_eq hl h (by omega), Nat.zero_add]
  rfl

/-- compare tells of two filled keys whether their rows have the same columns. -/
theorem compare_iff (hl : Leading populate) (schema : KeySchema) (hp : ∀ part ∈ schema.parts, Plain part)
    (hshort1 : ∀ part ∈ schema.parts, Trimmed part value1) (hshort2 : ∀ part ∈ schema.parts, Trimmed part value2)
    {k1 k2 : DeepComposite} (hm1 : k1.keyPartMask = fullMask) (hm2 : k2.keyPartMask = fullMask)
    (h1 : ShownFrom populate pkey1 value1 schema.parts k1.data 0) (h2 : ShownFrom populate pkey2 value2 schema.parts k2.data 0) :
    compare charset (schema.parts.map KeyPart.toDeepKeyPart) k1 k2 = 0 ↔
      ∀ part ∈ schema.parts, Same part populate pkey1 value1 pkey2 value2 := by
  have h32 : (schema.parts.map KeyPart.toDeepKeyPart).length ≤ 32 := by
    rw [length_map]
    exact schema.masked
  rw [← walk_eq_iff hl schema.toShort hp hshort1 hshort2 h1 h2, ← Int.compare_eq_eq, compare_walk h32 hm1 hm2]
  refine lexCmp_eq (fun cmp hcmp => ?_) ?_ ?_
  · obtain ⟨part, hpart, rfl⟩ := mem_map.mp hcmp
    obtain ⟨keyPart, hmem, rfl⟩ := mem_map.mp hpart
    exact DeepKeyPart.order_lawfulEqCmp (hp keyPart hmem).text
  · rw [length_walk, length_map, length_map, length_map]
  · rw [length_walk, length_map, length_map, length_map]

/-- A key that hangs on its row alone has no byte that is not written. -/
theorem covered_of_stable (hl : Leading populate) (schema : KeySchema) (hshort : ∀ part ∈ schema.parts, Trimmed part value)
    (h : Stable populate schema.parts pkey value) : ∀ part ∈ schema.parts, Covered part value := by
  intro part hpart
  have hslots := fun p (hp : p ∈ schema.parts) => slot_lt schema.toShort hp
  rw [covered_iff pkey hl (schema.sound part hpart) (hslots part hpart)]
  by_contra hlt
  obtain ⟨l, r, he⟩ := append_of_mem hpart
  obtain ⟨k, k', hk, hk', -, hbytes⟩ := h (keyOver fun _ => 0) (keyOver fun _ => 1)
  rw [fillKey_eq hl schema.toShort] at hk hk'
  obtain rfl := Except.ok.inj hk
  obtain rfl := Except.ok.inj hk'
  have hle : ∀ p ∈ l ++ part :: r, (p.image populate pkey value).length ≤ p.fillWidth populate value := by
    intro p hp
    rw [← he] at hp
    exact length_image_le pkey hl (schema.sound p hp) (hslots p hp) (hshort p hp)
  have hbyte := fillParts_unwritten hle (Nat.lt_of_not_le hlt)
  simp only [he, fillLength_append, fillLength_cons] at hbytes
  have hsame := bytes_inj.mp hbytes (fillLength populate value l + (part.image populate pkey value).length) (by omega)
  simp only [Nat.zero_add, hbyte, keyOver] at hsame
  exact absurd hsame (by decide)

/-- Covered parts make a key that hangs on its row alone. -/
theorem stable_of_covered (hl : Leading populate) (schema : KeySchema) (h : ∀ part ∈ schema.parts, Covered part value) (pkey : Buffer) :
    Stable populate schema.parts pkey value := by
  intro key key'
  have hwhole := fun key => fillParts_covered hl schema.toShort h pkey key 0
  refine ⟨_, _, fillKey_eq hl schema.toShort _ _ _, fillKey_eq hl schema.toShort _ _ _, rfl, ?_⟩
  dsimp only
  rw [hwhole, hwhole]

end DeepFabric.Store.KeyEquality
