/-
  DeepFabric.Wire.Observation — what the getters of a reader tell of its fields
  (cxx/io/EncodeProtocol.h: the getters of reader).

  A getter asks a bucket for its type, then whether its length is 0, then for the member of that
  type; of a raw or a string value it gives the bytes, copied or as a pointer and their number.
  So two buckets may differ in their lengths and pointers and still be told apart by no getter.

  - `SameFields r c`: every getter of a field answers alike on both readers.
  - `Alike b c`: what two buckets have in common that no getter tells apart.
-/
import DeepFabric.Wire.Message

namespace DeepFabric.Wire

/-- A reference by its status, its size and the bytes that many from it on. -/
def seen (ref : Int × Bytes × BitVec 32) : Int × BitVec 32 × Except Fault Bytes := (ref.1, ref.2.2, copy ref.2.1 ref.2.2)

/-- Two readers whose fields answer alike. Of a pointer only the status counts: no message carries one. -/
structure SameFields (r c : Reader) : Prop where
  int32 : ∀ id d, getInt32Field c id d = getInt32Field r id d
  uint32 : ∀ id d, getUint32Field c id d = getUint32Field r id d
  int64 : ∀ id d, getInt64Field c id d = getInt64Field r id d
  uint64 : ∀ id d, getUint64Field c id d = getUint64Field r id d
  float : ∀ id d, getFloatField c id d = getFloatField r id d
  double : ∀ id d, getDoubleField c id d = getDoubleField r id d
  string : ∀ id d, getStringField c id d = getStringField r id d
  stringRef : ∀ id d n, seen (getStringFieldRef c id d n) = seen (getStringFieldRef r id d n)
  rawRef : ∀ id d n, seen (getRawFieldRef c id d n) = seen (getRawFieldRef r id d n)
  array : ∀ id d, (getUint32ArrayField c id d).1 = (getUint32ArrayField r id d).1 ∧
    (getUint32ArrayField c id d).2.1 = (getUint32ArrayField r id d).2.1
  bundle : ∀ d n, seen (getBundleBuffer c d n) = seen (getBundleBuffer r d n)
  voidPtr : ∀ id, getVoidPtr c id = getVoidPtr r id

def IsNumber (t : FieldType) : Prop := t = .int32 ∨ t = .uint32 ∨ t = .int64 ∨ t = .uint64 ∨ t = .float ∨ t = .double

def IsRaw (t : FieldType) : Prop := t = .raw ∨ t = .string ∨ t = .bundle

/-- Two buckets that no getter tells apart. -/
structure Alike (b c : FieldBucket) : Prop where
  iType : c.iType = b.iType
  zero : c.encodedLen = 0 ↔ b.encodedLen = 0
  number : IsNumber b.iType → c.values = b.values
  raw : IsRaw b.iType → c.encodedLen = b.encodedLen ∧ copy c.values.raw c.encodedLen = copy b.values.raw b.encodedLen
  array : b.iType = .uint32Array → c.values.array = b.values.array

theorem alike_number {t : FieldType} (ht : IsNumber t) (values : Values) {m n : BitVec 32} (hm : m ≠ 0) (hn : n ≠ 0) :
    Alike ⟨t, values, m⟩ ⟨t, values, n⟩ := by
  refine ⟨rfl, ⟨fun h0 => absurd h0 hn, fun h0 => absurd h0 hm⟩, fun _ => rfl, fun hraw => ?_, fun harr => ?_⟩
  · exact absurd hraw (by rcases ht with rfl | rfl | rfl | rfl | rfl | rfl <;> simp [IsRaw])
  · exact absurd ht (by rw [show t = .uint32Array from harr]; simp [IsNumber])

theorem alike_raw {t : FieldType} (ht : IsRaw t) {bytes : Bytes} (hlen : bytes.length < 2 ^ 32) (rest : Bytes) :
    Alike ⟨t, .piRaw (bytes ++ rest), BitVec.ofNat 32 bytes.length⟩ ⟨t, .piRaw bytes, BitVec.ofNat 32 bytes.length⟩ := by
  refine ⟨rfl, Iff.rfl, fun hnum => ?_, fun _ => ⟨rfl, ?_⟩, fun harr => ?_⟩
  · exact absurd hnum (by rcases ht with rfl | rfl | rfl <;> simp [IsNumber])
  · have hself := copy_append [] hlen
    rw [List.append_nil] at hself
    exact hself.trans (copy_append rest hlen).symm
  · exact absurd ht (by rw [show t = .uint32Array from harr]; simp [IsRaw])

/-! ## The getters of alike buckets -/

/-- A getter of a reference, but for the check of the number. -/
def getRef (t : FieldType) (r : Reader) (id : BitVec 32) (p : Bytes) (n : BitVec 32) : Int × Bytes × BitVec 32 :=
  if t ≠ (r.fields id).iType then (-2, p, n)
  else if (r.fields id).encodedLen = 0 then (0, [], 0)
  else (0, (r.fields id).values.raw, (r.fields id).encodedLen)

section Getters

variable {r c : Reader} (h : ∀ id, id < fieldMax → Alike (r.fields id) (c.fields id))
include h

theorem getNumber_of_alike {α : Type} {t : FieldType} (ht : IsNumber t) (value : Values → Option α) (id : BitVec 32) (d : α) :
    getNumber t value c id d = getNumber t value r id d := by
  rw [getNumber, getNumber]
  by_cases hid : fieldMax ≤ id
  · rw [if_pos hid, if_pos hid]
  have hb := h id (BitVec.not_le.mp hid)
  rw [if_neg hid, if_neg hid, hb.iType]
  by_cases heq : t = (r.fields id).iType
  · rw [if_neg (not_not.mpr heq), if_neg (not_not.mpr heq), hb.number (heq ▸ ht)]
    by_cases h0 : (r.fields id).encodedLen = 0
    · rw [if_pos (hb.zero.mpr h0), if_pos h0]
    · rw [if_neg (h0 ∘ hb.zero.mp), if_neg h0]
  · rw [if_pos heq, if_pos heq]

theorem seen_getRef {t : FieldType} (ht : IsRaw t) {id : BitVec 32} (hid : id < fieldMax) (p : Bytes) (n : BitVec 32) :
    seen (getRef t c id p n) = seen (getRef t r id p n) := by
  have hb := h id hid
  rw [getRef, getRef, hb.iType]
  by_cases heq : t = (r.fields id).iType
  · obtain ⟨hlen, hbytes⟩ := hb.raw (heq ▸ ht)
    rw [if_neg (not_not.mpr heq), if_neg (not_not.mpr heq), hlen]
    rw [hlen] at hbytes
    by_cases h0 : (r.fields id).encodedLen = 0
    · rw [if_pos h0, if_pos h0]
    · rw [if_neg h0, if_neg h0, seen, seen, hbytes]
  · rw [if_pos heq, if_pos heq]

theorem getStringField_of_alike (id : BitVec 32) (d : Bytes) : getStringField c id d = getStringField r id d := by
  rw [getStringField, getStringField]
  by_cases hid : fieldMax ≤ id
  · rw [if_pos hid, if_pos hid]
  have hb := h id (BitVec.not_le.mp hid)
  rw [if_neg hid, if_neg hid, hb.iType]
  by_cases ht : .string = (r.fields id).iType
  · obtain ⟨hlen, hbytes⟩ := hb.raw (.inr (.inl ht.symm))
    rw [hbytes, hlen]
  · rw [if_pos ht, if_pos ht]

theorem seen_getRef_checked {t : FieldType} (ht : IsRaw t) (id : BitVec 32) (p : Bytes) (n : BitVec 32) :
    seen (if fieldMax ≤ id then (-1, p, n) else getRef t c id p n) = seen (if fieldMax ≤ id then (-1, p, n) else getRef t r id p n) := by
  by_cases hid : fieldMax ≤ id
  · rw [if_pos hid, if_pos hid]
  · rw [if_neg hid, if_neg hid]
    exact seen_getRef h ht (BitVec.not_le.mp hid) p n

theorem getUint32ArrayField_of_alike (id : BitVec 32) (d : Option (List (BitVec 32))) :
    (getUint32ArrayField c id d).1 = (getUint32ArrayField r id d).1 ∧ (getUint32ArrayField c id d).2.1 = (getUint32ArrayField r id d).2.1 := by
  rw [getUint32ArrayField, getUint32ArrayField]
  by_cases hid : fieldMax ≤ id
  · rw [if_pos hid, if_pos hid]
    exact ⟨rfl, rfl⟩
  have hb := h id (BitVec.not_le.mp hid)
  rw [if_neg hid, if_neg hid, hb.iType]
  by_cases ht : .uint32Array = (r.fields id).iType
  · rw [if_neg (not_not.mpr ht), if_neg (not_not.mpr ht)]
    exact ⟨rfl, hb.array ht.symm⟩
  · rw [if_pos ht, if_pos ht]
    exact ⟨rfl, rfl⟩

theorem getVoidPtr_of_alike (id : BitVec 32) : getVoidPtr c id = getVoidPtr r id := by
  rw [getVoidPtr, getVoidPtr]
  by_cases hid : fieldMax ≤ id
  · rw [if_pos hid, if_pos hid]
  · rw [if_neg hid, if_neg hid, (h id (BitVec.not_le.mp hid)).iType]

theorem sameFields_of_alike : SameFields r c where
  int32 := getNumber_of_alike h (by simp [IsNumber]) _
  uint32 := getNumber_of_alike h (by simp [IsNumber]) _
  int64 := getNumber_of_alike h (by simp [IsNumber]) _
  uint64 := getNumber_of_alike h (by simp [IsNumber]) _
  float := getNumber_of_alike h (by simp [IsNumber]) _
  double := getNumber_of_alike h (by simp [IsNumber]) _
  string := getStringField_of_alike h
  stringRef := seen_getRef_checked h (.inr (.inl rfl))
  rawRef := seen_getRef_checked h (.inl rfl)
  array := getUint32ArrayField_of_alike h
  bundle := seen_getRef h (.inr (.inr rfl)) (by decide)
  voidPtr := getVoidPtr_of_alike h

end Getters

end DeepFabric.Wire
