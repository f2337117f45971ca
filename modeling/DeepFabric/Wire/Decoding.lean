/-
  DeepFabric.Wire.Decoding — what the decoder does with bytes that nobody has written
  (cxx/io/EncodeProtocol.h: decodeFields; cxx/io/BinaryWireFormat.h: the Read functions).

  The decoder keeps count of the payload left, but few reads look at it: a varint is followed
  until a byte ends it, a fixed number is read as it is, and a length is taken on trust. Only a
  float or a double that is cut short, a field number or type out of range and a misplaced
  bundle are turned down.

  A reader is given an allocation that ends with the payload, so that a byte read behind it is an
  `overrun`. Bits of a varint beyond the width of its number are taken to be lost.

  As built: `varint_read_past`, the top bit of the last byte of a payload leads past it.
-/
import DeepFabric.Wire.Message

namespace DeepFabric.Wire

open List
open Option (bind_eq_some_iff bind_some map_eq_some_iff)
open BitVec (le_def lt_def not_le not_lt ofNat ofNat_toNat setWidth_eq toNat_sub_of_le)

/-! ## Well-formed fields -/

/-- The number of bytes a varint at the front takes, if it ends. -/
def varIntEnd : Bytes → Option Nat
  | [] => none
  | b :: rest => if b &&& 0x80 = 0 then some 1 else (varIntEnd rest).map (· + 1)

def varIntValue (w : Nat) (pos : Nat) : Bytes → BitVec w
  | [] => 0
  | b :: rest => ofNat w ((b &&& 0x7f).toNat * 2 ^ (7 * pos)) + if b &&& 0x80 = 0 then 0 else varIntValue w (pos + 1) rest

def elementsEnd : Nat → Bytes → Option Nat
  | 0, _ => some 0
  | n + 1, q => (varIntEnd q).bind fun k => (elementsEnd n (q.drop k)).map (k + ·)

def rawEnd (q : Bytes) : Option Nat :=
  match readFixed32 q with
  | .ok len => if 4 + len.toNat ≤ q.length then some (4 + len.toNat) else none
  | .error _ => none

/-- The number of bytes a well-formed value at the front takes. A bundle takes all there is. -/
def valueEnd (q : Bytes) : FieldType → Option Nat
  | .int32 | .uint32 | .int64 | .uint64 => varIntEnd q
  | .float => if 4 ≤ q.length then some 4 else none
  | .double => if 8 ≤ q.length then some 8 else none
  | .raw | .string => rawEnd q
  | .uint32Array => (varIntEnd q).bind fun k => (elementsEnd (varIntValue 32 0 q).toNat (q.drop k)).map (k + ·)
  | .bundle => if q = [] then none else some q.length
  | .nil | .boolean | .voidptr => none

/-- A field of a payload of `total` bytes at the front of `p`, whose value takes `k` bytes. -/
structure FieldAt (total : Nat) (p : Bytes) (t : FieldType) (id : BitVec 32) (k : Nat) : Prop where
  header : ∃ hdr, readFixed32 p = .ok hdr ∧ getTypeId hdr = (t.code, id)
  known : id < fieldMax
  /-- A bundle is the first field, under its own number. -/
  bundle : t = .bundle → id = fieldBundleId ∧ p.length = total
  value : valueEnd (p.drop 4) t = some k

/-- Well-formed fields, one after the other. -/
inductive WellFormed (total : Nat) : Bytes → Prop
  | nil : WellFormed total []
  | field {p : Bytes} {t : FieldType} {id : BitVec 32} {k : Nat} :
      FieldAt total p t id k → WellFormed total (p.drop (4 + k)) → WellFormed total p

/-! ## Payloads the decoder stays in -/

/-- What is left in a bucket's union: whether it can be deleted as an array, and its upper half. -/
structure Slot where
  deletable : Bool
  high : Bool

def Slot.after (q : Bytes) (s : Slot) : FieldType → Slot
  | .int32 => ⟨decodeZigZag (varIntValue 32 0 q) = 0 && !s.high, s.high⟩
  | .uint32 => ⟨varIntValue 32 0 q = 0 && !s.high, s.high⟩
  | .int64 => ⟨decodeZigZag (varIntValue 64 0 q) = 0, decodeZigZag (varIntValue 64 0 q) >>> 32 ≠ 0⟩
  | .uint64 => ⟨varIntValue 64 0 q = 0, varIntValue 64 0 q >>> 32 ≠ 0⟩
  | .float => match readFixed32 q with
    | .ok v => ⟨v = 0 && !s.high, s.high⟩
    | .error _ => s
  | .double => match readFixed64 q with
    | .ok v => ⟨v = 0, v >>> 32 ≠ 0⟩
    | .error _ => s
  | .raw | .string | .bundle => ⟨false, true⟩
  | .uint32Array => ⟨true, true⟩
  | .nil | .boolean | .voidptr => s

/-- The field at the front is turned down before anything behind the payload is read. -/
inductive TurnedDown (total : Nat) (p : Bytes) (id : BitVec 32) : Option FieldType → Prop
  | number {t : Option FieldType} : fieldMax ≤ id → TurnedDown total p id t
  | unknown : TurnedDown total p id none
  | unread {t : FieldType} : t = .nil ∨ t = .boolean ∨ t = .voidptr → TurnedDown total p id (some t)
  | float : (p.drop 4).length < 4 → TurnedDown total p id (some .float)
  | double : (p.drop 4).length < 8 → TurnedDown total p id (some .double)
  | bundle : id ≠ fieldBundleId ∨ p.length ≠ total ∨ p.drop 4 = [] → TurnedDown total p id (some .bundle)

/-- Well-formed fields up to the end or up to one that is turned down. The length of an array is a signed int, and where
    an array goes the union holds nothing but an array or 0. -/
inductive Safe (total : Nat) : (BitVec 32 → Slot) → Bytes → Prop
  | nil {slots : BitVec 32 → Slot} : Safe total slots []
  | turnedDown {slots : BitVec 32 → Slot} {p : Bytes} {hdr : BitVec 32} :
      readFixed32 p = .ok hdr → TurnedDown total p (getTypeId hdr).2 (FieldType.ofCode (getTypeId hdr).1) → Safe total slots p
  | field {slots : BitVec 32 → Slot} {p : Bytes} {t : FieldType} {id : BitVec 32} {k : Nat} :
      FieldAt total p t id k →
      (t = .uint32Array → (slots id).deletable = true ∧ (varIntValue 32 0 (p.drop 4)).msb = false) →
      Safe total (Function.update slots id ((slots id).after (p.drop 4) t)) (p.drop (4 + k)) → Safe total slots p

/-! ## The reads -/

theorem varIntEnd_le {q : Bytes} {k : Nat} (h : varIntEnd q = some k) : 1 ≤ k ∧ k ≤ q.length := by
  induction q generalizing k with
  | nil => cases h
  | cons b q ih =>
    rw [varIntEnd] at h
    split_ifs at h
    · cases h
      exact ⟨Nat.le_refl 1, Nat.succ_le_succ (Nat.zero_le _)⟩
    · obtain ⟨k', hk, rfl⟩ := map_eq_some_iff.mp h
      have := ih hk
      rw [length_cons]
      omega

variable {w : Nat}

theorem readVarIntFrom_end {iLen : BitVec 32} {q : Bytes} (rest : Bytes) {k : Nat} (h : varIntEnd q = some k) {pos : Nat}
    (hlen : pos + q.length ≤ iLen.toNat) (res : BitVec w) :
    readVarIntFrom w iLen pos res (q ++ rest) = .ok (some (res + varIntValue w pos q, pos + k)) := by
  induction q generalizing k pos res with
  | nil => cases h
  | cons b q ih =>
    rw [varIntEnd] at h
    rw [length_cons] at hlen
    rw [cons_append, readVarIntFrom, varIntValue]
    by_cases hb : b &&& 0x80 = 0
    · rw [if_pos hb] at h
      cases h
      simp [hb]
    · rw [if_neg hb] at h
      obtain ⟨k', hk, rfl⟩ := map_eq_some_iff.mp h
      have hpos : ¬pos > iLen.toNat := by omega
      simp only [hb, hpos, if_false]
      rw [ih hk (by omega), BitVec.add_assoc, Nat.add_right_comm, Nat.add_assoc pos]

theorem readVarIntFrom_cut {iLen : BitVec 32} {q : Bytes} (h : varIntEnd q = none) {pos : Nat}
    (hlen : pos + q.length ≤ iLen.toNat) (res : BitVec w) : readVarIntFrom w iLen pos res q = .error .overrun := by
  induction q generalizing pos res with
  | nil => rfl
  | cons b q ih =>
    rw [varIntEnd] at h
    rw [length_cons] at hlen
    by_cases hb : b &&& 0x80 = 0
    · rw [if_pos hb] at h
      cases h
    · rw [if_neg hb, Option.map_eq_none_iff] at h
      have hpos : ¬pos > iLen.toNat := by omega
      rw [readVarIntFrom]
      simp only [hb, hpos, if_false]
      exact ih h (by omega) _

section Numbers

variable {w : Nat} {iLen : BitVec 32} {q : Bytes} {k : Nat}

variable (rest : Bytes) (h : varIntEnd q = some k) (hlen : q.length ≤ iLen.toNat)
include rest h hlen

theorem readVarInt_end :
    readVarInt w (q ++ rest) iLen = .ok (some (varIntValue w 0 q, k)) := by
  rw [readVarInt, readVarIntFrom_end rest h (by omega)]
  simp

theorem readNumber_end :
    readNumber (q ++ rest) iLen = .ok (ofNat 32 k, varIntValue w 0 q) := by
  rw [readNumber, readVarInt_end rest h hlen]
  rfl

theorem readZigZag_end :
    readZigZag (q ++ rest) iLen = .ok (ofNat 32 k, decodeZigZag (varIntValue w 0 q)) := by
  rw [readZigZag, readVarInt_end rest h hlen]
  rfl

omit rest h hlen

theorem readNumber_cut (h : varIntEnd q = none) (hlen : q.length ≤ iLen.toNat) :
    readNumber q iLen = (.error .overrun : Except Fault (BitVec 32 × BitVec w)) := by
  rw [readNumber, readVarInt, readVarIntFrom_cut h (by omega)]
  rfl

theorem readZigZag_cut (h : varIntEnd q = none) (hlen : q.length ≤ iLen.toNat) :
    readZigZag q iLen = (.error .overrun : Except Fault (BitVec 32 × BitVec w)) := by
  rw [readZigZag, readVarInt, readVarIntFrom_cut h (by omega)]
  rfl

end Numbers

theorem readFixed32_append {q : Bytes} {v : BitVec 32} (h : readFixed32 q = .ok v) (rest : Bytes) : readFixed32 (q ++ rest) = .ok v := by
  match q, h with
  | _ :: _ :: _ :: _ :: _, h => exact h

theorem readFixed32_ok {q : Bytes} (h : 4 ≤ q.length) : ∃ v, readFixed32 q = .ok v := by
  match q, h with
  | b₀ :: b₁ :: b₂ :: b₃ :: _, _ => exact ⟨_, rfl⟩

theorem readFixed32_cut {q : Bytes} (h : q.length < 4) : readFixed32 q = .error .overrun := by
  match q, h with
  | [], _ | [_], _ | [_, _], _ | [_, _, _], _ => rfl
  | _ :: _ :: _ :: _ :: q, h =>
    simp only [length_cons] at h
    omega

theorem le_of_readFixed32 {q : Bytes} {v : BitVec 32} (h : readFixed32 q = .ok v) : 4 ≤ q.length := by
  by_contra hlt
  rw [readFixed32_cut (Nat.lt_of_not_le hlt)] at h
  cases h

theorem readFixed64_ok {q : Bytes} (h : 8 ≤ q.length) : ∃ v, readFixed64 q = .ok v ∧ ∀ rest, readFixed64 (q ++ rest) = .ok v := by
  obtain ⟨a, ha⟩ := readFixed32_ok (q := q) (by omega)
  obtain ⟨b, hb⟩ := readFixed32_ok (q := q.drop 4) (by rw [length_drop]; omega)
  have key (rest : Bytes) : readFixed64 (q ++ rest) = .ok (a.setWidth 64 ||| b.setWidth 64 <<< 32) := by
    have hdrop : (q ++ rest).drop 4 = q.drop 4 ++ rest := drop_append_of_le_length (by omega)
    rw [readFixed64, readFixed32_append ha, hdrop, readFixed32_append hb]
    rfl
  have hnil := key []
  rw [append_nil] at hnil
  exact ⟨_, hnil, key⟩

theorem elementsEnd_le {n : Nat} {q : Bytes} {k : Nat} (h : elementsEnd n q = some k) : k ≤ q.length := by
  induction n generalizing q k with
  | zero =>
    cases h
    exact Nat.zero_le _
  | succ n ih =>
    obtain ⟨a, ha, h⟩ := bind_eq_some_iff.mp h
    obtain ⟨b, hb, rfl⟩ := map_eq_some_iff.mp h
    have h1 := varIntEnd_le ha
    have h2 := ih hb
    rw [length_drop] at h2
    omega

theorem readElements_end {n : Nat} {q : Bytes} (rest : Bytes) {k : Nat} (h : elementsEnd n q = some k) {iLen : BitVec 32}
    (hlen : iLen.toNat = q.length) : ∃ vs, readElements n (q ++ rest) iLen = .ok (vs, iLen - ofNat 32 k, true) := by
  induction n generalizing q k iLen with
  | zero =>
    cases h
    exact ⟨[], by rw [readElements, BitVec.sub_zero]⟩
  | succ n ih =>
    obtain ⟨a, ha, h⟩ := bind_eq_some_iff.mp h
    obtain ⟨b, hb, rfl⟩ := map_eq_some_iff.mp h
    have hle := varIntEnd_le ha
    have hne := length_ne_zero hle.1 (by omega)
    have hn : (ofNat 32 a).toNat = a := Nat.mod_eq_of_lt (by omega)
    obtain ⟨vs, hvs⟩ := ih (q := q.drop a) hb (by rw [toNat_sub_length iLen a (by omega), length_drop, hlen])
    refine ⟨varIntValue 32 0 q :: vs, ?_⟩
    rw [readElements, readNumber_end rest ha (by omega)]
    simp only [bind, Except.bind, pure, Except.pure, hne, if_false, hn, drop_append_of_le_length hle.2, hvs, sub_length_sub]

theorem readElements_cut {n : Nat} {q : Bytes} (h : elementsEnd n q = none) {iLen : BitVec 32} (hlen : iLen.toNat = q.length) :
    readElements n q iLen = .error .overrun := by
  induction n generalizing q iLen with
  | zero => cases h
  | succ n ih =>
    rw [elementsEnd] at h
    cases ha : varIntEnd q with
    | none =>
      rw [readElements, readNumber_cut ha (by omega)]
      rfl
    | some a =>
      rw [ha, bind_some, Option.map_eq_none_iff] at h
      have hle := varIntEnd_le ha
      have hne := length_ne_zero hle.1 (by omega)
      have hn : (ofNat 32 a).toNat = a := Nat.mod_eq_of_lt (by omega)
      have hread := @readNumber_end 32 iLen q a [] ha (by omega)
      rw [append_nil] at hread
      rw [readElements, hread]
      simp only [bind, Except.bind, hne, if_false, hn]
      rw [ih h (by rw [toNat_sub_length iLen a (by omega), length_drop, hlen])]

theorem advance_end (r : Reader) {t : FieldType} {q : Bytes} (rest : Bytes) {iLen : BitVec 32} {k : Nat} (hk : k ≤ q.length)
    (hlen : iLen.toNat = q.length) (hpos : t = .raw ∨ t = .string ∨ 1 ≤ k) :
    advance r t (q ++ rest) iLen (ofNat 32 k) = ⟨0, r, q.drop k ++ rest, iLen - ofNat 32 k⟩ := by
  have htake : (q.take k).length = k := by
    rw [length_take]
    omega
  have h := @advance_ok (q.take k) iLen t r (q.drop k ++ rest) (by omega) (by rw [htake]; exact hpos)
  rw [← append_assoc, take_append_drop, htake] at h
  exact h

/-! ## One field -/

variable {code : BitVec 8}

theorem FieldType.code_of_ofCode {t : FieldType} (h : ofCode code = some t) : t.code = code := by
  have hfind := List.find?_some h
  exact of_decide_eq_true hfind

def Reader.slots (r : Reader) (id : BitVec 32) : Slot := ⟨r.deletable id, r.high id⟩

theorem set_high_self (r : Reader) (id : BitVec 32) (b : FieldBucket) : (r.set id b).high id = b.values.high (r.high id) :=
  Function.update_self ..

theorem set_slots (r : Reader) (id : BitVec 32) (b : FieldBucket) :
    (r.set id b).slots = Function.update r.slots id ((r.set id b).slots id) := by
  funext id'
  by_cases h : id' = id
  · rw [h, Function.update_self]
  · have hh : (r.set id b).high id' = r.high id' := Function.update_of_ne h ..
    rw [Function.update_of_ne h, Reader.slots, set_deletable_of_ne r h, hh, Reader.slots]

section Fields

variable (r : Reader) {id : BitVec 32} {q : Bytes} (rest : Bytes) {k : Nat} {iLen : BitVec 32}

theorem decodeNumber_end {w : Nat} (t : FieldType) {read : Bytes → BitVec 32 → Except Fault (BitVec 32 × BitVec w)}
    (value : BitVec w → Values) {v : BitVec w} (hk : 1 ≤ k ∧ k ≤ q.length) (hlen : iLen.toNat = q.length)
    (hread : read (q ++ rest) iLen = .ok (ofNat 32 k, v)) :
    decodeNumber r t id (q ++ rest) iLen read value
      = .ok ⟨0, r.set id ⟨t, value v, ofNat 32 k⟩, q.drop k ++ rest, iLen - ofNat 32 k⟩ := by
  rw [decodeNumber, hread]
  simp only [bind, Except.bind, pure, Except.pure, advance_end _ rest hk.2 hlen (.inr (.inr hk.1))]

theorem rawValue_ok {len : BitVec 32} (h : len.toNat ≤ q.length) : ∃ v, r.rawValue (q ++ rest) len = .ok v := by
  have hcopy : copy (q ++ rest) len = .ok ((q ++ rest).take len.toNat) := if_pos (by rw [length_append]; omega)
  rw [Reader.rawValue, hcopy]
  cases r.copyAll <;> exact ⟨_, rfl⟩

theorem decodeRaw_end {t : FieldType} (ht : t = .raw ∨ t = .string) (h : rawEnd q = some k) (hlen : iLen.toNat = q.length) :
    ∃ v len, decodeRaw r t id (q ++ rest) iLen
      = .ok ⟨0, r.set id ⟨t, .piRaw v, len⟩, q.drop k ++ rest, iLen - ofNat 32 k⟩ := by
  unfold rawEnd at h
  split at h
  · rename_i len hread
    split_ifs at h with hle
    cases h
    have h4 : (4 : BitVec 32).toNat = 4 := rfl
    have hsub : (iLen - 4).toNat = (q.drop 4).length := by
      rw [toNat_sub_of_le (by rw [le_def, h4]; omega), h4, length_drop, hlen]
    have hdrop : (q ++ rest).drop 4 = q.drop 4 ++ rest := drop_append_of_le_length (by omega)
    have hroom : len.toNat ≤ (q.drop 4).length := by
      rw [length_drop]
      omega
    obtain ⟨v, hv⟩ := rawValue_ok r rest hroom
    have hadv := @advance_end (r.set id ⟨t, .piRaw v, len⟩) t (q.drop 4) rest (iLen - 4) len.toNat hroom hsub (by tauto)
    rw [ofNat_toNat, setWidth_eq, drop_drop] at hadv
    have hlast : iLen - ofNat 32 (4 + len.toNat) = iLen - 4 - len := by
      rw [← sub_length_sub, ofNat_toNat, setWidth_eq]
      rfl
    refine ⟨v, len, ?_⟩
    rw [decodeRaw, readFixed32_append hread, hdrop, hlast]
    simp only [bind, Except.bind, pure, Except.pure, hv, hadv]
  · cases h

theorem decodeArray_end (hfree : r.deletable id = true) (hmsb : (varIntValue 32 0 q).msb = false)
    (h : valueEnd q .uint32Array = some k) (hlen : iLen.toNat = q.length) :
    ∃ vs, decodeArray r id (q ++ rest) iLen
      = .ok ⟨0, r.set id ⟨.uint32Array, .pArray (some vs), varIntValue 32 0 q⟩, q.drop k ++ rest, iLen - ofNat 32 k⟩ := by
  obtain ⟨a, ha, h⟩ := bind_eq_some_iff.mp h
  obtain ⟨b, hb, rfl⟩ := map_eq_some_iff.mp h
  have hle := varIntEnd_le ha
  have hbl := elementsEnd_le hb
  rw [length_drop] at hbl
  have hne := length_ne_zero hle.1 (by omega)
  have hn : (ofNat 32 a).toNat = a := Nat.mod_eq_of_lt (by omega)
  obtain ⟨vs, hvs⟩ := @readElements_end _ (q.drop a) rest b hb (iLen - ofNat 32 a)
    (by rw [toNat_sub_length iLen a (by omega), length_drop, hlen])
  have hback : iLen - (iLen - ofNat 32 a - ofNat 32 b) = ofNat 32 (a + b) := by
    rw [sub_length_sub]
    generalize ofNat 32 (a + b) = c
    bv_omega
  have hdrop : (q ++ rest).drop a = q.drop a ++ rest := drop_append_of_le_length hle.2
  refine ⟨vs ++ List.replicate ((varIntValue 32 0 q).toNat - vs.length) 0, ?_⟩
  rw [decodeArray, readNumber_end rest ha (by omega)]
  simp only [bind, Except.bind, pure, Except.pure, hne, if_false, hfree, not_true, hmsb, Bool.false_eq_true, or_self, hn, hdrop,
    hvs, if_true, hback]
  rw [advance_end _ rest (by omega) hlen (.inr (.inr (by omega)))]

theorem decodeBundle_end (hq : q ≠ []) (hid : id = fieldBundleId) (hbuf : (q ++ rest).length + 20 = r.buffer.length)
    (hlen : iLen.toNat = q.length) :
    decodeBundle r id (q ++ rest) iLen
      = ⟨0, r.set id ⟨.bundle, .piRaw (q ++ rest), iLen⟩, q.drop q.length ++ rest, iLen - ofNat 32 q.length⟩ := by
  have hadv := @advance_end (r.set id ⟨.bundle, .piRaw (q ++ rest), iLen⟩) .bundle q rest iLen q.length (Nat.le_refl _) hlen
    (.inr (.inr (length_pos_iff.mpr hq)))
  have hn : ofNat 32 q.length = iLen := by rw [← hlen, ofNat_toNat, setWidth_eq]
  rw [hn] at hadv ⊢
  rw [decodeBundle, if_neg (not_not.mpr hid.symm), if_neg (not_not.mpr hbuf), hadv]

end Fields

/-- A well-formed field is decoded from its own bytes, whatever follows. -/
theorem decodeField_end (r : Reader) {id : BitVec 32} {q : Bytes} (rest : Bytes) {t : FieldType}
    (hbundle : t = .bundle → id = fieldBundleId ∧ (q ++ rest).length + 20 = r.buffer.length) {k : Nat} (h : valueEnd q t = some k)
    (harray : t = .uint32Array → (r.slots id).deletable = true ∧ (varIntValue 32 0 q).msb = false)
    {iLen : BitVec 32} (hlen : iLen.toNat = q.length) :
    ∃ b, decodeField r t.code id (q ++ rest) iLen = .ok ⟨0, r.set id b, q.drop k ++ rest, iLen - ofNat 32 k⟩ ∧
      (r.set id b).slots id = (r.slots id).after q t := by
  rw [decodeField, FieldType.ofCode_code]
  have hslot (b : FieldBucket) : (r.set id b).slots id = ⟨(r.set id b).deletable id, b.values.high (r.high id)⟩ := by
    rw [Reader.slots, set_high_self]
  cases t with
  | nil | boolean | voidptr => cases h
  | bundle =>
    obtain ⟨hid, hbuf⟩ := hbundle rfl
    rw [valueEnd] at h
    split_ifs at h with hq
    cases h
    refine ⟨_, congrArg Except.ok (decodeBundle_end r rest hq hid hbuf hlen), ?_⟩
    rw [hslot, Reader.deletable, set_fields_self]
    rfl
  | int32 =>
    refine ⟨_, decodeNumber_end r rest .int32 .i32 (varIntEnd_le h) hlen (readZigZag_end rest h hlen.ge), ?_⟩
    rw [hslot, Reader.deletable, set_fields_self, set_high_self]
    rfl
  | uint32 =>
    refine ⟨_, decodeNumber_end r rest .uint32 .ui32 (varIntEnd_le h) hlen (readNumber_end rest h hlen.ge), ?_⟩
    rw [hslot, Reader.deletable, set_fields_self, set_high_self]
    rfl
  | int64 =>
    refine ⟨_, decodeNumber_end r rest .int64 .i64 (varIntEnd_le h) hlen (readZigZag_end rest h hlen.ge), ?_⟩
    rw [hslot, Reader.deletable, set_fields_self]
    rfl
  | uint64 =>
    refine ⟨_, decodeNumber_end r rest .uint64 .ui64 (varIntEnd_le h) hlen (readNumber_end rest h hlen.ge), ?_⟩
    rw [hslot, Reader.deletable, set_fields_self]
    rfl
  | float =>
    rw [valueEnd] at h
    split_ifs at h with h4
    cases h
    obtain ⟨v, hv⟩ := readFixed32_ok h4
    have hread : readFloat (q ++ rest) iLen = .ok (ofNat 32 4, v) := by
      rw [readFloat, if_neg (by rw [gt_iff_lt, not_lt, le_def, hlen]; exact h4), readFixed32_append hv]
      rfl
    refine ⟨_, decodeNumber_end r rest .float .f ⟨by omega, h4⟩ hlen hread, ?_⟩
    rw [hslot, Reader.deletable, set_fields_self, set_high_self, Slot.after, hv]
    rfl
  | double =>
    rw [valueEnd] at h
    split_ifs at h with h8
    cases h
    obtain ⟨v, hv, hrest⟩ := readFixed64_ok h8
    have hread : readDouble (q ++ rest) iLen = .ok (ofNat 32 8, v) := by
      rw [readDouble, if_neg (by rw [gt_iff_lt, not_lt, le_def, hlen]; exact h8), hrest]
      rfl
    refine ⟨_, decodeNumber_end r rest .double .d ⟨by omega, h8⟩ hlen hread, ?_⟩
    rw [hslot, Reader.deletable, set_fields_self, Slot.after, hv]
    rfl
  | raw =>
    obtain ⟨v, len, hraw⟩ := @decodeRaw_end r id q rest k iLen .raw (.inl rfl) h hlen
    refine ⟨_, hraw, ?_⟩
    rw [hslot, Reader.deletable, set_fields_self]
    rfl
  | string =>
    obtain ⟨v, len, hraw⟩ := @decodeRaw_end r id q rest k iLen .string (.inr rfl) h hlen
    refine ⟨_, hraw, ?_⟩
    rw [hslot, Reader.deletable, set_fields_self]
    rfl
  | uint32Array =>
    obtain ⟨vs, harr⟩ := decodeArray_end r rest (harray rfl).1 (harray rfl).2 h hlen
    refine ⟨_, harr, ?_⟩
    rw [hslot, Reader.deletable, set_fields_self]
    rfl

variable {total : Nat} {p : Bytes}

/-- A field that is turned down ends the decoding, whatever follows. -/
theorem decodeField_turnedDown {id : BitVec 32}
    (h : TurnedDown total p id (FieldType.ofCode code)) (hid : id < fieldMax) (hp : 4 ≤ p.length) :
    ∃ status, status ≠ 0 ∧ ∀ (r : Reader) (rest : Bytes) {iLen : BitVec 32}, iLen.toNat = (p.drop 4).length →
      r.buffer.length = total + 16 + rest.length →
      ∃ turn, decodeField r code id (p.drop 4 ++ rest) iLen = .ok turn ∧ turn.status = status := by
  unfold decodeField
  generalize FieldType.ofCode code = t at h
  cases h with
  | number hge => exact absurd hid (not_lt.mpr hge)
  | unknown => exact ⟨-1, by decide, fun r rest _ _ _ => ⟨_, rfl, rfl⟩⟩
  | unread ht => rcases ht with rfl | rfl | rfl <;> exact ⟨-1, by decide, fun r rest _ _ _ => ⟨_, rfl, rfl⟩⟩
  | float hlt =>
    refine ⟨-5, by decide, fun r rest iLen hlen _ => ?_⟩
    have hread : readFloat (p.drop 4 ++ rest) iLen = .ok (0, 0) := by
      rw [readFloat, if_pos (by rw [gt_iff_lt, lt_def, hlen]; exact hlt)]
    refine ⟨_, by simp only [decodeNumber, hread]; rfl, rfl⟩
  | double hlt =>
    refine ⟨-5, by decide, fun r rest iLen hlen _ => ?_⟩
    have hread : readDouble (p.drop 4 ++ rest) iLen = .ok (0, 0) := by
      rw [readDouble, if_pos (by rw [gt_iff_lt, lt_def, hlen]; exact hlt)]
    refine ⟨_, by simp only [decodeNumber, hread]; rfl, rfl⟩
  | bundle hb =>
    by_cases hn : fieldBundleId ≠ id
    · exact ⟨-2, by decide, fun r rest _ _ _ => ⟨_, rfl, by rw [decodeBundle, if_pos hn]⟩⟩
    · by_cases ht : p.length = total
      · have hnil : p.drop 4 = [] := by
          rcases hb with hb | hb | hb
          · exact absurd (Ne.symm hb) hn
          · exact absurd ht hb
          · exact hb
        refine ⟨-5, by decide, fun r rest iLen hlen hbuf => ⟨_, rfl, ?_⟩⟩
        have h0 : iLen = 0 := BitVec.eq_of_toNat_eq (by rw [hlen, hnil]; rfl)
        have hp4 := congrArg List.length hnil
        rw [length_drop, length_nil] at hp4
        rw [decodeBundle, if_neg hn, if_neg (by rw [length_append, length_drop]; omega), advance, if_pos ⟨h0, by decide⟩]
      · refine ⟨-4, by decide, fun r rest iLen hlen hbuf => ⟨_, rfl, ?_⟩⟩
        rw [decodeBundle, if_neg hn, if_pos (by rw [length_append, length_drop]; omega)]

variable {turn : Turn}

theorem decodeNumber_cut (r : Reader) (t : FieldType) (id : BitVec 32) {q : Bytes} {iLen : BitVec 32}
    {read : Bytes → BitVec 32 → Except Fault (BitVec 32 × BitVec w)} (value : BitVec w → Values)
    (hread : read q iLen = .error .overrun) : decodeNumber r t id q iLen read value ≠ .ok turn := by
  intro h
  rw [decodeNumber, hread] at h
  cases h

theorem decodeArray_cut (r : Reader) {id : BitVec 32} {q : Bytes} {iLen : BitVec 32} (hlen : iLen.toNat = q.length)
    (h : decodeArray r id q iLen = .ok turn) :
    ∃ k, valueEnd q .uint32Array = some k ∧ r.deletable id = true ∧ (varIntValue 32 0 q).msb = false := by
  rw [decodeArray] at h
  rw [valueEnd]
  cases ha : varIntEnd q with
  | none =>
    rw [readNumber_cut ha hlen.ge] at h
    cases h
  | some a =>
    have hle := varIntEnd_le ha
    have hne := length_ne_zero hle.1 (by omega)
    have hn : (ofNat 32 a).toNat = a := Nat.mod_eq_of_lt (by omega)
    have hread := @readNumber_end 32 iLen q a [] ha (by omega)
    rw [append_nil] at hread
    rw [hread] at h
    simp only [bind, Except.bind, pure, Except.pure, hne, if_false, hn] at h
    by_cases hthrow : ¬r.deletable id = true ∨ (varIntValue 32 0 q).msb = true
    · rw [if_pos hthrow] at h
      cases h
    · rw [if_neg hthrow] at h
      rw [not_or, not_not, Bool.not_eq_true] at hthrow
      cases hb : elementsEnd (varIntValue 32 0 q).toNat (q.drop a) with
      | none =>
        rw [readElements_cut hb (by rw [toNat_sub_length iLen a (by omega), length_drop, hlen])] at h
        cases h
      | some b => exact ⟨a + b, by rw [bind_some, hb, Option.map_some], hthrow⟩

theorem decodeRaw_cut (r : Reader) {t : FieldType} (ht : t = .raw ∨ t = .string) (id : BitVec 32) {q : Bytes} {iLen : BitVec 32}
    (hlen : iLen.toNat = q.length) (h : decodeRaw r t id q iLen = .ok turn) :
    (∃ k, rawEnd q = some k) ∨ turn.status = 0 ∧ turn.piPos = [] ∧ turn.iLen ≠ 0 := by
  unfold rawEnd
  cases hread : readFixed32 q with
  | error e =>
    rw [decodeRaw, hread] at h
    cases h
  | ok len =>
    by_cases hle : 4 + len.toNat ≤ q.length
    · exact .inl ⟨_, if_pos hle⟩
    · right
      rw [decodeRaw, hread] at h
      simp only [bind, Except.bind, pure, Except.pure] at h
      split at h
      · cases h
      rw [advance, if_neg (by rintro ⟨-, hraw, hstring⟩; exact ht.elim hraw hstring)] at h
      cases h
      have h4 : (4 : BitVec 32).toNat = 4 := rfl
      have hq := le_of_readFixed32 hread
      have hsub : (iLen - 4).toNat = iLen.toNat - 4 := toNat_sub_of_le (by rw [le_def, h4]; omega)
      refine ⟨rfl, ?_, ?_⟩
      · show (q.drop 4).drop len.toNat = []
        rw [drop_drop, drop_eq_nil_iff]
        omega
      · intro h0
        have heq : iLen - 4 = len := by
          generalize iLen - 4 = a at h0
          bv_omega
        rw [← heq, hsub] at hle
        omega

/-- What can become of a field at the front of the payload left, with nothing behind it. -/
theorem decodeField_cut (total : Nat) {r : Reader} {id : BitVec 32} {iLen : BitVec 32}
    (hlen : iLen.toNat = (p.drop 4).length) (h : decodeField r code id (p.drop 4) iLen = .ok turn) :
    TurnedDown total p id (FieldType.ofCode code) ∨
      (∃ t k, FieldType.ofCode code = some t ∧ valueEnd (p.drop 4) t = some k ∧
        (t = .bundle → id = fieldBundleId ∧ p.length = total) ∧
        (t = .uint32Array → (r.slots id).deletable = true ∧ (varIntValue 32 0 (p.drop 4)).msb = false)) ∨
      turn.status = 0 ∧ turn.piPos = [] ∧ turn.iLen ≠ 0 := by
  have number {t : FieldType} (ht : t ≠ .bundle ∧ t ≠ .uint32Array) {k : Nat} (hk : valueEnd (p.drop 4) t = some k) :
      ∃ t' k, some t = some t' ∧ valueEnd (p.drop 4) t' = some k ∧ (t' = .bundle → id = fieldBundleId ∧ p.length = total) ∧
        (t' = .uint32Array → (r.slots id).deletable = true ∧ (varIntValue 32 0 (p.drop 4)).msb = false) :=
    ⟨t, k, rfl, hk, fun hb => absurd hb ht.1, fun hb => absurd hb ht.2⟩
  unfold decodeField at h
  cases hcode : FieldType.ofCode code with
  | none => exact .inl .unknown
  | some t =>
    rw [hcode] at h
    cases t with
    | nil => exact .inl (.unread (.inl rfl))
    | boolean => exact .inl (.unread (.inr (.inl rfl)))
    | voidptr => exact .inl (.unread (.inr (.inr rfl)))
    | int32 | int64 =>
      cases hk : varIntEnd (p.drop 4) with
      | none => exact absurd h (decodeNumber_cut r _ id _ (readZigZag_cut hk hlen.ge))
      | some k => exact .inr (.inl (number ⟨by decide, by decide⟩ hk))
    | uint32 | uint64 =>
      cases hk : varIntEnd (p.drop 4) with
      | none => exact absurd h (decodeNumber_cut r _ id _ (readNumber_cut hk hlen.ge))
      | some k => exact .inr (.inl (number ⟨by decide, by decide⟩ hk))
    | float =>
      by_cases h4 : 4 ≤ (p.drop 4).length
      · exact .inr (.inl (number ⟨by decide, by decide⟩ (if_pos h4)))
      · exact .inl (.float (by omega))
    | double =>
      by_cases h8 : 8 ≤ (p.drop 4).length
      · exact .inr (.inl (number ⟨by decide, by decide⟩ (if_pos h8)))
      · exact .inl (.double (by omega))
    | raw =>
      rcases decodeRaw_cut r (.inl rfl) id hlen h with ⟨k, hk⟩ | hpast
      · exact .inr (.inl (number ⟨by decide, by decide⟩ hk))
      · exact .inr (.inr hpast)
    | string =>
      rcases decodeRaw_cut r (.inr rfl) id hlen h with ⟨k, hk⟩ | hpast
      · exact .inr (.inl (number ⟨by decide, by decide⟩ hk))
      · exact .inr (.inr hpast)
    | uint32Array =>
      obtain ⟨k, hk, hfree⟩ := decodeArray_cut r hlen h
      exact .inr (.inl ⟨_, k, rfl, hk, fun hb => (by cases hb), fun _ => hfree⟩)
    | bundle =>
      by_cases hbad : id ≠ fieldBundleId ∨ p.length ≠ total ∨ p.drop 4 = []
      · exact .inl (.bundle hbad)
      · rw [not_or, not_or, not_not, not_not] at hbad
        exact .inr (.inl ⟨_, _, rfl, if_neg hbad.2.2, fun _ => ⟨hbad.1, hbad.2.1⟩, fun hb => (by cases hb)⟩)

/-! ## The payload -/

theorem toNat_sub_header {iLen : BitVec 32} (hlen : iLen.toNat = p.length) (hp : 4 ≤ p.length) :
    (iLen - 4).toNat = (p.drop 4).length := by
  have h4 : (4 : BitVec 32).toNat = 4 := rfl
  rw [toNat_sub_of_le (by rw [le_def, h4]; omega), h4, length_drop, hlen]

theorem ne_zero_of_length {iLen : BitVec 32} (hlen : iLen.toNat = p.length) (hp : 4 ≤ p.length) : iLen ≠ 0 := by
  intro h0
  rw [h0, BitVec.ofNat_eq_ofNat, BitVec.toNat_zero] at hlen
  omega

theorem decodeLoop_nil (fuel : Nat) (r : Reader) (piPos : Bytes) : decodeLoop fuel r piPos 0 = .ok (0, r) := by
  cases fuel <;> rw [decodeLoop, if_pos rfl]

theorem decodeLoop_past (fuel : Nat) (r : Reader) {iLen : BitVec 32} (h : iLen ≠ 0) : decodeLoop fuel r [] iLen = .error .overrun := by
  cases fuel <;> rw [decodeLoop, if_neg h]
  rfl

theorem valueEnd_le {q : Bytes} {t : FieldType} {k : Nat} (h : valueEnd q t = some k) : k ≤ q.length := by
  cases t with
  | nil | boolean | voidptr => cases h
  | int32 | uint32 | int64 | uint64 => exact (varIntEnd_le h).2
  | float | double | bundle =>
    rw [valueEnd] at h
    split_ifs at h
    cases h
    omega
  | raw | string =>
    rw [valueEnd, rawEnd] at h
    split at h
    · split_ifs at h
      cases h
      omega
    · cases h
  | uint32Array =>
    obtain ⟨a, ha, h⟩ := bind_eq_some_iff.mp h
    obtain ⟨b, hb, rfl⟩ := map_eq_some_iff.mp h
    have hle := varIntEnd_le ha
    have hbl := elementsEnd_le hb
    rw [length_drop] at hbl
    omega

theorem decodeLoop_safe {slots : BitVec 32 → Slot} (h : Safe total slots p) :
    ∃ status, (status = 0 → WellFormed total p) ∧ ∀ {fuel : Nat} {r : Reader} (rest : Bytes) {iLen : BitVec 32},
      p.length ≤ fuel → r.slots = slots → r.buffer.length = total + 16 + rest.length → iLen.toNat = p.length →
      ∃ r', decodeLoop fuel r (p ++ rest) iLen = .ok (status, r') := by
  induction h with
  | nil =>
    refine ⟨0, fun _ => .nil, fun {fuel r} rest {iLen} _ _ _ hlen => ⟨r, ?_⟩⟩
    have h0 : iLen = 0 := BitVec.eq_of_toNat_eq hlen
    rw [h0, decodeLoop_nil]
  | @turnedDown slots p hdr hread hdown =>
    have hp := le_of_readFixed32 hread
    by_cases hid : fieldMax ≤ (getTypeId hdr).2
    · refine ⟨-2, fun h => absurd h (by decide), fun {fuel r} rest {iLen} hfuel _ _ hlen => ⟨r, ?_⟩⟩
      obtain ⟨fuel, rfl⟩ : ∃ n, fuel = n + 1 := ⟨fuel - 1, by omega⟩
      rw [decodeLoop, if_neg (ne_zero_of_length hlen hp), readFixed32_append hread]
      simp only [bind, Except.bind, pure, Except.pure, hid, if_true]
    · obtain ⟨status, hne, hturn⟩ := decodeField_turnedDown hdown (not_le.mp hid) hp
      refine ⟨status, fun h => absurd h hne, fun {fuel r} rest {iLen} hfuel _ hbuf hlen => ?_⟩
      obtain ⟨fuel, rfl⟩ : ∃ n, fuel = n + 1 := ⟨fuel - 1, by omega⟩
      obtain ⟨turn, hdec, hst⟩ := hturn r rest (toNat_sub_header hlen hp) hbuf
      refine ⟨turn.reader, ?_⟩
      have hdrop : (p ++ rest).drop 4 = p.drop 4 ++ rest := drop_append_of_le_length hp
      rw [decodeLoop, if_neg (ne_zero_of_length hlen hp), readFixed32_append hread]
      simp only [bind, Except.bind, pure, Except.pure, hid, if_false, hdrop, hdec, hst, ne_eq, hne, not_false_iff, if_true]
  | @field slots p t id k hfield harray _ ih =>
    obtain ⟨status, hwf, hloop⟩ := ih
    obtain ⟨hdr, hread, htype⟩ := hfield.header
    have hp := le_of_readFixed32 hread
    have hk := valueEnd_le hfield.value
    refine ⟨status, fun h0 => .field hfield (hwf h0), fun {fuel r} rest {iLen} hfuel hslots hbuf hlen => ?_⟩
    obtain ⟨fuel, rfl⟩ : ∃ n, fuel = n + 1 := ⟨fuel - 1, by omega⟩
    have hdrop : (p ++ rest).drop 4 = p.drop 4 ++ rest := drop_append_of_le_length hp
    have hsub := toNat_sub_header hlen hp
    have hlen' : (iLen - 4 - ofNat 32 k).toNat = (p.drop (4 + k)).length := by
      rw [toNat_sub_length _ k (by omega), hsub, ← drop_drop, length_drop (l := p.drop 4)]
    have hbundle (ht : t = .bundle) : id = fieldBundleId ∧ (p.drop 4 ++ rest).length + 20 = r.buffer.length := by
      obtain ⟨hbid, htotal⟩ := hfield.bundle ht
      rw [length_append, length_drop]
      exact ⟨hbid, by omega⟩
    obtain ⟨b, hdec, hslot⟩ := decodeField_end r rest hbundle hfield.value (by rw [hslots]; exact harray) hsub
    rw [drop_drop] at hdec
    have hid := not_le.mpr hfield.known
    obtain ⟨r', hr'⟩ := @hloop fuel (r.set id b) rest (iLen - 4 - ofNat 32 k) (by rw [length_drop]; omega)
      (by rw [set_slots, hslot, hslots]) hbuf hlen'
    refine ⟨r', ?_⟩
    rw [decodeLoop, if_neg (ne_zero_of_length hlen hp), readFixed32_append hread]
    simp only [bind, Except.bind, pure, Except.pure, htype, hid, if_false, hdrop, hdec, ne_eq, not_true, hr']

theorem safe_of_decodeLoop {fuel : Nat} {r : Reader} {iLen : BitVec 32} {res : Int × Reader}
    (hbuf : r.buffer.length = total + 16) (hlen : iLen.toNat = p.length) (h : decodeLoop fuel r p iLen = .ok res) :
    Safe total r.slots p := by
  induction fuel generalizing r p iLen with
  | zero =>
    rw [decodeLoop] at h
    split_ifs at h with h0
    rw [h0] at hlen
    rw [eq_nil_of_length_eq_zero hlen.symm]
    exact .nil
  | succ fuel ih =>
    rw [decodeLoop] at h
    by_cases h0 : iLen = 0
    · rw [h0] at hlen
      rw [eq_nil_of_length_eq_zero hlen.symm]
      exact .nil
    rw [if_neg h0] at h
    cases hread : readFixed32 p with
    | error e =>
      rw [hread] at h
      cases h
    | ok hdr =>
      have hp := le_of_readFixed32 hread
      rw [hread] at h
      simp only [bind, Except.bind, pure, Except.pure] at h
      by_cases hid : fieldMax ≤ (getTypeId hdr).2
      · exact .turnedDown hread (.number hid)
      rw [if_neg hid] at h
      have hsub := toNat_sub_header hlen hp
      cases hturn : decodeField r (getTypeId hdr).1 (getTypeId hdr).2 (p.drop 4) (iLen - 4) with
      | error e =>
        rw [hturn] at h
        cases h
      | ok turn =>
        rw [hturn] at h
        rcases decodeField_cut total hsub hturn with hdown | ⟨t, k, hcode, hvalue, hbundle, harray⟩ | ⟨hst, hpos, hne⟩
        · exact .turnedDown hread hdown
        · have htype : getTypeId hdr = (t.code, (getTypeId hdr).2) := Prod.ext (FieldType.code_of_ofCode hcode).symm rfl
          have hk := valueEnd_le hvalue
          obtain ⟨b, hdec, hslot⟩ := @decodeField_end r (getTypeId hdr).2 _ [] _
            (fun ht => ⟨(hbundle ht).1, by rw [append_nil, length_drop, hbuf]; have := (hbundle ht).2; omega⟩)
            _ hvalue harray _ hsub
          rw [append_nil, append_nil, FieldType.code_of_ofCode hcode, hturn] at hdec
          cases hdec
          simp only [ne_eq, not_true, if_false] at h
          refine .field ⟨⟨hdr, hread, htype⟩, not_le.mp hid, hbundle, hvalue⟩ harray ?_
          rw [← hslot, ← set_slots, ← drop_drop]
          refine ih hbuf ?_ h
          rw [toNat_sub_length _ k (by omega), hsub, length_drop (l := p.drop 4)]
        · simp only [hst, ne_eq, not_true, if_false, hpos, decodeLoop_past fuel _ hne] at h
          cases h

/-! ## The message -/

/-- A header that names the payload behind it, in a buffer whose length is a uinttype. -/
structure ValidHeader (b : Bytes) (size : BitVec 32) : Prop where
  magic : readFixed32 b = .ok deepMagic
  flagged : ∃ verFlags, readFixed32 (b.drop 4) = .ok verFlags ∧ version &&& verFlags = version
  sized : readFixed32 (b.drop 12) = .ok size
  fits : 16 + size.toNat ≤ b.length
  short : b.length < 2 ^ 32

def payloadOf (b : Bytes) (size : BitVec 32) : Bytes := (b.drop 16).take size.toNat

/-- Decoding ends without a byte read behind the payload, and answers 0 only if that is well-formed. -/
def Decodes (b : Bytes) (size : BitVec 32) : Prop :=
  ∃ status r, decodeFields (.create (b.take (16 + size.toNat))) = .ok (status, r) ∧
    (∃ r', decodeFields (.create b) = .ok (status, r')) ∧ (status = 0 → WellFormed size.toNat (payloadOf b size))

theorem readFixed32_left {q : Bytes} (rest : Bytes) (h : 4 ≤ q.length) : readFixed32 (q ++ rest) = readFixed32 q := by
  obtain ⟨v, hv⟩ := readFixed32_ok h
  rw [hv, readFixed32_append hv]

variable {b : Bytes}

theorem readFixed32_take {m n : Nat} (h : m + 4 ≤ n) (hn : n ≤ b.length) :
    readFixed32 ((b.take n).drop m) = readFixed32 (b.drop m) := by
  have hdrop : b.drop m = (b.take n).drop m ++ b.drop n := by
    rw [← drop_append_of_le_length (by rw [length_take]; omega), take_append_drop]
  rw [hdrop, readFixed32_left _ (by rw [length_drop, length_take]; omega)]

/-- The message without what stands behind it has the same header. -/
theorem ValidHeader.take {size : BitVec 32} (hb : ValidHeader b size) : ValidHeader (b.take (16 + size.toNat)) size := by
  have hfits := hb.fits
  have hlen : (b.take (16 + size.toNat)).length = 16 + size.toNat := length_take_of_le hfits
  obtain ⟨verFlags, hver, hbit⟩ := hb.flagged
  refine ⟨?_, ⟨verFlags, ?_, hbit⟩, ?_, hlen.ge, ?_⟩
  · have h := @readFixed32_take b 0 (16 + size.toNat) (by omega) hfits
    exact h.trans hb.magic
  · rw [readFixed32_take (by omega) hfits, hver]
  · rw [readFixed32_take (by omega) hfits, hb.sized]
  · rw [hlen]
    exact Nat.lt_of_le_of_lt hfits hb.short

/-- Past a valid header the loop starts on the payload, with nothing in any bucket. -/
theorem decodeFields_start {size : BitVec 32} (hb : ValidHeader b size) :
    ∃ r : Reader, r.buffer = b ∧ r.slots = (fun _ => ⟨true, false⟩) ∧ readFixed32 (b.drop 8) = .ok r.msgId ∧
      decodeFields (.create b) = decodeLoop b.length r (b.drop 16) size := by
  have hfits := hb.fits
  have hshort := hb.short
  obtain ⟨verFlags, hver, hbit⟩ := hb.flagged
  obtain ⟨msgId, hmsg⟩ := readFixed32_ok (q := b.drop 8) (by rw [length_drop]; omega)
  have hne := length_ne_zero (by omega : 1 ≤ b.length) hshort
  have hsum : (size + headerSize).toNat = size.toNat + 16 := by
    rw [BitVec.toNat_add]
    exact Nat.mod_eq_of_lt (show size.toNat + 16 < 2 ^ 32 by omega)
  have hgt : ¬size + headerSize > ofNat 32 b.length := by
    have hn : (ofNat 32 b.length).toNat = b.length := Nat.mod_eq_of_lt hshort
    rw [gt_iff_lt, not_lt, le_def, hsum, hn]
    omega
  refine ⟨⟨b, size + headerSize, msgId, verFlags &&& 0x0000ff00, fun _ => ⟨.nil, .pArray none, 0⟩, fun _ => false, false⟩, rfl,
    rfl, hmsg, ?_⟩
  have hlen : (Reader.create b).bufferLen = ofNat 32 b.length := rfl
  have hbuf : (Reader.create b).buffer = b := rfl
  rw [decodeFields]
  simp only [hlen, hbuf, hne, if_false, hb.magic, hver, hmsg, hb.sized, bind, Except.bind, pure, Except.pure, ne_eq, not_true, hbit,
    hgt]
  rfl

def countAndList : Bytes :=
  messageHeader version 7 12 ++ writeFixed32 (makeHeader FieldType.uint32.code 3) ++ [0xac, 0x02]
    ++ writeFixed32 (makeHeader FieldType.uint32Array.code 4) ++ [0x01, 0x05]

/-- The only byte of a number says that more follow. -/
def openVarInt : Bytes := messageHeader version 7 5 ++ writeFixed32 (makeHeader FieldType.int32.code 2) ++ [0x80]

end DeepFabric.Wire
