/-
  DeepFabric.Store.KeyImage — which bytes of a key a part writes (api/deep/DeepTypes.h: populateKey
  of the key parts).

  A part that is null writes its null byte. The fixed variable ones have cleared their slot before;
  the others leave what was in the buffer, and it is in the key from then on.
-/
import DeepFabric.Store.KeyGeometry

namespace DeepFabric.Store.KeyImage

open DeepFabric.Lib Buffer CompositeKey KeyFill

/-- A part that is null leaves no byte of its slot as it was. -/
def clears (part : KeyPart) : Bool :=
  match part.type with
  | .fixedVarText | .fixedVarBinary => true
  | .varText | .varBinary => false
  | _ => part.length = 0

def Covered (part : KeyPart) (value : Buffer) : Prop := part.null value = true → clears part = true

/-- A fixed var-binary column is not longer than its part. -/
def Trimmed (part : KeyPart) (value : Buffer) : Prop :=
  part.type = .fixedVarBinary → part.null value = false → (value part.valueOffset).toNat ≤ part.length

variable {populate : Populate} {pkey value key buf : Buffer} {part : KeyPart} {parts : List KeyPart} {d : Nat}

theorem slot_lt (h : Short parts) (hpart : part ∈ parts) : part.slot < 2 ^ 16 := by
  have hsum := h.short
  obtain ⟨l, r, rfl⟩ := List.append_of_mem hpart
  rw [KeyGeometry.sum_slots_append] at hsum
  omega

theorem not_hidden (hs : part.Sound) (h : part.null value = true) : part.type ≠ .hidden := by
  intro ht
  simp [KeyPart.null, DeepKeyPart.maybeNull, hs.hidden ht] at h

/-- A payload is as long as the part, but for the fixed variable kinds. -/
theorem length_payload_fixed (hl : Leading populate) (ht : ¬(part.type = .varText ∨ part.type = .varBinary))
    (hf : ¬(part.type = .fixedVarText ∨ part.type = .fixedVarBinary)) (value : Buffer) :
    (part.payload populate value).length = part.length ∧ part.lengthBytes = 0 := by
  have hn := hl part.characterSet (bytes value (part.variableData value) (part.variableLength value)) part.length
  unfold KeyPart.payload DeepKeyPart.lengthBytes
  cases h : part.type with
  | varText | varBinary | fixedVarText | fixedVarBinary => simp_all
  | textMultibyte =>
    simp only [List.length_append, length_bytes, List.length_replicate]
    exact ⟨by omega, trivial⟩
  | _ => simp only [length_bytes, and_self]

theorem image_cleared (hf : part.type = .fixedVarText ∨ part.type = .fixedVarBinary) :
    part.image populate pkey value =
      part.head populate value ++ (List.replicate part.unpackLength 0).drop (part.head populate value).length := by
  rcases hf with hf | hf <;> rw [KeyPart.image, hf]

theorem fillWidth_fixed (ht : ¬(part.type = .varText ∨ part.type = .varBinary)) : part.fillWidth populate value = part.slot := by
  unfold KeyPart.fillWidth
  cases h : part.type <;> simp_all

theorem image_plain (hf : ¬(part.type = .fixedVarText ∨ part.type = .fixedVarBinary)) (ht : part.type ≠ .hidden) :
    part.image populate pkey value = part.head populate value := by
  unfold KeyPart.image
  cases h : part.type <;> simp_all

variable (pkey) in
theorem covered_iff (hl : Leading populate) (hs : part.Sound) (hslot : part.slot < 2 ^ 16) :
    Covered part value ↔ part.fillWidth populate value ≤ (part.image populate pkey value).length := by
  unfold Covered clears
  by_cases hf : part.type = .fixedVarText ∨ part.type = .fixedVarBinary
  · have ht : ¬(part.type = .varText ∨ part.type = .varBinary) := by
      rcases hf with hf | hf <;> simp [hf]
    refine iff_of_true (fun _ => by rcases hf with hf | hf <;> simp [hf]) ?_
    rw [fillWidth_fixed ht, image_cleared hf, List.length_append, List.length_drop, List.length_replicate, unpackLength_eq hslot]
    omega
  · by_cases hh : part.type = .hidden
    · have hnb : part.nullBytes = 0 := by
        simp [DeepKeyPart.nullBytes, DeepKeyPart.maybeNull, hs.hidden hh]
      refine iff_of_true (fun h => absurd hh (not_hidden hs h)) ?_
      rw [KeyPart.fillWidth, KeyPart.image, hh, length_bytes, KeyPart.slot, hnb, DeepKeyPart.lengthBytes, hh]
      simp
    · rw [image_plain hf hh, length_head]
      by_cases ht : part.type = .varText ∨ part.type = .varBinary
      · rw [fillWidth_variable populate value ht]
        cases hnull : part.null value with
        | true => rcases ht with ht | ht <;> simp [ht]
        | false => simp
      · obtain ⟨hpay, hlb⟩ := length_payload_fixed hl ht hf value
        rw [fillWidth_fixed ht, KeyPart.slot, hpay, hlb]
        cases hnull : part.null value with
        | true => cases h : part.type <;> simp_all
        | false => simp

variable (pkey) in
/-- A part writes no more than its width, but for a column that is longer than its part. -/
theorem length_image_le (hl : Leading populate) (hs : part.Sound) (hslot : part.slot < 2 ^ 16) (h : Trimmed part value) :
    (part.image populate pkey value).length ≤ part.fillWidth populate value := by
  by_cases ht : part.type = .varText ∨ part.type = .varBinary
  · rw [image_variable ht, length_head, fillWidth_variable populate value ht]
    split_ifs <;> omega
  · rw [fillWidth_fixed ht]
    rcases KeyGeometry.length_image hl hs hslot pkey value with hle | ⟨hf, hnull, hlen⟩
    · exact hle
    · have hfit := h hf hnull
      rw [hlen, KeyPart.slot, DeepKeyPart.lengthBytes, hf]
      simp only
      omega

/-! ## Whole keys -/

/-- What all the parts write, one behind the other. -/
def image (populate : Populate) (pkey value : Buffer) (parts : List KeyPart) : List UInt8 :=
  parts.flatMap fun part => (part.image populate pkey value).take (part.fillWidth populate value)

theorem Shown.whole (h : Shown populate pkey value part key d)
    (hle : part.fillWidth populate value ≤ (part.image populate pkey value).length) :
    bytes key d (part.fillWidth populate value) = (part.image populate pkey value).take (part.fillWidth populate value) := by
  have hlen : ((part.image populate pkey value).take (part.fillWidth populate value)).length = part.fillWidth populate value := by
    rw [List.length_take, Nat.min_eq_left hle]
  have hbytes : bytes key d ((part.image populate pkey value).take (part.fillWidth populate value)).length =
      (part.image populate pkey value).take (part.fillWidth populate value) := by
    refine bytes_eq_iff.mpr fun i hi => ?_
    rw [List.getElem_take]
    exact h i (by omega) (by omega)
  rwa [hlen] at hbytes

theorem ShownFrom.whole (h : ShownFrom populate pkey value parts key d)
    (hle : ∀ part ∈ parts, part.fillWidth populate value ≤ (part.image populate pkey value).length) :
    bytes key d (fillLength populate value parts) = image populate pkey value parts := by
  induction parts generalizing d with
  | nil => rfl
  | cons part parts ih =>
    rw [fillLength_cons, bytes_append, Shown.whole h.1 (hle part List.mem_cons_self),
      ih h.2 (List.forall_mem_cons.mp hle).2]
    rfl

theorem fillParts_whole (hle : ∀ part ∈ parts, part.fillWidth populate value ≤ (part.image populate pkey value).length)
    (key : Buffer) (d : Nat) : bytes (fillParts populate pkey value parts key d) d (fillLength populate value parts) =
      image populate pkey value parts :=
  ShownFrom.whole (fillParts_shown populate pkey value key d parts) hle

/-- Covered parts make a key that hangs on its row alone. -/
theorem fillParts_covered (hl : Leading populate) (h : Short parts) (hc : ∀ part ∈ parts, Covered part value) (pkey key : Buffer)
    (d : Nat) : bytes (fillParts populate pkey value parts key d) d (fillLength populate value parts) =
      image populate pkey value parts :=
  fillParts_whole (fun part hpart => (covered_iff pkey hl (h.sound part hpart) (slot_lt h hpart)).mp (hc part hpart)) key d

theorem fillParts_unwritten {l r : List KeyPart}
    (hle : ∀ p ∈ l ++ part :: r, (p.image populate pkey value).length ≤ p.fillWidth populate value)
    (hlt : (part.image populate pkey value).length < part.fillWidth populate value) (key : Buffer) :
    let i := fillLength populate value l + (part.image populate pkey value).length
    fillParts populate pkey value (l ++ part :: r) key 0 i = key i := by
  intro i
  rw [fillParts_append, fillParts, fillParts_below (by omega), put_outside (by omega)]
  refine KeyGeometry.fillParts_behind (e := fillLength populate value l) (fun l' p r' he => ?_) (by omega)
  have hp := hle p (by rw [he]; simp)
  rw [he, fillLength_append, fillLength_cons]
  omega

end DeepFabric.Store.KeyImage
