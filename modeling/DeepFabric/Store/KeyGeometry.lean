/-
  DeepFabric.Store.KeyGeometry — the lengths of packed keys (api/deep/KeyBuilder.h: populateKey,
  getPackLength, packKey, unpackKey).

  A part's packed length is computed three times: when it is filled, when the packed key is walked,
  and when the unpacked one is. They agree, since a part keeps its null byte and its length where
  the part behind it does not come.

  A fixed var-binary part copies as many bytes as the column's length byte says, also when the part
  is shorter (its sibling for texts takes the smaller of both): it writes over the slots behind its
  own and past the end of the key.

  - `geometry_iff`: the lengths agree, the round trip reproduces the key or its first parts, and
    nothing is written behind the key, exactly if no such column is longer than the room from its
    part to the end of the key.
-/
import DeepFabric.Store.CompositeOrder
import DeepFabric.Store.KeyFill

namespace DeepFabric.Store.KeyGeometry

open DeepFabric.Lib Buffer CompositeKey KeyFill

/-- What the lengths of a filled key promise, whatever was in the buffers before. A search key has at least one part. -/
def Geometry (populate : Populate) (parts : List KeyPart) (pkey value : Buffer) : Prop :=
  ∀ key : Buffer, ∃ filled n, populateKeys populate (some pkey) value parts key 0 = .ok (filled, n) ∧
    n = getPackLength filled parts 0 ∧ n ≤ getUnpackLength parts ∧ (∀ i, getUnpackLength parts ≤ i → filled i = key i) ∧
    ∀ keyBuffer key' : Buffer,
      let unpacked := unpackKey filled parts keyBuffer 0 0
      (packKey unpacked parts fullMask key' 0 0).2 = n ∧ bytes (packKey unpacked parts fullMask key' 0 0).1 0 n = bytes filled 0 n ∧
      ∀ k, 1 ≤ k → k ≤ parts.length →
        let first := getPackLength filled (parts.take k) 0
        (packKey unpacked parts (2 ^ k - 1) key' 0 0).2 = first ∧
          bytes (packKey unpacked parts (2 ^ k - 1) key' 0 0).1 0 first = bytes filled 0 first

/-- No fixed var-binary column is longer than the room from its part to the end of an unpacked key. -/
def Fits (populate : Populate) (parts : List KeyPart) (value : Buffer) : Prop :=
  ∀ l part r, parts = l ++ part :: r → part.type = .fixedVarBinary → part.null value = false →
    fillLength populate value l + part.nullBytes + 2 + (value part.valueOffset).toNat ≤ getUnpackLength parts

def copyAll : Populate := fun _ data limit => min data.length limit

theorem copyAll_leading : Leading copyAll := fun _ _ _ => le_refl _

/-- The first four bytes of a column of ten, in its one-byte length form. -/
def prefixOfBinary : List KeyPart := [⟨⟨.fixedVarBinary, 4, 0, 0, 0⟩, 0, 0, -1⟩]

theorem as_built_writes_behind_key : ¬Geometry copyAll prefixOfBinary (fun _ => 0) fun _ => 10 := by
  intro h
  obtain ⟨filled, n, hp, -, -, hout, -⟩ := h fun _ => 0
  obtain ⟨rfl, -⟩ := Prod.mk.inj (Except.ok.inj hp)
  exact absurd (hout 6 (by decide)) (by decide)

variable {populate : Populate} {pkey value key buf : Buffer} {part : KeyPart} {parts : List KeyPart} {d o : Nat}

theorem getUnpackLength_eq (h : Short parts) : getUnpackLength parts = (parts.map KeyPart.slot).sum := by
  have hfold : ∀ (ps : List KeyPart) (length : Nat), length + (ps.map KeyPart.slot).sum < 2 ^ 16 →
      ps.foldl (fun length part => (length + part.unpackLength) % 2 ^ 16) length = length + (ps.map KeyPart.slot).sum := by
    intro ps
    induction ps with
    | nil => exact fun _ _ => rfl
    | cons part ps ih =>
      intro length hlt
      rw [List.map_cons, List.sum_cons] at hlt ⊢
      rw [List.foldl_cons, unpackLength_eq (by omega), Nat.mod_eq_of_lt (by omega), ih _ (by omega), Nat.add_assoc]
  rw [getUnpackLength, hfold parts 0 (by simpa using h.short), Nat.zero_add]

/-! ## To the slots and back -/

/-- Every part is at the beginning of its slot as it is in the packed key. -/
def Unpacked (populate : Populate) (value key : Buffer) : List KeyPart → Buffer → (d o : Nat) → Prop
  | [], _, _, _ => True
  | part :: parts, buf, d, o =>
    bytes buf o (part.fillWidth populate value) = bytes key d (part.fillWidth populate value) ∧
      Unpacked populate value key parts buf (d + part.fillWidth populate value) (o + part.slot)

theorem unpackKey_below {i : Nat} (hi : i < o) : unpackKey key parts buf d o i = buf i := by
  induction parts generalizing buf d o with
  | nil => rfl
  | cons part parts ih =>
    rw [unpackKey, ih (by omega), memcpy_outside (by omega)]

theorem unpackKey_spec (hl : Leading populate) (h : Short parts) (hk : ShownFrom populate pkey value parts key d) (buf : Buffer) :
    Unpacked populate value key parts (unpackKey key parts buf d o) d o := by
  induction parts generalizing buf d o with
  | nil => trivial
  | cons part parts ih =>
    obtain ⟨hs, hslot⟩ := h.head
    have hw := fillWidth_le_slot hl hs value
    rw [unpackKey, hk.1.getPackLength hl hs hslot, unpackLength_eq hslot]
    refine ⟨?_, ih h.tail hk.2 _⟩
    rw [bytes_congr_outside fun i _ _ => unpackKey_below (by omega), bytes_memcpy]

theorem packKey_below {mask i : Nat} (hi : i < d) : (packKey buf parts mask key d o).1 i = key i := by
  induction parts generalizing mask key d o with
  | nil => rfl
  | cons part parts ih =>
    rw [packKey]
    split_ifs
    · rw [ih (by omega), memcpy_outside (by omega)]
    · exact memcpy_outside (by omega)

/-- With a mask of `k + 1` parts these come back, and no more. -/
theorem packKey_spec (hl : Leading populate) (h : Short parts) (hk : ShownFrom populate pkey value parts key d)
    (hu : Unpacked populate value key parts buf d o) (hne : parts ≠ []) (k : Nat) (key' : Buffer) :
    (packKey buf parts (2 ^ (k + 1) - 1) key' d o).2 = d + fillLength populate value (parts.take (k + 1)) ∧
      bytes (packKey buf parts (2 ^ (k + 1) - 1) key' d o).1 d (fillLength populate value (parts.take (k + 1))) =
        bytes key d (fillLength populate value (parts.take (k + 1))) := by
  induction parts generalizing d o k key' with
  | nil => exact absurd rfl hne
  | cons part parts ih =>
    obtain ⟨hs, hslot⟩ := h.head
    have hpack := (hk.1.copy hu.1).getPackLength hl hs hslot
    have hmask : (2 ^ (k + 1) - 1) / 2 = 2 ^ k - 1 := mask_half (k + 1)
    rw [packKey, hpack, unpackLength_eq hslot, hmask, List.take_succ_cons, fillLength_cons]
    -- this part is the last if the mask ends here or the schema does
    by_cases hk0 : k = 0 ∨ parts = []
    · have hrest : fillLength populate value (parts.take k) = 0 := by
        rcases hk0 with rfl | rfl <;> simp
      rw [hrest, Nat.add_zero]
      split_ifs with hm
      · obtain rfl : parts = [] := hk0.resolve_left fun h0 => hm (by rw [h0]; rfl)
        exact ⟨rfl, by rw [packKey, bytes_memcpy]; exact hu.1⟩
      · exact ⟨rfl, by rw [bytes_memcpy]; exact hu.1⟩
    · obtain ⟨hk1, hne'⟩ := not_or.mp hk0
      obtain ⟨m, rfl⟩ := Nat.exists_eq_succ_of_ne_zero hk1
      rw [if_pos (mt (mask_eq_zero (m + 1)).mp (Nat.succ_ne_zero m))]
      obtain ⟨h1, h2⟩ := ih h.tail hk.2 hu.2 hne' m _
      refine ⟨by rw [h1, Nat.add_assoc], ?_⟩
      rw [bytes_append, bytes_append, h2]
      congr 1
      rw [bytes_congr_outside fun i _ _ => packKey_below (by omega), bytes_memcpy]
      exact hu.1

/-! ## Behind the key -/

/-- What a byte is filled with does not depend on the other bytes of the buffer. -/
theorem fillParts_congr {key₁ key₂ : Buffer} {i : Nat} (hi : key₁ i = key₂ i) :
    fillParts populate pkey value parts key₁ d i = fillParts populate pkey value parts key₂ d i := by
  induction parts generalizing key₁ key₂ d with
  | nil => exact hi
  | cons part parts ih =>
    refine ih ?_
    simp only [put, hi]

theorem fillParts_behind {e : Nat} (h : ∀ l part r, parts = l ++ part :: r →
    d + fillLength populate value l + (part.image populate pkey value).length ≤ e) {i : Nat} (hi : e ≤ i) :
    fillParts populate pkey value parts key d i = key i := by
  induction parts generalizing key d with
  | nil => rfl
  | cons part parts ih =>
    have hpart := h [] part parts rfl
    rw [fillParts, ih fun l p r he => ?_, put_outside ?_]
    · rw [fillLength_nil] at hpart
      omega
    · have := h (part :: l) p r (by rw [he, List.cons_append])
      rwa [fillLength_cons, ← Nat.add_assoc] at this

theorem length_payload (hl : Leading populate) (hs : part.Sound) (ht : part.type ≠ .fixedVarBinary) (value : Buffer) :
    (part.payload populate value).length ≤ part.lengthBytes + part.length := by
  have hn := hl part.characterSet (bytes value (part.variableData value) (part.variableLength value)) part.length
  have hn' := hl part.characterSet (bytes value (part.valueOffset + 1) (value part.valueOffset).toNat) part.length
  unfold KeyPart.payload DeepKeyPart.lengthBytes
  cases h : part.type with
  | fixedVarBinary => exact absurd h ht
  | varText | varBinary =>
    simp only [h, hs.positioned, ne_eq, reduceCtorEq, or_false, or_true, not_false_iff, if_true, List.length_append,
      length_leBytes, length_bytes]
    omega
  | fixedVarText =>
    simp only [List.length_append, length_leBytes, length_bytes]
    omega
  | textMultibyte =>
    simp only [List.length_append, length_bytes, List.length_replicate]
    omega
  | _ => simp only [length_bytes, Nat.zero_add, Nat.le_refl]

/-- It goes on behind its slot, by the length of its column. -/
theorem length_image (hl : Leading populate) (hs : part.Sound) (hslot : part.slot < 2 ^ 16) (pkey value : Buffer) :
    (part.image populate pkey value).length ≤ part.slot ∨ part.type = .fixedVarBinary ∧ part.null value = false ∧
      (part.image populate pkey value).length = part.nullBytes + 2 + (value part.valueOffset).toNat := by
  have hunpack := unpackLength_eq hslot
  have hhead := length_head part populate value
  by_cases ht : part.type = .fixedVarBinary
  · have hpay : (part.payload populate value).length = 2 + (value part.valueOffset).toNat := by
      simp [KeyPart.payload, ht]
    have himage : (part.image populate pkey value).length = (part.head populate value).length +
        (part.slot - (part.head populate value).length) := by
      simp [KeyPart.image, ht, hunpack]
    cases hnull : part.null value with
    | true =>
      left
      rw [hnull, if_pos rfl] at hhead
      unfold KeyPart.slot at himage ⊢
      omega
    | false =>
      rw [hnull, if_neg (by decide), hpay] at hhead
      by_cases hle : (part.head populate value).length ≤ part.slot
      · exact .inl (by omega)
      · exact .inr ⟨ht, rfl, by omega⟩
  · left
    have hpay := length_payload hl hs ht value
    have hle : (part.head populate value).length ≤ part.slot := by
      rw [hhead, KeyPart.slot]
      split_ifs <;> omega
    unfold KeyPart.image
    cases h : part.type with
    | hidden =>
      rw [length_bytes, KeyPart.slot]
      omega
    | fixedVarText =>
      simp only [List.length_append, List.length_drop, List.length_replicate, hunpack]
      omega
    | fixedVarBinary => exact absurd h ht
    | _ => exact hle

theorem sum_slots_append {l r : List KeyPart} :
    ((l ++ part :: r).map KeyPart.slot).sum = (l.map KeyPart.slot).sum + part.slot + (r.map KeyPart.slot).sum := by
  simp [Nat.add_assoc]

/-- Where every column fits, no part writes behind the key. -/
theorem image_fits (hl : Leading populate) (schema : KeySchema) (h : Fits populate schema.parts value) (pkey : Buffer)
    {l r : List KeyPart} (he : schema.parts = l ++ part :: r) :
    fillLength populate value l + (part.image populate pkey value).length ≤ getUnpackLength schema.parts := by
  have hsum := schema.short
  have hU := getUnpackLength_eq schema.toShort
  rw [he, sum_slots_append] at hsum hU
  have hs := schema.sound part (by rw [he]; simp)
  have hw := fillLength_le hl (fun p hp => schema.sound p (by rw [he]; exact List.mem_append_left _ hp)) value
  rcases length_image hl hs (by omega) pkey value with hle | ⟨ht, hnull, hlen⟩
  · rw [he]
    omega
  · have := h l part r he ht hnull
    omega

variable (pkey) in
/-- A column that does not fit is written behind the key, whatever was there. -/
theorem fits_of_untouched (hl : Leading populate) (schema : KeySchema)
    (h : ∀ key : Buffer, ∀ i, getUnpackLength schema.parts ≤ i → fillParts populate pkey value schema.parts key 0 i = key i) :
    Fits populate schema.parts value := by
  intro l part r he ht hnull
  by_contra hlt
  have hsum := schema.short
  have hU := getUnpackLength_eq schema.toShort
  rw [he, sum_slots_append] at hsum hU
  have hw := fillLength_le hl (fun p hp => schema.sound p (by rw [he]; exact List.mem_append_left _ hp)) value
  have hhead : part.nullBytes + 2 + (value part.valueOffset).toNat ≤ (part.image populate pkey value).length := by
    have hlen := length_head part populate value
    rw [hnull, if_neg (by decide), KeyPart.payload, ht] at hlen
    simp only [List.length_append, length_leBytes, length_bytes] at hlen
    simp only [KeyPart.image, ht, List.length_append]
    omega
  obtain ⟨k, hk⟩ : ∃ k, getUnpackLength schema.parts = fillLength populate value l + k :=
    Nat.exists_eq_add_of_le (by rw [he, hU]; omega)
  -- the first byte behind the key, in two buffers that differ there
  have hsame : ∀ key₁ key₂ : Buffer, fillParts populate pkey value schema.parts key₁ 0 (fillLength populate value l + k) =
      fillParts populate pkey value schema.parts key₂ 0 (fillLength populate value l + k) := by
    intro key₁ key₂
    rw [he, fillParts_append, fillParts_append, Nat.zero_add, fillParts, fillParts]
    refine fillParts_congr ?_
    rw [put_inside (by omega), put_inside (by omega)]
  have h0 := h (fun _ => 0) _ (le_of_eq hk)
  have h1 := h (fun _ => 1) _ (le_of_eq hk)
  rw [hsame _ fun _ => 1, h1] at h0
  exact absurd h0 (by decide)

theorem geometry_iff (hl : Leading populate) (schema : KeySchema) (pkey value : Buffer) :
    Geometry populate schema.parts pkey value ↔ Fits populate schema.parts value := by
  have hshort := schema.toShort
  have hsum := schema.short
  have hfill : ∀ key, populateKeys populate (some pkey) value schema.parts key 0 =
      .ok (fillParts populate pkey value schema.parts key 0, fillLength populate value schema.parts) := by
    intro key
    rw [populateKeys_eq hl hshort (by omega), Nat.zero_add]
  constructor
  · intro h
    refine fits_of_untouched pkey hl schema fun key i hi => ?_
    obtain ⟨filled, n, hp, -, -, hout, -⟩ := h key
    obtain ⟨rfl, -⟩ := Prod.mk.inj (Except.ok.inj ((hfill key).symm.trans hp))
    exact hout i hi
  · intro h key
    have hshown := fillParts_shown populate pkey value key 0 schema.parts
    have hpack := getPackLength_shown hl hshort (by omega) hshown
    rw [Nat.zero_add] at hpack
    refine ⟨_, _, hfill key, hpack.symm, ?_, fun i hi => ?_, fun keyBuffer key' => ?_⟩
    · rw [getUnpackLength_eq hshort]
      exact fillLength_le hl schema.sound value
    · refine fillParts_behind (fun l part r he => ?_) hi
      rw [Nat.zero_add]
      exact image_fits hl schema h pkey he
    · have hu := unpackKey_spec (o := 0) hl hshort hshown keyBuffer
      have hback := packKey_spec hl hshort hshown hu schema.nonempty
      simp only [Nat.zero_add] at hback
      have hfull := hback 31 key'
      rw [List.take_of_length_le schema.masked] at hfull
      refine ⟨hfull.1, hfull.2, fun k hk _ => ?_⟩
      obtain ⟨m, rfl⟩ := Nat.exists_eq_add_of_le' hk
      have hfirst := getPackLength_shown hl (hshort.take (m + 1)) (by have := (hshort.take (m + 1)).short; omega)
        (hshown.take (m + 1))
      rw [Nat.zero_add] at hfirst
      simp only [hfirst]
      exact hback m key'

/-- All ten bytes of the column, and a number behind them. -/
def wholeColumn : KeySchema where
  parts := [⟨⟨.fixedVarBinary, 10, 0, 0, 0⟩, 0, 0, -1⟩, ⟨⟨.longInt, 4, 0, -1, 0⟩, 11, 0, -1⟩]
  nonempty := by decide
  masked := by decide
  sound := by
    intro part hp
    rcases List.mem_cons.mp hp with rfl | hp
    · exact ⟨by decide, by decide⟩
    · obtain rfl := List.mem_singleton.mp hp
      exact ⟨by decide, by decide⟩
  short := by decide

theorem whole_column_geometry : Geometry copyAll wholeColumn.parts (fun _ => 0) fun _ => 10 := by
  refine (geometry_iff copyAll_leading wholeColumn _ _).mpr fun l part r he ht _ => ?_
  rcases l with - | ⟨p, l⟩
  · obtain ⟨rfl, rfl⟩ := List.cons.inj he
    decide
  · rcases l with - | ⟨q, l⟩
    · obtain ⟨-, h2⟩ := List.cons.inj he
      obtain ⟨rfl, -⟩ := List.cons.inj h2
      cases ht
    · have hlen := congrArg List.length he
      simp [wholeColumn] at hlen

end DeepFabric.Store.KeyGeometry
