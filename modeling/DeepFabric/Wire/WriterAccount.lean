/-
  DeepFabric.Wire.WriterAccount — what a writer knows about its own buffer
  (cxx/io/EncodeProtocol.h: the constructors and setters of writer).

  m_iWritten and m_iBufferLen split m_iActualLen between what is written and what is left. A setter
  compares a size of its field with what is left, and then writes twice, the field's header and its
  value, with no further look at the room.

  As built: `writer_overruns`. A double is checked for the room of a float; the size of a raw value
  or of a string wraps from 2^32 - 8 bytes on, and that of an array as well; a copy stands at the
  end of its buffer; the shim of a bundle is written but not counted.
-/
import DeepFabric.Lib.Run
import DeepFabric.Wire.MsgBundle

namespace DeepFabric.Wire

open Lib.Run
open BitVec (le_def not_lt ofNat toNat toNat_add)

/-! ## Constructors -/

/-- writer(writer&). m_piPos is the end of the new buffer; `behind` is what the old one holds behind its own m_piPos. -/
def Writer.clone (w : Writer) (behind : Nat → UInt8) : Writer :=
  { w with
    written := (w.written ++ (List.range w.actualLen.toNat).map behind).take w.actualLen.toNat
    reached := w.actualLen.toNat }

/-- writer(piBuffer, iBufferLen, iPayloadLen, iMsgId, bBundleShim). The shim is written behind m_piPos. -/
def Writer.wrap (iBufferLen iPayloadLen iMsgId : BitVec 32) (bBundleShim : Bool) : Except Fault Writer :=
  if headerSize > iBufferLen then .error .abort
  else
    let w := Writer.around iBufferLen iPayloadLen iMsgId
    .ok (if bBundleShim then { w with iWritten := headerSize + iPayloadLen, reached := max w.reached (w.written.length + 4) } else w)

inductive Start where
  | own (iBufferLen iMsgId : BitVec 32)
  | wrapped (iBufferLen iPayloadLen iMsgId : BitVec 32) (bBundleShim : Bool)

def Start.writer : Start → Except Fault Writer
  | .own iBufferLen iMsgId => .ok (.create iBufferLen iMsgId)
  | .wrapped iBufferLen iPayloadLen iMsgId bBundleShim => Writer.wrap iBufferLen iPayloadLen iMsgId bBundleShim

/-- What is done with a writer. After a `clone` it is the copy that is used. -/
inductive Event where
  | set (iFieldNum : BitVec 32) (f : Field)
  | setFlags (iFlags : BitVec 32)
  | clone (behind : Nat → UInt8)

def step (w : Writer) : Event → Option Writer
  | .set iFieldNum f => some (f.set iFieldNum w).2
  | .setFlags iFlags => (setFlags iFlags w).toOption.map Prod.snd
  | .clone behind => some (w.clone behind)

/-! ## Setters -/

namespace Field

/-- The size the setter compares with what is left. -/
def checked : Field → BitVec 32
  | double _ => sizeOfFloat
  | f => f.sizeOf

/-- The bytes the Write call gives, by what is left. -/
def value : Field → BitVec 32 → Bytes
  | float v => writeFloat v
  | raw bytes => writeRaw bytes
  | string bytes => writeRaw bytes
  | f => fun _ => f.payload

theorem set_eq (f : Field) (id : BitVec 32) : f.set id = setField f.type f.checked f.value id := by
  cases f <;> rfl

def isDouble : Field → Bool
  | double _ => true
  | _ => false

end Field

/-- The setter's own checks turn the call down. -/
def Rejected (w : Writer) (id : BitVec 32) (f : Field) : Prop := fieldMax ≤ id ∨ w.bufferLen < f.checked

instance (w : Writer) (id : BitVec 32) (f : Field) : Decidable (Rejected w id f) := inferInstanceAs (Decidable (_ ∨ _))

/-- The call is turned down, or the writer stands where it has written to, the size of the field is no more than a
    uinttype, and a double is not set with 8 to 11 bytes left. -/
def Sound (w : Writer) : Event → Prop
  | .set id f => Rejected w id f ∨ w.written.length = w.iWritten.toNat ∧ (f.encode id).length < 2 ^ 32 ∧ (f.isDouble = true → sizeOfDouble ≤ w.bufferLen)
  | .setFlags _ => True
  | .clone _ => True

instance (w : Writer) : (e : Event) → Decidable (Sound w e)
  | .set _ _ => inferInstanceAs (Decidable (_ ∨ _))
  | .setFlags _ => inferInstanceAs (Decidable True)
  | .clone _ => inferInstanceAs (Decidable True)

/-- The size of the new buffer is no more than a uinttype, and a shim is that of no payload in a buffer that holds it. -/
def Start.Sound : Start → Prop
  | .own iBufferLen _ => iBufferLen.toNat + 16 < 2 ^ 32
  | .wrapped iBufferLen iPayloadLen _ bBundleShim => bBundleShim = true → iPayloadLen = 0 ∧ 20 ≤ iBufferLen.toNat

/-- What is written and what is left make up the buffer, and nothing was written outside it. -/
def Writer.Balanced (w : Writer) : Prop := w.iWritten.toNat + w.bufferLen.toNat = w.actualLen.toNat ∧ w.reached ≤ w.actualLen.toNat

/-- The setter returns 0 and goes on by just the size of its field, or -1 and changes nothing. -/
def Accounts (w : Writer) (id : BitVec 32) (f : Field) : Prop :=
  ((f.set id w).1 = 0 ∧ (f.set id w).2.iWritten.toNat = w.iWritten.toNat + f.sizeOf.toNat
      ∧ (f.set id w).2.bufferLen.toNat + f.sizeOf.toNat = w.bufferLen.toNat
      ∧ (f.set id w).2.written.length = w.written.length + f.sizeOf.toNat)
    ∨ f.set id w = (-1, w)

/-! ## What a setter does -/

variable {w : Writer}

theorem put_advances (hsum : w.iWritten.toNat + w.bufferLen.toNat < 2 ^ 32) {bytes : Bytes}
    (h : bytes.length ≤ w.bufferLen.toNat) :
    (w.put bytes).iWritten.toNat = w.iWritten.toNat + bytes.length ∧ (w.put bytes).bufferLen.toNat = w.bufferLen.toNat - bytes.length
      ∧ (w.put bytes).written.length = w.written.length + bytes.length := by
  have hn : (ofNat 32 bytes.length).toNat = bytes.length := Nat.mod_eq_of_lt (by omega)
  refine ⟨?_, toNat_sub_length w.bufferLen bytes.length h, ?_⟩
  · rw [Writer.put, toNat_add, hn]
    exact Nat.mod_eq_of_lt (by omega)
  · rw [Writer.put, hn, List.take_length, List.length_append]

variable {id : BitVec 32} {f : Field}

theorem set_rejected (h : Rejected w id f) : f.set id w = (-1, w) := by
  rw [f.set_eq, setField]
  by_cases hid : fieldMax ≤ id
  · rw [if_pos hid]
  · rw [if_neg hid, if_pos (h.resolve_left hid)]

/-- The header and the value are written one after the other. -/
theorem set_written (h : ¬Rejected w id f) :
    ∃ bytes, bytes = f.value (w.put (writeFixed32 (makeHeader f.type.code id))).bufferLen
      ∧ f.set id w = (if ofNat 32 bytes.length = 0 then -1 else 0, (w.put (writeFixed32 (makeHeader f.type.code id))).put bytes) := by
  rw [Rejected, not_or] at h
  exact ⟨_, rfl, by rw [f.set_eq, setField, if_neg h.1, if_neg h.2]⟩

theorem value_eq_payload {iLen : BitVec 32} (h : f.payload.length ≤ iLen.toNat) : f.value iLen = f.payload := by
  cases f with
  | int32 v | uint32 v | int64 v | uint64 v | double v | uint32Array vs => rfl
  | float v =>
    have hle : ¬4 > iLen := by
      rw [gt_iff_lt, not_lt]
      exact h
    rw [Field.value, writeFloat, if_neg hle]
    rfl
  | raw bytes | string bytes =>
    rw [Field.payload, List.length_append, length_writeFixed32] at h
    exact writeRaw_ok h

theorem length_encode (f : Field) (id : BitVec 32) : (f.encode id).length = 4 + f.payload.length := by
  rw [Field.encode, List.length_append, length_writeFixed32]

/-- What the checks and the condition together say of the room. -/
theorem room_of_sound (h : ¬Rejected w id f) (hlen : (f.encode id).length < 2 ^ 32)
    (hd : f.isDouble = true → sizeOfDouble ≤ w.bufferLen) : (f.encode id).length ≤ w.bufferLen.toNat := by
  rw [Rejected, not_or, not_lt, le_def] at h
  rw [← sizeOf_toNat id f hlen]
  cases f with
  | double v => exact hd rfl
  | int32 v | uint32 v | int64 v | uint64 v | float v | raw bytes | string bytes | uint32Array vs => exact h.2

theorem value_cases (f : Field) (iLen : BitVec 32) : f.value iLen = [] ∨ f.value iLen = f.payload := by
  cases f with
  | int32 v | uint32 v | int64 v | uint64 v | double v | uint32Array vs => exact .inr rfl
  | float v =>
    rw [Field.value, writeFloat]
    split_ifs
    · exact .inl rfl
    · exact .inr rfl
  | raw bytes | string bytes =>
    rw [Field.value, writeRaw]
    split_ifs
    · exact .inl rfl
    · exact .inr rfl

/-! ## Writers that are kept -/

/-- A writer stands where it has written to, or is a copy and stands at the end. -/
structure Kept (w : Writer) : Prop where
  balanced : w.Balanced
  pos : w.written.length = w.iWritten.toNat ∨ w.written.length = w.actualLen.toNat
  header : 16 ≤ w.written.length

namespace Kept

variable {w : Writer} (hw : Kept w)
include hw

theorem sum_lt : w.iWritten.toNat + w.bufferLen.toNat < 2 ^ 32 := by
  rw [hw.balanced.1]
  exact w.actualLen.isLt

theorem pos_le : w.written.length ≤ w.actualLen.toNat := by
  have hsum := hw.balanced.1
  rcases hw.pos with h | h <;> omega

variable {id : BitVec 32} {f : Field}

theorem set_ok (hr : ¬Rejected w id f) (hpos : w.written.length = w.iWritten.toNat)
    (hlen : (f.encode id).length < 2 ^ 32) (hd : f.isDouble = true → sizeOfDouble ≤ w.bufferLen) :
    Accounts w id f ∧ Kept (f.set id w).2 := by
  have hroom := room_of_sound hr hlen hd
  have hsize := sizeOf_toNat id f hlen
  obtain ⟨bytes, hbytes, hset⟩ := set_written hr
  obtain ⟨w₁, hw₁⟩ : ∃ w₁, w₁ = w.put (writeFixed32 (makeHeader f.type.code id)) := ⟨_, rfl⟩
  rw [length_encode] at hroom hlen hsize
  have hsum := hw.sum_lt
  have hact := hw.balanced.1
  have hreached := hw.balanced.2
  have hheader := hw.header
  obtain ⟨hiw₁, hleft₁, hwr₁⟩ := put_advances hsum (show (writeFixed32 (makeHeader f.type.code id)).length ≤ _ by
    rw [length_writeFixed32]
    omega)
  have hmax₁ : w₁.reached = max w.reached (w.written.length + 4) := by rw [hw₁, Writer.put, length_writeFixed32]
  rw [length_writeFixed32, ← hw₁] at hiw₁ hleft₁ hwr₁
  rw [← hw₁] at hbytes hset
  obtain rfl : bytes = f.payload := hbytes.trans (value_eq_payload (by omega))
  obtain ⟨hiw₂, hleft₂, hwr₂⟩ := put_advances (show w₁.iWritten.toNat + w₁.bufferLen.toNat < 2 ^ 32 by omega)
    (show f.payload.length ≤ w₁.bufferLen.toNat by omega)
  have hmax₂ : (w₁.put f.payload).reached = max w₁.reached (w₁.written.length + f.payload.length) := rfl
  have hact₂ : (w₁.put f.payload).actualLen = w.actualLen := by rw [hw₁]; rfl
  rw [if_neg (length_ne_zero (payload_pos f) (by omega))] at hset
  generalize w₁.put f.payload = w₂ at hset hiw₂ hleft₂ hwr₂ hmax₂ hact₂
  rw [Accounts, hset, hsize]
  refine ⟨.inl ⟨rfl, ?_, ?_, ?_⟩, ⟨⟨?_, ?_⟩, .inl ?_, ?_⟩⟩
  · show w₂.iWritten.toNat = _
    omega
  · show w₂.bufferLen.toNat + _ = _
    omega
  · show w₂.written.length = _
    omega
  · show w₂.iWritten.toNat + w₂.bufferLen.toNat = w₂.actualLen.toNat
    rw [hact₂]
    omega
  · show w₂.reached ≤ w₂.actualLen.toNat
    rw [hact₂]
    omega
  · show w₂.written.length = w₂.iWritten.toNat
    omega
  · show 16 ≤ w₂.written.length
    omega

/-- A setter that meets the condition accounts for its field, and the writer stays kept. -/
theorem set_accounts (h : Sound w (.set id f)) : Accounts w id f ∧ Kept (f.set id w).2 := by
  by_cases hr : Rejected w id f
  · have hset := set_rejected hr
    exact ⟨.inr hset, by rw [hset]; exact hw⟩
  · obtain ⟨hpos, hlen, hd⟩ := h.resolve_left hr
    exact hw.set_ok hr hpos hlen hd

/-- A setter that does not meet it writes half of its field, or outside the buffer. -/
theorem sound_of_accounts (h : Accounts w id f) (hb : (f.set id w).2.Balanced) : Sound w (.set id f) := by
  by_contra hs
  rw [Sound, not_or] at hs
  obtain ⟨hr, hs⟩ := hs
  obtain ⟨bytes, hbytes, hset⟩ := set_written hr
  obtain ⟨w₁, hw₁⟩ : ∃ w₁, w₁ = w.put (writeFixed32 (makeHeader f.type.code id)) := ⟨_, rfl⟩
  rw [← hw₁] at hbytes hset
  have hwr₁ : w₁.written.length = w.written.length + 4 := by rw [hw₁, Writer.put]; simp
  have hact : (f.set id w).2.actualLen = w.actualLen := by rw [hset, hw₁]; rfl
  have hmax : (f.set id w).2.reached = max (max w.reached (w.written.length + 4)) (w.written.length + 4 + bytes.length) := by
    have hmax₁ : w₁.reached = max w.reached (w.written.length + 4) := by rw [hw₁, Writer.put, length_writeFixed32]
    rw [hset, ← hmax₁, ← hwr₁]
    rfl
  have hsum := hw.balanced.1
  have hle := hb.2
  rw [hact, hmax] at hle
  have hpos : w.written.length = w.iWritten.toNat := hw.pos.resolve_right (by omega)
  rcases value_cases f w₁.bufferLen with hnil | hpayload
  · -- the header is written and the value is not
    rw [hnil] at hbytes
    subst hbytes
    rcases h with ⟨hstatus, -⟩ | heq
    · rw [hset] at hstatus
      cases hstatus
    · have hiw : w₁.iWritten = w.iWritten := by
        have := congrArg (fun p => p.2.iWritten) (hset.symm.trans heq)
        simpa [Writer.put] using this
      have h4 : w.iWritten + 4 = w.iWritten := by rw [hw₁] at hiw; exact hiw
      bv_omega
  · obtain rfl : bytes = f.payload := hbytes.trans hpayload
    refine hs ⟨hpos, ?_, fun hd => ?_⟩
    · rw [length_encode]
      omega
    · cases f with
      | double v =>
        have h8 : (Field.double v).payload.length = 8 := rfl
        rw [le_def]
        show 12 ≤ w.bufferLen.toNat
        omega
      | int32 v | uint32 v | int64 v | uint64 v | float v | raw bytes | string bytes | uint32Array vs => cases hd

theorem sound_iff (id : BitVec 32) (f : Field) : Sound w (.set id f) ↔ Accounts w id f ∧ (f.set id w).2.Balanced := by
  refine ⟨fun h => ?_, fun h => hw.sound_of_accounts h.1 h.2⟩
  obtain ⟨ha, hk⟩ := hw.set_accounts h
  exact ⟨ha, hk.balanced⟩

theorem clone (behind : Nat → UInt8) : Kept (w.clone behind) := by
  have hlen : (w.clone behind).written.length = w.actualLen.toNat := by
    simp [Writer.clone]
  exact ⟨⟨hw.balanced.1, Nat.le_refl _⟩, .inr hlen, by rw [hlen]; exact Nat.le_trans hw.header hw.pos_le⟩

theorem setFlags (iFlags : BitVec 32) : ∃ ret w', Wire.setFlags iFlags w = .ok (ret, w') ∧ Kept w' := by
  rw [Wire.setFlags]
  split_ifs
  · exact ⟨_, w, rfl, hw⟩
  · have hheader := hw.header
    obtain ⟨v, hv⟩ := readFixed32_ok (show 4 ≤ (w.written.drop 4).length by rw [List.length_drop]; omega)
    have hset : setFlagsAt w.written iFlags = .ok (w.written.take 4 ++ writeFixed32 (v ||| (version ||| iFlags)) ++ w.written.drop 8) := by
      rw [setFlagsAt, hv]
      rfl
    have hlen : (w.written.take 4 ++ writeFixed32 (v ||| (version ||| iFlags)) ++ w.written.drop 8).length = w.written.length := by
      rw [List.length_append, List.length_append, List.length_take, List.length_drop, length_writeFixed32]
      omega
    generalize w.written.take 4 ++ writeFixed32 (v ||| (version ||| iFlags)) ++ w.written.drop 8 = written at hset hlen
    refine ⟨0, { w with written := written }, by rw [hset]; rfl, ⟨hw.balanced, ?_, ?_⟩⟩
    · show written.length = _ ∨ written.length = _
      rw [hlen]
      exact hw.pos
    · show 16 ≤ written.length
      rw [hlen]
      exact hheader

end Kept

/-! ## Every run -/

theorem around_numbers {iBufferLen : BitVec 32} (h : 16 ≤ iBufferLen.toNat) (iPayloadLen iMsgId : BitVec 32) :
    let w := Writer.around iBufferLen iPayloadLen iMsgId
    w.written.length = 16 ∧ w.iWritten = 16 ∧ w.bufferLen.toNat = iBufferLen.toNat - 16 ∧ w.actualLen = iBufferLen ∧ w.reached = 16 := by
  refine ⟨rfl, rfl, ?_, rfl, rfl⟩
  show (iBufferLen - 4#32 - 4#32 - 4#32 - 4#32).toNat = _
  bv_omega

/-- A constructor that returns leaves a writer in balance exactly if its sizes are sound, and a kept one then. -/
theorem start_sound {start : Start} (h : start.writer = .ok w) : (start.Sound ↔ w.Balanced) ∧ (start.Sound → Kept w) := by
  have hkept (hk : start.Sound → Kept w) (hs : w.Balanced → start.Sound) : (start.Sound ↔ w.Balanced) ∧ (start.Sound → Kept w) :=
    ⟨⟨fun h => (hk h).balanced, hs⟩, hk⟩
  cases start with
  | own size msgId =>
    cases h
    refine hkept (fun hs => ?_) fun hb => ?_
    · obtain ⟨hok, hact, -, hwr⟩ := create_ok size msgId hs
      have hlen : (Writer.create size msgId).written.length = 16 := by rw [hwr]; rfl
      have hreached : (Writer.create size msgId).reached = 16 := rfl
      have hiw : (Writer.create size msgId).iWritten.toNat = 16 := rfl
      have hleft := hok.left
      exact ⟨⟨by omega, by omega⟩, .inl (by omega), by omega⟩
    · have hreached : 16 ≤ (size + headerSize).toNat := hb.2
      have h16 : headerSize.toNat = 16 := rfl
      rw [toNat_add, h16] at hreached
      show size.toNat + 16 < 2 ^ 32
      omega
  | wrapped bufferLen payloadLen msgId shim =>
    rw [Start.writer, Writer.wrap] at h
    by_cases h16 : headerSize > bufferLen
    · rw [if_pos h16] at h
      cases h
    rw [if_neg h16] at h
    have hle : 16 ≤ bufferLen.toNat := by
      rw [gt_iff_lt, not_lt, le_def] at h16
      exact h16
    obtain ⟨hlen, hiw, hleft, hact, hreached⟩ := around_numbers hle payloadLen msgId
    generalize Writer.around bufferLen payloadLen msgId = w₀ at h hlen hiw hleft hact hreached
    have hiw₀ : w₀.iWritten.toNat = 16 := congrArg toNat hiw
    cases shim with
    | false =>
      cases h
      refine hkept (fun _ => ⟨⟨?_, ?_⟩, .inl (hlen.trans hiw₀.symm), hlen.ge⟩) fun _ hshim => by cases hshim
      · show w₀.iWritten.toNat + w₀.bufferLen.toNat = w₀.actualLen.toNat
        rw [hact]
        omega
      · show w₀.reached ≤ w₀.actualLen.toNat
        rw [hact]
        omega
    | true =>
      cases h
      refine hkept (fun hs => ?_) fun hb _ => ?_
      · obtain ⟨rfl, h20⟩ := hs rfl
        refine ⟨⟨?_, ?_⟩, .inl hlen, hlen.ge⟩
        · show (headerSize + 0#32).toNat + w₀.bufferLen.toNat = w₀.actualLen.toNat
          have : (headerSize + 0#32).toNat = 16 := rfl
          rw [hact]
          omega
        · show max w₀.reached (w₀.written.length + 4) ≤ w₀.actualLen.toNat
          rw [hact]
          omega
      · have hsum : (headerSize + payloadLen).toNat + w₀.bufferLen.toNat = w₀.actualLen.toNat := hb.1
        have hle' : max w₀.reached (w₀.written.length + 4) ≤ w₀.actualLen.toNat := hb.2
        rw [hact] at hsum hle'
        have hh : headerSize = 16#32 := rfl
        refine ⟨?_, by omega⟩
        rw [hh] at hsum
        bv_omega

theorem step_kept {e : Event} (hw : Kept w) (he : Sound w e) : ∃ w', step w e = some w' ∧ Kept w' := by
  cases e with
  | set id f => exact ⟨_, rfl, (hw.set_accounts he).2⟩
  | setFlags flags =>
    obtain ⟨ret, w', hset, hw'⟩ := hw.setFlags flags
    exact ⟨w', by rw [step, hset]; rfl, hw'⟩
  | clone behind => exact ⟨_, rfl, hw.clone behind⟩

/-- In every writer reached, what is written and what is left make up the buffer, and a setter accounts for its field and
    keeps to the buffer exactly if it is sound. -/
theorem writer_accounts {start : Start} {w₀ : Writer} (h₀ : start.writer = .ok w₀) (hs : start.Sound) {es : List Event}
    (h : Meets step Sound w₀ es) :
    ∃ w, exec step w₀ es = some w ∧ w.Balanced ∧ ∀ id f, Sound w (.set id f) ↔ Accounts w id f ∧ (f.set id w).2.Balanced := by
  obtain ⟨w, hrun, hw⟩ := @exec_of_meets _ _ step Sound Unit (fun u _ => u) (fun w _ => Kept w) step_kept _ () ((start_sound h₀).2 hs) _ h
  exact ⟨w, hrun, hw.balanced, hw.sound_iff⟩

/-- A string of two bytes fits a writer of 20, and a double does not fit what is left. -/
theorem string_then_double : ∃ w, exec step (.create 20 9) [.set 3 (.string [1, 2]), .setFlags firstFlag, .set 4 (.int32 1)] = some w
    ∧ w.Balanced ∧ w.bufferLen = 5 ∧ (Field.double 0).set 5 w = (-1, w) := by
  obtain ⟨w, hrun, hb, hset⟩ := @writer_accounts (.own 20 9) _ rfl (show 20 + 16 < 2 ^ 32 by decide)
    [.set 3 (.string [1, 2]), .setFlags firstFlag, .set 4 (.int32 1)] (by decide +kernel)
  have hleft : (exec step (.create 20 9) [.set 3 (.string [1, 2]), .setFlags firstFlag, .set 4 (.int32 1)]).map (·.bufferLen) = some 5 := by
    decide +kernel
  rw [hrun] at hleft
  have h5 : w.bufferLen = 5 := Option.some.inj hleft
  refine ⟨w, hrun, hb, h5, ?_⟩
  rcases ((hset 5 (.double 0)).mp (.inl (.inr (by rw [h5]; decide)))).1 with ⟨-, -, hsum, -⟩ | h
  · have h12 : (Field.double 0).sizeOf.toNat = 12 := rfl
    have h5' : w.bufferLen.toNat = 5 := congrArg toNat h5
    omega
  · exact h

/-- A double is set with 8 bytes left, a copy is written to, and a shim is not counted. -/
theorem writer_overruns :
    ((setDoubleField 1 0 (.create 8 9)).1 = 0 ∧ (Writer.create 8 9).actualLen = 24 ∧
      (setDoubleField 1 0 (.create 8 9)).2.reached = 28 ∧ (setDoubleField 1 0 (.create 8 9)).2.bufferLen = 0xfffffffc) ∧
    ((setUint32Field 1 5 ((Writer.create 8 9).clone fun _ => 0)).1 = 0 ∧
      (setUint32Field 1 5 ((Writer.create 8 9).clone fun _ => 0)).2.reached = 29) ∧
    ∃ w, Writer.wrap 32 12 9 true = .ok w ∧ w.iWritten = 28 ∧ w.bufferLen = 16 ∧ w.actualLen = 32 := by
  refine ⟨by decide +kernel, by decide +kernel, _, rfl, rfl, rfl, rfl⟩

end DeepFabric.Wire
