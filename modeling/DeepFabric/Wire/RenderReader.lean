/-
  DeepFabric.Wire.RenderReader — a reader that is filled in, and one that is decoded
  (cxx/io/EncodeProtocol.h: renderReader).

  A renderReader mimics a decoded message: its setters put values straight into the buckets of a
  reader, until mutableReader hands that out. Its encoded lengths are those of the types in
  memory, not those of the wire. A setter is turned down with -1 once the reader is handed out,
  and with -2 for a field number of 256 on.

  setStringField lets setRawField do the work and then sets the bucket's type, whatever the
  status was.

  - `set_ok`, `set_refused`: what a setter does, and that it does nothing when it is turned down.

  As built: `late_string_faults`. A string set after mutableReader follows a null pointer.
-/
import DeepFabric.Wire.Observation
import DeepFabric.Wire.WriterAccount

namespace DeepFabric.Wire

open BitVec (not_le not_lt ofNat)

/-- The values a renderReader has a setter for. -/
structure Rendered where
  field : Field
  no_array : field.type ≠ .uint32Array

/-- reader(iMsgId). -/
def Reader.ofMsgId (iMsgId : BitVec 32) : Reader :=
  ⟨[], 0, iMsgId, firstFlag ||| lastFlag, fun _ => ⟨.nil, .pArray none, 0⟩, fun _ => false, true⟩

structure RenderReader where
  /-- m_pcReader. -/
  pcReader : Option Reader

namespace RenderReader

def create (iMsgId : BitVec 32) : RenderReader := ⟨some (.ofMsgId iMsgId)⟩

def mutableReader (rr : RenderReader) : Option Reader × RenderReader := (rr.pcReader, ⟨none⟩)

/-- A setter: the reader and the number are checked, then the bucket is set. -/
def setBucket (iFieldNum : BitVec 32) (b : FieldBucket) (rr : RenderReader) : Int × RenderReader :=
  match rr.pcReader with
  | none => (-1, rr)
  | some r => if fieldMax ≤ iFieldNum then (-2, rr) else (0, ⟨some (r.set iFieldNum b)⟩)

def setInt32Field (iFieldNum iValue : BitVec 32) : RenderReader → Int × RenderReader := setBucket iFieldNum ⟨.int32, .i32 iValue, 4⟩
def setUint32Field (iFieldNum iValue : BitVec 32) : RenderReader → Int × RenderReader := setBucket iFieldNum ⟨.uint32, .ui32 iValue, 4⟩
def setInt64Field (iFieldNum : BitVec 32) (iValue : BitVec 64) : RenderReader → Int × RenderReader :=
  setBucket iFieldNum ⟨.int64, .i64 iValue, 8⟩
def setUint64Field (iFieldNum : BitVec 32) (iValue : BitVec 64) : RenderReader → Int × RenderReader :=
  setBucket iFieldNum ⟨.uint64, .ui64 iValue, 8⟩
def setFloatField (iFieldNum fValue : BitVec 32) : RenderReader → Int × RenderReader := setBucket iFieldNum ⟨.float, .f fValue, 4⟩
def setDoubleField (iFieldNum : BitVec 32) (fValue : BitVec 64) : RenderReader → Int × RenderReader :=
  setBucket iFieldNum ⟨.double, .d fValue, 8⟩
def setRawField (iFieldNum : BitVec 32) (piRaw : Bytes) : RenderReader → Int × RenderReader :=
  setBucket iFieldNum ⟨.raw, .piRaw piRaw, ofNat 32 piRaw.length⟩

/-- The type is set without a look at the status. -/
def setStringField (iFieldNum : BitVec 32) (cValue : Bytes) (rr : RenderReader) : Except Fault (Int × RenderReader) :=
  let (iRetVal, rr) := setRawField iFieldNum cValue rr
  match rr.pcReader with
  | none => .error .overrun
  | some r =>
    if fieldMax ≤ iFieldNum then .error .overrun
    else .ok (iRetVal, ⟨some (r.set iFieldNum { r.fields iFieldNum with iType := .string })⟩)

end RenderReader

namespace Rendered

def set (id : BitVec 32) : Rendered → RenderReader → Except Fault (Int × RenderReader)
  | ⟨.int32 v, _⟩ => fun rr => .ok (rr.setInt32Field id v)
  | ⟨.uint32 v, _⟩ => fun rr => .ok (rr.setUint32Field id v)
  | ⟨.int64 v, _⟩ => fun rr => .ok (rr.setInt64Field id v)
  | ⟨.uint64 v, _⟩ => fun rr => .ok (rr.setUint64Field id v)
  | ⟨.float v, _⟩ => fun rr => .ok (rr.setFloatField id v)
  | ⟨.double v, _⟩ => fun rr => .ok (rr.setDoubleField id v)
  | ⟨.raw bytes, _⟩ => fun rr => .ok (rr.setRawField id bytes)
  | ⟨.string bytes, _⟩ => fun rr => rr.setStringField id bytes
  | ⟨.uint32Array _, h⟩ => absurd rfl h

/-- The bucket a setter leaves. -/
def bucket : Rendered → FieldBucket
  | ⟨.int32 v, _⟩ => ⟨.int32, .i32 v, 4⟩
  | ⟨.uint32 v, _⟩ => ⟨.uint32, .ui32 v, 4⟩
  | ⟨.int64 v, _⟩ => ⟨.int64, .i64 v, 8⟩
  | ⟨.uint64 v, _⟩ => ⟨.uint64, .ui64 v, 8⟩
  | ⟨.float v, _⟩ => ⟨.float, .f v, 4⟩
  | ⟨.double v, _⟩ => ⟨.double, .d v, 8⟩
  | ⟨.raw bytes, _⟩ => ⟨.raw, .piRaw bytes, ofNat 32 bytes.length⟩
  | ⟨.string bytes, _⟩ => ⟨.string, .piRaw bytes, ofNat 32 bytes.length⟩
  | ⟨.uint32Array _, h⟩ => absurd rfl h

def IsString (v : Rendered) : Prop := v.field.type = .string

end Rendered

/-- Setter calls one after the other. -/
def renderAll (rr : RenderReader) : List (BitVec 32 × Rendered) → Except Fault (List Int × RenderReader)
  | [] => .ok ([], rr)
  | p :: calls => do
    let (status, rr) ← p.2.set p.1 rr
    let (statuses, rr) ← renderAll rr calls
    return (status :: statuses, rr)

/-! ## One setter -/

/-- The setter returns a status other than 0 and changes no field. -/
def Refuses (rr : RenderReader) (p : BitVec 32 × Rendered) : Prop := ∃ status, status ≠ 0 ∧ p.2.set p.1 rr = .ok (status, rr)

theorem setBucket_none (id : BitVec 32) (b : FieldBucket) : RenderReader.setBucket id b ⟨none⟩ = (-1, ⟨none⟩) := rfl

variable {id : BitVec 32}

theorem setBucket_range (hid : fieldMax ≤ id) (b : FieldBucket) (r : Reader) :
    RenderReader.setBucket id b ⟨some r⟩ = (-2, ⟨some r⟩) := if_pos hid

theorem setBucket_ok (hid : id < fieldMax) (b : FieldBucket) (r : Reader) :
    RenderReader.setBucket id b ⟨some r⟩ = (0, ⟨some (r.set id b)⟩) := if_neg (not_le.mpr hid)

/-- A setter other than that of a string is `setBucket` and nothing else. -/
theorem set_eq_setBucket {v : Rendered} (h : ¬v.IsString) (id : BitVec 32) (rr : RenderReader) :
    v.set id rr = .ok (rr.setBucket id v.bucket) := by
  obtain ⟨f, hf⟩ := v
  cases f with
  | int32 v | uint32 v | int64 v | uint64 v | float v | double v | raw v => rfl
  | string v => exact absurd rfl h
  | uint32Array v => exact absurd rfl hf

theorem setStringField_none (id : BitVec 32) (bytes : Bytes) : RenderReader.setStringField id bytes ⟨none⟩ = .error .overrun := rfl

theorem setStringField_range (hid : fieldMax ≤ id) (bytes : Bytes) (rr : RenderReader) :
    RenderReader.setStringField id bytes rr = .error .overrun := by
  obtain ⟨_ | r⟩ := rr
  · rfl
  · simp only [RenderReader.setStringField, RenderReader.setRawField, setBucket_range hid, if_pos hid]

theorem setStringField_ok (hid : id < fieldMax) (bytes : Bytes) (r : Reader) :
    ∃ r', RenderReader.setStringField id bytes ⟨some r⟩ = .ok (0, ⟨some r'⟩) ∧ r'.msgId = r.msgId ∧
      r'.fields = Function.update r.fields id ⟨.string, .piRaw bytes, ofNat 32 bytes.length⟩ := by
  simp only [RenderReader.setStringField, RenderReader.setRawField, setBucket_ok hid, if_neg (not_le.mpr hid), set_fields_self]
  exact ⟨_, rfl, rfl, Function.update_idem _ _ _⟩

theorem set_ok_of_some (hid : id < fieldMax) (v : Rendered) (r : Reader) :
    ∃ r', v.set id ⟨some r⟩ = .ok (0, ⟨some r'⟩) ∧ r'.msgId = r.msgId ∧ r'.fields = Function.update r.fields id v.bucket := by
  by_cases hv : v.IsString
  · obtain ⟨f, hf⟩ := v
    cases f with
    | string bytes => exact setStringField_ok hid bytes r
    | int32 v | uint32 v | int64 v | uint64 v | float v | double v | raw v | uint32Array v => cases hv
  · rw [set_eq_setBucket hv, setBucket_ok hid]
    exact ⟨_, rfl, rfl, rfl⟩

variable {p : BitVec 32 × Rendered}

/-- Out of range or too late, every setter but that of a string is turned down. -/
theorem set_refused (hv : ¬p.2.IsString) {rr : RenderReader} (h : fieldMax ≤ p.1 ∨ rr.pcReader = none) :
    Refuses rr p := by
  obtain ⟨_ | r⟩ := rr
  · exact ⟨-1, by decide, by rw [set_eq_setBucket hv, setBucket_none]⟩
  · have hid : fieldMax ≤ p.1 := h.resolve_right (by simp)
    exact ⟨-2, by decide, by rw [set_eq_setBucket hv, setBucket_range hid]⟩

theorem string_faults (hv : p.2.IsString) {rr : RenderReader} (h : fieldMax ≤ p.1 ∨ rr.pcReader = none) :
    p.2.set p.1 rr = .error .overrun := by
  obtain ⟨id, f, hf⟩ := p
  cases f with
  | string bytes =>
    rcases h with hid | hnone
    · exact setStringField_range hid bytes rr
    · obtain ⟨_ | r⟩ := rr
      · exact setStringField_none id bytes
      · cases hnone
  | int32 v | uint32 v | int64 v | uint64 v | float v | double v | raw v | uint32Array v => cases hv

/-- The bucket of a setter and the one decoded from the field are told apart by no getter. -/
theorem alike_rendered (v : Rendered) (rest : Bytes) (h : v.field.payload.length < 2 ^ 32) : Alike (v.field.bucket rest) v.bucket := by
  have hne : ofNat 32 v.field.payload.length ≠ 0 := length_ne_zero (payload_pos v.field) h
  obtain ⟨f, hf⟩ := v
  cases f with
  | int32 v => exact alike_number (by simp [IsNumber]) (.i32 v) hne (by decide)
  | uint32 v => exact alike_number (by simp [IsNumber]) (.ui32 v) hne (by decide)
  | int64 v => exact alike_number (by simp [IsNumber]) (.i64 v) hne (by decide)
  | uint64 v => exact alike_number (by simp [IsNumber]) (.ui64 v) hne (by decide)
  | float v => exact alike_number (by simp [IsNumber]) (.f v) (by decide) (by decide)
  | double v => exact alike_number (by simp [IsNumber]) (.d v) (by decide) (by decide)
  | raw bytes | string bytes =>
    have hlen : bytes.length < 2 ^ 32 := by
      have hle : bytes.length ≤ (writeFixed32 (ofNat 32 bytes.length) ++ bytes).length := by
        rw [List.length_append]
        omega
      exact Nat.lt_of_le_of_lt hle h
    exact alike_raw (by simp [IsRaw]) hlen rest
  | uint32Array vs => exact absurd rfl hf

/-! ## Sequences of setters -/

/-- The calls that are not turned down for their number, as fields of a message. -/
def accepted (calls : List (BitVec 32 × Rendered)) : List (BitVec 32 × Field) :=
  calls.filterMap fun p => if p.1 < fieldMax then some (p.1, p.2.field) else none

theorem accepted_cons_of_lt (h : p.1 < fieldMax) (calls : List (BitVec 32 × Rendered)) :
    accepted (p :: calls) = (p.1, p.2.field) :: accepted calls := List.filterMap_cons_some (if_pos h)

theorem accepted_cons_of_not_lt (h : ¬p.1 < fieldMax) (calls : List (BitVec 32 × Rendered)) :
    accepted (p :: calls) = accepted calls := List.filterMap_cons_none (if_neg h)

variable {calls : List (BitVec 32 × Rendered)}

theorem mem_accepted {q : BitVec 32 × Field} (h : q ∈ accepted calls) :
    q.1 < fieldMax ∧ q.2.type ≠ .uint32Array := by
  obtain ⟨p, -, hp⟩ := List.mem_filterMap.mp h
  split_ifs at hp with hid
  cases hp
  exact ⟨hid, p.2.no_array⟩

/-- A writer with room for the accepted calls writes them and no other. -/
theorem writeAll_accepted {w : Writer} (hw : w.Ok)
    (hroom : (encodeAll (accepted calls)).length ≤ w.bufferLen.toNat) :
    ∃ w', writeAll w (calls.map fun p => p.2.field.set p.1) = (calls.map fun p => if p.1 < fieldMax then 0 else -1, w') ∧ w'.Ok ∧
      w'.written = w.written ++ encodeAll (accepted calls) := by
  induction calls generalizing w with
  | nil => exact ⟨w, rfl, hw, by simp [accepted, encodeAll]⟩
  | cons p calls ih =>
    by_cases hid : p.1 < fieldMax
    · have hcons : encodeAll ((p.1, p.2.field) :: accepted calls) = p.2.field.encode p.1 ++ encodeAll (accepted calls) := rfl
      rw [accepted_cons_of_lt hid, hcons, List.length_append] at hroom
      obtain ⟨w₁, hset, hw₁, hwr₁, -, hleft₁⟩ := @set_ok p.1 p.2.field w hw hid (by omega)
      obtain ⟨w₂, hall, hw₂, hwr₂⟩ := ih hw₁ (by omega)
      refine ⟨w₂, ?_, hw₂, by rw [hwr₂, hwr₁, accepted_cons_of_lt hid, hcons, List.append_assoc]⟩
      simp only [List.map_cons, writeAll, hset, hall, if_pos hid]
    · rw [accepted_cons_of_not_lt hid] at hroom ⊢
      obtain ⟨w₁, hall, hw₁, hwr₁⟩ := ih hw hroom
      refine ⟨w₁, ?_, hw₁, hwr₁⟩
      have hset : p.2.field.set p.1 w = (-1, w) := set_rejected (.inl (not_lt.mp hid))
      simp only [List.map_cons, writeAll, hset, hall, if_neg hid]

theorem renderAll_cons {rr rr' : RenderReader} {status : Int}
    (h : p.2.set p.1 rr = .ok (status, rr')) {statuses : List Int} {rr'' : RenderReader} (hall : renderAll rr' calls = .ok (statuses, rr'')) :
    renderAll rr (p :: calls) = .ok (status :: statuses, rr'') := by
  rw [renderAll, h]
  simp only [bind, Except.bind, hall]
  rfl

/-- With buckets that are alike before, they are after the calls and after decoding the accepted ones. -/
theorem renderAll_ok (hs : ∀ p ∈ calls, p.2.IsString → p.1 < fieldMax)
    (hlen : (encodeAll (accepted calls)).length < 2 ^ 32) {r d : Reader} (h : ∀ id, Alike (d.fields id) (r.fields id)) (rest : Bytes) :
    ∃ r', renderAll ⟨some r⟩ calls = .ok (calls.map fun p => if p.1 < fieldMax then 0 else -2, ⟨some r'⟩) ∧ r'.msgId = r.msgId ∧
      ∀ id, Alike ((setAll d (accepted calls) rest).fields id) (r'.fields id) := by
  induction calls generalizing r d with
  | nil => exact ⟨r, rfl, rfl, h⟩
  | cons p calls ih =>
    have hs' : ∀ q ∈ calls, q.2.IsString → q.1 < fieldMax := (List.forall_mem_cons.mp hs).2
    by_cases hid : p.1 < fieldMax
    · have hcons : encodeAll ((p.1, p.2.field) :: accepted calls) = p.2.field.encode p.1 ++ encodeAll (accepted calls) := rfl
      have henc : (p.2.field.encode p.1).length = 4 + p.2.field.payload.length := length_encode p.2.field p.1
      rw [accepted_cons_of_lt hid, hcons, List.length_append] at hlen
      obtain ⟨r₁, hset, hmsg₁, hfields₁⟩ := set_ok_of_some hid p.2 r
      obtain ⟨d₁, hd₁⟩ : ∃ d₁, d₁ = d.set p.1 (p.2.field.bucket (d.behind (encodeAll (accepted calls) ++ rest))) := ⟨_, rfl⟩
      have halike : ∀ id, Alike (d₁.fields id) (r₁.fields id) := by
        intro id
        rw [hfields₁, hd₁]
        by_cases heq : id = p.1
        · rw [heq, set_fields_self, Function.update_self]
          exact alike_rendered p.2 _ (by omega)
        · rw [set_fields_of_ne d heq, Function.update_of_ne heq]
          exact h id
      obtain ⟨r', hall, hmsg, hr'⟩ := ih hs' (by omega) halike
      refine ⟨r', ?_, hmsg.trans hmsg₁, ?_⟩
      · rw [List.map_cons, if_pos hid]
        exact renderAll_cons hset hall
      · rw [accepted_cons_of_lt hid, setAll, ← hd₁]
        exact hr'
    · have hv : ¬p.2.IsString := fun hv => hid (hs p List.mem_cons_self hv)
      have hset : p.2.set p.1 ⟨some r⟩ = .ok (-2, ⟨some r⟩) := by
        rw [set_eq_setBucket hv, setBucket_range (not_lt.mp hid)]
      rw [accepted_cons_of_not_lt hid] at hlen ⊢
      obtain ⟨r', hall, hmsg, hr'⟩ := ih hs' hlen h
      refine ⟨r', ?_, hmsg, hr'⟩
      rw [List.map_cons, if_neg hid]
      exact renderAll_cons hset hall

/-- A run without a fault has no string with a number out of range. -/
theorem strings_in_range {rr : RenderReader} {res : List Int × RenderReader}
    (h : renderAll rr calls = .ok res) : ∀ p ∈ calls, p.2.IsString → p.1 < fieldMax := by
  induction calls generalizing rr res with
  | nil => exact fun p hp => absurd hp List.not_mem_nil
  | cons p calls ih =>
    intro q hq hv
    rw [renderAll] at h
    cases hset : p.2.set p.1 rr with
    | error f =>
      rw [hset] at h
      cases h
    | ok next =>
      rw [hset] at h
      cases hall : renderAll next.2 calls with
      | error f =>
        simp only [bind, Except.bind, hall] at h
        cases h
      | ok res' =>
        rcases List.mem_cons.mp hq with rfl | hq
        · by_contra hid
          rw [string_faults hv (.inl (not_lt.mp hid))] at hset
          cases hset
        · exact ih hall q hq hv

/-! ## The two readers -/

/-- What is to hold of a renderReader: the calls before mutableReader make a reader that answers as the one decoded from
    what a writer makes of the same calls, and those with a number of 256 on, or after mutableReader, are turned down. -/
def RendersAs (msgId : BitVec 32) (calls late : List (BitVec 32 × Rendered)) : Prop :=
  ∃ statuses rr r w d, renderAll (.create msgId) calls = .ok (statuses, rr) ∧ rr.mutableReader = (some r, ⟨none⟩) ∧
    writeAll (.create (sizeAll (accepted calls)) msgId) (calls.map fun p => p.2.field.set p.1)
      = (calls.map fun p => if p.1 < fieldMax then 0 else -1, w) ∧
    decodeFields (.create w.written) = .ok (0, d) ∧ r.msgId = d.msgId ∧ SameFields d r ∧
    (∀ before p after, calls = before ++ p :: after → fieldMax ≤ p.1 →
      ∀ statuses rr, renderAll (.create msgId) before = .ok (statuses, rr) → Refuses rr p) ∧
    ∀ p ∈ late, Refuses rr.mutableReader.2 p

/-- No string comes with a number out of range, or after mutableReader. -/
def StringsInTime (calls late : List (BitVec 32 × Rendered)) : Prop :=
  (∀ p ∈ calls, p.2.IsString → p.1 < fieldMax) ∧ ∀ p ∈ late, ¬p.2.IsString

/-- A message of the accepted calls is decoded field by field. -/
theorem decode_accepted (msgId : BitVec 32) (h : (encodeAll (accepted calls)).length + 16 < 2 ^ 32) :
    ∃ w d, writeAll (.create (sizeAll (accepted calls)) msgId) (calls.map fun p => p.2.field.set p.1)
        = (calls.map fun p => if p.1 < fieldMax then 0 else -1, w) ∧
      decodeFields (.create w.written) = .ok (0, setAll d (accepted calls) []) ∧ d.msgId = msgId ∧
      ∀ id, d.fields id = ⟨.nil, .pArray none, 0⟩ := by
  have hsize := sizeAll_toNat (accepted calls) (by omega)
  obtain ⟨hok, hact, hleft, hwr⟩ := create_ok (sizeAll (accepted calls)) msgId (by omega)
  obtain ⟨w, hall, -, hwritten⟩ := @writeAll_accepted calls _ hok (by rw [hleft]; omega)
  have hbytes : w.written = messageHeader version msgId (sizeAll (accepted calls)) ++ encodeAll (accepted calls) := by
    rw [hwritten, hwr]
    rfl
  have hlen : w.written.length = (sizeAll (accepted calls)).toNat + 16 := by
    rw [hbytes, List.length_append, hsize, Nat.add_comm]
    rfl
  have hn : (sizeAll (accepted calls)).toNat + 16 ≤ (ofNat 32 w.written.length).toNat := by
    rw [hlen, BitVec.toNat_ofNat, Nat.mod_eq_of_lt (by omega)]
  have hfits : ∀ p ∈ accepted calls, p.2.Fits := by
    intro p hp
    have hno := (mem_accepted hp).2
    cases hf : p.2 with
    | uint32Array vs => exact absurd (by rw [hf]; rfl) hno
    | int32 v | uint32 v | int64 v | uint64 v | float v | double v | raw v | string v => trivial
  refine ⟨w, _, hall, decodeFields_message (fun p hp => (mem_accepted hp).1) hfits msgId (BitVec.and_self : version &&& version = version) hsize
    [] hn false ((List.append_nil _).symm ▸ hbytes) (allFree_of_no_array (fun p hp => (mem_accepted hp).2) _ []), rfl, fun id => rfl⟩

/-- A renderReader mimics a decoded message exactly if no string is out of range or too late. -/
theorem render_agrees_iff (msgId : BitVec 32) (calls late : List (BitVec 32 × Rendered))
    (h : (encodeAll (accepted calls)).length + 16 < 2 ^ 32) : RendersAs msgId calls late ↔ StringsInTime calls late := by
  constructor
  · rintro ⟨statuses, rr, r, w, d, hrun, hmut, -, -, -, -, -, hlate⟩
    refine ⟨strings_in_range hrun, fun p hp hv => ?_⟩
    obtain ⟨status, -, hset⟩ := hlate p hp
    rw [@string_faults p hv rr.mutableReader.2 (.inr rfl)] at hset
    cases hset
  · intro ⟨hs, hlate⟩
    obtain ⟨w, d, hall, hdec, hmsg, hempty⟩ := decode_accepted msgId h
    have hstart : ∀ id, Alike (d.fields id) ((Reader.ofMsgId msgId).fields id) := by
      intro id
      rw [hempty id]
      exact ⟨rfl, Iff.rfl, fun _ => rfl, fun _ => ⟨rfl, rfl⟩, fun _ => rfl⟩
    obtain ⟨r', hrun, hmsg', halike⟩ := renderAll_ok hs (by omega) hstart []
    refine ⟨_, ⟨some r'⟩, r', w, _, hrun, rfl, hall, hdec, ?_, sameFields_of_alike fun id _ => halike id, ?_, fun p hp => ?_⟩
    · rw [hmsg', setAll_msgId, hmsg]
      rfl
    · intro before p after hsplit hid statuses rr _
      have hmem : p ∈ calls := by
        rw [hsplit]
        exact List.mem_append_right _ List.mem_cons_self
      exact set_refused (fun hv => absurd (hs p hmem hv) (not_lt.mpr hid)) (.inl hid)
    · exact set_refused (hlate p hp) (.inr rfl)

/-- A field set as a string and again as a number, with a call out of range in between. -/
def stringThenNumber : List (BitVec 32 × Rendered) :=
  [(3, ⟨.string [1, 2], by decide⟩), (256, ⟨.raw [1], by decide⟩), (3, ⟨.int32 7, by decide⟩)]

def lateNumber : List (BitVec 32 × Rendered) := [(4, ⟨.double 5, by decide⟩)]

/-- The number is what both readers hold, and the one set after mutableReader is turned down. -/
theorem render_last_wins : (encodeAll (accepted stringThenNumber)).length + 16 < 2 ^ 32 ∧ RendersAs 9 stringThenNumber lateNumber := by
  have hfit : (encodeAll (accepted stringThenNumber)).length + 16 < 2 ^ 32 := by decide +kernel
  refine ⟨hfit, (render_agrees_iff 9 stringThenNumber lateNumber hfit).mpr ⟨?_, ?_⟩⟩
  · simp [stringThenNumber, Rendered.IsString, Field.type]
    decide
  · simp [lateNumber, Rendered.IsString, Field.type]

def oneString : Rendered := ⟨.string [1], by decide⟩

/-- A string set after mutableReader, and one with number 256, follow a pointer out of the reader. -/
theorem late_string_faults : (oneString.set 4 (RenderReader.create 9).mutableReader.2).toOption.isNone ∧
    (oneString.set 256 (.create 9)).toOption.isNone ∧ ¬RendersAs 9 [] [(4, oneString)] ∧ ¬RendersAs 9 [(256, oneString)] [] := by
  refine ⟨rfl, rfl, ?_, ?_⟩
  · rintro ⟨statuses, rr, r, w, d, -, -, -, -, -, -, -, hlate⟩
    obtain ⟨status, -, hset⟩ := hlate _ List.mem_cons_self
    cases hset
  · rintro ⟨statuses, rr, r, w, d, hrun, -⟩
    cases hrun

end DeepFabric.Wire
