/-
  DeepFabric.Wire.WriterClone — a writer and its copy, both written on
  (cxx/io/EncodeProtocol.h: writer(writer&)).

  The copy takes over m_iActualLen, m_iBufferLen, m_iWritten and the buffer's bytes, and puts
  m_piPos at the end of the new buffer. What a caller sees of a writer after more setter calls is
  their statuses, getSize() and as many bytes of the buffer.

  As built: `clone_differs`. One field set after the copy is behind the end of the copy's buffer, and
  the bytes at its place are those the buffer held when it was copied.
-/
import DeepFabric.Wire.WriterAccount

namespace DeepFabric.Wire

/-- The bytes of the buffer, with what stands behind m_piPos. -/
def Writer.contents (w : Writer) (behind : Nat → UInt8) : Bytes :=
  (w.written ++ (List.range w.actualLen.toNat).map behind).take w.actualLen.toNat

/-- A writer with nothing written outside its buffer, whose getSize() bytes are in it. -/
def Writer.Contained (w : Writer) : Prop := w.reached ≤ w.actualLen.toNat ∧ w.iWritten ≤ w.actualLen

instance (w : Writer) : Decidable w.Contained := inferInstanceAs (Decidable (_ ∧ _))

def setAllOf (w : Writer) (calls : List (BitVec 32 × Field)) : List Int × Writer := writeAll w (calls.map fun p => p.2.set p.1)

/-- The statuses of setter calls, getSize() after them and its bytes. What stood behind m_piPos and is not written over
    is still there. -/
def outcome (w : Writer) (behind : Nat → UInt8) (calls : List (BitVec 32 × Field)) : Except Fault (List Int × BitVec 32 × Bytes) :=
  let (statuses, w') := setAllOf w calls
  if w'.Contained then
    .ok (statuses, w'.iWritten,
      (w'.contents fun i => behind (i + (w'.written.length - w.written.length))).take w'.iWritten.toNat)
  else .error .overrun

/-- The writer and its copy come to one outcome. -/
def Agree (w : Writer) (behind : Nat → UInt8) (calls : List (BitVec 32 × Field)) : Prop :=
  ∃ seen, outcome w behind calls = .ok seen ∧ outcome (w.clone behind) behind calls = .ok seen

/-! ## Setters, one after the other -/

theorem setAllOf_cons (w : Writer) (p : BitVec 32 × Field) (calls : List (BitVec 32 × Field)) :
    setAllOf w (p :: calls) = ((p.2.set p.1 w).1 :: (setAllOf (p.2.set p.1 w).2 calls).1, (setAllOf (p.2.set p.1 w).2 calls).2) := rfl

theorem set_cases (w : Writer) (id : BitVec 32) (f : Field) :
    Rejected w id f ∧ (f.set id w).2 = w ∨ ¬Rejected w id f ∧ ∃ header bytes, header.length = 4 ∧ (f.set id w).2 = (w.put header).put bytes := by
  by_cases hr : Rejected w id f
  · exact .inl ⟨hr, by rw [set_rejected hr]⟩
  · obtain ⟨bytes, -, hset⟩ := set_written hr
    exact .inr ⟨hr, _, bytes, length_writeFixed32 _, by rw [hset]⟩

theorem put_reached_le (w : Writer) (bytes : Bytes) : w.reached ≤ (w.put bytes).reached := Nat.le_max_left ..

theorem set_reached_le (w : Writer) (id : BitVec 32) (f : Field) : w.reached ≤ (f.set id w).2.reached := by
  rcases set_cases w id f with ⟨-, hset⟩ | ⟨-, header, bytes, -, hset⟩
  · rw [hset]
  · rw [hset]
    exact Nat.le_trans (put_reached_le w header) (put_reached_le _ bytes)

theorem set_actualLen (w : Writer) (id : BitVec 32) (f : Field) : (f.set id w).2.actualLen = w.actualLen := by
  rcases set_cases w id f with ⟨-, hset⟩ | ⟨-, header, bytes, -, hset⟩
  · rw [hset]
  · rw [hset]
    rfl

theorem setAllOf_reached_le (w : Writer) (calls : List (BitVec 32 × Field)) : w.reached ≤ (setAllOf w calls).2.reached := by
  induction calls generalizing w with
  | nil => exact Nat.le_refl _
  | cons p calls ih =>
    rw [setAllOf_cons]
    exact Nat.le_trans (set_reached_le w p.1 p.2) (ih _)

theorem setAllOf_actualLen (w : Writer) (calls : List (BitVec 32 × Field)) : (setAllOf w calls).2.actualLen = w.actualLen := by
  induction calls generalizing w with
  | nil => rfl
  | cons p calls ih =>
    rw [setAllOf_cons]
    exact (ih _).trans (set_actualLen w p.1 p.2)

variable {w : Writer} {calls : List (BitVec 32 × Field)}

theorem setAllOf_rejected (h : ∀ p ∈ calls, Rejected w p.1 p.2) :
    setAllOf w calls = (calls.map fun _ => -1, w) := by
  induction calls with
  | nil => rfl
  | cons p calls ih =>
    have hset := set_rejected (h p List.mem_cons_self)
    rw [setAllOf_cons, hset, ih (List.forall_mem_cons.mp h).2, List.map_cons]

/-- At the end of the buffer, the first call that is not turned down writes behind it. -/
theorem setAllOf_beyond (hend : w.written.length = w.actualLen.toNat)
    (h : ¬∀ p ∈ calls, Rejected w p.1 p.2) : w.actualLen.toNat < (setAllOf w calls).2.reached := by
  induction calls with
  | nil => exact absurd (fun p hp => absurd hp List.not_mem_nil) h
  | cons p calls ih =>
    rw [setAllOf_cons]
    rcases set_cases w p.1 p.2 with ⟨hr, hset⟩ | ⟨-, header, bytes, h4, hset⟩
    · rw [hset]
      refine ih fun hall => h fun q hq => ?_
      cases hq with
      | head => exact hr
      | tail _ hq => exact hall q hq
    · have hheader : w.written.length + 4 ≤ (w.put header).reached := by
        rw [← h4]
        exact Nat.le_max_right ..
      have hle := setAllOf_reached_le (p.2.set p.1 w).2 calls
      have hput := put_reached_le (w.put header) bytes
      rw [← hset] at hput
      show w.actualLen.toNat < (setAllOf (p.2.set p.1 w).2 calls).2.reached
      omega

/-! ## The copy -/

theorem clone_written (w : Writer) (behind : Nat → UInt8) : (w.clone behind).written = w.contents behind := rfl

theorem clone_written_length (w : Writer) (behind : Nat → UInt8) : (w.clone behind).written.length = w.actualLen.toNat := by
  rw [clone_written, Writer.contents, List.length_take, List.length_append, List.length_map, List.length_range]
  exact Nat.min_eq_left (Nat.le_add_left ..)

theorem clone_contents (w : Writer) (behind behind' : Nat → UInt8) : (w.clone behind).contents behind' = w.contents behind := by
  have hlen := clone_written_length w behind
  show ((w.clone behind).written ++ _).take w.actualLen.toNat = _
  rw [← hlen, List.take_left, clone_written]

theorem rejected_clone (w : Writer) (behind : Nat → UInt8) (id : BitVec 32) (f : Field) : Rejected (w.clone behind) id f ↔ Rejected w id f :=
  Iff.rfl

theorem outcome_rejected (h : ∀ p ∈ calls, Rejected w p.1 p.2) (hc : w.Contained)
    (behind : Nat → UInt8) : outcome w behind calls = .ok (calls.map fun _ => -1, w.iWritten, (w.contents behind).take w.iWritten.toNat) := by
  have hshift : (fun i => behind (i + (w.written.length - w.written.length))) = behind := by
    funext i
    rw [Nat.sub_self, Nat.add_zero]
  rw [outcome, setAllOf_rejected h]
  simp only [if_pos hc, hshift]

theorem agree_of_rejected (hc : w.Contained) (h : ∀ p ∈ calls, Rejected w p.1 p.2)
    (behind : Nat → UInt8) : Agree w behind calls := by
  refine ⟨_, outcome_rejected h hc behind, ?_⟩
  have hclone : (w.clone behind).Contained := ⟨Nat.le_refl _, hc.2⟩
  have hcopy := outcome_rejected (fun p hp => (rejected_clone w behind p.1 p.2).mpr (h p hp)) hclone behind
  rw [clone_contents] at hcopy
  exact hcopy

theorem rejected_of_agree {behind : Nat → UInt8} (h : Agree w behind calls) :
    ∀ p ∈ calls, Rejected w p.1 p.2 := by
  by_contra hnot
  obtain ⟨seen, -, hcopy⟩ := h
  have hbeyond := setAllOf_beyond (clone_written_length w behind) hnot
  have hout : ¬(setAllOf (w.clone behind) calls).2.Contained := by
    intro hc
    have hle := hc.1
    rw [setAllOf_actualLen] at hle
    exact absurd hle (Nat.not_le.mpr hbeyond)
  simp only [outcome, if_neg hout] at hcopy
  cases hcopy

/-- A writer and its copy agree after more calls exactly if the writer is inside its buffer and turns every call down. -/
theorem clone_agrees_iff (w : Writer) (behind : Nat → UInt8) (calls : List (BitVec 32 × Field)) :
    Agree w behind calls ↔ w.Contained ∧ ∀ p ∈ calls, Rejected w p.1 p.2 := by
  refine ⟨fun h => ?_, fun ⟨hc, h⟩ => agree_of_rejected hc h behind⟩
  have hr := rejected_of_agree h
  refine ⟨?_, hr⟩
  by_contra hc
  obtain ⟨seen, horig, -⟩ := h
  simp only [outcome, setAllOf_rejected hr, if_neg hc] at horig
  cases horig

/-- A writer with one number, as its setter leaves it. -/
def numberWritten : Writer := (setUint32Field 1 5 (.create 16 9)).2

/-- The second number is set in the writer, and behind the buffer of its copy. -/
theorem clone_differs : (setUint32Field 1 5 (.create 16 9)).1 = 0 ∧
    (outcome numberWritten (fun _ => 0) [(2, .uint32 7)]).toOption.map (fun seen => (seen.1, seen.2.1)) = some ([0], 26) ∧
    (outcome (numberWritten.clone fun _ => 0) (fun _ => 0) [(2, .uint32 7)]).toOption = none ∧
    ¬Agree numberWritten (fun _ => 0) [(2, .uint32 7)] := by
  have hcopy : (outcome (numberWritten.clone fun _ => 0) (fun _ => 0) [(2, .uint32 7)]).toOption = none := by decide +kernel
  refine ⟨by decide +kernel, by decide +kernel, hcopy, ?_⟩
  rintro ⟨seen, -, h⟩
  rw [h] at hcopy
  cases hcopy

/-- With no room for the next field both turn it down. -/
example : Agree (setUint32Field 1 5 (.create 5 9)).2 (fun _ => 0) [(2, .uint32 7)] := by
  refine agree_of_rejected (by decide +kernel) ?_ _
  decide +kernel

end DeepFabric.Wire
