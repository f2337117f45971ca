/-
  DeepFabric.Store.RowLayout — which schemas keep their rows through packRow and unpackRow
  (api/deep/Protocol.h: RowProtocol_v1).

  - `Safe`: with variable columns, each fixed virtual column that goes on with a run begins where
    the run ends, and each multi-byte text has room for a character; without, no virtual column
    stands before an ordinary one.
-/
import DeepFabric.Store.RowRoundTrip
import Mathlib.Data.List.Pairwise

namespace DeepFabric.Store.RowProtocol

open DeepFabric.Lib Buffer
open Bool (eq_false_iff)
open List (any_eq_false filter_cons_of_neg filter_cons_of_pos flatMap_cons map_append mem_cons_of_mem mem_cons_self mem_filter nil_append sum_append forall_mem_cons)

/-! ## Layouts -/

variable {s : SchemaBuilder} {f g : DeepField} {fs : List DeepField} {offset : Nat}

theorem belongs_zero : f.belongs 0 = !f.gcVirtual := by
  unfold DeepField.belongs
  cases f.gcVirtual <;> rfl

theorem belongs_one : f.belongs 1 = f.gcVirtual := by
  unfold DeepField.belongs
  cases f.gcVirtual <;> rfl

theorem room_of_fixed (h : f.isVariable = false) : f.room s = f.packLength :=
  room_of_not_blob s fun hb => of_decide_eq_false h (.inr (.inl hb.2))

theorem Laid.bounds (h : Laid s offset fs) (hf : f ∈ fs) :
    offset ≤ f.valueOffset ∧ f.valueOffset + f.room s ≤ offset + (fs.map (·.room s)).sum := by
  induction fs generalizing offset with
  | nil => exact absurd hf List.not_mem_nil
  | cons g fs ih =>
    obtain ⟨hg, hrest⟩ := h
    rw [List.map_cons, List.sum_cons]
    rcases List.mem_cons.mp hf with rfl | hf
    · omega
    · have := ih hrest hf
      omega

theorem Laid.apart (h : Laid s offset fs) : fs.Pairwise (Apart s) := by
  induction fs generalizing offset with
  | nil => exact List.Pairwise.nil
  | cons f fs ih =>
    obtain ⟨hf, hrest⟩ := h
    refine List.pairwise_cons.mpr ⟨fun g hg => .inl ?_, ih hrest⟩
    have := (hrest.bounds hg).1
    omega

instance : Std.Symm (Apart s) := ⟨fun _ _ h => h.symm⟩

theorem Laid.apart_of_ne (h : Laid s offset fs) (hf : f ∈ fs) (hg : g ∈ fs) (hne : f ≠ g) : Apart s f g := h.apart.forall hf hg hne

/-- The runs of the first pass are whole: a virtual column ends them. -/
theorem Laid.whole (h : Laid s offset fs) {run : Option Nat} (hrun : run = none ∨ run = some offset) : Whole 0 run fs := by
  induction fs generalizing offset run with
  | nil => trivial
  | cons f fs ih =>
    obtain ⟨hf, hrest⟩ := h
    rw [Whole]
    by_cases hb : f.belongs 0 = true
    · rw [if_pos hb]
      by_cases hv : f.isVariable = true
      · rw [if_pos hv]
        exact ih hrest (.inl rfl)
      · rw [room_of_fixed (eq_false_iff.mpr hv)] at hrest
        rw [if_neg hv]
        by_cases hl : f.packLength = 0
        · rw [if_pos hl]
          rw [hl] at hrest
          exact ih hrest hrun
        · rw [if_neg hl, hf]
          exact ⟨hrun, ih hrest (.inr rfl)⟩
    · rw [if_neg hb, if_pos rfl]
      exact ih hrest (.inl rfl)

theorem Laid.flatMap_fixedBytes (h : Laid s offset fs) (hv : ∀ f ∈ fs, f.isVariable = false) (b : Buffer) :
    fs.flatMap (fixedBytes b) = bytes b offset (fs.map (·.room s)).sum := by
  induction fs generalizing offset with
  | nil => rfl
  | cons f fs ih =>
    obtain ⟨hf, hrest⟩ := h
    have hfixed := hv f mem_cons_self
    rw [flatMap_cons, ih hrest (forall_mem_cons.mp hv).2, fixedBytes, hfixed,
      if_neg Bool.false_ne_true, hf, List.map_cons, List.sum_cons, bytes_append, room_of_fixed hfixed]

theorem length_flatMap_fixedBytes {row : Buffer} : (fs.flatMap (fixedBytes row)).length = fixedLengthOf fs := by
  induction fs with
  | nil => rfl
  | cons f fs ih =>
    rw [flatMap_cons, List.length_append, ih, fixedLengthOf_cons, fixedBytes]
    split_ifs
    · rfl
    · rw [length_bytes]

/-- The columns in the order of the two passes. -/
def order (fs : List DeepField) : List DeepField := fs.filter (·.belongs 0) ++ fs.filter (·.belongs 1)

theorem order_perm : (order fs).Perm fs := by
  have hnot : (fun f : DeepField => f.belongs 1) = fun f => !f.belongs 0 := by
    funext f
    rw [belongs_one, belongs_zero, Bool.not_not]
  rw [order, hnot]
  exact List.filter_append_perm _ _

theorem mem_order : f ∈ order fs ↔ f ∈ fs := order_perm.mem_iff

theorem order_of_no_virtual (h : fs.any (·.gcVirtual) = false) : fs.filter (·.belongs 1) = [] := by
  refine List.filter_eq_nil_iff.mpr fun f hf => ?_
  rw [belongs_one]
  exact any_eq_false.mp h f hf

theorem Laid.order_apart (h : Laid s offset fs) : (order fs).Pairwise (Apart s) :=
  (order_perm.pairwise_iff fun h => h.symm).mpr h.apart

theorem fixedLengthOf_append (fs gs : List DeepField) : fixedLengthOf (fs ++ gs) = fixedLengthOf fs + fixedLengthOf gs := by
  rw [fixedLengthOf, List.filter_append, map_append, sum_append]
  rfl

theorem fixedLengthOf_order : fixedLengthOf (order fs) = fixedLengthOf fs :=
  ((order_perm.filter _).map _).sum_nat

theorem blobLength_order (multiByteMaxLen : Int → Nat) (row : Buffer) :
    blobLength multiByteMaxLen row (order fs) = blobLength multiByteMaxLen row fs :=
  ((order_perm.filter _).map _).sum_nat

theorem entryLength_append (multiByteMaxLen : Int → Nat) (memory row : Buffer) (fs gs : List DeepField) :
    entryLength multiByteMaxLen s memory row (fs ++ gs)
      = entryLength multiByteMaxLen s memory row fs + entryLength multiByteMaxLen s memory row gs := by
  rw [entryLength, map_append, sum_append]
  rfl

theorem length_flatMap_entry {multiByteMaxLen : Int → Nat} {memory row : Buffer} :
    (fs.flatMap (entry multiByteMaxLen s memory row)).length = entryLength multiByteMaxLen s memory row fs := List.length_flatMap ..

theorem blobLength_append (multiByteMaxLen : Int → Nat) (row : Buffer) (fs gs : List DeepField) :
    blobLength multiByteMaxLen row (fs ++ gs) = blobLength multiByteMaxLen row fs + blobLength multiByteMaxLen row gs := by
  rw [blobLength, List.filter_append, map_append, sum_append]
  rfl

/-! ## What a packed row holds -/

section Packing

variable (multiByteMaxLen : Int → Nat) (s : SchemaBuilder) (memory row : Buffer)

/-- The loop stands where the columns packed one after the other do, and its row is theirs below `lo` and from
    blobStartOffset on. -/
structure Agree (lo : Nat) (p : Packing) (q : Packed) : Prop where
  packedRowOffset : p.packedRowOffset = q.packedRowOffset
  blobOffset : p.blobOffset = q.blobOffset
  floor : lo ≤ p.packedRowOffset
  run : p.fixedLength ≠ 0 → lo ≤ p.packedFixedPtr ∧ p.packedFixedPtr + p.fixedLength = p.packedRowOffset
  packedRow : ∀ i, i < lo ∨ s.blobStartOffset ≤ i → p.packedRow i = q.packedRow i

variable {s} {row}

theorem Agree.flush {lo : Nat} {p : Packing} {q : Packed} (h : Agree s lo p q) (hroom : q.packedRowOffset ≤ s.blobStartOffset) :
    Agree s lo (p.flush row) q := by
  unfold Packing.flush
  by_cases hz : p.fixedLength = 0
  · rw [if_neg (not_not.mpr hz)]
    exact h
  · rw [if_pos hz]
    refine ⟨h.packedRowOffset, h.blobOffset, h.floor, fun h0 => absurd rfl h0, fun i hi => ?_⟩
    have hrun := h.run hz
    have hoff := h.packedRowOffset
    rw [← h.packedRow i hi]
    exact memcpy_outside (by omega)

theorem Agree.packOne {lo : Nat} {p p' : Packing} {q : Packed} (hv : f.isVariable = true) (h : Agree s lo p q)
    (hroom : q.packedRowOffset ≤ s.blobStartOffset) (hz : p'.fixedLength = 0)
    (hset : p'.settled row = packOne multiByteMaxLen s memory row (p.settled row) f) :
    Agree s lo p' (packOne multiByteMaxLen s memory row q f) := by
  have hf : Agree s lo (p.flush row) q := h.flush hroom
  rw [Packing.settled, flush_of_zero row hz] at hset
  rw [RowProtocol.packOne, if_pos hv, Packing.settled] at hset
  obtain ⟨h₁, h₂, h₃⟩ := Packed.mk.injEq .. ▸ hset
  rw [RowProtocol.packOne, if_pos hv]
  refine ⟨h₂.trans h.packedRowOffset, h₃.trans (by rw [h.blobOffset]), h₂ ▸ h.floor, fun h0 => absurd hz h0, fun i hi => ?_⟩
  rw [h₁, h.blobOffset]
  simp only [memcpy, store]
  split_ifs
  · rfl
  · rfl
  · exact hf.packedRow i hi

theorem packField_agree (hv : f.isVariable = false) {lo : Nat} {p : Packing} {q : Packed} (h : Agree s lo p q)
    (hroom : q.packedRowOffset + f.packLength ≤ s.blobStartOffset) :
    ∃ p', packField multiByteMaxLen s memory row p f = .ok p' ∧ Agree s lo p' (packOne multiByteMaxLen s memory row q f) := by
  have hnot : ¬f.isVariableLengthVarchar = true ∧ ¬f.type = .blob ∧ ¬f.type = .textMultibyte := by
    have h := of_decide_eq_false hv
    rw [not_or, not_or] at h
    exact h
  have hoff := h.packedRowOffset
  have hfloor := h.floor
  have hrow : ∀ i, i < lo ∨ s.blobStartOffset ≤ i → p.packedRow i
      = memcpy q.packedRow q.packedRowOffset row f.valueOffset f.packLength i := by
    intro i hi
    rw [h.packedRow i hi, memcpy_outside (by omega)]
  have hfixed : ¬f.isVariable = true := eq_false_iff.mp hv
  rw [packField, if_neg hnot.1, if_neg hnot.2.1, if_neg hnot.2.2]
  simp only [packOne, if_neg hfixed]
  refine ⟨_, rfl, ?_⟩
  by_cases hz : p.fixedLength = 0
  · rw [if_pos hz]
    refine ⟨congrArg (· + f.packLength) hoff, h.blobOffset, Nat.le_add_right_of_le hfloor, fun _ => ⟨hfloor, ?_⟩, hrow⟩
    show p.packedRowOffset + (p.fixedLength + f.packLength) = p.packedRowOffset + f.packLength
    rw [hz, Nat.zero_add]
  · rw [if_neg hz]
    obtain ⟨hlo, hend⟩ := h.run hz
    refine ⟨congrArg (· + f.packLength) hoff, h.blobOffset, Nat.le_add_right_of_le hfloor, fun _ => ⟨hlo, ?_⟩, hrow⟩
    show p.packedFixedPtr + (p.fixedLength + f.packLength) = p.packedRowOffset + f.packLength
    rw [← Nat.add_assoc, hend]

theorem packFields_agree {j : Nat} {fs : List DeepField} (hfs : ∀ f ∈ fs, FieldOk f) {lo : Nat} {p : Packing} {q : Packed}
    (h : Agree s lo p q) (hroom : q.packedRowOffset + fixedLengthOf (fs.filter (·.belongs j)) ≤ s.blobStartOffset) :
    ∃ p', packFields multiByteMaxLen s memory row j fs p = .ok p' ∧
      Agree s lo p' ((fs.filter (·.belongs j)).foldl (packOne multiByteMaxLen s memory row) q) := by
  induction fs generalizing p q with
  | nil => exact ⟨_, rfl, h.flush hroom⟩
  | cons f fs ih =>
    have hf := hfs f mem_cons_self
    have hrest : ∀ g ∈ fs, FieldOk g := (forall_mem_cons.mp hfs).2
    by_cases hb : f.belongs j = true
    · rw [filter_cons_of_pos hb, fixedLengthOf_cons] at hroom
      rw [packFields_belongs multiByteMaxLen s memory row hb, filter_cons_of_pos hb, List.foldl_cons]
      by_cases hv : f.isVariable = true
      · rw [if_pos hv] at hroom
        obtain ⟨p₁, hp₁, hz, hset⟩ := packField_variable multiByteMaxLen s memory row hf hv p
        rw [Nat.zero_add] at hroom
        have h₁ := h.packOne multiByteMaxLen memory hv (Nat.le_of_add_right_le hroom) hz hset
        rw [hp₁]
        refine ih hrest h₁ ?_
        simp only [packOne, if_pos hv]
        exact hroom
      · rw [if_neg hv] at hroom
        have hv' : f.isVariable = false := eq_false_iff.mpr hv
        obtain ⟨p₁, hp₁, h₁⟩ := packField_agree multiByteMaxLen memory hv' h (Nat.le_of_add_right_le (Nat.add_assoc .. ▸ hroom))
        rw [hp₁]
        refine ih hrest h₁ ?_
        simp only [packOne, if_neg hv]
        rw [Nat.add_assoc]
        exact hroom
    · rw [filter_cons_of_neg hb] at hroom ⊢
      rw [packFields_skips multiByteMaxLen s memory row hb]
      split_ifs
      · exact ih hrest (h.flush (Nat.le_of_add_right_le hroom)) hroom
      · exact ih hrest h hroom

/-- The state both loops begin with. -/
def packStart (s : SchemaBuilder) (row buffer : Buffer) : Packed := ⟨memcpy buffer 0 row 0 s.nullBytes, s.nullBytes, 0⟩

/-- packRow packs the columns of the first pass one after the other, and those of the second, if its runs are whole;
    if they are not, it spoils no more than the fixed part of the second pass. -/
theorem packRow_agrees (hs : WellFormed s) (hv : s.hasVariableLengthFields = true ∨ s.hasVirtualFields = true) (buffer : Buffer) :
    ∃ packed, packRow multiByteMaxLen s memory row buffer = .ok packed ∧
      (∀ i, i < s.nullBytes + fixedLengthOf (s.fields.filter (·.belongs 0)) ∨ s.blobStartOffset ≤ i →
        packed i = ((order s.fields).foldl (packOne multiByteMaxLen s memory row) (packStart s row buffer)).packedRow i) ∧
      (Whole 1 none s.fields →
        packed = ((order s.fields).foldl (packOne multiByteMaxLen s memory row) (packStart s row buffer)).packedRow) := by
  have hok : ∀ f ∈ s.fields, FieldOk f := fun f hf => hs.fieldOk hf
  have hlength : fixedLengthOf s.fields
      = fixedLengthOf (s.fields.filter (·.belongs 0)) + fixedLengthOf (s.fields.filter (·.belongs 1)) := by
    rw [← fixedLengthOf_append, ← order, fixedLengthOf_order]
  have hstart := hs.blobStartOffset
  have hnot : ¬(s.hasVariableLengthFields = false ∧ s.hasVirtualFields = false) := by
    intro ⟨h₁, h₂⟩
    rw [h₁, h₂] at hv
    exact hv.elim Bool.false_ne_true Bool.false_ne_true
  obtain ⟨p₁, hp₁, hz, hset⟩ := @packFields_pass multiByteMaxLen s memory row
    ⟨memcpy buffer 0 row 0 s.nullBytes, 0, 0, 0, s.nullBytes, 0⟩ 0 none s.fields hok rfl (hs.laid.whole (.inl rfl))
  have hbegin : Packing.settled row ⟨memcpy buffer 0 row 0 s.nullBytes, 0, 0, 0, s.nullBytes, 0⟩ = packStart s row buffer := rfl
  rw [hbegin] at hset
  have hset' := hset
  rw [Packing.settled, flush_of_zero row hz] at hset
  have hoffset : p₁.packedRowOffset = s.nullBytes + fixedLengthOf (s.fields.filter (·.belongs 0)) := by
    have := (packAll_image multiByteMaxLen s memory row (s.fields.filter (·.belongs 0)) (packStart s row buffer)
      (by show s.nullBytes + _ ≤ _; omega)).1
    rw [← hset] at this
    exact this
  have hunfold (packed : Buffer)
      (h : (if s.hasVirtualFields then (packFields multiByteMaxLen s memory row 1 s.fields p₁).map (·.packedRow)
        else .ok p₁.packedRow) = .ok packed) : packRow multiByteMaxLen s memory row buffer = .ok packed := by
    rw [packRow, if_neg hnot, hp₁, ← h]
    show (if s.hasVirtualFields = true then _ else _ : Except String Buffer) = _
    split_ifs
    · cases packFields multiByteMaxLen s memory row 1 s.fields p₁ <;> rfl
    · rfl
  rw [order, List.foldl_append, ← hset]
  by_cases hvirtual : s.hasVirtualFields = true
  · have hagree : Agree s (s.nullBytes + fixedLengthOf (s.fields.filter (·.belongs 0))) p₁
        ⟨p₁.packedRow, p₁.packedRowOffset, p₁.blobOffset⟩ :=
      ⟨rfl, rfl, Nat.le_of_eq hoffset.symm, fun h => absurd hz h, fun _ _ => rfl⟩
    obtain ⟨p₂, hp₂, hagree₂⟩ := @packFields_agree multiByteMaxLen s memory row 1 s.fields hok _ p₁ _ hagree
      (by show p₁.packedRowOffset + _ ≤ _; omega)
    refine ⟨p₂.packedRow, hunfold _ ?_, hagree₂.packedRow, fun hwhole => ?_⟩
    · rw [if_pos hvirtual, hp₂]
      rfl
    · obtain ⟨p₂', hp₂', hz₂, hset₂⟩ := @packFields_pass multiByteMaxLen s memory row p₁ 1 none s.fields hok hz hwhole
      obtain rfl : p₂ = p₂' := Except.ok.inj (hp₂.symm.trans hp₂')
      rw [hset', ← hset, Packing.settled, flush_of_zero row hz₂] at hset₂
      exact congrArg Packed.packedRow hset₂
  · have hnone : s.fields.filter (·.belongs 1) = [] :=
      order_of_no_virtual (hs.hasVirtualFields ▸ eq_false_iff.mpr hvirtual)
    rw [hnone]
    refine ⟨p₁.packedRow, hunfold _ ?_, fun _ _ => rfl, fun _ => rfl⟩
    rw [if_neg hvirtual]

theorem packRow_image (hs : WellFormed s) (hv : s.hasVariableLengthFields = true ∨ s.hasVirtualFields = true) (buffer : Buffer) :
    ∃ packed, packRow multiByteMaxLen s memory row buffer = .ok packed ∧
      bytes packed 0 s.nullBytes = bytes row 0 s.nullBytes ∧
      bytes packed s.nullBytes (fixedLengthOf (s.fields.filter (·.belongs 0)))
        = (s.fields.filter (·.belongs 0)).flatMap (fixedBytes row) ∧
      bytes packed s.blobStartOffset (entryLength multiByteMaxLen s memory row (order s.fields))
        = (order s.fields).flatMap (entry multiByteMaxLen s memory row) ∧
      (Whole 1 none s.fields →
        bytes packed s.nullBytes (fixedLengthOf (order s.fields)) = (order s.fields).flatMap (fixedBytes row)) := by
  obtain ⟨packed, hpacked, hagree, hwhole⟩ := @packRow_agrees multiByteMaxLen s memory row hs hv buffer
  obtain ⟨-, hfixed, hentry, hframe⟩ := packAll_image multiByteMaxLen s memory row (order s.fields) (packStart s row buffer)
    (by show s.nullBytes + _ ≤ _; rw [fixedLengthOf_order, hs.blobStartOffset])
  generalize (order s.fields).foldl (packOne multiByteMaxLen s memory row) (packStart s row buffer) = q at *
  have hstart : (packStart s row buffer).packedRowOffset = s.nullBytes := rfl
  have hblob : (packStart s row buffer).blobOffset = 0 := rfl
  rw [hstart] at hfixed hframe
  rw [hblob, Nat.add_zero] at hentry
  refine ⟨packed, hpacked, ?_, ?_, ?_, fun h => ?_⟩
  · refine (bytes_congr_outside fun i _ hi => ?_).trans (@bytes_memcpy buffer row 0 0 s.nullBytes)
    rw [hagree i (.inl (by omega)), hframe i (.inl (by omega))]
    rfl
  · rw [order, fixedLengthOf_append, List.flatMap_append] at hfixed
    have hlen : ((s.fields.filter (·.belongs 0)).flatMap (fixedBytes row)).length = fixedLengthOf (s.fields.filter (·.belongs 0)) :=
      length_flatMap_fixedBytes
    rw [← (bytes_split hfixed hlen).1]
    exact bytes_congr_outside fun i _ hi => hagree i (.inl (by omega))
  · rw [← hentry]
    exact bytes_congr_outside fun i hi _ => hagree i (.inr hi)
  · rw [hwhole h, hfixed]

end Packing

/-! ## Safe schemas -/

/-- No virtual column stands before an ordinary one, unless one of them is empty. -/
def VirtualLast (fs : List DeepField) : Prop :=
  fs.Pairwise fun f g => f.gcVirtual = true → g.gcVirtual = false → f.packLength = 0 ∨ g.packLength = 0

def Safe (multiByteMaxLen : Int → Nat) (s : SchemaBuilder) : Prop :=
  if s.hasVariableLengthFields then Whole 1 none s.fields ∧ ∀ f ∈ s.fields, TextFits multiByteMaxLen f
  else VirtualLast s.fields

section Unpacking

variable (multiByteMaxLen : Int → Nat) (s : SchemaBuilder) (memory row packed : Buffer) (blobBuffer : Nat) (memory' target : Buffer)

def unpackStart : Unpacked := ⟨memcpy target 0 packed 0 s.nullBytes, memory', s.nullBytes, 0, 0⟩

variable {s}

theorem unpackStart_behind {i : Nat} (h : s.nullBytes ≤ i) : (unpackStart s packed memory' target).unpackedRow i = target i := by
  show memcpy target 0 packed 0 s.nullBytes i = target i
  exact memcpy_outside (.inr (by omega))

/-- The first pass of unpackRow unpacks its columns one after the other. -/
theorem unpackRow_first (hs : WellFormed s) (hv : s.hasVariableLengthFields = true) :
    ∃ u : Unpacking, u.fixedLength = 0 ∧
      ⟨u.unpackedRow, u.memory, u.packedRowOffset, u.deepBlobOffset, u.blobField⟩
        = (s.fields.filter (·.belongs 0)).foldl (unpackOne s packed blobBuffer) (unpackStart s packed memory' target) ∧
      unpackRow s packed blobBuffer memory' target
        = ((if s.hasVirtualFields then unpackFields s packed blobBuffer 1 s.fields u else u).unpackedRow,
          (if s.hasVirtualFields then unpackFields s packed blobBuffer 1 s.fields u else u).memory) := by
  obtain ⟨hz, hset⟩ := @unpackFields_pass s packed blobBuffer
    ⟨memcpy target 0 packed 0 s.nullBytes, memory', 0, 0, 0, s.nullBytes, 0, 0⟩ none 0 s.fields (fun f hf => hs.fieldOk hf) rfl (hs.laid.whole (.inl rfl))
  rw [settled_of_zero packed hz] at hset
  refine ⟨_, hz, hset, ?_⟩
  rw [unpackRow, if_neg (by rw [hv]; exact Bool.noConfusion)]

/-- Whole runs: unpackRow unpacks all columns one after the other. -/
theorem unpackRow_whole (hs : WellFormed s) (hv : s.hasVariableLengthFields = true) (hwhole : Whole 1 none s.fields) :
    unpackRow s packed blobBuffer memory' target
      = (((order s.fields).foldl (unpackOne s packed blobBuffer) (unpackStart s packed memory' target)).unpackedRow,
        ((order s.fields).foldl (unpackOne s packed blobBuffer) (unpackStart s packed memory' target)).memory) := by
  obtain ⟨u, hz, hfirst, hunpack⟩ := unpackRow_first packed blobBuffer memory' target hs hv
  rw [hunpack, order, List.foldl_append, ← hfirst]
  by_cases hvirtual : s.hasVirtualFields = true
  · obtain ⟨hz₂, hset⟩ := @unpackFields_pass s packed blobBuffer u none 1 s.fields (fun f hf => hs.fieldOk hf) hz hwhole
    rw [settled_of_zero packed hz₂, settled_of_zero packed hz] at hset
    rw [if_pos hvirtual, ← hset]
  · rw [order_of_no_virtual (hs.hasVirtualFields ▸ eq_false_iff.mpr hvirtual), if_neg hvirtual]
    rfl

theorem WellFormed.columnOk (hs : WellFormed s) {row : Buffer} (hrow : RowFits row s) (hf : f ∈ s.fields) : ColumnOk row f :=
  ⟨hs.fieldOk hf, hs.packLength f hf, hrow f hf⟩

variable {memory row packed}

/-- What whole runs bring back: every column but a text without a byte, which is left alone. -/
theorem unpackRow_restored (hs : WellFormed s) (hv : s.hasVariableLengthFields = true) (hwhole : Whole 1 none s.fields)
    (hrow : RowFits row s) (hroom : blobBuffer + blobLength multiByteMaxLen row s.fields ≤ 256 ^ s.blobPtrSize)
    (hnull : bytes packed 0 s.nullBytes = bytes row 0 s.nullBytes)
    (hfixed : bytes packed s.nullBytes (fixedLengthOf (order s.fields)) = (order s.fields).flatMap (fixedBytes row))
    (hentry : bytes packed s.blobStartOffset (entryLength multiByteMaxLen s memory row (order s.fields))
      = (order s.fields).flatMap (entry multiByteMaxLen s memory row)) :
    let unpacked := unpackRow s packed blobBuffer memory' target
    bytes unpacked.1 0 s.nullBytes = bytes row 0 s.nullBytes ∧
      (∀ f ∈ s.fields, TextFits multiByteMaxLen f → Restored multiByteMaxLen memory row s unpacked.1 unpacked.2 f) ∧
      ∀ i, s.nullBytes ≤ i → (∀ f ∈ s.fields, Outside s f i ∨ NoText multiByteMaxLen row f) → unpacked.1 i = target i := by
  obtain ⟨hrestored, hframe, -⟩ := unpackAll_restored s memory packed blobBuffer
    (fun f hf => hs.columnOk hrow (mem_order.mp hf)) hs.laid.order_apart (unpackStart s packed memory' target) hfixed hentry
    (by rw [blobLength_order]; exact hroom)
  dsimp only
  rw [unpackRow_whole packed blobBuffer memory' target hs hv hwhole]
  refine ⟨?_, fun f hf => hrestored f (mem_order.mpr hf), fun i hi hout => ?_⟩
  · rw [← hnull, ← @bytes_memcpy target packed 0 0 s.nullBytes]
    refine bytes_congr_outside fun i _ hi => hframe i fun f hf => .inl (.inl ?_)
    have := (hs.laid.bounds (mem_order.mp hf)).1
    omega
  · exact (hframe i fun f hf => hout f (mem_order.mp hf)).trans (unpackStart_behind packed memory' target hi)

/-- Without variable columns the packed row is taken as it is. -/
theorem unpackRow_fixed (hs : WellFormed s) (hv : s.hasVariableLengthFields = false) {p n : Nat}
    (h : p + n ≤ s.nullBytes + (s.fields.map (·.room s)).sum) :
    bytes (unpackRow s packed blobBuffer memory' target).1 p n = bytes packed p n := by
  rw [unpackRow, if_pos hv]
  refine bytes_congr_outside fun i _ hi => ?_
  have hin : i < s.unpackedRowLength := by
    rw [hs.unpackedRowLength]
    omega
  have hcopy := @memcpy_inside target packed i 0 0 s.unpackedRowLength hin
  rw [Nat.zero_add] at hcopy
  exact hcopy

theorem isVariable_of_none (hs : WellFormed s) (hv : s.hasVariableLengthFields = false) : ∀ f ∈ s.fields, f.isVariable = false :=
  fun f hf => eq_false_iff.mpr (any_eq_false.mp (hs.hasVariableLengthFields ▸ hv) f hf)

theorem restored_fixed (hv : f.isVariable = false) {row' memory' : Buffer} :
    Restored multiByteMaxLen memory row s row' memory' f ↔ bytes row' f.valueOffset f.packLength = bytes row f.valueOffset f.packLength := by
  rw [Restored, hv, if_neg Bool.false_ne_true]

end Unpacking

/-! ## Virtual columns that come last -/

theorem virtualLast_cons : VirtualLast (f :: fs) ↔
    (∀ g ∈ fs, f.gcVirtual = true → g.gcVirtual = false → f.packLength = 0 ∨ g.packLength = 0) ∧ VirtualLast fs := List.pairwise_cons

theorem VirtualLast.whole (h : VirtualLast fs) (hv : ∀ f ∈ fs, f.isVariable = false) (hl : Laid s offset fs) {run : Option Nat}
    (hrun : run = none ∨ run = some offset ∧ ∀ g ∈ fs, g.gcVirtual = false → g.packLength = 0) : Whole 1 run fs := by
  induction fs generalizing offset run with
  | nil => trivial
  | cons f fs ih =>
    obtain ⟨hhead, htail⟩ := virtualLast_cons.mp h
    obtain ⟨hf, hrest⟩ := hl
    have hfixed := hv f mem_cons_self
    have hvrest : ∀ g ∈ fs, g.isVariable = false := (forall_mem_cons.mp hv).2
    rw [room_of_fixed hfixed] at hrest
    rw [Whole, belongs_one, hfixed, if_neg Bool.false_ne_true]
    by_cases hl : f.packLength = 0
    · rw [hl] at hrest
      have hrun' : run = none ∨ run = some (offset + 0) ∧ ∀ g ∈ fs, g.gcVirtual = false → g.packLength = 0 :=
        hrun.imp_right fun h => ⟨h.1, (forall_mem_cons.mp h.2).2⟩
      have hwhole := ih htail hvrest hrest hrun'
      rw [if_pos hl, if_neg Nat.one_ne_zero]
      split_ifs <;> exact hwhole
    · rw [if_neg hl, if_neg Nat.one_ne_zero]
      by_cases hg : f.gcVirtual = true
      · rw [if_pos hg, hf]
        refine ⟨hrun.imp_right And.left, ih htail hvrest hrest (.inr ⟨rfl, fun g hmem h => ?_⟩)⟩
        exact (hhead g hmem hg h).resolve_left hl
      · have hnone : run = none := hrun.resolve_right fun h => hl (h.2 f mem_cons_self (eq_false_iff.mpr hg))
        rw [if_neg hg]
        exact ih htail hvrest hrest (.inl hnone)

theorem flatMap_ordinary_empty {m : DeepField → List UInt8} (hm : ∀ f ∈ fs, (m f).length = f.packLength)
    (h : ∀ f ∈ fs, f.gcVirtual = false → f.packLength = 0) : (fs.filter (·.belongs 0)).flatMap m = [] := by
  rw [List.flatMap_eq_nil_iff]
  intro f hf
  obtain ⟨hf, hb⟩ := mem_filter.mp hf
  rw [belongs_zero, Bool.not_eq_true'] at hb
  rw [← List.length_eq_zero_iff, hm f hf, h f hf hb]

theorem VirtualLast.flatMap_order (h : VirtualLast fs) {m : DeepField → List UInt8} (hm : ∀ f ∈ fs, (m f).length = f.packLength) :
    (order fs).flatMap m = fs.flatMap m := by
  induction fs with
  | nil => rfl
  | cons f fs ih =>
    obtain ⟨hhead, htail⟩ := virtualLast_cons.mp h
    have hrest : ∀ g ∈ fs, (m g).length = g.packLength := (forall_mem_cons.mp hm).2
    have hih := ih htail hrest
    rw [order, List.flatMap_append] at hih ⊢
    rw [flatMap_cons, ← hih]
    by_cases hg : f.gcVirtual = true
    · rw [filter_cons_of_neg (by rw [belongs_zero, hg]; exact Bool.false_ne_true), filter_cons_of_pos (by rw [belongs_one, hg]),
        flatMap_cons]
      by_cases hl : f.packLength = 0
      · have hempty : m f = [] := List.length_eq_zero_iff.mp ((hm f mem_cons_self).trans hl)
        rw [hempty, nil_append, nil_append]
      · rw [flatMap_ordinary_empty hrest fun g hmem h => (hhead g hmem hg h).resolve_left hl, nil_append, nil_append]
    · rw [filter_cons_of_pos (by rw [belongs_zero, eq_false_iff.mpr hg]; rfl),
        filter_cons_of_neg (by rw [belongs_one]; exact hg), flatMap_cons, List.append_assoc]

/-- Bytes that tell a column's kind. -/
def marks (f : DeepField) : List UInt8 := List.replicate f.packLength (if f.gcVirtual then 1 else 0)

theorem length_marks : (marks f).length = f.packLength := List.length_replicate

/-- Where the marks of the ordinary columns come first, the virtual columns come last. -/
theorem virtualLast_of_marks {z : List UInt8}
    (h : fs.flatMap marks
      = (fs.filter (·.belongs 0)).flatMap marks ++ z) : VirtualLast fs := by
  induction fs generalizing z with
  | nil => exact List.Pairwise.nil
  | cons f fs ih =>
    rw [flatMap_cons] at h
    by_cases hg : f.gcVirtual = true
    · rw [filter_cons_of_neg (by rw [belongs_zero, hg]; exact Bool.false_ne_true)] at h
      by_cases hl : f.packLength = 0
      · rw [marks, hl, List.replicate_zero, nil_append] at h
        exact virtualLast_cons.mpr ⟨fun _ _ _ _ => .inl hl, ih h⟩
      · -- a virtual byte comes first, so there are no ordinary ones
        have hnone : ∀ g ∈ fs, g.gcVirtual = false → g.packLength = 0 := by
          intro g hmem hord
          by_contra hpos
          have hzero : ∀ x ∈ (fs.filter (·.belongs 0)).flatMap marks,
              x = (0 : UInt8) := by
            intro x hx
            obtain ⟨f', hf', hx⟩ := List.mem_flatMap.mp hx
            have hb := (mem_filter.mp hf').2
            rw [belongs_zero, Bool.not_eq_true'] at hb
            rw [marks, hb, if_neg Bool.false_ne_true] at hx
            exact (List.mem_replicate.mp hx).2
          have hmem0 : (0 : UInt8) ∈ (fs.filter (·.belongs 0)).flatMap
              marks := by
            refine List.mem_flatMap.mpr ⟨g, mem_filter.mpr ⟨hmem, by rw [belongs_zero, hord]; rfl⟩, ?_⟩
            rw [marks, hord, if_neg Bool.false_ne_true]
            exact List.mem_replicate.mpr ⟨hpos, rfl⟩
          generalize (fs.filter (·.belongs 0)).flatMap marks = ys at *
          obtain ⟨n, hn⟩ := Nat.exists_eq_succ_of_ne_zero hl
          cases ys with
          | nil => exact List.not_mem_nil hmem0
          | cons y ys =>
            rw [marks, hn, List.replicate_succ, hg, if_pos rfl, List.cons_append, List.cons_append] at h
            have hy := hzero y mem_cons_self
            rw [← (List.cons.inj h).1] at hy
            exact absurd hy (by decide)
        refine virtualLast_cons.mpr ⟨fun g hmem _ hord => .inr (hnone g hmem hord), @ih (fs.flatMap marks) ?_⟩
        rw [flatMap_ordinary_empty (fun _ _ => length_marks) hnone, nil_append]
    · rw [filter_cons_of_pos (by rw [belongs_zero, eq_false_iff.mpr hg]; rfl), flatMap_cons, List.append_assoc] at h
      exact virtualLast_cons.mpr ⟨fun _ _ h => absurd h hg, ih (List.append_cancel_left h)⟩

/-! ## Rows of safe schemas -/

theorem sum_room (h : Laid s offset fs) (hv : ∀ f ∈ fs, f.isVariable = false) : (fs.map (·.room s)).sum = fixedLengthOf fs := by
  have hlen := congrArg List.length (h.flatMap_fixedBytes hv fun _ => 0)
  rw [length_flatMap_fixedBytes, length_bytes] at hlen
  exact hlen.symm

theorem length_fixedBytes {row : Buffer} (hv : f.isVariable = false) : (fixedBytes row f).length = f.packLength := by
  rw [fixedBytes, hv, if_neg Bool.false_ne_true, length_bytes]

/-- Without variable columns, a packed row whose virtual columns come last is the row itself. -/
theorem bytes_of_virtualLast (hs : WellFormed s) (hfixed : ∀ f ∈ s.fields, f.isVariable = false) (h : VirtualLast s.fields) {packed row : Buffer}
    (hpacked : bytes packed s.nullBytes (fixedLengthOf (order s.fields)) = (order s.fields).flatMap (fixedBytes row)) (hf : f ∈ s.fields) :
    bytes packed f.valueOffset f.packLength = bytes row f.valueOffset f.packLength := by
  have hbounds := hs.laid.bounds hf
  rw [room_of_fixed (hfixed f hf), sum_room hs.laid hfixed] at hbounds
  rw [h.flatMap_order fun g hg => length_fixedBytes (hfixed g hg), hs.laid.flatMap_fixedBytes hfixed, sum_room hs.laid hfixed,
    fixedLengthOf_order, bytes_inj] at hpacked
  refine bytes_inj.mpr fun i hi => ?_
  have hat := hpacked (f.valueOffset - s.nullBytes + i) (by omega)
  have hadd : s.nullBytes + (f.valueOffset - s.nullBytes + i) = f.valueOffset + i := by omega
  rw [hadd] at hat
  exact hat

theorem roundTrips_of_safe (multiByteMaxLen : Int → Nat) (hs : WellFormed s) (h : Safe multiByteMaxLen s) : RoundTrips multiByteMaxLen s := by
  intro memory row buffer memory' target blobBuffer hrow hroom
  rw [Safe] at h
  by_cases hv : s.hasVariableLengthFields = true
  · rw [if_pos hv] at h
    obtain ⟨hwhole, htext⟩ := h
    obtain ⟨packed, hpacked, hnull, -, hentry, hfixed⟩ := @packRow_image multiByteMaxLen s memory row hs (.inl hv) buffer
    obtain ⟨hnull', hrestored, -⟩ := unpackRow_restored multiByteMaxLen blobBuffer memory' target hs hv hwhole hrow hroom hnull
      (hfixed hwhole) hentry
    exact ⟨packed, hpacked, hnull', fun f hf => hrestored f hf (htext f hf)⟩
  · rw [if_neg hv] at h
    have hv' : s.hasVariableLengthFields = false := eq_false_iff.mpr hv
    have hall := isVariable_of_none hs hv'
    have hback (packed : Buffer) (hnull : bytes packed 0 s.nullBytes = bytes row 0 s.nullBytes)
        (hsame : ∀ f ∈ s.fields, bytes packed f.valueOffset f.packLength = bytes row f.valueOffset f.packLength) :
        bytes (unpackRow s packed blobBuffer memory' target).1 0 s.nullBytes = bytes row 0 s.nullBytes ∧
          ∀ f ∈ s.fields, Restored multiByteMaxLen memory row s (unpackRow s packed blobBuffer memory' target).1
            (unpackRow s packed blobBuffer memory' target).2 f := by
      refine ⟨?_, fun f hf => ?_⟩
      · rw [unpackRow_fixed blobBuffer memory' target hs hv' (by omega), hnull]
      · have hbounds := (hs.laid.bounds hf).2
        rw [room_of_fixed (hall f hf)] at hbounds
        rw [restored_fixed multiByteMaxLen (hall f hf), unpackRow_fixed blobBuffer memory' target hs hv' hbounds]
        exact hsame f hf
    by_cases hvirtual : s.hasVirtualFields = true
    · obtain ⟨packed, hpacked, hnull, -, -, hfixed⟩ := @packRow_image multiByteMaxLen s memory row hs (.inr hvirtual) buffer
      exact ⟨packed, hpacked, hback packed hnull fun f hf =>
        bytes_of_virtualLast hs hall h (hfixed (h.whole hall hs.laid (.inl rfl))) hf⟩
    · refine ⟨row, ?_, hback row rfl fun _ _ => rfl⟩
      rw [packRow, if_pos ⟨hv', eq_false_iff.mpr hvirtual⟩]

/-! ## Rows of the others -/

section Converse

variable (multiByteMaxLen : Int → Nat)

theorem load_zero {b : Buffer} {p n : Nat} (h : ∀ i < n, b (p + i) = 0) : load b p n = 0 := by
  have hbytes : ∀ i < n, b (p + i) = UInt8.ofNat (0 / 256 ^ i) := fun i hi => by rw [h i hi, Nat.zero_div]; rfl
  rw [load_leBytes hbytes, Nat.zero_mod]

/-- A row whose varchars and blobs are empty fits, and needs no blob data. -/
theorem empty_fits (hs : WellFormed s) {row : Buffer}
    (h : ∀ f ∈ s.fields, f.isVariableLengthVarchar = true ∨ f.type = .blob → ∀ i < f.packLength, row (f.valueOffset + i) = 0) :
    RowFits row s ∧ blobLength multiByteMaxLen row s.fields = 0 := by
  refine ⟨fun f hf hvar _ => ?_, ?_⟩
  · have hle := (hs.varchar f hf hvar).2
    rw [load_zero fun i hi => h f hf (.inl hvar) i (by omega), Nat.add_zero]
    exact hle
  · rw [blobLength, List.sum_eq_zero_iff_forall_eq_nat]
    intro n hn
    obtain ⟨f, hf, rfl⟩ := List.mem_map.mp hn
    obtain ⟨hf, hblob⟩ := mem_filter.mp hf
    rw [Bool.and_eq_true, Bool.not_eq_true', decide_eq_true_iff] at hblob
    obtain ⟨hvar, hb⟩ := hblob
    have hlen := (hs.blob f hf hvar hb).1
    rw [blobLen, hvar, if_neg Bool.false_ne_true, if_pos hb, load_zero fun i hi => h f hf (.inr hb) i (by omega), ite_self]

/-- Without variable columns, a virtual one before an ordinary one changes places with it. -/
theorem virtualLast_of_roundTrips (hs : WellFormed s) (hv : s.hasVariableLengthFields = false) (h : RoundTrips multiByteMaxLen s) :
    VirtualLast s.fields := by
  have hall := isVariable_of_none hs hv
  by_cases hvirtual : s.hasVirtualFields = true
  · let row : Buffer := fun i =>
      if ∃ f ∈ s.fields, f.gcVirtual = true ∧ f.valueOffset ≤ i ∧ i < f.valueOffset + f.packLength then 1 else 0
    have hmarks : ∀ f ∈ s.fields, fixedBytes row f = marks f := by
      intro f hf
      rw [fixedBytes, hall f hf, if_neg Bool.false_ne_true, marks, List.eq_replicate_iff]
      refine ⟨length_bytes, fun b hb => ?_⟩
      obtain ⟨i, hi, rfl⟩ := List.mem_map.mp hb
      have hi := List.mem_range.mp hi
      by_cases hg : f.gcVirtual = true
      · rw [if_pos hg]
        exact if_pos ⟨f, hf, hg, by omega, by omega⟩
      · rw [if_neg hg]
        refine if_neg ?_
        rintro ⟨g, hg', hgv, h₁, h₂⟩
        have hne : f ≠ g := fun heq => hg (heq ▸ hgv)
        have hap := hs.laid.apart_of_ne hf hg' hne
        rw [Apart, room_of_fixed (hall f hf), room_of_fixed (hall g hg')] at hap
        omega
    have hempty := @empty_fits s multiByteMaxLen hs row fun f hf hkind => by
      have hvariable : f.isVariable = true := decide_eq_true (hkind.imp_right .inl)
      rw [hall f hf] at hvariable
      cases hvariable
    obtain ⟨packed, hpacked, -, hfixed, -, -⟩ := @packRow_image multiByteMaxLen s row row hs (.inr hvirtual) row
    obtain ⟨packed', hpacked', -, hrestored⟩ := h row row row row row 0 hempty.1
      (by rw [hempty.2]; exact Nat.zero_le _)
    obtain rfl : packed = packed' := Except.ok.inj (hpacked.symm.trans hpacked')
    have hsame : ∀ f ∈ s.fields, fixedBytes packed f = marks f := by
      intro f hf
      have hbounds := (hs.laid.bounds hf).2
      rw [room_of_fixed (hall f hf)] at hbounds
      have hback := (restored_fixed multiByteMaxLen (hall f hf)).mp (hrestored f hf)
      rw [unpackRow_fixed 0 row row hs hv hbounds] at hback
      rw [← hmarks f hf, fixedBytes, fixedBytes, hback]
    have hbytes := hs.laid.flatMap_fixedBytes hall packed
    have hlength : (s.fields.map (·.room s)).sum
        = fixedLengthOf (s.fields.filter (·.belongs 0)) + fixedLengthOf (s.fields.filter (·.belongs 1)) := by
      rw [sum_room hs.laid hall, ← fixedLengthOf_order, order, fixedLengthOf_append]
    rw [hlength, bytes_append, hfixed, List.flatMap_congr hsame,
      List.flatMap_congr fun f hf => hmarks f (List.mem_of_mem_filter hf)] at hbytes
    exact virtualLast_of_marks hbytes
  · have hnone : ∀ f ∈ s.fields, ¬f.gcVirtual = true :=
      any_eq_false.mp (hs.hasVirtualFields ▸ eq_false_iff.mpr hvirtual)
    exact List.pairwise_iff_forall_sublist.mpr fun hsub hg => absurd hg (hnone _ (hsub.subset mem_cons_self))

theorem stripSpaces_spaces {value : Buffer} {ptr n : Nat} (h : ∀ i < n, value (ptr + i) = 0x20) : stripSpaces value ptr 0 n = 0 := by
  induction n with
  | zero => rfl
  | succ n ih =>
    rw [stripSpaces, if_pos ⟨Nat.succ_pos n, h n (Nat.lt_succ_self n)⟩]
    exact ih fun i hi => h i (Nat.lt_succ_of_lt hi)

theorem not_null (hs : WellFormed s) (hf : f ∈ s.fields) {row : Buffer} (h : ∀ i < s.nullBytes, row i = 0) : f.isNull row = false := by
  refine decide_eq_false (not_not.mpr ?_)
  rcases hs.nullable f hf with hbit | hoff
  · rw [hbit, UInt8.and_zero]
  · rw [h _ hoff, UInt8.zero_and]

/-- A text without room for a character of its set loses its spaces when it has nothing else. -/
theorem textFits_of_roundTrips (hs : WellFormed s) (hv : s.hasVariableLengthFields = true) (hwhole : Whole 1 none s.fields)
    (h : RoundTrips multiByteMaxLen s) (hf : f ∈ s.fields) : TextFits multiByteMaxLen f := by
  intro hvar ht
  by_contra hbad
  rw [not_or, Nat.not_lt, Nat.le_zero] at hbad
  obtain ⟨hpos, hzero⟩ := hbad
  have hvariable : f.isVariable = true := decide_eq_true (.inr (.inr ht))
  have hnotblob : ¬f.type = .blob := by
    rw [ht]
    decide
  have hroom : f.room s = f.packLength := room_of_not_blob s fun h => hnotblob h.2
  have hbounds := (hs.laid.bounds hf).1
  let row : Buffer := fun i => if f.valueOffset ≤ i ∧ i < f.valueOffset + f.packLength then 0x20 else 0
  have hspaces : ∀ i < f.packLength, row (f.valueOffset + i) = 0x20 := fun i hi => if_pos (by omega)
  have hnull : f.isNull row = false := not_null hs hf fun i hi => if_neg (by omega)
  have hempty := @empty_fits s multiByteMaxLen hs row fun g hg hkind i hi => by
    have hne : g ≠ f := by
      rintro rfl
      rcases hkind with hkind | hkind
      · exact absurd hvar (Bool.not_eq_false _ ▸ hkind)
      · exact hnotblob hkind
    have hap := hs.laid.apart_of_ne hg hf hne
    have hle : g.packLength ≤ g.room s := by
      rw [DeepField.room]
      split_ifs with hb
      · have := (hs.blob g hg (eq_false_iff.mpr hb.1) hb.2).1
        omega
      · exact Nat.le_refl _
    rw [Apart, hroom] at hap
    exact if_neg (by omega)
  have hlen : blobLen multiByteMaxLen row f = 0 := by
    rw [blobLen, hnull, if_neg Bool.false_ne_true, hvar, if_neg Bool.false_ne_true, if_neg hnotblob, getMultiByteTextLength, hzero]
    exact stripSpaces_spaces hspaces
  have hfit : 0 + blobLength multiByteMaxLen row s.fields ≤ 256 ^ s.blobPtrSize := by
    rw [hempty.2]
    exact Nat.zero_le _
  obtain ⟨packed, hpacked, hnulls, -, hentry, hfixed⟩ := @packRow_image multiByteMaxLen s row row hs (.inl hv) row
  obtain ⟨packed', hpacked', -, hrestored⟩ := h row row row row (fun _ => 0) 0 hempty.1 hfit
  obtain rfl : packed = packed' := Except.ok.inj (hpacked.symm.trans hpacked')
  obtain ⟨-, -, hframe⟩ := unpackRow_restored multiByteMaxLen 0 row (fun _ => 0) hs hv hwhole hempty.1 hfit hnulls
    (hfixed hwhole) hentry
  have hleft := hframe f.valueOffset hbounds fun g hg => by
    by_cases heq : g = f
    · exact .inr (heq ▸ ⟨hvar, ht, hlen⟩)
    · have hap := hs.laid.apart_of_ne hg hf heq
      rw [Apart, hroom] at hap
      exact .inl (by rw [Outside]; omega)
  have hback := hrestored f hf
  rw [Restored, if_pos hvariable] at hback
  have hback := hback hnull
  rw [hvar, if_neg Bool.false_ne_true, if_neg hnotblob, bytes_inj] at hback
  have hbyte := hback 0 (Nat.pos_of_ne_zero hpos)
  rw [hspaces 0 (Nat.pos_of_ne_zero hpos), Nat.add_zero, hleft] at hbyte
  exact absurd hbyte (by decide)

/-! A second pass whose runs are not whole. -/

section Broken

variable {memory row packed : Buffer} {blobBuffer : Nat}

/-- The entries of columns come next, and there is room for their blob data. -/
structure EntriesAt (s : SchemaBuilder) (memory row packed : Buffer) (blobBuffer blobField deepBlobOffset : Nat) (fs : List DeepField) : Prop where
  entries : bytes packed (getPackedRowOffset s packed blobField) (entryLength multiByteMaxLen s memory row fs)
    = fs.flatMap (entry multiByteMaxLen s memory row)
  room : blobBuffer + deepBlobOffset + blobLength multiByteMaxLen row fs ≤ 256 ^ s.blobPtrSize

/-- A variable column whose entry comes next: nothing changes but its own bytes and those of the run that it ends. -/
theorem unpackField_entry (hf : ColumnOk row f) (hv : f.isVariable = true) {u : Unpacking}
    (h : EntriesAt multiByteMaxLen s memory row packed blobBuffer u.blobField u.deepBlobOffset (f :: fs)) :
    let u' := unpackField s packed blobBuffer u f
    u'.fixedLength = 0 ∧ EntriesAt multiByteMaxLen s memory row packed blobBuffer u'.blobField u'.deepBlobOffset fs ∧
      ∀ i, Outside s f i → u.fixedLength = 0 ∨ i < u.unpackedFixedPtr ∨ u.unpackedFixedPtr + u.fixedLength ≤ i →
        u'.unpackedRow i = u.unpackedRow i := by
  obtain ⟨hentry, hroom⟩ := h
  rw [entryLength_cons, flatMap_cons] at hentry
  rw [blobLength_cons] at hroom
  obtain ⟨he, hentry⟩ := bytes_split hentry rfl
  rw [entry, if_pos hv, List.length_append, length_leBytes, length_bytes] at he
  obtain ⟨hlen, hdata⟩ := bytes_split he length_leBytes
  have hload : load packed (getPackedRowOffset s packed u.blobField) 4 = blobLen multiByteMaxLen row f := by
    rw [load_leBytes (bytes_eq_leBytes.mp hlen), Nat.mod_eq_of_lt (blobLen_lt multiByteMaxLen row hf.toFieldOk hf.small)]
  obtain ⟨hz, hset⟩ := unpackField_variable s packed blobBuffer hf.toFieldOk hv u
  obtain ⟨heq, hframe, -⟩ := unpackOne_variable s memory packed blobBuffer hf hv (u.settled packed) hload hdata (by
    show blobBuffer + u.deepBlobOffset + _ ≤ _
    omega)
  rw [settled_of_zero packed hz] at hset
  rw [← hset] at heq hframe
  dsimp only
  generalize unpackField s packed blobBuffer u f = u' at *
  obtain ⟨-, -, -, hdeep, hfield⟩ := Unpacked.mk.injEq .. ▸ heq
  refine ⟨hz, ⟨?_, ?_⟩, fun i hi hrun => ?_⟩
  · have hnext : getPackedRowOffset s packed u'.blobField
        = getPackedRowOffset s packed u.blobField + (entry multiByteMaxLen s memory row f).length := by
      rw [hfield, length_entry multiByteMaxLen s memory row hv, ← hload, Nat.add_comm 4]
      rfl
    rw [hnext]
    exact hentry
  · have hdeep' : u'.deepBlobOffset = u.deepBlobOffset + blobLength multiByteMaxLen row [f] := hdeep
    rw [hdeep']
    omega
  · refine (hframe i (.inl hi)).trans ?_
    show (u.flush packed).unpackedRow i = _
    unfold Unpacking.flush
    by_cases hz : u.fixedLength = 0
    · rw [if_neg (not_not.mpr hz)]
    · rw [if_pos hz]
      exact memcpy_outside (hrun.resolve_left hz)

/-- A fixed column only makes the run longer, or begins one. -/
theorem unpackField_run (hv : f.isVariable = false) (u : Unpacking) :
    let u' := unpackField s packed blobBuffer u f
    u'.unpackedRow = u.unpackedRow ∧ u'.blobField = u.blobField ∧ u'.deepBlobOffset = u.deepBlobOffset ∧
      u'.unpackedFixedPtr = (if u.fixedLength = 0 then f.valueOffset else u.unpackedFixedPtr) ∧
      u'.fixedLength = u.fixedLength + f.packLength := by
  have hnot : ¬f.isVariableLengthVarchar = true ∧ ¬f.type = .blob ∧ ¬f.type = .textMultibyte := by
    have h := of_decide_eq_false hv
    rw [not_or, not_or] at h
    exact h
  rw [unpackField, if_neg hnot.1, if_neg hnot.2.1, if_neg hnot.2.2]
  by_cases hz : u.fixedLength = 0
  · rw [if_pos hz]
    exact ⟨rfl, rfl, rfl, (if_pos hz).symm, rfl⟩
  · rw [if_neg hz]
    exact ⟨rfl, rfl, rfl, (if_neg hz).symm, rfl⟩

theorem unpackFields_ordinary (hg : ¬f.gcVirtual = true) (u : Unpacking) :
    unpackFields s packed blobBuffer 1 (f :: fs) u = unpackFields s packed blobBuffer 1 fs u := by
  rw [unpackFields, if_neg hg, if_pos rfl]

theorem EntriesAt.of_fixed {blobField deepBlobOffset : Nat} (hv : f.isVariable = false)
    (h : EntriesAt multiByteMaxLen s memory row packed blobBuffer blobField deepBlobOffset (f :: fs)) :
    EntriesAt multiByteMaxLen s memory row packed blobBuffer blobField deepBlobOffset fs := by
  obtain ⟨hentry, hroom⟩ := h
  have hnone : entry multiByteMaxLen s memory row f = [] := by
    rw [entry, hv, if_neg Bool.false_ne_true]
  rw [entryLength_cons, flatMap_cons, hnone, List.length_nil, Nat.zero_add, nil_append] at hentry
  rw [blobLength_cons] at hroom
  exact ⟨hentry, by omega⟩

variable {multiByteMaxLen}

/-- What lies ahead of the columns to come, and of the run at hand, stays. -/
theorem unpackFields_stay (hok : ∀ f ∈ fs, ColumnOk row f) (hl : Laid s offset fs) {u : Unpacking}
    (h : EntriesAt multiByteMaxLen s memory row packed blobBuffer u.blobField u.deepBlobOffset (fs.filter (·.belongs 1))) {x : Nat}
    (hx : x < offset) (hrun : u.fixedLength = 0 ∨ x < u.unpackedFixedPtr) :
    (unpackFields s packed blobBuffer 1 fs u).unpackedRow x = u.unpackedRow x := by
  induction fs generalizing offset u with
  | nil =>
    rw [unpackFields, Unpacking.flush]
    by_cases hz : u.fixedLength = 0
    · rw [if_neg (not_not.mpr hz)]
    · rw [if_pos hz]
      exact memcpy_outside (.inl (hrun.resolve_left hz))
  | cons f fs ih =>
    obtain ⟨hf, hrest⟩ := hl
    have hokrest : ∀ g ∈ fs, ColumnOk row g := (forall_mem_cons.mp hok).2
    by_cases hg : f.gcVirtual = true
    · have hb : f.belongs 1 = true := belongs_one.trans hg
      rw [filter_cons_of_pos hb] at h
      rw [unpackFields_belongs s packed blobBuffer hb]
      by_cases hv : f.isVariable = true
      · obtain ⟨hz, h', hframe⟩ := unpackField_entry multiByteMaxLen (hok f mem_cons_self) hv h
        rw [ih hokrest hrest h' (by omega) (.inl hz)]
        exact hframe x (.inl (by omega)) (hrun.imp_right .inl)
      · have hv' : f.isVariable = false := eq_false_iff.mpr hv
        obtain ⟨hrow, hfield, hdeep, hptr, -⟩ := @unpackField_run s f packed blobBuffer hv' u
        rw [ih hokrest hrest (by rw [hfield, hdeep]; exact h.of_fixed multiByteMaxLen hv') (by omega) (.inr ?_), hrow]
        rw [hptr]
        split_ifs with hz
        · omega
        · exact hrun.resolve_left hz
    · rw [filter_cons_of_neg (by rw [belongs_one]; exact hg)] at h
      rw [unpackFields_ordinary hg]
      exact ih hokrest hrest h (by omega) hrun

/-- A byte of a fixed virtual column. -/
def VirtualByte (fs : List DeepField) (x : Nat) : Prop :=
  ∃ f ∈ fs, f.gcVirtual = true ∧ f.isVariable = false ∧ f.valueOffset ≤ x ∧ x < f.valueOffset + f.packLength

/-- A run that has fallen behind: the last byte of its last column is not in it, and never will be. -/
theorem unpackFields_behind {all : List DeepField} (hall : ∀ f ∈ fs, f ∈ all) (hok : ∀ f ∈ fs, ColumnOk row f) (hl : Laid s offset fs)
    {u : Unpacking} (h : EntriesAt multiByteMaxLen s memory row packed blobBuffer u.blobField u.deepBlobOffset (fs.filter (·.belongs 1)))
    {y : Nat} (hy : y < offset) (hbyte : VirtualByte all y) (hz : u.fixedLength ≠ 0) (hrun : u.unpackedFixedPtr + u.fixedLength ≤ y) :
    ∃ x, y ≤ x ∧ VirtualByte all x ∧ (unpackFields s packed blobBuffer 1 fs u).unpackedRow x = u.unpackedRow x := by
  induction fs generalizing offset u y with
  | nil =>
    refine ⟨y, Nat.le_refl y, hbyte, ?_⟩
    rw [unpackFields, Unpacking.flush, if_pos hz]
    exact memcpy_outside (.inr hrun)
  | cons f fs ih =>
    obtain ⟨hf, hrest⟩ := hl
    have hallrest : ∀ g ∈ fs, g ∈ all := (forall_mem_cons.mp hall).2
    have hokrest : ∀ g ∈ fs, ColumnOk row g := (forall_mem_cons.mp hok).2
    by_cases hg : f.gcVirtual = true
    · have hb : f.belongs 1 = true := belongs_one.trans hg
      rw [filter_cons_of_pos hb] at h
      rw [unpackFields_belongs s packed blobBuffer hb]
      by_cases hv : f.isVariable = true
      · obtain ⟨hz', h', hframe⟩ := unpackField_entry multiByteMaxLen (hok f mem_cons_self) hv h
        refine ⟨y, Nat.le_refl y, hbyte, ?_⟩
        rw [unpackFields_stay hokrest hrest h' (by omega) (.inl hz')]
        exact hframe y (.inl (by omega)) (.inr (.inr hrun))
      · have hv' : f.isVariable = false := eq_false_iff.mpr hv
        obtain ⟨hrow, hfield, hdeep, hptr, hlen⟩ := @unpackField_run s f packed blobBuffer hv' u
        have h' := h.of_fixed multiByteMaxLen hv'
        rw [← hfield, ← hdeep] at h'
        rw [if_neg hz] at hptr
        rw [← hrow]
        rw [room_of_fixed hv'] at hrest
        by_cases hl : f.packLength = 0
        · exact ih hallrest hokrest hrest h' (by omega) hbyte (by omega) (by omega)
        · -- the run grows by the column's length, its last column's end by as much or more
          obtain ⟨x, hx, hxbyte, hsame⟩ := @ih (offset + f.packLength) hallrest hokrest hrest _ h' (offset + f.packLength - 1) (by omega)
            ⟨f, hall f mem_cons_self, hg, hv', by omega, by omega⟩ (by omega) (by omega)
          exact ⟨x, by omega, hxbyte, hsame⟩
    · rw [filter_cons_of_neg (by rw [belongs_one]; exact hg)] at h
      rw [unpackFields_ordinary hg]
      exact ih hallrest hokrest hrest h (by omega) hbyte hz hrun

/-- Runs that are not whole leave out a byte of a fixed virtual column. -/
theorem unpackFields_broken {all : List DeepField} (hall : ∀ f ∈ fs, f ∈ all) (hok : ∀ f ∈ fs, ColumnOk row f) (hl : Laid s offset fs)
    {u : Unpacking} (h : EntriesAt multiByteMaxLen s memory row packed blobBuffer u.blobField u.deepBlobOffset (fs.filter (·.belongs 1)))
    {run : Option Nat} (hrun : UnpackRunAt u run) (hend : ∀ e, run = some e → e ≤ offset) (hbroken : ¬Whole 1 run fs) :
    ∃ x, offset ≤ x ∧ VirtualByte all x ∧ (unpackFields s packed blobBuffer 1 fs u).unpackedRow x = u.unpackedRow x := by
  induction fs generalizing offset u run with
  | nil => exact absurd trivial hbroken
  | cons f fs ih =>
    obtain ⟨hf, hrest⟩ := hl
    have hallrest : ∀ g ∈ fs, g ∈ all := (forall_mem_cons.mp hall).2
    have hokrest : ∀ g ∈ fs, ColumnOk row g := (forall_mem_cons.mp hok).2
    rw [Whole] at hbroken
    by_cases hg : f.gcVirtual = true
    · have hb : f.belongs 1 = true := belongs_one.trans hg
      rw [filter_cons_of_pos hb] at h
      rw [if_pos hb] at hbroken
      rw [unpackFields_belongs s packed blobBuffer hb]
      by_cases hv : f.isVariable = true
      · obtain ⟨hz, h', hframe⟩ := unpackField_entry multiByteMaxLen (hok f mem_cons_self) hv h
        rw [if_pos hv] at hbroken
        have hnorun : UnpackRunAt (unpackField s packed blobBuffer u f) none := hz
        obtain ⟨x, hx, hbyte, hsame⟩ := ih hallrest hokrest hrest h' hnorun (fun _ h => by cases h) hbroken
        refine ⟨x, by omega, hbyte, hsame.trans (hframe x (.inr (by omega)) ?_)⟩
        -- the run at hand ends ahead of the column
        cases run with
        | none => exact .inl hrun
        | some e =>
          have := hend e rfl
          have := hrun.2.1
          exact .inr (.inr (by omega))
      · have hv' : f.isVariable = false := eq_false_iff.mpr hv
        obtain ⟨hrow, hfield, hdeep, hptr, hlen⟩ := @unpackField_run s f packed blobBuffer hv' u
        have h' := h.of_fixed multiByteMaxLen hv'
        rw [← hfield, ← hdeep] at h'
        rw [room_of_fixed hv'] at hrest
        rw [if_neg hv] at hbroken
        by_cases hl : f.packLength = 0
        · rw [if_pos hl] at hbroken
          have hrun' := (unpackField_fixed s packed blobBuffer hv' hrun (.inl hl)).1
          rw [if_pos hl] at hrun'
          rw [hl] at hrest
          obtain ⟨x, hx, hbyte, hsame⟩ := ih hallrest hokrest hrest h' hrun' hend hbroken
          exact ⟨x, hx, hbyte, by rw [hsame, hrow]⟩
        · rw [if_neg hl] at hbroken
          by_cases hgoes : run = none ∨ run = some f.valueOffset
          · have hrun' := (unpackField_fixed s packed blobBuffer hv' hrun (.inr hgoes)).1
            rw [if_neg hl] at hrun'
            obtain ⟨x, hx, hbyte, hsame⟩ := ih hallrest hokrest hrest h' hrun' (fun e he => by
              have := Option.some.inj he
              omega) fun hwhole => hbroken ⟨hgoes, hwhole⟩
            exact ⟨x, by omega, hbyte, by rw [hsame, hrow]⟩
          · -- the column begins behind the end of the run, and is copied from there
            cases run with
            | none => exact absurd (.inl rfl) hgoes
            | some e =>
              have hle := hend e rfl
              have hne : e ≠ f.valueOffset := fun heq => hgoes (.inr (congrArg some heq))
              obtain ⟨hz, hufp, -⟩ := hrun
              rw [if_neg hz] at hptr
              obtain ⟨x, hx, hbyte, hsame⟩ := @unpackFields_behind s fs (offset + f.packLength) multiByteMaxLen memory row packed blobBuffer
                all hallrest hokrest hrest _ h' (offset + f.packLength - 1) (by omega)
                ⟨f, hall f mem_cons_self, hg, hv', by omega, by omega⟩ (by omega) (by omega)
              exact ⟨x, by omega, hbyte, by rw [hsame, hrow]⟩
    · rw [filter_cons_of_neg (by rw [belongs_one]; exact hg)] at h
      rw [if_neg (by rw [belongs_one]; exact hg), if_neg Nat.one_ne_zero] at hbroken
      rw [unpackFields_ordinary hg]
      obtain ⟨x, hx, hbyte, hsame⟩ := ih hallrest hokrest hrest h hrun (fun e he => Nat.le_add_right_of_le (hend e he)) hbroken
      exact ⟨x, by omega, hbyte, hsame⟩

end Broken

theorem whole_of_no_virtual (h : ∀ f ∈ fs, ¬f.gcVirtual = true) (run : Option Nat) : Whole 1 run fs := by
  induction fs with
  | nil => trivial
  | cons f fs ih =>
    rw [Whole, if_neg (by rw [belongs_one]; exact h f mem_cons_self), if_neg Nat.one_ne_zero]
    exact ih (forall_mem_cons.mp h).2

/-- A row of zeros shows a byte that the second pass leaves out. -/
theorem whole_of_roundTrips (hs : WellFormed s) (hv : s.hasVariableLengthFields = true) (h : RoundTrips multiByteMaxLen s) :
    Whole 1 none s.fields := by
  by_contra hbroken
  have hvirtual : s.hasVirtualFields = true := by
    by_contra hnone
    exact hbroken (whole_of_no_virtual (any_eq_false.mp (hs.hasVirtualFields ▸ eq_false_iff.mpr hnone)) none)
  let row : Buffer := fun _ => 0
  let target : Buffer := fun _ => 1
  have hempty := @empty_fits s multiByteMaxLen hs row fun _ _ _ _ _ => rfl
  have hblob (fs gs : List DeepField) (h : order s.fields = fs ++ gs) :
      blobLength multiByteMaxLen row fs = 0 ∧ blobLength multiByteMaxLen row gs = 0 := by
    have hall := @blobLength_order s.fields multiByteMaxLen row
    rw [hempty.2, h, blobLength_append] at hall
    omega
  obtain ⟨hblob₀, hblob₁⟩ := hblob _ _ rfl
  obtain ⟨packed, hpacked, hnull, hfixed, hentry, -⟩ := @packRow_image multiByteMaxLen s row row hs (.inl hv) row
  obtain ⟨packed', hpacked', -, hrestored⟩ := h row row row row target 0 hempty.1 (by rw [hempty.2]; exact Nat.zero_le _)
  obtain rfl : packed = packed' := Except.ok.inj (hpacked.symm.trans hpacked')
  rw [order, entryLength_append, List.flatMap_append] at hentry
  obtain ⟨hentry₀, hentry₁⟩ := bytes_split hentry length_flatMap_entry
  obtain ⟨u, hz, hfirst, hunpack⟩ := unpackRow_first packed 0 row target hs hv
  rw [if_pos hvirtual] at hunpack
  have hok : ∀ f ∈ s.fields, ColumnOk row f := fun f hf => hs.columnOk hempty.1 hf
  obtain ⟨-, hframe, -, hoffset, hdeep⟩ := unpackAll_restored s row packed 0
    (fun f hf => hok f (List.mem_of_mem_filter hf)) (hs.laid.apart.filter _) (unpackStart s packed row target) hfixed hentry₀
    (by rw [hblob₀]; exact Nat.zero_le _)
  rw [← hfirst] at hframe hoffset hdeep
  have hentries : EntriesAt multiByteMaxLen s row row packed 0 u.blobField u.deepBlobOffset (s.fields.filter (·.belongs 1)) := by
    refine ⟨?_, ?_⟩
    · rw [← hentry₁]
      exact congrArg (bytes packed · _) hoffset
    · have hstart : u.deepBlobOffset = 0 := hdeep.trans (by rw [hblob₀]; rfl)
      rw [hstart, hblob₁]
      exact Nat.zero_le _
  obtain ⟨x, hx, ⟨f, hf, hg, hvf, h₁, h₂⟩, hsame⟩ := unpackFields_broken (fun _ h => h) hok hs.laid hentries
    (show UnpackRunAt u none from hz) (fun _ h => nomatch h) hbroken
  have hleft : u.unpackedRow x = 1 := by
    refine (hframe x fun g hg' => .inl ?_).trans (unpackStart_behind packed row target hx)
    obtain ⟨hg', hb⟩ := mem_filter.mp hg'
    have hne : f ≠ g := by
      rintro rfl
      rw [belongs_zero, hg] at hb
      cases hb
    have hap := hs.laid.apart_of_ne hf hg' hne
    rw [Apart, room_of_fixed hvf] at hap
    rw [Outside]
    omega
  have hback := (restored_fixed multiByteMaxLen hvf).mp (hrestored f hf)
  rw [hunpack, bytes_inj] at hback
  have hbyte := hback (x - f.valueOffset) (by omega)
  have hadd : f.valueOffset + (x - f.valueOffset) = x := by omega
  rw [hadd] at hbyte
  have hone : (1 : UInt8) = 0 := (hleft.symm.trans hsame.symm).trans hbyte
  exact absurd hone (by decide)

end Converse

/-- Exactly the rows of safe schemas come back. -/
theorem round_trips_iff (multiByteMaxLen : Int → Nat) (s : SchemaBuilder) (hs : WellFormed s) :
    RoundTrips multiByteMaxLen s ↔ Safe multiByteMaxLen s := by
  refine ⟨fun h => ?_, roundTrips_of_safe multiByteMaxLen hs⟩
  rw [Safe]
  by_cases hv : s.hasVariableLengthFields = true
  · rw [if_pos hv]
    have hwhole := whole_of_roundTrips multiByteMaxLen hs hv h
    exact ⟨hwhole, fun f hf => textFits_of_roundTrips multiByteMaxLen hs hv hwhole h hf⟩
  · rw [if_neg hv]
    exact virtualLast_of_roundTrips multiByteMaxLen hs (eq_false_iff.mpr hv) h

/-- A key, a varchar of up to 20 bytes and two virtual columns that follow each other. -/
def mixedSchema : SchemaBuilder where
  nullBytes := 1
  fields := [
    ⟨.other 3, .other 3, 4, 4, 4, 0, 0, 0, 1, 0, false⟩,
    ⟨.varText1, .varText1, 21, 21, 20, 1, 1, 0, 5, 0, false⟩,
    ⟨.other 3, .other 3, 4, 4, 4, 0, 0, 0, 26, 0, true⟩,
    ⟨.other 3, .other 3, 4, 4, 4, 0, 0, 0, 30, 0, true⟩]
  hasVariableLengthFields := true
  hasVirtualFields := true
  blobStartOffset := 13
  blobPtrSize := 8
  unpackedRowLength := 34

theorem mixedSchema_wellFormed : WellFormed mixedSchema where
  laid := ⟨rfl, rfl, rfl, rfl, trivial⟩
  blobStartOffset := rfl
  unpackedRowLength := rfl
  hasVariableLengthFields := rfl
  hasVirtualFields := rfl
  varchar := by decide
  blob := by decide
  nullable := by decide
  packLength := by decide

theorem mixed_rows_come_back : RoundTrips (fun _ => 3) mixedSchema := by
  refine (round_trips_iff _ _ mixedSchema_wellFormed).mpr ?_
  show Whole 1 none mixedSchema.fields ∧ ∀ f ∈ mixedSchema.fields, TextFits (fun _ => 3) f
  exact ⟨⟨.inl rfl, .inr rfl, trivial⟩, fun f hf _ ht => absurd ht (by revert f; decide)⟩

/-- A virtual column ahead of an ordinary one. -/
def virtualFirst : SchemaBuilder where
  nullBytes := 1
  fields := [⟨.other 3, .other 3, 4, 4, 4, 0, 0, 0, 1, 0, true⟩, ⟨.other 3, .other 3, 4, 4, 4, 0, 0, 0, 5, 0, false⟩]
  hasVariableLengthFields := false
  hasVirtualFields := true
  blobStartOffset := 9
  blobPtrSize := 8
  unpackedRowLength := 9

theorem virtualFirst_wellFormed : WellFormed virtualFirst where
  laid := ⟨rfl, rfl, trivial⟩
  blobStartOffset := rfl
  unpackedRowLength := rfl
  hasVariableLengthFields := rfl
  hasVirtualFields := rfl
  varchar := by decide
  blob := by decide
  nullable := by decide
  packLength := by decide

theorem virtual_first_changes_places : ¬∀ s, WellFormed s → RoundTrips (fun _ => 1) s := by
  intro h
  have hlast := virtualLast_of_roundTrips _ virtualFirst_wellFormed rfl (h virtualFirst virtualFirst_wellFormed)
  rcases (virtualLast_cons.mp hlast).1 _ mem_cons_self rfl rfl with h0 | h0
  · cases h0
  · cases h0

end DeepFabric.Store.RowProtocol
