/-
  DeepFabric.Store.RowRoundTrip — which rows come back from packRow and unpackRow
  (api/deep/Protocol.h: RowProtocol_v1).
-/
import DeepFabric.Store.RowProtocol

namespace DeepFabric.Store.RowProtocol

open DeepFabric.Lib Buffer List

/-! ## One column after the other

The loops without the collapsed copies: every column is copied in its turn. -/

/-- Where the packing stands, with no copy outstanding. -/
structure Packed where
  packedRow : Buffer
  packedRowOffset : Nat
  blobOffset : Nat

structure Unpacked where
  unpackedRow : Buffer
  memory : Buffer
  packedRowOffset : Nat
  deepBlobOffset : Nat
  blobField : Nat

section Packing

variable (multiByteMaxLen : Int → Nat) (s : SchemaBuilder) (memory row : Buffer)

def Packing.settled (p : Packing) : Packed := ⟨(p.flush row).packedRow, p.packedRowOffset, p.blobOffset⟩

def packOne (q : Packed) (f : DeepField) : Packed :=
  if f.isVariable then
    let blobLen := blobLen multiByteMaxLen row f
    let data := blobData memory row s f
    let packedRow := store q.packedRow (s.blobStartOffset + q.blobOffset) 4 blobLen
    { q with
      packedRow := memcpy packedRow (s.blobStartOffset + (q.blobOffset + 4)) data.1 data.2 blobLen
      blobOffset := q.blobOffset + 4 + blobLen }
  else
    { q with
      packedRow := memcpy q.packedRow q.packedRowOffset row f.valueOffset f.packLength
      packedRowOffset := q.packedRowOffset + f.packLength }

end Packing

/-- What is asked of a column alone. -/
structure FieldOk (f : DeepField) : Prop where
  varchar : f.isVariableLengthVarchar = true → (f.lengthBytes = 1 ∨ f.lengthBytes = 2) ∧ f.lengthBytes ≤ f.packLength
  blob : f.isVariableLengthVarchar = false → f.type = .blob → f.packLength = f.rowPackLength ∧ 1 ≤ f.rowPackLength ∧ f.rowPackLength ≤ 4

theorem WellFormed.fieldOk {s : SchemaBuilder} (hs : WellFormed s) {f : DeepField} (hf : f ∈ s.fields) : FieldOk f :=
  ⟨hs.varchar f hf, hs.blob f hf⟩

/-- The columns of a pass. -/
def DeepField.belongs (j : Nat) (f : DeepField) : Bool := if f.gcVirtual then j ≠ 0 else j ≠ 1

/-- A fixed column that goes on with a run begins where the run ends: `run` is the end of the run at hand, if there is
    one. -/
def Whole (j : Nat) : Option Nat → List DeepField → Prop
  | _, [] => True
  | run, f :: fs =>
    if f.belongs j then
      if f.isVariable then Whole j none fs
      else if f.packLength = 0 then Whole j run fs
      else (run = none ∨ run = some f.valueOffset) ∧ Whole j (some (f.valueOffset + f.packLength)) fs
    else if j = 0 then Whole j none fs
    else Whole j run fs

/-! ## Packing in runs -/

section Packing

variable (multiByteMaxLen : Int → Nat) (s : SchemaBuilder) (memory row : Buffer)

theorem flush_fixedLength (p : Packing) : (p.flush row).fixedLength = 0 := by
  unfold Packing.flush
  by_cases h : p.fixedLength = 0
  · rw [if_neg (not_not.mpr h), h]
  · rw [if_pos h]

variable {p : Packing}

theorem flush_of_zero (h : p.fixedLength = 0) : p.flush row = p := if_neg (not_not.mpr h)

theorem flush_flush (p : Packing) : (p.flush row).flush row = p.flush row := flush_of_zero row (flush_fixedLength row p)

theorem flush_settled (p : Packing) : (p.flush row).settled row = p.settled row := by
  rw [Packing.settled, flush_flush, Packing.settled]
  unfold Packing.flush
  split <;> rfl

variable {f : DeepField}

theorem getLength_ok (h : FieldOk f) (hv : f.isVariableLengthVarchar = false) (hb : f.type = .blob) :
    f.getLength row = .ok (load row f.valueOffset f.rowPackLength) := by
  obtain ⟨heq, h1, h4⟩ := h.blob hv hb
  have hcases : f.rowPackLength = 1 ∨ f.rowPackLength = 2 ∨ f.rowPackLength = 3 ∨ f.rowPackLength = 4 := by omega
  rw [DeepField.getLength, heq]
  rcases hcases with h | h | h | h <;> simp only [h]

theorem append_settled (p : Packing) (src : Buffer) (ptr n : Nat) (hp : p.fixedLength = 0) :
    (p.append s src ptr n).fixedLength = 0 ∧ (p.append s src ptr n).settled row
      = ⟨memcpy (store p.packedRow (s.blobStartOffset + p.blobOffset) 4 n) (s.blobStartOffset + (p.blobOffset + 4)) src ptr n,
          p.packedRowOffset, p.blobOffset + 4 + n⟩ := by
  have hz : (p.append s src ptr n).fixedLength = 0 := by
    unfold Packing.append
    split <;> exact hp
  refine ⟨hz, ?_⟩
  rw [Packing.settled, flush_of_zero row hz]
  unfold Packing.append
  by_cases h : n > 0
  · rw [if_pos h]
  · have h0 : n = 0 := by omega
    rw [if_neg h, h0, memcpy_zero]

/-- A variable column ends the run at hand and is packed in its turn. -/
theorem packField_variable (hf : FieldOk f) (hv : f.isVariable = true) (p : Packing) :
    ∃ p', packField multiByteMaxLen s memory row p f = .ok p' ∧ p'.fixedLength = 0 ∧
      p'.settled row = packOne multiByteMaxLen s memory row (p.settled row) f := by
  have hz := flush_fixedLength row p
  have hset (src : Buffer) (ptr n : Nat) (hn : blobLen multiByteMaxLen row f = n) (hd : blobData memory row s f = (src, ptr)) :
      ((p.flush row).append s src ptr n).fixedLength = 0 ∧
        ((p.flush row).append s src ptr n).settled row = packOne multiByteMaxLen s memory row (p.settled row) f := by
    obtain ⟨h0, h1⟩ := append_settled s row (p.flush row) src ptr n hz
    refine ⟨h0, ?_⟩
    have hsame : (p.flush row).packedRowOffset = p.packedRowOffset ∧ (p.flush row).blobOffset = p.blobOffset := by
      unfold Packing.flush
      split <;> exact ⟨rfl, rfl⟩
    rw [h1, packOne, if_pos hv, hn, hd, hsame.1, hsame.2]
    rfl
  unfold packField
  by_cases hvar : f.isVariableLengthVarchar = true
  · have hlen : (if f.isNull row then 0 else if f.lengthBytes = 1 then load row f.valueOffset 1 else load row f.valueOffset 2)
        = blobLen multiByteMaxLen row f := by
      rw [blobLen]
      split_ifs with hnull h1
      · rfl
      · rw [h1]
      · rw [((hf.varchar hvar).1).resolve_left h1]
    rw [if_pos hvar, hlen]
    refine ⟨_, rfl, hset _ _ _ rfl ?_⟩
    rw [blobData, if_pos hvar]
  · have hvar' : f.isVariableLengthVarchar = false := Bool.eq_false_iff.mpr hvar
    rw [if_neg hvar]
    by_cases hb : f.type = .blob
    · have hlen : (if f.isNull row then .ok 0 else f.getLength row) = Except.ok (blobLen multiByteMaxLen row f) := by
        rw [blobLen, getLength_ok row hf hvar' hb, if_neg hvar, if_pos hb]
        split_ifs <;> rfl
      rw [if_pos hb, hlen]
      refine ⟨_, rfl, hset _ _ _ rfl ?_⟩
      rw [blobData, if_neg hvar, if_pos hb]
    · have ht : f.type = .textMultibyte := by
        have h := of_decide_eq_true hv
        exact (h.resolve_left hvar).resolve_left hb
      have hlen : (if f.isNull row then 0 else getMultiByteTextLength multiByteMaxLen f.packLength f.characterSet row f.valueOffset)
          = blobLen multiByteMaxLen row f := by rw [blobLen, if_neg hvar, if_neg hb]
      rw [if_neg hb, if_pos ht, hlen]
      refine ⟨_, rfl, hset _ _ _ rfl ?_⟩
      rw [blobData, if_neg hvar, if_neg hb]

variable {j : Nat}

theorem belongs_iff : f.belongs j = true ↔ if f.gcVirtual then j ≠ 0 else j ≠ 1 := by
  unfold DeepField.belongs
  split_ifs <;> exact decide_eq_true_iff

/-- The run at hand, if any, ends at an offset of the unpacked row, and at packedRowOffset. -/
def RunAt (p : Packing) : Option Nat → Prop
  | none => p.fixedLength = 0
  | some e => p.fixedLength ≠ 0 ∧ p.unpackedFixedPtr + p.fixedLength = e ∧ p.packedFixedPtr + p.fixedLength = p.packedRowOffset

/-- Where the run at hand is in the two rows, for either loop. -/
def Run (fixedLength unpackedPtr packedPtr offset : Nat) : Option Nat → Prop
  | none => fixedLength = 0
  | some e => fixedLength ≠ 0 ∧ unpackedPtr + fixedLength = e ∧ packedPtr + fixedLength = offset

variable {run : Option Nat}

theorem runAt_iff :
    RunAt p run ↔ Run p.fixedLength p.unpackedFixedPtr p.packedFixedPtr p.packedRowOffset run := by
  cases run <;> rfl

section Run

variable {l u q o n v : Nat} {run : Option Nat}

/-- The run goes on with a fixed column, or begins with it. -/
theorem Run.next (h : Run l u q o run) (hv : n = 0 ∨ run = none ∨ run = some v) :
    Run (l + n) (if l = 0 then v else u) (if l = 0 then o else q) (o + n) (if n = 0 then run else some (v + n)) := by
  cases run with
  | none =>
    obtain rfl : l = 0 := h
    rw [if_pos rfl, if_pos rfl]
    split_ifs with hn
    · exact (Nat.zero_add n).trans hn
    · exact ⟨by omega, by omega, by omega⟩
  | some e =>
    obtain ⟨hl, hu, hq⟩ := h
    rw [if_neg hl, if_neg hl]
    split_ifs with hn
    · exact ⟨by omega, by omega, by omega⟩
    · obtain rfl := Option.some.inj ((hv.resolve_left hn).resolve_left (Option.some_ne_none e))
      exact ⟨by omega, by omega, by omega⟩

theorem Run.goes_on (h : Run l u q o run) (hv : n = 0 ∨ run = none ∨ run = some v) (hl : l ≠ 0) : n = 0 ∨ (u + l = v ∧ q + l = o) := by
  cases run with
  | none => exact absurd h hl
  | some e => exact hv.imp_right fun hv => ⟨h.2.1.trans (Option.some.inj (hv.resolve_left (Option.some_ne_none e))), h.2.2⟩

end Run

/-- The run's copy with another column in it is the copy of the run and then of the column. -/
theorem memcpy_run {target src : Buffer} {l d t n d' t' : Nat} (h : l ≠ 0 → n = 0 ∨ (d + l = d' ∧ t + l = t')) :
    (if l + n ≠ 0 then memcpy target (if l = 0 then d' else d) src (if l = 0 then t' else t) (l + n) else target) =
      memcpy (if l ≠ 0 then memcpy target d src t l else target) d' src t' n := by
  by_cases hn : n = 0
  · rw [hn, memcpy_zero, Nat.add_zero]
    by_cases hl : l = 0
    · rw [if_neg (not_not.mpr hl), if_neg (not_not.mpr hl)]
    · rw [if_pos hl, if_pos hl, if_neg hl, if_neg hl]
  · rw [if_pos (by omega)]
    by_cases hl : l = 0
    · rw [if_pos hl, if_pos hl, if_neg (not_not.mpr hl), hl, Nat.zero_add]
    · obtain ⟨rfl, rfl⟩ := (h hl).resolve_left hn
      rw [if_neg hl, if_neg hl, if_pos hl, memcpy_memcpy]

theorem not_variable (hv : f.isVariable = false) :
    ¬f.isVariableLengthVarchar = true ∧ ¬f.type = .blob ∧ ¬f.type = .textMultibyte := by
  have h := of_decide_eq_false hv
  rw [not_or, not_or] at h
  exact h

theorem packed_settled (p : Packing) : p.settled row =
    ⟨if p.fixedLength ≠ 0 then memcpy p.packedRow p.packedFixedPtr row p.unpackedFixedPtr p.fixedLength else p.packedRow,
      p.packedRowOffset, p.blobOffset⟩ := by
  rw [Packing.settled, Packing.flush]
  split_ifs <;> rfl

/-- A fixed column that goes on with the run at hand is packed with it. -/
theorem packField_fixed (hv : f.isVariable = false) (hrun : RunAt p run)
    (h : f.packLength = 0 ∨ run = none ∨ run = some f.valueOffset) :
    ∃ p', packField multiByteMaxLen s memory row p f = .ok p' ∧
      RunAt p' (if f.packLength = 0 then run else some (f.valueOffset + f.packLength)) ∧
      p'.settled row = packOne multiByteMaxLen s memory row (p.settled row) f := by
  have hnot := not_variable hv
  rw [runAt_iff] at hrun
  have hbegin : (if p.fixedLength = 0 then { p with unpackedFixedPtr := f.valueOffset, packedFixedPtr := p.packedRowOffset } else p) =
      { p with
        unpackedFixedPtr := if p.fixedLength = 0 then f.valueOffset else p.unpackedFixedPtr
        packedFixedPtr := if p.fixedLength = 0 then p.packedRowOffset else p.packedFixedPtr } := by
    split_ifs <;> rfl
  rw [packField, if_neg hnot.1, if_neg hnot.2.1, if_neg hnot.2.2, hbegin]
  refine ⟨_, rfl, runAt_iff.mpr (hrun.next h), ?_⟩
  rw [packed_settled, packed_settled, packOne, if_neg (ne_true_of_eq_false hv)]
  exact congrArg (fun packedRow => (⟨packedRow, p.packedRowOffset + f.packLength, p.blobOffset⟩ : Packed))
    (memcpy_run fun hl => (hrun.goes_on h hl).imp_right And.symm)

theorem packFields_belongs (hb : f.belongs j = true) (fs : List DeepField) (p : Packing) :
    packFields multiByteMaxLen s memory row j (f :: fs) p
      = (packField multiByteMaxLen s memory row p f).bind fun p => packFields multiByteMaxLen s memory row j fs p := by
  have hj := belongs_iff.mp hb
  rw [packFields]
  split_ifs at hj ⊢ <;> first | rfl | contradiction

theorem packFields_skips (hb : ¬f.belongs j = true) (fs : List DeepField) (p : Packing) :
    packFields multiByteMaxLen s memory row j (f :: fs) p = packFields multiByteMaxLen s memory row j fs (if j = 0 then p.flush row else p) := by
  have hj := mt belongs_iff.mpr hb
  rw [packFields]
  split_ifs at hj ⊢ <;> first | rfl | omega

/-- A pass packs its columns one after the other, if its runs are whole. -/
theorem packFields_pass {fs : List DeepField} (hfs : ∀ f ∈ fs, FieldOk f)
    (hrun : RunAt p run) (h : Whole j run fs) :
    ∃ p', packFields multiByteMaxLen s memory row j fs p = .ok p' ∧ p'.fixedLength = 0 ∧
      p'.settled row = (fs.filter (·.belongs j)).foldl (packOne multiByteMaxLen s memory row) (p.settled row) := by
  induction fs generalizing p run with
  | nil => exact ⟨_, rfl, flush_fixedLength row p, flush_settled row p⟩
  | cons f fs ih =>
    have hf := hfs f mem_cons_self
    have hrest : ∀ g ∈ fs, FieldOk g := (forall_mem_cons.mp hfs).2
    rw [Whole] at h
    by_cases hb : f.belongs j = true
    · rw [if_pos hb] at h
      rw [packFields_belongs multiByteMaxLen s memory row hb, filter_cons_of_pos hb, foldl_cons]
      by_cases hv : f.isVariable = true
      · rw [if_pos hv] at h
        obtain ⟨p₁, hp₁, hz, hset⟩ := packField_variable multiByteMaxLen s memory row hf hv p
        have hrun₁ : RunAt p₁ none := hz
        rw [hp₁, ← hset]
        exact ih hrest hrun₁ h
      · rw [if_neg hv] at h
        have hv' : f.isVariable = false := Bool.eq_false_iff.mpr hv
        by_cases hl : f.packLength = 0
        · rw [if_pos hl] at h
          obtain ⟨p₁, hp₁, hrun₁, hset⟩ := packField_fixed multiByteMaxLen s memory row hv' hrun (.inl hl)
          rw [if_pos hl] at hrun₁
          rw [hp₁, ← hset]
          exact ih hrest hrun₁ h
        · rw [if_neg hl] at h
          obtain ⟨p₁, hp₁, hrun₁, hset⟩ := packField_fixed multiByteMaxLen s memory row hv' hrun (.inr h.1)
          rw [if_neg hl] at hrun₁
          rw [hp₁, ← hset]
          exact ih hrest hrun₁ h.2
    · rw [if_neg hb] at h
      rw [filter_cons_of_neg hb, packFields_skips multiByteMaxLen s memory row hb]
      by_cases hj : j = 0
      · rw [if_pos hj] at h ⊢
        rw [← flush_settled row p]
        exact ih hrest (show RunAt (p.flush row) none from flush_fixedLength row p) h
      · rw [if_neg hj] at h ⊢
        exact ih hrest hrun h

/-! ## The packed row -/

/-- What a fixed column adds to the fixed part. -/
def fixedBytes (f : DeepField) : List UInt8 := if f.isVariable then [] else bytes row f.valueOffset f.packLength

/-- What a variable column adds to the rest. -/
def entry (f : DeepField) : List UInt8 :=
  if f.isVariable then
    leBytes 4 (blobLen multiByteMaxLen row f)
      ++ bytes (blobData memory row s f).1 (blobData memory row s f).2 (blobLen multiByteMaxLen row f)
  else []

/-- The length of the entries. -/
def entryLength (fs : List DeepField) : Nat := (fs.map fun f => (entry multiByteMaxLen s memory row f).length).sum

theorem fixedLengthOf_cons (f : DeepField) (fs : List DeepField) :
    fixedLengthOf (f :: fs) = (if f.isVariable then 0 else f.packLength) + fixedLengthOf fs := by
  unfold fixedLengthOf
  by_cases h : f.isVariable = true
  · rw [filter_cons_of_neg (by rw [h]; exact Bool.false_ne_true), if_pos h, Nat.zero_add]
  · rw [filter_cons_of_pos (by rw [Bool.not_eq_true] at h; rw [h]; rfl), if_neg h, map_cons, sum_cons]

theorem length_entry (h : f.isVariable = true) :
    (entry multiByteMaxLen s memory row f).length = 4 + blobLen multiByteMaxLen row f := by
  rw [entry, if_pos h, length_append, length_leBytes, length_bytes]

theorem entryLength_cons (f : DeepField) (fs : List DeepField) :
    entryLength multiByteMaxLen s memory row (f :: fs)
      = (entry multiByteMaxLen s memory row f).length + entryLength multiByteMaxLen s memory row fs := by
  rw [entryLength, map_cons, sum_cons, entryLength]

/-- Columns packed one after the other: the fixed part grows by the fixed ones, the rest by the variable ones, and what
    was there stays. -/
theorem packAll_image (fs : List DeepField) (q : Packed) (hroom : q.packedRowOffset + fixedLengthOf fs ≤ s.blobStartOffset) :
    let q' := fs.foldl (packOne multiByteMaxLen s memory row) q
    q'.packedRowOffset = q.packedRowOffset + fixedLengthOf fs ∧
      bytes q'.packedRow q.packedRowOffset (fixedLengthOf fs) = fs.flatMap (fixedBytes row) ∧
      bytes q'.packedRow (s.blobStartOffset + q.blobOffset) (entryLength multiByteMaxLen s memory row fs)
        = fs.flatMap (entry multiByteMaxLen s memory row) ∧
      ∀ i, i < q.packedRowOffset ∨ s.blobStartOffset ≤ i ∧ i < s.blobStartOffset + q.blobOffset → q'.packedRow i = q.packedRow i := by
  induction fs generalizing q with
  | nil => exact ⟨rfl, rfl, rfl, fun _ _ => rfl⟩
  | cons f fs ih =>
    rw [fixedLengthOf_cons] at hroom ⊢
    rw [entryLength_cons]
    dsimp only
    rw [foldl_cons, flatMap_cons, flatMap_cons]
    by_cases hv : f.isVariable = true
    · rw [if_pos hv, Nat.zero_add] at hroom ⊢
      have hone : packOne multiByteMaxLen s memory row q f = { q with
          packedRow := memcpy (store q.packedRow (s.blobStartOffset + q.blobOffset) 4 (blobLen multiByteMaxLen row f))
            (s.blobStartOffset + (q.blobOffset + 4)) (blobData memory row s f).1 (blobData memory row s f).2 (blobLen multiByteMaxLen row f)
          blobOffset := q.blobOffset + 4 + blobLen multiByteMaxLen row f } := if_pos hv
      obtain ⟨hoff, hfixed, hentry, hframe⟩ := ih (packOne multiByteMaxLen s memory row q f) (by rw [hone]; exact hroom)
      have hlen := length_entry multiByteMaxLen s memory row hv
      generalize hq' : fs.foldl (packOne multiByteMaxLen s memory row) (packOne multiByteMaxLen s memory row q f) = q' at *
      rw [hone] at hoff hfixed hentry hframe
      have hown : bytes q'.packedRow (s.blobStartOffset + q.blobOffset) (entry multiByteMaxLen s memory row f).length
          = entry multiByteMaxLen s memory row f := by
        have hkept : bytes q'.packedRow (s.blobStartOffset + q.blobOffset) (entry multiByteMaxLen s memory row f).length
            = bytes (packOne multiByteMaxLen s memory row q f).packedRow (s.blobStartOffset + q.blobOffset)
                (entry multiByteMaxLen s memory row f).length := by
          refine bytes_congr_outside fun i h₁ h₂ => ?_
          rw [hone]
          exact hframe i (.inr ⟨by omega, by show i < s.blobStartOffset + (q.blobOffset + 4 + blobLen multiByteMaxLen row f); omega⟩)
        rw [hkept, hlen, bytes_append, hone, entry, if_pos hv]
        congr 1
        · rw [← bytes_store]
          exact bytes_congr_outside fun i _ h => memcpy_outside (.inl (by omega))
        · have hadd : s.blobStartOffset + q.blobOffset + 4 = s.blobStartOffset + (q.blobOffset + 4) := by omega
          rw [hadd]
          exact bytes_memcpy
      refine ⟨hoff, ?_, ?_, fun i hi => ?_⟩
      · rw [hfixed, fixedBytes, if_pos hv, nil_append]
      · rw [bytes_append, hown, hlen]
        have hadd : s.blobStartOffset + q.blobOffset + (4 + blobLen multiByteMaxLen row f)
            = s.blobStartOffset + (q.blobOffset + 4 + blobLen multiByteMaxLen row f) := by omega
        rw [hadd, hentry]
      · have h₁ := hframe i (by
          rcases hi with hi | hi
          · exact .inl hi
          · exact .inr ⟨hi.1, by show i < s.blobStartOffset + (q.blobOffset + 4 + blobLen multiByteMaxLen row f); omega⟩)
        rw [h₁]
        show memcpy (store q.packedRow _ 4 _) _ _ _ _ i = q.packedRow i
        rw [memcpy_outside (by omega), store_outside (by omega)]
    · rw [if_neg hv] at hroom ⊢
      have hone : packOne multiByteMaxLen s memory row q f = { q with
          packedRow := memcpy q.packedRow q.packedRowOffset row f.valueOffset f.packLength
          packedRowOffset := q.packedRowOffset + f.packLength } := if_neg hv
      obtain ⟨hoff, hfixed, hentry, hframe⟩ := ih (packOne multiByteMaxLen s memory row q f)
        (by rw [hone]; show q.packedRowOffset + f.packLength + fixedLengthOf fs ≤ s.blobStartOffset; omega)
      have hlen : (entry multiByteMaxLen s memory row f).length = 0 := by
        rw [entry, if_neg hv]
        rfl
      generalize hq' : fs.foldl (packOne multiByteMaxLen s memory row) (packOne multiByteMaxLen s memory row q f) = q' at *
      rw [hone] at hoff hfixed hentry hframe
      have hown : bytes q'.packedRow q.packedRowOffset f.packLength = bytes row f.valueOffset f.packLength := by
        rw [← @bytes_memcpy q.packedRow row q.packedRowOffset f.valueOffset f.packLength]
        exact bytes_congr_outside fun i h₁ h₂ => hframe i (.inl h₂)
      refine ⟨?_, ?_, ?_, fun i hi => ?_⟩
      · rw [hoff]
        show q.packedRowOffset + f.packLength + fixedLengthOf fs = _
        omega
      · rw [bytes_append, hown, hfixed, fixedBytes, if_neg hv]
      · rw [hlen, Nat.zero_add, entry, if_neg hv, nil_append]
        exact hentry
      · have h₁ := hframe i (by
          rcases hi with hi | hi
          · exact .inl (by show i < q.packedRowOffset + f.packLength; omega)
          · exact .inr hi)
        rw [h₁]
        exact memcpy_outside (by omega)

end Packing

/-! ## Unpacking in runs -/

section Unpacking

variable (s : SchemaBuilder) (packedRow : Buffer) (blobBuffer : Nat)

def Unpacking.settled (u : Unpacking) : Unpacked :=
  ⟨(u.flush packedRow).unpackedRow, u.memory, u.packedRowOffset, u.deepBlobOffset, u.blobField⟩

def unpackOne (u : Unpacked) (f : DeepField) : Unpacked :=
  let entry := getPackedRowOffset s packedRow u.blobField
  let blobLen := load packedRow entry 4
  if f.isVariableLengthVarchar then
    { u with
      unpackedRow := memcpy (store u.unpackedRow f.valueOffset f.lengthBytes blobLen) (f.valueOffset + f.lengthBytes) packedRow (entry + 4) blobLen
      blobField := u.blobField + 1 }
  else if f.type = .blob then
    let row := store u.unpackedRow f.valueOffset f.rowPackLength blobLen
    { u with
      memory := memcpy u.memory (blobBuffer + u.deepBlobOffset) packedRow (entry + 4) blobLen
      unpackedRow := if blobLen > 0 then store row (f.valueOffset + f.rowPackLength) s.blobPtrSize (blobBuffer + u.deepBlobOffset) else row
      deepBlobOffset := u.deepBlobOffset + blobLen
      blobField := u.blobField + 1 }
  else if f.type = .textMultibyte then
    { u with
      unpackedRow := if blobLen > 0 then
          padMultiByteText f.packLength blobLen (memcpy u.unpackedRow f.valueOffset packedRow (entry + 4) blobLen) f.valueOffset
        else u.unpackedRow
      blobField := u.blobField + 1 }
  else
    { u with
      unpackedRow := memcpy u.unpackedRow f.valueOffset packedRow u.packedRowOffset f.packLength
      packedRowOffset := u.packedRowOffset + f.packLength }

theorem unpack_flush_fixedLength (u : Unpacking) : (u.flush packedRow).fixedLength = 0 := by
  unfold Unpacking.flush
  by_cases h : u.fixedLength = 0
  · rw [if_neg (not_not.mpr h), h]
  · rw [if_pos h]

variable {u : Unpacking}

theorem unpack_flush_of_zero (h : u.fixedLength = 0) : u.flush packedRow = u := if_neg (not_not.mpr h)

theorem unpack_flush_settled (u : Unpacking) : (u.flush packedRow).settled packedRow = u.settled packedRow := by
  rw [Unpacking.settled, unpack_flush_of_zero packedRow (unpack_flush_fixedLength packedRow u), Unpacking.settled]
  unfold Unpacking.flush
  split <;> rfl

theorem settled_of_zero (h : u.fixedLength = 0) :
    u.settled packedRow = ⟨u.unpackedRow, u.memory, u.packedRowOffset, u.deepBlobOffset, u.blobField⟩ := by
  rw [Unpacking.settled, unpack_flush_of_zero packedRow h]

/-- An unpacking that stands where `o` does. -/
def Unpacking.at (u : Unpacking) (o : Unpacked) : Unpacking :=
  { u with
    unpackedRow := o.unpackedRow
    memory := o.memory
    packedRowOffset := o.packedRowOffset
    deepBlobOffset := o.deepBlobOffset
    blobField := o.blobField }

variable {f : DeepField}

theorem unpackField_eq (hf : FieldOk f) (hv : f.isVariable = true) (u : Unpacking) :
    unpackField s packedRow blobBuffer u f = (u.flush packedRow).at (unpackOne s packedRow blobBuffer (u.settled packedRow) f) := by
  have hz := unpack_flush_fixedLength packedRow u
  have hset : u.settled packedRow = ⟨(u.flush packedRow).unpackedRow, (u.flush packedRow).memory, (u.flush packedRow).packedRowOffset,
      (u.flush packedRow).deepBlobOffset, (u.flush packedRow).blobField⟩ := by
    rw [← settled_of_zero packedRow hz, unpack_flush_settled]
  rw [hset]
  generalize hw : u.flush packedRow = w
  by_cases hvar : f.isVariableLengthVarchar = true
  · have hlen : (if f.lengthBytes = 2 then 2 else 1) = f.lengthBytes := by
      rcases (hf.varchar hvar).1 with h | h <;> rw [h] <;> rfl
    rw [unpackField, if_pos hvar, unpackOne, if_pos hvar]
    simp only [hw, hlen]
    split_ifs with h0
    · rfl
    · rw [Nat.eq_zero_of_not_pos h0, memcpy_zero]
      rfl
  · rw [unpackField, if_neg hvar, unpackOne, if_neg hvar]
    by_cases hb : f.type = .blob
    · have hlen : (if f.rowPackLength = 4 then 4 else if f.rowPackLength = 3 then 3 else if f.rowPackLength = 2 then 2 else 1)
          = f.rowPackLength := by
        obtain ⟨-, h1, h4⟩ := hf.blob (Bool.eq_false_iff.mpr hvar) hb
        have hcases : f.rowPackLength = 1 ∨ f.rowPackLength = 2 ∨ f.rowPackLength = 3 ∨ f.rowPackLength = 4 := by omega
        rcases hcases with h | h | h | h <;> rw [h] <;> rfl
      rw [if_pos hb, if_pos hb]
      simp only [hw, hlen]
      split_ifs with h0
      · rfl
      · rw [Nat.eq_zero_of_not_pos h0, memcpy_zero]
        rfl
    · have ht : f.type = .textMultibyte := ((of_decide_eq_true hv).resolve_left hvar).resolve_left hb
      rw [if_neg hb, if_pos ht, if_neg hb, if_pos ht]
      simp only [hw]
      rfl

/-- A variable column ends the run at hand and is unpacked in its turn. -/
theorem unpackField_variable (hf : FieldOk f) (hv : f.isVariable = true) (u : Unpacking) :
    (unpackField s packedRow blobBuffer u f).fixedLength = 0 ∧
      (unpackField s packedRow blobBuffer u f).settled packedRow = unpackOne s packedRow blobBuffer (u.settled packedRow) f := by
  have hz : (unpackField s packedRow blobBuffer u f).fixedLength = 0 := by
    rw [unpackField_eq s packedRow blobBuffer hf hv]
    exact unpack_flush_fixedLength packedRow u
  rw [settled_of_zero packedRow hz]
  refine ⟨hz, ?_⟩
  rw [unpackField_eq s packedRow blobBuffer hf hv]
  rfl

def UnpackRunAt (u : Unpacking) : Option Nat → Prop
  | none => u.fixedLength = 0
  | some e => u.fixedLength ≠ 0 ∧ u.unpackedFixedPtr + u.fixedLength = e ∧ u.packedFixedPtr + u.fixedLength = u.packedRowOffset

variable {run : Option Nat}

theorem unpackRunAt_iff :
    UnpackRunAt u run ↔ Run u.fixedLength u.unpackedFixedPtr u.packedFixedPtr u.packedRowOffset run := by
  cases run <;> rfl

theorem unpacked_settled (u : Unpacking) : u.settled packedRow =
    ⟨if u.fixedLength ≠ 0 then memcpy u.unpackedRow u.unpackedFixedPtr packedRow u.packedFixedPtr u.fixedLength else u.unpackedRow,
      u.memory, u.packedRowOffset, u.deepBlobOffset, u.blobField⟩ := by
  rw [Unpacking.settled, Unpacking.flush]
  split_ifs <;> rfl

theorem unpackField_fixed (hv : f.isVariable = false) (hrun : UnpackRunAt u run)
    (h : f.packLength = 0 ∨ run = none ∨ run = some f.valueOffset) :
    UnpackRunAt (unpackField s packedRow blobBuffer u f) (if f.packLength = 0 then run else some (f.valueOffset + f.packLength)) ∧
      (unpackField s packedRow blobBuffer u f).settled packedRow = unpackOne s packedRow blobBuffer (u.settled packedRow) f := by
  have hnot := not_variable hv
  rw [unpackRunAt_iff] at hrun
  have hbegin : (if u.fixedLength = 0 then { u with unpackedFixedPtr := f.valueOffset, packedFixedPtr := u.packedRowOffset } else u) =
      { u with
        unpackedFixedPtr := if u.fixedLength = 0 then f.valueOffset else u.unpackedFixedPtr
        packedFixedPtr := if u.fixedLength = 0 then u.packedRowOffset else u.packedFixedPtr } := by
    split_ifs <;> rfl
  rw [unpackField, if_neg hnot.1, if_neg hnot.2.1, if_neg hnot.2.2, unpackOne, if_neg hnot.1, if_neg hnot.2.1, if_neg hnot.2.2]
  rw [hbegin, unpackRunAt_iff, unpacked_settled, unpacked_settled]
  exact ⟨hrun.next h, congrArg (Unpacked.mk · _ _ _ _) (memcpy_run fun hl => hrun.goes_on h hl)⟩

variable {j : Nat}

theorem unpackFields_belongs (hb : f.belongs j = true) (fs : List DeepField) (u : Unpacking) :
    unpackFields s packedRow blobBuffer j (f :: fs) u
      = unpackFields s packedRow blobBuffer j fs (unpackField s packedRow blobBuffer u f) := by
  have hj := belongs_iff.mp hb
  rw [unpackFields]
  split_ifs at hj ⊢ <;> first | rfl | contradiction

theorem unpackFields_skips (hb : ¬f.belongs j = true) (fs : List DeepField) (u : Unpacking) :
    unpackFields s packedRow blobBuffer j (f :: fs) u = unpackFields s packedRow blobBuffer j fs (if j = 0 then u.flush packedRow else u) := by
  have hj := mt belongs_iff.mpr hb
  rw [unpackFields]
  split_ifs at hj ⊢ <;> first | rfl | omega

/-- A pass unpacks its columns one after the other, if its runs are whole. -/
theorem unpackFields_pass {fs : List DeepField} (hfs : ∀ f ∈ fs, FieldOk f)
    (hrun : UnpackRunAt u run) (h : Whole j run fs) :
    (unpackFields s packedRow blobBuffer j fs u).fixedLength = 0 ∧
      (unpackFields s packedRow blobBuffer j fs u).settled packedRow
        = (fs.filter (·.belongs j)).foldl (unpackOne s packedRow blobBuffer) (u.settled packedRow) := by
  induction fs generalizing u run with
  | nil => exact ⟨unpack_flush_fixedLength packedRow u, unpack_flush_settled packedRow u⟩
  | cons f fs ih =>
    have hf := hfs f mem_cons_self
    have hrest : ∀ g ∈ fs, FieldOk g := (forall_mem_cons.mp hfs).2
    rw [Whole] at h
    by_cases hb : f.belongs j = true
    · rw [if_pos hb] at h
      rw [unpackFields_belongs s packedRow blobBuffer hb, filter_cons_of_pos hb, foldl_cons]
      by_cases hv : f.isVariable = true
      · rw [if_pos hv] at h
        obtain ⟨hz, hset⟩ := unpackField_variable s packedRow blobBuffer hf hv u
        have hrun₁ : UnpackRunAt (unpackField s packedRow blobBuffer u f) none := hz
        rw [← hset]
        exact ih hrest hrun₁ h
      · rw [if_neg hv] at h
        have hv' : f.isVariable = false := Bool.eq_false_iff.mpr hv
        by_cases hl : f.packLength = 0
        · rw [if_pos hl] at h
          obtain ⟨hrun₁, hset⟩ := unpackField_fixed s packedRow blobBuffer hv' hrun (.inl hl)
          rw [if_pos hl] at hrun₁
          rw [← hset]
          exact ih hrest hrun₁ h
        · rw [if_neg hl] at h
          obtain ⟨hrun₁, hset⟩ := unpackField_fixed s packedRow blobBuffer hv' hrun (.inr h.1)
          rw [if_neg hl] at hrun₁
          rw [← hset]
          exact ih hrest hrun₁ h.2
    · rw [if_neg hb] at h
      rw [filter_cons_of_neg hb, unpackFields_skips s packedRow blobBuffer hb]
      by_cases hj : j = 0
      · rw [if_pos hj] at h ⊢
        rw [← unpack_flush_settled packedRow u]
        exact ih hrest (show UnpackRunAt (u.flush packedRow) none from unpack_flush_fixedLength packedRow u) h
      · rw [if_neg hj] at h ⊢
        exact ih hrest hrun h

end Unpacking

/-! ## What comes back -/

theorem stripSpaces_spec (value : Buffer) (ptr minLen : Nat) (n : Nat) :
    stripSpaces value ptr minLen n ≤ n ∧ (minLen ≤ n → minLen ≤ stripSpaces value ptr minLen n) ∧
      ∀ i, stripSpaces value ptr minLen n ≤ i → i < n → value (ptr + i) = 0x20 := by
  induction n with
  | zero => exact ⟨Nat.le_refl _, fun h => h, fun i _ h => absurd h (Nat.not_lt_zero i)⟩
  | succ n ih =>
    rw [stripSpaces]
    by_cases h : n + 1 > minLen ∧ value (ptr + n) = 0x20
    · obtain ⟨hle, hmin, hspaces⟩ := ih
      rw [if_pos h]
      refine ⟨by omega, fun _ => hmin (by omega), fun i h₁ h₂ => ?_⟩
      rcases Nat.lt_succ_iff_lt_or_eq.mp h₂ with hlt | rfl
      · exact hspaces i h₁ hlt
      · exact h.2
    · rw [if_neg h]
      exact ⟨Nat.le_refl _, fun h => h, fun i h₁ h₂ => absurd h₁ (by omega)⟩

/-- A text padded with spaces is the one that its trailing spaces were taken from. -/
theorem padded_text {value src target : Buffer} {ptr from_ n length : Nat} (hle : n ≤ length)
    (hdata : ∀ i < n, src (from_ + i) = value (ptr + i)) (hspaces : ∀ i, n ≤ i → i < length → value (ptr + i) = 0x20) :
    ∀ i < length, padMultiByteText length n (memcpy target ptr src from_ n) ptr (ptr + i) = value (ptr + i) := by
  intro i hi
  rw [padMultiByteText]
  by_cases hin : i < n
  · rw [← hdata i hin]
    split_ifs
    · rw [memset_outside (.inl (by omega)), memcpy_inside hin]
    · rw [memcpy_inside hin]
  · rw [if_pos (by omega), hspaces i (by omega) hi]
    have hadd : ptr + i = ptr + n + (i - n) := by omega
    rw [hadd]
    exact memset_inside (by omega)

section RoundTrip

variable (multiByteMaxLen : Int → Nat) (s : SchemaBuilder) (memory row : Buffer) (packedRow : Buffer) (blobBuffer : Nat)

/-- What the round trip of a column needs of the row and of the schema. -/
structure ColumnOk (f : DeepField) : Prop extends FieldOk f where
  small : f.packLength < 2 ^ 32
  fits : f.isVariableLengthVarchar = true → f.isNull row = false → f.lengthBytes + load row f.valueOffset f.lengthBytes ≤ f.packLength

variable {f : DeepField}

theorem blobLen_lt (hf : FieldOk f) (hsmall : f.packLength < 2 ^ 32) : blobLen multiByteMaxLen row f < 256 ^ 4 := by
  rw [blobLen]
  split_ifs with hnull hvar hb
  · decide
  · refine Nat.lt_of_lt_of_le load_lt (Nat.pow_le_pow_right (by decide) ?_)
    rcases (hf.varchar hvar).1 with h | h <;> omega
  · exact Nat.lt_of_lt_of_le load_lt (Nat.pow_le_pow_right (by decide) (hf.blob (Bool.eq_false_iff.mpr hvar) hb).2.2)
  · exact Nat.lt_of_le_of_lt (stripSpaces_spec ..).1 hsmall

/-- A byte of another column, or none at all. -/
def Outside (f : DeepField) (i : Nat) : Prop := i < f.valueOffset ∨ f.valueOffset + f.room s ≤ i

/-- A text without a byte is not unpacked. -/
def NoText (f : DeepField) : Prop := f.isVariableLengthVarchar = false ∧ f.type = .textMultibyte ∧ blobLen multiByteMaxLen row f = 0

theorem room_of_not_blob (h : ¬(f.isVariableLengthVarchar = false ∧ f.type = .blob)) : f.room s = f.packLength := by
  rw [DeepField.room, if_neg]
  intro ⟨h₁, h₂⟩
  exact h ⟨Bool.eq_false_iff.mpr h₁, h₂⟩

/-- A text has room for a character of its set, or for nothing. -/
def TextFits (f : DeepField) : Prop :=
  f.isVariableLengthVarchar = false → f.type = .textMultibyte → f.packLength = 0 ∨ 0 < f.packLength / multiByteMaxLen f.characterSet

variable {multiByteMaxLen} {row}

theorem unpackOne_fixed (hv : f.isVariable = false) (u : Unpacked)
    (hbytes : bytes packedRow u.packedRowOffset f.packLength = bytes row f.valueOffset f.packLength) :
    let u' := unpackOne s packedRow blobBuffer u f
    u' = ⟨u'.unpackedRow, u.memory, u.packedRowOffset + f.packLength, u.deepBlobOffset, u.blobField⟩ ∧
      (∀ i, Outside s f i → u'.unpackedRow i = u.unpackedRow i) ∧
      Restored multiByteMaxLen memory row s u'.unpackedRow u'.memory f := by
  have hnot : ¬f.isVariableLengthVarchar = true ∧ ¬f.type = .blob ∧ ¬f.type = .textMultibyte := by
    have h := of_decide_eq_false hv
    rw [not_or, not_or] at h
    exact h
  have hroom : f.room s = f.packLength := room_of_not_blob s fun h => hnot.2.1 h.2
  have hone : unpackOne s packedRow blobBuffer u f = { u with
      unpackedRow := memcpy u.unpackedRow f.valueOffset packedRow u.packedRowOffset f.packLength
      packedRowOffset := u.packedRowOffset + f.packLength } := by
    rw [unpackOne, if_neg hnot.1, if_neg hnot.2.1, if_neg hnot.2.2]
  dsimp only
  rw [hone]
  refine ⟨rfl, fun i hi => ?_, ?_⟩
  · rw [Outside, hroom] at hi
    exact memcpy_outside hi
  · rw [Restored, hv, if_neg Bool.false_ne_true]
    exact bytes_memcpy.trans hbytes

/-- A variable column whose entry comes next is restored in its turn. -/
theorem unpackOne_variable (hf : ColumnOk row f) (hv : f.isVariable = true)
    (u : Unpacked)
    (hload : load packedRow (getPackedRowOffset s packedRow u.blobField) 4 = blobLen multiByteMaxLen row f)
    (hdata : bytes packedRow (getPackedRowOffset s packedRow u.blobField + 4) (blobLen multiByteMaxLen row f)
      = bytes (blobData memory row s f).1 (blobData memory row s f).2 (blobLen multiByteMaxLen row f))
    (hptr : blobBuffer + u.deepBlobOffset + blobLength multiByteMaxLen row [f] ≤ 256 ^ s.blobPtrSize) :
    let u' := unpackOne s packedRow blobBuffer u f
    u' = ⟨u'.unpackedRow, u'.memory, u.packedRowOffset, u.deepBlobOffset + blobLength multiByteMaxLen row [f], u.blobField + 1⟩ ∧
      (∀ i, Outside s f i ∨ NoText multiByteMaxLen row f → u'.unpackedRow i = u.unpackedRow i) ∧
      (∀ a, a < blobBuffer + u.deepBlobOffset → u'.memory a = u.memory a) ∧
      (TextFits multiByteMaxLen f → Restored multiByteMaxLen memory row s u'.unpackedRow u'.memory f) ∧
      (f.isVariableLengthVarchar = false → f.type = .blob → 0 < blobLen multiByteMaxLen row f →
        load u'.unpackedRow (f.valueOffset + f.rowPackLength) s.blobPtrSize = blobBuffer + u.deepBlobOffset) := by
  generalize hn : blobLen multiByteMaxLen row f = n at *
  generalize he : getPackedRowOffset s packedRow u.blobField = e at *
  dsimp only
  by_cases hvar : f.isVariableLengthVarchar = true
  · have hone : unpackOne s packedRow blobBuffer u f = { u with
        unpackedRow := memcpy (store u.unpackedRow f.valueOffset f.lengthBytes n) (f.valueOffset + f.lengthBytes) packedRow (e + 4) n
        blobField := u.blobField + 1 } := by
      rw [unpackOne, if_pos hvar, he, hload]
    have hroom : f.room s = f.packLength := room_of_not_blob s fun h => absurd hvar (Bool.eq_false_iff.mp h.1)
    have hblob : blobLength multiByteMaxLen row [f] = 0 := by simp [blobLength, hvar]
    rw [hone, hblob]
    refine ⟨rfl, fun i hi => ?_, fun _ _ => rfl, fun _ => ?_, fun h => absurd hvar (Bool.eq_false_iff.mp h)⟩
    · replace hi := hi.resolve_right fun h => absurd hvar (Bool.eq_false_iff.mp h.1)
      have hle : f.lengthBytes + n ≤ f.packLength := by
        rw [← hn, blobLen]
        split_ifs with hnull
        · have := (hf.varchar hvar).2
          omega
        · exact hf.fits hvar (Bool.eq_false_iff.mpr hnull)
      rw [Outside, hroom] at hi
      show memcpy (store _ _ _ _) _ _ _ _ i = _
      rw [memcpy_outside (by omega), store_outside (by omega)]
    · rw [Restored, hv, if_pos rfl]
      intro hnull
      rw [if_pos hvar, hn]
      show bytes (memcpy (store _ _ _ _) _ _ _ _) _ _ = _
      rw [blobData, if_pos hvar] at hdata
      have hlen : n = load row f.valueOffset f.lengthBytes := by
        rw [← hn, blobLen, hnull, if_neg Bool.false_ne_true, if_pos hvar]
      have hown : bytes row f.valueOffset f.lengthBytes = leBytes f.lengthBytes n := by rw [bytes_load, ← hlen]
      rw [bytes_append, bytes_append, bytes_memcpy, hdata, hown]
      congr 1
      rw [← bytes_store]
      exact bytes_congr_outside fun i _ h => memcpy_outside (.inl (by omega))
  · have hvar' : f.isVariableLengthVarchar = false := Bool.eq_false_iff.mpr hvar
    by_cases hb : f.type = .blob
    · have hone : unpackOne s packedRow blobBuffer u f = { u with
          memory := memcpy u.memory (blobBuffer + u.deepBlobOffset) packedRow (e + 4) n
          unpackedRow := if n > 0 then store (store u.unpackedRow f.valueOffset f.rowPackLength n) (f.valueOffset + f.rowPackLength)
            s.blobPtrSize (blobBuffer + u.deepBlobOffset) else store u.unpackedRow f.valueOffset f.rowPackLength n
          deepBlobOffset := u.deepBlobOffset + n
          blobField := u.blobField + 1 } := by
        rw [unpackOne, if_neg hvar, if_pos hb, he, hload]
      have hroom : f.room s = f.rowPackLength + s.blobPtrSize := by rw [DeepField.room, if_pos ⟨hvar, hb⟩]
      have hblob : blobLength multiByteMaxLen row [f] = n := by simp [blobLength, hvar', hb, hn]
      have hrow : ∀ i, f.valueOffset ≤ i → i < f.valueOffset + f.rowPackLength →
          (unpackOne s packedRow blobBuffer u f).unpackedRow i = store u.unpackedRow f.valueOffset f.rowPackLength n i := by
        intro i _ h
        rw [hone]
        show (if n > 0 then _ else _ : Buffer) i = _
        split_ifs
        · exact store_outside (.inl (by omega))
        · rfl
      have hpointer : 0 < n → load (unpackOne s packedRow blobBuffer u f).unpackedRow (f.valueOffset + f.rowPackLength) s.blobPtrSize
          = blobBuffer + u.deepBlobOffset := by
        intro h0
        rw [hone]
        show load (if n > 0 then _ else _ : Buffer) _ _ = _
        rw [if_pos h0]
        exact load_store (by rw [hblob] at hptr; omega)
      refine ⟨by rw [hone, hblob], fun i hi => ?_, fun a ha => ?_, fun _ => ?_, fun _ _ => hpointer⟩
      · replace hi := hi.resolve_right fun h => absurd (hb.symm.trans h.2.1) (by decide)
        rw [Outside, hroom] at hi
        rw [hone]
        show (if n > 0 then _ else _ : Buffer) i = _
        split_ifs
        · rw [store_outside (by omega), store_outside (by omega)]
        · rw [store_outside (by omega)]
      · rw [hone]
        exact memcpy_outside (.inl ha)
      · rw [Restored, hv, if_pos rfl]
        intro hnull
        rw [if_neg hvar, if_pos hb, hn]
        have hlen : n = load row f.valueOffset f.rowPackLength := by
          rw [← hn, blobLen, hnull, if_neg Bool.false_ne_true, if_neg hvar, if_pos hb]
        refine ⟨?_, ?_⟩
        · have hown : bytes row f.valueOffset f.rowPackLength = leBytes f.rowPackLength n := by rw [bytes_load, ← hlen]
          rw [bytes_congr_outside hrow, bytes_store, hown]
        · rcases Nat.eq_zero_or_pos n with h0 | h0
          · rw [h0, bytes_zero, bytes_zero]
          · rw [hpointer h0, hone]
            rw [blobData, if_neg hvar, if_pos hb] at hdata
            exact bytes_memcpy.trans hdata
    · have ht : f.type = .textMultibyte := ((of_decide_eq_true hv).resolve_left hvar).resolve_left hb
      have hone : unpackOne s packedRow blobBuffer u f = { u with
          unpackedRow := if n > 0 then padMultiByteText f.packLength n (memcpy u.unpackedRow f.valueOffset packedRow (e + 4) n) f.valueOffset
            else u.unpackedRow
          blobField := u.blobField + 1 } := by
        rw [unpackOne, if_neg hvar, if_neg hb, if_pos ht, he, hload]
      have hroom : f.room s = f.packLength := room_of_not_blob s fun h => hb h.2
      have hblob : blobLength multiByteMaxLen row [f] = 0 := by simp [blobLength, hb]
      have hle : n ≤ f.packLength := by
        rw [← hn, blobLen, if_neg hvar, if_neg hb]
        split_ifs
        · exact Nat.zero_le _
        · exact (stripSpaces_spec ..).1
      rw [hone, hblob]
      refine ⟨rfl, fun i hi => ?_, fun _ _ => rfl, fun htext => ?_, fun _ h => absurd h hb⟩
      · show (if n > 0 then _ else _ : Buffer) i = _
        split_ifs with h0
        · replace hi := hi.resolve_right fun h => absurd (hn.symm.trans h.2.2) (Nat.pos_iff_ne_zero.mp h0)
          rw [Outside, hroom] at hi
          rw [padMultiByteText]
          split_ifs
          · rw [memset_outside (by omega), memcpy_outside (by omega)]
          · rw [memcpy_outside (by omega)]
        · rfl
      · rw [Restored, hv, if_pos rfl]
        intro hnull
        rw [if_neg hvar, if_neg hb]
        show bytes (if n > 0 then _ else _ : Buffer) _ _ = _
        have hlen : n = stripSpaces row f.valueOffset (f.packLength / multiByteMaxLen f.characterSet) f.packLength := by
          rw [← hn, blobLen, hnull, if_neg Bool.false_ne_true, if_neg hvar, if_neg hb]
          rfl
        obtain ⟨-, hmin, hspaces⟩ := stripSpaces_spec row f.valueOffset (f.packLength / multiByteMaxLen f.characterSet) f.packLength
        rw [← hlen] at hmin hspaces
        rw [blobData, if_neg hvar, if_neg hb] at hdata
        by_cases h0 : n > 0
        · rw [if_pos h0]
          exact bytes_inj.mpr (padded_text hle (bytes_inj.mp hdata) hspaces)
        · -- a text of no bytes is that of a column without room
          have hmin' := hmin (Nat.div_le_self _ _)
          rcases htext hvar' ht with hzero | hroomy
          · rw [hzero]
            rfl
          · omega

/-- A column stays restored while its bytes and its blob data stay. -/
theorem restored_congr (hf : ColumnOk row f) {row' row'' memory' memory'' : Buffer}
    (h : Restored multiByteMaxLen memory row s row' memory' f) (hrow : ∀ i, ¬Outside s f i → row'' i = row' i)
    (hmemory : f.isVariableLengthVarchar = false → f.type = .blob → ∀ a, load row' (f.valueOffset + f.rowPackLength) s.blobPtrSize ≤ a →
      a < load row' (f.valueOffset + f.rowPackLength) s.blobPtrSize + blobLen multiByteMaxLen row f → memory'' a = memory' a) :
    Restored multiByteMaxLen memory row s row'' memory'' f := by
  have hbytes (p n : Nat) (hp : f.valueOffset ≤ p) (hn : p + n ≤ f.valueOffset + f.room s) : bytes row'' p n = bytes row' p n :=
    bytes_congr_outside fun i h₁ h₂ => hrow i (by rw [Outside]; omega)
  rw [Restored] at h ⊢
  by_cases hv : f.isVariable = true
  · rw [if_pos hv] at h ⊢
    intro hnull
    have h := h hnull
    by_cases hvar : f.isVariableLengthVarchar = true
    · rw [if_pos hvar] at h ⊢
      have hlen : blobLen multiByteMaxLen row f = load row f.valueOffset f.lengthBytes := by
        rw [blobLen, hnull, if_neg Bool.false_ne_true, if_pos hvar]
      have hroom : f.room s = f.packLength := room_of_not_blob s fun h => absurd hvar (Bool.eq_false_iff.mp h.1)
      have hfits := hf.fits hvar hnull
      rw [hbytes _ _ (Nat.le_refl _) (by omega)]
      exact h
    · rw [if_neg hvar] at h ⊢
      by_cases hb : f.type = .blob
      · rw [if_pos hb] at h ⊢
        have hroom : f.room s = f.rowPackLength + s.blobPtrSize := by rw [DeepField.room, if_pos ⟨hvar, hb⟩]
        have hptr : load row'' (f.valueOffset + f.rowPackLength) s.blobPtrSize = load row' (f.valueOffset + f.rowPackLength) s.blobPtrSize :=
          load_congr fun i hi => hrow _ (by rw [Outside]; omega)
        rw [hbytes _ _ (Nat.le_refl _) (by omega), hptr]
        refine ⟨h.1, ?_⟩
        rw [bytes_congr_outside (hmemory (Bool.eq_false_iff.mpr hvar) hb)]
        exact h.2
      · rw [if_neg hb] at h ⊢
        have hroom : f.room s = f.packLength := room_of_not_blob s fun h => hb h.2
        rw [hbytes _ _ (Nat.le_refl _) (by omega)]
        exact h
  · rw [if_neg hv] at h ⊢
    have hroom : f.room s = f.packLength := room_of_not_blob s fun h => hv (decide_eq_true (.inr (.inl h.2)))
    rw [hbytes _ _ (Nat.le_refl _) (by omega)]
    exact h

/-- Two columns share no byte. -/
def Apart (f g : DeepField) : Prop := f.valueOffset + f.room s ≤ g.valueOffset ∨ g.valueOffset + g.room s ≤ f.valueOffset

theorem blobLength_cons (f : DeepField) (fs : List DeepField) :
    blobLength multiByteMaxLen row (f :: fs) = blobLength multiByteMaxLen row [f] + blobLength multiByteMaxLen row fs := by
  unfold blobLength
  rw [← singleton_append, filter_append, map_append, sum_append]

/-- Columns whose bytes are in the packed row, in order, are restored one after the other, and nothing else changes. -/
theorem unpackAll_restored {fs : List DeepField} (hfs : ∀ f ∈ fs, ColumnOk row f) (hapart : fs.Pairwise (Apart s)) (u : Unpacked)
    (hfixed : bytes packedRow u.packedRowOffset (fixedLengthOf fs) = fs.flatMap (fixedBytes row))
    (hentry : bytes packedRow (getPackedRowOffset s packedRow u.blobField) (entryLength multiByteMaxLen s memory row fs)
      = fs.flatMap (entry multiByteMaxLen s memory row))
    (hptr : blobBuffer + u.deepBlobOffset + blobLength multiByteMaxLen row fs ≤ 256 ^ s.blobPtrSize) :
    let u' := fs.foldl (unpackOne s packedRow blobBuffer) u
    (∀ f ∈ fs, TextFits multiByteMaxLen f → Restored multiByteMaxLen memory row s u'.unpackedRow u'.memory f) ∧
      (∀ i, (∀ f ∈ fs, Outside s f i ∨ NoText multiByteMaxLen row f) → u'.unpackedRow i = u.unpackedRow i) ∧
      (∀ a, a < blobBuffer + u.deepBlobOffset → u'.memory a = u.memory a) ∧
      getPackedRowOffset s packedRow u'.blobField
        = getPackedRowOffset s packedRow u.blobField + entryLength multiByteMaxLen s memory row fs ∧
      u'.deepBlobOffset = u.deepBlobOffset + blobLength multiByteMaxLen row fs := by
  induction fs generalizing u with
  | nil => exact ⟨fun f hf => absurd hf not_mem_nil, fun _ _ => rfl, fun _ _ => rfl, rfl, rfl⟩
  | cons f fs ih =>
    have hf := hfs f mem_cons_self
    have hrest : ∀ g ∈ fs, ColumnOk row g := (forall_mem_cons.mp hfs).2
    rw [pairwise_cons] at hapart
    rw [fixedLengthOf_cons, flatMap_cons] at hfixed
    rw [entryLength_cons] at hentry ⊢
    rw [flatMap_cons] at hentry
    rw [blobLength_cons] at hptr
    dsimp only
    rw [foldl_cons]
    obtain ⟨he, hentry⟩ := bytes_split hentry rfl
    -- the first column is restored, the others find theirs behind it
    have hstep : ∃ u₁, unpackOne s packedRow blobBuffer u f = u₁ ∧
        (TextFits multiByteMaxLen f → Restored multiByteMaxLen memory row s u₁.unpackedRow u₁.memory f) ∧
        (∀ i, Outside s f i ∨ NoText multiByteMaxLen row f → u₁.unpackedRow i = u.unpackedRow i) ∧
        (∀ a, a < blobBuffer + u.deepBlobOffset → u₁.memory a = u.memory a) ∧
        u₁.deepBlobOffset = u.deepBlobOffset + blobLength multiByteMaxLen row [f] ∧
        bytes packedRow u₁.packedRowOffset (fixedLengthOf fs) = fs.flatMap (fixedBytes row) ∧
        getPackedRowOffset s packedRow u₁.blobField
          = getPackedRowOffset s packedRow u.blobField + (entry multiByteMaxLen s memory row f).length ∧
        (f.isVariableLengthVarchar = false → f.type = .blob → 0 < blobLen multiByteMaxLen row f →
          load u₁.unpackedRow (f.valueOffset + f.rowPackLength) s.blobPtrSize + blobLen multiByteMaxLen row f
            ≤ blobBuffer + u₁.deepBlobOffset) := by
      by_cases hv : f.isVariable = true
      · rw [entry, if_pos hv, length_append, length_leBytes, length_bytes] at he
        obtain ⟨hlen, hdata⟩ := bytes_split he length_leBytes
        have hload : load packedRow (getPackedRowOffset s packedRow u.blobField) 4 = blobLen multiByteMaxLen row f := by
          rw [load_leBytes (bytes_eq_leBytes.mp hlen), Nat.mod_eq_of_lt (blobLen_lt multiByteMaxLen row hf.toFieldOk hf.small)]
        obtain ⟨heq, houtside, hmemory, hrestored, hpointer⟩ := unpackOne_variable s memory packedRow blobBuffer hf hv u hload hdata
          (by omega)
        refine ⟨_, rfl, hrestored, houtside, hmemory, ?_, ?_, ?_, ?_⟩
        · rw [heq]
        · rw [heq]
          rw [if_pos hv, Nat.zero_add, fixedBytes, if_pos hv, nil_append] at hfixed
          exact hfixed
        · rw [heq, length_entry multiByteMaxLen s memory row hv]
          show getPackedRowOffset s packedRow u.blobField + (load packedRow (getPackedRowOffset s packedRow u.blobField) 4 + 4) = _
          rw [hload, Nat.add_comm _ 4]
        · intro hvar hb h0
          have hblob : blobLength multiByteMaxLen row [f] = blobLen multiByteMaxLen row f := by simp [blobLength, hvar, hb]
          rw [hpointer hvar hb h0, heq, hblob]
          exact Nat.le_of_eq (Nat.add_assoc ..)
      · have hv' : f.isVariable = false := Bool.eq_false_iff.mpr hv
        rw [if_neg hv, fixedBytes, if_neg hv] at hfixed
        obtain ⟨hown, hfixed⟩ := bytes_split hfixed length_bytes
        obtain ⟨heq, houtside, hrestored⟩ := @unpackOne_fixed multiByteMaxLen s memory row packedRow blobBuffer f hv' u hown
        have hlen : (entry multiByteMaxLen s memory row f).length = 0 := by
          rw [entry, if_neg hv]
          rfl
        have hnot : ¬(f.isVariableLengthVarchar = true ∨ f.type = .blob ∨ f.type = .textMultibyte) := of_decide_eq_false hv'
        rw [not_or, not_or] at hnot
        refine ⟨_, rfl, fun _ => hrestored, fun i hi => houtside i (hi.resolve_right fun h => hnot.2.2 h.2.1), fun _ _ => by rw [heq], ?_, ?_, ?_,
          fun _ hb => absurd hb hnot.2.1⟩
        · rw [heq]
          simp [blobLength, hnot.2.1]
        · rw [heq]
          exact hfixed
        · rw [heq, hlen]
          rfl
    obtain ⟨u₁, hone, hrestored, houtside, hmemory, hdeep, hfixed₁, hoffset, hpointer⟩ := hstep
    rw [hone]
    rw [← hoffset] at hentry
    obtain ⟨ihr, iho, ihm, ihp, ihd⟩ := ih hrest hapart.2 u₁ hfixed₁ hentry (by omega)
    refine ⟨fun g hg htext => ?_, fun i hi => ?_, fun a ha => ?_, ?_, ?_⟩
    · rcases mem_cons.mp hg with rfl | hg
      · refine restored_congr s memory hf (hrestored htext) (fun i hi => iho i fun g' hg' => .inl ?_) fun hvar hb a h₁ h₂ => ihm a ?_
        · have := hapart.1 g' hg'
          rw [Outside] at hi ⊢
          rw [Apart] at this
          omega
        · have := hpointer hvar hb (by omega)
          omega
      · exact ihr g hg htext
    · rw [iho i (forall_mem_cons.mp hi).2, houtside i (hi f mem_cons_self)]
    · rw [ihm a (by omega), hmemory a ha]
    · rw [ihp, hoffset, Nat.add_assoc]
    · rw [ihd, hdeep, blobLength_cons f fs, Nat.add_assoc]

end RoundTrip

end DeepFabric.Store.RowProtocol
