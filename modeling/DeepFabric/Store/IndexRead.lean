/-
  DeepFabric.Store.IndexRead — rows that are read from an index (api/deep/Protocol.h: RowProtocol_v1:
  unpackRowFromKey, unpackRowFromKeyPart, unpackRow).

  A query that an index has all columns for is answered from the packed key: the row is cleared, and
  every part of the key is unpacked into its column. A text of several bytes a character is in the
  key with its trailing spaces, and in the packed row without; unpackRow puts them back.

  A text that has less room than a character of its set and is all spaces has no bytes in the packed
  row, and unpackRow leaves the column alone: what was in the buffer is there, and the index has the
  spaces.
-/
import Mathlib.Algebra.Group.Nat.Defs
import DeepFabric.Store.KeyEquality
import DeepFabric.Store.RowLayout
import DeepFabric.Store.VariableColumn

namespace DeepFabric.Store.IndexRead

open DeepFabric.Lib Buffer CompositeKey KeyFill RowProtocol List Function
open Bool (eq_false_iff)
open Prod (fst)

/-! ## Unpacking a key -/

/-- The state of the loop; packedKey is how far the key is read. -/
structure KeyUnpacking where
  unpackedRow : Buffer
  memory : Buffer
  packedKey : Nat
  deepBlobOffset : Nat

section

variable (s : SchemaBuilder) (key : Buffer) (blobBuffer : Nat)

/-- The second half of unpackRowFromKeyPart: a column out of the bytes at `p`. -/
def unpackColumn (u : KeyUnpacking) (field : DeepField) (length p : Nat) : KeyUnpacking :=
  let fieldOffset := field.valueOffset
  if field.type = .varText1 then
    let blobLen := load key p 2
    let row := store u.unpackedRow fieldOffset (if field.lengthBytes = 2 then 2 else 1) blobLen
    { u with unpackedRow := if blobLen > 0 then memcpy row (fieldOffset + field.lengthBytes) key (p + 2) blobLen else row }
  else if field.type = .blob then
    let blobLen := load key p 2
    let row := store u.unpackedRow fieldOffset
      (if field.rowPackLength = 4 then 4 else if field.rowPackLength = 3 then 3 else if field.rowPackLength = 2 then 2 else 1) blobLen
    if blobLen > 0 then
      let deepBlobPtr := blobBuffer + u.deepBlobOffset
      { u with
        memory := memcpy u.memory deepBlobPtr key (p + 2) blobLen
        unpackedRow := store row (fieldOffset + field.rowPackLength) s.blobPtrSize deepBlobPtr
        deepBlobOffset := u.deepBlobOffset + blobLen }
    else { u with unpackedRow := row }
  else { u with unpackedRow := memcpy u.unpackedRow fieldOffset key p length }

/-- A part and m_field, which a hidden part does not have: the hidden part is not even skipped. -/
def unpackRowFromKeyPart (u : KeyUnpacking) (part : KeyPart) (field : Option DeepField) : KeyUnpacking :=
  match field with
  | none => u
  | some field =>
    let next := u.packedKey + part.getPackLength key u.packedKey
    if part.nullBit ≠ 0 then
      let null := u.unpackedRow part.nullOffset
      if key u.packedKey ≠ 0 then
        { u with unpackedRow := Function.update u.unpackedRow part.nullOffset (null ||| part.nullBit), packedKey := next }
      else
        let row := Function.update u.unpackedRow part.nullOffset (null &&& ~~~part.nullBit)
        { unpackColumn s key blobBuffer { u with unpackedRow := row } field part.length (u.packedKey + 1) with packedKey := next }
    else { unpackColumn s key blobBuffer u field part.length u.packedKey with packedKey := next }

/-- unpackRowFromKey, with the buffer for blob data at `blobBuffer`: the row and the memory after it. -/
def unpackRowFromKey (keyParts : List (KeyPart × Option DeepField)) (memory unpackedRow : Buffer) (preserve : Bool) : Buffer × Buffer :=
  let row := if preserve then unpackedRow else memset unpackedRow 0 0 s.unpackedRowLength
  let u := keyParts.foldl (fun u p => unpackRowFromKeyPart s key blobBuffer u p.1 p.2) ⟨row, memory, 0, 0⟩
  (u.unpackedRow, u.memory)

end

/-! ## Indexes over whole columns -/

/-- A part that stands for a column, as far as its image depends on it: it reads the column where packRow puts it, and has room for
    all of it. -/
structure ColumnPart (s : SchemaBuilder) (part : KeyPart) (f : DeepField) : Prop where
  nullBit : part.nullBit = f.nullBit
  nullOffset : part.nullOffset = f.nullOffset
  realType : f.type = .varText1 ↔ f.realType = .varText1
  place : ∃ l r, s.fields = l ++ f :: r ∧
    if f.isVariable then part.valueOffset = s.blobStartOffset ∧ part.variablePosition = (l.filter (·.isVariable)).length
    else part.valueOffset = s.nullBytes + fixedLengthOf l
  varchar : f.isVariableLengthVarchar = true → (part.type = .varText ∨ part.type = .varBinary) ∧ part.length + f.lengthBytes = f.packLength
  /-- A short varchar is a fixed column. -/
  shortVarchar : f.type = .varText1 → f.isVariableLengthVarchar = false →
    (part.type = .fixedVarText ∨ part.type = .fixedVarBinary) ∧ f.lengthBytes = 1 ∧ part.length + 1 = f.packLength
  blob : f.type = .blob → part.type = .varText ∨ part.type = .varBinary
  text : f.type = .textMultibyte → part.type = .textMultibyte ∧ part.length = f.packLength
  other : ∀ code, f.type = .other code →
    part.type ∉ [.varText, .varBinary, .fixedVarText, .fixedVarBinary, .textMultibyte, .hidden] ∧ part.length = f.packLength

/-- The parts of an index, with their columns. A hidden part makes a key unique and comes last. -/
structure Index (s : SchemaBuilder) extends KeySchema where
  columns : List (KeyPart × DeepField)
  hidden : List KeyPart
  split : parts = columns.map fst ++ hidden
  column : ∀ p ∈ columns, ColumnPart s p.1 p.2
  hiddenLast : ∀ part ∈ hidden, part.type = .hidden

/-- The parts with m_field, as addKeyPart sets it. -/
def Index.keyParts {s : SchemaBuilder} (index : Index s) : List (KeyPart × Option DeepField) :=
  index.columns.map (fun p => (p.1, some p.2)) ++ index.hidden.map fun part => (part, none)

/-- Tables have no virtual columns, a packed row without blob data has a uinttype length, a pointer to blob data has eight bytes, and no
    two columns share a null bit. -/
structure Plain (s : SchemaBuilder) : Prop extends RowProtocol.WellFormed s where
  noVirtual : s.hasVirtualFields = false
  rowLength : s.unpackedRowLength + 4 * s.fields.length < 2 ^ 32
  blobPtrSize : ∀ f ∈ s.fields, f.type = .blob → s.blobPtrSize = 8
  nullBits : ∀ f ∈ s.fields, ∀ g ∈ s.fields, f ≠ g → f.nullOffset = g.nullOffset → f.nullBit &&& g.nullBit = 0

section

variable (multiByteMaxLen : Int → Nat) (memory row : Buffer)

/-- The columns of an index are whole in its key: a short varchar is not longer than its room, and a blob not longer than its part.
    A packed row's length is a uinttype. -/
structure RowOk {s : SchemaBuilder} (index : Index s) : Prop where
  fits : RowFits row s
  varchar : ∀ p ∈ index.columns, p.2.type = .varText1 → p.2.isNull row = false →
    p.2.lengthBytes + load row p.2.valueOffset p.2.lengthBytes ≤ p.2.packLength
  blob : ∀ p ∈ index.columns, p.2.type = .blob → p.2.isNull row = false → load row p.2.valueOffset p.2.rowPackLength ≤ p.1.length
  short : entryLength multiByteMaxLen s memory row s.fields < 2 ^ 32

end

/-- Two rows have the same in a column that is not null: a varchar and a blob in length and content. -/
def SameColumn (s : SchemaBuilder) (f : DeepField) (row₁ memory₁ row₂ memory₂ : Buffer) : Prop :=
  if f.type = .varText1 then
    load row₁ f.valueOffset f.lengthBytes = load row₂ f.valueOffset f.lengthBytes ∧
      bytes row₁ (f.valueOffset + f.lengthBytes) (load row₁ f.valueOffset f.lengthBytes)
        = bytes row₂ (f.valueOffset + f.lengthBytes) (load row₁ f.valueOffset f.lengthBytes)
  else if f.type = .blob then
    load row₁ f.valueOffset f.rowPackLength = load row₂ f.valueOffset f.rowPackLength ∧
      bytes memory₁ (load row₁ (f.valueOffset + f.rowPackLength) s.blobPtrSize) (load row₁ f.valueOffset f.rowPackLength)
        = bytes memory₂ (load row₂ (f.valueOffset + f.rowPackLength) s.blobPtrSize) (load row₁ f.valueOffset f.rowPackLength)
  else bytes row₁ f.valueOffset f.packLength = bytes row₂ f.valueOffset f.packLength

/-- A row that is read from the index agrees with the one that is unpacked, whatever was in the buffers, and wherever the blob data
    goes. -/
def Agrees (multiByteMaxLen : Int → Nat) (populate : Populate) {s : SchemaBuilder} (index : Index s) : Prop :=
  ∀ memory row buffer memory₁ target₁ memory₂ target₂ pkey : Buffer, ∀ (key : Key) (blobBuffer₁ blobBuffer₂ : Nat),
    RowOk multiByteMaxLen memory row index → blobBuffer₁ + blobLength multiByteMaxLen row s.fields ≤ 256 ^ s.blobPtrSize →
    (∀ p ∈ index.columns, p.2.type = .blob → blobBuffer₂ + 2 ^ 16 ≤ 256 ^ s.blobPtrSize) →
    ∃ packed k, packRow multiByteMaxLen s memory row buffer = .ok packed ∧
      fillKey populate index.parts (some pkey) packed key = .ok k ∧
        let unpacked := unpackRow s packed blobBuffer₁ memory₁ target₁
        let read := unpackRowFromKey s k.data blobBuffer₂ index.keyParts memory₂ target₂ false
        (∀ p ∈ index.columns, p.2.isNull unpacked.1 = p.2.isNull read.1 ∧
          (p.2.isNull unpacked.1 = false → SameColumn s p.2 unpacked.1 unpacked.2 read.1 read.2)) ∧
        ∀ f ∈ s.fields, (∀ p ∈ index.columns, p.2 ≠ f) →
          f.isNull read.1 = false ∧ bytes read.1 f.valueOffset (f.room s) = List.replicate (f.room s) 0

variable {multiByteMaxLen : Int → Nat} {populate : Populate} {s : SchemaBuilder} {f : DeepField} {part : KeyPart}
  {memory row packed key pkey : Buffer} {blobBuffer d i : Nat}

/-! ## The packed row -/

/-- What a packed row has. -/
structure Image (multiByteMaxLen : Int → Nat) (s : SchemaBuilder) (memory row packed : Buffer) : Prop where
  nulls : bytes packed 0 s.nullBytes = bytes row 0 s.nullBytes
  fixed : bytes packed s.nullBytes (fixedLengthOf s.fields) = s.fields.flatMap (fixedBytes row)
  entries : bytes packed s.blobStartOffset (entryLength multiByteMaxLen s memory row s.fields)
    = s.fields.flatMap (entry multiByteMaxLen s memory row)

theorem Plain.ordinary (hs : Plain s) : ∀ f ∈ s.fields, f.gcVirtual = false := by
  intro f hf
  have hnone := hs.noVirtual
  rw [hs.hasVirtualFields] at hnone
  exact eq_false_iff.mpr (any_eq_false.mp hnone f hf)

theorem Plain.order (hs : Plain s) : order s.fields = s.fields := by
  have hall : s.fields.filter (·.belongs 0) = s.fields := by
    refine filter_eq_self.mpr fun f hf => ?_
    rw [belongs_zero, hs.ordinary f hf]
    rfl
  rw [RowProtocol.order, hall, order_of_no_virtual (hs.hasVirtualFields ▸ hs.noVirtual), append_nil]

theorem Plain.whole (hs : Plain s) : Whole 1 none s.fields :=
  whole_of_no_virtual (fun f hf => by rw [hs.ordinary f hf]; exact Bool.false_ne_true) none

theorem packRow_plain (hs : Plain s) (memory row buffer : Buffer) :
    ∃ packed, packRow multiByteMaxLen s memory row buffer = .ok packed ∧ Image multiByteMaxLen s memory row packed := by
  by_cases hv : s.hasVariableLengthFields = true
  · obtain ⟨packed, hpacked, hnulls, -, hentries, hfixed⟩ :=
      @packRow_image multiByteMaxLen s memory row hs.toWellFormed (.inl hv) buffer
    rw [hs.order] at hentries hfixed
    exact ⟨packed, hpacked, hnulls, hfixed hs.whole, hentries⟩
  · have hv' : s.hasVariableLengthFields = false := eq_false_iff.mpr hv
    have hfixed := isVariable_of_none hs.toWellFormed hv'
    refine ⟨row, by rw [packRow, if_pos ⟨hv', hs.noVirtual⟩], rfl, ?_, ?_⟩
    · rw [hs.laid.flatMap_fixedBytes hfixed, sum_room hs.laid hfixed]
    · have hnone : ∀ f ∈ s.fields, entry multiByteMaxLen s memory row f = [] := fun f hf => by
        rw [entry, hfixed f hf, if_neg Bool.false_ne_true]
      have hlen : (s.fields.flatMap (entry multiByteMaxLen s memory row)).length = entryLength multiByteMaxLen s memory row s.fields :=
        length_flatMap_entry
      rw [flatMap_eq_nil_iff.mpr hnone] at hlen ⊢
      rw [← hlen]
      rfl

variable {l r : List DeepField}

theorem Image.column (h : Image multiByteMaxLen s memory row packed) (hsplit : s.fields = l ++ f :: r)
    (hv : f.isVariable = false) : bytes packed (s.nullBytes + fixedLengthOf l) f.packLength = bytes row f.valueOffset f.packLength := by
  have hfixed := h.fixed
  rw [hsplit, flatMap_append, flatMap_cons, fixedLengthOf_append, fixedLengthOf_cons, hv, if_neg Bool.false_ne_true] at hfixed
  obtain ⟨-, hrest⟩ := bytes_split hfixed length_flatMap_fixedBytes
  obtain ⟨hown, -⟩ := bytes_split hrest (length_fixedBytes hv)
  rw [hown, fixedBytes, hv, if_neg Bool.false_ne_true]

/-- The data of a variable column. -/
def data (multiByteMaxLen : Int → Nat) (s : SchemaBuilder) (memory row : Buffer) (f : DeepField) : List UInt8 :=
  bytes (blobData memory row s f).1 (blobData memory row s f).2 (blobLen multiByteMaxLen row f)

theorem area_data (fs : List DeepField) : VariableColumn.area ((fs.filter (·.isVariable)).map (data multiByteMaxLen s memory row))
    = fs.flatMap (entry multiByteMaxLen s memory row) := by
  induction fs with
  | nil => rfl
  | cons f fs ih =>
    rw [flatMap_cons, ← ih]
    by_cases hv : f.isVariable = true
    · rw [filter_cons_of_pos hv, map_cons, entry, if_pos hv]
      simp [VariableColumn.area, data]
    · rw [filter_cons_of_neg hv, entry, if_neg hv, nil_append]

theorem Image.laid (hs : Plain s) (h : Image multiByteMaxLen s memory row packed) (hfits : RowFits row s)
    (hshort : entryLength multiByteMaxLen s memory row s.fields < 2 ^ 32) (hsplit : s.fields = l ++ f :: r) :
    VariableColumn.Row packed s.blobStartOffset ((s.fields.filter (·.isVariable)).map (data multiByteMaxLen s memory row))
      (l.filter (·.isVariable)).length := by
  have hlen : ∀ fs : List DeepField, (VariableColumn.area ((fs.filter (·.isVariable)).map (data multiByteMaxLen s memory row))).length
      = entryLength multiByteMaxLen s memory row fs := fun fs => by
    rw [area_data]
    exact length_flatMap_entry
  refine ⟨?_, fun record hrecord => ?_, ?_⟩
  · rw [hlen, area_data]
    exact h.entries
  · obtain ⟨g, hg, rfl⟩ := mem_map.mp hrecord
    have hok := hs.toWellFormed.columnOk hfits (mem_of_mem_filter hg)
    rw [data, length_bytes]
    exact blobLen_lt multiByteMaxLen row hok.toFieldOk hok.small
  · have htake : ((s.fields.filter (·.isVariable)).map (data multiByteMaxLen s memory row)).take (l.filter (·.isVariable)).length
        = (l.filter (·.isVariable)).map (data multiByteMaxLen s memory row) := by
      rw [hsplit, filter_append, map_append, List.take_left' (by rw [length_map])]
    rw [htake, hlen]
    rw [hsplit, entryLength_append] at hshort
    omega

theorem Image.record (hsplit : s.fields = l ++ f :: r) (hv : f.isVariable = true) :
    ((s.fields.filter (·.isVariable)).map (data multiByteMaxLen s memory row))[(l.filter (·.isVariable)).length]?
      = some (data multiByteMaxLen s memory row f) := by
  rw [hsplit, filter_append, filter_cons_of_pos hv, map_append, map_cons,
    List.getElem?_append_right (by rw [length_map]), length_map, Nat.sub_self]
  rfl

/-! ## What a part has of its column -/

/-- What is behind the null byte of a part. -/
def keyImage (multiByteMaxLen : Int → Nat) (s : SchemaBuilder) (memory row : Buffer) (f : DeepField) : List UInt8 :=
  if f.type = .varText1 then
    leBytes 2 (load row f.valueOffset f.lengthBytes) ++ bytes row (f.valueOffset + f.lengthBytes) (load row f.valueOffset f.lengthBytes)
  else if f.type = .blob then
    leBytes 2 (load row f.valueOffset f.rowPackLength) ++ data multiByteMaxLen s memory row f
  else bytes row f.valueOffset f.packLength

theorem not_varchar (hr : f.type = .varText1 ↔ f.realType = .varText1) (ht : f.type ≠ .varText1) : f.isVariableLengthVarchar = false := by
  refine decide_eq_false fun h => ht (hr.mpr h.1)

theorem null_column (hs : Plain s) (h : Image multiByteMaxLen s memory row packed) (hc : ColumnPart s part f) (hf : f ∈ s.fields) :
    part.null packed = f.isNull row := by
  unfold KeyPart.null DeepKeyPart.maybeNull KeyPart.isNull DeepField.isNull
  rw [hc.nullBit, hc.nullOffset]
  by_cases hbit : f.nullBit = 0
  · simp [hbit]
  · have hoffset := (hs.nullable f hf).resolve_left hbit
    have hbyte := bytes_inj.mp h.nulls f.nullOffset hoffset
    rw [Nat.zero_add] at hbyte
    simp [hbit, hbyte]

theorem ColumnPart.mem (hc : ColumnPart s part f) : f ∈ s.fields := by
  obtain ⟨l, r, hsplit, -⟩ := hc.place
  rw [hsplit]
  exact mem_append_right _ mem_cons_self

/-- A text with its trailing spaces is the one without, padded. -/
theorem padded (row : Buffer) (p minLen n : Nat) :
    bytes row p (stripSpaces row p minLen n) ++ List.replicate (n - stripSpaces row p minLen n) 0x20 = bytes row p n := by
  obtain ⟨hle, -, hspaces⟩ := stripSpaces_spec row p minLen n
  obtain ⟨k, hk⟩ := Nat.exists_eq_add_of_le hle
  generalize stripSpaces row p minLen n = m at *
  subst hk
  rw [bytes_append, Nat.add_sub_cancel_left]
  congr 1
  refine (eq_replicate_iff.mpr ⟨length_bytes, ?_⟩).symm
  intro b hb
  obtain ⟨j, hj, rfl⟩ := mem_map.mp hb
  rw [Nat.add_assoc]
  exact hspaces _ (Nat.le_add_right m j) (by have := mem_range.mp hj; omega)

variable (hcopies : VariableColumn.Copies populate) (hs : Plain s) (h : Image multiByteMaxLen s memory row packed) (hfits : RowFits row s)
  (hshort : entryLength multiByteMaxLen s memory row s.fields < 2 ^ 32) (hc : ColumnPart s part f)

include hcopies hs h hfits hshort hc in
/-- The payload of a variable part whose column is no longer than the part. -/
theorem payload_record
    (hslot : part.slot < 2 ^ 16) (hv : f.isVariable = true)
    (ht : part.type = .varBinary ∨ part.type = .varText ∨ part.type = .textMultibyte) (hle : blobLen multiByteMaxLen row f ≤ part.length) :
    part.payload populate packed = VariableColumn.column part (data multiByteMaxLen s memory row f) := by
  obtain ⟨l, r, hsplit, hplace⟩ := hc.place
  rw [if_pos hv] at hplace
  have hpos : part.variablePosition.toNat = (l.filter (·.isVariable)).length := by
    rw [hplace.2]
    rfl
  have hrow := h.laid hs hfits hshort hsplit
  rw [← hplace.1] at hrow
  have hvar : VariableColumn.Variable part := ⟨ht, by rw [hplace.2]; exact Int.natCast_nonneg _, hslot⟩
  have hlen : (data multiByteMaxLen s memory row f).length < 2 ^ 16 := by
    rw [data, length_bytes]
    rw [KeyPart.slot] at hslot
    omega
  rw [VariableColumn.payload_eq hcopies hvar hrow (Image.record hsplit hv) hpos, Nat.mod_eq_of_lt hlen, take_length]

theorem column_variable (ht : part.type = .varText ∨ part.type = .varBinary) {record : List UInt8} (hle : record.length ≤ part.length) :
    VariableColumn.column part record = leBytes 2 record.length ++ record := by
  unfold VariableColumn.column
  rcases ht with ht | ht <;> simp only [ht, Nat.min_eq_left hle, take_length]

/-- A short varchar is in the key with its length in two bytes. -/
theorem payload_short (hcopies : VariableColumn.Copies populate) (ht : part.type = .fixedVarText ∨ part.type = .fixedVarBinary)
    {offset : Nat} (hsame : bytes packed part.valueOffset (1 + part.length) = bytes row offset (1 + part.length))
    (hle : load row offset 1 ≤ part.length) :
    part.payload populate packed = leBytes 2 (load row offset 1) ++ bytes row (offset + 1) (load row offset 1) := by
  rw [bytes_append, bytes_append] at hsame
  obtain ⟨hlen, hdata⟩ := append_inj hsame (by rw [length_bytes, length_bytes])
  have hbyte : packed part.valueOffset = row offset := by simpa [Buffer.bytes] using hlen
  have hload : load row offset 1 = (row offset).toNat := by simp [load]
  rw [hload] at hle ⊢
  have hfront : bytes packed (part.valueOffset + 1) (row offset).toNat = bytes row (offset + 1) (row offset).toNat :=
    bytes_inj.mpr fun i hi => bytes_inj.mp hdata i (by omega)
  unfold KeyPart.payload
  rcases ht with ht | ht
  · simp only [ht, hcopies _ _ _, length_bytes, hbyte, Nat.min_eq_left hle, hfront]
  · simp only [ht, hbyte, hfront]

include hcopies hs h hfits hshort hc in
theorem payload_column
    (hslot : part.slot < 2 ^ 16) (hnull : f.isNull row = false)
    (hvarchar : f.type = .varText1 → f.lengthBytes + load row f.valueOffset f.lengthBytes ≤ f.packLength)
    (hblob : f.type = .blob → load row f.valueOffset f.rowPackLength ≤ part.length) :
    part.payload populate packed = keyImage multiByteMaxLen s memory row f := by
  have hrecord := @payload_record multiByteMaxLen populate s f part memory row packed hcopies hs h hfits hshort hc hslot
  obtain ⟨l, r, hsplit, hplace⟩ := hc.place
  have hlen : (data multiByteMaxLen s memory row f).length = blobLen multiByteMaxLen row f := length_bytes
  unfold keyImage
  cases ht : f.type with
  | varText1 =>
    rw [if_pos rfl]
    have hfit := hvarchar ht
    by_cases hvar : f.isVariableLengthVarchar = true
    · obtain ⟨htype, hlength⟩ := hc.varchar hvar
      have hblobLen : blobLen multiByteMaxLen row f = load row f.valueOffset f.lengthBytes := by
        rw [blobLen, hnull, if_neg Bool.false_ne_true, if_pos hvar]
      rw [hrecord (decide_eq_true (.inl hvar)) (htype.elim (fun h => .inr (.inl h)) .inl) (by omega),
        column_variable htype (by omega), hlen, hblobLen, data, blobData, if_pos hvar, hblobLen]
    · obtain ⟨htype, hbytes, hlength⟩ := hc.shortVarchar ht (eq_false_iff.mpr hvar)
      have hfixed : f.isVariable = false := decide_eq_false (by simp [hvar, ht])
      rw [if_neg (by rw [hfixed]; exact Bool.false_ne_true)] at hplace
      have hcolumn := h.column hsplit hfixed
      rw [← hplace, ← hlength, Nat.add_comm part.length] at hcolumn
      rw [hbytes] at hfit ⊢
      exact payload_short hcopies htype hcolumn (by omega)
  | blob =>
    rw [if_neg (by decide), if_pos rfl]
    have hvar := not_varchar hc.realType (by rw [ht]; decide)
    have htype := hc.blob ht
    have hblobLen : blobLen multiByteMaxLen row f = load row f.valueOffset f.rowPackLength := by
      rw [blobLen, hnull, if_neg Bool.false_ne_true, hvar, if_neg Bool.false_ne_true, if_pos ht]
    have hle := hblob ht
    rw [hrecord (decide_eq_true (.inr (.inl ht))) (htype.elim (fun h => .inr (.inl h)) .inl) (by omega),
      column_variable htype (by omega), hlen, hblobLen]
  | textMultibyte =>
    rw [if_neg (by decide), if_neg (by decide)]
    have hvar := not_varchar hc.realType (by rw [ht]; decide)
    obtain ⟨htype, hlength⟩ := hc.text ht
    have hblobLen : blobLen multiByteMaxLen row f
        = stripSpaces row f.valueOffset (f.packLength / multiByteMaxLen f.characterSet) f.packLength := by
      rw [blobLen, hnull, if_neg Bool.false_ne_true, hvar, if_neg Bool.false_ne_true, if_neg (by rw [ht]; decide)]
      rfl
    have hle := (stripSpaces_spec row f.valueOffset (f.packLength / multiByteMaxLen f.characterSet) f.packLength).1
    rw [hrecord (decide_eq_true (.inr (.inr ht))) (.inr (.inr htype)) (by omega)]
    unfold VariableColumn.column
    simp only [htype, hlen, hlength, hblobLen, Nat.min_eq_left hle, take_of_length_le (Nat.le_of_eq (hlen.trans hblobLen))]
    rw [data, blobData, hvar, if_neg Bool.false_ne_true, if_neg (by rw [ht]; decide), hblobLen]
    exact padded _ _ _ _
  | other code =>
    rw [if_neg (by intro h; cases h), if_neg (by intro h; cases h)]
    obtain ⟨htype, hlength⟩ := hc.other code ht
    have hvar := not_varchar hc.realType (by rw [ht]; intro h; cases h)
    have hfixed : f.isVariable = false := decide_eq_false (by simp [hvar, ht])
    rw [if_neg (by rw [hfixed]; exact Bool.false_ne_true)] at hplace
    have hpayload : part.payload populate packed = bytes packed part.valueOffset part.length := by
      unfold KeyPart.payload
      cases h : part.type <;> simp_all
    rw [hpayload, hplace, hlength]
    exact h.column hsplit hfixed

/-! ## One part -/

/-- What a part leaves of a state. -/
structure Step (s : SchemaBuilder) (memory row : Buffer) (blobBuffer : Nat) (f : DeepField) (width : Nat) (u u' : KeyUnpacking) : Prop where
  packedKey : u'.packedKey = u.packedKey + width
  null : ∀ i < s.nullBytes, u'.unpackedRow i =
    if f.nullBit ≠ 0 ∧ i = f.nullOffset then
      if f.isNull row then u.unpackedRow i ||| f.nullBit else u.unpackedRow i &&& ~~~f.nullBit
    else u.unpackedRow i
  outside : ∀ i, s.nullBytes ≤ i → Outside s f i → u'.unpackedRow i = u.unpackedRow i
  below : ∀ a, a < blobBuffer + u.deepBlobOffset → u'.memory a = u.memory a
  same : f.isNull row = false → SameColumn s f row memory u'.unpackedRow u'.memory
  pointer : f.type = .blob → f.isNull row = false → 0 < load row f.valueOffset f.rowPackLength →
    load u'.unpackedRow (f.valueOffset + f.rowPackLength) s.blobPtrSize + load row f.valueOffset f.rowPackLength
      ≤ blobBuffer + u'.deepBlobOffset
  blobs : u.deepBlobOffset ≤ u'.deepBlobOffset ∧ u'.deepBlobOffset ≤ u.deepBlobOffset + width

/-- The row once the null bit is cleared. -/
def cleared (part : KeyPart) (row : Buffer) : Buffer :=
  if part.nullBit ≠ 0 then Function.update row part.nullOffset (row part.nullOffset &&& ~~~part.nullBit) else row

variable {i : Nat}

theorem cleared_behind (hs : Plain s) (hc : ColumnPart s part f) (hi : s.nullBytes ≤ i) (row : Buffer) :
    cleared part row i = row i := by
  unfold cleared
  split_ifs with hbit
  · rw [hc.nullBit] at hbit
    have hoffset := (hs.nullable f hc.mem).resolve_left hbit
    rw [update_of_ne]
    rw [hc.nullOffset]
    omega
  · rfl

theorem cleared_nulls (hc : ColumnPart s part f) {target : Buffer} (h : f.isNull row = false) (i : Nat) :
    cleared part target i = if f.nullBit ≠ 0 ∧ i = f.nullOffset then
      if f.isNull row then target i ||| f.nullBit else target i &&& ~~~f.nullBit
    else target i := by
  rw [cleared, hc.nullBit, hc.nullOffset, h, if_neg Bool.false_ne_true]
  by_cases hbit : f.nullBit ≠ 0
  · by_cases hi : i = f.nullOffset
    · rw [if_pos hbit, if_pos ⟨hbit, hi⟩, hi, update_self]
    · rw [if_pos hbit, if_neg (fun h => hi h.2), update_of_ne hi]
  · rw [if_neg hbit, if_neg (fun h => hbit h.1)]

theorem behind_nulls (hs : Plain s) (hf : f ∈ s.fields) : s.nullBytes ≤ f.valueOffset := (hs.laid.bounds hf).1

variable {memory' : Buffer} {p : Nat}

theorem varchar_same {target : Buffer} (ht : f.type = .varText1)
    (hdata : bytes key (p + 2) (load row f.valueOffset f.lengthBytes)
      = bytes row (f.valueOffset + f.lengthBytes) (load row f.valueOffset f.lengthBytes)) :
    let n := load row f.valueOffset f.lengthBytes
    SameColumn s f row memory
      (memcpy (store target f.valueOffset f.lengthBytes n) (f.valueOffset + f.lengthBytes) key (p + 2) n) memory' := by
  intro n
  have hn : n < 256 ^ f.lengthBytes := load_lt
  have hsame : load (memcpy (store target f.valueOffset f.lengthBytes n) (f.valueOffset + f.lengthBytes) key (p + 2) n)
      f.valueOffset f.lengthBytes = load (store target f.valueOffset f.lengthBytes n) f.valueOffset f.lengthBytes :=
    load_congr fun i hi => memcpy_outside (.inl (by omega))
  rw [SameColumn, if_pos ht, hsame, load_store hn]
  exact ⟨rfl, by rw [bytes_memcpy, hdata]⟩

variable {row' : Buffer}

/-- A blob with its length, and its bytes where the pointer says, is the column. -/
theorem blob_same (ptr : Nat) (ht : f.type = .blob)
    (hlen : load row' f.valueOffset f.rowPackLength = load row f.valueOffset f.rowPackLength)
    (hptr : 0 < load row f.valueOffset f.rowPackLength → load row' (f.valueOffset + f.rowPackLength) s.blobPtrSize = ptr)
    (hdata : bytes memory' ptr (load row f.valueOffset f.rowPackLength)
      = bytes memory (load row (f.valueOffset + f.rowPackLength) s.blobPtrSize) (load row f.valueOffset f.rowPackLength)) :
    SameColumn s f row memory row' memory' := by
  rw [SameColumn, if_neg (by rw [ht]; decide), if_pos ht]
  refine ⟨hlen.symm, ?_⟩
  rcases Nat.eq_zero_or_pos (load row f.valueOffset f.rowPackLength) with h0 | h0
  · rw [h0, bytes_zero, bytes_zero]
  · rw [hptr h0, hdata]

theorem ColumnPart.not_hidden (hc : ColumnPart s part f) : part.type ≠ .hidden := by
  intro hh
  cases ht : f.type with
  | varText1 =>
    by_cases hvar : f.isVariableLengthVarchar = true
    · rcases (hc.varchar hvar).1 with h | h <;> simp [hh] at h
    · rcases (hc.shortVarchar ht (eq_false_iff.mpr hvar)).1 with h | h <;> simp [hh] at h
  | blob => rcases hc.blob ht with h | h <;> simp [hh] at h
  | textMultibyte =>
    have h := (hc.text ht).1
    simp [hh] at h
  | other code => exact (hc.other code ht).1 (by simp [hh])

theorem ColumnPart.short_of_type (hc : ColumnPart s part f) (hp : part.type = .fixedVarBinary) :
    f.type = .varText1 ∧ f.isVariableLengthVarchar = false := by
  cases ht : f.type with
  | varText1 =>
    refine ⟨rfl, eq_false_iff.mpr fun hvar => ?_⟩
    rcases (hc.varchar hvar).1 with h | h <;> simp [hp] at h
  | blob => rcases hc.blob ht with h | h <;> simp [hp] at h
  | textMultibyte =>
    have h := (hc.text ht).1
    simp [hp] at h
  | other code => exact absurd (by simp [hp]) (hc.other code ht).1

theorem trimmed_column (hs : Plain s) (h : Image multiByteMaxLen s memory row packed) (hc : ColumnPart s part f)
    (hvarchar : f.type = .varText1 → f.isNull row = false → f.lengthBytes + load row f.valueOffset f.lengthBytes ≤ f.packLength) :
    KeyImage.Trimmed part packed := by
  intro hp hnull
  rw [null_column hs h hc hc.mem] at hnull
  obtain ⟨ht, hvar⟩ := hc.short_of_type hp
  obtain ⟨-, hbytes, hlength⟩ := hc.shortVarchar ht hvar
  have hfit := hvarchar ht hnull
  have hfixed : f.isVariable = false := decide_eq_false (by simp [hvar, ht])
  obtain ⟨l, r, hsplit, hplace⟩ := hc.place
  rw [if_neg (by rw [hfixed]; exact Bool.false_ne_true)] at hplace
  have hbyte := bytes_inj.mp (h.column hsplit hfixed) 0 (by omega)
  rw [Nat.add_zero, Nat.add_zero, ← hplace] at hbyte
  have hload : load row f.valueOffset 1 = (row f.valueOffset).toNat := by simp [load]
  rw [hbytes, hload] at hfit
  rw [hbyte]
  omega

include hcopies hs h hfits hshort hc in
theorem key_image
    (hsound : part.Sound) (hslot : part.slot < 2 ^ 16)
    (hvarchar : f.type = .varText1 → f.isNull row = false → f.lengthBytes + load row f.valueOffset f.lengthBytes ≤ f.packLength)
    (hblob : f.type = .blob → f.isNull row = false → load row f.valueOffset f.rowPackLength ≤ part.length)
    (hshown : Shown populate pkey packed part key d) :
    part.nullKey key d = f.isNull row ∧ part.getPackLength key d = part.fillWidth populate packed ∧
      (f.isNull row = false → part.fillWidth populate packed ≥ (keyImage multiByteMaxLen s memory row f).length ∧
        bytes key (d + part.nullBytes) (keyImage multiByteMaxLen s memory row f).length = keyImage multiByteMaxLen s memory row f) := by
  have hl : Leading populate := fun _ _ _ => Nat.le_of_eq (hcopies _ _ _)
  have hnull := null_column hs h hc hc.mem
  have htrimmed := trimmed_column hs h hc hvarchar
  obtain ⟨hkey, hcontent⟩ := KeyEquality.content_shown hl hsound hslot htrimmed hshown
  refine ⟨hkey.trans hnull, hshown.getPackLength hl hsound hslot, fun hn => ?_⟩
  have hpayload := payload_column hcopies hs h hfits hshort hc hslot hn (fun ht => hvarchar ht hn) fun ht => hblob ht hn
  rw [hnull] at hcontent
  have hbytes := hcontent hn
  rw [KeyEquality.content, if_neg hc.not_hidden, hpayload] at hbytes
  have hle := KeyImage.length_image_le pkey hl hsound hslot htrimmed
  rw [KeyEquality.image_content hsound, hnull, hn, if_neg Bool.false_ne_true, KeyEquality.content, if_neg hc.not_hidden, hpayload,
    length_append, length_append] at hle
  exact ⟨by omega, hbytes⟩

/-- A part that is null sets its bit; another one clears it and goes on to its column. -/
theorem unpackRowFromKeyPart_eq (u : KeyUnpacking) : unpackRowFromKeyPart s key blobBuffer u part (some f) =
    if part.nullKey key u.packedKey then
      { u with
        unpackedRow := Function.update u.unpackedRow part.nullOffset (u.unpackedRow part.nullOffset ||| part.nullBit)
        packedKey := u.packedKey + part.getPackLength key u.packedKey }
    else
      { unpackColumn s key blobBuffer { u with unpackedRow := cleared part u.unpackedRow } f part.length (u.packedKey + part.nullBytes) with
        packedKey := u.packedKey + part.getPackLength key u.packedKey } := by
  unfold unpackRowFromKeyPart DeepKeyPart.nullKey DeepKeyPart.nullBytes cleared DeepKeyPart.maybeNull
  by_cases hbit : part.nullBit = 0
  · simp [hbit]
  · by_cases hkey : key u.packedKey = 0 <;> simp [hbit, hkey]

variable {u : KeyUnpacking} {width : Nat}

theorem part_null (hs : Plain s) (hc : ColumnPart s part f)
    (hkey : part.nullKey key u.packedKey = f.isNull row) (hpack : part.getPackLength key u.packedKey = width) (hn : f.isNull row = true) :
    Step s memory row blobBuffer f width u (unpackRowFromKeyPart s key blobBuffer u part (some f)) := by
  have hbit : f.nullBit ≠ 0 := by
    rintro h
    simp [DeepField.isNull, h] at hn
  have hoffset := (hs.nullable f hc.mem).resolve_left hbit
  rw [unpackRowFromKeyPart_eq, hkey, hn, if_pos rfl, hpack, hc.nullBit, hc.nullOffset]
  refine ⟨rfl, fun i hi => ?_, fun i hi _ => ?_, fun _ _ => rfl, fun h => ?_, fun _ h => ?_, Nat.le_refl _, Nat.le_add_right _ _⟩
  · rw [hn, if_pos rfl]
    by_cases heq : i = f.nullOffset
    · rw [if_pos ⟨hbit, heq⟩, heq]
      exact update_self ..
    · rw [if_neg fun h => heq h.2]
      exact update_of_ne heq ..
  · exact update_of_ne (by omega) ..
  · rw [hn] at h
    cases h
  · rw [hn] at h
    cases h

/-- A column is written inside its room, with the bytes that the key has of it. -/
structure Written (s : SchemaBuilder) (memory row : Buffer) (blobBuffer : Nat) (f : DeepField) (width : Nat) (u u' : KeyUnpacking) : Prop where
  outside : ∀ i, Outside s f i → u'.unpackedRow i = u.unpackedRow i
  below : ∀ a, a < blobBuffer + u.deepBlobOffset → u'.memory a = u.memory a
  same : SameColumn s f row memory u'.unpackedRow u'.memory
  pointer : f.type = .blob → 0 < load row f.valueOffset f.rowPackLength →
    load u'.unpackedRow (f.valueOffset + f.rowPackLength) s.blobPtrSize + load row f.valueOffset f.rowPackLength
      ≤ blobBuffer + u'.deepBlobOffset
  blobs : u.deepBlobOffset ≤ u'.deepBlobOffset ∧ u'.deepBlobOffset ≤ u.deepBlobOffset + width

theorem column_varchar (hs : Plain s) (hc : ColumnPart s part f) (u : KeyUnpacking) (ht : f.type = .varText1)
    (hfit : f.lengthBytes + load row f.valueOffset f.lengthBytes ≤ f.packLength)
    (hbytes : bytes key p (keyImage multiByteMaxLen s memory row f).length = keyImage multiByteMaxLen s memory row f) (length : Nat) :
    Written s memory row blobBuffer f (keyImage multiByteMaxLen s memory row f).length u (unpackColumn s key blobBuffer u f length p) := by
  have hlb : f.lengthBytes = 1 ∨ f.lengthBytes = 2 := by
    by_cases hvar : f.isVariableLengthVarchar = true
    · exact (hs.varchar f hc.mem hvar).1
    · exact .inl (hc.shortVarchar ht (eq_false_iff.mpr hvar)).2.1
  have hstore : (if f.lengthBytes = 2 then 2 else 1) = f.lengthBytes := by
    rcases hlb with h | h <;> simp [h]
  have hroom : f.room s = f.packLength := room_of_not_blob s fun h => by rw [ht] at h; cases h.2
  have hsmall : load row f.valueOffset f.lengthBytes < 2 ^ 16 :=
    Nat.lt_of_lt_of_le load_lt (by rcases hlb with h | h <;> rw [h] <;> decide)
  rw [keyImage, if_pos ht, length_append, length_leBytes, length_bytes] at hbytes ⊢
  obtain ⟨hlen, hdata⟩ := bytes_split hbytes length_leBytes
  have hload := load_of_bytes hlen hsmall
  have hrow : unpackColumn s key blobBuffer u f length p = { u with
      unpackedRow := memcpy (store u.unpackedRow f.valueOffset f.lengthBytes (load row f.valueOffset f.lengthBytes))
        (f.valueOffset + f.lengthBytes) key (p + 2) (load row f.valueOffset f.lengthBytes) } := by
    rw [unpackColumn, if_pos ht]
    simp only [hload, hstore]
    split_ifs with h0
    · rfl
    · rw [Nat.eq_zero_of_not_pos h0, memcpy_zero]
  rw [hrow]
  refine ⟨fun i hi => ?_, fun _ _ => rfl, varchar_same ht hdata, fun h => ?_, Nat.le_refl _, Nat.le_add_right _ _⟩
  · rw [Outside, hroom] at hi
    dsimp only
    rw [memcpy_outside (by omega), store_outside (by omega)]
  · rw [ht] at h
    cases h

theorem column_blob (hs : Plain s) (hc : ColumnPart s part f) (u : KeyUnpacking) (ht : f.type = .blob)
    (hn : f.isNull row = false) (hsmall : load row f.valueOffset f.rowPackLength < 2 ^ 16)
    (hbytes : bytes key p (keyImage multiByteMaxLen s memory row f).length = keyImage multiByteMaxLen s memory row f)
    (hroom : blobBuffer + u.deepBlobOffset < 256 ^ s.blobPtrSize) (length : Nat) :
    Written s memory row blobBuffer f (keyImage multiByteMaxLen s memory row f).length u (unpackColumn s key blobBuffer u f length p) := by
  have hvar := not_varchar hc.realType (by rw [ht]; decide)
  obtain ⟨-, hlow, hhigh⟩ := hs.blob f hc.mem hvar ht
  have hstore : (if f.rowPackLength = 4 then 4 else if f.rowPackLength = 3 then 3 else if f.rowPackLength = 2 then 2 else 1) =
      f.rowPackLength := by
    split_ifs <;> omega
  have hcolumn : f.room s = f.rowPackLength + s.blobPtrSize := by
    rw [DeepField.room, if_pos ⟨by rw [hvar]; exact Bool.false_ne_true, ht⟩]
  have hblobLen : blobLen multiByteMaxLen row f = load row f.valueOffset f.rowPackLength := by
    rw [blobLen, hn, if_neg Bool.false_ne_true, hvar, if_neg Bool.false_ne_true, if_pos ht]
  have hkey : keyImage multiByteMaxLen s memory row f = leBytes 2 (load row f.valueOffset f.rowPackLength) ++
      bytes memory (load row (f.valueOffset + f.rowPackLength) s.blobPtrSize) (load row f.valueOffset f.rowPackLength) := by
    rw [keyImage, if_neg (by rw [ht]; decide), if_pos ht, data, hblobLen, blobData, hvar, if_neg Bool.false_ne_true, if_pos ht]
  rw [hkey, length_append, length_leBytes, length_bytes] at hbytes ⊢
  obtain ⟨hlen, hdata⟩ := bytes_split hbytes length_leBytes
  have hload := load_of_bytes hlen hsmall
  have hlt : load row f.valueOffset f.rowPackLength < 256 ^ f.rowPackLength := load_lt
  generalize hlength : load row f.valueOffset f.rowPackLength = n at *
  have hunfold : unpackColumn s key blobBuffer u f length p =
      if n > 0 then
        { u with
          memory := memcpy u.memory (blobBuffer + u.deepBlobOffset) key (p + 2) n
          unpackedRow := store (store u.unpackedRow f.valueOffset f.rowPackLength n) (f.valueOffset + f.rowPackLength) s.blobPtrSize
            (blobBuffer + u.deepBlobOffset)
          deepBlobOffset := u.deepBlobOffset + n }
      else { u with unpackedRow := store u.unpackedRow f.valueOffset f.rowPackLength n } := by
    rw [unpackColumn, if_neg (by rw [ht]; decide), if_pos ht]
    simp only [hload, hstore]
  rw [hunfold]
  split_ifs with h0
  · have hrow : load (store (store u.unpackedRow f.valueOffset f.rowPackLength n) (f.valueOffset + f.rowPackLength) s.blobPtrSize
        (blobBuffer + u.deepBlobOffset)) f.valueOffset f.rowPackLength = n := by
      rw [← @load_store u.unpackedRow f.valueOffset f.rowPackLength n hlt]
      refine load_congr fun i hi => ?_
      rw [load_store hlt]
      exact store_outside (.inl (by omega))
    have hptr : load (store (store u.unpackedRow f.valueOffset f.rowPackLength n) (f.valueOffset + f.rowPackLength) s.blobPtrSize
        (blobBuffer + u.deepBlobOffset)) (f.valueOffset + f.rowPackLength) s.blobPtrSize = blobBuffer + u.deepBlobOffset := load_store hroom
    refine ⟨fun i hi => ?_, fun a ha => memcpy_outside (.inl ha), ?_, fun _ _ => ?_, Nat.le_add_right _ _, by dsimp only; omega⟩
    · rw [Outside, hcolumn] at hi
      dsimp only
      rw [store_outside (by omega), store_outside (by omega)]
    · refine blob_same _ ht (hrow.trans hlength.symm) (fun _ => hptr) ?_
      rw [hlength, bytes_memcpy, hdata]
    · dsimp only
      rw [hptr, hlength]
      omega
  · have hzero : n = 0 := Nat.eq_zero_of_not_pos h0
    refine ⟨fun i hi => ?_, fun _ _ => rfl, ?_, fun _ h => absurd (hlength ▸ h) h0, Nat.le_refl _, Nat.le_add_right _ _⟩
    · rw [Outside, hcolumn] at hi
      exact store_outside (by omega)
    · have hrow : load (store u.unpackedRow f.valueOffset f.rowPackLength n) f.valueOffset f.rowPackLength = n := load_store hlt
      refine blob_same 0 ht (hrow.trans hlength.symm) (fun h => absurd (hlength ▸ h) h0) ?_
      rw [hlength, hzero, bytes_zero, bytes_zero]

theorem column_whole (u : KeyUnpacking) (hv : f.type ≠ .varText1) (hb : f.type ≠ .blob)
    (hbytes : bytes key p (keyImage multiByteMaxLen s memory row f).length = keyImage multiByteMaxLen s memory row f) {length : Nat}
    (hlength : length = f.packLength) :
    Written s memory row blobBuffer f (keyImage multiByteMaxLen s memory row f).length u (unpackColumn s key blobBuffer u f length p) := by
  have hroom : f.room s = f.packLength := room_of_not_blob s fun h => hb h.2
  rw [keyImage, if_neg hv, if_neg hb, length_bytes] at hbytes ⊢
  rw [unpackColumn, if_neg hv, if_neg hb, hlength]
  refine ⟨fun i hi => ?_, fun _ _ => rfl, ?_, fun h => absurd h hb, Nat.le_refl _, Nat.le_add_right _ _⟩
  · rw [Outside, hroom] at hi
    exact memcpy_outside hi
  · rw [SameColumn, if_neg hv, if_neg hb, bytes_memcpy, hbytes]

theorem part_spec (hs : Plain s) (hc : ColumnPart s part f) (hslot : part.slot < 2 ^ 16)
    (hkey : part.nullKey key u.packedKey = f.isNull row) (hpack : part.getPackLength key u.packedKey = width)
    (hvarchar : f.type = .varText1 → f.isNull row = false → f.lengthBytes + load row f.valueOffset f.lengthBytes ≤ f.packLength)
    (hblob : f.type = .blob → f.isNull row = false → load row f.valueOffset f.rowPackLength ≤ part.length)
    (hbytes : f.isNull row = false → width ≥ (keyImage multiByteMaxLen s memory row f).length ∧
      bytes key (u.packedKey + part.nullBytes) (keyImage multiByteMaxLen s memory row f).length = keyImage multiByteMaxLen s memory row f)
    (hroom : f.type = .blob → blobBuffer + u.deepBlobOffset < 256 ^ s.blobPtrSize) :
    Step s memory row blobBuffer f width u (unpackRowFromKeyPart s key blobBuffer u part (some f)) := by
  cases hn : f.isNull row with
  | true => exact part_null hs hc hkey hpack hn
  | false =>
    obtain ⟨hwidth, hbytes⟩ := hbytes hn
    have hsmall : f.type = .blob → load row f.valueOffset f.rowPackLength < 2 ^ 16 := by
      intro ht
      have := hblob ht hn
      rw [KeyPart.slot] at hslot
      omega
    let start : KeyUnpacking := { u with unpackedRow := cleared part u.unpackedRow }
    have hwritten : Written s memory row blobBuffer f (keyImage multiByteMaxLen s memory row f).length start
        (unpackColumn s key blobBuffer start f part.length (u.packedKey + part.nullBytes)) := by
      cases ht : f.type with
      | varText1 => exact column_varchar hs hc start ht (hvarchar ht hn) hbytes _
      | blob => exact column_blob hs hc start ht hn (hsmall ht) hbytes (hroom ht) _
      | textMultibyte => exact column_whole start (by rw [ht]; decide) (by rw [ht]; decide) hbytes (hc.text ht).2
      | other code =>
        exact column_whole start (by rw [ht]; intro h; cases h) (by rw [ht]; intro h; cases h) hbytes (hc.other code ht).2
    have hfront := behind_nulls hs hc.mem
    rw [unpackRowFromKeyPart_eq, hkey, hn, if_neg Bool.false_ne_true, hpack]
    refine ⟨rfl, fun i hi => ?_, fun i hi hout => ?_, hwritten.below, fun _ => hwritten.same, fun ht _ => hwritten.pointer ht,
      hwritten.blobs.1, Nat.le_trans hwritten.blobs.2 (Nat.add_le_add_left hwidth _)⟩
    · exact (hwritten.outside i (.inl (by omega))).trans (cleared_nulls hc hn i)
    · exact (hwritten.outside i hout).trans (cleared_behind hs hc hi _)

/-! ## All the parts -/

theorem bits_ext {x y : UInt8} (h : ∀ i (hi : i < 8), x.toBitVec[i] = y.toBitVec[i]) : x = y :=
  UInt8.eq_of_toBitVec_eq (BitVec.eq_of_getElem_eq h)

theorem other_bits {b m : UInt8} (x : UInt8) (h : b &&& m = 0) : (x ||| b) &&& m = x &&& m ∧ (x &&& ~~~b) &&& m = x &&& m := by
  have hbit : ∀ i (hi : i < 8), (b.toBitVec[i] && m.toBitVec[i]) = false := fun i hi => by
    have := congrArg (fun v : UInt8 => v.toBitVec[i]) h
    simpa using this
  constructor
  · refine bits_ext fun i hi => ?_
    simp
    grind
  · refine bits_ext fun i hi => ?_
    have := hbit i hi
    simp
    grind

theorem own_bits (x b : UInt8) : (x ||| b) &&& b = b ∧ (x &&& ~~~b) &&& b = 0 := by
  constructor
  · refine bits_ext fun i hi => ?_
    simp
    grind
  · refine bits_ext fun i hi => ?_
    simp

/-- The columns of these parts are in the row, and nothing else is. -/
structure Read (s : SchemaBuilder) (memory row : Buffer) (blobBuffer : Nat) (done : List (KeyPart × DeepField)) (u : KeyUnpacking) : Prop where
  null : ∀ p ∈ done, p.2.isNull u.unpackedRow = p.2.isNull row
  same : ∀ p ∈ done, p.2.isNull row = false → SameColumn s p.2 row memory u.unpackedRow u.memory
  pointer : ∀ p ∈ done, p.2.type = .blob → p.2.isNull row = false → 0 < load row p.2.valueOffset p.2.rowPackLength →
    load u.unpackedRow (p.2.valueOffset + p.2.rowPackLength) s.blobPtrSize + load row p.2.valueOffset p.2.rowPackLength
      ≤ blobBuffer + u.deepBlobOffset
  bits : ∀ i < s.nullBytes, ∀ mask : UInt8, (∀ p ∈ done, p.2.nullOffset = i → p.2.nullBit &&& mask = 0) → u.unpackedRow i &&& mask = 0
  zero : ∀ i, s.nullBytes ≤ i → i < s.unpackedRowLength → (∀ p ∈ done, Outside s p.2 i) → u.unpackedRow i = 0
  offset : u.deepBlobOffset ≤ u.packedKey

theorem read_start (hs : Plain s) (memory row memory' target : Buffer) :
    Read s memory row blobBuffer [] ⟨memset target 0 0 s.unpackedRowLength, memory', 0, 0⟩ := by
  have hlength := hs.unpackedRowLength
  have hzero : ∀ i < s.unpackedRowLength, memset target 0 0 s.unpackedRowLength i = 0 := fun i hi => if_pos (by omega)
  refine ⟨fun p hp => absurd hp not_mem_nil, fun p hp => absurd hp not_mem_nil, fun p hp => absurd hp not_mem_nil,
    fun i hi mask _ => ?_, fun i _ hi _ => hzero i hi, Nat.le_refl _⟩
  dsimp only
  rw [hzero i (by omega), UInt8.zero_and]

theorem sameColumn_congr {row'' memory'' : Buffer} (h : SameColumn s f row memory row' memory')
    (hrow : ∀ i, ¬Outside s f i → row'' i = row' i) (hr : f.type = .varText1 ↔ f.realType = .varText1)
    (hvarchar : f.type = .varText1 → f.lengthBytes + load row f.valueOffset f.lengthBytes ≤ f.packLength)
    (hmemory : f.type = .blob → 0 < load row f.valueOffset f.rowPackLength → ∀ a,
      load row' (f.valueOffset + f.rowPackLength) s.blobPtrSize ≤ a →
      a < load row' (f.valueOffset + f.rowPackLength) s.blobPtrSize + load row f.valueOffset f.rowPackLength → memory'' a = memory' a) :
    SameColumn s f row memory row'' memory'' := by
  have hload (p n : Nat) (hp : f.valueOffset ≤ p) (hn : p + n ≤ f.valueOffset + f.room s) : load row'' p n = load row' p n :=
    load_congr fun i hi => hrow _ (by rw [Outside]; omega)
  have hbytes (p n : Nat) (hp : f.valueOffset ≤ p) (hn : p + n ≤ f.valueOffset + f.room s) : bytes row'' p n = bytes row' p n :=
    bytes_congr_outside fun i h₁ h₂ => hrow i (by rw [Outside]; omega)
  unfold SameColumn at h ⊢
  by_cases ht : f.type = .varText1
  · rw [if_pos ht] at h ⊢
    have hroom : f.room s = f.packLength := room_of_not_blob s fun h => by rw [ht] at h; cases h.2
    have hfit := hvarchar ht
    rw [hload _ _ (Nat.le_refl _) (by omega), hbytes _ _ (by omega) (by omega)]
    exact h
  · rw [if_neg ht] at h ⊢
    have hvar := not_varchar hr ht
    by_cases hb : f.type = .blob
    · rw [if_pos hb] at h ⊢
      have hroom : f.room s = f.rowPackLength + s.blobPtrSize := by
        rw [DeepField.room, if_pos ⟨by rw [hvar]; exact Bool.false_ne_true, hb⟩]
      rw [hload _ _ (Nat.le_refl _) (by omega), hload _ _ (by omega) (by omega)]
      refine ⟨h.1, ?_⟩
      rcases Nat.eq_zero_or_pos (load row f.valueOffset f.rowPackLength) with h0 | h0
      · rw [h0, bytes_zero, bytes_zero]
      · rw [bytes_congr_outside (hmemory hb h0)]
        exact h.2
    · rw [if_neg hb] at h ⊢
      have hroom : f.room s = f.packLength := room_of_not_blob s fun h => hb h.2
      rw [hbytes _ _ (Nat.le_refl _) (by omega)]
      exact h

variable {u' : KeyUnpacking}

theorem Step.isNull (hs : Plain s) (hf : f ∈ s.fields)
    (h : Step s memory row blobBuffer f width u u') : f.isNull u'.unpackedRow = f.isNull row := by
  by_cases hbit : f.nullBit = 0
  · simp [DeepField.isNull, hbit]
  · have hoffset := (hs.nullable f hf).resolve_left hbit
    obtain ⟨hset, hclear⟩ := own_bits (u.unpackedRow f.nullOffset) f.nullBit
    rw [DeepField.isNull, h.null _ hoffset, if_pos ⟨hbit, rfl⟩]
    cases hn : f.isNull row with
    | true => rw [if_pos rfl, hset, decide_eq_true hbit]
    | false => rw [if_neg Bool.false_ne_true, hclear]; rfl

theorem Step.bits (h : Step s memory row blobBuffer f width u u') (hi : i < s.nullBytes)
    {mask : UInt8} (hmask : f.nullOffset = i → f.nullBit &&& mask = 0) : u'.unpackedRow i &&& mask = u.unpackedRow i &&& mask := by
  rw [h.null i hi]
  split_ifs with hown hn
  · exact (other_bits _ (hmask hown.2.symm)).1
  · exact (other_bits _ (hmask hown.2.symm)).2
  · rfl

theorem Step.isNull_other (hs : Plain s) (hf : f ∈ s.fields) {g : DeepField} (hg : g ∈ s.fields) (hne : f ≠ g)
    (h : Step s memory row blobBuffer f width u u') : g.isNull u'.unpackedRow = g.isNull u.unpackedRow := by
  by_cases hbit : g.nullBit = 0
  · simp [DeepField.isNull, hbit]
  · have hoffset := (hs.nullable g hg).resolve_left hbit
    rw [DeepField.isNull, DeepField.isNull, h.bits hoffset fun heq => hs.nullBits f hf g hg hne heq]

theorem read_step (hs : Plain s) {done : List (KeyPart × DeepField)} (hc : ColumnPart s part f)
    (hdone : ∀ p ∈ done, ColumnPart s p.1 p.2 ∧ (p.2.type = .varText1 → p.2.isNull row = false →
      p.2.lengthBytes + load row p.2.valueOffset p.2.lengthBytes ≤ p.2.packLength)) (h : Read s memory row blobBuffer done u) (hstep : Step s memory row blobBuffer f width u u') :
    Read s memory row blobBuffer (done ++ [(part, f)]) u' := by
  have hf := hc.mem
  -- the bytes of another column are not touched
  have hother : ∀ p ∈ done, p.2 ≠ f → ∀ i, ¬Outside s p.2 i → u'.unpackedRow i = u.unpackedRow i := by
    intro p hp hne i hi
    have hmem := (hdone p hp).1.mem
    have hbounds := hs.laid.bounds hmem
    have hap := hs.laid.apart_of_ne hmem hf hne
    rw [Outside] at hi
    rw [Apart] at hap
    exact hstep.outside i (by omega) (by rw [Outside]; omega)
  have hsplit : ∀ p ∈ done ++ [(part, f)], p.2 = f ∨ p ∈ done ∧ p.2 ≠ f := by
    intro p hp
    by_cases heq : p.2 = f
    · exact .inl heq
    · rcases mem_append.mp hp with hp | hp
      · exact .inr ⟨hp, heq⟩
      · exact absurd (by rw [mem_singleton.mp hp]) heq
  refine ⟨fun p hp => ?_, fun p hp hn => ?_, fun p hp hb hn h0 => ?_, fun i hi mask hmask => ?_, fun i hlow hhigh hout => ?_, ?_⟩
  · rcases hsplit p hp with heq | ⟨hp, hne⟩
    · rw [heq]
      exact hstep.isNull hs hf
    · rw [hstep.isNull_other hs hf (hdone p hp).1.mem hne.symm]
      exact h.null p hp
  · rcases hsplit p hp with heq | ⟨hp, hne⟩
    · rw [heq] at hn ⊢
      exact hstep.same hn
    · refine sameColumn_congr (h.same p hp hn) (hother p hp hne) (hdone p hp).1.realType (fun ht => (hdone p hp).2 ht hn) ?_
      intro hb h0 a _ ha
      have := h.pointer p hp hb hn h0
      exact hstep.below a (by omega)
  · rcases hsplit p hp with heq | ⟨hp, hne⟩
    · rw [heq] at hb hn h0 ⊢
      exact hstep.pointer hb hn h0
    · have hvar := not_varchar (hdone p hp).1.realType (by rw [hb]; decide)
      have hroom : p.2.room s = p.2.rowPackLength + s.blobPtrSize := by
        rw [DeepField.room, if_pos ⟨by rw [hvar]; exact Bool.false_ne_true, hb⟩]
      have hptr : load u'.unpackedRow (p.2.valueOffset + p.2.rowPackLength) s.blobPtrSize =
          load u.unpackedRow (p.2.valueOffset + p.2.rowPackLength) s.blobPtrSize :=
        load_congr fun i hi => hother p hp hne _ (by rw [Outside]; omega)
      have := h.pointer p hp hb hn h0
      have := hstep.blobs.1
      rw [hptr]
      omega
  · rw [hstep.bits hi fun heq => hmask (part, f) (mem_append_right _ (mem_singleton_self _)) heq]
    exact h.bits i hi mask fun p hp => hmask p (mem_append_left _ hp)
  · rw [hstep.outside i hlow (hout (part, f) (mem_append_right _ (mem_singleton_self _)))]
    exact h.zero i hlow hhigh fun p hp => hout p (mem_append_left _ hp)
  · have := h.offset
    have := hstep.blobs.2
    rw [hstep.packedKey]
    omega

/-- A column that is ready to be read from the key. -/
structure Ready (row : Buffer) (p : KeyPart × DeepField) : Prop where
  varchar : p.2.type = .varText1 → p.2.isNull row = false → p.2.lengthBytes + load row p.2.valueOffset p.2.lengthBytes ≤ p.2.packLength
  blob : p.2.type = .blob → p.2.isNull row = false → load row p.2.valueOffset p.2.rowPackLength ≤ p.1.length

theorem parts_spec (hcopies : VariableColumn.Copies populate) (hs : Plain s) (himage : Image multiByteMaxLen s memory row packed)
    (hfits : RowFits row s) (hshort : entryLength multiByteMaxLen s memory row s.fields < 2 ^ 32)
    {columns done : List (KeyPart × DeepField)} (hready : ∀ p ∈ done ++ columns, ColumnPart s p.1 p.2 ∧ Ready row p)
    (hparts : Short (columns.map fst)) (hread : Read s memory row blobBuffer done u)
    (hshown : ShownFrom populate pkey packed (columns.map fst) key u.packedKey)
    (hroom : ∀ p ∈ columns, p.2.type = .blob →
      blobBuffer + u.packedKey + fillLength populate packed (columns.map fst) < 256 ^ s.blobPtrSize) :
    Read s memory row blobBuffer (done ++ columns)
      (columns.foldl (fun u p => unpackRowFromKeyPart s key blobBuffer u p.1 (some p.2)) u) := by
  induction columns generalizing done u with
  | nil =>
    rw [append_nil]
    exact hread
  | cons p columns ih =>
    obtain ⟨part, f⟩ := p
    obtain ⟨hc, hp⟩ : ColumnPart s part f ∧ Ready row (part, f) := hready (part, f) (mem_append_right _ mem_cons_self)
    rw [map_cons] at hparts hshown
    simp only [map_cons, fillLength_cons] at hroom
    obtain ⟨hsound, hslot⟩ := hparts.head
    obtain ⟨hkey, hpack, hbytes⟩ := key_image hcopies hs himage hfits hshort hc hsound hslot hp.varchar hp.blob hshown.1
    have hoffset := hread.offset
    have hspace : f.type = .blob → blobBuffer + u.deepBlobOffset < 256 ^ s.blobPtrSize := by
      intro hb
      have := hroom (part, f) mem_cons_self hb
      omega
    have hstep := part_spec hs hc hslot hkey hpack hp.varchar hp.blob hbytes hspace
    have hnext := read_step hs hc (fun q hq => ⟨(hready q (mem_append_left _ hq)).1, (hready q (mem_append_left _ hq)).2.varchar⟩)
      hread hstep
    have happend : done ++ (part, f) :: columns = done ++ [(part, f)] ++ columns := by rw [append_assoc, singleton_append]
    rw [happend] at hready ⊢
    rw [foldl_cons]
    refine ih hready hparts.tail hnext ?_ ?_
    · rw [hstep.packedKey]
      exact hshown.2
    · intro q hq hb
      have := hroom q (mem_cons_of_mem _ hq) hb
      rw [hstep.packedKey]
      omega

theorem foldl_hidden (hidden : List KeyPart) (u : KeyUnpacking) :
    (hidden.map fun part => (part, (none : Option DeepField))).foldl (fun u p => unpackRowFromKeyPart s key blobBuffer u p.1 p.2) u = u := by
  induction hidden generalizing u with
  | nil => rfl
  | cons part hidden ih => exact ih u

theorem foldl_keyParts (index : Index s) (u : KeyUnpacking) :
    index.keyParts.foldl (fun u p => unpackRowFromKeyPart s key blobBuffer u p.1 p.2) u
      = index.columns.foldl (fun u p => unpackRowFromKeyPart s key blobBuffer u p.1 (some p.2)) u := by
  rw [Index.keyParts, foldl_append, foldl_hidden, foldl_map]

theorem read_spec (hcopies : VariableColumn.Copies populate) (hs : Plain s) (index : Index s)
    (himage : Image multiByteMaxLen s memory row packed) (hrow : RowOk multiByteMaxLen memory row index)
    (hroom : ∀ p ∈ index.columns, p.2.type = .blob → blobBuffer + 2 ^ 16 ≤ 256 ^ s.blobPtrSize)
    (hshown : ShownFrom populate pkey packed index.parts key 0) (memory' target : Buffer) :
    ∃ u, Read s memory row blobBuffer index.columns u ∧
      unpackRowFromKey s key blobBuffer index.keyParts memory' target false = (u.unpackedRow, u.memory) := by
  have hl : Leading populate := fun _ _ _ => Nat.le_of_eq (hcopies _ _ _)
  have hshort := index.toShort
  rw [index.split] at hshort hshown
  have hparts : Short (index.columns.map fst) := by
    have htake := hshort.take (index.columns.map fst).length
    rwa [take_left] at htake
  have hlength := fillLength_le hl hparts.sound packed
  have hsum := hparts.short
  have hfirst : ShownFrom populate pkey packed (index.columns.map fst) key 0 := by
    have htake := hshown.take (index.columns.map fst).length
    rwa [take_left] at htake
  have hready : ∀ p ∈ [] ++ index.columns, ColumnPart s p.1 p.2 ∧ Ready row p := by
    intro p hp
    exact ⟨index.column p hp, hrow.varchar p hp, hrow.blob p hp⟩
  have hspace : ∀ p ∈ index.columns, p.2.type = .blob →
      blobBuffer + 0 + fillLength populate packed (index.columns.map fst) < 256 ^ s.blobPtrSize := by
    intro p hp hb
    have := hroom p hp hb
    omega
  have hread := parts_spec hcopies hs himage hrow.fits hrow.short hready hparts (read_start hs memory row memory' target) hfirst hspace
  refine ⟨_, hread, ?_⟩
  rw [unpackRowFromKey, if_neg Bool.false_ne_true, foldl_keyParts]

/-! ## Both readings -/

theorem same_of_restored (hr : f.type = .varText1 ↔ f.realType = .varText1) (hn : f.isNull row = false)
    (hfit : f.type = .varText1 → f.lengthBytes + load row f.valueOffset f.lengthBytes ≤ f.packLength)
    (h : Restored multiByteMaxLen memory row s row' memory' f) : SameColumn s f row memory row' memory' := by
  rw [Restored] at h
  rw [SameColumn]
  by_cases ht : f.type = .varText1
  · -- a short varchar comes back with the room behind it
    have hbytes : bytes row' f.valueOffset (f.lengthBytes + load row f.valueOffset f.lengthBytes)
        = bytes row f.valueOffset (f.lengthBytes + load row f.valueOffset f.lengthBytes) := by
      by_cases hvar : f.isVariableLengthVarchar = true
      · have hblobLen : blobLen multiByteMaxLen row f = load row f.valueOffset f.lengthBytes := by
          rw [blobLen, hn, if_neg Bool.false_ne_true, if_pos hvar]
        rw [if_pos (show f.isVariable = true from decide_eq_true (.inl hvar))] at h
        have hback := h hn
        rwa [if_pos hvar, hblobLen] at hback
      · have hfixed : f.isVariable = false := decide_eq_false (by simp [hvar, ht])
        rw [hfixed, if_neg Bool.false_ne_true] at h
        have hroom := hfit ht
        exact bytes_inj.mpr fun i hi => bytes_inj.mp h i (by omega)
    rw [if_pos ht]
    rw [bytes_append, bytes_append] at hbytes
    obtain ⟨hlen, hdata⟩ := append_inj hbytes (by rw [length_bytes, length_bytes])
    exact ⟨(KeyEquality.load_eq_iff.mpr hlen).symm, hdata.symm⟩
  · rw [if_neg ht]
    have hvar := not_varchar hr ht
    by_cases hb : f.type = .blob
    · have hblobLen : blobLen multiByteMaxLen row f = load row f.valueOffset f.rowPackLength := by
        rw [blobLen, hn, if_neg Bool.false_ne_true, hvar, if_neg Bool.false_ne_true, if_pos hb]
      rw [if_pos (show f.isVariable = true from decide_eq_true (.inr (.inl hb)))] at h
      have hback := h hn
      rw [hvar, if_neg Bool.false_ne_true, if_pos hb, hblobLen] at hback
      rw [if_pos hb]
      exact ⟨(KeyEquality.load_eq_iff.mpr hback.1).symm, hback.2.symm⟩
    · rw [if_neg hb]
      by_cases hvariable : f.isVariable = true
      · rw [if_pos hvariable] at h
        have hback := h hn
        rw [hvar, if_neg Bool.false_ne_true, if_neg hb] at hback
        exact hback.symm
      · rw [if_neg hvariable] at h
        exact h.symm

/-- Two rows that have the same as a third one have the same. -/
theorem SameColumn.both {row₁ memory₁ row₂ memory₂ : Buffer} (h₁ : SameColumn s f row memory row₁ memory₁)
    (h₂ : SameColumn s f row memory row₂ memory₂) : SameColumn s f row₁ memory₁ row₂ memory₂ := by
  unfold SameColumn at *
  split_ifs at * with ht hb
  · obtain ⟨hlen₁, hdata₁⟩ := h₁
    obtain ⟨hlen₂, hdata₂⟩ := h₂
    rw [← hlen₁]
    exact ⟨hlen₂, hdata₁.symm.trans hdata₂⟩
  · obtain ⟨hlen₁, hdata₁⟩ := h₁
    obtain ⟨hlen₂, hdata₂⟩ := h₂
    rw [← hlen₁]
    exact ⟨hlen₂, hdata₁.symm.trans hdata₂⟩
  · exact h₁.symm.trans h₂

/-- A column with the null bytes of a row is null where it is in the row. -/
theorem isNull_congr (hs : Plain s) (hf : f ∈ s.fields) (h : bytes row' 0 s.nullBytes = bytes row 0 s.nullBytes) :
    f.isNull row' = f.isNull row := by
  unfold DeepField.isNull
  rcases hs.nullable f hf with hbit | hoffset
  · simp [hbit]
  · have hbyte := bytes_inj.mp h f.nullOffset hoffset
    rw [Nat.zero_add] at hbyte
    rw [hbyte]

theorem unpackRow_spec (hs : Plain s) (himage : Image multiByteMaxLen s memory row packed) (hfits : RowFits row s)
    (hroom : blobBuffer + blobLength multiByteMaxLen row s.fields ≤ 256 ^ s.blobPtrSize) (memory' target : Buffer) :
    let unpacked := unpackRow s packed blobBuffer memory' target
    bytes unpacked.1 0 s.nullBytes = bytes row 0 s.nullBytes ∧
      (∀ f ∈ s.fields, TextFits multiByteMaxLen f → Restored multiByteMaxLen memory row s unpacked.1 unpacked.2 f) ∧
      ∀ i, s.nullBytes ≤ i → (∃ f ∈ s.fields, NoText multiByteMaxLen row f) →
        (∀ f ∈ s.fields, Outside s f i ∨ NoText multiByteMaxLen row f) → unpacked.1 i = target i := by
  by_cases hv : s.hasVariableLengthFields = true
  · obtain ⟨hnull, hrestored, hframe⟩ := unpackRow_restored multiByteMaxLen blobBuffer memory' target hs.toWellFormed hv hs.whole hfits hroom
      himage.nulls (by rw [hs.order]; exact himage.fixed) (by rw [hs.order]; exact himage.entries)
    exact ⟨hnull, hrestored, fun i hi _ hout => hframe i hi hout⟩
  · have hv' : s.hasVariableLengthFields = false := eq_false_iff.mpr hv
    have hfixed := isVariable_of_none hs.toWellFormed hv'
    refine ⟨?_, fun f hf _ => ?_, fun i _ hsome _ => ?_⟩
    · rw [unpackRow_fixed blobBuffer memory' target hs.toWellFormed hv' (by omega), himage.nulls]
    · have hlast : VirtualLast s.fields := by
        refine pairwise_iff_forall_sublist.mpr fun hsub hg => ?_
        rw [hs.ordinary _ (hsub.subset mem_cons_self)] at hg
        cases hg
      have hbounds := (hs.laid.bounds hf).2
      rw [room_of_fixed (hfixed f hf)] at hbounds
      rw [restored_fixed multiByteMaxLen (hfixed f hf), unpackRow_fixed blobBuffer memory' target hs.toWellFormed hv' hbounds]
      exact bytes_of_virtualLast hs.toWellFormed hfixed hlast (by rw [hs.order]; exact himage.fixed) hf
    · obtain ⟨f, hf, -, ht, -⟩ := hsome
      have hvariable : f.isVariable = true := decide_eq_true (.inr (.inr ht))
      rw [hfixed f hf] at hvariable
      cases hvariable

/-- Where every text of the index has room, both readings agree. -/
theorem agrees_of_fits (hcopies : VariableColumn.Copies populate) (hs : Plain s) (index : Index s)
    (h : ∀ p ∈ index.columns, TextFits multiByteMaxLen p.2) : Agrees multiByteMaxLen populate index := by
  intro memory row buffer memory₁ target₁ memory₂ target₂ pkey key blobBuffer₁ blobBuffer₂ hrow hroom₁ hroom₂
  have hl : Leading populate := fun _ _ _ => Nat.le_of_eq (hcopies _ _ _)
  obtain ⟨packed, hpacked, himage⟩ := packRow_plain hs memory row buffer
  obtain ⟨hnull, hrestored, -⟩ := unpackRow_spec hs himage hrow.fits hroom₁ memory₁ target₁
  obtain ⟨u, hread, hkey⟩ := read_spec hcopies hs index himage hrow hroom₂
    (fillParts_shown populate pkey packed key.data 0 index.parts) memory₂ target₂
  refine ⟨packed, _, hpacked, KeyEquality.fillKey_eq hl index.toShort pkey packed key, ?_⟩
  dsimp only
  rw [hkey]
  refine ⟨fun p hp => ?_, fun f hf hne => ?_⟩
  · have hc := index.column p hp
    have hback := isNull_congr hs hc.mem hnull
    refine ⟨hback.trans (hread.null p hp).symm, fun hn => ?_⟩
    rw [hback] at hn
    have hrow' := same_of_restored hc.realType hn (fun ht => hrow.varchar p hp ht hn) (hrestored p.2 hc.mem (h p hp))
    exact hrow'.both (hread.same p hp hn)
  · have hbounds := hs.laid.bounds hf
    have hlength := hs.unpackedRowLength
    constructor
    · by_cases hbit : f.nullBit = 0
      · simp [DeepField.isNull, hbit]
      · have hoffset := (hs.nullable f hf).resolve_left hbit
        have hzero := hread.bits f.nullOffset hoffset f.nullBit fun p hp heq =>
          hs.nullBits p.2 (index.column p hp).mem f hf (hne p hp) heq
        simp [DeepField.isNull, hzero]
    · refine eq_replicate_iff.mpr ⟨length_bytes, fun b hb => ?_⟩
      obtain ⟨i, hi, rfl⟩ := mem_map.mp hb
      have hi := mem_range.mp hi
      refine hread.zero _ (by omega) (by omega) fun p hp => ?_
      have hap := hs.laid.apart_of_ne (index.column p hp).mem hf (hne p hp)
      rw [Apart] at hap
      rw [Outside]
      omega

/-! ## Texts that are all spaces -/

/-- An entry is its length and no more than its column, if varchars and blobs are empty. -/
theorem length_entry_le (h : f.isVariableLengthVarchar = true ∨ f.type = .blob → blobLen multiByteMaxLen row f = 0) :
    (entry multiByteMaxLen s memory row f).length ≤ f.room s + 4 := by
  by_cases hv : f.isVariable = true
  · rw [length_entry multiByteMaxLen s memory row hv]
    by_cases hkind : f.isVariableLengthVarchar = true ∨ f.type = .blob
    · rw [h hkind]
      omega
    · rw [not_or] at hkind
      have htext := (stripSpaces_spec row f.valueOffset (f.packLength / multiByteMaxLen f.characterSet) f.packLength).1
      have hle : blobLen multiByteMaxLen row f ≤ f.packLength := by
        rw [blobLen, if_neg hkind.1, if_neg hkind.2, getMultiByteTextLength]
        split_ifs
        · exact Nat.zero_le _
        · exact htext
      have hroom : f.room s = f.packLength := room_of_not_blob s fun h => hkind.2 h.2
      omega
  · rw [entry, if_neg hv]
    exact Nat.zero_le _

/-- The entries of a row whose varchars and blobs are empty. -/
theorem entryLength_le {fs : List DeepField}
    (h : ∀ f ∈ fs, f.isVariableLengthVarchar = true ∨ f.type = .blob → blobLen multiByteMaxLen row f = 0) :
    entryLength multiByteMaxLen s memory row fs ≤ (fs.map (·.room s)).sum + 4 * fs.length := by
  induction fs with
  | nil => exact Nat.zero_le _
  | cons f fs ih =>
    have hhead := @length_entry_le multiByteMaxLen s f memory row (h f mem_cons_self)
    have hrest := ih (forall_mem_cons.mp h).2
    rw [entryLength_cons, map_cons, sum_cons, length_cons]
    omega

/-- A row with spaces in one column, and zeros in the others. -/
def spaces (f : DeepField) : Buffer := fun i => if f.valueOffset ≤ i ∧ i < f.valueOffset + f.packLength then 0x20 else 0

theorem spaces_other (hs : Plain s) (hf : f ∈ s.fields) (ht : f.type ≠ .blob) {g : DeepField} (hg : g ∈ s.fields) (hne : g ≠ f)
    (hi : i < g.room s) : spaces f (g.valueOffset + i) = 0 := by
  have hroom : f.room s = f.packLength := room_of_not_blob s fun h => ht h.2
  have hap := hs.laid.apart_of_ne hg hf hne
  rw [Apart, hroom] at hap
  exact if_neg (by omega)

section Spaces

variable (hs : Plain s) (hf : f ∈ s.fields) (hvar : f.isVariableLengthVarchar = false) (ht : f.type = .textMultibyte)
include hs hf hvar ht

theorem spaces_empty {g : DeepField} (hg : g ∈ s.fields) (hkind : g.isVariableLengthVarchar = true ∨ g.type = .blob) {i : Nat}
    (hi : i < g.packLength) : spaces f (g.valueOffset + i) = 0 := by
  have hne : g ≠ f := by
    rintro rfl
    rcases hkind with hkind | hkind
    · rw [hvar] at hkind
      cases hkind
    · rw [ht] at hkind
      cases hkind
  refine spaces_other hs hf (by rw [ht]; decide) hg hne ?_
  rw [DeepField.room]
  split_ifs with hb
  · have := (hs.blob g hg (eq_false_iff.mpr hb.1) hb.2).1
    omega
  · exact hi

theorem spaces_blobLen {g : DeepField} (hg : g ∈ s.fields) (hkind : g.isVariableLengthVarchar = true ∨ g.type = .blob) :
    blobLen multiByteMaxLen (spaces f) g = 0 := by
  have hzero := fun i => @spaces_empty s f hs hf hvar ht g hg hkind i
  rw [blobLen]
  split_ifs with hn hv hb
  · rfl
  · have hle := (hs.varchar g hg hv).2
    exact load_zero fun i hi => hzero i (by omega)
  · have hlen := (hs.blob g hg (eq_false_iff.mpr hv) hb).1
    exact load_zero fun i hi => hzero i (by omega)
  · exact absurd hkind (not_or.mpr ⟨hv, hb⟩)

theorem spaces_ok (index : Index s) (memory : Buffer) : RowOk multiByteMaxLen memory (spaces f) index := by
  refine ⟨fun g hg hv _ => ?_, fun p hp hg _ => ?_, fun p hp hg _ => ?_, ?_⟩
  · have hle := (hs.varchar g hg hv).2
    rw [load_zero fun i hi => spaces_empty hs hf hvar ht hg (.inl hv) (by omega)]
    exact hle
  · have hc := index.column p hp
    have hne : p.2 ≠ f := by
      intro heq
      rw [heq, ht] at hg
      cases hg
    have hroom : p.2.room s = p.2.packLength := room_of_not_blob s fun h => by rw [hg] at h; cases h.2
    have hle : p.2.lengthBytes ≤ p.2.packLength := by
      by_cases hv : p.2.isVariableLengthVarchar = true
      · exact (hs.varchar p.2 hc.mem hv).2
      · obtain ⟨-, hbytes, hlength⟩ := hc.shortVarchar hg (eq_false_iff.mpr hv)
        omega
    rw [load_zero fun i hi => spaces_other hs hf (by rw [ht]; decide) hc.mem hne (by omega)]
    exact hle
  · have hc := index.column p hp
    have hlen := (hs.blob p.2 hc.mem (not_varchar hc.realType (by rw [hg]; decide)) hg).1
    rw [load_zero fun i hi => spaces_empty hs hf hvar ht hc.mem (.inr hg) (by omega)]
    exact Nat.zero_le _
  · have hle : entryLength multiByteMaxLen s memory (spaces f) s.fields ≤ _ :=
      entryLength_le fun g hg hkind => spaces_blobLen hs hf hvar ht hg hkind
    have hlength := hs.unpackedRowLength
    have hshort := hs.rowLength
    omega

end Spaces

/-- A text of the index that has less room than a character of its set loses its spaces in the packed row alone. -/
theorem fits_of_agrees (hcopies : VariableColumn.Copies populate) (hs : Plain s) (index : Index s)
    (h : Agrees multiByteMaxLen populate index) : ∀ p ∈ index.columns, TextFits multiByteMaxLen p.2 := by
  intro p hp hvar ht
  have hf := (index.column p hp).mem
  by_contra hbad
  rw [not_or, Nat.not_lt, Nat.le_zero] at hbad
  obtain ⟨hpos, hzero⟩ := hbad
  have hbounds := (hs.laid.bounds hf).1
  have hrow := @spaces_ok multiByteMaxLen s p.2 hs hf hvar ht index fun _ => 0
  have hnull : p.2.isNull (spaces p.2) = false := not_null hs.toWellFormed hf fun i hi => if_neg (by omega)
  have hspaces : ∀ i < p.2.packLength, spaces p.2 (p.2.valueOffset + i) = 0x20 := fun i hi => if_pos (by omega)
  have hlen : blobLen multiByteMaxLen (spaces p.2) p.2 = 0 := by
    rw [blobLen, hnull, if_neg Bool.false_ne_true, hvar, if_neg Bool.false_ne_true, if_neg (by rw [ht]; decide), getMultiByteTextLength, hzero]
    exact stripSpaces_spaces hspaces
  have hempty : blobLength multiByteMaxLen (spaces p.2) s.fields = 0 :=
    (@empty_fits s multiByteMaxLen hs.toWellFormed (spaces p.2) fun g hg hkind i hi => spaces_empty hs hf hvar ht hg hkind hi).2
  have hroom₁ : 0 + blobLength multiByteMaxLen (spaces p.2) s.fields ≤ 256 ^ s.blobPtrSize := by
    rw [hempty]
    exact Nat.zero_le _
  have hroom₂ : ∀ q ∈ index.columns, q.2.type = .blob → 0 + 2 ^ 16 ≤ 256 ^ s.blobPtrSize := by
    intro q hq hb
    rw [hs.blobPtrSize q.2 (index.column q hq).mem hb]
    decide
  obtain ⟨packed, k, hpacked, hkey, hcolumns, -⟩ := h (fun _ => 0) (spaces p.2) (fun _ => 0) (fun _ => 0) (fun _ => 0) (fun _ => 0)
    (fun _ => 0) (fun _ => 0) ⟨⟨fun _ => 0, 0, 0, false⟩, 0⟩ 0 0 hrow hroom₁ hroom₂
  obtain ⟨packed', hpacked', himage⟩ := @packRow_plain multiByteMaxLen s hs (fun _ => 0) (spaces p.2) fun _ => 0
  obtain rfl : packed = packed' := Except.ok.inj (hpacked.symm.trans hpacked')
  have hl : Leading populate := fun _ _ _ => Nat.le_of_eq (hcopies _ _ _)
  rw [KeyEquality.fillKey_eq hl index.toShort] at hkey
  obtain rfl := Except.ok.inj hkey
  obtain ⟨hback, -, hframe⟩ := unpackRow_spec hs himage hrow.fits hroom₁ (fun _ => 0) fun _ => 0
  obtain ⟨u, hread, hreading⟩ := read_spec hcopies hs index himage hrow hroom₂
    (fillParts_shown populate (fun _ => 0) packed (fun _ => 0) 0 index.parts) (fun _ => 0) fun _ => 0
  have hnull' := isNull_congr hs hf hback
  obtain ⟨-, hsame⟩ := hcolumns p hp
  rw [hreading] at hsame
  have hboth := hsame (hnull'.trans hnull)
  have hown := hread.same p hp hnull
  rw [SameColumn, if_neg (by rw [ht]; decide), if_neg (by rw [ht]; decide)] at hboth hown
  -- the packed row has nothing of the column
  have hleft := hframe p.2.valueOffset hbounds ⟨p.2, hf, hvar, ht, hlen⟩ fun g hg => by
    by_cases heq : g = p.2
    · rw [heq]
      exact .inr ⟨hvar, ht, hlen⟩
    · have hap := hs.laid.apart_of_ne hg hf heq
      have hroom : p.2.room s = p.2.packLength := room_of_not_blob s fun h => by rw [ht] at h; cases h.2
      rw [Apart, hroom] at hap
      exact .inl (by rw [Outside]; omega)
  have hbyte := bytes_inj.mp (hown.trans hboth.symm) 0 (Nat.pos_of_ne_zero hpos)
  rw [hspaces 0 (Nat.pos_of_ne_zero hpos), Nat.add_zero, hleft] at hbyte
  exact absurd hbyte (by decide)

/-- Both readings of a row agree on the columns of the index, and the index touches no other, exactly if every text of several bytes a
    character has room for one of its characters, or none at all. -/
theorem index_read_iff (hcopies : VariableColumn.Copies populate) (hs : Plain s) (index : Index s) :
    Agrees multiByteMaxLen populate index ↔ ∀ p ∈ index.columns, TextFits multiByteMaxLen p.2 :=
  ⟨fits_of_agrees hcopies hs index, agrees_of_fits hcopies hs index⟩

/-- A table with a nullable number and a text of `packLength` bytes. -/
def numberAndText (packLength : Nat) : SchemaBuilder where
  nullBytes := 1
  fields := [⟨.other 1, .other 1, 4, 4, 4, 0, 1, 0, 1, 0, false⟩,
    ⟨.textMultibyte, .textMultibyte, packLength, packLength, packLength, 0, 0, 0, 5, 0, false⟩]
  hasVariableLengthFields := true
  hasVirtualFields := false
  blobStartOffset := 5
  blobPtrSize := 0
  unpackedRowLength := 5 + packLength

theorem numberAndText_plain {packLength : Nat} (h : packLength < 2 ^ 16) : Plain (numberAndText packLength) where
  laid := by simp [numberAndText, Laid, DeepField.room, DeepField.isVariableLengthVarchar]
  blobStartOffset := by simp [numberAndText, fixedLengthOf, DeepField.isVariable, DeepField.isVariableLengthVarchar]
  unpackedRowLength := by simp [numberAndText, DeepField.room, DeepField.isVariableLengthVarchar]; omega
  hasVariableLengthFields := by simp [numberAndText, DeepField.isVariable]
  hasVirtualFields := by simp [numberAndText]
  varchar := by simp [numberAndText, DeepField.isVariableLengthVarchar]
  blob := by simp [numberAndText]
  nullable := by simp [numberAndText]
  packLength := by simp [numberAndText]; omega
  noVirtual := rfl
  rowLength := by simp [numberAndText]; omega
  blobPtrSize := by simp [numberAndText]
  nullBits := by simp [numberAndText]

theorem overBoth_sound (packLength : Nat) : ∀ part ∈ ([⟨⟨.longInt, 4, 1, -1, 0⟩, 1, 0, -1⟩,
    ⟨⟨.textMultibyte, packLength, 0, 0, 0⟩, 5, 0, -1⟩, ⟨⟨.hidden, 8, 0, -1, 0⟩, 0, 0, -1⟩] : List KeyPart), part.Sound := by
  intro part hpart
  simp only [mem_cons, not_mem_nil, or_false] at hpart
  rcases hpart with rfl | rfl | rfl <;> exact ⟨by simp, by simp⟩

/-- An index over both columns, with the primary key behind them. -/
def overBoth (packLength : Nat) (h : packLength < 2 ^ 15) : Index (numberAndText packLength) where
  parts := [⟨⟨.longInt, 4, 1, -1, 0⟩, 1, 0, -1⟩, ⟨⟨.textMultibyte, packLength, 0, 0, 0⟩, 5, 0, -1⟩,
    ⟨⟨.hidden, 8, 0, -1, 0⟩, 0, 0, -1⟩]
  nonempty := by simp
  masked := by simp
  sound := overBoth_sound packLength
  short := by
    simp [KeyPart.slot, DeepKeyPart.lengthBytes, DeepKeyPart.nullBytes, DeepKeyPart.maybeNull]
    exact Nat.lt_of_le_of_lt (Nat.add_le_add_left (Nat.add_le_add_right (Nat.le_of_lt h) 8) 5) (by decide)
  columns := [(⟨⟨.longInt, 4, 1, -1, 0⟩, 1, 0, -1⟩, ⟨.other 1, .other 1, 4, 4, 4, 0, 1, 0, 1, 0, false⟩),
    (⟨⟨.textMultibyte, packLength, 0, 0, 0⟩, 5, 0, -1⟩,
      ⟨.textMultibyte, .textMultibyte, packLength, packLength, packLength, 0, 0, 0, 5, 0, false⟩)]
  hidden := [⟨⟨.hidden, 8, 0, -1, 0⟩, 0, 0, -1⟩]
  split := rfl
  column := by
    intro p hp
    simp only [mem_cons, not_mem_nil, or_false] at hp
    rcases hp with rfl | rfl
    · exact ⟨rfl, rfl, by simp, ⟨[], _, rfl, by simp [DeepField.isVariable, DeepField.isVariableLengthVarchar, numberAndText, fixedLengthOf]⟩,
        by simp [DeepField.isVariableLengthVarchar], by simp, by simp, by simp, by simp⟩
    · exact ⟨rfl, rfl, by simp, ⟨[_], [], rfl, by simp [DeepField.isVariable, DeepField.isVariableLengthVarchar, numberAndText]⟩,
        by simp [DeepField.isVariableLengthVarchar], by simp, by simp, by simp, by simp⟩
  hiddenLast := by simp

/-- A column of two bytes for a set that has characters of three. -/
theorem as_built_loses_spaces : ¬Agrees (fun _ => 3) VariableColumn.copyAll (overBoth 2 (by decide)) := by
  intro h
  have hplain : Plain (numberAndText 2) := numberAndText_plain (by decide)
  have hfits := fits_of_agrees (fun _ _ _ => rfl) hplain _ h
    (⟨⟨.textMultibyte, 2, 0, 0, 0⟩, 5, 0, -1⟩, ⟨.textMultibyte, .textMultibyte, 2, 2, 2, 0, 0, 0, 5, 0, false⟩) (by simp [overBoth])
  exact absurd (hfits rfl rfl) (by decide)

theorem both_agree : Agrees (fun _ => 3) VariableColumn.copyAll (overBoth 30 (by decide)) := by
  refine (index_read_iff (fun _ _ _ => rfl) (numberAndText_plain (by decide)) _).mpr ?_
  intro p hp hvar ht
  simp only [overBoth, mem_cons, not_mem_nil, or_false] at hp
  rcases hp with rfl | rfl
  · cases ht
  · exact .inr (by decide)

end DeepFabric.Store.IndexRead
