/-
  DeepFabric.Store.VariableColumn — how a key part finds its column among the variable ones
  (api/deep/DeepTypes.h: populateKey of DeepKeyPartVarBinary, DeepKeyPartVarChar and
  DeepKeyPartCharMultiByte; api/deep/DeepStore.h: DeepCharset::populate).

  The variable columns of a row are records one behind the other: a length in four bytes and the
  bytes. A part walks over those before its own and keeps as many bytes of its own as it has room for.

  The walk adds up in a uinttype, but the length of the part's own record comes into a ushorttype
  before it is compared to the part's: a column of 65536 bytes is an empty one in the key.

  - `extracts_iff`: the key has the first bytes of the record exactly if what is left of its length
    in two bytes is all of it, or no less than the part's, or the part is padded with what the column
    has there.
-/
import DeepFabric.Store.KeyFill

namespace DeepFabric.Store.VariableColumn

open DeepFabric.Lib Buffer CompositeKey KeyFill List

/-- The variable columns of a row. -/
def area (records : List (List UInt8)) : List UInt8 := records.flatMap fun record => leBytes 4 record.length ++ record

/-- A row has these records from the offset on. A length is in four bytes, and so is the offset of the record that is looked for. -/
structure Row (value : Buffer) (valueOffset : Nat) (records : List (List UInt8)) (p : Nat) : Prop where
  laid : bytes value valueOffset (area records).length = area records
  record : ∀ record ∈ records, record.length < 2 ^ 32
  offset : (area (records.take p)).length < 2 ^ 32

/-- `DeepCharset::populate`: the leading bytes of the data, up to the limit. -/
def Copies (populate : Populate) : Prop := ∀ characterSet data limit, populate characterSet data limit = min data.length limit

/-- The parts that read variable columns. A part's length is a ushorttype. -/
structure Variable (part : KeyPart) : Prop where
  type : part.type = .varBinary ∨ part.type = .varText ∨ part.type = .textMultibyte
  positioned : 0 ≤ part.variablePosition
  short : part.slot < 2 ^ 16

/-- What a key is to have of a record. -/
def column (part : KeyPart) (record : List UInt8) : List UInt8 :=
  let n := min record.length part.length
  match part.type with
  | .textMultibyte => record.take n ++ List.replicate (part.length - n) 0x20
  | _ => leBytes 2 n ++ record.take n

/-- The part fills a key with its record, and the part behind it begins where the record ends. -/
def Extracts (populate : Populate) (part : KeyPart) (value : Buffer) (record : List UInt8) : Prop :=
  ∀ (pkey : Option Buffer) (key : Buffer) (d : Nat), ∃ filled n, part.populateKey populate pkey value key d = .ok (filled, n) ∧
    if part.null value then filled d ≠ 0
    else n = part.nullBytes + (column part record).length ∧
      bytes filled d (part.nullBytes + (column part record).length) = part.nullImage value ++ column part record

/-- What is left of the record's length is all of it, or as much as the part keeps, or the part is padded like the column. -/
def Kept (part : KeyPart) (record : List UInt8) : Prop :=
  record.length < 2 ^ 16 ∨ part.length ≤ record.length % 2 ^ 16 ∨
    part.type = .textMultibyte ∧ ∀ b ∈ (record.take part.length).drop (record.length % 2 ^ 16), b = 0x20

def copyAll : Populate := fun _ data limit => min data.length limit

/-- A column of 65536 sevens. -/
def longColumn : Buffer := fun i => if i = 2 then 1 else if i < 4 then 0 else 7

theorem area_singleton (record : List UInt8) : area [record] = leBytes 4 record.length ++ record := append_nil _

theorem longColumn_row {record : List UInt8} (hlen : record.length = 65536) (h : ∀ b ∈ record, b = 7) : Row longColumn 0 [record] 0 := by
  have hsevens : bytes longColumn (0 + 4) record.length = record := by
    refine bytes_eq_iff.mpr fun i hi => ?_
    rw [h _ (getElem_mem hi), longColumn, if_neg (by omega), if_neg (by omega)]
  refine ⟨?_, ?_, Nat.two_pow_pos 32⟩
  · rw [area_singleton, length_append, length_leBytes, bytes_append, hsevens, hlen]
    congr 1
  · intro r hr
    rw [mem_singleton.mp hr, hlen]
    decide

theorem longColumn_lost {record : List UInt8} (hlen : record.length = 65536) :
    ¬Extracts copyAll ⟨⟨.varBinary, 4, 0, 0, 0⟩, 0, 0, -1⟩ longColumn record := by
  intro h
  obtain ⟨filled, n, hf, hn, -⟩ := h none (fun _ => 0) 0
  obtain ⟨-, rfl⟩ := Prod.mk.inj (Except.ok.inj hf)
  rw [column, length_append, length_take, length_leBytes, hlen] at hn
  exact absurd hn (by decide)

/-- The key of its first four bytes says that there are none. -/
theorem as_built_loses_long_column :
    Row longColumn 0 [List.replicate 65536 7] 0 ∧
      ¬Extracts copyAll ⟨⟨.varBinary, 4, 0, 0, 0⟩, 0, 0, -1⟩ longColumn (List.replicate 65536 7) :=
  ⟨longColumn_row length_replicate fun _ hb => eq_of_mem_replicate hb, longColumn_lost length_replicate⟩

variable {populate : Populate} {part : KeyPart} {pkey : Option Buffer} {value key : Buffer} {records : List (List UInt8)}
  {record : List UInt8} {valueOffset p d n : Nat}

/-! ## The walk -/

theorem area_append {l r : List (List UInt8)} : area (l ++ r) = area l ++ area r := flatMap_append

theorem Row.at (h : Row value valueOffset records p) {i : Nat} (hi : records[i]? = some record) :
    load value (valueOffset + (area (records.take i)).length) 4 = record.length ∧
      bytes value (valueOffset + (area (records.take i)).length + 4) record.length = record := by
  obtain ⟨hlt, rfl⟩ := List.getElem?_eq_some_iff.mp hi
  have hsplit : area records = area (records.take i) ++ ((leBytes 4 records[i].length ++ records[i]) ++ area (records.drop (i + 1))) := by
    conv_lhs => rw [← take_append_drop i records, drop_eq_getElem_cons hlt]
    rw [area_append]
    rfl
  have hlaid := h.laid
  rw [hsplit] at hlaid
  simp only [length_append, length_leBytes] at hlaid
  obtain ⟨-, hrest⟩ := bytes_split hlaid rfl
  obtain ⟨hrec, -⟩ := bytes_split hrest (by rw [length_append, length_leBytes])
  obtain ⟨hlen, hdata⟩ := bytes_split hrec length_leBytes
  refine ⟨?_, hdata⟩
  rw [load_leBytes (bytes_eq_leBytes.mp hlen)]
  exact Nat.mod_eq_of_lt (h.record _ (getElem_mem hlt))

theorem length_area_take {i : Nat} (hi : records[i]? = some record) :
    (area (records.take (i + 1))).length = (area (records.take i)).length + (record.length + 4) := by
  obtain ⟨hlt, rfl⟩ := List.getElem?_eq_some_iff.mp hi
  rw [take_succ_eq_append_getElem hlt, area_append, length_append]
  simp [area, Nat.add_comm]

variable (records) in
theorem length_area_mono {i j : Nat} (hij : i ≤ j) : (area (records.take i)).length ≤ (area (records.take j)).length := by
  obtain ⟨rest, hrest⟩ := take_prefix_take_left (l := records) hij
  rw [← hrest, area_append, length_append]
  exact Nat.le_add_right _ _

theorem variableOffset_eq (h : Row value part.valueOffset records p) (hp : p ≤ records.length) {i : Nat} (hi : i ≤ p) :
    part.variableOffset value i = (area (records.take i)).length := by
  induction i with
  | zero => rfl
  | succ i ih =>
    have hget : records[i]? = some records[i] := List.getElem?_eq_getElem (by omega)
    have hnext := length_area_take hget
    have hle := length_area_mono records hi
    rw [KeyPart.variableOffset, ih (by omega), (h.at hget).1, ← hnext]
    exact Nat.mod_eq_of_lt (Nat.lt_of_le_of_lt hle h.offset)

theorem Row.variable (h : Row value part.valueOffset records p) (hp : records[p]? = some record)
    (hpos : part.variablePosition.toNat = p) : part.variableLength value = record.length % 2 ^ 16 ∧
      bytes value (part.variableData value) record.length = record := by
  have hle : p ≤ records.length := Nat.le_of_lt (List.getElem?_eq_some_iff.mp hp).choose
  obtain ⟨hlen, hdata⟩ := h.at hp
  rw [KeyPart.variableLength, KeyPart.variableData, hpos, variableOffset_eq h hle (Nat.le_refl p)]
  exact ⟨congrArg (· % 2 ^ 16) hlen, hdata⟩

theorem bytes_take (h : bytes value p record.length = record) (hn : n ≤ record.length) : bytes value p n = record.take n := by
  obtain ⟨k, hk⟩ := Nat.exists_eq_add_of_le hn
  rw [hk, bytes_append] at h
  rw [← h, take_append_of_le_length (by rw [length_bytes]), take_of_length_le (by rw [length_bytes])]

/-! ## What is kept -/

/-- A part's column is that of the record as far as two bytes of its length tell. -/
theorem payload_eq (hl : Copies populate) (hv : Variable part) (h : Row value part.valueOffset records p)
    (hp : records[p]? = some record) (hpos : part.variablePosition.toNat = p) :
    part.payload populate value = column part (record.take (record.length % 2 ^ 16)) := by
  obtain ⟨hlen, hdata⟩ := h.variable hp hpos
  have hmod : record.length % 2 ^ 16 ≤ record.length := Nat.mod_le _ _
  have hkeep : ∀ n ≤ record.length % 2 ^ 16,
      bytes value (part.variableData value) n = (record.take (record.length % 2 ^ 16)).take n := by
    intro n hn
    rw [bytes_take hdata (by omega), take_take, Nat.min_eq_left hn]
  have hn : min (record.take (record.length % 2 ^ 16)).length part.length = min (record.length % 2 ^ 16) part.length := by
    rw [length_take, Nat.min_eq_left hmod]
  have hle : min (record.length % 2 ^ 16) part.length ≤ record.length % 2 ^ 16 := Nat.min_le_left _ _
  unfold KeyPart.payload column
  rcases hv.type with ht | ht | ht
  · simp only [ht, hlen, hn, hkeep _ hle]
  · simp only [ht, hl _ _ _, length_bytes, hlen, hn, hkeep _ hle]
  · simp only [ht, hl _ _ _, length_bytes, hlen, hn, hkeep _ hle]

theorem leBytes_two {m n : Nat} (h : leBytes 2 m = leBytes 2 n) (hm : m < 2 ^ 16) (hn : n < 2 ^ 16) : m = n := by
  have hb : bytes (store (fun _ => 0) 0 2 m) 0 2 = leBytes 2 m := bytes_store
  rw [← load_of_bytes hb hm, load_of_bytes (hb.trans h) hn]

theorem column_take_iff (hm : part.length < 2 ^ 16) (record : List UInt8) :
    column part (record.take (record.length % 2 ^ 16)) = column part record ↔ Kept part record := by
  have hmod : record.length % 2 ^ 16 ≤ record.length := Nat.mod_le _ _
  by_cases hshort : record.length < 2 ^ 16
  · refine iff_of_true ?_ (.inl hshort)
    rw [Nat.mod_eq_of_lt hshort, take_length]
  by_cases hroom : part.length ≤ record.length % 2 ^ 16
  · refine iff_of_true ?_ (.inr (.inl hroom))
    unfold column
    simp only [length_take, take_take, Nat.min_eq_left hmod, Nat.min_eq_right hroom, Nat.min_eq_left hroom,
      Nat.min_eq_right (Nat.le_trans hroom hmod)]
  -- the record is longer than the part, and what is left of its length is not
  have hkept : Kept part record ↔ part.type = .textMultibyte ∧
      ∀ b ∈ (record.take part.length).drop (record.length % 2 ^ 16), b = 0x20 := by
    unfold Kept
    simp only [hshort, hroom, false_or]
  have hlen : (record.take (record.length % 2 ^ 16)).length = record.length % 2 ^ 16 := by
    rw [length_take, Nat.min_eq_left hmod]
  have hleft : min (record.length % 2 ^ 16) part.length = record.length % 2 ^ 16 := Nat.min_eq_left (by omega)
  have hall : min record.length part.length = part.length := Nat.min_eq_right (by omega)
  rw [hkept]
  by_cases ht : part.type = .textMultibyte
  · have hsplit : record.take part.length = record.take (record.length % 2 ^ 16) ++
        (record.take part.length).drop (record.length % 2 ^ 16) := by
      conv_lhs => rw [← take_append_drop (record.length % 2 ^ 16) (record.take part.length)]
      rw [take_take, hleft]
    have hrest : ((record.take part.length).drop (record.length % 2 ^ 16)).length = part.length - record.length % 2 ^ 16 := by
      rw [length_drop, length_take, Nat.min_comm, hall]
    simp only [column, ht, hlen, hleft, hall, take_take, Nat.min_self, Nat.sub_self, replicate_zero, append_nil,
      true_and]
    rw [hsplit, append_cancel_left_eq, ← hsplit, eq_comm, eq_replicate_iff, and_iff_right hrest]
  · refine iff_of_false (fun h => ?_) fun h => ht h.1
    have hcolumn : ∀ r : List UInt8, column part r = leBytes 2 (min r.length part.length) ++ r.take (min r.length part.length) := by
      intro r
      unfold column
      cases h' : part.type <;> simp_all
    rw [hcolumn, hcolumn, hlen, hleft, hall] at h
    have := leBytes_two (append_inj h (by simp)).1 (by omega) hm
    omega

theorem populateKey_pkey (ht : part.type ≠ .hidden) (pkey : Option Buffer) (value key : Buffer) (d : Nat) :
    part.populateKey populate pkey value key d = part.populateKey populate (some value) value key d := by
  unfold KeyPart.populateKey
  cases h : part.type <;> first | rfl | exact absurd h ht

theorem populateKey_head (hl : Leading populate) (hv : Variable part) (pkey : Option Buffer) (value key : Buffer) (d : Nat) :
    part.populateKey populate pkey value key d =
      .ok (put key d (part.head populate value), part.fillWidth populate value) := by
  have ht : part.type ≠ .hidden := by rcases hv.type with h | h | h <;> simp [h]
  have hs : part.Sound := ⟨fun _ h => by have := hv.positioned; omega, fun h => absurd h ht⟩
  rw [populateKey_pkey ht, populateKey_eq hl hs hv.short]
  congr 3
  unfold KeyPart.image
  rcases hv.type with h | h | h <;> rw [h]

theorem fillWidth_column (hv : Variable part) (hpay : part.payload populate value = column part record) (hnull : part.null value = false) :
    part.fillWidth populate value = part.nullBytes + (column part record).length := by
  by_cases ht : part.type = .varText ∨ part.type = .varBinary
  · rw [fillWidth_variable populate value ht, hnull, hpay]
    rfl
  · have ht' : part.type = .textMultibyte := by
      rcases hv.type with h | h | h
      · exact absurd (.inr h) ht
      · exact absurd (.inl h) ht
      · exact h
    have hlen : (column part record).length = part.length := by
      simp only [column, ht', length_append, length_take, length_replicate]
      omega
    rw [KeyPart.fillWidth, ht', KeyPart.slot, hlen, DeepKeyPart.lengthBytes, ht']
    simp only [Nat.zero_add]

theorem extracts_iff (hl : Copies populate) (hv : Variable part) (h : Row value part.valueOffset records p)
    (hp : records[p]? = some record) (hpos : part.variablePosition.toNat = p) :
    Extracts populate part value record ↔ part.null value = true ∨ Kept part record := by
  have hleading : Leading populate := fun _ _ _ => Nat.le_of_eq (hl _ _ _)
  have hfill := fun pkey key d => populateKey_head hleading hv pkey value key d
  have hpay := payload_eq hl hv h hp hpos
  have hm : part.length < 2 ^ 16 := by
    have := hv.short
    rw [KeyPart.slot] at this
    omega
  rw [← column_take_iff hm record]
  unfold Extracts
  cases hnull : part.null value with
  | true =>
    refine iff_of_true (fun pkey key d => ⟨_, _, hfill pkey key d, ?_⟩) (.inl rfl)
    simp only [KeyPart.null, Bool.and_eq_true, decide_eq_true_eq] at hnull
    have hhead : part.head populate value = [part.isNull value] := by
      simp [KeyPart.head, hnull]
    have hput : put key d (part.head populate value) d = part.isNull value := by
      rw [hhead]
      exact put_inside (p := 0) (length_pos_of_mem mem_cons_self)
    rw [if_pos rfl, hput]
    exact hnull.2
  | false =>
    have hhead : part.head populate value = part.nullImage value ++ column part (record.take (record.length % 2 ^ 16)) := by
      rw [head_eq, hnull, hpay]
      rfl
    have hlen : (part.head populate value).length =
        part.nullBytes + (column part (record.take (record.length % 2 ^ 16))).length := by
      rw [hhead, length_append, length_nullImage]
    have hwidth := fillWidth_column hv hpay hnull
    simp only [Bool.false_eq_true, if_false, false_or]
    constructor
    · intro hextracts
      obtain ⟨filled, n, hf, hn, hbytes⟩ := hextracts none (fun _ => 0) 0
      obtain ⟨rfl, rfl⟩ := Prod.mk.inj (Except.ok.inj ((hfill none _ 0).symm.trans hf))
      have hsame : (column part (record.take (record.length % 2 ^ 16))).length = (column part record).length := by omega
      have hput : bytes (put (fun _ => 0) 0 (part.head populate value)) 0 (part.head populate value).length =
          part.head populate value := bytes_put
      rw [← hsame, ← hlen, hput, hhead] at hbytes
      exact append_cancel_left hbytes
    · intro hsame pkey key d
      refine ⟨_, _, hfill pkey key d, by rw [hwidth, hsame], ?_⟩
      rw [← hsame, ← hlen, bytes_put, hhead]

/-- The second of two columns, by its first two bytes. -/
theorem second_column_extracts :
    Extracts copyAll ⟨⟨.varText, 2, 0, 1, 0⟩, 0, 0, -1⟩ (fun i => (area [[1, 2, 3], [4, 5, 6]])[i]?.getD 0) [4, 5, 6] :=
  have hrow : Row (fun i => (area [[1, 2, 3], [4, 5, 6]])[i]?.getD 0) 0 [[1, 2, 3], [4, 5, 6]] 1 :=
    ⟨by decide, by decide, by decide⟩
  (extracts_iff (fun _ _ _ => rfl) ⟨.inr (.inl rfl), by decide, by decide⟩ hrow rfl rfl).mpr (.inr (.inl (by decide)))

end DeepFabric.Store.VariableColumn
