/-
  DeepFabric.Wire.ReaderCopy — a reader and its copy (cxx/io/EncodeProtocol.h: reader(const reader&)).

  The copy takes over every bucket, with raw values and arrays in memory of its own. Its message id
  and its flags start as those of an empty reader. The loop over an array's elements counts with an
  `i` that hides the one of the loop over the fields, so that it goes on while `i` is below the
  encoded length of the field with number `i`, whatever the array's own length is.

  As built: `copy_forgets`. A decoded message with an id and an array is copied without both.
-/
import DeepFabric.Wire.Observation

namespace DeepFabric.Wire

open List
open BitVec (and_zero ofNat ofNat_eq_ofNat)

/-- What ends a copy other than a return. -/
inductive CopyStop where
  /-- An ArrayIndexOutOfBoundsException. -/
  | indexOutOfBounds
  | fault (f : Fault)
  deriving DecidableEq, Repr

/-- `operator[]` of an array behind a pointer. -/
def elementOf (pcArray : Option (List (BitVec 32))) (i : Nat) : Except CopyStop (BitVec 32) :=
  match pcArray with
  | none => .error (.fault .overrun)
  | some vs => if h : i < vs.length then .ok vs[i] else .error .indexOutOfBounds

/-- The loop over the elements, a turn for each of the buckets that are left to ask for a length. -/
def copyElements (r : Reader) (pcOld : Option (List (BitVec 32))) : Nat → Nat → List (BitVec 32) → Except CopyStop (List (BitVec 32))
  | 0, _, _ => .error (.fault .overrun)
  | left + 1, i, pcArray =>
    if i < (r.fields (ofNat 32 i)).encodedLen.toNat then do
      let v ← elementOf pcOld i
      let _ ← elementOf (some pcArray) i
      copyElements r pcOld left (i + 1) (pcArray.set i v)
    else .ok pcArray

/-- The switch over the type. What is not copied is left as it comes. -/
def copyBucket (r : Reader) (b : FieldBucket) : Except CopyStop FieldBucket :=
  match b.iType with
  | .int32 | .uint32 | .int64 | .uint64 | .float | .double => .ok b
  | .uint32Array =>
    if b.encodedLen.msb then .error (.fault .overrun)
    else (copyElements r b.values.array 256 0 (List.replicate b.encodedLen.toNat 0)).map fun vs => { b with values := .pArray (some vs) }
  | .raw | .string | .bundle =>
    match copy b.values.raw b.encodedLen with
    | .ok piRaw => .ok { b with values := .piRaw piRaw }
    | .error f => .error (.fault f)
  | .nil | .boolean | .voidptr => .ok { b with values := .pArray none }

/-- The loop over the fields. -/
def copyFields (r : Reader) : List (BitVec 32) → (BitVec 32 → FieldBucket) → Except CopyStop (BitVec 32 → FieldBucket)
  | [], fields => .ok fields
  | id :: ids, fields => do
    let b ← copyBucket r (r.fields id)
    copyFields r ids (Function.update fields id b)

def fieldIds : List (BitVec 32) := (List.range 256).map (ofNat 32)

/-- reader(const reader&). The upper halves of the unions are in fresh memory. -/
def Reader.clone (r : Reader) : Except CopyStop Reader :=
  (copyFields r fieldIds fun _ => ⟨.nil, .pArray none, 0⟩).map fun fields =>
    ⟨[], r.bufferLen, 0, 0, fields, fun id => (fields id).values.high false, true⟩

/-! ## What is compared -/

/-- Two readers that answer alike. -/
structure Same (r c : Reader) : Prop where
  msgId : c.msgId = r.msgId
  isReply : c.isReply = r.isReply
  isFirst : c.isFirst = r.isFirst
  isLast : c.isLast = r.isLast
  toBlock : c.toBlock = r.toBlock
  fields : SameFields r c

/-- The number of turns of the loop over an array's elements: the first number that is not below its own field's length. -/
def turnsFrom (r : Reader) : Nat → Nat → Nat
  | 0, i => i
  | left + 1, i => if i < (r.fields (ofNat 32 i)).encodedLen.toNat then turnsFrom r left (i + 1) else i

def turns (r : Reader) : Nat := turnsFrom r 256 0

/-- An array with its length, of which what the loop does not reach is 0. -/
def ArrayCopied (r : Reader) (b : FieldBucket) : Prop :=
  ∃ vs, b.values.array = some vs ∧ vs.length = b.encodedLen.toNat ∧ b.encodedLen.msb = false ∧
    turns r < 256 ∧ turns r ≤ vs.length ∧ ∀ v ∈ vs.drop (turns r), v = 0

/-- The readers that a copy answers as. -/
structure Copyable (r : Reader) : Prop where
  msgId : r.msgId = 0
  flags : r.isReply = false ∧ r.isFirst = false ∧ r.isLast = false ∧ r.toBlock = false
  raw : ∀ id, id < fieldMax → IsRaw (r.fields id).iType → (r.fields id).encodedLen.toNat ≤ (r.fields id).values.raw.length
  array : ∀ id, id < fieldMax → (r.fields id).iType = .uint32Array → ArrayCopied r (r.fields id)

/-! ## The loop over the elements -/

theorem le_turnsFrom (r : Reader) (left i : Nat) : i ≤ turnsFrom r left i := by
  induction left generalizing i with
  | zero => exact Nat.le_refl i
  | succ left ih =>
    rw [turnsFrom]
    split_ifs
    · exact Nat.le_trans (Nat.le_succ i) (ih (i + 1))
    · exact Nat.le_refl i

/-- What the loop has copied before turn `i`. -/
def copiedTo (vs : List (BitVec 32)) (i : Nat) : List (BitVec 32) := vs.take i ++ List.replicate (vs.length - i) 0

variable {vs : List (BitVec 32)} {i : Nat}

theorem copiedTo_length (h : i ≤ vs.length) : (copiedTo vs i).length = vs.length := by
  rw [copiedTo, length_append, length_take, length_replicate]
  omega

theorem copiedTo_set (h : i < vs.length) : (copiedTo vs i).set i vs[i] = copiedTo vs (i + 1) := by
  have htake : (vs.take i).length = i := by
    rw [length_take]
    omega
  obtain ⟨n, hn⟩ : ∃ n, vs.length - i = n + 1 := ⟨vs.length - i - 1, by omega⟩
  have hn' : vs.length - (i + 1) = n := by omega
  rw [copiedTo, copiedTo, hn, hn', set_append_right _ _ (by omega), htake, Nat.sub_self, replicate_succ, set_cons_zero,
    take_add_one, List.getElem?_eq_getElem h, Option.toList_some, append_assoc, singleton_append]

variable {r : Reader}

theorem copyElements_ok {left : Nat} (hend : turnsFrom r left i < i + left)
    (hle : turnsFrom r left i ≤ vs.length) : copyElements r (some vs) left i (copiedTo vs i) = .ok (copiedTo vs (turnsFrom r left i)) := by
  induction left generalizing i with
  | zero => exact absurd hend (Nat.lt_irrefl _)
  | succ left ih =>
    rw [turnsFrom] at hend hle ⊢
    rw [copyElements]
    by_cases hi : i < (r.fields (ofNat 32 i)).encodedLen.toNat
    · rw [if_pos hi] at hend hle ⊢
      rw [if_pos hi]
      have hlt : i < vs.length := Nat.lt_of_lt_of_le (le_turnsFrom r left (i + 1)) hle
      have hlt' : i < (copiedTo vs i).length := by
        rw [copiedTo_length (by omega)]
        exact hlt
      simp only [elementOf, dif_pos hlt, dif_pos hlt', bind, Except.bind, copiedTo_set hlt]
      exact ih (by omega) hle
    · rw [if_neg hi, if_neg hi]

/-- A loop that comes to its end has asked no more than m_iFields, and has stayed in the new array. -/
theorem copyElements_turns {pcOld : Option (List (BitVec 32))} {left : Nat} {pcArray : List (BitVec 32)}
    (hi : i ≤ pcArray.length) (h : copyElements r pcOld left i pcArray = .ok vs) :
    turnsFrom r left i < i + left ∧ turnsFrom r left i ≤ pcArray.length ∧ vs.length = pcArray.length := by
  induction left generalizing i pcArray with
  | zero => cases h
  | succ left ih =>
    rw [copyElements] at h
    rw [turnsFrom]
    by_cases hlt : i < (r.fields (ofNat 32 i)).encodedLen.toNat
    · rw [if_pos hlt] at h ⊢
      cases hold : elementOf pcOld i with
      | error e =>
        rw [hold] at h
        cases h
      | ok v =>
        rw [hold] at h
        by_cases hin : i < pcArray.length
        · have hnew : elementOf (some pcArray) i = .ok pcArray[i] := dif_pos hin
          simp only [hnew, bind, Except.bind] at h
          have hih := ih (by rw [length_set]; exact hin) h
          rw [length_set] at hih
          exact ⟨by omega, hih.2⟩
        · have hnew : elementOf (some pcArray) i = .error .indexOutOfBounds := dif_neg hin
          simp only [hnew, bind, Except.bind] at h
          cases h
    · rw [if_neg hlt] at h ⊢
      cases h
      exact ⟨by omega, hi, rfl⟩

theorem copiedTo_eq_iff {k : Nat} : copiedTo vs k = vs ↔ ∀ v ∈ vs.drop k, v = 0 := by
  have hlen : (vs.drop k).length = vs.length - k := length_drop
  have hsplit : copiedTo vs k = vs ↔ List.replicate (vs.length - k) 0 = vs.drop k := by
    conv_lhs => rhs; rw [← take_append_drop k vs]
    rw [copiedTo, append_cancel_left_eq]
  rw [hsplit, ← hlen, eq_comm, eq_replicate_iff]
  exact ⟨fun h => h.2, fun h => ⟨rfl, h⟩⟩

/-- The copy of an array is the array exactly if the loop reaches all that is not 0 in it. -/
theorem copyArray_iff (r : Reader) (b : FieldBucket) :
    (∃ vs, b.encodedLen.msb = false ∧ copyElements r b.values.array 256 0 (List.replicate b.encodedLen.toNat 0) = .ok vs ∧
      b.values.array = some vs) ↔ ArrayCopied r b := by
  constructor
  · intro ⟨vs, hmsb, hcopy, hvs⟩
    obtain ⟨hend, hle, hlen⟩ := copyElements_turns (Nat.zero_le _) hcopy
    rw [length_replicate] at hlen hle
    have hstart : List.replicate b.encodedLen.toNat 0 = copiedTo vs 0 := by rw [copiedTo, hlen]; rfl
    rw [hvs, hstart, copyElements_ok hend (by rw [hlen]; exact hle)] at hcopy
    exact ⟨vs, hvs, hlen, hmsb, by rw [turns]; omega, by rw [hlen]; exact hle, copiedTo_eq_iff.mp (Except.ok.inj hcopy)⟩
  · intro ⟨vs, hvs, hlen, hmsb, hend, hle, hzero⟩
    have hstart : List.replicate b.encodedLen.toNat 0 = copiedTo vs 0 := by rw [copiedTo, hlen]; rfl
    refine ⟨vs, hmsb, ?_, hvs⟩
    rw [hvs, hstart, copyElements_ok (by rw [Nat.zero_add]; exact hend) hle]
    exact congrArg _ (copiedTo_eq_iff.mpr hzero)

/-! ## The copy of the buckets -/

variable {id : BitVec 32}

theorem mem_fieldIds : id ∈ fieldIds ↔ id < fieldMax := by
  rw [fieldIds, mem_map]
  constructor
  · rintro ⟨i, hi, rfl⟩
    rw [mem_range] at hi
    rw [BitVec.lt_def, BitVec.toNat_ofNat, Nat.mod_eq_of_lt (by omega)]
    exact hi
  · intro h
    exact ⟨id.toNat, mem_range.mpr h, BitVec.ofNat_toNat 32 id⟩

variable {ids : List (BitVec 32)}

theorem copyFields_ok (h : ∀ id ∈ ids, ∃ b, copyBucket r (r.fields id) = .ok b)
    (fields : BitVec 32 → FieldBucket) : ∃ fields', copyFields r ids fields = .ok fields' := by
  induction ids generalizing fields with
  | nil => exact ⟨fields, rfl⟩
  | cons id ids ih =>
    obtain ⟨b, hb⟩ := h id mem_cons_self
    obtain ⟨fields', hall⟩ := ih (forall_mem_cons.mp h).2 (Function.update fields id b)
    refine ⟨fields', ?_⟩
    rw [copyFields, hb]
    exact hall

variable {fields fields' : BitVec 32 → FieldBucket}

theorem copyFields_cons
    (h : copyFields r (id :: ids) fields = .ok fields') :
    ∃ b, copyBucket r (r.fields id) = .ok b ∧ copyFields r ids (Function.update fields id b) = .ok fields' := by
  rw [copyFields] at h
  cases hb : copyBucket r (r.fields id) with
  | error e =>
    rw [hb] at h
    cases h
  | ok b =>
    rw [hb] at h
    exact ⟨b, rfl, h⟩

theorem copyFields_of_notMem
    (h : copyFields r ids fields = .ok fields') (hid : id ∉ ids) : fields' id = fields id := by
  induction ids generalizing fields with
  | nil =>
    cases h
    rfl
  | cons id' ids ih =>
    obtain ⟨b, -, hall⟩ := copyFields_cons h
    rw [mem_cons, not_or] at hid
    rw [ih hall hid.2, Function.update_of_ne hid.1]

theorem copyFields_bucket
    (h : copyFields r ids fields = .ok fields') (hid : id ∈ ids) : copyBucket r (r.fields id) = .ok (fields' id) := by
  induction ids generalizing fields with
  | nil => exact absurd hid not_mem_nil
  | cons id' ids ih =>
    obtain ⟨b, hb, hall⟩ := copyFields_cons h
    by_cases hin : id ∈ ids
    · exact ih hall hin
    · obtain rfl : id = id' := (mem_cons.mp hid).resolve_right hin
      rw [copyFields_of_notMem hall hin, Function.update_self]
      exact hb

theorem clone_ok (h : ∀ id, id < fieldMax → ∃ b, copyBucket r (r.fields id) = .ok b) : ∃ c, r.clone = .ok c := by
  obtain ⟨fields, hfields⟩ := copyFields_ok (fun id hid => h id (mem_fieldIds.mp hid)) fun _ => ⟨.nil, .pArray none, 0⟩
  rw [Reader.clone, hfields]
  exact ⟨_, rfl⟩

variable {c : Reader}

theorem clone_fields (h : r.clone = .ok c) :
    c.msgId = 0 ∧ c.flags = 0 ∧ ∀ id, id < fieldMax → copyBucket r (r.fields id) = .ok (c.fields id) := by
  rw [Reader.clone] at h
  cases hfields : copyFields r fieldIds fun _ => ⟨.nil, .pArray none, 0⟩ with
  | error e =>
    rw [hfields] at h
    cases h
  | ok fields =>
    rw [hfields] at h
    cases h
    exact ⟨rfl, rfl, fun id hid => copyFields_bucket hfields (mem_fieldIds.mpr hid)⟩

/-! ## The copy of one bucket -/

section Bucket

variable {r : Reader} {b c : FieldBucket}

theorem copyBucket_raw (ht : IsRaw b.iType) (h : copyBucket r b = .ok c) :
    ∃ piRaw, copy b.values.raw b.encodedLen = .ok piRaw ∧ c = { b with values := .piRaw piRaw } := by
  have hcase : copyBucket r b = match copy b.values.raw b.encodedLen with
      | .ok piRaw => .ok { b with values := .piRaw piRaw }
      | .error f => .error (.fault f) := by
    rcases ht with ht | ht | ht <;> simp only [copyBucket, ht]
  rw [hcase] at h
  cases hc : copy b.values.raw b.encodedLen with
  | error f =>
    rw [hc] at h
    cases h
  | ok piRaw =>
    rw [hc] at h
    cases h
    exact ⟨piRaw, rfl, rfl⟩

theorem copyBucket_array (ht : b.iType = .uint32Array) (h : copyBucket r b = .ok c) :
    ∃ vs, b.encodedLen.msb = false ∧ copyElements r b.values.array 256 0 (List.replicate b.encodedLen.toNat 0) = .ok vs ∧
      c = { b with values := .pArray (some vs) } := by
  have hcase : copyBucket r b = if b.encodedLen.msb then .error (.fault .overrun)
      else (copyElements r b.values.array 256 0 (List.replicate b.encodedLen.toNat 0)).map fun vs => { b with values := .pArray (some vs) } := by
    simp only [copyBucket, ht]
  rw [hcase] at h
  cases hmsb : b.encodedLen.msb with
  | true =>
    rw [if_pos hmsb] at h
    cases h
  | false =>
    rw [if_neg (by rw [hmsb]; exact Bool.false_ne_true)] at h
    cases hc : copyElements r b.values.array 256 0 (List.replicate b.encodedLen.toNat 0) with
    | error e =>
      rw [hc] at h
      cases h
    | ok vs =>
      rw [hc] at h
      cases h
      exact ⟨vs, rfl, rfl, rfl⟩

/-- The type and the length are kept whatever the type is, and a number is as well. -/
theorem copyBucket_kept (h : copyBucket r b = .ok c) : c.iType = b.iType ∧ c.encodedLen = b.encodedLen := by
  cases ht : b.iType with
  | int32 | uint32 | int64 | uint64 | float | double =>
    simp only [copyBucket, ht] at h
    cases h
    exact ⟨ht, rfl⟩
  | nil | boolean | voidptr =>
    have hcase : copyBucket r b = .ok { b with values := .pArray none } := by simp only [copyBucket, ht]
    rw [hcase] at h
    cases h
    exact ⟨ht, rfl⟩
  | raw | string | bundle =>
    obtain ⟨piRaw, -, rfl⟩ := copyBucket_raw (by simp [IsRaw, ht]) h
    exact ⟨ht, rfl⟩
  | uint32Array =>
    obtain ⟨vs, -, -, rfl⟩ := copyBucket_array ht h
    exact ⟨ht, rfl⟩

theorem copyBucket_number (ht : IsNumber b.iType) (h : copyBucket r b = .ok c) : c = b := by
  have hcase : copyBucket r b = .ok b := by
    rcases ht with ht | ht | ht | ht | ht | ht <;> simp only [copyBucket, ht]
  rw [hcase] at h
  cases h
  rfl

theorem copy_self {p piRaw : Bytes} {len : BitVec 32} (h : copy p len = .ok piRaw) : copy piRaw len = .ok piRaw := by
  rw [copy] at h
  split_ifs at h with hle
  cases h
  have hlen : (p.take len.toNat).length = len.toNat := length_take_of_le hle
  rw [copy, if_pos hlen.ge, take_of_length_le hlen.le]

theorem copyBucket_bytes (ht : IsRaw b.iType) (h : copyBucket r b = .ok c) :
    copy c.values.raw c.encodedLen = copy b.values.raw b.encodedLen := by
  obtain ⟨piRaw, hcopy, rfl⟩ := copyBucket_raw ht h
  exact (copy_self hcopy).trans hcopy.symm

theorem copyBucket_ok (hraw : IsRaw b.iType → b.encodedLen.toNat ≤ b.values.raw.length) (harray : b.iType = .uint32Array → ArrayCopied r b) :
    ∃ c, copyBucket r b = .ok c := by
  cases ht : b.iType with
  | int32 | uint32 | int64 | uint64 | float | double | nil | boolean | voidptr => exact ⟨_, by simp only [copyBucket, ht]; rfl⟩
  | raw | string | bundle =>
    have hcopy : copy b.values.raw b.encodedLen = .ok (b.values.raw.take b.encodedLen.toNat) := if_pos (hraw (by simp [IsRaw, ht]))
    exact ⟨_, by simp only [copyBucket, ht, hcopy]; rfl⟩
  | uint32Array =>
    obtain ⟨vs, hmsb, hcopy, -⟩ := (copyArray_iff r b).mpr (harray ht)
    refine ⟨{ b with values := .pArray (some vs) }, ?_⟩
    simp only [copyBucket, ht, hmsb, hcopy]
    rfl

end Bucket

/-! ## When a copy answers alike -/

/-- A copy of which the flags and the arrays are right is right. -/
theorem same_of_arrays (h : r.clone = .ok c) (hid : r.msgId = 0)
    (hflags : r.isReply = false ∧ r.isFirst = false ∧ r.isLast = false ∧ r.toBlock = false)
    (harray : ∀ id, id < fieldMax → (r.fields id).iType = .uint32Array → (c.fields id).values.array = (r.fields id).values.array) : Same r c := by
  obtain ⟨hmsg, hf, hb⟩ := clone_fields h
  obtain ⟨h1, h2, h3, h4⟩ := hflags
  have halike : ∀ id, id < fieldMax → Alike (r.fields id) (c.fields id) := by
    intro id hlt
    obtain ⟨htype, hlen⟩ := copyBucket_kept (hb id hlt)
    refine ⟨htype, by rw [hlen], fun ht => ?_, fun ht => ⟨hlen, copyBucket_bytes ht (hb id hlt)⟩, harray id hlt⟩
    rw [copyBucket_number ht (hb id hlt)]
  have hno (flag : BitVec 32) : decide (flag &&& c.flags ≠ 0) = false := by
    rw [hf, ofNat_eq_ofNat, and_zero]
    rfl
  refine ⟨by rw [hmsg, hid], ?_, ?_, ?_, ?_, sameFields_of_alike halike⟩
  · exact (hno replyFlag).trans h1.symm
  · exact (hno firstFlag).trans h2.symm
  · exact (hno lastFlag).trans h3.symm
  · exact (hno blockFlag).trans h4.symm

theorem arrayCopied_of_same (hs : Same r c) (hlt : id < fieldMax) (ht : (r.fields id).iType = .uint32Array)
    (h : copyBucket r (r.fields id) = .ok (c.fields id)) : ArrayCopied r (r.fields id) := by
  obtain ⟨vs, hmsb, hcopy, hc⟩ := copyBucket_array ht h
  have hget := (hs.fields.array id none).2
  have hge : ¬fieldMax ≤ id := BitVec.not_le.mpr hlt
  rw [getUint32ArrayField, getUint32ArrayField, if_neg hge, if_neg hge, hc, ht, if_neg (not_not.mpr rfl)] at hget
  exact (copyArray_iff r _).mp ⟨vs, hmsb, hcopy, hget.symm⟩

/-- Every reader, decoded from whatever message, has a copy that answers as it does exactly if it is copyable. -/
theorem copy_same_iff (r : Reader) : (∃ c, r.clone = .ok c ∧ Same r c) ↔ Copyable r := by
  constructor
  · intro ⟨c, hc, hs⟩
    obtain ⟨hmsg, hf, hb⟩ := clone_fields hc
    have hno (flag : BitVec 32) : decide (flag &&& c.flags ≠ 0) = false := by
      rw [hf, ofNat_eq_ofNat, and_zero]
      rfl
    refine ⟨hs.msgId.symm.trans hmsg, ⟨?_, ?_, ?_, ?_⟩, fun id hlt ht => ?_, fun id hlt ht => ?_⟩
    · exact hs.isReply.symm.trans (hno replyFlag)
    · exact hs.isFirst.symm.trans (hno firstFlag)
    · exact hs.isLast.symm.trans (hno lastFlag)
    · exact hs.toBlock.symm.trans (hno blockFlag)
    · obtain ⟨piRaw, hcopy, -⟩ := copyBucket_raw ht (hb id hlt)
      rw [copy] at hcopy
      split_ifs at hcopy with hle
      exact hle
    · exact arrayCopied_of_same hs hlt ht (hb id hlt)
  · intro h
    obtain ⟨c, hc⟩ := clone_ok fun id hlt => copyBucket_ok (h.raw id hlt) (h.array id hlt)
    refine ⟨c, hc, same_of_arrays hc h.msgId h.flags fun id hlt ht => ?_⟩
    obtain ⟨-, -, hb⟩ := clone_fields hc
    obtain ⟨vs, hmsb, hcopy, hold⟩ := (copyArray_iff r _).mpr (h.array id hlt ht)
    obtain ⟨vs', -, hcopy', hnew⟩ := copyBucket_array ht (hb id hlt)
    rw [hcopy] at hcopy'
    cases hcopy'
    rw [hnew, hold]
    rfl

/-- A message with id 0 and no flags is copyable if it has no arrays. -/
theorem message_copyable {fs : List (BitVec 32 × Field)} (hid : ∀ p ∈ fs, p.1 < fieldMax) (hdup : (fs.map Prod.fst).Nodup)
    (hfits : ∀ p ∈ fs, p.2.Fits) (hno : ∀ p ∈ fs, p.2.type ≠ .uint32Array) {size : BitVec 32} (hsize : size.toNat = (encodeAll fs).length)
    (h : size.toNat + 16 < 2 ^ 32) :
    ∃ r, decodeFields (.create (messageHeader version 0 size ++ encodeAll fs)) = .ok (0, r) ∧ Copyable r := by
  obtain ⟨r, hdec, hmsg, hflags, hfields, habsent⟩ := decodeFields_encode hid hdup hfits 0 (BitVec.and_self : version &&& version = version) hsize h
  have hf : r.flags = 0 := hflags
  have hflag (flag : BitVec 32) : decide (flag &&& r.flags ≠ 0) = false := by
    rw [hf, ofNat_eq_ofNat, and_zero]
    rfl
  have hbucket (id : BitVec 32) : (∃ f rest, (id, f) ∈ fs ∧ r.fields id = f.bucket rest) ∨ (r.fields id).iType = .nil := by
    by_cases hmem : id ∈ fs.map Prod.fst
    · obtain ⟨⟨id', f⟩, hp, rfl⟩ := mem_map.mp hmem
      obtain ⟨rest, hrest⟩ := hfields _ hp
      exact .inl ⟨f, rest, hp, hrest⟩
    · exact .inr (by rw [habsent id hmem])
  refine ⟨r, hdec, hmsg, ⟨hflag replyFlag, hflag firstFlag, hflag lastFlag, hflag blockFlag⟩, fun id _ ht => ?_, fun id _ ht => ?_⟩
  · rcases hbucket id with ⟨f, rest, -, hb⟩ | hnil
    · rw [hb] at ht ⊢
      cases f with
      | raw bytes | string bytes =>
        have hlen : (ofNat 32 bytes.length).toNat ≤ bytes.length := Nat.mod_le _ _
        show (ofNat 32 bytes.length).toNat ≤ (bytes ++ rest).length
        rw [length_append]
        omega
      | int32 v | uint32 v | int64 v | uint64 v | float v | double v | uint32Array v => rcases ht with ht | ht | ht <;> cases ht
    · rw [hnil] at ht
      rcases ht with ht | ht | ht <;> cases ht
  · rcases hbucket id with ⟨f, rest, hp, hb⟩ | hnil
    · rw [hb, bucket_iType] at ht
      exact absurd ht (hno _ hp)
    · rw [hnil] at ht
      cases ht

/-- A message with id 9, an array of one number and nothing in field 0. -/
def oneNumber : Bytes := messageHeader version 9 6 ++ (Field.uint32Array [5]).encode 3

/-- The copy of a decoded message has no id, and its array a 0 in place of the number. -/
theorem copy_forgets : ∃ r c, decodeFields (.create oneNumber) = .ok (0, r) ∧ r.clone = .ok c ∧ r.msgId = 9 ∧ c.msgId = 0 ∧
    (getUint32ArrayField r 3 none).2.1 = some [5] ∧ (getUint32ArrayField c 3 none).2.1 = some [0] ∧ ¬Same r c := by
  have hrun : ((decodeFields (.create oneNumber)).toOption.any fun d => d.2.clone.toOption.any fun c =>
      decide (d.1 = 0 ∧ d.2.msgId = 9 ∧ c.msgId = 0 ∧ (getUint32ArrayField d.2 3 none).2.1 = some [5] ∧
        (getUint32ArrayField c 3 none).2.1 = some [0])) = true := by decide +kernel
  cases hdec : decodeFields (.create oneNumber) with
  | error f =>
    rw [hdec] at hrun
    cases hrun
  | ok d =>
    obtain ⟨status, r⟩ := d
    rw [hdec] at hrun
    cases hclone : r.clone with
    | error e =>
      simp only [Except.toOption, Option.any_some, hclone, Option.any_none] at hrun
      cases hrun
    | ok c =>
      simp only [Except.toOption, Option.any_some, hclone, decide_eq_true_eq] at hrun
      obtain ⟨rfl, hr, hc, hold, hnew⟩ := hrun
      refine ⟨r, c, rfl, hclone, hr, hc, hold, hnew, fun hs => ?_⟩
      have hmsg := hs.msgId
      rw [hr, hc] at hmsg
      exact absurd hmsg (by decide)

end DeepFabric.Wire
