/-
  DeepFabric.Store.SchemaBuilder — the definition of a key and its table (api/deep/Store.h: Store,
  DeepField; api/deep/DeepKeyPart.h; createDeepKeyPart of api/deep/DeepTypes.h).

  A builder has what belongs to the key (sizes, parts), what belongs to the table (null bytes,
  blobs, fields) and what addKeyPart counts on the way: the unpacked length, and where the hidden,
  the reserved and the first ignored part are. Numbers have the widths of the source. A key part's
  pointer to its field is left out, as nothing here looks at it.
-/
import Mathlib.Data.List.Forall2
import Mathlib.Data.List.Basic

namespace DeepFabric.Store.Schema

inductive Fault
  | thrown (message : String)
  /-- A null pointer is followed. -/
  | crash

/-! ## Key parts -/

def CT_DATASTORE_TEXT : UInt8 := 1
def CT_DATASTORE_BINARY : UInt8 := 2
def CT_DATASTORE_SHORT_INT : UInt8 := 3
def CT_DATASTORE_LONG_INT : UInt8 := 4
def CT_DATASTORE_FLOAT : UInt8 := 5
def CT_DATASTORE_DOUBLE : UInt8 := 6
def CT_DATASTORE_USHORT_INT : UInt8 := 8
def CT_DATASTORE_ULONG_INT : UInt8 := 9
def CT_DATASTORE_LONGLONG : UInt8 := 10
def CT_DATASTORE_ULONGLONG : UInt8 := 11
def CT_DATASTORE_INT24 : UInt8 := 12
def CT_DATASTORE_UINT24 : UInt8 := 13
def CT_DATASTORE_INT8 : UInt8 := 14
def CT_DATASTORE_VARTEXT1 : UInt8 := 15
def CT_DATASTORE_VARBINARY1 : UInt8 := 16
def CT_DATASTORE_VARTEXT2 : UInt8 := 17
def CT_DATASTORE_VARBINARY2 : UInt8 := 18
def CT_DATASTORE_HIDDEN : UInt8 := 22
def CT_DATASTORE_UINT8 : UInt8 := 23
def CT_DATASTORE_FIXED_VARTEXT1 : UInt8 := 24
def CT_DATASTORE_FIXED_VARBINARY1 : UInt8 := 25
def CT_DATASTORE_TEXT_MULTIBYTE : UInt8 := 28

structure DeepKeyPart where
  fieldIndex : UInt32
  type : UInt8
  length : UInt16
  valueOffset : UInt32
  nullOffset : UInt32
  nullBit : UInt8
  isIgnored : Bool
  isReserved : Bool
  variablePosition : Int16
  primaryPosition : Int16
  lengthBytes : UInt16
  nullBytes : UInt16
  unpackLength : UInt16
  deriving DecidableEq

/-- The constructor. -/
def newDeepKeyPart (fieldIndex : UInt32) (type : UInt8) (length : UInt16) (valueOffset nullOffset : UInt32) (nullBit : UInt8)
    (isIgnored isReserved : Bool) (variablePosition primaryPosition : Int16) : DeepKeyPart :=
  let lengthBytes := if variablePosition ≠ -1 then 2 else 0
  let nullBytes := if nullBit ≠ 0 then 1 else 0
  { fieldIndex, type, length, valueOffset, nullOffset, nullBit, isIgnored, isReserved, variablePosition, primaryPosition
    lengthBytes, nullBytes, unpackLength := lengthBytes + nullBytes + length }

def createDeepKeyPart (fieldIndex : UInt32) (type : UInt8) (length : UInt16) (valueOffset nullOffset : UInt32) (nullBit : UInt8)
    (isIgnored isReserved : Bool) (variablePosition primaryPosition : Int16) : Except Fault DeepKeyPart :=
  let create (position : Int16) :=
    newDeepKeyPart fieldIndex type length valueOffset nullOffset nullBit isIgnored isReserved position primaryPosition
  if type ∈ [CT_DATASTORE_LONG_INT, CT_DATASTORE_ULONG_INT, CT_DATASTORE_LONGLONG, CT_DATASTORE_ULONGLONG, CT_DATASTORE_SHORT_INT,
      CT_DATASTORE_USHORT_INT, CT_DATASTORE_INT24, CT_DATASTORE_UINT24, CT_DATASTORE_INT8, CT_DATASTORE_UINT8, CT_DATASTORE_FLOAT,
      CT_DATASTORE_DOUBLE, CT_DATASTORE_TEXT, CT_DATASTORE_BINARY, CT_DATASTORE_HIDDEN] then
    .ok (create (-1))
  else if type ∈ [CT_DATASTORE_VARTEXT1, CT_DATASTORE_VARTEXT2, CT_DATASTORE_VARBINARY1, CT_DATASTORE_VARBINARY2] then
    .ok (create variablePosition)
  else if type ∈ [CT_DATASTORE_FIXED_VARTEXT1, CT_DATASTORE_FIXED_VARBINARY1] then
    .ok (create 0)
  else if type = CT_DATASTORE_TEXT_MULTIBYTE then
    -- stored with a variable length, but fixed in a key
    let part := create variablePosition
    .ok { part with lengthBytes := 0, unpackLength := part.nullBytes + part.length }
  else .error (.thrown "Invalid key part type")

/-- A part made again of its own data. -/
def DeepKeyPart.recreate (part : DeepKeyPart) : Except Fault DeepKeyPart :=
  createDeepKeyPart part.fieldIndex part.type part.length part.valueOffset part.nullOffset part.nullBit part.isIgnored part.isReserved
    part.variablePosition part.primaryPosition

theorem recreate_created {fieldIndex : UInt32} {type : UInt8} {length : UInt16} {valueOffset nullOffset : UInt32} {nullBit : UInt8}
    {isIgnored isReserved : Bool} {variablePosition primaryPosition : Int16} {part : DeepKeyPart}
    (h : createDeepKeyPart fieldIndex type length valueOffset nullOffset nullBit isIgnored isReserved variablePosition primaryPosition = .ok part) :
    part.recreate = .ok part := by
  unfold createDeepKeyPart at h
  split at h
  case isTrue ht =>
    cases h
    rw [DeepKeyPart.recreate, createDeepKeyPart]
    exact if_pos ht
  case isFalse ht =>
    split at h
    case isTrue ht' =>
      cases h
      rw [DeepKeyPart.recreate, createDeepKeyPart]
      exact (if_neg ht).trans (if_pos ht')
    case isFalse ht' =>
      split at h
      case isTrue ht'' =>
        cases h
        rw [DeepKeyPart.recreate, createDeepKeyPart]
        exact (if_neg ht).trans ((if_neg ht').trans (if_pos ht''))
      case isFalse ht'' =>
        split at h
        case isTrue ht''' =>
          cases h
          rw [DeepKeyPart.recreate, createDeepKeyPart]
          exact (if_neg ht).trans ((if_neg ht').trans ((if_neg ht'').trans (if_pos ht''')))
        case isFalse => cases h

/-- As conditions: a difference of two numbers is nothing exactly if they are equal, in all of the types here. -/
def DeepKeyPart.compare (k1 k2 : DeepKeyPart) : Int :=
  if k1.type != k2.type || k1.length != k2.length || k1.valueOffset != k2.valueOffset || k1.nullOffset != k2.nullOffset ||
      k1.nullBit != k2.nullBit || k1.isIgnored != k2.isIgnored || k1.isReserved != k2.isReserved ||
      k1.variablePosition != k2.variablePosition || k1.lengthBytes != k2.lengthBytes || k1.nullBytes != k2.nullBytes ||
      k1.unpackLength != k2.unpackLength then 1 else 0

/-! ## Fields -/

structure DeepField where
  type : UInt8
  realType : UInt8
  packLength : UInt32
  rowPackLength : UInt32
  keyLength : UInt32
  lengthBytes : UInt32
  index : UInt16
  nullBit : UInt8
  nullOffset : UInt32
  valueOffset : UInt32
  characterSet : Int32
  gcVirtual : Bool
  fieldName : String
  deriving DecidableEq

/-- getCharacterSet, a uinttype. -/
def DeepField.getCharacterSet (f : DeepField) : UInt32 := f.characterSet.toUInt32

def DeepField.compare (f1 f2 : DeepField) : Int :=
  if f1.type != f2.type || f1.realType != f2.realType || f1.packLength != f2.packLength || f1.rowPackLength != f2.rowPackLength ||
      f1.keyLength != f2.keyLength || f1.lengthBytes != f2.lengthBytes || f1.index != f2.index || f1.nullBit != f2.nullBit ||
      f1.nullOffset != f2.nullOffset || f1.valueOffset != f2.valueOffset || f1.getCharacterSet != f2.getCharacterSet then 1 else 0

/-- Collections::IteratorComparator. -/
def compareIterators {E : Type} (compare : E → E → Int) : List E → List E → Int
  | [], [] => 0
  | [], _ :: _ => -1
  | _ :: _, [] => 1
  | x :: xs, y :: ys => if compare x y ≠ 0 then compare x y else compareIterators compare xs ys

/-! ## Builders -/

structure SchemaBuilder where
  keyName : String
  lrtIndex : Int32
  lrtPosition : UInt32
  protocol : Int32
  keySize : Int32
  valueSize : Int32
  hasPrimary : Bool
  isTemporary : Bool
  indexOrientation : UInt32
  keyCompression : Bool
  valueCompression : Bool
  dataDir : String
  indexDir : String
  nullBytes : UInt32
  unpackLength : UInt16
  hiddenKeyPart : Int
  reservedKeyPart : Int
  ignoredKeyPart : Int
  requiresRekey : Bool
  keyParts : List DeepKeyPart
  fields : List DeepField
  hasVariableLengthFields : Bool
  blobStartOffset : UInt32
  blobPtrSize : UInt32
  unpackedRowLength : UInt64
  autoIncrementValue : UInt64
  characterSet : Int32
  deriving DecidableEq

namespace SchemaBuilder

/-- The constructor. -/
def new : SchemaBuilder where
  keyName := ""
  lrtIndex := 0
  lrtPosition := 0
  protocol := -1
  keySize := -1
  valueSize := -1
  hasPrimary := false
  isTemporary := false
  indexOrientation := 0
  keyCompression := false
  valueCompression := false
  dataDir := ""
  indexDir := ""
  nullBytes := 0
  unpackLength := 0
  hiddenKeyPart := -1
  reservedKeyPart := -1
  ignoredKeyPart := -1
  requiresRekey := false
  keyParts := []
  fields := []
  hasVariableLengthFields := false
  blobStartOffset := 0
  blobPtrSize := 0
  unpackedRowLength := 0
  autoIncrementValue := 1
  characterSet := -1

def requiresRekeyPart (part : DeepKeyPart) : Bool :=
  part.type ∈ [CT_DATASTORE_VARTEXT1, CT_DATASTORE_VARTEXT2, CT_DATASTORE_FIXED_VARTEXT1, CT_DATASTORE_TEXT]

def addKeyPart (b : SchemaBuilder) (part : DeepKeyPart) : SchemaBuilder :=
  { b with
    hiddenKeyPart := if part.type = CT_DATASTORE_HIDDEN then b.keyParts.length else b.hiddenKeyPart
    reservedKeyPart := if part.isReserved then b.keyParts.length else b.reservedKeyPart
    ignoredKeyPart := if b.ignoredKeyPart = -1 ∧ part.isIgnored then b.keyParts.length else b.ignoredKeyPart
    requiresRekey := if requiresRekeyPart part then true else b.requiresRekey
    unpackLength := b.unpackLength + part.unpackLength
    keyParts := b.keyParts ++ [part] }

def addField (b : SchemaBuilder) (f : DeepField) : SchemaBuilder := { b with fields := b.fields ++ [f] }

def hasHiddenKey (b : SchemaBuilder) : Bool := b.hiddenKeyPart ≠ -1

def hasReservedKey (b : SchemaBuilder) : Bool := b.reservedKeyPart ≠ -1

/-- What a builder is left with when its key is removed. -/
def cloneTo (b store : SchemaBuilder) : SchemaBuilder :=
  { store with
    fields := store.fields ++ b.fields
    protocol := b.protocol
    keySize := b.keySize
    valueSize := b.valueSize
    hasPrimary := b.hasPrimary
    nullBytes := b.nullBytes
    hiddenKeyPart := b.hiddenKeyPart
    reservedKeyPart := b.reservedKeyPart
    hasVariableLengthFields := b.hasVariableLengthFields
    blobStartOffset := b.blobStartOffset
    blobPtrSize := b.blobPtrSize
    unpackedRowLength := b.unpackedRowLength
    isTemporary := b.isTemporary
    characterSet := b.characterSet }

def compare (s1 s2 : SchemaBuilder) : Int :=
  if s1.protocol != s2.protocol || s1.keySize != s2.keySize || s1.valueSize != s2.valueSize || s1.hasPrimary != s2.hasPrimary ||
      s1.nullBytes != s2.nullBytes || s1.unpackLength != s2.unpackLength || s1.hasHiddenKey != s2.hasHiddenKey ||
      s1.hasReservedKey != s2.hasReservedKey || s1.hasVariableLengthFields != s2.hasVariableLengthFields ||
      s1.blobStartOffset != s2.blobStartOffset || s1.blobPtrSize != s2.blobPtrSize || s1.unpackedRowLength != s2.unpackedRowLength ||
      s1.isTemporary != s2.isTemporary || s1.characterSet != s2.characterSet then 1
  else
    let cmp := compareIterators DeepKeyPart.compare s1.keyParts s2.keyParts
    if cmp ≠ 0 then cmp else compareIterators DeepField.compare s1.fields s2.fields

end SchemaBuilder

/-! ## What compares equal -/

theorem compareIterators_eq_zero {E : Type} {compare : E → E → Int} {xs ys : List E} :
    compareIterators compare xs ys = 0 ↔ List.Forall₂ (fun x y => compare x y = 0) xs ys := by
  induction xs generalizing ys with
  | nil => cases ys <;> simp [compareIterators]
  | cons x xs ih =>
    cases ys with
    | nil => simp [compareIterators]
    | cons y ys =>
      rw [compareIterators, List.forall₂_cons, ← ih]
      split
      case isTrue h => exact iff_of_false h fun h' => h h'.1
      case isFalse h => exact (and_iff_right (not_not.mp h)).symm

theorem DeepKeyPart.compare_comm (k1 k2 : DeepKeyPart) : k1.compare k2 = 0 ↔ k2.compare k1 = 0 := by
  simp only [DeepKeyPart.compare, bne_comm]

theorem DeepKeyPart.compare_self (k : DeepKeyPart) : k.compare k = 0 := by simp [DeepKeyPart.compare]

theorem DeepField.compare_comm (f1 f2 : DeepField) : f1.compare f2 = 0 ↔ f2.compare f1 = 0 := by
  simp only [DeepField.compare, bne_comm]

namespace SchemaBuilder

/-- They agree on what compare looks at of the key, but for its hidden and reserved parts. -/
def SameKey (s1 s2 : SchemaBuilder) : Prop :=
  s1.protocol = s2.protocol ∧ s1.keySize = s2.keySize ∧ s1.valueSize = s2.valueSize ∧ s1.hasPrimary = s2.hasPrimary ∧
    s1.unpackLength = s2.unpackLength ∧ s1.isTemporary = s2.isTemporary ∧ s1.characterSet = s2.characterSet ∧
    List.Forall₂ (fun k1 k2 => DeepKeyPart.compare k1 k2 = 0) s1.keyParts s2.keyParts

/-- They agree on what compare looks at of the table, but for the length of an unpacked row. -/
def SameTable (s1 s2 : SchemaBuilder) : Prop :=
  s1.nullBytes = s2.nullBytes ∧ s1.hasVariableLengthFields = s2.hasVariableLengthFields ∧ s1.blobStartOffset = s2.blobStartOffset ∧
    s1.blobPtrSize = s2.blobPtrSize ∧ List.Forall₂ (fun f1 f2 => DeepField.compare f1 f2 = 0) s1.fields s2.fields

theorem compare_eq_zero {s1 s2 : SchemaBuilder} : s1.compare s2 = 0 ↔
    s1.SameKey s2 ∧ s1.SameTable s2 ∧ s1.unpackedRowLength = s2.unpackedRowLength ∧ s1.hasHiddenKey = s2.hasHiddenKey ∧
      s1.hasReservedKey = s2.hasReservedKey := by
  have hthen : s1.compare s2 = 0 ↔ (s1.protocol = s2.protocol ∧ s1.keySize = s2.keySize ∧ s1.valueSize = s2.valueSize ∧
      s1.hasPrimary = s2.hasPrimary ∧ s1.nullBytes = s2.nullBytes ∧ s1.unpackLength = s2.unpackLength ∧ s1.hasHiddenKey = s2.hasHiddenKey ∧
      s1.hasReservedKey = s2.hasReservedKey ∧ s1.hasVariableLengthFields = s2.hasVariableLengthFields ∧
      s1.blobStartOffset = s2.blobStartOffset ∧ s1.blobPtrSize = s2.blobPtrSize ∧ s1.unpackedRowLength = s2.unpackedRowLength ∧
      s1.isTemporary = s2.isTemporary ∧ s1.characterSet = s2.characterSet) ∧
      compareIterators DeepKeyPart.compare s1.keyParts s2.keyParts = 0 ∧ compareIterators DeepField.compare s1.fields s2.fields = 0 := by
    unfold compare
    split
    case isTrue h =>
      refine iff_of_false (by decide) fun hall => ?_
      simp [hall.1] at h
    case isFalse h =>
      simp only [Bool.or_eq_true, bne_iff_ne, ne_eq, not_or, not_not, and_assoc] at h
      refine Iff.trans ?_ (and_iff_right h).symm
      by_cases hparts : compareIterators DeepKeyPart.compare s1.keyParts s2.keyParts = 0
      · simp [hparts]
      · simp [hparts]
  rw [hthen, compareIterators_eq_zero, compareIterators_eq_zero, SameKey, SameTable]
  tauto

theorem compare_comm {s1 s2 : SchemaBuilder} : s1.compare s2 = 0 ↔ s2.compare s1 = 0 := by
  have hparts : ∀ {l l' : List DeepKeyPart}, List.Forall₂ (fun k1 k2 => DeepKeyPart.compare k1 k2 = 0) l l' →
      List.Forall₂ (fun k1 k2 => DeepKeyPart.compare k1 k2 = 0) l' l :=
    fun h => h.flip.imp fun k1 k2 => (DeepKeyPart.compare_comm k2 k1).mp
  have hfields : ∀ {l l' : List DeepField}, List.Forall₂ (fun f1 f2 => DeepField.compare f1 f2 = 0) l l' →
      List.Forall₂ (fun f1 f2 => DeepField.compare f1 f2 = 0) l' l :=
    fun h => h.flip.imp fun f1 f2 => (DeepField.compare_comm f2 f1).mp
  have hsymm : ∀ {s1 s2 : SchemaBuilder}, s1.compare s2 = 0 → s2.compare s1 = 0 := by
    intro s1 s2 h
    obtain ⟨⟨h1, h2, h3, h4, h5, h6, h7, h8⟩, ⟨h9, h10, h11, h12, h13⟩, h14, h15, h16⟩ := compare_eq_zero.mp h
    exact compare_eq_zero.mpr ⟨⟨h1.symm, h2.symm, h3.symm, h4.symm, h5.symm, h6.symm, h7.symm, hparts h8⟩,
      ⟨h9.symm, h10.symm, h11.symm, h12.symm, hfields h13⟩, h14.symm, h15.symm, h16.symm⟩
  exact ⟨hsymm, hsymm⟩

/-! ## Adding key parts -/

variable {b b' : SchemaBuilder} {parts : List DeepKeyPart}

theorem foldl_addKeyPart (b : SchemaBuilder) (parts : List DeepKeyPart) : parts.foldl addKeyPart b =
    { b with
      hiddenKeyPart := (parts.foldl addKeyPart b).hiddenKeyPart
      reservedKeyPart := (parts.foldl addKeyPart b).reservedKeyPart
      ignoredKeyPart := (parts.foldl addKeyPart b).ignoredKeyPart
      requiresRekey := (parts.foldl addKeyPart b).requiresRekey
      unpackLength := (parts.foldl addKeyPart b).unpackLength
      keyParts := b.keyParts ++ parts } := by
  induction parts generalizing b with
  | nil => rw [List.append_nil]; rfl
  | cons part parts ih =>
    rw [List.foldl_cons, ih]
    simp only [addKeyPart, List.append_assoc, List.singleton_append]

theorem foldl_addKeyPart_unpackLength (h : b.unpackLength = b'.unpackLength) :
    (parts.foldl addKeyPart b).unpackLength = (parts.foldl addKeyPart b').unpackLength := by
  induction parts generalizing b b' with
  | nil => exact h
  | cons part parts ih => exact ih (congrArg (· + part.unpackLength) h)

theorem foldl_addKeyPart_hasHiddenKey (b : SchemaBuilder) (parts : List DeepKeyPart) :
    (parts.foldl addKeyPart b).hasHiddenKey = (b.hasHiddenKey || parts.any fun part => part.type = CT_DATASTORE_HIDDEN) := by
  induction parts generalizing b with
  | nil => exact (Bool.or_false _).symm
  | cons part parts ih =>
    have hstep : (b.addKeyPart part).hasHiddenKey = (b.hasHiddenKey || decide (part.type = CT_DATASTORE_HIDDEN)) := by
      unfold hasHiddenKey addKeyPart
      by_cases hpart : part.type = CT_DATASTORE_HIDDEN
      · simp only [hpart, if_true, decide_true, Bool.or_true, decide_eq_true_eq]
        omega
      · simp only [hpart, if_false, decide_false, Bool.or_false]
    rw [List.foldl_cons, ih, hstep, List.any_cons, Bool.or_assoc]

theorem foldl_addKeyPart_hasReservedKey (b : SchemaBuilder) (parts : List DeepKeyPart) :
    (parts.foldl addKeyPart b).hasReservedKey = (b.hasReservedKey || parts.any fun part => part.isReserved) := by
  induction parts generalizing b with
  | nil => exact (Bool.or_false _).symm
  | cons part parts ih =>
    have hstep : (b.addKeyPart part).hasReservedKey = (b.hasReservedKey || part.isReserved) := by
      unfold hasReservedKey addKeyPart
      cases hpart : part.isReserved with
      | true =>
        simp only [if_true, Bool.or_true, decide_eq_true_eq]
        omega
      | false => simp
    rw [List.foldl_cons, ih, hstep, List.any_cons, Bool.or_assoc]

/-- A builder before its key parts are added. -/
def withoutParts (b : SchemaBuilder) : SchemaBuilder :=
  { b with unpackLength := 0, hiddenKeyPart := -1, reservedKeyPart := -1, ignoredKeyPart := -1, requiresRekey := false, keyParts := [] }

/-- A key has a part, its parts are made by createDeepKeyPart and added by addKeyPart. -/
structure Built (b : SchemaBuilder) : Prop where
  nonempty : b.keyParts ≠ []
  recreated : ∀ part ∈ b.keyParts, part.recreate = .ok part
  added : b.keyParts.foldl addKeyPart b.withoutParts = b

theorem built_foldl (hb : b.withoutParts = b) (hne : parts ≠ []) (h : ∀ part ∈ parts, part.recreate = .ok part) :
    Built (parts.foldl addKeyPart b) := by
  have hnil : b.keyParts = [] := by
    rw [← hb]
    rfl
  have hparts : (parts.foldl addKeyPart b).keyParts = parts := by
    rw [foldl_addKeyPart]
    show b.keyParts ++ parts = parts
    rw [hnil, List.nil_append]
  have hwithout : (parts.foldl addKeyPart b).withoutParts = b := by
    rw [foldl_addKeyPart, ← hb]
    rfl
  exact ⟨by rw [hparts]; exact hne, by rw [hparts]; exact h, by rw [hparts, hwithout]⟩

theorem Built.hasHiddenKey (h : b.Built) : b.hasHiddenKey = b.keyParts.any fun part => part.type = CT_DATASTORE_HIDDEN := by
  rw [← h.added, foldl_addKeyPart_hasHiddenKey, h.added]
  rfl

theorem Built.hasReservedKey (h : b.Built) : b.hasReservedKey = b.keyParts.any fun part => part.isReserved := by
  rw [← h.added, foldl_addKeyPart_hasReservedKey, h.added]
  rfl

end SchemaBuilder

end DeepFabric.Store.Schema
