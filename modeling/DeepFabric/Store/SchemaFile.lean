/-
  DeepFabric.Store.SchemaFile — the schema file of a table (api/deep/Schema.h: DeepSchema_v1,
  DeepKeySchema_v1, DeepFieldSchema_v1).

  The file is a row of elements that only grows: a definition for each key, the primary's first, a
  removal, an auto increment value, a mark behind each. read goes over all of them with one builder.
  The table comes from the primary's element, which is the only one that has it; the first element
  of the name asked for ends the search, and a removal of it starts it again on a builder that
  cloneTo has filled. Elements and their attributes come back as they were written; a number of 64
  bits is an attribute in decimal.

  - `replays_iff`: when a file reads as the last definition of a name. It does not when a definition
    of that name had a hidden or a reserved part and the last has none: cloneTo keeps where it was
    (`redefinition_has_hidden_part`).
-/
import Mathlib.Algebra.Group.Nat.Defs
import DeepFabric.Store.SchemaBuilder
import DeepFabric.Lib.Run
import Mathlib.Data.List.TakeWhile
import Mathlib.Data.List.Induction

namespace DeepFabric.Store.Schema

open List Option

/-! ## Numbers as text -/

/-- snprintf into `sizeof(uchartype*) * 2 + 1` characters, the last of them the end of the string. -/
def ulongToString (value : UInt64) : String := String.ofList ((Nat.toDigits 10 value.toNat).take (8 * 2))

/-- sscanf of an unsigned number. -/
def ulongFromString (value : String) : Except Fault UInt64 :=
  let digits := value.toList.takeWhile Char.isDigit
  if digits = [] then .error (.thrown "Error parsing schema attribute")
  else .ok (UInt64.ofNat (min (Nat.ofDigitChars 10 digits 0) (2 ^ 64 - 1)))

/-- The number the first sixteen digits make. -/
def firstDigits (value : UInt64) : UInt64 := UInt64.ofNat (value.toNat / 10 ^ ((Nat.toDigits 10 value.toNat).length - 16))

theorem take_toDigits {k : Nat} (hk : 0 < k) (n : Nat) :
    (Nat.toDigits 10 n).take k = Nat.toDigits 10 (n / 10 ^ ((Nat.toDigits 10 n).length - k)) := by
  induction n using Nat.strongRecOn with
  | ind n ih =>
    rcases Nat.lt_or_ge n (10 ^ k) with hlt | hge
    · have hlen := (Nat.length_toDigits_le_iff (b := 10) (by decide) hk).mpr hlt
      rw [take_of_length_le hlen, Nat.sub_eq_zero_of_le hlen, Nat.pow_zero, Nat.div_one]
    · have h10 : 10 ≤ n := Nat.le_trans (Nat.le_self_pow (Nat.ne_of_gt hk) 10) hge
      have hsplit := Nat.toDigits_of_base_le (b := 10) (by decide) h10
      have hlong : k ≤ (Nat.toDigits 10 (n / 10)).length := by
        have hlen := mt (Nat.length_toDigits_le_iff (b := 10) (n := n) (by decide) hk).mp (Nat.not_lt.mpr hge)
        rw [hsplit, length_append, length_singleton] at hlen
        omega
      rw [hsplit, take_append_of_le_length hlong, ih (n / 10) (by omega), length_append, length_singleton,
        Nat.sub_add_comm hlong, Nat.div_div_eq_div_mul, Nat.pow_succ']

theorem firstDigits_eq_self {value : UInt64} : firstDigits value = value ↔ value.toNat < 10 ^ 16 := by
  have hlt := value.toNat_lt
  have hdiv : value.toNat / 10 ^ ((Nat.toDigits 10 value.toNat).length - 16) < 2 ^ 64 := Nat.lt_of_le_of_lt (Nat.div_le_self _ _) hlt
  have hlen := Nat.length_toDigits_le_iff (b := 10) (n := value.toNat) (k := 16) (by decide) (by decide)
  rw [← hlen, ← UInt64.toNat_inj, firstDigits, UInt64.toNat_ofNat', Nat.mod_eq_of_lt hdiv]
  constructor
  · intro h
    by_contra hlong
    have hpos : 0 < value.toNat := by
      omega
    have hsmall := Nat.div_lt_self hpos (Nat.one_lt_pow (n := (Nat.toDigits 10 value.toNat).length - 16) (a := 10) (by omega) (by decide))
    exact absurd h (Nat.ne_of_lt hsmall)
  · intro h
    rw [Nat.sub_eq_zero_of_le h, Nat.pow_zero, Nat.div_one]

theorem ulongFromString_ulongToString (value : UInt64) : ulongFromString (ulongToString value) = .ok (firstDigits value) := by
  have hlt : value.toNat / 10 ^ ((Nat.toDigits 10 value.toNat).length - 16) < 2 ^ 64 := Nat.lt_of_le_of_lt (Nat.div_le_self _ _) value.toNat_lt
  have hdigits : (ulongToString value).toList.takeWhile Char.isDigit =
      Nat.toDigits 10 (value.toNat / 10 ^ ((Nat.toDigits 10 value.toNat).length - 16)) := by
    rw [ulongToString, String.toList_ofList, ← take_toDigits (by decide), takeWhile_eq_self_iff]
    exact fun c hc => Nat.isDigit_of_mem_toDigits (by decide) (by decide) (mem_of_mem_take hc)
  rw [ulongFromString, hdigits]
  simp only [Nat.toDigits_ne_nil, if_false, Nat.ofDigitChars_ten_toDigits]
  rw [Nat.min_eq_left (by omega), firstDigits]

example : ulongFromString (ulongToString 12345678901234567) = .ok 1234567890123456 := by rfl

/-! ## Elements -/

structure KeyPartElement where
  fieldIndex : UInt32
  type : Int32
  length : Int32
  valueOffset : Int32
  nullOffset : Int32
  nullBit : Int32
  variablePosition : Int32
  primaryPosition : Int32
  ignored : Bool
  reserved : Bool

structure KeyElement where
  hasPrimary : Bool
  keyPartList : List KeyPartElement

structure FieldListElement where
  type : UInt32
  realType : UInt32
  packLength : UInt32
  rowPackLength : UInt32
  keyLength : UInt32
  lengthBytes : UInt32
  index : UInt32
  nullBit : UInt32
  nullOffset : UInt32
  valueOffset : UInt32
  charset : Int32
  gcolVirtual : Bool
  name : String

structure FieldElement where
  nullBytes : UInt32
  hasVarlenFields : Bool
  blobStartOffset : UInt32
  blobPtrSize : UInt32
  blobUnpackedRowLength : String
  autoIncrementValue : String
  fieldList : List FieldListElement

structure MapElement where
  keyName : String
  lrtIndex : Int32
  lrtPosition : UInt32
  keySize : Int32
  valueSize : Int32
  charset : Int32
  isTemp : Bool
  indexOrientation : UInt32
  keyCompression : Bool
  valueCompression : Bool
  dataDir : Option String
  indexDir : Option String
  key : KeyElement
  field : Option FieldElement

inductive Element
  | schema (protocol : Int32) (map : MapElement)
  | mark
  | autoIncrement (value : String)
  | removeKey (keyName : String) (lrtIndex lrtPosition : Int32)

/-! ## Reading -/

namespace KeySchema

def readKeyPart (e : KeyPartElement) : Except Fault DeepKeyPart :=
  createDeepKeyPart e.fieldIndex e.type.toUInt32.toUInt8 e.length.toUInt32.toUInt16 e.valueOffset.toUInt32 e.nullOffset.toUInt32
    e.nullBit.toUInt32.toUInt8 e.ignored e.reserved e.variablePosition.toInt16 e.primaryPosition.toInt16

def read (key : KeyElement) (b : SchemaBuilder) : Except Fault SchemaBuilder :=
  if key.keyPartList.isEmpty then .error .crash
  else key.keyPartList.foldlM (fun b e => do
    let part ← readKeyPart e
    pure (b.addKeyPart part)) b

def writeKeyPart (part : DeepKeyPart) : KeyPartElement where
  fieldIndex := part.fieldIndex
  type := part.type.toUInt32.toInt32
  length := part.length.toUInt32.toInt32
  valueOffset := part.valueOffset.toInt32
  nullOffset := part.nullOffset.toInt32
  nullBit := part.nullBit.toUInt32.toInt32
  variablePosition := part.variablePosition.toInt32
  primaryPosition := part.primaryPosition.toInt32
  ignored := part.isIgnored
  reserved := part.isReserved

end KeySchema

namespace FieldSchema

def readField (e : FieldListElement) : DeepField where
  type := e.type.toUInt8
  realType := e.realType.toUInt8
  packLength := e.packLength
  rowPackLength := e.rowPackLength
  keyLength := e.keyLength
  lengthBytes := e.lengthBytes
  index := e.index.toUInt16
  nullBit := e.nullBit.toUInt8
  nullOffset := e.nullOffset
  valueOffset := e.valueOffset
  characterSet := e.charset
  gcVirtual := e.gcolVirtual
  fieldName := e.name

def read (field : FieldElement) (b : SchemaBuilder) : SchemaBuilder := field.fieldList.foldl (fun b e => b.addField (readField e)) b

def writeField (f : DeepField) : FieldListElement where
  type := f.type.toUInt32
  realType := f.realType.toUInt32
  packLength := f.packLength
  rowPackLength := f.rowPackLength
  keyLength := f.keyLength
  lengthBytes := f.lengthBytes
  index := f.index.toUInt32
  nullBit := f.nullBit.toUInt32
  nullOffset := f.nullOffset
  valueOffset := f.valueOffset
  charset := f.getCharacterSet.toInt32
  gcolVirtual := f.gcVirtual
  name := f.fieldName

end FieldSchema

/-- The attributes of the field element. -/
def readTable (field : FieldElement) (b : SchemaBuilder) : Except Fault SchemaBuilder := do
  let unpackedRowLength ← ulongFromString field.blobUnpackedRowLength
  let autoIncrementValue ← ulongFromString field.autoIncrementValue
  pure { b with
    nullBytes := field.nullBytes
    hasVariableLengthFields := field.hasVarlenFields
    blobStartOffset := field.blobStartOffset
    blobPtrSize := field.blobPtrSize
    unpackedRowLength := unpackedRowLength
    autoIncrementValue := autoIncrementValue }

/-- `read(schemaElem, schemaBuilder, mapKeyName)`: whether it was the key, and the builder. -/
def readElement (protocol : Int32) (map : MapElement) (b : SchemaBuilder) (mapKeyName : String) : Except Fault (Bool × SchemaBuilder) := do
  let keyMatches : Bool := mapKeyName = map.keyName
  let b ← match map.field with
    | some field => readTable field b
    | none => pure b
  let b := { b with
    keyName := map.keyName
    lrtIndex := map.lrtIndex
    lrtPosition := map.lrtPosition
    characterSet := map.charset
    isTemporary := map.isTemp
    indexOrientation := map.indexOrientation
    keyCompression := map.keyCompression
    valueCompression := map.valueCompression
    dataDir := map.dataDir.getD ""
    indexDir := map.indexDir.getD ""
    protocol := protocol
    keySize := map.keySize
    valueSize := map.valueSize
    hasPrimary := map.key.hasPrimary }
  let b := match map.field with
    | some field => FieldSchema.read field b
    | none => b
  let b ← if keyMatches then KeySchema.read map.key b else pure b
  pure (keyMatches, b)

/-- The variables of the loop of `read`. -/
structure Replay where
  success : Bool
  schemaBuilder : SchemaBuilder
  autoinc : UInt64

def Replay.element (keyName : String) (r : Replay) : Element → Except Fault Replay
  | .autoIncrement value => do
    let autoinc ← ulongFromString value
    pure { r with autoinc := autoinc }
  | .mark => pure r
  | .removeKey removeKeyName _ _ =>
    if removeKeyName = keyName then pure { r with success := false, schemaBuilder := r.schemaBuilder.cloneTo .new } else pure r
  | .schema protocol map =>
    if r.success = false then do
      let (success, b) ← readElement protocol map r.schemaBuilder keyName
      pure { r with success := success, schemaBuilder := b }
    else pure r

def replay (file : List Element) (keyName : String) : Except Fault Replay :=
  file.foldlM (Replay.element keyName) { success := false, schemaBuilder := .new, autoinc := 1 }

def read (file : List Element) (keyName : String) (primary : Bool) : Except Fault (Option SchemaBuilder) := do
  if file.isEmpty then throw .crash
  let r ← replay file keyName
  if r.success = false then pure none
  else if primary then pure (some { r.schemaBuilder with autoIncrementValue := r.autoinc })
  else pure (some r.schemaBuilder)

/-! ## Writing -/

def writeElement (b : SchemaBuilder) (primary : Bool) : Element :=
  .schema b.protocol
    { keyName := b.keyName
      lrtIndex := b.lrtIndex
      lrtPosition := b.lrtPosition
      keySize := b.keySize
      valueSize := b.valueSize
      charset := b.characterSet
      isTemp := b.isTemporary
      indexOrientation := b.indexOrientation
      keyCompression := b.keyCompression
      valueCompression := b.valueCompression
      dataDir := if primary ∧ b.dataDir ≠ "" then some b.dataDir else none
      indexDir := if primary ∧ b.indexDir ≠ "" then some b.indexDir else none
      key := { hasPrimary := b.hasPrimary, keyPartList := b.keyParts.map KeySchema.writeKeyPart }
      field :=
        if primary then
          some
            { nullBytes := b.nullBytes
              hasVarlenFields := b.hasVariableLengthFields
              blobStartOffset := b.blobStartOffset
              blobPtrSize := b.blobPtrSize
              blobUnpackedRowLength := ulongToString b.unpackedRowLength
              autoIncrementValue := ulongToString b.autoIncrementValue
              fieldList := b.fields.map FieldSchema.writeField }
        else none }

/-- The file behind the call. An empty file stands at 0, so its position is not looked at. -/
def write (b : SchemaBuilder) (file : List Element) (primary : Bool) : Except Fault (List Element) := do
  if primary then
    if file.isEmpty then pure (file ++ [writeElement b primary, .mark])
    else throw (.thrown "Invalid length for writing schema information")
  else
    if file.isEmpty then throw (.thrown "Invalid length for writing schema information")
    match ← read file b.keyName primary with
    | some existingSchema =>
      if b.compare existingSchema ≠ 0 then throw (.thrown "Schema definition mismatch")
      pure file
    | none => pure (file ++ [writeElement b primary, .mark])

def remove (b : SchemaBuilder) (file : List Element) (primary : Bool) (lrtIndex : Int32) (lrtPosition : UInt32) :
    Except Fault (List Element) := do
  if primary then throw (.thrown "Schema remove primary not supported")
  if file.isEmpty then throw (.thrown "Invalid length for removing schema information")
  match ← read file b.keyName primary with
  | some _ => pure (file ++ [.removeKey b.keyName lrtIndex lrtPosition.toInt32, .mark])
  | none => pure file

def updateAutoIncrementValue (b : SchemaBuilder) (file : List Element) : Except Fault (List Element) :=
  if file.isEmpty then .error (.thrown "Invalid length for writing schema information")
  else .ok (file ++ [.autoIncrement (ulongToString b.autoIncrementValue), .mark])

/-! ## What is written reads back -/

theorem KeySchema.readKeyPart_write {part : DeepKeyPart} (h : part.recreate = .ok part) : readKeyPart (writeKeyPart part) = .ok part := by
  rw [← h, readKeyPart, writeKeyPart, DeepKeyPart.recreate]
  simp

theorem KeySchema.read_write {parts : List DeepKeyPart} (hasPrimary : Bool) (hne : parts ≠ []) (h : ∀ part ∈ parts, part.recreate = .ok part)
    (b : SchemaBuilder) : read ⟨hasPrimary, parts.map writeKeyPart⟩ b = .ok (parts.foldl .addKeyPart b) := by
  have hloop (b : SchemaBuilder) : (parts.map writeKeyPart).foldlM (fun b e => do
      let part ← readKeyPart e
      pure (b.addKeyPart part)) b = (.ok (parts.foldl .addKeyPart b) : Except Fault SchemaBuilder) := by
    clear hne
    induction parts generalizing b with
    | nil => rfl
    | cons part parts ih =>
      rw [map_cons, foldlM_cons, readKeyPart_write (h part mem_cons_self)]
      exact ih (forall_mem_cons.mp h).2 (b.addKeyPart part)
  rw [read, if_neg (by simpa using hne), hloop]

theorem FieldSchema.readField_write (f : DeepField) : readField (writeField f) = f := by
  cases f
  simp [readField, writeField, DeepField.getCharacterSet]

theorem FieldSchema.read_write {field : FieldElement} {fields : List DeepField} (h : field.fieldList = fields.map writeField)
    (b : SchemaBuilder) : read field b = { b with fields := b.fields ++ fields } := by
  rw [read, h]
  clear h
  induction fields generalizing b with
  | nil => rw [append_nil]; rfl
  | cons f fields ih =>
    rw [map_cons, foldl_cons, readField_write, ih]
    simp [SchemaBuilder.addField]

/-- The table of a builder is that of the primary, as far as its text goes. -/
structure HasTable (P b : SchemaBuilder) : Prop where
  nullBytes : b.nullBytes = P.nullBytes
  hasVariableLengthFields : b.hasVariableLengthFields = P.hasVariableLengthFields
  blobStartOffset : b.blobStartOffset = P.blobStartOffset
  blobPtrSize : b.blobPtrSize = P.blobPtrSize
  unpackedRowLength : b.unpackedRowLength = firstDigits P.unpackedRowLength
  fields : b.fields = P.fields

/-- What the element of a key itself adds to a builder without key parts. -/
structure TakesKey (d b b' : SchemaBuilder) : Prop where
  sameKey : b'.SameKey d
  hasHiddenKey : b'.hasHiddenKey = (b.hasHiddenKey || d.hasHiddenKey)
  hasReservedKey : b'.hasReservedKey = (b.hasReservedKey || d.hasReservedKey)

variable {d b : SchemaBuilder}

theorem takesKey_addKeyParts {b' : SchemaBuilder} (hd : d.Built) (hparts : b'.keyParts = []) (hlength : b'.unpackLength = 0)
    (hhidden : b'.hasHiddenKey = b.hasHiddenKey) (hreserved : b'.hasReservedKey = b.hasReservedKey) (hprotocol : b'.protocol = d.protocol)
    (hkeySize : b'.keySize = d.keySize) (hvalueSize : b'.valueSize = d.valueSize) (hprimary : b'.hasPrimary = d.hasPrimary)
    (htemporary : b'.isTemporary = d.isTemporary) (hcharset : b'.characterSet = d.characterSet) :
    TakesKey d b (d.keyParts.foldl .addKeyPart b') := by
  have hunpack : (d.keyParts.foldl SchemaBuilder.addKeyPart b').unpackLength = d.unpackLength := by
    rw [SchemaBuilder.foldl_addKeyPart_unpackLength (show b'.unpackLength = d.withoutParts.unpackLength from hlength), hd.added]
  constructor
  · rw [SchemaBuilder.foldl_addKeyPart]
    refine ⟨hprotocol, hkeySize, hvalueSize, hprimary, hunpack, htemporary, hcharset, ?_⟩
    show List.Forall₂ _ (b'.keyParts ++ d.keyParts) d.keyParts
    rw [hparts, nil_append]
    exact forall₂_same.mpr fun part _ => part.compare_self
  · rw [SchemaBuilder.foldl_addKeyPart_hasHiddenKey, hhidden, hd.hasHiddenKey]
  · rw [SchemaBuilder.foldl_addKeyPart_hasReservedKey, hreserved, hd.hasReservedKey]

/-- A builder with the attributes of a key; a secondary's directories are not written. -/
def withKey (d : SchemaBuilder) (primary : Bool) (b : SchemaBuilder) : SchemaBuilder :=
  { b with
    keyName := d.keyName
    lrtIndex := d.lrtIndex
    lrtPosition := d.lrtPosition
    characterSet := d.characterSet
    isTemporary := d.isTemporary
    indexOrientation := d.indexOrientation
    keyCompression := d.keyCompression
    valueCompression := d.valueCompression
    dataDir := if primary then d.dataDir else ""
    indexDir := if primary then d.indexDir else ""
    protocol := d.protocol
    keySize := d.keySize
    valueSize := d.valueSize
    hasPrimary := d.hasPrimary }

/-- A builder with the table of a primary. -/
def withTable (d b : SchemaBuilder) : SchemaBuilder :=
  { b with
    nullBytes := d.nullBytes
    hasVariableLengthFields := d.hasVariableLengthFields
    blobStartOffset := d.blobStartOffset
    blobPtrSize := d.blobPtrSize
    unpackedRowLength := firstDigits d.unpackedRowLength
    autoIncrementValue := firstDigits d.autoIncrementValue
    fields := b.fields ++ d.fields }

theorem getD_directory (dir : String) : (if dir ≠ "" then some dir else none).getD "" = dir := by
  by_cases h : dir = ""
  · simp [h]
  · simp [h]

/-- The element of `d`, read by a loop that has not found its key yet. -/
theorem element_write (hd : d.Built) (primary : Bool) {r : Replay} (hr : r.success = false) (name : String) :
    r.element name (writeElement d primary) = .ok
      { r with
        success := decide (name = d.keyName)
        schemaBuilder :=
          let b := withKey d primary (if primary then withTable d r.schemaBuilder else r.schemaBuilder)
          if name = d.keyName then d.keyParts.foldl .addKeyPart b else b } := by
  have hread := KeySchema.read_write d.hasPrimary hd.nonempty hd.recreated
  cases primary with
  | false =>
    simp only [Replay.element, writeElement, hr, readElement, hread]
    by_cases hname : name = d.keyName
    · simp only [hname]
      rfl
    · simp only [hname]
      rfl
  | true =>
    have hfields (b : SchemaBuilder) : FieldSchema.read
        { nullBytes := d.nullBytes
          hasVarlenFields := d.hasVariableLengthFields
          blobStartOffset := d.blobStartOffset
          blobPtrSize := d.blobPtrSize
          blobUnpackedRowLength := ulongToString d.unpackedRowLength
          autoIncrementValue := ulongToString d.autoIncrementValue
          fieldList := d.fields.map FieldSchema.writeField } b = { b with fields := b.fields ++ d.fields } := FieldSchema.read_write rfl b
    simp only [Replay.element, writeElement, hr, readElement, readTable, ulongFromString_ulongToString, hread, hfields, bind, Except.bind, pure,
      Except.pure, if_true, true_and, getD_directory]
    by_cases hname : name = d.keyName
    · simp only [hname]
      rfl
    · simp only [hname]
      rfl

/-! ## Histories -/

inductive Call
  | write (b : { b : SchemaBuilder // b.Built }) (primary : Bool)
  | remove (b : SchemaBuilder) (primary : Bool) (lrtIndex : Int32) (lrtPosition : UInt32)
  | updateAutoIncrementValue (b : SchemaBuilder)

namespace Call

def run (file : List Element) : Call → Except Fault (List Element)
  | write b primary => Schema.write b file primary
  | remove b primary lrtIndex lrtPosition => Schema.remove b file primary lrtIndex lrtPosition
  | updateAutoIncrementValue b => Schema.updateAutoIncrementValue b file

/-- What is defined under a name behind a call that goes through. -/
def define (name : String) (d : Option SchemaBuilder) : Call → Option SchemaBuilder
  | write b _ => if b.1.keyName = name then some b else d
  | remove b _ _ _ => if b.keyName = name then none else d
  | updateAutoIncrementValue _ => d

/-- It writes a definition of that name with this property. -/
def defines (name : String) (p : SchemaBuilder → Bool) : Call → Bool
  | write b _ => b.1.keyName = name && p b
  | _ => false

def update (v : Option UInt64) : Call → Option UInt64
  | updateAutoIncrementValue b => some b.autoIncrementValue
  | _ => v

end Call

/-- The file, and the calls that went through; one that throws leaves the file as it was. -/
def step (s : List Element × List Call) (c : Call) : List Element × List Call :=
  match c.run s.1 with
  | .ok file => (file, s.2 ++ [c])
  | .error _ => s

/-- A file that begins with its primary. -/
def history (P : { b : SchemaBuilder // b.Built }) (calls : List Call) : List Element × List Call :=
  (.write P true :: calls).foldl step ([], [])

def lastDefinition (name : String) (done : List Call) : Option SchemaBuilder := done.foldl (Call.define name) none

def ever (name : String) (p : SchemaBuilder → Bool) (done : List Call) : Bool := done.any (Call.defines name p)

def lastUpdate (done : List Call) : Option UInt64 := done.foldl Call.update none

/-- How the loop of `read` ends, after the calls that went through. -/
structure Shows (name : String) (done : List Call) (r : Replay) : Prop where
  hidden : r.schemaBuilder.hasHiddenKey = ever name SchemaBuilder.hasHiddenKey done
  reserved : r.schemaBuilder.hasReservedKey = ever name SchemaBuilder.hasReservedKey done
  autoinc : r.autoinc = (lastUpdate done).elim 1 firstDigits
  success : r.success = (lastDefinition name done).isSome
  bare : r.success = false → r.schemaBuilder.keyParts = [] ∧ r.schemaBuilder.unpackLength = 0
  last : ∀ d ∈ lastDefinition name done, r.schemaBuilder.SameKey d

structure Inv (P : SchemaBuilder) (s : List Element × List Call) : Prop where
  nonempty : s.1.isEmpty = false
  shows : ∀ name, ∃ r, replay s.1 name = .ok r ∧ HasTable P r.schemaBuilder ∧ Shows name s.2 r

theorem lastDefinition_append (name : String) (done : List Call) (c : Call) :
    lastDefinition name (done ++ [c]) = c.define name (lastDefinition name done) := by
  rw [lastDefinition, foldl_append]
  rfl

theorem ever_append (name : String) (p : SchemaBuilder → Bool) (done : List Call) (c : Call) :
    ever name p (done ++ [c]) = (ever name p done || c.defines name p) := by
  rw [ever, any_append, any_cons, any_nil, Bool.or_false]
  rfl

theorem lastUpdate_append (done : List Call) (c : Call) : lastUpdate (done ++ [c]) = c.update (lastUpdate done) := by
  rw [lastUpdate, foldl_append]
  rfl

theorem replay_append {file : List Element} {name : String} {r r' : Replay} {e : Element} (h : replay file name = .ok r)
    (he : r.element name e = .ok r') : replay (file ++ [e, .mark]) name = .ok r' := by
  rw [replay, foldlM_append, show file.foldlM (Replay.element name) _ = _ from h]
  show (r.element name e >>= _) = _
  rw [he]
  rfl

variable {P : SchemaBuilder} {name : String} {done : List Call} {r : Replay}

theorem Shows.other (h : Shows name done r) {c : Call} (hdefine : c.define name (lastDefinition name done) = lastDefinition name done)
    (hdefines : ∀ p, c.defines name p = false) (hupdate : ∀ v, c.update v = v) : Shows name (done ++ [c]) r where
  hidden := by rw [ever_append, hdefines, Bool.or_false, h.hidden]
  reserved := by rw [ever_append, hdefines, Bool.or_false, h.reserved]
  autoinc := by rw [lastUpdate_append, hupdate, h.autoinc]
  success := by rw [lastDefinition_append, hdefine, h.success]
  bare := h.bare
  last := by
    rw [lastDefinition_append, hdefine]
    exact h.last

theorem Shows.otherWrite (h : Shows name done r) {d : { b : SchemaBuilder // b.Built }} (primary : Bool) (hname : name ≠ d.1.keyName) :
    Shows name (done ++ [.write d primary]) r := by
  refine h.other (if_neg (Ne.symm hname)) (fun p => ?_) fun _ => rfl
  rw [Call.defines, decide_eq_false (Ne.symm hname), Bool.false_and]

variable {primary : Bool} {lrtIndex : Int32} {lrtPosition : UInt32}

theorem Shows.otherRemove (h : Shows name done r)
    (hname : name ≠ b.keyName) : Shows name (done ++ [.remove b primary lrtIndex lrtPosition]) r :=
  h.other (if_neg (Ne.symm hname)) (fun _ => rfl) fun _ => rfl

theorem HasTable.addKeyParts (h : HasTable P b) (parts : List DeepKeyPart) : HasTable P (parts.foldl .addKeyPart b) := by
  rw [SchemaBuilder.foldl_addKeyPart]
  exact ⟨h.nullBytes, h.hasVariableLengthFields, h.blobStartOffset, h.blobPtrSize, h.unpackedRowLength, h.fields⟩

theorem HasTable.withKey (h : HasTable P b) (d : SchemaBuilder) (primary : Bool) : HasTable P (withKey d primary b) :=
  ⟨h.nullBytes, h.hasVariableLengthFields, h.blobStartOffset, h.blobPtrSize, h.unpackedRowLength, h.fields⟩

/-- They have the same parts, or are left with the same traces of some. -/
structure SameParts (b b' : SchemaBuilder) : Prop where
  keyParts : b'.keyParts = b.keyParts
  unpackLength : b'.unpackLength = b.unpackLength
  hasHiddenKey : b'.hasHiddenKey = b.hasHiddenKey
  hasReservedKey : b'.hasReservedKey = b.hasReservedKey

/-- The name is defined, on top of what the loop has found so far. -/
theorem Shows.defined (h : Shows name done r) (hr : r.success = false) {d : { b : SchemaBuilder // b.Built }}
    (hname : name = d.1.keyName) (hparts : SameParts r.schemaBuilder b) :
    Shows name (done ++ [.write d primary])
      { r with success := true, schemaBuilder := d.1.keyParts.foldl .addKeyPart (withKey d primary b) } := by
  obtain ⟨hnil, hzero⟩ := h.bare hr
  have hlast : lastDefinition name (done ++ [.write d primary]) = some d.1 := by
    rw [lastDefinition_append]
    exact if_pos hname.symm
  have hkey : TakesKey d r.schemaBuilder (d.1.keyParts.foldl .addKeyPart (withKey d primary b)) :=
    takesKey_addKeyParts d.2 (hparts.keyParts.trans hnil) (hparts.unpackLength.trans hzero) hparts.hasHiddenKey hparts.hasReservedKey
      rfl rfl rfl rfl rfl rfl
  have hever (p : SchemaBuilder → Bool) : ever name p (done ++ [.write d primary]) = (ever name p done || p d) := by
    rw [ever_append, Call.defines, decide_eq_true hname.symm, Bool.true_and]
  constructor
  · rw [hkey.hasHiddenKey, hever, h.hidden]
  · rw [hkey.hasReservedKey, hever, h.reserved]
  · rw [lastUpdate_append]
    exact h.autoinc
  · rw [hlast]
    rfl
  · intro hfalse
    cases hfalse
  · intro d' hd'
    rw [hlast] at hd'
    cases hd'
    exact hkey.sameKey

theorem Shows.passed (h : Shows name done r) (hr : r.success = false) {d : { b : SchemaBuilder // b.Built }}
    (hname : name ≠ d.1.keyName) (hparts : SameParts r.schemaBuilder b) :
    Shows name (done ++ [.write d primary]) { r with success := false, schemaBuilder := withKey d primary b } := by
  have h' := h.otherWrite primary hname
  obtain ⟨hnil, hzero⟩ := h.bare hr
  refine ⟨hparts.hasHiddenKey.trans h'.hidden, hparts.hasReservedKey.trans h'.reserved, h'.autoinc,
    hr.symm.trans h'.success, fun _ => ⟨hparts.keyParts.trans hnil, hparts.unpackLength.trans hzero⟩, fun d' hd' => ?_⟩
  have hsome := h'.success
  rw [hr, mem_def.mp hd'] at hsome
  cases hsome

theorem Shows.element (h : Shows name done r) (hr : r.success = false) (d : { b : SchemaBuilder // b.Built }) (primary : Bool) :
    ∃ r', r.element name (writeElement d primary) = .ok r' ∧ Shows name (done ++ [.write d primary]) r' ∧
      ∀ P, HasTable P (if primary then withTable d r.schemaBuilder else r.schemaBuilder) → HasTable P r'.schemaBuilder := by
  have hparts : SameParts r.schemaBuilder (if primary then withTable d r.schemaBuilder else r.schemaBuilder) := by
    cases primary <;> exact ⟨rfl, rfl, rfl, rfl⟩
  refine ⟨_, element_write d.2 primary hr name, ?_⟩
  by_cases hname : name = d.1.keyName
  · rw [decide_eq_true hname]
    simp only [if_pos hname]
    exact ⟨h.defined hr hname hparts, fun P htable => (htable.withKey d primary).addKeyParts d.1.keyParts⟩
  · rw [decide_eq_false hname]
    simp only [if_neg hname]
    exact ⟨h.passed hr hname hparts, fun P htable => htable.withKey d primary⟩

/-- A definition that compares equal to the one that is there. -/
theorem Shows.again (h : Shows name done r) (hr : r.success = true) {d : { b : SchemaBuilder // b.Built }}
    (hname : name = d.1.keyName) (hcompare : d.1.compare r.schemaBuilder = 0) : Shows name (done ++ [.write d primary]) r := by
  obtain ⟨hkey, -, -, hhidden, hreserved⟩ := SchemaBuilder.compare_eq_zero.mp (SchemaBuilder.compare_comm.mp hcompare)
  have hlast : lastDefinition name (done ++ [.write d primary]) = some d.1 := by
    rw [lastDefinition_append]
    exact if_pos hname.symm
  have hever (p : SchemaBuilder → Bool) : ever name p (done ++ [.write d primary]) = (ever name p done || p d) := by
    rw [ever_append, Call.defines, decide_eq_true hname.symm, Bool.true_and]
  constructor
  · rw [hever, ← hhidden, ← h.hidden, Bool.or_self]
  · rw [hever, ← hreserved, ← h.reserved, Bool.or_self]
  · rw [lastUpdate_append]
    exact h.autoinc
  · rw [hlast, hr]
    rfl
  · exact h.bare
  · intro d' hd'
    rw [hlast] at hd'
    cases hd'
    exact hkey

/-- The name is removed: the fields and the traces of a hidden and a reserved part stay. -/
theorem Shows.removed (h : Shows name done r)
    (hname : name = b.keyName) :
    Shows name (done ++ [.remove b primary lrtIndex lrtPosition])
      { r with success := false, schemaBuilder := r.schemaBuilder.cloneTo .new } := by
  have hlast : lastDefinition name (done ++ [.remove b primary lrtIndex lrtPosition]) = none := by
    rw [lastDefinition_append]
    exact if_pos hname.symm
  constructor
  · rw [ever_append]
    exact h.hidden.trans (Bool.or_false _).symm
  · rw [ever_append]
    exact h.reserved.trans (Bool.or_false _).symm
  · rw [lastUpdate_append]
    exact h.autoinc
  · rw [hlast]
    rfl
  · exact fun _ => ⟨rfl, rfl⟩
  · intro d hd
    rw [hlast] at hd
    cases hd

theorem Shows.removedNothing (h : Shows name done r) (hr : r.success = false) : Shows name (done ++ [.remove b primary lrtIndex lrtPosition]) r := by
  have hnone : lastDefinition name done = none := by
    rw [← not_isSome_iff_eq_none, ← h.success, hr]
    exact Bool.false_ne_true
  refine h.other ?_ (fun _ => rfl) fun _ => rfl
  rw [hnone, Call.define, ite_self]

theorem Shows.updated (h : Shows name done r) (b : SchemaBuilder) :
    Shows name (done ++ [.updateAutoIncrementValue b]) { r with autoinc := firstDigits b.autoIncrementValue } := by
  have h' : lastDefinition name (done ++ [.updateAutoIncrementValue b]) = lastDefinition name done := by
    rw [lastDefinition_append]
    rfl
  constructor
  · rw [ever_append]
    exact h.hidden.trans (Bool.or_false _).symm
  · rw [ever_append]
    exact h.reserved.trans (Bool.or_false _).symm
  · rw [lastUpdate_append]
    rfl
  · rw [h']
    exact h.success
  · exact h.bare
  · rw [h']
    exact h.last

theorem HasTable.cloneTo (h : HasTable P b) : HasTable P (b.cloneTo .new) :=
  ⟨h.nullBytes, h.hasVariableLengthFields, h.blobStartOffset, h.blobPtrSize, h.unpackedRowLength, h.fields⟩

/-! ## The invariant -/

theorem inv_start (P : { b : SchemaBuilder // b.Built }) : Inv P (step ([], []) (.write P true)) := by
  refine ⟨rfl, fun name => ?_⟩
  have hnone : Shows name [] { success := false, schemaBuilder := .new, autoinc := 1 } :=
    ⟨rfl, rfl, rfl, rfl, fun _ => ⟨rfl, rfl⟩, fun d hd => by cases hd⟩
  obtain ⟨r, helement, hshows, htable⟩ := hnone.element rfl P true
  exact ⟨r, replay_append (show replay [] name = .ok _ from rfl) helement, htable P ⟨rfl, rfl, rfl, rfl, rfl, rfl⟩, hshows⟩

theorem read_eq {file : List Element} (hfile : file.isEmpty = false) (h : replay file name = .ok r) (primary : Bool) :
    read file name primary = .ok (if r.success = false then none
      else some (if primary then { r.schemaBuilder with autoIncrementValue := r.autoinc } else r.schemaBuilder)) := by
  rw [read, hfile, h]
  cases hr : r.success <;> cases primary <;> simp [hr, bind, Except.bind, pure, Except.pure]

variable {P : SchemaBuilder} {s : List Element × List Call}

theorem Inv.write (h : Inv P s) (d : { b : SchemaBuilder // b.Built }) (primary : Bool) :
    Inv P (step s (.write d primary)) := by
  obtain ⟨r, hreplay, -, hshows⟩ := h.shows d.1.keyName
  cases primary with
  | true =>
    rw [step, Call.run, Schema.write, if_pos rfl, h.nonempty]
    exact h
  | false =>
    have hread := read_eq h.nonempty hreplay false
    cases hr : r.success with
    | true =>
      rw [hr] at hread
      by_cases hcompare : d.1.compare r.schemaBuilder = 0
      · -- it is there already
        have hstep : step s (.write d false) = (s.1, s.2 ++ [.write d false]) := by
          simp [step, Call.run, Schema.write, h.nonempty, hread, hcompare, bind, Except.bind, pure, Except.pure]
        rw [hstep]
        refine ⟨h.nonempty, fun name => ?_⟩
        obtain ⟨r', hreplay', htable, hshows'⟩ := h.shows name
        refine ⟨r', hreplay', htable, ?_⟩
        by_cases hname : name = d.1.keyName
        · rw [hname, hreplay] at hreplay'
          cases hreplay'
          exact hshows'.again hr hname hcompare
        · exact hshows'.otherWrite false hname
      · have hstep : step s (.write d false) = s := by
          simp [step, Call.run, Schema.write, h.nonempty, hread, hcompare, bind, Except.bind, throw, throwThe, MonadExceptOf.throw]
        rw [hstep]
        exact h
    | false =>
      rw [hr] at hread
      have hstep : step s (.write d false) = (s.1 ++ [writeElement d false, .mark], s.2 ++ [.write d false]) := by
        simp [step, Call.run, Schema.write, h.nonempty, hread, bind, Except.bind, pure, Except.pure]
      rw [hstep]
      refine ⟨by simp, fun name => ?_⟩
      obtain ⟨r', hreplay', htable, hshows'⟩ := h.shows name
      cases hr' : r'.success with
      | false =>
        obtain ⟨r'', helement, hshows'', htable''⟩ := hshows'.element hr' d false
        exact ⟨r'', replay_append hreplay' helement, htable'' P htable, hshows''⟩
      | true =>
        have hname : name ≠ d.1.keyName := by
          rintro rfl
          rw [hreplay] at hreplay'
          cases hreplay'
          rw [hr] at hr'
          cases hr'
        refine ⟨r', replay_append hreplay' ?_, htable, hshows'.otherWrite false hname⟩
        rw [writeElement, Replay.element, if_neg (by rw [hr']; decide)]
        rfl

theorem Inv.remove (h : Inv P s) (b : SchemaBuilder) (primary : Bool) (lrtIndex : Int32)
    (lrtPosition : UInt32) : Inv P (step s (.remove b primary lrtIndex lrtPosition)) := by
  obtain ⟨r, hreplay, htable, hshows⟩ := h.shows b.keyName
  cases primary with
  | true => exact h
  | false =>
    have hread := read_eq h.nonempty hreplay false
    cases hr : r.success with
    | true =>
      rw [hr] at hread
      have hstep : step s (.remove b false lrtIndex lrtPosition) =
          (s.1 ++ [.removeKey b.keyName lrtIndex lrtPosition.toInt32, .mark], s.2 ++ [.remove b false lrtIndex lrtPosition]) := by
        simp [step, Call.run, Schema.remove, h.nonempty, hread, bind, Except.bind, pure, Except.pure]
      rw [hstep]
      refine ⟨by simp, fun name => ?_⟩
      obtain ⟨r', hreplay', htable', hshows'⟩ := h.shows name
      by_cases hname : name = b.keyName
      · refine ⟨_, replay_append hreplay' ?_, htable'.cloneTo, hshows'.removed hname⟩
        rw [Replay.element, if_pos hname.symm]
        rfl
      · refine ⟨r', replay_append hreplay' ?_, htable', hshows'.otherRemove hname⟩
        rw [Replay.element, if_neg (Ne.symm hname)]
        rfl
    | false =>
      rw [hr] at hread
      have hstep : step s (.remove b false lrtIndex lrtPosition) = (s.1, s.2 ++ [.remove b false lrtIndex lrtPosition]) := by
        simp [step, Call.run, Schema.remove, h.nonempty, hread, bind, Except.bind, pure, Except.pure]
      rw [hstep]
      refine ⟨h.nonempty, fun name => ?_⟩
      obtain ⟨r', hreplay', htable', hshows'⟩ := h.shows name
      refine ⟨r', hreplay', htable', ?_⟩
      by_cases hname : name = b.keyName
      · rw [hname, hreplay] at hreplay'
        cases hreplay'
        exact hshows'.removedNothing hr
      · exact hshows'.otherRemove hname

theorem Inv.update (h : Inv P s) (b : SchemaBuilder) :
    Inv P (step s (.updateAutoIncrementValue b)) := by
  have hstep : step s (.updateAutoIncrementValue b) =
      (s.1 ++ [.autoIncrement (ulongToString b.autoIncrementValue), .mark], s.2 ++ [.updateAutoIncrementValue b]) := by
    simp [step, Call.run, Schema.updateAutoIncrementValue, h.nonempty]
  rw [hstep]
  refine ⟨by simp, fun name => ?_⟩
  obtain ⟨r, hreplay, htable, hshows⟩ := h.shows name
  refine ⟨{ r with autoinc := firstDigits b.autoIncrementValue }, replay_append hreplay ?_, htable, ?_⟩
  · rw [Replay.element, ulongFromString_ulongToString]
    rfl
  · exact hshows.updated b

theorem history_inv (P : { b : SchemaBuilder // b.Built }) (calls : List Call) : Inv P (history P calls) := by
  have hrun : ∀ {s : List Element × List Call}, Inv P s → Inv P (calls.foldl step s) := by
    induction calls with
    | nil => exact id
    | cons c calls ih =>
      intro s h
      cases c with
      | write d primary => exact ih (h.write d primary)
      | remove b primary lrtIndex lrtPosition => exact ih (h.remove b primary lrtIndex lrtPosition)
      | updateAutoIncrementValue b => exact ih (h.update b)
  exact hrun (inv_start P)

theorem ever_of_last (h : d ∈ lastDefinition name done) {p : SchemaBuilder → Bool} (hp : p d = true) :
    ever name p done = true := by
  induction done using List.reverseRecOn with
  | nil => cases h
  | append_singleton done c ih =>
    rw [lastDefinition_append] at h
    rw [ever_append, Bool.or_eq_true]
    cases c with
    | write b primary =>
      rw [Call.define] at h
      split at h
      case isTrue hname =>
        cases h
        exact Or.inr (by rw [Call.defines, decide_eq_true hname, hp]; rfl)
      case isFalse => exact Or.inl (ih h)
    | remove b primary lrtIndex lrtPosition =>
      rw [Call.define] at h
      split at h
      case isTrue => cases h
      case isFalse => exact Or.inl (ih h)
    | updateAutoIncrementValue b => exact Or.inl (ih h)

/-! ## What a file reads as -/

/-- The auto increment value written last; the primary's definition has one. -/
def lastAutoIncrement (P : SchemaBuilder) (done : List Call) : UInt64 := (lastUpdate done).getD P.autoIncrementValue

/-- A file reads as what was done to it. -/
def Replays (P : SchemaBuilder) (s : List Element × List Call) (name : String) (primary : Bool) : Prop :=
  ∃ result, read s.1 name primary = .ok result ∧ (result = none ↔ lastDefinition name s.2 = none) ∧
    (∀ b ∈ result, ∀ d ∈ lastDefinition name s.2, b.compare d = 0) ∧
    (primary = true → ∀ b ∈ result, b.autoIncrementValue = lastAutoIncrement P s.2)

def AutoIncrementKept (P : SchemaBuilder) (done : List Call) : Prop :=
  match lastUpdate done with
  | some value => value.toNat < 10 ^ 16
  | none => P.autoIncrementValue = 1

/-- The last definition of the name has the primary's table, and a hidden and a reserved part if any
of that name had one; the numbers of 64 bits survive as text. -/
def Kept (P : SchemaBuilder) (done : List Call) (name : String) (primary : Bool) : Prop :=
  ∀ d ∈ lastDefinition name done, P.SameTable d ∧ firstDigits P.unpackedRowLength = d.unpackedRowLength ∧
    (ever name SchemaBuilder.hasHiddenKey done = true → d.hasHiddenKey = true) ∧
    (ever name SchemaBuilder.hasReservedKey done = true → d.hasReservedKey = true) ∧ (primary = true → AutoIncrementKept P done)

theorem Shows.compare_iff (h : Shows name done r) (htable : HasTable P r.schemaBuilder)
    (hd : d ∈ lastDefinition name done) : r.schemaBuilder.compare d = 0 ↔
      P.SameTable d ∧ firstDigits P.unpackedRowLength = d.unpackedRowLength ∧
        (ever name SchemaBuilder.hasHiddenKey done = true → d.hasHiddenKey = true) ∧
        (ever name SchemaBuilder.hasReservedKey done = true → d.hasReservedKey = true) := by
  have hsame : r.schemaBuilder.SameTable d ↔ P.SameTable d := by
    rw [SchemaBuilder.SameTable, SchemaBuilder.SameTable, htable.nullBytes, htable.hasVariableLengthFields, htable.blobStartOffset,
      htable.blobPtrSize, htable.fields]
  have heq {p : SchemaBuilder → Bool} : ever name p done = p d ↔ (ever name p done = true → p d = true) := by
    have := ever_of_last hd (p := p)
    cases hp : p d <;> cases he : ever name p done <;> simp_all
  rw [SchemaBuilder.compare_eq_zero, hsame, htable.unpackedRowLength, h.hidden, h.reserved, heq, heq]
  exact and_iff_right (h.last d hd)

theorem Shows.autoinc_iff (h : Shows name done r) (P : SchemaBuilder) : r.autoinc = lastAutoIncrement P done ↔ AutoIncrementKept P done := by
  rw [h.autoinc, lastAutoIncrement, AutoIncrementKept]
  cases lastUpdate done with
  | none => exact eq_comm
  | some value => exact firstDigits_eq_self

theorem replays_iff (P : { b : SchemaBuilder // b.Built }) (calls : List Call) (name : String) (primary : Bool) :
    Replays P (history P calls) name primary ↔ Kept P (history P calls).2 name primary := by
  have hinv := history_inv P calls
  obtain ⟨r, hreplay, htable, hshows⟩ := hinv.shows name
  have hread := read_eq hinv.nonempty hreplay primary
  rw [Replays, hread, Kept]
  cases hlast : lastDefinition name (history P calls).2 with
  | none =>
    have hr : r.success = false := by rw [hshows.success, hlast]; rfl
    rw [hr]
    exact iff_of_true ⟨none, rfl, iff_of_true rfl rfl, fun b hb => (by cases hb), fun _ b hb => (by cases hb)⟩ fun d hd => by cases hd
  | some d =>
    have hr : r.success = true := by rw [hshows.success, hlast]; rfl
    obtain ⟨b, hb⟩ : ∃ b, b = if primary then { r.schemaBuilder with autoIncrementValue := r.autoinc } else r.schemaBuilder := ⟨_, rfl⟩
    -- compare does not look at the auto increment value
    have hcompare : b.compare d = 0 ↔ _ := (by cases primary <;> rw [hb] <;> rfl : _ ↔ _).trans (hshows.compare_iff htable (d := d) hlast)
    have hautoinc : primary = true → b.autoIncrementValue = r.autoinc := by
      rintro rfl
      rw [hb]
      rfl
    rw [hr, ← hb, if_neg (by decide)]
    constructor
    · rintro ⟨result, hresult, -, hequal, hvalue⟩ d' hd'
      cases hresult
      cases hd'
      obtain ⟨h1, h2, h3, h4⟩ := hcompare.mp (hequal b rfl d rfl)
      refine ⟨h1, h2, h3, h4, fun hprimary => ?_⟩
      rw [← hshows.autoinc_iff, ← hautoinc hprimary]
      exact hvalue hprimary b rfl
    · intro hkept
      obtain ⟨h1, h2, h3, h4, h5⟩ := hkept d rfl
      refine ⟨some b, rfl, iff_of_false (some_ne_none b) (some_ne_none d), ?_, ?_⟩
      · rintro _ ⟨⟩ _ ⟨⟩
        exact hcompare.mpr ⟨h1, h2, h3, h4⟩
      · rintro hprimary _ ⟨⟩
        rw [hautoinc hprimary, hshows.autoinc_iff]
        exact h5 hprimary

/-- A key of eight bytes, and the hidden key of its row. -/
def numberPart : DeepKeyPart := newDeepKeyPart 0 CT_DATASTORE_ULONGLONG 8 0 0 0 false false (-1) (-1)
def hiddenPart : DeepKeyPart := newDeepKeyPart 0 CT_DATASTORE_HIDDEN 8 0 0 0 false false (-1) (-1)

theorem recreate_samples : ∀ part ∈ [numberPart, hiddenPart], part.recreate = .ok part := by
  intro part hpart
  rcases mem_pair.mp hpart with rfl | rfl
  · rfl
  · rfl

/-- Keys with these parts. -/
def sampleKey (keyName : String) (parts : List DeepKeyPart) (hne : parts ≠ []) (h : parts ⊆ [numberPart, hiddenPart]) :
    { b : SchemaBuilder // b.Built } :=
  ⟨parts.foldl .addKeyPart { SchemaBuilder.new with keyName := keyName },
    SchemaBuilder.built_foldl rfl hne fun part hpart => recreate_samples part (h hpart)⟩

def samplePrimary : { b : SchemaBuilder // b.Built } := sampleKey "t" [numberPart] (by decide) (by decide)

/-- An index with a hidden part is removed and defined again without. -/
def redefinition : List Call :=
  [.write (sampleKey "t$1" [numberPart, hiddenPart] (by decide) (by decide)) false,
    .remove { SchemaBuilder.new with keyName := "t$1" } false 0 0,
    .write (sampleKey "t$1" [numberPart] (by decide) (by decide)) false]

theorem redefinition_has_hidden_part : ¬∀ (P : { b : SchemaBuilder // b.Built }) (calls : List Call) (name : String) (primary : Bool),
    Replays P (history P calls) name primary := by
  intro h
  obtain ⟨result, hread, -, hequal, -⟩ := h samplePrimary redefinition "t$1" false
  have hdiffers : (read (history samplePrimary redefinition).1 "t$1" false).toOption.any (fun result => result.any fun b =>
      (lastDefinition "t$1" (history samplePrimary redefinition).2).any fun d => b.compare d ≠ 0) = true := by decide +kernel
  rw [hread] at hdiffers
  obtain ⟨b, hb, hd⟩ := (any_eq_true _ result).mp hdiffers
  obtain ⟨d, hd, hne⟩ := (any_eq_true _ _).mp hd
  exact of_decide_eq_true hne (hequal b hb d hd)

end DeepFabric.Store.Schema
