/-
  DeepFabric.Store.CompositeKey — the order of composite keys (api/deep/Comparator.h:
  Comparator<DeepComposite*>; api/deep/DeepTypes.h and DeepKeyPart.h: the parts; DeepTypeDefs.h:
  DeepComposite).

  A key is the image of its parts one behind the other. A part that may be null begins with a byte
  that tells whether it is; a variable one has its length in two bytes ahead of its data, and, when
  null, these two bytes alone. compare walks both images in step. It stops where a mask runs out:
  the weight of the search key then tells where the missing parts lie. A search key that ignores the
  primary suffix has its mask switched back on when two of its parts are both null.

  Floating-point parts are left out. Masks are numbers below 2^32.
-/
import DeepFabric.Lib.Buffer
import DeepFabric.Lib.Comparison

namespace DeepFabric.Store.CompositeKey

open DeepFabric.Lib Buffer

/-- The CT_DATASTORE_ types of key parts. -/
inductive KeyPartType where
  | longInt | ulongInt | longLong | ulongLong | shortInt | ushortInt | int24 | uint24 | int8 | uint8
  | varText | fixedVarText | text | textMultibyte
  | binary | varBinary | fixedVarBinary
  | hidden
  deriving DecidableEq, Repr

/-- What createDeepKeyPart is called with, as far as a key's image depends on it. -/
structure DeepKeyPart where
  type : KeyPartType
  length : Nat
  nullBit : UInt8
  variablePosition : Int
  characterSet : Int
  deriving DecidableEq, Repr

/-- Charset::compare by character set. -/
abbrev Charset := Int → List UInt8 → List UInt8 → Int

/-- What is asked of it. -/
structure TotalPreorder (compare : List UInt8 → List UInt8 → Int) : Prop where
  swap : ∀ xs ys, compare xs ys < 0 ↔ 0 < compare ys xs
  trans : ∀ xs ys zs, compare xs ys ≤ 0 → compare ys zs ≤ 0 → compare xs zs ≤ 0

/-! ## Comparing bytes and numbers -/

def memcmp (o1 : Buffer) (p : Nat) (o2 : Buffer) (q : Nat) : Nat → Int
  | 0 => 0
  | n + 1 => if o1 p < o2 q then -1 else if o1 p = o2 q then memcmp o1 (p + 1) o2 (q + 1) n else 1

/-- A signed number of `n` bytes. -/
def signed (key : Buffer) (p n : Nat) : Int :=
  if 2 * load key p n < 256 ^ n then load key p n else (load key p n : Int) - 256 ^ n

def unsigned (key : Buffer) (p n : Nat) : Int := load key p n

def compareNumber (o1 o2 : Int) : Int := if o1 < o2 then -1 else if o1 = o2 then 0 else 1

namespace DeepKeyPart

variable (part : DeepKeyPart)

def maybeNull : Bool := part.nullBit ≠ 0

def nullBytes : Nat := if part.maybeNull then 1 else 0

/-- m_lengthBytes: createDeepKeyPart passes no variable position for most types, and 0 for the fixed variable ones;
    multi-byte text sets it to 0 by itself. -/
def lengthBytes : Nat :=
  match part.type with
  | .varText | .varBinary => if part.variablePosition ≠ -1 then 2 else 0
  | .fixedVarText | .fixedVarBinary => 2
  | _ => 0

def unpackLength : Nat := (part.lengthBytes + part.nullBytes + part.length) % 2 ^ 16

/-- The null byte of a part is set. -/
def nullKey (key : Buffer) (d : Nat) : Bool := part.maybeNull ∧ key d ≠ 0

/-- getPackLength, a ushorttype. -/
def getPackLength (key : Buffer) (d : Nat) : Nat :=
  match part.type with
  | .varText | .varBinary =>
    (part.nullBytes + part.lengthBytes + if part.nullKey key d then 0 else load key (d + part.nullBytes) 2) % 2 ^ 16
  | _ => part.unpackLength

/-- What compareKey begins with in every part but a hidden one; `isNull` is set when both are null. -/
def compareNull (key1 : Buffer) (d1 : Nat) (key2 : Buffer) (d2 : Nat) (isNull : Bool) (values : Nat → Nat → Int) : Int × Bool :=
  if part.maybeNull then
    if key1 d1 ≠ 0 then
      if key2 d2 ≠ 0 then (0, true) else (-1, isNull)
    else if key2 d2 ≠ 0 then (1, isNull)
    else (values (d1 + 1) (d2 + 1), isNull)
  else (values d1 d2, isNull)

def compareVarBinary (key1 key2 : Buffer) (d1 d2 : Nat) : Int :=
  let len1 := load key1 d1 2
  let len2 := load key2 d2 2
  let cmp := memcmp key1 (d1 + 2) key2 (d2 + 2) (min len1 len2)
  if cmp = 0 ∧ len1 ≠ len2 then (if len1 > len2 then 1 else -1) else cmp

def compareKey (charset : Charset) (key1 : Buffer) (d1 : Nat) (key2 : Buffer) (d2 : Nat) (isNull : Bool) : Int × Bool :=
  let numbers (number : Buffer → Nat → Nat → Int) (size : Nat) :=
    part.compareNull key1 d1 key2 d2 isNull fun p q => compareNumber (number key1 p size) (number key2 q size)
  match part.type with
  | .longInt => numbers signed 4
  | .ulongInt => numbers unsigned 4
  | .longLong => numbers signed 8
  | .ulongLong => numbers unsigned 8
  | .shortInt => numbers signed 2
  | .ushortInt => numbers unsigned 2
  | .int24 => numbers signed 3
  | .uint24 => numbers unsigned 3
  | .int8 => numbers signed 1
  | .uint8 => numbers unsigned 1
  | .varText | .fixedVarText => part.compareNull key1 d1 key2 d2 isNull fun p q =>
      charset part.characterSet (bytes key1 (p + 2) (load key1 p 2)) (bytes key2 (q + 2) (load key2 q 2))
  | .text | .textMultibyte => part.compareNull key1 d1 key2 d2 isNull fun p q =>
      charset part.characterSet (bytes key1 p part.length) (bytes key2 q part.length)
  | .binary => part.compareNull key1 d1 key2 d2 isNull fun p q => memcmp key1 p key2 q part.length
  | .varBinary | .fixedVarBinary => part.compareNull key1 d1 key2 d2 isNull (compareVarBinary key1 key2)
  | .hidden => (compareNumber (unsigned key1 d1 8) (unsigned key2 d2 8), isNull)

end DeepKeyPart

/-! ## Comparing keys -/

structure DeepComposite where
  data : Buffer
  keyPartMask : Nat
  keyPartWeight : Int
  ignorePrimary : Bool

/-- `~0`. -/
def fullMask : Nat := 2 ^ 32 - 1

/-- The loop of compare from part `i` on: what it returns, and the part it ended at. -/
def compareParts (charset : Charset) (o1 o2 : DeepComposite) :
    List DeepKeyPart → (i keyPartMask1 keyPartMask2 : Nat) → (isNull : Bool) → (d1 d2 : Nat) → Int × Nat
  | [], i, _, _, _, _, _ => (0, i)
  | part :: parts, i, keyPartMask1, keyPartMask2, isNull, d1, d2 =>
    let (compare, isNull) := part.compareKey charset o1.data d1 o2.data d2 isNull
    if compare ≠ 0 then (compare, i)
    else
      let keyPartMask1 := keyPartMask1 / 2
      let keyPartMask2 := keyPartMask2 / 2
      let d1' := d1 + part.getPackLength o1.data d1
      let d2' := d2 + part.getPackLength o2.data d2
      if keyPartMask1 = 0 then (if keyPartMask2 = 0 then 0 else o1.keyPartWeight, i)
      else if keyPartMask2 = 0 then
        if isNull ∧ o2.ignorePrimary then compareParts charset o1 o2 parts (i + 1) keyPartMask1 fullMask isNull d1' d2'
        else (if o2.keyPartWeight = 0 then 0 else if o2.keyPartWeight < 0 then 1 else -1, i)
      else compareParts charset o1 o2 parts (i + 1) keyPartMask1 keyPartMask2 isNull d1' d2'

section

variable (charset : Charset) (parts : List DeepKeyPart) (o1 o2 : DeepComposite)

def compare : Int := (compareParts charset o1 o2 parts 0 o1.keyPartMask o2.keyPartMask false 0 0).1

/-- The position that compare leaves behind when it is asked for. -/
def comparePos (pos : Nat) : Nat := max pos (compareParts charset o1 o2 parts 0 o1.keyPartMask o2.keyPartMask false 0 0).2

end

/-! ## What a key stands for -/

inductive Value where
  | number (n : Int)
  | bytes (data : List UInt8)
  deriving DecidableEq, Repr

namespace DeepKeyPart

variable (part : DeepKeyPart)

/-- The value of a part whose image is at `d`, or none when it is null. -/
def value (key : Buffer) (d : Nat) : Option Value :=
  let nullable (v : Nat → Value) := if part.nullKey key d then none else some (v (d + part.nullBytes))
  match part.type with
  | .longInt => nullable fun p => .number (signed key p 4)
  | .ulongInt => nullable fun p => .number (unsigned key p 4)
  | .longLong => nullable fun p => .number (signed key p 8)
  | .ulongLong => nullable fun p => .number (unsigned key p 8)
  | .shortInt => nullable fun p => .number (signed key p 2)
  | .ushortInt => nullable fun p => .number (unsigned key p 2)
  | .int24 => nullable fun p => .number (signed key p 3)
  | .uint24 => nullable fun p => .number (unsigned key p 3)
  | .int8 => nullable fun p => .number (signed key p 1)
  | .uint8 => nullable fun p => .number (unsigned key p 1)
  | .varText | .fixedVarText | .varBinary | .fixedVarBinary => nullable fun p => .bytes (bytes key (p + 2) (load key p 2))
  | .text | .textMultibyte | .binary => nullable fun p => .bytes (bytes key p part.length)
  | .hidden => some (.number (unsigned key d 8))

/-- The bytes of a part's image. -/
def width (key : Buffer) (d : Nat) : Nat :=
  match part.type with
  | .varText | .varBinary => part.nullBytes + 2 + if part.nullKey key d then 0 else load key (d + part.nullBytes) 2
  | .fixedVarText | .fixedVarBinary => part.nullBytes + 2 + part.length
  | _ => part.nullBytes + part.length

end DeepKeyPart

def decode : List DeepKeyPart → Buffer → Nat → List (Option Value)
  | [], _, _ => []
  | part :: parts, key, d => part.value key d :: decode parts key (d + part.width key d)

/-- The length of a key's image. -/
def imageLength : List DeepKeyPart → Buffer → Nat → Nat
  | [], _, _ => 0
  | part :: parts, key, d => part.width key d + imageLength parts key (d + part.width key d)

/-- The order of the values of a part: numbers by size, texts as their character set has them, bytes as in a dictionary. -/
def DeepKeyPart.compareValue (part : DeepKeyPart) (charset : Charset) : Value → Value → Ordering
  | .number m, .number n => Ord.compare m n
  | .number _, .bytes _ => .lt
  | .bytes _, .number _ => .gt
  | .bytes xs, .bytes ys =>
    match part.type with
    | .varText | .fixedVarText | .text | .textMultibyte => Ord.compare (charset part.characterSet xs ys) 0
    | _ => Ord.compare xs ys

/-- Null comes before every value. -/
def DeepKeyPart.order (part : DeepKeyPart) (charset : Charset) : Option Value → Option Value → Ordering
  | none, none => .eq
  | none, some _ => .lt
  | some _, none => .gt
  | some a, some b => part.compareValue charset a b

/-- The lexicographic order of parts. -/
def lexicographic (charset : Charset) (parts : List DeepKeyPart) (xs ys : List (Option Value)) : Ordering :=
  lexCmp (parts.map fun part => part.order charset) xs ys

end DeepFabric.Store.CompositeKey
