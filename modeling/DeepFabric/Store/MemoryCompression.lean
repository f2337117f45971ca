/-
  DeepFabric.Store.MemoryCompression — a segment that is compressed in memory, and decompressed
  (core/RealTimeCompress.h; core/Information.h: getInMemoryCompressedSize, getBytes, setBytes).

  The first entry stays in the segment. Each other entry becomes a record: the key, with its length ahead where keys are variable, the
  file index and the file position, the size of the value where values are variable, and the value where values are kept. Both lengths
  have two bytes. The records go into a buffer that is estimated first and doubles while it is too small; all of it goes through
  `deflate`, which is a parameter, and so are the builder of keys and its layout.

  `CMPRS` informations, which are kept from here, and the compression ratios are left out.
-/
import DeepFabric.Lib.Deflate
import DeepFabric.Lib.LittleEndian
import DeepFabric.Platform.TreeMap
import Mathlib.Order.Fin.Basic

namespace DeepFabric.Store.MemoryCompression

open Lib Platform Buffer List Option

inductive InfoType
  | read
  | write
  deriving DecidableEq, Repr

structure Information where
  type : InfoType
  fileIndex : UInt16
  filePosition : UInt32
  size : UInt32
  data : Option (List UInt8)
  deriving DecidableEq, Repr

def Information.getInMemoryCompressedSize : Nat := 6

def Information.getBytes (info : Information) : List UInt8 := leBytes 2 info.fileIndex.toNat ++ leBytes 4 info.filePosition.toNat

/-- What RealTimeShare says of keys and values. A size of -1 is not fixed. -/
structure Settings where
  keySize : Int16
  valueSize : Int32
  valueAverage : Int32
  deriving DecidableEq, Repr

/-- Converter::toData and the builder; `fillKey` is given what is at a place, and `none` is a read behind its end. -/
structure KeyBuilder (K : Type) where
  toData : K → List UInt8
  getPackLength : List UInt8 → UInt16
  fillKey : List UInt8 → Option K

structure Segment (K : Type) where
  map : TreeMap K Information
  vsize : Int32
  uncompressedSize : Int32
  zipData : List UInt8

inductive Fault
  /-- `new` of more than there can be. -/
  | memory
  /-- A write behind the end of a buffer. -/
  | overrun
  /-- A loop without an end. -/
  | endless
  /-- compressionError -/
  | code
  /-- A read behind the end of a buffer, or of nothing. -/
  | beyond
  deriving DecidableEq, Repr

def orBeyond {α : Type} (x : Option α) : Except Fault α := x.elim (.error .beyond) .ok

def allocate (size : Nat) : Except Fault Unit := if size < 2 ^ 63 then .ok () else .error .memory

namespace Settings

variable (share : Settings)

def fixedKey : Bool := share.keySize ≠ -1

def fixedValue : Bool := share.valueSize ≠ -1

/-- The first dataSize: products of 32 bits, in a sum of 64. -/
def dataSize (useValue : Bool) (vsize : Int32) : UInt64 :=
  let valueAverage := if share.valueAverage > -1 then share.valueAverage else 1
  let keys := (if share.fixedKey then share.keySize.toInt32 else 100) * (vsize - 1) + 6 * vsize
  let values := (if share.fixedValue then share.valueSize else valueAverage) * vsize
  keys.toInt64.toUInt64 + (if useValue then values.toInt64.toUInt64 else 0) + 100

end Settings

/-! ## The buffer -/

structure Out where
  data : List UInt8
  dataSize : Nat
  deriving DecidableEq, Repr

def resize (size : Nat) : Nat := size * 2 % 2 ^ 64

/-- The loop around resize. After 64 turns the size is 0 and stays so. -/
def reserve : Nat → Nat → Nat → Except Fault Nat
  | 0, _, _ => .error .endless
  | turns + 1, size, needed => if size < needed then reserve turns (resize size) needed else .ok size

def memcpy (out : Out) (bytes : List UInt8) : Except Fault Out :=
  if out.data.length + bytes.length ≤ out.dataSize then .ok { out with data := out.data ++ bytes } else .error .overrun

def copy (out : Out) (bytes : List UInt8) : Except Fault Out := do
  let dataSize ← reserve 65 out.dataSize (out.data.length + bytes.length)
  memcpy { out with dataSize := dataSize } bytes

/-- So many bytes of an array. -/
def piece (n : Nat) (bytes : List UInt8) : Except Fault (List UInt8) := if n ≤ bytes.length then .ok (bytes.take n) else .error .beyond

/-! ## Compression -/

section

variable {K σ : Type} (z : Zlib σ) (share : Settings) (keyBuilder : KeyBuilder K) (useValue : Bool)

/-- What is copied of an entry, piece by piece. -/
def pieces (e : K × Information) : Except Fault (List (List UInt8)) := do
  let keydata := keyBuilder.toData e.1
  let keySize := if share.fixedKey then share.keySize.toInt.toNat else (keyBuilder.getPackLength keydata).toNat
  let valueSize := if share.fixedValue then share.valueSize.toInt.toNat else e.2.size.toNat
  let key ← piece keySize keydata
  let value ← if useValue then (orBeyond e.2.data).bind (piece valueSize) else .ok []
  .ok ((if share.fixedKey then [] else [leBytes 2 keySize]) ++ [key, e.2.getBytes] ++
    (if share.fixedValue then [] else [leBytes 2 valueSize]) ++ (if useValue then [value] else []))

def writeEntry (out : Out) (e : K × Information) : Except Fault Out := do
  (← pieces share keyBuilder useValue e).foldlM copy out

/-- The calls of `deflate`, until one does not use up its room. -/
def deflateData (indata : List UInt8) : Nat → Nat → List UInt8 → Nat → σ → Except Fault (List UInt8)
  | 0, _, _, _, _ => .error .endless
  | calls + 1, totalAvail, outdata, totalIn, strm => do
    let totalAvail ← reserve 65 totalAvail (outdata.length + indata.length + 1)
    let room := totalAvail - outdata.length
    let r := z.deflate strm (indata.drop totalIn) room .finish
    match r.code with
    | .bufError => .error .code
    | .streamEnd => .ok (outdata ++ r.put)
    | .ok =>
      if r.put.length = room then deflateData indata calls totalAvail (outdata ++ r.put) (totalIn + r.taken) r.state
      else .ok (outdata ++ r.put)

variable [LinearOrder K]

/-- All but the first entry are destroyed. -/
def keepFirst (map : TreeMap K Information) (firstKey : K) : Option (TreeMap K Information) := do
  let (map, firstValue) ← map.remove firstKey
  let firstValue ← firstValue
  (map.clear.put firstKey firstValue.2).map Prod.fst

def compress (segment : Segment K) : Except Fault (Segment K) := do
  let dataSize := (share.dataSize useValue segment.vsize).toNat
  allocate dataSize
  let out ← memcpy ⟨[], dataSize⟩ [if useValue then 1 else 0]
  match segment.map.entries with
  | [] => .error .beyond
  | first :: rest =>
    let out ← rest.foldlM (writeEntry share keyBuilder useValue) out
    let map ← orBeyond (keepFirst segment.map first.1)
    allocate out.dataSize
    let zipData ← deflateData z out.data (z.deflateBound out.data.length + 1) out.dataSize [] 0 z.deflateInit
    .ok { segment with map := map, uncompressedSize := Int32.ofNat out.data.length, zipData := zipData }

/-! ## Decompression -/

/-- The size of the key or of the value that comes, and what is behind it. -/
def readSize (fixed : Bool) (size : Nat) (bytes : List UInt8) : Option (Nat × List UInt8) :=
  if fixed then some (size, bytes) else LittleEndian.number 2 bytes

omit [LinearOrder K] in
/-- A record, and what is behind it. -/
def readEntry (bytes : List UInt8) : Option ((K × Information) × List UInt8) := do
  let (keySize, bytes) ← readSize share.fixedKey share.keySize.toInt.toNat bytes
  let key ← keyBuilder.fillKey bytes
  let (_, bytes) ← BigEndian.take keySize bytes
  let (fileIndex, bytes) ← LittleEndian.number 2 bytes
  let (filePosition, bytes) ← LittleEndian.number 4 bytes
  let (valueSize, bytes) ← readSize share.fixedValue share.valueSize.toInt.toNat bytes
  let info : Information := ⟨.write, UInt16.ofNat fileIndex, UInt32.ofNat filePosition, UInt32.ofNat valueSize, none⟩
  if useValue then
    let (data, bytes) ← BigEndian.take valueSize bytes
    some ((key, { info with data := some data }), bytes)
  else some ((key, info), bytes)

def readEntries : Nat → List UInt8 → TreeMap K Information → Except Fault (TreeMap K Information)
  | _, [], map => .ok map
  | 0, _ :: _, _ => .error .endless
  | turns + 1, b :: bytes, map => do
    let (e, rest) ← orBeyond (readEntry share keyBuilder useValue (b :: bytes))
    let (map, _) ← orBeyond (map.add e.1 e.2 false)
    readEntries turns rest map

def decompress (segment : Segment K) : Except Fault (Segment K) := do
  let dataSize := segment.uncompressedSize.toInt64.toUInt64.toNat
  allocate dataSize
  match z.inflate segment.zipData dataSize with
  | none => .error .code
  | some [] => .error .beyond
  | some (useValue :: data) => do
    let map ← readEntries share keyBuilder (useValue ≠ 0) data.length data segment.map
    .ok { segment with map := map, zipData := [] }

end

/-! ## What should come back -/

/-- The builder takes a key from where its bytes are, whatever is behind them; and it knows how many they are. -/
structure Lawful {K : Type} (share : Settings) (keyBuilder : KeyBuilder K) : Prop where
  fixed : share.fixedKey = true → ∀ key, ((keyBuilder.toData key).length : Int) = share.keySize.toInt
  pack : share.fixedKey = false → ∀ key, (keyBuilder.getPackLength (keyBuilder.toData key)).toNat = (keyBuilder.toData key).length
  fill : ∀ key rest, keyBuilder.fillKey (keyBuilder.toData key ++ rest) = some key

/-- A segment with entries, whose values are there if they are kept and have the one size if there is one. -/
structure Clean {K : Type} [LinearOrder K] (share : Settings) (useValue : Bool) (segment : Segment K) : Prop where
  valid : segment.map.Valid
  nonempty : segment.map.entries ≠ []
  fixed : share.fixedValue = true → ∀ e ∈ segment.map.entries, (e.2.size.toNat : Int) = share.valueSize.toInt
  data : useValue = true → ∀ e ∈ segment.map.entries, ∃ data, e.2.data = some data ∧ data.length = e.2.size.toNat

/-- The same key, and what should be the same of its information. -/
structure Restored {K : Type} (useValue : Bool) (after before : K × Information) : Prop where
  key : after.1 = before.1
  fileIndex : after.2.fileIndex = before.2.fileIndex
  filePosition : after.2.filePosition = before.2.filePosition
  size : after.2.size = before.2.size
  data : useValue = true → after.2.data = before.2.data

def Restores {K σ : Type} [LinearOrder K] (z : Zlib σ) (share : Settings) (keyBuilder : KeyBuilder K) (useValue : Bool)
    (segment : Segment K) : Prop :=
  ∃ compressed decompressed, compress z share keyBuilder useValue segment = .ok compressed ∧
    decompress z share keyBuilder compressed = .ok decompressed ∧
    List.Forall₂ (Restored useValue) decompressed.map.entries segment.map.entries

section

variable {K : Type} (share : Settings) (keyBuilder : KeyBuilder K) (useValue : Bool)

/-- The record of an entry. -/
def record (e : K × Information) : List UInt8 :=
  (if share.fixedKey then [] else leBytes 2 (keyBuilder.toData e.1).length) ++ (keyBuilder.toData e.1 ++ (e.2.getBytes ++
    ((if share.fixedValue then [] else leBytes 2 e.2.size.toNat) ++ (if useValue then e.2.data.getD [] else []))))

def records (es : List (K × Information)) : List UInt8 := es.flatMap (record share keyBuilder useValue)

/-- The estimate is a size, the records fit in an inttype, and variable sizes in two bytes. -/
structure Ok (segment : Segment K) : Prop where
  dataSize : 0 < (share.dataSize useValue segment.vsize).toNat ∧ (share.dataSize useValue segment.vsize).toNat < 2 ^ 63
  records : 1 + (records share keyBuilder useValue segment.map.entries.tail).length < 2 ^ 31
  sizes : share.fixedValue = false → ∀ e ∈ segment.map.entries.tail, e.2.size.toNat < 2 ^ 16

end

/-! ## The buffer -/

variable {size needed : Nat}

theorem reserve_le {turns size' : Nat} (h : reserve turns size needed = .ok size') : needed ≤ size' := by
  induction turns generalizing size with
  | zero => cases h
  | succ turns ih =>
    rw [reserve] at h
    split_ifs at h with hlt
    · exact ih h
    · cases h
      exact Nat.not_lt.mp hlt

theorem reserve_ok {turns : Nat} (hsize : size < 2 ^ 63) (hneeded : needed ≤ 2 ^ 62) (hturns : needed ≤ size * 2 ^ turns) :
    ∃ size', reserve (turns + 1) size needed = .ok size' ∧ size ≤ size' ∧ size' < 2 ^ 63 := by
  induction turns generalizing size with
  | zero => exact ⟨size, by rw [reserve, if_neg (by omega)], Nat.le_refl _, hsize⟩
  | succ turns ih =>
    by_cases hlt : size < needed
    · have hdouble : resize size = size * 2 := Nat.mod_eq_of_lt (by omega)
      obtain ⟨size', hok, hle, hlt'⟩ := @ih (size * 2) (by omega) (by rw [Nat.mul_assoc, ← Nat.pow_succ']; exact hturns)
      exact ⟨size', by rw [reserve, if_pos hlt, hdouble, hok], by omega, hlt'⟩
    · exact ⟨size, by rw [reserve, if_neg hlt], Nat.le_refl _, hsize⟩

/-- Where there is a buffer there is room in it, after some doubling. -/
theorem reserve_room (hpos : 0 < size) (hsize : size < 2 ^ 63) (hneeded : needed ≤ 2 ^ 62) :
    ∃ size', reserve 65 size needed = .ok size' ∧ size ≤ size' ∧ size' < 2 ^ 63 :=
  reserve_ok hsize hneeded (by
    omega)

theorem bind_eq_ok {α β : Type} {x : Except Fault α} {g : α → Except Fault β} {b : β} :
    (x >>= g) = .ok b ↔ ∃ a, x = .ok a ∧ g a = .ok b := by
  cases x with
  | error f => exact ⟨nofun, nofun⟩
  | ok a => exact ⟨fun h => ⟨a, rfl, h⟩, fun ⟨_, ha, hg⟩ => by cases ha; exact hg⟩

theorem allocate_eq_ok {u : Unit} (h : allocate size = .ok u) : size < 2 ^ 63 := by
  unfold allocate at h
  split_ifs at h with hlt
  exact hlt

theorem memcpy_eq_ok {out out' : Out} {bytes : List UInt8} (h : memcpy out bytes = .ok out') :
    out.data.length + bytes.length ≤ out.dataSize ∧ out' = { out with data := out.data ++ bytes } := by
  unfold memcpy at h
  split_ifs at h with hle
  exact ⟨hle, (Except.ok.inj h).symm⟩

variable {ps : List (List UInt8)}

theorem copies_data {out out' : Out} (h : ps.foldlM copy out = .ok out') : out'.data = out.data ++ ps.flatten := by
  induction ps generalizing out with
  | nil =>
    cases h
    rw [flatten_nil, append_nil]
  | cons p ps ih =>
    rw [foldlM_cons] at h
    obtain ⟨out1, hcopy, hrest⟩ := bind_eq_ok.mp h
    obtain ⟨size, -, hmem⟩ := bind_eq_ok.mp hcopy
    obtain ⟨-, rfl⟩ := memcpy_eq_ok hmem
    rw [ih hrest, append_assoc, flatten_cons]

/-- A buffer that can grow takes all pieces, and none of them goes past its end. -/
theorem copies_ok {out : Out} (hpos : 0 < out.dataSize) (hsize : out.dataSize < 2 ^ 63)
    (hlength : out.data.length + ps.flatten.length ≤ 2 ^ 62) :
    ∃ out', ps.foldlM copy out = .ok out' ∧ 0 < out'.dataSize ∧ out'.dataSize < 2 ^ 63 := by
  induction ps generalizing out with
  | nil => exact ⟨out, rfl, hpos, hsize⟩
  | cons p ps ih =>
    rw [flatten_cons, length_append] at hlength
    obtain ⟨size, hres, hle, hlt⟩ := reserve_room hpos hsize (show out.data.length + p.length ≤ 2 ^ 62 by omega)
    have hcopy : copy out p = .ok ⟨out.data ++ p, size⟩ := by
      unfold copy
      rw [hres]
      exact if_pos (reserve_le hres)
    obtain ⟨out', hrest, h'⟩ := @ih ⟨out.data ++ p, size⟩ (Nat.lt_of_lt_of_le hpos hle) hlt (by rw [length_append]; omega)
    exact ⟨out', by rw [foldlM_cons, hcopy]; exact hrest, h'⟩

/-! ## The records -/

section Records

variable {K : Type} {share : Settings} {keyBuilder : KeyBuilder K} {useValue : Bool} {e : K × Information} {es : List (K × Information)}

/-- The value has the one size, if there is one, and is there if values are kept. -/
structure Sized (share : Settings) (useValue : Bool) (e : K × Information) : Prop where
  fixed : share.fixedValue = true → (e.2.size.toNat : Int) = share.valueSize.toInt
  data : useValue = true → ∃ data, e.2.data = some data ∧ data.length = e.2.size.toNat

theorem Clean.sized [LinearOrder K] {segment : Segment K} (h : Clean share useValue segment) :
    ∀ e ∈ segment.map.entries, Sized share useValue e :=
  fun e he => ⟨fun hf => h.fixed hf e he, fun hu => h.data hu e he⟩

theorem Lawful.keySize (hk : Lawful share keyBuilder) (key : K) :
    (if share.fixedKey then share.keySize.toInt.toNat else (keyBuilder.getPackLength (keyBuilder.toData key)).toNat) =
      (keyBuilder.toData key).length := by
  cases hf : share.fixedKey with
  | true =>
    rw [if_pos rfl, ← hk.fixed hf key]
    rfl
  | false => exact hk.pack hf key

theorem Sized.valueSize (h : Sized share useValue e) :
    (if share.fixedValue then share.valueSize.toInt.toNat else e.2.size.toNat) = e.2.size.toNat := by
  cases hf : share.fixedValue with
  | true =>
    rw [if_pos rfl, ← h.fixed hf]
    rfl
  | false => rfl

theorem piece_all (bytes : List UInt8) : piece bytes.length bytes = .ok bytes := by
  rw [piece, if_pos (Nat.le_refl _), take_length]

theorem pieces_record (hk : Lawful share keyBuilder) (h : Sized share useValue e) :
    ∃ ps, pieces share keyBuilder useValue e = .ok ps ∧ ps.flatten = record share keyBuilder useValue e := by
  unfold pieces record
  dsimp only
  rw [hk.keySize, h.valueSize, piece_all]
  cases useValue with
  | true =>
    obtain ⟨data, hdata, hlength⟩ := h.data rfl
    rw [hdata, ← hlength]
    simp only [orBeyond, elim_some, Except.bind, piece_all, if_true, getD_some]
    refine ⟨_, rfl, ?_⟩
    cases share.fixedKey <;> cases share.fixedValue <;> simp
  | false =>
    refine ⟨_, rfl, ?_⟩
    cases share.fixedKey <;> cases share.fixedValue <;> simp

theorem records_cons : records share keyBuilder useValue (e :: es) = record share keyBuilder useValue e ++ records share keyBuilder useValue es :=
  flatMap_cons

theorem writeEntries_data (hk : Lawful share keyBuilder) (h : ∀ e ∈ es, Sized share useValue e) {out out' : Out}
    (hwrite : es.foldlM (writeEntry share keyBuilder useValue) out = .ok out') :
    out'.data = out.data ++ records share keyBuilder useValue es := by
  induction es generalizing out with
  | nil =>
    cases hwrite
    exact (append_nil _).symm
  | cons e es ih =>
    rw [foldlM_cons] at hwrite
    obtain ⟨out1, hone, hrest⟩ := bind_eq_ok.mp hwrite
    obtain ⟨ps, hps, hrecord⟩ := pieces_record hk (h e mem_cons_self)
    rw [writeEntry, hps] at hone
    rw [ih (forall_mem_cons.mp h).2 hrest, copies_data hone, hrecord, records_cons, append_assoc]

theorem writeEntries_ok (hk : Lawful share keyBuilder) (h : ∀ e ∈ es, Sized share useValue e) {out : Out} (hpos : 0 < out.dataSize)
    (hsize : out.dataSize < 2 ^ 63) (hlength : out.data.length + (records share keyBuilder useValue es).length ≤ 2 ^ 62) :
    ∃ out', es.foldlM (writeEntry share keyBuilder useValue) out = .ok out' ∧ 0 < out'.dataSize ∧ out'.dataSize < 2 ^ 63 := by
  induction es generalizing out with
  | nil => exact ⟨out, rfl, hpos, hsize⟩
  | cons e es ih =>
    rw [records_cons, length_append] at hlength
    obtain ⟨ps, hps, hrecord⟩ := pieces_record hk (h e mem_cons_self)
    obtain ⟨out1, hone, hpos1, hsize1⟩ := copies_ok hpos hsize (show out.data.length + ps.flatten.length ≤ 2 ^ 62 by rw [hrecord]; omega)
    have hdata := copies_data hone
    rw [hrecord] at hdata
    obtain ⟨out', hrest, h'⟩ := ih (forall_mem_cons.mp h).2 hpos1 hsize1
      (by rw [hdata, length_append]; omega)
    refine ⟨out', ?_, h'⟩
    rw [foldlM_cons, writeEntry, hps]
    exact bind_eq_ok.mpr ⟨out1, hone, hrest⟩

end Records

/-! ## The stream -/

section Stream

variable {σ : Type} {z : Zlib σ} {data : List UInt8}

/-- What a finished stream has put out is undone by `inflate` where there is room, and by nothing else. -/
def Packs (z : Zlib σ) (data zipData : List UInt8) : Prop :=
  (∀ room, data.length ≤ room → z.inflate zipData room = some data) ∧ ∀ room < data.length, z.inflate zipData room = none

theorem deflateData_sound (hz : z.Whole) {calls totalAvail t : Nat} {o zipData : List UInt8} {s : σ} (hs : z.Finishing data t o s)
    (h : deflateData z data calls totalAvail o t s = .ok zipData) : Packs z data zipData := by
  induction calls generalizing totalAvail t o s with
  | zero => cases h
  | succ calls ih =>
    rw [deflateData] at h
    obtain ⟨size, hres, hcall⟩ := bind_eq_ok.mp h
    have hroom : 0 < size - o.length := by
      have := reserve_le hres
      omega
    rcases hz.ends (size - o.length) hs hroom with ⟨hcode, -⟩ | ⟨hcode, hfull⟩
    · simp only [hcode] at hcall
      cases hcall
      exact ⟨hz.undone _ hs hcode, hz.cut _ hs hcode⟩
    · simp only [hcode, hfull, if_true] at hcall
      exact ih (.more _ hs hcode hfull) hcall

theorem deflateData_ok (hz : z.Whole) {calls totalAvail t : Nat} {o : List UInt8} {s : σ} (hs : z.Finishing data t o s)
    (hcalls : z.deflateBound data.length < calls + o.length) (hlength : data.length < 2 ^ 31) (hpos : 0 < totalAvail)
    (hsize : totalAvail < 2 ^ 63) : ∃ zipData, deflateData z data calls totalAvail o t s = .ok zipData := by
  have hbound := hz.bounded hs
  have hle := hz.bound_le data.length
  induction calls generalizing totalAvail t o s with
  | zero => omega
  | succ calls ih =>
    obtain ⟨size, hres, hge, hlt⟩ := reserve_room hpos hsize (show o.length + data.length + 1 ≤ 2 ^ 62 by omega)
    have hroom : 0 < size - o.length := by
      have := reserve_le hres
      omega
    rw [deflateData, hres]
    simp only [bind, Except.bind]
    rcases hz.ends (size - o.length) hs hroom with ⟨hcode, -⟩ | ⟨hcode, hfull⟩
    · simp only [hcode]
      exact ⟨_, rfl⟩
    · simp only [hcode, hfull, if_true]
      have hmore := Zlib.Finishing.more _ hs hcode hfull
      refine ih hmore ?_ (Nat.lt_of_lt_of_le hpos hge) hlt (hz.bounded hmore)
      rw [length_append, hfull]
      omega

end Stream

/-! ## What is read back -/

section Reading

variable {K : Type} {share : Settings} {keyBuilder : KeyBuilder K} {useValue : Bool} {e : K × Information}

theorem readSize_key (hk : Lawful share keyBuilder) (key : K) (tail : List UInt8) :
    readSize share.fixedKey share.keySize.toInt.toNat
      ((if share.fixedKey then [] else leBytes 2 (keyBuilder.toData key).length) ++ (keyBuilder.toData key ++ tail)) =
      some ((keyBuilder.toData key).length, keyBuilder.toData key ++ tail) := by
  cases hf : share.fixedKey with
  | true =>
    rw [← hk.fixed hf key]
    rfl
  | false =>
    have hlength := hk.pack hf key
    have hlt := (keyBuilder.getPackLength (keyBuilder.toData key)).toNat_lt
    rw [readSize, if_neg nofun, if_neg nofun, LittleEndian.number_leBytes, Nat.mod_eq_of_lt (by omega)]

/-- Where sizes are variable, two bytes of one are read back. -/
theorem readSize_value (h : Sized share useValue e) (tail : List UInt8) :
    readSize share.fixedValue share.valueSize.toInt.toNat ((if share.fixedValue then [] else leBytes 2 e.2.size.toNat) ++ tail) =
      some (if share.fixedValue then e.2.size.toNat else e.2.size.toNat % 256 ^ 2, tail) := by
  cases hf : share.fixedValue with
  | true =>
    rw [← h.fixed hf]
    rfl
  | false => rw [readSize, if_neg nofun, if_neg nofun, if_neg nofun, LittleEndian.number_leBytes]

/-- A record is read as its entry, but for a size that is cut off at two bytes. -/
theorem readEntry_record (hk : Lawful share keyBuilder) (h : Sized share useValue e) (rest : List UInt8) :
    ∃ e' rest', readEntry share keyBuilder useValue (record share keyBuilder useValue e ++ rest) = some (e', rest') ∧ e'.1 = e.1 ∧
      (share.fixedValue = false → e'.2.size.toNat = e.2.size.toNat % 2 ^ 16) ∧
      (share.fixedValue = true ∨ e.2.size.toNat < 2 ^ 16 → Restored useValue e' e ∧ rest' = rest) := by
  obtain ⟨n, hn⟩ : ∃ n, n = if share.fixedValue then e.2.size.toNat else e.2.size.toNat % 256 ^ 2 := ⟨_, rfl⟩
  have hle : n ≤ e.2.size.toNat := by
    rw [hn]
    split_ifs
    · exact Nat.le_refl _
    · exact Nat.mod_le _ _
  have hsize : (UInt32.ofNat n).toNat = n := by
    have := e.2.size.toNat_lt
    rw [UInt32.toNat_ofNat', Nat.mod_eq_of_lt (by omega)]
  have hcut : share.fixedValue = false → (UInt32.ofNat n).toNat = e.2.size.toNat % 2 ^ 16 := by
    intro hf
    rw [hsize, hn, if_neg (by rw [hf]; exact nofun)]
    rfl
  have hfits : share.fixedValue = true ∨ e.2.size.toNat < 2 ^ 16 → n = e.2.size.toNat := by
    rintro (hf | hlt)
    · rw [hn, if_pos hf]
    · rw [hn, Nat.mod_eq_of_lt (show _ < 256 ^ 2 from hlt), ite_self]
  have hindex : UInt16.ofNat (e.2.fileIndex.toNat % 256 ^ 2) = e.2.fileIndex := by
    rw [Nat.mod_eq_of_lt (show _ < 256 ^ 2 from e.2.fileIndex.toNat_lt), UInt16.ofNat_toNat]
  have hposition : UInt32.ofNat (e.2.filePosition.toNat % 256 ^ 4) = e.2.filePosition := by
    rw [Nat.mod_eq_of_lt (show _ < 256 ^ 4 from e.2.filePosition.toNat_lt), UInt32.ofNat_toNat]
  unfold readEntry record Information.getBytes
  simp only [append_assoc, readSize_key hk, bind_eq_bind, bind_some, hk.fill, BigEndian.take_append rfl,
    LittleEndian.number_leBytes, readSize_value h, ← hn, hindex, hposition]
  cases useValue with
  | true =>
    obtain ⟨data, hdata, hlength⟩ := h.data rfl
    have htake : BigEndian.take n (data ++ rest) = some ((data ++ rest).take n, (data ++ rest).drop n) := by
      rw [BigEndian.take, if_pos (by rw [length_append]; omega)]
    simp only [if_true, hdata, getD_some, htake, bind_some]
    refine ⟨_, _, rfl, rfl, hcut, fun hf => ?_⟩
    have hall := hfits hf
    rw [← hlength] at hall
    subst hall
    rw [take_left, drop_left]
    exact ⟨⟨rfl, rfl, rfl, UInt32.toNat_inj.mp (hsize.trans hlength), fun _ => hdata.symm⟩, rfl⟩
  | false =>
    simp only [Bool.false_eq_true, if_false, nil_append]
    exact ⟨_, _, rfl, rfl, hcut, fun hf => ⟨⟨rfl, rfl, rfl, UInt32.toNat_inj.mp (hsize.trans (hfits hf)), nofun⟩, rfl⟩⟩

theorem record_ne_nil (e : K × Information) : record share keyBuilder useValue e ≠ [] := by
  intro hnil
  have hlength := congrArg List.length hnil
  simp only [record, Information.getBytes, length_append, length_leBytes, length_nil] at hlength
  omega

variable [LinearOrder K] {map map' : TreeMap K Information} {es : List (K × Information)}

theorem find_mem (hv : map.Valid) (he : e ∈ map.entries) : map.find e.1 = some e := by
  have hget := SortedMap.mem_entries (m := ⟨map.entries, hv.sorted⟩) |>.mp he
  rw [TreeMap.find_eq hv, hget, map_some]

theorem add_last (hv : map.Valid) (hlast : ∀ x ∈ map.entries, x.1 < e.1) :
    ∃ map' last, map.add e.1 e.2 false = some (map', last) ∧ map'.Valid ∧ map'.entries = map.entries ++ [e] := by
  have hfind : map.find e.1 = none := by
    rw [TreeMap.find_eq hv, map_eq_none_iff]
    cases hget : (⟨map.entries, hv.sorted⟩ : SortedMap K Information).get e.1 with
    | none => rfl
    | some info => exact absurd (hlast (e.1, info) (SortedMap.mem_entries.mpr hget)) (lt_irrefl _)
  obtain ⟨map', last, hadd, hv', he'⟩ := TreeMap.add_spec hv e.1 e.2 false
  refine ⟨map', _, hadd, hv', ?_⟩
  have hmid := SortedMap.insertEntry_mid (v := e.2) hlast (forall_mem_nil fun x : K × Information => e.1 < x.1)
  rw [append_nil] at hmid
  rw [he', hfind, hmid]
  rfl

theorem readEntries_keeps {turns : Nat} {bytes : List UInt8} (hv : map.Valid)
    (h : readEntries share keyBuilder useValue turns bytes map = .ok map') : ∀ x ∈ map.entries, x ∈ map'.entries := by
  induction turns generalizing bytes map with
  | zero =>
    cases bytes with
    | nil =>
      cases h
      exact fun x hx => hx
    | cons b bytes => cases h
  | succ turns ih =>
    cases bytes with
    | nil =>
      cases h
      exact fun x hx => hx
    | cons b bytes =>
      rw [readEntries] at h
      obtain ⟨⟨e, rest⟩, -, h⟩ := bind_eq_ok.mp h
      obtain ⟨map1, last, hadd, hv1, he1⟩ := TreeMap.add_spec hv e.1 e.2 false
      obtain ⟨⟨map1', last'⟩, hadd', hrest⟩ := bind_eq_ok.mp h
      rw [hadd] at hadd'
      cases hadd'
      intro x hx
      refine ih hv1 hrest x ?_
      rw [he1]
      cases hfind : map.find e.1 with
      | some y => exact hx
      | none =>
        refine (SortedMap.mem_of_insertEntry hv.sorted).mpr (.inr ⟨hx, ?_⟩)
        intro heq
        rw [← heq, find_mem hv hx] at hfind
        cases hfind

theorem readEntries_turn {turns : Nat} {bytes rest : List UInt8} {last : Option (K × Information) × Bool} (hne : bytes ≠ [])
    (hread : readEntry share keyBuilder useValue bytes = some (e, rest)) (hadd : map.add e.1 e.2 false = some (map', last)) :
    readEntries share keyBuilder useValue (turns + 1) bytes map = readEntries share keyBuilder useValue turns rest map' := by
  cases bytes with
  | nil => exact absurd rfl hne
  | cons b bytes =>
    rw [readEntries, hread]
    show (orBeyond (map.add e.1 e.2 false)).bind _ = _
    rw [hadd]
    rfl

/-- A turn on a record: its key goes in, and all of its entry where the size fits. -/
theorem readEntries_record (hk : Lawful share keyBuilder) (h : Sized share useValue e) (hv : map.Valid)
    (hlast : ∀ x ∈ map.entries, x.1 < e.1) (rest : List UInt8) :
    ∃ e' rest' map', map'.Valid ∧ map'.entries = map.entries ++ [e'] ∧ e'.1 = e.1 ∧
      (share.fixedValue = false → e'.2.size.toNat = e.2.size.toNat % 2 ^ 16) ∧
      (share.fixedValue = true ∨ e.2.size.toNat < 2 ^ 16 → Restored useValue e' e ∧ rest' = rest) ∧
      ∀ turns, readEntries share keyBuilder useValue (turns + 1) (record share keyBuilder useValue e ++ rest) map =
        readEntries share keyBuilder useValue turns rest' map' := by
  obtain ⟨e', rest', hread, hkey, hcut, hfits⟩ := readEntry_record hk h rest
  obtain ⟨map', last, hadd, hv', he'⟩ := @add_last _ e' _ map hv (by rw [hkey]; exact hlast)
  refine ⟨e', rest', map', hv', he', hkey, hcut, hfits, fun turns => ?_⟩
  exact readEntries_turn (fun hnil => record_ne_nil e (append_eq_nil_iff.mp hnil).1) hread hadd

/-- The keys of some entries are in order, behind those of a map. -/
structure Behind (map : TreeMap K Information) (es : List (K × Information)) : Prop where
  last : ∀ x ∈ map.entries, ∀ e ∈ es, x.1 < e.1
  sorted : es.Pairwise fun a b => a.1 < b.1

theorem Behind.tail {e' : K × Information} (h : Behind map (e :: es)) (he : map'.entries = map.entries ++ [e']) (hkey : e'.1 = e.1) :
    Behind map' es where
  last x hx y hy := by
    rw [he] at hx
    rcases mem_append.mp hx with hx | hx
    · exact h.last x hx y (mem_cons_of_mem _ hy)
    · rw [mem_singleton.mp hx, hkey]
      exact rel_of_pairwise_cons h.sorted hy
  sorted := h.sorted.of_cons

/-- While all sizes fit, the records are read back as the entries that they were made of. -/
theorem readEntries_records (hk : Lawful share keyBuilder) (h : ∀ e ∈ es, Sized share useValue e)
    (hfits : ∀ e ∈ es, share.fixedValue = true ∨ e.2.size.toNat < 2 ^ 16) {turns : Nat} (hv : map.Valid) (hbehind : Behind map es)
    (hturns : (records share keyBuilder useValue es).length ≤ turns) :
    ∃ map' es', readEntries share keyBuilder useValue turns (records share keyBuilder useValue es) map = .ok map' ∧
      map'.entries = map.entries ++ es' ∧ List.Forall₂ (Restored useValue) es' es := by
  induction es generalizing map turns with
  | nil => exact ⟨map, [], by cases turns <;> rfl, (append_nil _).symm, .nil⟩
  | cons e es ih =>
    obtain ⟨e', rest', map1, hv1, he1, hkey, -, hall, hturn⟩ := readEntries_record hk (h e mem_cons_self) hv
      (fun x hx => hbehind.last x hx e mem_cons_self) (records share keyBuilder useValue es)
    obtain ⟨hrestored, rfl⟩ := hall (hfits e mem_cons_self)
    have hpos := length_pos_iff.mpr (@record_ne_nil _ share keyBuilder useValue e)
    rw [records_cons, length_append] at hturns
    obtain ⟨turns, rfl⟩ : ∃ n, turns = n + 1 := ⟨turns - 1, by omega⟩
    obtain ⟨map', es', hrest, hentries, hforall⟩ := @ih map1 (forall_mem_cons.mp h).2
      (forall_mem_cons.mp hfits).2 turns hv1 (hbehind.tail he1 hkey) (by omega)
    refine ⟨map', e' :: es', ?_, ?_, .cons hrestored hforall⟩
    · rw [records_cons, hturn, hrest]
    · rw [hentries, he1, append_assoc, singleton_append]

/-- A size that does not fit leaves its key with another one, whatever is read behind it. -/
theorem readEntries_wide (hk : Lawful share keyBuilder) (h : ∀ e ∈ es, Sized share useValue e) (hvariable : share.fixedValue = false)
    (hwide : ∃ e ∈ es, 2 ^ 16 ≤ e.2.size.toNat) {turns : Nat} (hv : map.Valid) (hbehind : Behind map es)
    (hread : readEntries share keyBuilder useValue turns (records share keyBuilder useValue es) map = .ok map') :
    ∃ e ∈ es, ∃ e' ∈ map'.entries, e'.1 = e.1 ∧ e'.2.size ≠ e.2.size := by
  induction es generalizing map turns with
  | nil =>
    obtain ⟨e, he, -⟩ := hwide
    cases he
  | cons e es ih =>
    obtain ⟨e', rest', map1, hv1, he1, hkey, hcut, hall, hturn⟩ := readEntries_record hk (h e mem_cons_self) hv
      (fun x hx => hbehind.last x hx e mem_cons_self) (records share keyBuilder useValue es)
    cases turns with
    | zero =>
      cases hbytes : records share keyBuilder useValue (e :: es) with
      | nil =>
        rw [records_cons] at hbytes
        exact absurd (append_eq_nil_iff.mp hbytes).1 (record_ne_nil e)
      | cons b bytes =>
        rw [hbytes] at hread
        cases hread
    | succ turns =>
      rw [records_cons, hturn] at hread
      by_cases hlt : e.2.size.toNat < 2 ^ 16
      · obtain ⟨-, rfl⟩ := hall (.inr hlt)
        have hrest : ∃ e ∈ es, 2 ^ 16 ≤ e.2.size.toNat := by
          obtain ⟨x, hx, hge⟩ := hwide
          rcases mem_cons.mp hx with rfl | hx
          · omega
          · exact ⟨x, hx, hge⟩
        obtain ⟨x, hx, hfound⟩ := ih (forall_mem_cons.mp h).2 hrest hv1 (hbehind.tail he1 hkey) hread
        exact ⟨x, mem_cons_of_mem _ hx, hfound⟩
      · refine ⟨e, mem_cons_self, e', readEntries_keeps hv1 hread e' (by rw [he1]; simp), hkey, fun heq => ?_⟩
        have hsize := hcut hvariable
        rw [heq] at hsize
        omega

end Reading

/-! ## The segment -/

section Segment

variable {K σ : Type} [LinearOrder K] {z : Zlib σ} {share : Settings} {keyBuilder : KeyBuilder K} {useValue : Bool} {segment compressed : Segment K}

variable {map : TreeMap K Information} {first : K × Information} {rest : List (K × Information)}

theorem keepFirst_spec (hv : map.Valid)
    (h : map.entries = first :: rest) : ∃ map', keepFirst map first.1 = some map' ∧ map'.Valid ∧ map'.entries = [first] := by
  obtain ⟨map1, hremove, hv1, -⟩ := TreeMap.remove_spec hv first.1
  obtain ⟨hv2, he2⟩ := TreeMap.clear_valid hv1
  obtain ⟨map', hput, hv', he'⟩ := TreeMap.put_spec hv2 first.1 first.2
  refine ⟨map', ?_, hv', by rw [he', he2]; rfl⟩
  rw [keepFirst, hremove, find_mem hv (by rw [h]; exact mem_cons_self)]
  show (map1.clear.put first.1 first.2).map Prod.fst = some map'
  rw [hput, map_some]

/-- What is deflated: whether values are kept, and the records. -/
def image (share : Settings) (keyBuilder : KeyBuilder K) (useValue : Bool) (segment : Segment K) : List UInt8 :=
  (if useValue then 1 else 0) :: records share keyBuilder useValue segment.map.entries.tail

/-- What a compressed segment keeps. -/
structure Compressed (z : Zlib σ) (share : Settings) (keyBuilder : KeyBuilder K) (useValue : Bool) (segment compressed : Segment K) : Prop where
  valid : compressed.map.Valid
  first : ∃ first rest, segment.map.entries = first :: rest ∧ compressed.map.entries = [first]
  uncompressedSize : compressed.uncompressedSize = Int32.ofNat (image share keyBuilder useValue segment).length
  packs : Packs z (image share keyBuilder useValue segment) compressed.zipData

variable (hz : z.Whole) (hk : Lawful share keyBuilder) (hc : Clean share useValue segment)

include hz hk hc in
theorem compress_sound
    (h : compress z share keyBuilder useValue segment = .ok compressed) :
    Compressed z share keyBuilder useValue segment compressed ∧
      0 < (share.dataSize useValue segment.vsize).toNat ∧ (share.dataSize useValue segment.vsize).toNat < 2 ^ 63 := by
  unfold compress at h
  obtain ⟨_, halloc, h⟩ := bind_eq_ok.mp h
  obtain ⟨out, hflag, h⟩ := bind_eq_ok.mp h
  obtain ⟨hroom, rfl⟩ := memcpy_eq_ok hflag
  refine ⟨?_, hroom, allocate_eq_ok halloc⟩
  cases hentries : segment.map.entries with
  | nil => exact absurd hentries hc.nonempty
  | cons first rest =>
    rw [hentries] at h
    obtain ⟨out', hwrite, h⟩ := bind_eq_ok.mp h
    obtain ⟨map', hkeep, hv', he'⟩ := keepFirst_spec hc.valid hentries
    obtain ⟨map1, hmap, h⟩ := bind_eq_ok.mp h
    rw [hkeep] at hmap
    cases hmap
    obtain ⟨_, -, h⟩ := bind_eq_ok.mp h
    obtain ⟨zipData, hzip, h⟩ := bind_eq_ok.mp h
    cases h
    have hsized : ∀ e ∈ rest, Sized share useValue e := fun e he => hc.sized e (by rw [hentries]; exact mem_cons_of_mem _ he)
    have hdata : out'.data = image share keyBuilder useValue segment := by
      rw [writeEntries_data hk hsized hwrite, image, hentries]
      rfl
    have hpacks := deflateData_sound hz .init hzip
    rw [hdata] at hpacks
    exact ⟨hv', ⟨first, rest, hentries, he'⟩, by rw [hdata], hpacks⟩

include hz hk hc in
/-- Where the estimate is a size, no copy goes past the end of a buffer. -/
theorem compress_spec
    (hpos : 0 < (share.dataSize useValue segment.vsize).toNat) (hlt : (share.dataSize useValue segment.vsize).toNat < 2 ^ 63)
    (hrecords : (image share keyBuilder useValue segment).length < 2 ^ 31) :
    ∃ compressed, compress z share keyBuilder useValue segment = .ok compressed := by
  have hflag : memcpy ⟨[], (share.dataSize useValue segment.vsize).toNat⟩ [if useValue then 1 else 0] =
      .ok ⟨[if useValue then 1 else 0], (share.dataSize useValue segment.vsize).toNat⟩ := if_pos hpos
  cases hentries : segment.map.entries with
  | nil => exact absurd hentries hc.nonempty
  | cons first rest =>
    have hsized : ∀ e ∈ rest, Sized share useValue e := fun e he => hc.sized e (by rw [hentries]; exact mem_cons_of_mem _ he)
    rw [image, hentries, length_cons, tail_cons] at hrecords
    obtain ⟨out', hwrite, hpos', hlt'⟩ := @writeEntries_ok _ share keyBuilder useValue rest hk hsized
      ⟨[if useValue then 1 else 0], (share.dataSize useValue segment.vsize).toNat⟩ hpos hlt
      (by rw [length_singleton]; omega)
    obtain ⟨map', hkeep, -, -⟩ := keepFirst_spec hc.valid hentries
    have hdata := writeEntries_data hk hsized hwrite
    have hlength : out'.data.length < 2 ^ 31 := by
      rw [hdata, length_append, length_singleton]
      omega
    obtain ⟨zipData, hzip⟩ := @deflateData_ok _ z out'.data hz (z.deflateBound out'.data.length + 1) _ _ _ _ .init (Nat.lt_succ_self _)
      hlength hpos' hlt'
    refine ⟨{ segment with map := map', uncompressedSize := Int32.ofNat out'.data.length, zipData := zipData },
      bind_eq_ok.mpr ⟨(), if_pos hlt, bind_eq_ok.mpr ⟨_, hflag, ?_⟩⟩⟩
    rw [hentries]
    exact bind_eq_ok.mpr ⟨out', hwrite, bind_eq_ok.mpr ⟨map', by rw [hkeep]; rfl, bind_eq_ok.mpr ⟨(), if_pos hlt',
      bind_eq_ok.mpr ⟨zipData, hzip, rfl⟩⟩⟩⟩

/-- A size of 31 bits is kept; another one comes back as one that is too large for a buffer, or too small for the data. -/
theorem uncompressed_size (n : Nat) : (n < 2 ^ 31 ∧ (Int32.ofNat n).toInt64.toUInt64.toNat = n) ∨
    (2 ^ 31 ≤ n ∧ (2 ^ 63 ≤ (Int32.ofNat n).toInt64.toUInt64.toNat ∨ (Int32.ofNat n).toInt64.toUInt64.toNat < n)) := by
  have hint : (Int32.ofNat n).toInt64.toInt = (n : Int).bmod (2 ^ 32) := by
    rw [Int32.toInt_toInt64, Int32.toInt_ofNat']
    rfl
  have hcond : (Int32.ofNat n).toInt64.toInt = if 2 * (Int32.ofNat n).toInt64.toUInt64.toNat < 2 ^ 64
      then ((Int32.ofNat n).toInt64.toUInt64.toNat : Int) else (Int32.ofNat n).toInt64.toUInt64.toNat - 2 ^ 64 :=
    BitVec.toInt_eq_toNat_cond _
  have hlt := (Int32.ofNat n).toInt64.toUInt64.toNat_lt
  rw [hint, Int.bmod_def] at hcond
  split_ifs at hcond <;> omega

theorem Clean.behind (hc : Clean share useValue segment)
    (hentries : segment.map.entries = first :: rest) (hmap : map.entries = [first]) : Behind map rest := by
  have hsorted := hc.valid.sorted
  rw [hentries] at hsorted
  refine ⟨fun x hx e he => ?_, hsorted.of_cons⟩
  rw [hmap] at hx
  rw [mem_singleton.mp hx]
  exact rel_of_pairwise_cons hsorted he

omit [LinearOrder K] in
theorem restored_self (e : K × Information) : Restored useValue e e := ⟨rfl, rfl, rfl, rfl, fun _ => rfl⟩

omit [LinearOrder K] in
theorem exists_restored {after before : List (K × Information)} (h : List.Forall₂ (Restored useValue) after before) {x : K × Information}
    (hx : x ∈ after) : ∃ y ∈ before, Restored useValue x y := by
  induction h with
  | nil => cases hx
  | cons hone _ ih =>
    rcases mem_cons.mp hx with rfl | hx
    · exact ⟨_, mem_cons_self, hone⟩
    · obtain ⟨y, hy, hrestored⟩ := ih hx
      exact ⟨y, mem_cons_of_mem _ hy, hrestored⟩

include hz hk hc in
theorem restores_of_ok
    (hok : Ok share keyBuilder useValue segment) : Restores z share keyBuilder useValue segment := by
  have hlength : (image share keyBuilder useValue segment).length < 2 ^ 31 := by
    have := hok.records
    rw [image, length_cons]
    omega
  obtain ⟨compressed, hcompress⟩ := compress_spec hz hk hc hok.dataSize.1 hok.dataSize.2 hlength
  obtain ⟨⟨hv, ⟨first, rest, hentries, hmap⟩, hsize, hpacks⟩, -⟩ := compress_sound hz hk hc hcompress
  obtain ⟨-, hkept⟩ := (uncompressed_size _).resolve_right fun h => absurd hlength (Nat.not_lt.mpr h.1)
  have hsized : ∀ e ∈ rest, Sized share useValue e := fun e he => hc.sized e (by rw [hentries]; exact mem_cons_of_mem _ he)
  have hfits : ∀ e ∈ rest, share.fixedValue = true ∨ e.2.size.toNat < 2 ^ 16 := by
    intro e he
    cases hf : share.fixedValue with
    | true => exact .inl rfl
    | false => exact .inr (hok.sizes hf e (by rw [hentries]; exact he))
  have hflag : decide ((if useValue then (1 : UInt8) else 0) ≠ 0) = useValue := by cases useValue <;> rfl
  obtain ⟨map', es', hread, he', hforall⟩ := readEntries_records hk hsized hfits hv (hc.behind hentries hmap) (Nat.le_refl _)
  refine ⟨compressed, { compressed with map := map', zipData := [] }, hcompress, ?_, ?_⟩
  · unfold decompress
    refine bind_eq_ok.mpr ⟨(), ?_, ?_⟩
    · rw [hsize, hkept]
      exact if_pos (by omega)
    · rw [hsize, hkept, hpacks.1 _ (Nat.le_refl _), image, hentries]
      exact bind_eq_ok.mpr ⟨map', by rw [hflag]; exact hread, rfl⟩
  · rw [he', hmap, hentries]
    exact .cons (restored_self first) hforall

include hz hk hc in
theorem ok_of_restores
    (h : Restores z share keyBuilder useValue segment) : Ok share keyBuilder useValue segment := by
  obtain ⟨compressed, decompressed, hcompress, hdecompress, hall⟩ := h
  obtain ⟨⟨hv, ⟨first, rest, hentries, hmap⟩, hsize, hpacks⟩, hdata⟩ := compress_sound hz hk hc hcompress
  obtain ⟨_, halloc, hinflate⟩ := bind_eq_ok.mp hdecompress
  have hlt := allocate_eq_ok halloc
  rw [hsize] at hlt hinflate
  rcases uncompressed_size (image share keyBuilder useValue segment).length with ⟨hlength, hkept⟩ | ⟨-, hge | hshort⟩
  · refine ⟨hdata, ?_, ?_⟩
    · rw [image, length_cons] at hlength
      omega
    · intro hvariable e he
      by_contra hwide
      rw [hkept, hpacks.1 _ (Nat.le_refl _), image] at hinflate
      obtain ⟨map', hread, hdone⟩ := bind_eq_ok.mp hinflate
      cases hdone
      have hflag : decide ((if useValue then (1 : UInt8) else 0) ≠ 0) = useValue := by cases useValue <;> rfl
      rw [hentries, tail_cons] at he
      rw [hflag, hentries, tail_cons] at hread
      have hsized : ∀ e ∈ rest, Sized share useValue e := fun e he => hc.sized e (by rw [hentries]; exact mem_cons_of_mem _ he)
      obtain ⟨x, hx, x', hx', hkey, hne⟩ := readEntries_wide hk hsized hvariable ⟨e, he, Nat.not_lt.mp hwide⟩ hv
        (hc.behind hentries hmap) hread
      -- the keys are unique, so the entry with the other size stands for this one
      obtain ⟨y, hy, hrestored⟩ := exists_restored hall hx'
      have hsame : y = x := SortedMap.unique_of_sorted hc.valid.sorted hy (by rw [hentries]; exact mem_cons_of_mem _ hx)
        (hrestored.key.symm.trans hkey)
      rw [hsame] at hrestored
      exact hne hrestored.size
  · exact absurd hlt (Nat.not_lt.mpr hge)
  · rw [hpacks.2 _ hshort] at hinflate
    cases hinflate

/-- The entries come back exactly if the estimate is a size, the records have less than 2^31 bytes, and variable values less than 2^16. -/
theorem restores_iff (hz : z.Whole) (hk : Lawful share keyBuilder) (hc : Clean share useValue segment) :
    Restores z share keyBuilder useValue segment ↔ Ok share keyBuilder useValue segment :=
  ⟨ok_of_restores hz hk hc, restores_of_ok hz hk hc⟩

end Segment

/-! ## Two entries -/

/-- The builder of uinttype keys. -/
def uinttype : KeyBuilder (Fin (2 ^ 32)) where
  toData key := leBytes 4 key.val
  getPackLength _ := 4
  fillKey bytes := (LittleEndian.number 4 bytes).map fun p => Fin.ofNat (2 ^ 32) p.1

theorem uinttype_lawful {share : Settings} (h : share.keySize = -1 ∨ share.keySize = 4) : Lawful share uinttype where
  fixed hf key := by
    rcases h with h | h
    · rw [Settings.fixedKey, h] at hf
      exact absurd hf (by decide)
    · rw [h, uinttype, length_leBytes]
      rfl
  pack _ key := by
    rw [uinttype, length_leBytes]
    rfl
  fill key rest := by
    show (LittleEndian.number 4 (leBytes 4 key.val ++ rest)).map (fun p => Fin.ofNat (2 ^ 32) p.1) = some key
    rw [LittleEndian.number_leBytes, map_some, Nat.mod_eq_of_lt (show key.val < 256 ^ 4 from key.isLt)]
    exact congrArg some (Fin.ext (Nat.mod_eq_of_lt key.isLt))

/-- Two entries with values of one size. -/
def pair (size : UInt32) (data : Option (List UInt8)) : Segment (Fin (2 ^ 32)) where
  map := ⟨3, false, some ⟨0, [(1, ⟨.write, 1, 60, size, data⟩), (2, ⟨.read, 1, 80, size, data⟩)]⟩, 2⟩
  vsize := 2
  uncompressedSize := 0
  zipData := []

theorem pair_clean {share : Settings} {useValue : Bool} {size : UInt32} {data : Option (List UInt8)} (hvariable : share.fixedValue = false)
    (hdata : useValue = true → ∃ d, data = some d ∧ d.length = size.toNat) : Clean share useValue (pair size data) where
  valid := by
    refine ⟨Nat.le_refl 3, ?_, ?_, rfl⟩
    · intro n node hroot
      cases hroot
      exact ⟨trivial, Nat.succ_pos 1, show 2 < 8 by decide⟩
    · exact pairwise_pair.mpr (show (1 : Fin (2 ^ 32)) < 2 by decide)
  nonempty := cons_ne_nil _ _
  fixed hf := by
    rw [hvariable] at hf
    cases hf
  data hu e he := by
    obtain ⟨d, hd, hlength⟩ := hdata hu
    rcases mem_cons.mp he with rfl | he
    · exact ⟨d, hd, hlength⟩
    · rw [mem_singleton.mp he]
      exact ⟨d, hd, hlength⟩

/-- Two bytes of the size are kept. -/
theorem as_built_wide_value : ¬Restores Stored.zlib ⟨4, -1, -1⟩ uinttype false (pair 65536 none) := by
  intro h
  have hclean : Clean ⟨4, -1, -1⟩ false (pair 65536 none) := pair_clean rfl nofun
  have hok := ok_of_restores Stored.stored_whole (uinttype_lawful (.inr rfl)) hclean h
  have hlt : (65536 : UInt32).toNat < 2 ^ 16 := hok.sizes rfl _ (mem_singleton_self _)
  exact absurd hlt (by decide)

theorem pair_restored : Restores Stored.zlib ⟨-1, -1, -1⟩ uinttype true (pair 3 (some [10, 11, 12])) := by
  have hclean : Clean ⟨-1, -1, -1⟩ true (pair 3 (some [10, 11, 12])) := pair_clean rfl fun _ => ⟨_, rfl, rfl⟩
  refine (restores_iff Stored.stored_whole (uinttype_lawful (.inl rfl)) hclean).mpr ⟨by decide, by decide, ?_⟩
  intro _ e he
  rw [mem_singleton.mp he]
  exact show 3 < 2 ^ 16 by decide

end DeepFabric.Store.MemoryCompression
