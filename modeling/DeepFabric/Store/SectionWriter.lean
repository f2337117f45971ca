/-
  DeepFabric.Store.SectionWriter — sections written through a buffer, compressed or not
  (`BufferedRandomAccessFile`, opened to write).

  A plain write is copied into the buffer, which is flushed when it is full. In a compressed section
  what is written goes through `deflate`, and what comes out of it goes into the buffer behind eight
  bytes that are left for the sizes; the buffer doubles when it is full. A block is closed when it
  holds as much as a block may hold, and when the section ends: the sizes go into the eight bytes, and
  the first bit of a section's last block is set. `zlib` is a parameter.
-/
import DeepFabric.Lib.Deflate
import DeepFabric.Store.BufferedFile
import Mathlib.Data.List.GetD

namespace DeepFabric.Store.BufferedFile

open Lib List
open UInt8 (ofInt)
open Buffer (bytes_append bytes_congr_outside leBytes length_bytes store_outside)

/-- What a `uinttype` keeps of a number. -/
def uinttype (x : Int) : Nat := (x % 2 ^ 32).toNat

theorem uinttype_eq {x : Int} {n : Nat} (h : x = n) (h' : n < 2 ^ 32) : uinttype x = n := by
  unfold uinttype
  omega

theorem bytes_ofBytes {l : List UInt8} {p n : Nat} (h : p + n ≤ l.length) : (ofBytes l).bytes p n = (l.drop p).take n := by
  apply ext_getElem
  · rw [length_bytes, length_take, length_drop]
    omega
  · intro j hj hj'
    rw [length_bytes] at hj
    simp only [Buffer.bytes, ofBytes, getElem_map, getElem_range, getElem_take, getElem_drop]
    exact getD_eq_getElem _ _ (by omega)

/-- `z_stream` between two calls. -/
structure ZStream (σ : Type) where
  totalIn : Nat
  totalOut : Nat
  state : σ

inductive FinalizeMode
  | none
  | block
  | done
  deriving DecidableEq

/-- `BufferedRandomAccessFile`, opened to write; `file` is what was flushed. -/
structure Writer (σ : Type) where
  file : List UInt8
  buffer : Buffer
  bufferLength : Nat
  position : Nat
  cursor : Nat
  compressMode : CompressMode
  compressStart : Nat
  inZstream : Option (ZStream σ)

/-- So many bytes of an array, from a place on. -/
def piece (bytes : List UInt8) (p n : Nat) : Except Fault (List UInt8) :=
  if p + n ≤ bytes.length then .ok ((bytes.drop p).take n) else .error .outside

namespace Writer

variable {σ : Type}

def attach (file : List UInt8) (bufferSize : Nat) : Writer σ :=
  { file := file
    buffer := fun _ => 0
    bufferLength := bufferSize
    position := file.length
    cursor := 0
    compressMode := .none
    compressStart := 0
    inZstream := none }

/-- `nbyte::extend`; the size is an `inttype`. -/
def extend (w : Writer σ) (size : Nat) : Except Fault (Writer σ) :=
  if size < 2 ^ 31 then .ok { w with bufferLength := size } else .error .outside

/-- Bytes put into the buffer. -/
def put (w : Writer σ) (p : Nat) (l : List UInt8) : Except Fault (Writer σ) :=
  if l = [] ∨ p + l.length ≤ w.bufferLength then .ok { w with buffer := w.buffer.memcpy p (ofBytes l) 0 l.length } else .error .outside

def flush (w : Writer σ) : Writer σ :=
  if w.cursor ≠ 0 then { w with file := w.file ++ w.buffer.bytes 0 w.cursor, cursor := 0 } else w

/-! ## Compressed writes -/

def initializeCompression (z : Zlib σ) (w : Writer σ) : Writer σ × ZStream σ :=
  ({ w with compressStart := w.cursor }, { totalIn := 0, totalOut := 0, state := z.deflateInit })

def finalizeCompression (w : Writer σ) (strm : ZStream σ) (finalizeMode : FinalizeMode) : Except Fault (Writer σ) :=
  let totalIn := if finalizeMode = .done then 2 ^ 31 ||| strm.totalIn else strm.totalIn
  if w.compressStart + SIZE_RESERVE ≤ w.bufferLength then
    .ok { w with
      buffer := (w.buffer.store w.compressStart (SIZE_RESERVE / 2) totalIn).store (w.compressStart + SIZE_RESERVE / 2) (SIZE_RESERVE / 2) strm.totalOut
      compressStart := 0
      inZstream := none }
  else .error .outside

/-- The buffer doubles in every turn but the first. -/
def double (w : Writer σ) (reserve totalOut : Nat) : Except Fault (Writer σ) :=
  if totalOut ≠ reserve then w.extend (w.bufferLength * 2) else .ok w

/-- The loop of `compressToBuffer`. `totalIn` and `totalOut` are what this cycle took and put out,
`totalOut` from `reserve` on; no buffer doubles more than 31 times. -/
def compressLoop (z : Zlib σ) (bytes : Option (List UInt8)) (offset length : Nat) (flushFlag : Flush) (codes : List DeflateCode)
    (failure : String) (reserve : Nat) : Nat → Writer σ → ZStream σ → Nat → Nat → Except Fault (Nat × Writer σ × ZStream σ)
  | 0, _, _, _, _ => .error .endless
  | fuel + 1, w, strm, totalIn, totalOut => do
    let w ← w.double reserve totalOut
    let availIn := uinttype ((length : Int) - offset - totalIn)
    let input ← bytes.elim (pure []) (piece · (offset + totalIn) availIn)
    let availOut := uinttype ((w.bufferLength : Int) - w.cursor - totalOut)
    let r := z.deflate strm.state input availOut flushFlag
    let w ← w.put (w.cursor + totalOut) r.put
    if r.code ∉ codes then throw (.invalid failure)
    let strm : ZStream σ := ⟨strm.totalIn + r.taken, strm.totalOut + r.put.length, r.state⟩
    if r.code = .ok ∧ r.put.length = availOut then
      compressLoop z bytes offset length flushFlag codes failure reserve fuel w strm (totalIn + r.taken) (totalOut + r.put.length)
    else pure (totalOut + r.put.length, w, strm)

/-- `compressToBuffer` behind its test for a new block: how much it put into the buffer, the eight bytes for the sizes with it. -/
def compressCycle (z : Zlib σ) (w : Writer σ) (bytes : Option (List UInt8)) (offset length : Nat) (finalizeMode : FinalizeMode)
    (codes : List DeflateCode) (failure : String) : Except Fault (Nat × Writer σ) := do
  let reserve := if w.inZstream.isNone then SIZE_RESERVE else 0
  let (w, strm) := w.inZstream.elim (w.initializeCompression z) (fun strm => (w, strm))
  let flushFlag : Flush := if finalizeMode = .none then .noFlush else .finish
  let (written, w, strm) ← compressLoop z bytes offset length flushFlag codes failure reserve 32 w strm 0 reserve
  if finalizeMode = .none then pure (written, { w with inZstream := some strm })
  else do
    let w ← w.finalizeCompression strm finalizeMode
    pure (written, w)

def offsetCodes : List DeflateCode := [.ok, .streamEnd]
def offsetFailure : String := "Buffered random access file error: compress with offset deflate failure"
def byteFailure : String := "Buffered random access file error: compress with byte deflate failure"

def advance (w : Writer σ) (written : Nat) : Writer σ := { w with cursor := w.cursor + written, position := w.position + written }

def blockCompression (z : Zlib σ) (w : Writer σ) : Except Fault (Writer σ) := do
  let (written, w) ← w.compressCycle z none 0 0 .block offsetCodes offsetFailure
  let w := flush { w.advance written with compressMode := .none }
  pure { w with compressMode := .write }

/-- So much more than the block holds is more than a block may hold. -/
def Exceeds (w : Writer σ) (length : Nat) : Prop := ∃ strm ∈ w.inZstream, MAX_UNCOMPRESSED_SIZE ≤ strm.totalIn + length

instance (w : Writer σ) (length : Nat) : Decidable (w.Exceeds length) :=
  decidable_of_iff (w.inZstream.any (fun strm => decide (MAX_UNCOMPRESSED_SIZE ≤ strm.totalIn + length)) = true)
    (by simp only [Option.any_eq_true, decide_eq_true_eq, Exceeds, Option.mem_def])

/-- A new block is forced where this one would hold too much. -/
def forceBlock (z : Zlib σ) (w : Writer σ) (length : Nat) : Except Fault (Writer σ) := if w.Exceeds length then w.blockCompression z else .ok w

def compressToBuffer (z : Zlib σ) (w : Writer σ) (bytes : Option (List UInt8)) (offset length : Nat) (finalizeMode : FinalizeMode) :
    Except Fault (Nat × Writer σ) := do
  let w ← if finalizeMode = .none then w.forceBlock z length else pure w
  w.compressCycle z bytes offset length finalizeMode offsetCodes offsetFailure

/-- `compressToBuffer(b)`. -/
def compressByteToBuffer (z : Zlib σ) (w : Writer σ) (b : UInt8) : Except Fault (Nat × Writer σ) := do
  let w ← w.forceBlock z 1
  w.compressCycle z (some [b]) 0 1 .none [.ok] byteFailure

/-! ## Writes -/

def setCompress (z : Zlib σ) (w : Writer σ) (mode : CompressMode) : Except Fault (Writer σ) := do
  let w ← if w.compressMode = .write then do
      let (written, w) ← w.compressToBuffer z none 0 0 .done
      pure (w.advance written)
    else pure w
  pure { w with compressMode := mode }

/-- `write(b)`. -/
def write (z : Zlib σ) (w : Writer σ) (b : Int) : Except Fault (Writer σ) :=
  if w.compressMode = .write then do
    let (length, w) ← w.compressByteToBuffer z (ofInt b)
    pure (w.advance length)
  else do
    let w := if w.bufferLength ≤ w.cursor then w.flush else w
    let w ← w.put w.cursor [ofInt b]
    pure (w.advance 1)

/-- `write(bytes, offset, length)`. -/
def writeBytes (z : Zlib σ) (w : Writer σ) (bytes : List UInt8) (offset length : Nat) : Except Fault (Writer σ) :=
  if w.compressMode = .write then do
    let (length, w) ← w.compressToBuffer z (some bytes) offset length .none
    pure (w.advance length)
  else do
    let full := (w.bufferLength : Int) ≤ inttype (w.cursor + length)
    let w := if full then w.flush else w
    let l ← piece bytes offset length
    if full ∧ w.bufferLength ≤ length then
      -- more than the buffer holds goes into the file itself
      pure { w with file := w.file ++ l, position := w.position + length }
    else do
      let w ← w.put w.cursor l
      pure (w.advance length)

/-! ## A cycle of `deflate` -/

variable {z : Zlib σ} {w w₁ w' : Writer σ} {strm : ZStream σ} {bytes i o l : List UInt8} {f : Flush} {full : Bool}
  {start reserve fuel length k n p q T : Nat} {codes : List DeflateCode} {failure : String}

theorem put_after (ho : w.buffer.bytes q o.length = o) (hfit : q + o.length + l.length ≤ w.bufferLength) :
    ∃ b, w.put (q + o.length) l = .ok { w with buffer := b } ∧ b.bytes q (o ++ l).length = o ++ l ∧ ∀ j < q + o.length, b j = w.buffer j := by
  have hsame : ∀ j < q + o.length, w.buffer.memcpy (q + o.length) (ofBytes l) 0 l.length j = w.buffer j :=
    fun j hj => Buffer.memcpy_outside (.inl hj)
  refine ⟨_, if_pos (.inr hfit), ?_, hsame⟩
  rw [length_append, bytes_append, Buffer.bytes_memcpy, bytes_ofBytes (by omega), drop_zero, take_length,
    bytes_congr_outside fun j _ hj => hsame j hj, ho]

/-- Of the buffer only what lies behind `start` was changed, and it may be longer. -/
structure Grown (w w' : Writer σ) (start : Nat) : Prop where
  eq : w' = { w with buffer := w'.buffer, bufferLength := w'.bufferLength }
  same : ∀ j < start, w'.buffer j = w.buffer j
  longer : w.bufferLength ≤ w'.bufferLength

theorem Grown.trans {w'' : Writer σ} (h : Grown w w' start) (h' : Grown w' w'' start) : Grown w w'' start := by
  refine ⟨?_, fun j hj => (h'.same j hj).trans (h.same j hj), Nat.le_trans h.longer h'.longer⟩
  rw [h'.eq, h.eq]

theorem Grown.doubled : Grown w { w with bufferLength := w.bufferLength * 2 } start := ⟨rfl, fun _ _ => rfl, Nat.le_mul_of_pos_right _ (by decide)⟩

theorem Grown.cursor (h : Grown w w' start) : w'.cursor = w.cursor := by rw [h.eq]

theorem Grown.compressStart (h : Grown w w' start) : w'.compressStart = w.compressStart := by rw [h.eq]

theorem Grown.compressMode (h : Grown w w' start) : w'.compressMode = w.compressMode := by rw [h.eq]

theorem Grown.before (h : Grown w w' (start + n)) : w'.file ++ w'.buffer.bytes 0 start = w.file ++ w.buffer.bytes 0 start := by
  rw [bytes_congr_outside fun j _ hj => h.same j (by omega), h.eq]

theorem Grown.position (h : Grown w w' start) (hw : w.position = w.file.length + w.cursor) : w'.position = w'.file.length + w'.cursor := by
  rw [h.eq]
  exact hw

/-- The stream behind `start`: what it took so far, and what it put out, which lies behind the eight bytes. -/
structure Filled (z : Zlib σ) (w : Writer σ) (strm : ZStream σ) (start : Nat) (f : Flush) (full : Bool) (i o : List UInt8) : Prop where
  totalIn : strm.totalIn = i.length
  totalOut : strm.totalOut = o.length
  stream : z.Stream f i o full strm.state
  out : w.buffer.bytes (start + SIZE_RESERVE) o.length = o
  lt : w.bufferLength < 2 ^ 31

/-- One turn, where the buffer has room behind what was put out so far. -/
theorem compressLoop_turn (failure : String) (fuel : Nat) {input : Option (List UInt8)} {offset availIn : Nat} {flushFlag : Flush} (hz : z.Documented)
    (hext : w.double reserve T = .ok w₁) (h : Filled z w₁ strm start f full i o)
    (hput : w₁.cursor + T = start + SIZE_RESERVE + o.length) (hroom : w₁.cursor + T < w₁.bufferLength)
    (havail : uinttype ((length : Int) - offset - k) = availIn) (hin : input.elim (pure []) (piece · (offset + k) availIn) = .ok l)
    (hcode : (z.deflate strm.state l (w₁.bufferLength - (w₁.cursor + T)) flushFlag).code ∈ codes) :
    ∃ b, b.bytes (start + SIZE_RESERVE) (o ++ (z.deflate strm.state l (w₁.bufferLength - (w₁.cursor + T)) flushFlag).put).length =
          o ++ (z.deflate strm.state l (w₁.bufferLength - (w₁.cursor + T)) flushFlag).put ∧
      Grown w₁ { w₁ with buffer := b } (start + SIZE_RESERVE) ∧
      ∀ r, z.deflate strm.state l (w₁.bufferLength - (w₁.cursor + T)) flushFlag = r →
        compressLoop z input offset length flushFlag codes failure reserve (fuel + 1) w strm k T =
          if r.code = .ok ∧ r.put.length = w₁.bufferLength - (w₁.cursor + T) then
            compressLoop z input offset length flushFlag codes failure reserve fuel { w₁ with buffer := b }
              ⟨strm.totalIn + r.taken, strm.totalOut + r.put.length, r.state⟩ (k + r.taken) (T + r.put.length)
          else .ok (T + r.put.length, { w₁ with buffer := b }, ⟨strm.totalIn + r.taken, strm.totalOut + r.put.length, r.state⟩) := by
  have hlt := h.lt
  have hout : uinttype ((w₁.bufferLength : Int) - w₁.cursor - T) = w₁.bufferLength - (w₁.cursor + T) := uinttype_eq (by omega) (by omega)
  have hfits := hz.put_le strm.state l (w₁.bufferLength - (w₁.cursor + T)) flushFlag
  obtain ⟨b, hb, hbytes, hsame⟩ := put_after (l := (z.deflate strm.state l (w₁.bufferLength - (w₁.cursor + T)) flushFlag).put) h.out (by omega)
  refine ⟨b, hbytes, ⟨rfl, fun j hj => hsame j (by omega), Nat.le_refl _⟩, fun r hr => ?_⟩
  subst hr
  rw [← hput] at hb
  rw [compressLoop, hext]
  simp only [bind, Except.bind, havail, hin, hout, hb, hcode, not_true_eq_false, if_false]
  rfl

/-- After a turn that used up its room, the next one has as much again. -/
theorem double_full (hT : T ≠ reserve) (hfull : w.bufferLength < 2 ^ 30) : w.double reserve T = .ok { w with bufferLength := w.bufferLength * 2 } :=
  (if_pos hT).trans (if_pos (by omega))

/-- All of a piece is taken, over as many turns as the room for it needs. -/
theorem compressLoop_piece (failure : String) (hz : z.Documented) (hcodes : .ok ∈ codes) (hlen : length ≤ bytes.length) (hint : length < 2 ^ 31) (hk : k ≤ length)
    (hext : w.double reserve T = .ok w₁) (h : Filled z w₁ strm start .noFlush full i o) (hput : w₁.cursor + T = start + SIZE_RESERVE + o.length)
    (hroom : w₁.cursor + T < w₁.bufferLength) (hT : reserve ≤ T) (hready : k < length ∨ full = true)
    (hbound : start + SIZE_RESERVE + z.deflateBound (i.length + (length - k)) < 2 ^ 30) (hfuel : 2 ^ 31 ≤ w₁.bufferLength * 2 ^ fuel) :
    ∃ T' w' strm' o', compressLoop z (some bytes) 0 length .noFlush codes failure reserve (fuel + 1) w strm k T = .ok (T', w', strm') ∧
      Filled z w' strm' start .noFlush false (i ++ (bytes.take length).drop k) o' ∧ Grown w₁ w' (start + SIZE_RESERVE) ∧
      w'.cursor + T' = start + SIZE_RESERVE + o'.length ∧ w'.cursor + T' < w'.bufferLength := by
  induction fuel generalizing w w₁ strm k T i o full with
  | zero => exact absurd h.lt (by omega)
  | succ fuel ih =>
    have hlt := h.lt
    have hl : ((bytes.take length).drop k).length = length - k := by rw [length_drop, length_take_of_le hlen]
    have hin : (some bytes).elim (pure []) (piece · (0 + k) (length - k)) = .ok ((bytes.take length).drop k) := by
      refine (if_pos (by omega)).trans ?_
      rw [Nat.zero_add, drop_take]
    have hok : (z.deflate strm.state ((bytes.take length).drop k) (w₁.bufferLength - (w₁.cursor + T)) .noFlush).code = .ok := by
      refine hz.progress _ _ h.stream (by omega) ?_
      rcases hready with hmore | hfull
      · exact .inl (ne_nil_of_length_pos (by omega))
      · exact .inr hfull
    obtain ⟨b, hbytes, hgrown, hturn⟩ := compressLoop_turn failure (fuel + 1) hz hext h hput hroom
      (uinttype_eq (by omega) (by omega) : uinttype ((length : Int) - (0 : Nat) - k) = length - k) hin (by rw [hok]; exact hcodes)
    have hstream := h.stream.piece ((bytes.take length).drop k) (w₁.bufferLength - (w₁.cursor + T)) hok
    have htaken := hz.taken_le strm.state ((bytes.take length).drop k) (w₁.bufferLength - (w₁.cursor + T)) .noFlush
    have htakes := hz.takes ((bytes.take length).drop k) (w₁.bufferLength - (w₁.cursor + T)) h.stream hok
    have hfits := hz.put_le strm.state ((bytes.take length).drop k) (w₁.bufferLength - (w₁.cursor + T)) .noFlush
    revert hturn hstream htaken htakes hfits hbytes hok
    generalize z.deflate strm.state ((bytes.take length).drop k) (w₁.bufferLength - (w₁.cursor + T)) .noFlush = r
    intro hok hbytes hturn hstream htaken htakes hfits
    rw [hl] at htaken htakes
    have hi : (i ++ ((bytes.take length).drop k).take r.taken).length = i.length + r.taken := by
      rw [length_append, length_take, hl, Nat.min_eq_left htaken]
    have hfilled : Filled z { w₁ with buffer := b } ⟨strm.totalIn + r.taken, strm.totalOut + r.put.length, r.state⟩ start .noFlush
        (decide (r.put.length = w₁.bufferLength - (w₁.cursor + T))) (i ++ ((bytes.take length).drop k).take r.taken) (o ++ r.put) :=
      ⟨by rw [h.totalIn, hi], by rw [h.totalOut, length_append], hstream, hbytes, hlt⟩
    have hput' : w₁.cursor + (T + r.put.length) = start + SIZE_RESERVE + (o ++ r.put).length := by
      rw [length_append]
      omega
    rw [hturn r rfl]
    by_cases hmore : r.put.length = w₁.bufferLength - (w₁.cursor + T)
    · -- the buffer is full: it doubles, and what is left of the piece is given again
      have hrest : i.length + r.taken + (length - (k + r.taken)) = i.length + (length - k) := by omega
      have hbounded := Nat.le_trans (hz.bounded hstream) (hz.bound_mono (Nat.le_add_right _ (length - (k + r.taken))))
      rw [hi, hrest] at hbounded
      have hfull : w₁.bufferLength < 2 ^ 30 := by omega
      rw [if_pos ⟨hok, hmore⟩]
      have hdouble : ({ w₁ with buffer := b } : Writer σ).double reserve (T + r.put.length) =
          .ok { w₁ with buffer := b, bufferLength := w₁.bufferLength * 2 } := double_full (by omega) hfull
      have hfuel' : 2 ^ 31 ≤ w₁.bufferLength * 2 * 2 ^ fuel := by
        rw [Nat.pow_succ] at hfuel
        rw [Nat.mul_assoc, Nat.mul_comm 2]
        exact hfuel
      obtain ⟨T', w', strm', o', hrun, hfilled', hgrown', hend⟩ := ih (k := k + r.taken) (by omega) hdouble
        { hfilled with lt := show w₁.bufferLength * 2 < 2 ^ 31 by omega } hput' (show w₁.cursor + (T + r.put.length) < w₁.bufferLength * 2 by omega)
        (by omega) (.inr (decide_eq_true hmore)) (by rw [hi, hrest]; exact hbound) hfuel'
      refine ⟨T', w', strm', o', hrun, ?_, hgrown.trans (Grown.doubled.trans hgrown'), hend⟩
      rw [append_assoc, ← drop_drop, take_append_drop] at hfilled'
      exact hfilled'
    · rw [if_neg fun hboth => hmore hboth.2]
      rw [htakes (by omega), take_of_length_le (Nat.le_of_eq hl), decide_eq_false hmore] at hfilled
      refine ⟨_, _, _, _, rfl, ?_, hgrown, hput', ?_⟩
      · rw [htakes (by omega)]
        exact hfilled
      · show w₁.cursor + (T + r.put.length) < w₁.bufferLength
        omega

/-- The stream ends, over as many turns as the room for it needs. -/
theorem compressLoop_finish (failure : String) (hz : z.Documented) (hcodes : .ok ∈ codes) (hcodes' : .streamEnd ∈ codes) (hext : w.double reserve T = .ok w₁)
    (h : Filled z w₁ strm start f full i o) (hput : w₁.cursor + T = start + SIZE_RESERVE + o.length) (hroom : w₁.cursor + T < w₁.bufferLength)
    (hT : reserve ≤ T) (hbound : start + SIZE_RESERVE + z.deflateBound i.length < 2 ^ 30) (hfuel : 2 ^ 31 ≤ w₁.bufferLength * 2 ^ fuel) :
    ∃ T' w' o' s, compressLoop z none 0 0 .finish codes failure reserve (fuel + 1) w strm 0 T = .ok (T', w', ⟨i.length, o'.length, s⟩) ∧
      w'.buffer.bytes (start + SIZE_RESERVE) o'.length = o' ∧ Grown w₁ w' (start + SIZE_RESERVE) ∧
      w'.cursor + T' = start + SIZE_RESERVE + o'.length ∧ w'.cursor + T' ≤ w'.bufferLength ∧ w'.bufferLength < 2 ^ 31 ∧
      o'.length ≤ z.deflateBound i.length ∧ o' ≠ [] ∧ ∀ room, i.length ≤ room → z.inflate o' room = some i := by
  induction fuel generalizing w w₁ strm T f o full with
  | zero => exact absurd h.lt (by omega)
  | succ fuel ih =>
    have hlt := h.lt
    have hdone := hz.finishes (w₁.bufferLength - (w₁.cursor + T)) h.stream (by omega)
    have hcode : (z.deflate strm.state [] (w₁.bufferLength - (w₁.cursor + T)) .finish).code ∈ codes := by
      rcases hdone with hend | ⟨hok, -⟩
      · rwa [hend]
      · rwa [hok]
    obtain ⟨b, hbytes, hgrown, hturn⟩ := compressLoop_turn failure (fuel + 1) (l := []) hz hext h hput
      hroom (uinttype_eq rfl (by decide) : uinttype ((0 : Nat) - (0 : Nat) - (0 : Nat)) = 0) (rfl : (Option.none).elim _ _ = _) hcode
    have hstream := h.stream.finish (w₁.bufferLength - (w₁.cursor + T))
    have hends := hz.ended_bounded (w₁.bufferLength - (w₁.cursor + T)) h.stream
    have hne := hz.nonempty (w₁.bufferLength - (w₁.cursor + T)) h.stream
    have hundone := hz.undone (w₁.bufferLength - (w₁.cursor + T)) h.stream
    have htaken := hz.taken_le strm.state [] (w₁.bufferLength - (w₁.cursor + T)) .finish
    have hfits := hz.put_le strm.state [] (w₁.bufferLength - (w₁.cursor + T)) .finish
    revert hdone hturn hstream hends hne hundone htaken hfits hbytes
    generalize z.deflate strm.state [] (w₁.bufferLength - (w₁.cursor + T)) .finish = r
    intro hdone hbytes hturn hstream hends hne hundone htaken hfits
    have htaken : r.taken = 0 := Nat.le_zero.mp htaken
    have hput' : w₁.cursor + (T + r.put.length) = start + SIZE_RESERVE + (o ++ r.put).length := by
      rw [length_append]
      omega
    rw [hturn r rfl, htaken, Nat.zero_add]
    rcases hdone with hend | ⟨hok, hfull⟩
    · rw [if_neg (by rw [hend]; exact fun h => nomatch h.1)]
      refine ⟨T + r.put.length, { w₁ with buffer := b }, o ++ r.put, r.state, ?_, hbytes, hgrown, hput', ?_, hlt, hends hend, hne hend, hundone hend⟩
      · rw [h.totalIn, h.totalOut, length_append]
        rfl
      · show w₁.cursor + (T + r.put.length) ≤ w₁.bufferLength
        omega
    · have hbounded := hz.bounded (hstream hok)
      have hdouble : ({ w₁ with buffer := b } : Writer σ).double reserve (T + r.put.length) =
          .ok { w₁ with buffer := b, bufferLength := w₁.bufferLength * 2 } := double_full (by omega) (show w₁.bufferLength < 2 ^ 30 by omega)
      have hfuel' : 2 ^ 31 ≤ w₁.bufferLength * 2 * 2 ^ fuel := by
        rw [Nat.pow_succ] at hfuel
        rw [Nat.mul_assoc, Nat.mul_comm 2]
        exact hfuel
      have hfilled : Filled z { w₁ with buffer := b, bufferLength := w₁.bufferLength * 2 } ⟨strm.totalIn + 0, strm.totalOut + r.put.length, r.state⟩
          start .finish _ i (o ++ r.put) :=
        ⟨h.totalIn, by rw [length_append, h.totalOut], hstream hok, hbytes, show w₁.bufferLength * 2 < 2 ^ 31 by omega⟩
      obtain ⟨T', w', o', s, hrun, hbytes', hgrown', hrest⟩ := ih hdouble hfilled hput'
        (show w₁.cursor + (T + r.put.length) < w₁.bufferLength * 2 by omega) (by omega) hfuel'
      rw [if_pos ⟨hok, hfull⟩]
      exact ⟨T', w', o', s, hrun, hbytes', hgrown.trans (Grown.doubled.trans hgrown'), hrest⟩

end Writer

/-! ## Blocks -/

/-- What a block was made of, and what `deflate` made of it. -/
structure Block where
  data : List UInt8
  packed : List UInt8

/-- As it lies in the file. -/
def Block.frame (b : Block) (final : Bool) : List UInt8 :=
  leBytes (SIZE_RESERVE / 2) (if final then 2 ^ 31 ||| b.data.length else b.data.length) ++
    leBytes (SIZE_RESERVE / 2) b.packed.length ++ b.packed

structure Block.Sound {σ : Type} (z : Zlib σ) (b : Block) : Prop where
  undone (room : Nat) : b.data.length ≤ room → z.inflate b.packed room = some b.data
  nonempty : b.packed ≠ []
  data_lt : b.data.length < 2 ^ 31
  packed_lt : b.packed.length < 2 ^ 31

/-- Blocks that others follow: none is empty. -/
def Block.Followed {σ : Type} (z : Zlib σ) (blocks : List Block) : Prop := ∀ b ∈ blocks, b.Sound z ∧ b.data ≠ []

namespace Writer

variable {σ : Type} {z : Zlib σ} {w w₁ w' : Writer σ} {strm : ZStream σ} {content bytes i o l : List UInt8} {reserve length k n : Nat}
  {codes : List DeflateCode} {failure : String}

/-- What was written so far, in the file and in the buffer. -/
structure Holds (w : Writer σ) (content : List UInt8) : Prop where
  content : w.file ++ w.buffer.bytes 0 w.cursor = content
  position : w.position = w.file.length + w.cursor
  cursor_le : w.cursor ≤ w.bufferLength
  lt : w.bufferLength < 2 ^ 31

/-- A block that took `i` so far is open behind `content`; the next cycle puts out from `reserve` on. -/
structure Prepared (z : Zlib σ) (w : Writer σ) (strm : ZStream σ) (reserve : Nat) (content i : List UInt8) : Prop where
  filled : ∃ o, Filled z w strm w.compressStart .noFlush false i o ∧ w.cursor + reserve = w.compressStart + SIZE_RESERVE + o.length
  room : w.cursor + reserve < w.bufferLength
  content : w.file ++ w.buffer.bytes 0 w.compressStart = content
  position : w.position = w.file.length + w.cursor

/-- What a cycle begins with. -/
def Begins (z : Zlib σ) (w : Writer σ) (content i : List UInt8) : Prop :=
  ∃ w₁ strm, w.inZstream.elim (w.initializeCompression z) (fun strm => (w, strm)) = (w₁, strm) ∧
    Prepared z w₁ strm (if w.inZstream.isNone then SIZE_RESERVE else 0) content i ∧ w₁.compressMode = w.compressMode

/-- The block that is open. -/
structure Packing (z : Zlib σ) (w : Writer σ) (content i : List UInt8) : Prop where
  strm : ∃ strm, w.inZstream = some strm ∧ Prepared z w strm 0 content i
  bound : w.compressStart + SIZE_RESERVE + z.deflateBound i.length < 2 ^ 30
  nonempty : i ≠ []
  short : i.length < 2 ^ 31

theorem Packing.begins (h : Packing z w content i) : Begins z w content i := by
  obtain ⟨strm, hstrm, hprepared⟩ := h.strm
  refine ⟨w, strm, by rw [hstrm]; rfl, ?_, rfl⟩
  rw [hstrm]
  exact hprepared

theorem Holds.begins (h : Holds w content) (hnone : w.inZstream = none) (hroom : w.cursor + SIZE_RESERVE < w.bufferLength) :
    Begins z w content [] := by
  refine ⟨(w.initializeCompression z).1, (w.initializeCompression z).2, by rw [hnone]; rfl, ?_, rfl⟩
  rw [hnone]
  exact ⟨⟨[], ⟨rfl, rfl, .init, Buffer.bytes_zero, h.lt⟩, rfl⟩, hroom, h.content, h.position⟩

theorem Prepared.fuel (h : Prepared z w strm reserve content i) : 2 ^ 31 ≤ w.bufferLength * 2 ^ 31 :=
  Nat.le_mul_of_pos_left _ (Nat.lt_of_le_of_lt (Nat.zero_le _) h.room)

theorem double_self (w : Writer σ) (reserve : Nat) : w.double reserve reserve = .ok w := if_neg fun h => h rfl

theorem compressStart_of_begin (h : w.inZstream.elim (w.initializeCompression z) (fun strm => (w, strm)) = (w₁, strm)) :
    (if w.inZstream.isNone then w.cursor else w.compressStart) = w₁.compressStart := by
  cases hs : w.inZstream with
  | none =>
    rw [hs] at h
    cases h
    rfl
  | some strm' =>
    rw [hs] at h
    cases h
    rfl

theorem compressCycle_piece (failure : String) (hz : z.Documented) (hcodes : .ok ∈ codes) (h : Begins z w content i) (hlen : length ≤ bytes.length)
    (hpos : 0 < length) (hshort : i.length + length < 2 ^ 31)
    (hbound : (if w.inZstream.isNone then w.cursor else w.compressStart) + SIZE_RESERVE + z.deflateBound (i.length + length) < 2 ^ 30) :
    ∃ written w', w.compressCycle z (some bytes) 0 length .none codes failure = .ok (written, w') ∧
      Packing z (w'.advance written) content (i ++ bytes.take length) ∧ w'.compressMode = w.compressMode := by
  obtain ⟨w₁, strm, hbegin, hprepared, hmode⟩ := h
  obtain ⟨o, hfilled, hput⟩ := hprepared.filled
  rw [compressStart_of_begin hbegin] at hbound
  obtain ⟨T, w', strm', o', hrun, hfilled', hgrown, hput', hroom'⟩ := compressLoop_piece failure hz hcodes hlen (by omega) (Nat.zero_le _)
    (double_self w₁ _) hfilled hput hprepared.room (Nat.le_refl _) (.inl hpos) hbound hprepared.fuel
  refine ⟨T, { w' with inZstream := some strm' }, ?_, ?_, ?_⟩
  · rw [compressCycle, hbegin]
    simp only [if_true, hrun, bind, Except.bind]
    rfl
  · rw [drop_zero, ← hgrown.compressStart] at hfilled'
    have hlen' : (i ++ bytes.take length).length = i.length + length := by rw [length_append, length_take_of_le hlen]
    refine ⟨⟨strm', rfl, ⟨⟨o', ⟨hfilled'.1, hfilled'.2, hfilled'.3, hfilled'.4, hfilled'.5⟩, ?_⟩, hroom', ?_, ?_⟩⟩, ?_, ?_, ?_⟩
    · show w'.cursor + T + 0 = w'.compressStart + _ + _
      rw [Nat.add_zero, hput', hgrown.compressStart]
    · show w'.file ++ w'.buffer.bytes 0 w'.compressStart = content
      rw [hgrown.compressStart, hgrown.before, hprepared.content]
    · show w'.position + T = w'.file.length + (w'.cursor + T)
      rw [hgrown.position hprepared.position, Nat.add_assoc]
    · show w'.compressStart + _ + z.deflateBound (i ++ bytes.take length).length < _
      rw [hgrown.compressStart, hlen']
      exact hbound
    · exact append_ne_nil_of_right_ne_nil _ (ne_nil_of_length_pos (by rw [length_take_of_le hlen]; exact hpos))
    · rw [hlen']
      exact hshort
  · exact hgrown.compressMode.trans hmode

/-- The sizes in the eight bytes in front of what was put out. -/
theorem bytes_frame {b : Buffer} {start v : Nat} (ho : b.bytes (start + SIZE_RESERVE) o.length = o) :
    ((b.store start (SIZE_RESERVE / 2) v).store (start + SIZE_RESERVE / 2) (SIZE_RESERVE / 2) o.length).bytes 0
        (start + SIZE_RESERVE + o.length) =
      b.bytes 0 start ++ (leBytes (SIZE_RESERVE / 2) v ++ leBytes (SIZE_RESERVE / 2) o.length ++ o) := by
  have hin : start + SIZE_RESERVE = start + (SIZE_RESERVE / 2 + SIZE_RESERVE / 2) := rfl
  have hbefore : ∀ p m, p + m ≤ start → ((b.store start (SIZE_RESERVE / 2) v).store (start + SIZE_RESERVE / 2) (SIZE_RESERVE / 2) o.length).bytes p m =
      b.bytes p m := fun p m h => bytes_congr_outside fun j _ hj => by
    rw [store_outside (by omega), store_outside (by omega)]
  have hbehind : ∀ m, ((b.store start (SIZE_RESERVE / 2) v).store (start + SIZE_RESERVE / 2) (SIZE_RESERVE / 2) o.length).bytes
      (start + SIZE_RESERVE) m = b.bytes (start + SIZE_RESERVE) m := fun m => bytes_congr_outside fun j hj _ => by
    rw [store_outside (by omega), store_outside (by omega)]
  have hfirst : ((b.store start (SIZE_RESERVE / 2) v).store (start + SIZE_RESERVE / 2) (SIZE_RESERVE / 2) o.length).bytes start (SIZE_RESERVE / 2) =
      leBytes (SIZE_RESERVE / 2) v := by
    rw [bytes_congr_outside fun j _ hj => store_outside (.inl hj), Buffer.bytes_store]
  rw [bytes_append, Nat.zero_add, hbehind, ho, hin, bytes_append, Nat.zero_add, hbefore _ _ (by omega), bytes_append, hfirst,
    Buffer.bytes_store, append_assoc, append_assoc]

theorem finalizeCompression_holds (s : σ) (finalizeMode : FinalizeMode) (ho : w.buffer.bytes (w.compressStart + SIZE_RESERVE) o.length = o)
    (hput : w.cursor + n = w.compressStart + SIZE_RESERVE + o.length) (hfits : w.cursor + n ≤ w.bufferLength) (hlt : w.bufferLength < 2 ^ 31)
    (hposition : w.position = w.file.length + w.cursor) :
    ∃ w', w.finalizeCompression ⟨i.length, o.length, s⟩ finalizeMode = .ok w' ∧
      Holds (w'.advance n) (w.file ++ w.buffer.bytes 0 w.compressStart ++ Block.frame ⟨i, o⟩ (decide (finalizeMode = .done))) ∧
      w'.inZstream = none ∧ w'.compressMode = w.compressMode ∧ w'.bufferLength = w.bufferLength := by
  refine ⟨_, if_pos (by omega), ⟨?_, ?_, hfits, hlt⟩, rfl, rfl, rfl⟩
  · show w.file ++ Buffer.bytes (Buffer.store (w.buffer.store w.compressStart (SIZE_RESERVE / 2)
        (if finalizeMode = .done then 2 ^ 31 ||| i.length else i.length)) _ _ o.length) 0 (w.cursor + n) = _
    rw [hput, bytes_frame ho, ← append_assoc]
    simp only [Block.frame, decide_eq_true_eq]
  · show w.position + n = w.file.length + (w.cursor + n)
    rw [hposition, Nat.add_assoc]

theorem compressCycle_finish (hz : z.Documented) (h : Begins z w content i) (finalizeMode : FinalizeMode) (hmode : finalizeMode ≠ .none)
    (hshort : i.length < 2 ^ 31)
    (hbound : (if w.inZstream.isNone then w.cursor else w.compressStart) + SIZE_RESERVE + z.deflateBound i.length < 2 ^ 30) :
    ∃ written w' packed, w.compressCycle z none 0 0 finalizeMode offsetCodes offsetFailure = .ok (written, w') ∧
      Block.Sound z ⟨i, packed⟩ ∧ Holds (w'.advance written) (content ++ Block.frame ⟨i, packed⟩ (decide (finalizeMode = .done))) ∧
      w'.inZstream = none ∧ w'.compressMode = w.compressMode ∧ SIZE_RESERVE < w'.bufferLength := by
  obtain ⟨w₁, strm, hbegin, hprepared, hmode'⟩ := h
  obtain ⟨o, hfilled, hput⟩ := hprepared.filled
  rw [compressStart_of_begin hbegin] at hbound
  obtain ⟨T, w₂, packed, s, hrun, hbytes, hgrown, hput', hroom', hlt, hpacked, hne, hundone⟩ := compressLoop_finish offsetFailure hz
    (show .ok ∈ offsetCodes by decide) (by decide) (double_self w₁ _) hfilled hput hprepared.room (Nat.le_refl _) hbound hprepared.fuel
  rw [← hgrown.compressStart] at hbytes hput'
  obtain ⟨w', hfinal, hholds, hstream, hmode'', hlong⟩ := finalizeCompression_holds (i := i) s finalizeMode hbytes hput' hroom' hlt
    (hgrown.position hprepared.position)
  rw [hgrown.compressStart, hgrown.before, hprepared.content] at hholds
  have hpos := length_pos_of_ne_nil hne
  refine ⟨T, w', packed, ?_, ⟨hundone, hne, hshort, show packed.length < 2 ^ 31 by omega⟩, hholds, hstream,
    hmode''.trans (hgrown.compressMode.trans hmode'), by omega⟩
  rw [compressCycle, hbegin]
  simp only [if_neg hmode, hrun, hfinal, bind, Except.bind]
  rfl

theorem Holds.flush (h : Holds w content) :
    Holds w.flush content ∧ w.flush.cursor = 0 ∧ w.flush.bufferLength = w.bufferLength ∧ w.flush.compressMode = w.compressMode ∧
      w.flush.inZstream = w.inZstream := by
  unfold Writer.flush
  by_cases hcursor : w.cursor = 0
  · rw [if_neg (not_not.mpr hcursor)]
    exact ⟨h, hcursor, rfl, rfl, rfl⟩
  · rw [if_pos hcursor]
    refine ⟨⟨?_, ?_, Nat.zero_le _, h.lt⟩, rfl, rfl, rfl, rfl⟩
    · rw [Buffer.bytes_zero, append_nil, h.content]
    · rw [length_append, length_bytes, Nat.add_zero]
      exact h.position

theorem Holds.file_flush (h : Holds w content) : w.flush.file = content := by
  obtain ⟨hholds, hcursor, -⟩ := h.flush
  have hall := hholds.content
  rwa [hcursor, Buffer.bytes_zero, append_nil] at hall

theorem Packing.bound_start (h : Packing z w content i) :
    (if w.inZstream.isNone then w.cursor else w.compressStart) + SIZE_RESERVE + z.deflateBound i.length < 2 ^ 30 := by
  obtain ⟨strm, hstrm, -⟩ := h.strm
  rw [hstrm]
  exact h.bound

theorem blockCompression_holds (hz : z.Documented) (h : Packing z w content i) :
    ∃ w' packed, w.blockCompression z = .ok w' ∧ Block.Sound z ⟨i, packed⟩ ∧ Holds w' (content ++ Block.frame ⟨i, packed⟩ false) ∧
      w'.inZstream = none ∧ w'.compressMode = .write ∧ w'.cursor = 0 ∧ SIZE_RESERVE < w'.bufferLength := by
  obtain ⟨written, w₁, packed, hcycle, hsound, hholds, hstream, hmode, hlong⟩ :=
    compressCycle_finish hz h.begins .block (by decide) h.short h.bound_start
  have hholds : Holds { w₁.advance written with compressMode := .none } (content ++ Block.frame ⟨i, packed⟩ false) :=
    ⟨hholds.content, hholds.position, hholds.cursor_le, hholds.lt⟩
  obtain ⟨hflushed, hcursor, hlength, -, hstream'⟩ := hholds.flush
  refine ⟨{ Writer.flush { w₁.advance written with compressMode := .none } with compressMode := .write }, packed, ?_, hsound,
    ⟨hflushed.content, hflushed.position, hflushed.cursor_le, hflushed.lt⟩, hstream'.trans hstream, rfl, hcursor, ?_⟩
  · rw [blockCompression, hcycle]
    rfl
  · exact Nat.lt_of_lt_of_eq hlong hlength.symm

/-- Room for so many more bytes in the block that is open, or in the one that they open: the eight
bytes for the sizes are left, and no buffer of 2^30 bytes has to double. -/
def Room (z : Zlib σ) (w : Writer σ) (length : Nat) : Prop :=
  match w.inZstream with
  | none => w.cursor + SIZE_RESERVE < w.bufferLength ∧ w.cursor + SIZE_RESERVE + z.deflateBound length < 2 ^ 30
  | some strm =>
    if MAX_UNCOMPRESSED_SIZE ≤ strm.totalIn + length then SIZE_RESERVE + z.deflateBound length < 2 ^ 30
    else w.compressStart + SIZE_RESERVE + z.deflateBound (strm.totalIn + length) < 2 ^ 30

instance (z : Zlib σ) : (w : Writer σ) → (length : Nat) → Decidable (w.Room z length)
  | ⟨_, _, bufferLength, _, cursor, _, _, none⟩, length =>
    inferInstanceAs (Decidable (cursor + SIZE_RESERVE < bufferLength ∧ cursor + SIZE_RESERVE + z.deflateBound length < 2 ^ 30))
  | ⟨_, _, _, _, _, _, compressStart, some strm⟩, length =>
    inferInstanceAs (Decidable (if MAX_UNCOMPRESSED_SIZE ≤ strm.totalIn + length then SIZE_RESERVE + z.deflateBound length < 2 ^ 30
      else compressStart + SIZE_RESERVE + z.deflateBound (strm.totalIn + length) < 2 ^ 30))

/-- A section of which `data` was written so far: behind `content` lie its closed blocks, and one is open unless nothing was written. -/
def Inside (z : Zlib σ) (w : Writer σ) (content data : List UInt8) : Prop :=
  w.compressMode = .write ∧ ∃ blocks rest, Block.Followed z blocks ∧ data = blocks.flatMap Block.data ++ rest ∧
    (blocks = [] ∧ rest = [] ∧ w.inZstream = none ∧ Holds w content ∨ Packing z w (content ++ blocks.flatMap (Block.frame · false)) rest)

variable {data : List UInt8}

/-- Behind the test for a new block the cycle has room for the piece. -/
theorem forceBlock_begins (hz : z.Documented) (h : Inside z w content data) (hroom : w.Room z length) (hint : length < 2 ^ 31) :
    ∃ w' blocks rest, w.forceBlock z length = .ok w' ∧ w'.compressMode = .write ∧ Block.Followed z blocks ∧
      data = blocks.flatMap Block.data ++ rest ∧ Begins z w' (content ++ blocks.flatMap (Block.frame · false)) rest ∧
      rest.length + length < 2 ^ 31 ∧
      (if w'.inZstream.isNone then w'.cursor else w'.compressStart) + SIZE_RESERVE + z.deflateBound (rest.length + length) < 2 ^ 30 := by
  obtain ⟨hmode, blocks, rest, hsound, hdata, ⟨rfl, rfl, hstream, hholds⟩ | hpacking⟩ := h
  · have hforce : ¬w.Exceeds length := by
      rintro ⟨strm, hstrm, -⟩
      rw [hstream] at hstrm
      cases hstrm
    simp only [Room, hstream] at hroom
    refine ⟨w, [], [], if_neg hforce, hmode, hsound, hdata, ?_, by simpa using hint, ?_⟩
    · rw [flatMap_nil, append_nil]
      exact hholds.begins hstream hroom.1
    · rw [hstream, length_nil, Nat.zero_add]
      exact hroom.2
  · obtain ⟨strm, hstrm, hprepared⟩ := hpacking.strm
    obtain ⟨o, hfilled, -⟩ := hprepared.filled
    have hlength : strm.totalIn = rest.length := hfilled.totalIn
    simp only [Room, hstrm, hlength] at hroom
    by_cases hexceeds : MAX_UNCOMPRESSED_SIZE ≤ rest.length + length
    · rw [if_pos hexceeds] at hroom
      obtain ⟨w', packed, hrun, hb, hholds, hstream, hmode', hcursor, hlong⟩ := blockCompression_holds hz hpacking
      refine ⟨w', blocks ++ [⟨rest, packed⟩], [], (if_pos ⟨strm, hstrm, hlength ▸ hexceeds⟩).trans hrun, hmode', ?_, ?_, ?_, by simpa using hint, ?_⟩
      · intro b hmem
        rcases mem_append.mp hmem with hold | hnew
        · exact hsound b hold
        · rw [mem_singleton.mp hnew]
          exact ⟨hb, hpacking.nonempty⟩
      · simpa using hdata
      · rw [flatMap_append, ← append_assoc, flatMap_singleton]
        exact hholds.begins hstream (by omega)
      · rw [hstream, hcursor, length_nil, Nat.zero_add]
        simpa using hroom
    · rw [if_neg hexceeds] at hroom
      have hforce : ¬w.Exceeds length := by
        intro ⟨strm', hstrm', hle⟩
        rw [hstrm] at hstrm'
        cases hstrm'
        exact hexceeds (hlength ▸ hle)
      refine ⟨w, blocks, rest, if_neg hforce, hmode, hsound, hdata, hpacking.begins, ?_, ?_⟩
      · exact Nat.lt_of_lt_of_le (Nat.not_le.mp hexceeds) (by decide)
      · rw [hstrm]
        exact hroom

theorem compress_inside (hz : z.Documented) (hcodes : .ok ∈ codes) (failure : String) (h : Inside z w content data) (hroom : w.Room z length)
    (hlen : length ≤ bytes.length) (hpos : 0 < length) (hint : length < 2 ^ 31) :
    ∃ w₁ written w', w.forceBlock z length = .ok w₁ ∧ w₁.compressCycle z (some bytes) 0 length .none codes failure = .ok (written, w') ∧
      Inside z (w'.advance written) content (data ++ bytes.take length) := by
  obtain ⟨w₁, blocks, rest, hforce, hmode, hsound, hdata, hbegins, hshort, hbound⟩ := forceBlock_begins hz h hroom hint
  obtain ⟨written, w', hcycle, hpacking, hmode'⟩ := compressCycle_piece failure hz hcodes hbegins hlen hpos hshort hbound
  refine ⟨w₁, written, w', hforce, hcycle, hmode'.trans hmode, blocks, rest ++ bytes.take length, hsound, ?_, .inr hpacking⟩
  rw [hdata, append_assoc]

theorem write_inside (hz : z.Documented) (h : Inside z w content data) (hroom : w.Room z 1) (b : Int) :
    ∃ w', w.write z b = .ok w' ∧ Inside z w' content (data ++ [ofInt b]) := by
  obtain ⟨w₁, written, w', hforce, hcycle, hinside⟩ := compress_inside hz (mem_singleton_self _) byteFailure h hroom
    (Nat.le_refl [ofInt b].length) (by decide) (by decide)
  refine ⟨w'.advance written, ?_, hinside⟩
  rw [write, if_pos h.1, compressByteToBuffer, hforce]
  simp only [hcycle, bind, Except.bind]
  rfl

theorem writeBytes_inside (hz : z.Documented) (h : Inside z w content data) (hroom : w.Room z length) (hlen : length ≤ bytes.length)
    (hpos : 0 < length) (hint : length < 2 ^ 31) :
    ∃ w', w.writeBytes z bytes 0 length = .ok w' ∧ Inside z w' content (data ++ bytes.take length) := by
  obtain ⟨w₁, written, w', hforce, hcycle, hinside⟩ := compress_inside hz (show .ok ∈ offsetCodes by decide) offsetFailure h hroom hlen hpos hint
  refine ⟨w'.advance written, ?_, hinside⟩
  rw [writeBytes, if_pos h.1, compressToBuffer]
  simp only [if_true, hforce, hcycle, bind, Except.bind]
  rfl

/-- No section is open. -/
structure Settled (w : Writer σ) (content : List UInt8) : Prop extends Holds w content where
  mode : w.compressMode = .none
  stream : w.inZstream = none
  pos : 0 < w.bufferLength

theorem Settled.flush (h : Settled w content) : Settled w.flush content ∧ w.flush.cursor = 0 ∧ w.flush.bufferLength = w.bufferLength := by
  obtain ⟨hholds, hcursor, hlength, hmode, hstream⟩ := h.toHolds.flush
  exact ⟨⟨hholds, hmode.trans h.mode, hstream.trans h.stream, hlength ▸ h.pos⟩, hcursor, hlength⟩

theorem Settled.put (h : Settled w content) (hfits : w.cursor + l.length ≤ w.bufferLength) :
    ∃ w', w.put w.cursor l = .ok w' ∧ Settled (w'.advance l.length) (content ++ l) := by
  obtain ⟨b, hput, hbytes, hsame⟩ := put_after (q := 0) (o := w.buffer.bytes 0 w.cursor) (l := l)
    (by rw [length_bytes]) (by rw [length_bytes, Nat.zero_add]; exact hfits)
  rw [length_bytes, Nat.zero_add] at hput
  rw [length_append, length_bytes] at hbytes
  refine ⟨_, hput, ⟨?_, ?_, hfits, h.lt⟩, h.mode, h.stream, h.pos⟩
  · show w.file ++ b.bytes 0 (w.cursor + l.length) = _
    rw [hbytes, ← append_assoc, h.content]
  · show w.position + l.length = w.file.length + (w.cursor + l.length)
    rw [h.position, Nat.add_assoc]

theorem write_settled (h : Settled w content) (b : Int) : ∃ w', w.write z b = .ok w' ∧ Settled w' (content ++ [ofInt b]) := by
  rw [write, if_neg (by rw [h.mode]; decide)]
  by_cases hfull : w.bufferLength ≤ w.cursor
  · obtain ⟨hflushed, hcursor, hlength⟩ := h.flush
    have hpos := h.pos
    obtain ⟨w', hput, hsettled⟩ := hflushed.put (l := [ofInt b]) (by rw [hcursor, hlength, length_singleton]; omega)
    refine ⟨_, ?_, hsettled⟩
    simp only [if_pos hfull, hput, bind, Except.bind]
    rfl
  · obtain ⟨w', hput, hsettled⟩ := h.put (l := [ofInt b]) (by rw [length_singleton]; omega)
    refine ⟨_, ?_, hsettled⟩
    simp only [if_neg hfull, hput, bind, Except.bind]
    rfl

theorem writeBytes_settled (h : Settled w content) {offset : Nat} (hlen : offset + length ≤ bytes.length) (hfit : w.cursor + length < 2 ^ 31) :
    ∃ w', w.writeBytes z bytes offset length = .ok w' ∧ Settled w' (content ++ (bytes.drop offset).take length) := by
  have hpiece : piece bytes offset length = .ok ((bytes.drop offset).take length) := if_pos hlen
  have hl : ((bytes.drop offset).take length).length = length := by rw [length_take, length_drop]; omega
  have hsum : inttype ((w.cursor : Int) + length) = ↑(w.cursor + length) := by rw [inttype_eq (by omega) (by omega)]; omega
  rw [writeBytes, if_neg (by rw [h.mode]; decide), hsum]
  by_cases hfull : (w.bufferLength : Int) ≤ ↑(w.cursor + length)
  · obtain ⟨hflushed, hcursor, hlength⟩ := h.flush
    by_cases hlong : w.bufferLength ≤ length
    · refine ⟨{ w.flush with file := w.flush.file ++ (bytes.drop offset).take length, position := w.flush.position + length }, ?_, ?_⟩
      · simp only [hpiece, hlength, hfull, hlong, and_self, if_true, bind, Except.bind]
        rfl
      · refine ⟨⟨?_, ?_, hflushed.cursor_le, hflushed.lt⟩, hflushed.mode, hflushed.stream, hflushed.pos⟩
        · show w.flush.file ++ _ ++ Buffer.bytes _ 0 w.flush.cursor = _
          rw [h.toHolds.file_flush, hcursor, Buffer.bytes_zero, append_nil]
        · show w.flush.position + length = (w.flush.file ++ _).length + w.flush.cursor
          rw [hflushed.position, length_append, hl]
          omega
    · obtain ⟨w', hput, hsettled⟩ := hflushed.put (l := (bytes.drop offset).take length) (by rw [hcursor, hlength, hl]; omega)
      rw [hl] at hsettled
      refine ⟨_, ?_, hsettled⟩
      simp only [if_pos hfull, hpiece, hlength, hlong, and_false, if_false, hput, bind, Except.bind]
      rfl
  · obtain ⟨w', hput, hsettled⟩ := h.put (l := (bytes.drop offset).take length) (by rw [hl]; omega)
    rw [hl] at hsettled
    refine ⟨_, ?_, hsettled⟩
    simp only [hpiece, hfull, false_and, if_false, hput, bind, Except.bind]
    rfl

end Writer

/-! ## Sections -/

inductive Write
  | byte (b : Int)
  | bytes (bytes : List UInt8) (offset length : Nat)
  deriving DecidableEq

/-- Writes, between `setCompress(COMPRESS_WRITE)` and `setCompress(COMPRESS_NONE)` or not, with a flush behind them or not. -/
structure Section where
  compressed : Bool
  writes : List Write
  flushed : Bool
  deriving DecidableEq

/-- What a section lies in the file as, if it is compressed. -/
def Series {σ : Type} (z : Zlib σ) (data encoded : List UInt8) : Prop :=
  ∃ blocks last, Block.Followed z blocks ∧ Block.Sound z last ∧ data = blocks.flatMap Block.data ++ last.data ∧
    encoded = blocks.flatMap (Block.frame · false) ++ last.frame true

namespace Write

variable {σ : Type}

def data : Write → List UInt8
  | .byte b => [ofInt b]
  | .bytes array offset length => (array.drop offset).take length

def run (z : Zlib σ) (w : Writer σ) : Write → Except Fault (Writer σ)
  | .byte b => w.write z b
  | .bytes array offset length => w.writeBytes z array offset length

/-- Within an array, whose length is an `inttype`. -/
def Legal : Write → Prop
  | .byte _ => True
  | .bytes array offset length => offset + length ≤ array.length ∧ array.length < 2 ^ 31

/-- What is compressed is not empty, lies at the start of its array, and the buffer has room for it; the
end of what is not is an `inttype`. -/
def Fits (z : Zlib σ) (w : Writer σ) : Write → Prop
  | .byte _ => w.compressMode = .write → w.Room z 1
  | .bytes _ offset length => if w.compressMode = .write then offset = 0 ∧ 0 < length ∧ w.Room z length else w.cursor + length < 2 ^ 31

instance (x : Write) : Decidable x.Legal :=
  match x with
  | .byte _ => inferInstanceAs (Decidable True)
  | .bytes array offset length => inferInstanceAs (Decidable (offset + length ≤ array.length ∧ array.length < 2 ^ 31))

instance (z : Zlib σ) (w : Writer σ) (x : Write) : Decidable (x.Fits z w) :=
  match x with
  | .byte _ => inferInstanceAs (Decidable (w.compressMode = .write → w.Room z 1))
  | .bytes _ offset length =>
    inferInstanceAs (Decidable (if w.compressMode = .write then offset = 0 ∧ 0 < length ∧ w.Room z length else w.cursor + length < 2 ^ 31))

def step (z : Zlib σ) (w : Writer σ) (x : Write) : Option (Writer σ) := (x.run z w).toOption

/-- A legal write that fits. -/
def Meets (z : Zlib σ) (w : Writer σ) (x : Write) : Prop := x.Legal ∧ x.Fits z w

instance (z : Zlib σ) (w : Writer σ) (x : Write) : Decidable (x.Meets z w) := inferInstanceAs (Decidable (_ ∧ _))

variable {z : Zlib σ} {w : Writer σ} {content data : List UInt8} {x : Write}

theorem step_inside (hz : z.Documented) (h : Writer.Inside z w content data) (hx : x.Meets z w) :
    ∃ w', step z w x = some w' ∧ Writer.Inside z w' content (data ++ x.data) := by
  cases x with
  | byte b =>
    obtain ⟨w', hrun, hinside⟩ := Writer.write_inside hz h (hx.2 h.1) b
    exact ⟨w', by rw [step, run, hrun]; rfl, hinside⟩
  | bytes array offset length =>
    obtain ⟨⟨hlen, hint⟩, hfits⟩ := hx
    obtain ⟨rfl, hpos, hroom⟩ := (if_pos h.1).mp hfits
    have hle : length ≤ array.length := by omega
    obtain ⟨w', hrun, hinside⟩ := Writer.writeBytes_inside hz h hroom hle hpos (by omega)
    exact ⟨w', by rw [step, run, hrun]; rfl, hinside⟩

theorem step_settled (h : Writer.Settled w content) (hx : x.Meets z w) : ∃ w', step z w x = some w' ∧ Writer.Settled w' (content ++ x.data) := by
  cases x with
  | byte b =>
    obtain ⟨w', hrun, hsettled⟩ := Writer.write_settled (z := z) h b
    exact ⟨w', by rw [step, run, hrun]; rfl, hsettled⟩
  | bytes array offset length =>
    obtain ⟨⟨hlen, -⟩, hfits⟩ := hx
    have hplain : ¬w.compressMode = .write := by rw [h.mode]; decide
    obtain ⟨w', hrun, hsettled⟩ := Writer.writeBytes_settled (z := z) h hlen ((if_neg hplain).mp hfits)
    exact ⟨w', by rw [step, run, hrun]; rfl, hsettled⟩

end Write

namespace Section

variable {σ : Type}

def data (s : Section) : List UInt8 := s.writes.flatMap Write.data

def begin (z : Zlib σ) (w : Writer σ) (s : Section) : Except Fault (Writer σ) := if s.compressed then w.setCompress z .write else .ok w

def finish (z : Zlib σ) (w : Writer σ) (s : Section) : Except Fault (Writer σ) := if s.compressed then w.setCompress z .none else .ok w

/-- `none` where memory outside the buffer is written or an exception thrown. -/
def run (z : Zlib σ) (w : Writer σ) (s : Section) : Option (Writer σ) := do
  let w ← (s.begin z w).toOption
  let w ← Run.exec (Write.step z) w s.writes
  let w ← (s.finish z w).toOption
  pure (if s.flushed then w.flush else w)

/-- Every write fits, and where there is none the end of the section has room for an empty block. -/
def Fits (z : Zlib σ) (w : Writer σ) (s : Section) : Prop :=
  ∀ w₁ ∈ (s.begin z w).toOption, Run.Meets (Write.step z) (fun w x => x.Meets z w) w₁ s.writes ∧
    ∀ w₂ ∈ Run.exec (Write.step z) w₁ s.writes, s.compressed = true → w₂.inZstream.isNone = true → w₂.Room z 0

instance (z : Zlib σ) (w : Writer σ) (s : Section) : Decidable (s.Fits z w) :=
  inferInstanceAs (Decidable (∀ w₁ ∈ (s.begin z w).toOption, Run.Meets (Write.step z) (fun w x => x.Meets z w) w₁ s.writes ∧
    ∀ w₂ ∈ Run.exec (Write.step z) w₁ s.writes, s.compressed = true → w₂.inZstream.isNone = true → w₂.Room z 0))

/-- How a section lies in the file. -/
def Encodes (z : Zlib σ) (s : Section) (encoded : List UInt8) : Prop := if s.compressed then Series z s.data encoded else encoded = s.data

variable {z : Zlib σ} {w : Writer σ} {s : Section} {content data : List UInt8}

theorem compressToBuffer_done : w.compressToBuffer z none 0 0 .done = w.compressCycle z none 0 0 .done Writer.offsetCodes Writer.offsetFailure := rfl

theorem begin_inside (h : Writer.Settled w content) : ∃ w', w.setCompress z .write = .ok w' ∧ Writer.Inside z w' content [] := by
  have hplain : ¬w.compressMode = .write := by rw [h.mode]; decide
  refine ⟨{ w with compressMode := .write }, ?_, rfl, [], [], fun _ hb => absurd hb not_mem_nil, rfl, .inl ⟨rfl, rfl, h.stream, ?_⟩⟩
  · rw [Writer.setCompress]
    simp only [if_neg hplain]
    rfl
  · exact ⟨h.content, h.position, h.cursor_le, h.lt⟩

theorem finish_inside (hz : z.Documented) (h : Writer.Inside z w content data) (hroom : w.inZstream.isNone = true → w.Room z 0) :
    ∃ w' encoded, w.setCompress z .none = .ok w' ∧ Series z data encoded ∧ Writer.Settled w' (content ++ encoded) := by
  obtain ⟨hmode, blocks, rest, hfollowed, hdata, hrest⟩ := h
  have hbegins : Writer.Begins z w (content ++ blocks.flatMap (Block.frame · false)) rest ∧ rest.length < 2 ^ 31 ∧
      (if w.inZstream.isNone then w.cursor else w.compressStart) + SIZE_RESERVE + z.deflateBound rest.length < 2 ^ 30 := by
    rcases hrest with ⟨rfl, rfl, hstream, hholds⟩ | hpacking
    · have hempty := hroom (by rw [hstream]; rfl)
      simp only [Writer.Room, hstream] at hempty
      rw [flatMap_nil, append_nil, hstream]
      exact ⟨hholds.begins hstream hempty.1, by decide, hempty.2⟩
    · exact ⟨hpacking.begins, hpacking.short, hpacking.bound_start⟩
  obtain ⟨written, w', packed, hcycle, hsound, hholds, hstream, -, hlong⟩ :=
    Writer.compressCycle_finish hz hbegins.1 .done (by decide) hbegins.2.1 hbegins.2.2
  refine ⟨{ w'.advance written with compressMode := .none }, _, ?_, ⟨blocks, ⟨rest, packed⟩, hfollowed, hsound, hdata, rfl⟩, ?_⟩
  · rw [Writer.setCompress]
    simp only [if_pos hmode, compressToBuffer_done, hcycle, bind, Except.bind]
    rfl
  · rw [← append_assoc]
    exact ⟨⟨hholds.content, hholds.position, hholds.cursor_le, hholds.lt⟩, rfl, hstream, Nat.lt_of_le_of_lt (Nat.zero_le _) hlong⟩

theorem run_settled (hz : z.Documented) (h : Writer.Settled w content) (hs : s.Fits z w) :
    ∃ w' encoded, s.run z w = some w' ∧ s.Encodes z encoded ∧ Writer.Settled w' (content ++ encoded) := by
  have hsections : ∃ w₁ w₂ w₃ encoded, s.begin z w = .ok w₁ ∧ Run.exec (Write.step z) w₁ s.writes = some w₂ ∧ s.finish z w₂ = .ok w₃ ∧
      s.Encodes z encoded ∧ Writer.Settled w₃ (content ++ encoded) := by
    unfold begin finish Encodes data
    rw [flatMap_eq_foldl]
    cases hcompressed : s.compressed with
    | true =>
      obtain ⟨w₁, hbegin, hinside⟩ := begin_inside (z := z) h
      obtain ⟨hmeets, hend⟩ := hs w₁ (by rw [begin, if_pos hcompressed, hbegin]; rfl)
      have hstep : ∀ {w : Writer σ} {d : List UInt8} {x : Write}, Writer.Inside z w content d → x.Meets z w →
          ∃ w', Write.step z w x = some w' ∧ Writer.Inside z w' content (d ++ x.data) := Write.step_inside hz
      obtain ⟨w₂, hexec, hwritten⟩ := Run.exec_of_meets (R := fun w d => Writer.Inside z w content d) @hstep hinside hmeets
      obtain ⟨w₃, encoded, hfinish, hseries, hsettled⟩ := finish_inside hz hwritten (hend w₂ hexec hcompressed)
      exact ⟨w₁, w₂, w₃, encoded, hbegin, hexec, hfinish, hseries, hsettled⟩
    | false =>
      obtain ⟨hmeets, -⟩ := hs w (by rw [begin, hcompressed, if_neg (by decide)]; rfl)
      have hstep : ∀ {w : Writer σ} {d : List UInt8} {x : Write}, Writer.Settled w (content ++ d) → x.Meets z w →
          ∃ w', Write.step z w x = some w' ∧ Writer.Settled w' (content ++ (d ++ x.data)) := by
        intro w d x hw hx
        rw [← append_assoc]
        exact Write.step_settled hw hx
      obtain ⟨w₂, hexec, hwritten⟩ := Run.exec_of_meets (R := fun w d => Writer.Settled w (content ++ d)) @hstep (by rwa [append_nil]) hmeets
      exact ⟨w, w₂, w₂, _, rfl, hexec, rfl, rfl, hwritten⟩
  obtain ⟨w₁, w₂, w₃, encoded, hbegin, hexec, hfinish, hencodes, hsettled⟩ := hsections
  refine ⟨if s.flushed then w₃.flush else w₃, encoded, ?_, hencodes, ?_⟩
  · rw [run, hbegin]
    show (Run.exec (Write.step z) w₁ s.writes).bind _ = _
    rw [hexec]
    show (s.finish z w₂).toOption.bind _ = _
    rw [hfinish]
    rfl
  · split
    · exact hsettled.flush.1
    · exact hsettled

end Section

/-! ## What is written -/

/-- Where a section starts, and how much was written to it. -/
structure Record where
  start : Nat
  compressed : Bool
  length : Nat
  deriving DecidableEq

/-- The writer, and the sections recorded so far. -/
def writeStep {σ : Type} (z : Zlib σ) (s : Writer σ × List Record) (x : Section) : Option (Writer σ × List Record) :=
  (x.run z s.1).map fun w => (w, s.2 ++ [⟨s.1.position, x.compressed, x.data.length⟩])

/-- A section that lies in the file where it was recorded. -/
def Laid {σ : Type} (z : Zlib σ) (content : List UInt8) (x : Section) (r : Record) : Prop :=
  r.compressed = x.compressed ∧ r.length = x.data.length ∧
    ∃ before encoded behind, content = before ++ encoded ++ behind ∧ r.start = before.length ∧ x.Encodes z encoded

/-- Every section so far was recorded, and lies there. -/
def Written {σ : Type} (z : Zlib σ) (s : Writer σ × List Record) (sections : List Section) : Prop :=
  ∃ content, Writer.Settled s.1 content ∧ List.Forall₂ (Laid z content) sections s.2

theorem Laid.append {σ : Type} {z : Zlib σ} {content : List UInt8} {x : Section} {r : Record} (more : List UInt8) :
    Laid z content x r → Laid z (content ++ more) x r := by
  rintro ⟨hcompressed, hlength, before, encoded, behind, rfl, hstart, hencodes⟩
  exact ⟨hcompressed, hlength, before, encoded, behind ++ more, append_assoc _ _ _, hstart, hencodes⟩

theorem writeStep_written {σ : Type} {z : Zlib σ} (hz : z.Documented) {s : Writer σ × List Record} {sections : List Section} {x : Section}
    (h : Written z s sections) (hx : x.Fits z s.1) : ∃ s', writeStep z s x = some s' ∧ Written z s' (sections ++ [x]) := by
  obtain ⟨content, hsettled, hlaid⟩ := h
  obtain ⟨w', encoded, hrun, hencodes, hsettled'⟩ := Section.run_settled hz hsettled hx
  refine ⟨_, by rw [writeStep, hrun]; rfl, content ++ encoded, hsettled', ?_⟩
  refine rel_append (hlaid.imp fun _ _ => Laid.append encoded) (.cons ⟨rfl, rfl, content, encoded, [], by rw [append_nil], ?_, hencodes⟩ .nil)
  have hposition : s.1.position = (s.1.file ++ s.1.buffer.bytes 0 s.1.cursor).length := by
    rw [length_append, length_bytes]
    exact hsettled.position
  rw [hsettled.content] at hposition
  exact hposition

end DeepFabric.Store.BufferedFile
