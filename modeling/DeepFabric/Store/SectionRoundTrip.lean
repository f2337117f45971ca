/-
  DeepFabric.Store.SectionRoundTrip — sections that were written are read back
  (`BufferedRandomAccessFile`).

  The reader is told where a section starts, whether it is compressed and how long it was. In a
  compressed section it goes from block to block until the one whose first bit is set.

  - `Follows`: data that lies in the file from a place on, in blocks; `fill_unread` takes the next one.
  - `sections_round_trip`: sections whose writes all fit are written without a fault, and each is read
    back, in any order.

  As built, `avail_out` wraps where fewer than eight bytes are left in the buffer when a block begins,
  and `deflate` writes behind its end; `avail_in` is the length less the offset, so that a compressed
  write at an offset loses its last bytes.
-/
import DeepFabric.Store.SectionWriter

namespace DeepFabric.Store.BufferedFile

open Lib List
open Buffer (bytes bytes_memcpy bytes_split length_leBytes memcpy)

theorem RandomAccessFile.readFullyRaw_all {f : RandomAccessFile} {n : Nat} (fuel : Nat) (b : Buffer) (hpos : 0 < n) (hin : f.position + n ≤ f.length) :
    f.readFullyRaw (fuel + 1) b 0 n = .ok (false, b.memcpy 0 f.content f.position n, { f with position := f.position + n }) := by
  have hsize : min n (f.length - f.position) = n := Nat.min_eq_left (by omega)
  have hread : f.read b 0 n = ((n : Int), false, b.memcpy 0 f.content f.position n, { f with position := f.position + n }) := by
    rw [RandomAccessFile.read]
    simp only [hsize, if_pos hpos, Nat.lt_irrefl, decide_false, Bool.or_false]
  rw [readFullyRaw, Int.toNat_zero, Int.sub_zero, Int.toNat_natCast, hread]
  simp only [Int.lt_irrefl, false_and, if_false, Bool.false_eq_true, Int.zero_add]

namespace BufferedRandomAccessFile

variable {σ : Type} {z : Zlib σ} {content : Buffer} {length : Nat} {s : BufferedRandomAccessFile}

/-- `setCompress`, on a file opened to read. -/
def setCompress (s : BufferedRandomAccessFile) (mode : CompressMode) : BufferedRandomAccessFile :=
  let s := if s.compressMode = .read ∨ mode = .read then
      { s with refill := true, blockLength := -1, finalBlockInSeries := false, blockCompressionCursor := 0 }
    else s
  { s with compressMode := mode }

/-! ## One block -/

theorem load_size {b : Buffer} {p v : Nat} (h : b.bytes p (SIZE_RESERVE / 2) = Buffer.leBytes (SIZE_RESERVE / 2) v) (hv : v < 2 ^ 32) :
    b.load p (SIZE_RESERVE / 2) = v :=
  (Buffer.load_leBytes (Buffer.bytes_eq_leBytes.mp h)).trans (Nat.mod_eq_of_lt hv)

theorem or_top {n : Nat} (h : n < 2 ^ 31) : 2 ^ 31 ||| n = 2 ^ 31 + n := by
  have hor := Nat.two_pow_add_eq_or_of_lt h 1
  rw [Nat.mul_one] at hor
  exact hor.symm

theorem length_frame (b : Block) (final : Bool) : (b.frame final).length = SIZE_RESERVE + b.packed.length := by
  simp only [Block.frame, length_append, length_leBytes, SIZE_RESERVE]

theorem fillBlock_frame {b : Block} {final : Bool} (hmode : s.compressMode = .read) (hsound : b.Sound z)
    (hin : s.file.position + (b.frame final).length ≤ s.file.length)
    (hframe : s.file.content.bytes s.file.position (b.frame final).length = b.frame final) :
    ∃ s', s.fill z.inflate false = .ok (false, s') ∧ s'.file.content = s.file.content ∧ s'.file.length = s.file.length ∧
      s'.file.position = s.file.position + (b.frame final).length ∧ s'.compressMode = .read ∧ s'.refill = false ∧ s'.cursor = 0 ∧
      s'.offset = b.data.length ∧ s'.buffer.bytes 0 b.data.length = b.data ∧ s'.finalBlockInSeries = final ∧
      s'.bufferLength = max s.bufferLength b.data.length := by
  have hdata := hsound.data_lt
  have hpacked := hsound.packed_lt
  have hpos := length_pos_of_ne_nil hsound.nonempty
  rw [length_frame] at hin hframe ⊢
  obtain ⟨hsizes, hrest⟩ := bytes_split hframe (by simp only [length_append, length_leBytes, SIZE_RESERVE])
  have hheader := RandomAccessFile.readFullyRaw_all (f := s.file) (SIZE_RESERVE + 1) (fun _ => 0) (show 0 < SIZE_RESERVE by decide) (by omega)
  have hbody := RandomAccessFile.readFullyRaw_all (f := { s.file with position := s.file.position + SIZE_RESERVE })
    (b.packed.length + 1) (fun _ => 0) hpos (show s.file.position + SIZE_RESERVE + b.packed.length ≤ s.file.length by omega)
  have hread : bytes (memcpy (fun _ => 0) 0 s.file.content s.file.position SIZE_RESERVE) 0 (SIZE_RESERVE / 2 + SIZE_RESERVE / 2) = _ :=
    bytes_memcpy.trans hsizes
  obtain ⟨hfirst, hsecond⟩ := bytes_split hread (length_leBytes)
  have hfinal : (if final then 2 ^ 31 ||| b.data.length else b.data.length) < 2 ^ 32 ∧
      decide (2 ^ 31 ≤ if final then 2 ^ 31 ||| b.data.length else b.data.length) = final ∧
      (if final then (if final then 2 ^ 31 ||| b.data.length else b.data.length) - 2 ^ 31
        else if final then 2 ^ 31 ||| b.data.length else b.data.length) = b.data.length := by
    cases final with
    | true =>
      simp only [if_true, or_top hdata]
      exact ⟨by omega, decide_eq_true (by omega), by omega⟩
    | false =>
      simp only [Bool.false_eq_true, if_false]
      exact ⟨by omega, decide_eq_false (by omega), trivial⟩
  obtain ⟨hsize, htop, hlength⟩ := hfinal
  generalize (if final then 2 ^ 31 ||| b.data.length else b.data.length) = size at hsize htop hlength hfirst
  have hsize := load_size hfirst hsize
  have hcompressed := load_size hsecond (by omega)
  rw [Nat.zero_add] at hcompressed
  have hint : inttype (b.packed.length : Int) = b.packed.length := inttype_eq (by omega) (by omega)
  have hzip : bytes (memcpy (fun _ => 0) 0 s.file.content (s.file.position + SIZE_RESERVE) b.packed.length) 0 b.packed.length =
      b.packed := bytes_memcpy.trans hrest
  have hfill : s.fillBlock z.inflate false = .ok (false, { s with
      file := { s.file with position := s.file.position + SIZE_RESERVE + b.packed.length }
      buffer := s.buffer.memcpy 0 (ofBytes b.data) 0 b.data.length
      bufferLength := max s.bufferLength b.data.length
      position := s.position + SIZE_RESERVE + b.packed.length
      blockCompressionCursor := if s.refill = false ∧ s.finalBlockInSeries = false then inttype (s.blockCompressionCursor + s.cursor) else 0
      cursor := 0
      offset := b.data.length
      finalBlockInSeries := final
      blockLength := SIZE_RESERVE + b.packed.length
      refill := false }) := by
    have hnot : ¬(b.packed.length : Int) < 0 := by omega
    rw [fillBlock]
    simp -zeta only [hheader, bind, Except.bind, hsize, hcompressed, -Nat.reducePow]
    simp only [htop, hlength, hint, hnot, hbody, hzip, hsound.undone _ (Nat.le_max_right _ _), Bool.false_and, Bool.false_eq_true, if_false,
      -Nat.reducePow]
    rfl
  have hmodeFill : s.fill z.inflate false = s.fillBlock z.inflate false := by rw [fill, hmode]
  refine ⟨_, hmodeFill.trans hfill, rfl, rfl, ?_, hmode, rfl, rfl, rfl, ?_, rfl, rfl⟩
  · exact Nat.add_assoc _ _ _
  · show bytes (memcpy s.buffer 0 (ofBytes b.data) 0 b.data.length) 0 b.data.length = b.data
    rw [bytes_memcpy, bytes_ofBytes (by omega), drop_zero, take_length]

/-! ## A section, block by block -/

/-- `data` lies in the file from `p` on, in blocks. -/
def Follows (z : Zlib σ) (content : Buffer) (length p : Nat) (data : List UInt8) : Prop :=
  ∃ encoded, Series z data encoded ∧ p + encoded.length ≤ length ∧ content.bytes p encoded.length = encoded

/-- Of a compressed section `x` is left in the buffer behind the cursor, and `rest` in the file. -/
structure Unread (z : Zlib σ) (content : Buffer) (length : Nat) (s : BufferedRandomAccessFile) (cur : Nat) (x rest : List UInt8) : Prop where
  sameContent : s.file.content = content
  sameLength : s.file.length = length
  mode : s.compressMode = .read
  refill : s.refill = false
  cursor : s.cursor = cur
  offset : s.offset = cur + x.length
  filled : s.offset ≤ s.bufferLength
  lt : s.bufferLength < 2 ^ 31
  bytes : s.buffer.bytes cur x.length = x
  rest : s.finalBlockInSeries = true ∧ rest = [] ∨ s.finalBlockInSeries = false ∧ Follows z content length s.file.position rest

variable {data x rest : List UInt8} {cur : Nat}

theorem fill_unread_block {b : Block} {final : Bool} (hmode : s.compressMode = .read) (hlt : s.bufferLength < 2 ^ 31) (hsound : b.Sound z)
    (hin : s.file.position + (b.frame final).length ≤ s.file.length)
    (hframe : s.file.content.bytes s.file.position (b.frame final).length = b.frame final)
    (hrest : final = true ∧ rest = [] ∨
      final = false ∧ Follows z s.file.content s.file.length (s.file.position + (b.frame final).length) rest) :
    ∃ s', s.fill z.inflate false = .ok (false, s') ∧ Unread z s.file.content s.file.length s' 0 b.data rest ∧
      s.file.position < s'.file.position ∧ s'.file.position ≤ s.file.length ∧ s.bufferLength ≤ s'.bufferLength := by
  have hlong := length_frame b final
  have hreserve : SIZE_RESERVE = 8 := rfl
  have hdata := hsound.data_lt
  obtain ⟨s', hfill, hcontent, hlength, hposition, hmode', hrefill, hcursor, hoffset, hbytes, hfinal, hroom⟩ := fillBlock_frame hmode hsound hin hframe
  refine ⟨s', hfill, ⟨hcontent, hlength, hmode', hrefill, hcursor, ?_, ?_, ?_, hbytes, ?_⟩, ?_, ?_, ?_⟩
  · rw [hoffset, Nat.zero_add]
  · rw [hoffset, hroom]
    exact Nat.le_max_right _ _
  · rw [hroom]
    exact Nat.max_lt.mpr ⟨hlt, hdata⟩
  · rw [hfinal, hposition]
    exact hrest
  · omega
  · omega
  · rw [hroom]
    exact Nat.le_max_left _ _

/-- The next block comes into the buffer; it is empty only if nothing is left. -/
theorem fill_unread (hmode : s.compressMode = .read) (hlt : s.bufferLength < 2 ^ 31)
    (h : Follows z s.file.content s.file.length s.file.position data) :
    ∃ s' x rest, s.fill z.inflate false = .ok (false, s') ∧ Unread z s.file.content s.file.length s' 0 x rest ∧ data = x ++ rest ∧
      (data ≠ [] → x ≠ []) ∧ s.file.position < s'.file.position ∧ s'.file.position ≤ s.file.length ∧ s.bufferLength ≤ s'.bufferLength := by
  obtain ⟨encoded, ⟨blocks, last, hfollowed, hlast, rfl, rfl⟩, hin, hbytes⟩ := h
  cases blocks with
  | nil =>
    rw [flatMap_nil, nil_append] at hin hbytes ⊢
    obtain ⟨s', hfill, hunread, hrest⟩ := fill_unread_block hmode hlt hlast hin hbytes (.inl ⟨rfl, rfl⟩)
    exact ⟨s', last.data, [], hfill, hunread, (append_nil _).symm, id, hrest⟩
  | cons b blocks =>
    rw [flatMap_cons, append_assoc] at hin hbytes ⊢
    rw [length_append] at hin hbytes
    obtain ⟨hb, hblocks⟩ := bytes_split hbytes rfl
    have hmore : Follows z s.file.content s.file.length (s.file.position + (b.frame false).length) (blocks.flatMap Block.data ++ last.data) :=
      ⟨_, ⟨blocks, last, fun b' hb' => hfollowed b' (mem_cons_of_mem _ hb'), hlast, rfl, rfl⟩, by omega, hblocks⟩
    obtain ⟨hsound, hne⟩ := hfollowed b mem_cons_self
    obtain ⟨s', hfill, hunread, hrest⟩ := fill_unread_block hmode hlt hsound (by omega) hb (.inr ⟨rfl, hmore⟩)
    exact ⟨s', b.data, _, hfill, hunread, rfl, fun _ => hne, hrest⟩

theorem Unread.fill (h : Unread z content length s cur x rest) (hmore : s.finalBlockInSeries = false) :
    ∃ s' x' rest', s.fill z.inflate false = .ok (false, s') ∧ Unread z content length s' 0 x' rest' ∧ rest = x' ++ rest' ∧
      (rest ≠ [] → x' ≠ []) ∧ s.file.position < s'.file.position ∧ s'.file.position ≤ length ∧ s.bufferLength ≤ s'.bufferLength := by
  rcases h.rest with ⟨hfinal, -⟩ | ⟨-, hfollows⟩
  · rw [hmore] at hfinal
    cases hfinal
  · have hfill := fill_unread h.mode h.lt (by rw [h.sameContent, h.sameLength]; exact hfollows)
    rwa [h.sameContent, h.sameLength] at hfill

theorem Unread.arraycopy (h : Unread z content length s cur x rest) (bytes : Buffer) (o : Nat) {n : Nat} (hn : n ≤ x.length) :
    ∃ bytes', s.arraycopy bytes o n = .ok bytes' ∧ bytes'.bytes o n = x.take n ∧ ∀ j < o, bytes' j = bytes j := by
  have hfilled := h.filled
  rw [h.offset] at hfilled
  have hx : s.buffer.bytes cur (n + (x.length - n)) = x.take n ++ x.drop n := by
    rw [Nat.add_sub_cancel' hn, h.bytes, take_append_drop]
  refine ⟨bytes.memcpy o s.buffer cur n, ?_, ?_, fun j hj => Buffer.memcpy_outside (.inl hj)⟩
  · rw [BufferedRandomAccessFile.arraycopy, h.cursor]
    rcases Nat.eq_zero_or_pos n with rfl | hpos
    · rw [if_pos Int.natCast_zero, Buffer.memcpy_zero]
    · rw [if_neg (by omega), if_pos (by omega), Int.toNat_natCast, Int.toNat_natCast]
  · rw [bytes_memcpy]
    exact (bytes_split hx (length_take_of_le hn)).1

theorem Unread.advance (h : Unread z content length s cur x rest) {n : Nat} (hn : n ≤ x.length) :
    Unread z content length { s with cursor := ↑(cur + n) } (cur + n) (x.drop n) rest := by
  have hx : s.buffer.bytes cur (n + (x.length - n)) = x.take n ++ x.drop n := by
    rw [Nat.add_sub_cancel' hn, h.bytes, take_append_drop]
  refine { h with cursor := rfl, offset := ?_, bytes := ?_ }
  · rw [length_drop, h.offset]
    omega
  · rw [length_drop]
    exact (bytes_split hx (length_take_of_le hn)).2

/-- The loop takes what is left in the buffer, and the rest out of the blocks behind it. -/
theorem readBytesLoop_unread {fuel : Nat} (h : Unread z content length s cur x rest) (hfuel : length - s.file.position < fuel) (n done : Nat)
    (hn : n ≤ (x ++ rest).length) (hfit : (cur : Int) + n < 2 ^ 31) (hdone : (done : Int) + n < 2 ^ 31) (bytes : Buffer) (o : Nat) :
    ∃ s' bytes' cur' x' rest', readBytesLoop z.inflate fuel s bytes o n done = .ok (↑(done + n), false, bytes', s') ∧
      bytes'.bytes o n = (x ++ rest).take n ∧ (∀ j < o, bytes' j = bytes j) ∧ Unread z content length s' cur' x' rest' ∧
      x' ++ rest' = (x ++ rest).drop n ∧ s.bufferLength ≤ s'.bufferLength := by
  induction fuel generalizing s cur x rest n done bytes o with
  | zero => exact absurd hfuel (Nat.not_lt_zero _)
  | succ fuel ih =>
    have hoffset := h.offset
    have hsum : inttype (s.cursor + n) = ↑(cur + n) := by rw [h.cursor, inttype_eq (by omega) (by omega), Int.natCast_add]
    by_cases hover : x.length < n
    · rw [length_append] at hn
      have hrest : rest ≠ [] := ne_nil_of_length_pos (by omega)
      have hover' : s.available < inttype (s.cursor + n) := by
        rw [hsum, available, hoffset]
        omega
      have hsplit : x.length + (n - x.length) = n := by omega
      have hleft_fit : ((0 : Nat) : Int) + ↑(n - x.length) < 2 ^ 31 := by omega
      have hleft_done : (↑(done + x.length) : Int) + ↑(n - x.length) < 2 ^ 31 := by omega
      have hall : done + x.length + (n - x.length) = done + n := by omega
      have hmore : s.finalBlockInSeries = false := by
        rcases h.rest with ⟨-, hnil⟩ | ⟨hmore, -⟩
        · exact absurd hnil hrest
        · exact hmore
      obtain ⟨s₁, x₁, rest₁, hfill, h₁, hx₁, hne, hforward, hend, hlong⟩ := h.fill hmore
      obtain ⟨bytes₁, hcopy, htaken, hsame⟩ := h.arraycopy bytes o (Nat.le_refl _)
      have hpos := length_pos_of_ne_nil (hne hrest)
      have hfuel₁ : length - s₁.file.position < fuel := by omega
      have hn₁ : n - x.length ≤ (x₁ ++ rest₁).length := by
        rw [← hx₁]
        omega
      have hdiff : inttype (s.available - s.cursor) = ↑x.length := by
        rw [available, hoffset, h.cursor, inttype_eq (by omega) (by omega)]
        omega
      have hleft : inttype ((n : Int) - ↑x.length) = ↑(n - x.length) := by rw [inttype_eq (by omega) (by omega)]; omega
      have hsofar : inttype ((done : Int) + ↑x.length) = ↑(done + x.length) := by rw [inttype_eq (by omega) (by omega), Int.natCast_add]
      obtain ⟨s', bytes', cur', x', rest', hrun, hbytes, hsame', h', hdrop, hlong'⟩ :=
        ih h₁ hfuel₁ (n - x.length) (done + x.length) hn₁ hleft_fit hleft_done bytes₁ (o + x.length)
      refine ⟨s', bytes', cur', x', rest', ?_, ?_, fun j hj => ?_, h', ?_, Nat.le_trans hlong hlong'⟩
      · rw [readBytesLoop_over hover' hdiff hcopy hfill, hleft, hsofar, available, h₁.offset, Int.toNat_natCast, if_pos, hrun, hall]
        exact Int.natCast_pos.mpr (Nat.lt_of_lt_of_eq hpos (Nat.zero_add _).symm)
      · have hfirst : bytes'.bytes o x.length = x := by
          rw [Buffer.bytes_congr_outside fun j _ hj => hsame' j hj, htaken, take_length]
        have htwo : bytes'.bytes o n = bytes'.bytes o x.length ++ bytes'.bytes (o + x.length) (n - x.length) := by
          rw [← Buffer.bytes_append, hsplit]
        rw [htwo, hfirst, hbytes, ← hx₁, take_append, take_of_length_le (Nat.le_of_lt hover)]
      · rw [hsame' j (Nat.lt_of_lt_of_le hj (Nat.le_add_right _ _)), hsame j hj]
      · rw [hdrop, ← hx₁, drop_append, drop_eq_nil_of_le (Nat.le_of_lt hover), nil_append]
    · have hx : n ≤ x.length := Nat.not_lt.mp hover
      have hwithin : ¬s.available < inttype (s.cursor + n) := by
        rw [hsum, available, hoffset]
        omega
      have hret : inttype ((done : Int) + n) = ↑(done + n) := by rw [inttype_eq (by omega) (by omega), Int.natCast_add]
      obtain ⟨bytes', hcopy, htaken, hsame⟩ := h.arraycopy bytes o hx
      refine ⟨{ s with cursor := ↑(cur + n) }, bytes', cur + n, x.drop n, rest, ?_, ?_, hsame, h.advance hx, ?_, Nat.le_refl _⟩
      · rw [readBytesLoop, if_neg hwithin, hcopy, hret, hsum]
        rfl
      · rw [htaken, take_append_of_le_length hx]
      · rw [drop_append_of_le_length hx]

theorem Unread.fillConsumed (h : Unread z content length s cur x rest) :
    ∃ s' cur' x' rest', BufferedRandomAccessFile.fillConsumed z.inflate s = .ok s' ∧ Unread z content length s' cur' x' rest' ∧
      x' ++ rest' = x ++ rest ∧ s.bufferLength ≤ s'.bufferLength := by
  have hfilled := h.filled
  have hlt := h.lt
  have hoffset := h.offset
  have hdiff : inttype (s.available - s.cursor) = ↑x.length := by
    rw [available, hoffset, h.cursor, inttype_eq (by omega) (by omega)]
    omega
  rw [BufferedRandomAccessFile.fillConsumed, hdiff, h.mode]
  by_cases hconsumed : x = [] ∧ s.finalBlockInSeries = false
  · obtain ⟨rfl, hmore⟩ := hconsumed
    obtain ⟨s', x', rest', hfill, h', hrest, -, -, -, hlong⟩ := h.fill hmore
    rw [if_pos ⟨rfl, .inr hmore⟩, hfill]
    exact ⟨s', 0, x', rest', rfl, h', hrest.symm, hlong⟩
  · rw [if_neg]
    · exact ⟨s, cur, x, rest, rfl, h, rfl, Nat.le_refl _⟩
    · rintro ⟨hlen, hnone | hmore⟩
      · cases hnone
      · exact hconsumed ⟨length_eq_zero_iff.mp (Int.ofNat_eq_zero.mp hlen), hmore⟩

theorem Unread.readBytes (h : Unread z content length s cur x rest) {n : Nat} (hn : n ≤ (x ++ rest).length) (hfit : s.cursor + n < 2 ^ 31)
    (bytes : Buffer) (o : Nat) :
    ∃ s' bytes' cur' x' rest', s.readBytes z.inflate bytes o n = .ok (n, false, bytes', s') ∧ bytes'.bytes o n = (x ++ rest).take n ∧
      Unread z content length s' cur' x' rest' ∧ x' ++ rest' = (x ++ rest).drop n ∧ s.bufferLength ≤ s'.bufferLength := by
  rw [h.cursor] at hfit
  obtain ⟨s₁, bytes', cur₁, x₁, rest₁, hloop, hbytes, -, h₁, hdrop, hlong⟩ :=
    readBytesLoop_unread h (show length - s.file.position < length + 1 by omega) n 0 hn hfit (by omega) bytes o
  obtain ⟨s', cur', x', rest', hfill, h', hrest, hlong'⟩ := h₁.fillConsumed
  refine ⟨s', bytes', cur', x', rest', ?_, hbytes, h', hrest.trans hdrop, Nat.le_trans hlong hlong'⟩
  rw [Int.natCast_zero, Nat.zero_add] at hloop
  rw [BufferedRandomAccessFile.readBytes, h.sameLength, hloop]
  show (BufferedRandomAccessFile.fillConsumed z.inflate s₁ >>= _) = _
  rw [hfill]
  rfl

/-! ## A reader -/

/-- Between two sections: the buffer is filled, or will be at the next seek. -/
structure Ready (content : Buffer) (length : Nat) (s : BufferedRandomAccessFile) : Prop where
  sameContent : s.file.content = content
  sameLength : s.file.length = length
  mode : s.compressMode = .none
  pos : 0 < s.bufferLength
  lt : (s.bufferLength : Int) < 2 ^ 31
  window : s.refill = false → ∃ pos, At content length s.bufferLength s pos

/-- `setCompress` if it is a compressed section, and `seek` to where it starts. -/
def seekTo (inflate : Inflate) (s : BufferedRandomAccessFile) (r : Record) : Except Fault BufferedRandomAccessFile :=
  seek inflate (if r.compressed then s.setCompress .read else s) r.start false

/-- A section is read in one piece. -/
def fetch (inflate : Inflate) (s : BufferedRandomAccessFile) (r : Record) : Except Fault (List UInt8 × BufferedRandomAccessFile) := do
  let s ← s.seekTo inflate r
  let (count, _, bytes, s) ← s.readBytes inflate (fun _ => 0) 0 r.length
  pure (bytes.bytes 0 count.toNat, if r.compressed then s.setCompress .none else s)

/-- What is read, counted from the start of the buffer, is an `inttype`. -/
def Readable (inflate : Inflate) (s : BufferedRandomAccessFile) (r : Record) : Prop :=
  ∀ s' ∈ (s.seekTo inflate r).toOption, s'.cursor + r.length < 2 ^ 31

instance (inflate : Inflate) (s : BufferedRandomAccessFile) (r : Record) : Decidable (s.Readable inflate r) :=
  inferInstanceAs (Decidable (∀ s' ∈ (s.seekTo inflate r).toOption, s'.cursor + r.length < 2 ^ 31))

theorem At.ready {B pos : Nat} (h : At content length B s pos) (hB : 0 < B) (hB' : (B : Int) < 2 ^ 31) : Ready content length s := by
  obtain ⟨start, off, cur, hwindow, hpos⟩ := h
  obtain rfl := hwindow.bufferLength
  exact ⟨hwindow.sameContent, hwindow.sameLength, hwindow.mode, hB, hB', fun _ => ⟨pos, start, off, cur, hwindow, hpos⟩⟩

theorem seek_refill {inflate : Inflate} {pos : Nat} {v eof : Bool} {s' : BufferedRandomAccessFile} (hrefill : s.refill = true)
    (hfill : fill inflate { s with file := s.file.seek pos, position := pos } v = .ok (eof, s')) : s.seek inflate pos v = .ok s' := by
  have hout : ¬(s.refill = false ∧ (s.position : Int) - s.offset ≤ pos ∧ (pos : Int) < (s.position : Int) - s.offset + s.available) := by
    rw [hrefill]
    exact fun h => nomatch h.1
  rw [BufferedRandomAccessFile.seek, if_pos (Or.inl hrefill)]
  simp only [if_neg hout, hfill, bind, Except.bind]
  rfl

theorem Ready.seek (inflate : Inflate) (h : Ready content length s) {pos : Nat} (hpos : pos ≤ length) :
    ∃ s', s.seek inflate pos false = .ok s' ∧ At content length s.bufferLength s' pos := by
  cases hrefill : s.refill with
  | false =>
    obtain ⟨p, hat⟩ := h.window hrefill
    exact hat.seek inflate h.pos h.lt hpos
  | true =>
    obtain ⟨eof, s', hfill, h'⟩ := seek_fill inflate (v := false) h.pos h.sameContent h.sameLength rfl h.mode hpos
    exact ⟨s', seek_refill hrefill hfill, _, _, _, h', rfl⟩

theorem Ready.seek_section (h : Ready content length s) {pos : Nat} (hf : Follows z content length pos data) :
    ∃ s' x rest, (s.setCompress .read).seek z.inflate pos false = .ok s' ∧ Unread z content length s' 0 x rest ∧ data = x ++ rest ∧
      s.bufferLength ≤ s'.bufferLength := by
  obtain ⟨hc, hl, hp⟩ := s.file.seek_eq pos
  obtain ⟨s₁, hs₁, hrefill⟩ : ∃ s₁ : BufferedRandomAccessFile, s.setCompress .read = s₁ ∧ s₁.refill = true ∧ s₁.file = s.file ∧
      s₁.compressMode = .read ∧ s₁.bufferLength = s.bufferLength := by
    refine ⟨_, rfl, ?_⟩
    unfold setCompress
    rw [if_pos (.inr rfl)]
    exact ⟨rfl, rfl, rfl, rfl⟩
  obtain ⟨hrefill, hfile, hmode, hbuffer⟩ := hrefill
  have hlt := h.lt
  have hfollows : Follows z (s₁.file.seek pos).content (s₁.file.seek pos).length (s₁.file.seek pos).position data := by
    rw [hfile, hc, hl, hp, h.sameContent, h.sameLength]
    exact hf
  obtain ⟨s', x, rest, hfill, hunread, hx, -, -, -, hlong⟩ :=
    fill_unread (s := { s₁ with file := s₁.file.seek pos, position := pos }) hmode (show s₁.bufferLength < 2 ^ 31 by omega) hfollows
  refine ⟨s', x, rest, ?_, ?_, hx, ?_⟩
  · rw [hs₁]
    exact seek_refill hrefill hfill
  · have hsame : Unread z (s₁.file.seek pos).content (s₁.file.seek pos).length s' 0 x rest := hunread
    rwa [hfile, hc, hl, h.sameContent, h.sameLength] at hsame
  · exact Nat.le_trans (Nat.le_of_eq hbuffer.symm) hlong

theorem Unread.ready (h : Unread z content length s cur x rest) (hpos : 0 < s.bufferLength) : Ready content length (s.setCompress .none) := by
  have hlt := h.lt
  unfold setCompress
  rw [if_pos (.inl h.mode)]
  exact ⟨h.sameContent, h.sameLength, rfl, hpos, show (s.bufferLength : Int) < 2 ^ 31 by omega, fun hrefill => nomatch hrefill⟩

theorem Ready.fetch (h : Ready content length s) {r : Record} (hread : s.Readable z.inflate r) (hlength : r.length = data.length)
    (hlies : if r.compressed then Follows z content length r.start data else
      r.start + data.length ≤ length ∧ content.bytes r.start data.length = data) :
    ∃ s', s.fetch z.inflate r = .ok (data, s') ∧ Ready content length s' := by
  cases hcompressed : r.compressed with
  | true =>
    rw [if_pos hcompressed] at hlies
    obtain ⟨s₁, x, rest, hseek, hunread, hx, hlong⟩ := h.seek_section hlies
    have hto : s.seekTo z.inflate r = .ok s₁ := by rw [seekTo, if_pos hcompressed, hseek]
    have hfit := hread s₁ (by rw [hto]; rfl)
    obtain ⟨s₂, bytes', cur', x', rest', hrun, hbytes, hunread', -, hlong'⟩ :=
      hunread.readBytes (n := r.length) (by rw [← hx, hlength]) hfit (fun _ => 0) 0
    refine ⟨s₂.setCompress .none, ?_, hunread'.ready (Nat.lt_of_lt_of_le h.pos (Nat.le_trans hlong hlong'))⟩
    rw [BufferedRandomAccessFile.fetch, hto]
    simp only [hrun, bind, Except.bind, hcompressed, if_true, Int.toNat_natCast, hbytes, ← hx]
    rw [hlength, take_length]
    rfl
  | false =>
    rw [if_neg (by rw [hcompressed]; decide)] at hlies
    obtain ⟨s₁, hseek, hat⟩ := h.seek z.inflate (show r.start ≤ length by omega)
    have hto : s.seekTo z.inflate r = .ok s₁ := by rw [seekTo, if_neg (by rw [hcompressed]; decide), hseek]
    have hfit := hread s₁ (by rw [hto]; rfl)
    obtain ⟨s₂, hrun, hat'⟩ := hat.readBytes z.inflate h.pos h.lt hfit (fun _ => 0) 0
    have hall : min r.length (length - r.start) = r.length := Nat.min_eq_left (by omega)
    rw [hall] at hrun
    refine ⟨s₂, ?_, hat'.ready h.pos h.lt⟩
    rw [BufferedRandomAccessFile.fetch, hto]
    simp only [hrun, bind, Except.bind, hcompressed, Bool.false_eq_true, if_false, Int.toNat_natCast]
    rw [bytes_memcpy, hlength, hlies.2]
    rfl

end BufferedRandomAccessFile

/-! ## Written and read -/

/-- The reader and what it read so far; of a section it knows what was recorded. -/
def fetchStep (inflate : Inflate) (s : BufferedRandomAccessFile × List (List UInt8)) (x : Section × Record) :
    Option (BufferedRandomAccessFile × List (List UInt8)) :=
  (s.1.fetch inflate x.2).toOption.map fun r => (r.2, s.2 ++ [r.1])

theorem attach_written {σ : Type} (z : Zlib σ) (before : List UInt8) {bufferSize : Nat} (hB : 0 < bufferSize) (hB' : bufferSize < 2 ^ 31) :
    Written z (Writer.attach before bufferSize, []) [] := by
  refine ⟨before, ⟨⟨?_, rfl, Nat.zero_le _, hB'⟩, rfl, rfl, hB⟩, .nil⟩
  show before ++ bytes _ 0 0 = before
  rw [Buffer.bytes_zero, append_nil]

/-- What lies in a list of bytes lies in the file that holds it. -/
theorem bytes_between (before encoded behind : List UInt8) :
    (ofBytes (before ++ encoded ++ behind)).bytes before.length encoded.length = encoded := by
  rw [bytes_ofBytes (by simp only [length_append]; omega), append_assoc, drop_left, take_left]

theorem fetchStep_ready {σ : Type} {z : Zlib σ} {content : List UInt8} {s : BufferedRandomAccessFile × List (List UInt8)} {read : List (List UInt8)}
    {x : Section × Record} (h : s.1.Ready (ofBytes content) content.length ∧ s.2 = read) (hx : Laid z content x.1 x.2)
    (hread : s.1.Readable z.inflate x.2) :
    ∃ s', fetchStep z.inflate s x = some s' ∧ s'.1.Ready (ofBytes content) content.length ∧ s'.2 = read ++ [x.1.data] := by
  obtain ⟨hcompressed, hlength, before, encoded, behind, rfl, hstart, hencodes⟩ := hx
  have hin : before.length + encoded.length ≤ (before ++ encoded ++ behind).length := by
    simp only [length_append]
    omega
  have hlies : if x.2.compressed then
        BufferedRandomAccessFile.Follows z (ofBytes (before ++ encoded ++ behind)) (before ++ encoded ++ behind).length x.2.start x.1.data
      else x.2.start + x.1.data.length ≤ (before ++ encoded ++ behind).length ∧
        (ofBytes (before ++ encoded ++ behind)).bytes x.2.start x.1.data.length = x.1.data := by
    rw [hstart, hcompressed]
    unfold Section.Encodes at hencodes
    split at hencodes
    · rw [if_pos ‹_›]
      exact ⟨encoded, hencodes, hin, bytes_between before encoded behind⟩
    · rw [if_neg ‹_›, ← hencodes]
      exact ⟨hin, bytes_between before encoded behind⟩
  obtain ⟨s', hfetch, hready⟩ := h.1.fetch hread hlength hlies
  exact ⟨(s', s.2 ++ [x.1.data]), by rw [fetchStep, hfetch]; rfl, hready, by rw [h.2]⟩

theorem sections_round_trip {σ : Type} {z : Zlib σ} (hz : z.Documented) (before : List UInt8) {bufferSize : Nat} (hB : 0 < bufferSize)
    (hB' : bufferSize < 2 ^ 31) {sections : List Section}
    (hfits : Run.Meets (writeStep z) (fun s x => x.Fits z s.1) (Writer.attach before bufferSize, []) sections) :
    ∃ w records, Run.exec (writeStep z) (Writer.attach before bufferSize, []) sections = some (w, records) ∧ records.length = sections.length ∧
      ∀ readerSize : Nat, 0 < readerSize → (readerSize : Int) < 2 ^ 31 →
        ∃ s₀, BufferedRandomAccessFile.attach z.inflate (ofBytes w.flush.file) w.flush.file.length readerSize = .ok s₀ ∧
          ∀ reads : List (Section × Record),
            Run.Meets (fetchStep z.inflate) (fun s x => x ∈ sections.zip records ∧ s.1.Readable z.inflate x.2) (s₀, []) reads →
            ∃ s, Run.exec (fetchStep z.inflate) (s₀, []) reads = some (s, reads.map fun x => x.1.data) := by
  have hstep : ∀ {s : Writer σ × List Record} {done : List Section} {x : Section}, Written z s done → x.Fits z s.1 →
      ∃ s', writeStep z s x = some s' ∧ Written z s' (done ++ [x]) := writeStep_written hz
  obtain ⟨⟨w, records⟩, hexec, content, hsettled, hlaid⟩ :=
    Run.exec_of_meets (R := Written z) @hstep (attach_written z before hB hB') hfits
  rw [← flatMap_eq_foldl, List.flatMap_singleton'] at hlaid
  refine ⟨w, records, hexec, hlaid.length_eq.symm, fun readerSize hR hR' => ?_⟩
  obtain ⟨s₀, hattach, hat⟩ := attach_at z.inflate (ofBytes w.flush.file) w.flush.file.length hR
  refine ⟨s₀, hattach, fun reads hreads => ?_⟩
  have hfile : w.flush.file = content := hsettled.toHolds.file_flush
  rw [hfile] at hat
  have hread : ∀ {s : BufferedRandomAccessFile × List (List UInt8)} {read : List (List UInt8)} {x : Section × Record},
      s.1.Ready (ofBytes content) content.length ∧ s.2 = read → x ∈ sections.zip records ∧ s.1.Readable z.inflate x.2 →
      ∃ s', fetchStep z.inflate s x = some s' ∧ s'.1.Ready (ofBytes content) content.length ∧ s'.2 = read ++ [x.1.data] :=
    fun h hx => fetchStep_ready h ((forall₂_iff_zip.mp hlaid).2 hx.1) hx.2
  obtain ⟨⟨s, read⟩, hrun, -, rfl⟩ := Run.exec_of_meets (R := fun s read => s.1.Ready (ofBytes content) content.length ∧ s.2 = read) @hread
    ⟨hat.ready hR hR', rfl⟩ hreads
  refine ⟨s, ?_⟩
  rw [hrun, ← flatMap_eq_foldl, map_eq_flatMap]

/-- Through a buffer of 16 bytes: it doubles twice while the second section ends. -/
def threeSections : List Section :=
  [⟨false, [.bytes [1, 2, 3] 0 3], false⟩,
    ⟨true, [.byte 200, .bytes [201, 202, 203, 204, 205, 206, 207, 208, 209, 210, 211, 212, 213, 214, 215] 0 15], true⟩,
    ⟨false, [.byte 9, .bytes [7, 8] 1 1], false⟩]

theorem three_sections : ∃ w records s₀ s, Run.exec (writeStep Stored.zlib) (Writer.attach [] 16, []) threeSections = some (w, records) ∧
    BufferedRandomAccessFile.attach Stored.zlib.inflate (ofBytes w.flush.file) w.flush.file.length 8 = .ok s₀ ∧
    Run.exec (fetchStep Stored.zlib.inflate) (s₀, []) (threeSections.zip records).reverse =
      some (s, [[9, 8], [200, 201, 202, 203, 204, 205, 206, 207, 208, 209, 210, 211, 212, 213, 214, 215], [1, 2, 3]]) := by
  obtain ⟨w, records, hexec, hlength, hreads⟩ := sections_round_trip Stored.stored_documented [] (show 0 < 16 by decide) (by decide)
    (show Run.Meets (writeStep Stored.zlib) (fun s x => x.Fits Stored.zlib s.1) (Writer.attach [] 16, []) threeSections by decide +kernel)
  obtain ⟨s₀, hattach, hreads⟩ := hreads 8 (by decide) (by decide)
  have hmeets : Run.Meets (fetchStep Stored.zlib.inflate) (fun s x => x ∈ threeSections.zip records ∧ s.1.Readable Stored.zlib.inflate x.2) (s₀, [])
      (threeSections.zip records).reverse := by
    have hall : (Run.exec (writeStep Stored.zlib) (Writer.attach [] 16, []) threeSections).all (fun r =>
        (BufferedRandomAccessFile.attach Stored.zlib.inflate (ofBytes r.1.flush.file) r.1.flush.file.length 8).toOption.all fun s =>
          decide (Run.Meets (fetchStep Stored.zlib.inflate) (fun s x => x ∈ threeSections.zip r.2 ∧ s.1.Readable Stored.zlib.inflate x.2) (s, [])
            (threeSections.zip r.2).reverse)) = true := by decide +kernel
    simp only [hexec, Option.all_some, hattach] at hall
    exact of_decide_eq_true hall
  obtain ⟨s, hrun⟩ := hreads _ hmeets
  refine ⟨w, records, s₀, s, hexec, hattach, ?_⟩
  have hdata : (threeSections.zip records).reverse.map (fun x => x.1.data) = (threeSections.map Section.data).reverse := by
    have hfirst : (threeSections.zip records).map Prod.fst = threeSections := map_fst_zip (Nat.le_of_eq hlength.symm)
    rw [map_reverse, ← congrArg (List.map Section.data) hfirst, map_map]
    rfl
  rw [hrun, hdata]
  rfl

/-- Twelve bytes of sixteen are used: the sizes and what `deflate` puts out behind them start at the twentieth. -/
theorem header_outside_buffer : ¬∀ sections : List Section, (∀ s ∈ sections, ∀ x ∈ s.writes, x.Legal) →
    ∃ s, Run.exec (writeStep Stored.zlib) (Writer.attach [] 16, []) sections = some s := by
  intro h
  obtain ⟨s, hs⟩ := h [⟨false, [.bytes [0, 1, 2, 3, 4, 5, 6, 7, 8, 9, 10, 11] 0 12], false⟩, ⟨true, [.byte 65], false⟩] (by decide)
  have hnone : (Run.exec (writeStep Stored.zlib) (Writer.attach [] 16, [])
      [⟨false, [.bytes [0, 1, 2, 3, 4, 5, 6, 7, 8, 9, 10, 11] 0 12], false⟩, ⟨true, [.byte 65], false⟩]).isNone = true := by decide +kernel
  rw [hs] at hnone
  cases hnone

end DeepFabric.Store.BufferedFile
