/-
  DeepFabric.Store.BufferedFile — a file read through a buffer
  (`BufferedRandomAccessFile`, opened to read).

  `fill` reads a buffer full and three counters say where that is: `position` is where the file is
  behind it, `offset` how much of the buffer it filled, `cursor` how much of that is consumed. A
  read that runs over the end of the buffer takes what is left of it, fills and tries again; a
  seek into the buffer moves the cursor alone. In a compressed section `fill` reads a header and
  inflates the block behind it; `inflate` is a parameter.

  - `fill_window`, `readBytesLoop_window`, `skipLoop_eq`: what one fill and one retry loop do.
  - `buffered_refines_plain`: reads, skips and seeks answer as a plain cursor does, as long as the
    cursor and the asked length have a sum below 2^31 and nothing is skipped backwards; the first
    call that breaks this is answered otherwise.
-/
import DeepFabric.Lib.Buffer
import DeepFabric.Lib.Run

namespace DeepFabric.Store.BufferedFile

open Lib

/-- What an `inttype` keeps of a number. -/
def inttype (x : Int) : Int := x.bmod (2 ^ 32)

inductive Fault
  | invalid (message : String)
  /-- Memory outside the buffer. -/
  | outside
  /-- A loop that was given too few turns. -/
  | endless

/-! ## The file behind the buffer -/

/-- `RandomAccessFile`, opened to read; `ended` is what `feof` says. -/
structure RandomAccessFile where
  content : Buffer
  length : Nat
  position : Nat
  ended : Bool

namespace RandomAccessFile

/-- How much was read, the end of the file, the bytes read into and the file behind the read. -/
def read (f : RandomAccessFile) (b : Buffer) (off len : Nat) : Int × Bool × Buffer × RandomAccessFile :=
  let size := min len (f.length - f.position)
  let ended := f.ended || decide (size < len)
  if 0 < size then (size, decide (size < len), b.memcpy off f.content f.position size, { f with position := f.position + size, ended := ended })
  else (-1, ended, b, { f with ended := ended })

def readFullyRaw : Nat → RandomAccessFile → Buffer → Int → Int → Except Fault (Bool × Buffer × RandomAccessFile)
  | 0, _, _, _, _ => .error .endless
  | fuel + 1, f, b, n, len =>
    let (count, eof, b', f') := f.read b n.toNat (len - n).toNat
    if n < 0 ∧ 0 < count then .error .outside
    else if eof then .ok (true, b', f')
    else if n + count < len then readFullyRaw fuel f' b' (n + count) len
    else .ok (false, b', f')

def seek (f : RandomAccessFile) (pos : Nat) : RandomAccessFile :=
  if f.position = pos then f else { f with position := pos, ended := false }

theorem seek_eq (f : RandomAccessFile) (pos : Nat) : (f.seek pos).content = f.content ∧ (f.seek pos).length = f.length ∧ (f.seek pos).position = pos := by
  unfold seek
  split
  · exact ⟨rfl, rfl, ‹_›⟩
  · exact ⟨rfl, rfl, rfl⟩

end RandomAccessFile

/-! ## The buffer -/

inductive CompressMode
  | none
  | write
  | read
  deriving DecidableEq

structure BufferedRandomAccessFile where
  file : RandomAccessFile
  buffer : Buffer
  bufferLength : Nat
  position : Nat
  blockCompressionCursor : Int
  cursor : Int
  offset : Nat
  finalBlockInSeries : Bool
  compressMode : CompressMode
  blockLength : Int
  refill : Bool

def SIZE_RESERVE : Nat := 8
def MAX_UNCOMPRESSED_SIZE : Nat := 104857600

/-- What `zlib` makes of compressed bytes, given room for so many: nothing, unless the stream ends there. -/
abbrev Inflate := List UInt8 → Nat → Option (List UInt8)

def ofBytes (l : List UInt8) : Buffer := fun i => l.getD i 0

namespace BufferedRandomAccessFile

/-- The loop of `fill`: until the buffer is full, the file ends or a read returns nothing. -/
def fillLoop : Nat → RandomAccessFile → Buffer → Nat → Nat → Bool → Bool × Nat × Buffer × RandomAccessFile
  | 0, f, b, offset, _, eof => (eof, offset, b, f)
  | fuel + 1, f, b, offset, total, eof =>
    if eof = false ∧ 0 < total then
      let (size, ended, b', f') := f.read b offset total
      if size < 0 then (ended, offset, b', f')
      else fillLoop fuel f' b' (offset + size.toNat) (total - size.toNat) ended
    else (eof, offset, b, f)

/-- `fill` in a compressed section: the sizes, and the block behind them. -/
def fillBlock (inflate : Inflate) (s : BufferedRandomAccessFile) (validate : Bool) : Except Fault (Bool × BufferedRandomAccessFile) := do
  let (eof, sizeBuffer, file) ← s.file.readFullyRaw (SIZE_RESERVE + 2) (fun _ => 0) 0 SIZE_RESERVE
  if eof then throw (.invalid "Buffered random access file error: unexpected EOF on compressed read")
  let size := sizeBuffer.load 0 (SIZE_RESERVE / 2)
  let compressedSize := sizeBuffer.load (SIZE_RESERVE / 2) (SIZE_RESERVE / 2)
  let final : Bool := decide (2 ^ 31 ≤ size)
  let uncompressedSize := if final then size - 2 ^ 31 else size
  if validate && decide (MAX_UNCOMPRESSED_SIZE < uncompressedSize) then throw (.invalid "Buffered random access file error: uncompress size")
  if validate && decide (MAX_UNCOMPRESSED_SIZE < compressedSize) then throw (.invalid "Buffered random access file error: compress size")
  let length := inttype compressedSize
  if length < 0 then throw .outside
  let room := max s.bufferLength uncompressedSize
  let (eof, zipBuffer, file) ← file.readFullyRaw (compressedSize + 2) (fun _ => 0) 0 length
  if eof then throw (.invalid "Buffered random access file error: unexpected EOF on compressed read")
  match inflate (zipBuffer.bytes 0 compressedSize) room with
  | .none => throw (.invalid "Buffered random access file error: fill compressed inflate failure")
  | .some out =>
    pure (false,
      { s with
        file := file
        buffer := s.buffer.memcpy 0 (ofBytes out) 0 out.length
        bufferLength := room
        position := s.position + SIZE_RESERVE + compressedSize
        blockCompressionCursor := if s.refill = false ∧ s.finalBlockInSeries = false then inttype (s.blockCompressionCursor + s.cursor) else 0
        cursor := 0
        offset := out.length
        finalBlockInSeries := final
        blockLength := SIZE_RESERVE + compressedSize
        refill := false })

/-- With it: whether the file ended. -/
def fill (inflate : Inflate) (s : BufferedRandomAccessFile) (validate : Bool) : Except Fault (Bool × BufferedRandomAccessFile) :=
  match s.compressMode with
  | .read => fillBlock inflate s validate
  | _ =>
    let (eof, offset, b, f) := fillLoop (s.bufferLength + 1) s.file s.buffer 0 s.bufferLength false
    .ok (eof, { s with file := f, buffer := b, offset := offset, position := s.position + offset, cursor := 0, refill := false })

def available (s : BufferedRandomAccessFile) : Int := s.offset

def getFilePointer (s : BufferedRandomAccessFile) : Int := ((s.position : Int) - s.offset) + s.cursor

/-- `System::arraycopy` out of the buffer. -/
def arraycopy (s : BufferedRandomAccessFile) (bytes : Buffer) (offset : Nat) (length : Int) : Except Fault Buffer :=
  if length = 0 then .ok bytes
  else if 0 ≤ s.cursor ∧ 0 ≤ length ∧ s.cursor + length ≤ s.bufferLength then
    .ok (bytes.memcpy offset s.buffer s.cursor.toNat length.toNat)
  else .error .outside

/-- A read that has consumed the buffer fills it at once. -/
def fillConsumed (inflate : Inflate) (s : BufferedRandomAccessFile) : Except Fault BufferedRandomAccessFile := do
  let diff := inttype (s.available - s.cursor)
  if diff = 0 ∧ (s.compressMode = .none ∨ s.finalBlockInSeries = false) then
    let (_, s) ← s.fill inflate false
    pure s
  else pure s

def readLoop (inflate : Inflate) : Nat → BufferedRandomAccessFile → Except Fault (Int × Bool × BufferedRandomAccessFile)
  | 0, _ => .error .endless
  | fuel + 1, s =>
    if s.available < inttype (s.cursor + 1) then do
      let (fillEof, s) ← s.fill inflate false
      if 0 < s.available then readLoop inflate fuel s else pure (-1, fillEof, s)
    else if 0 ≤ s.cursor ∧ s.cursor < s.bufferLength then do
      let b := s.buffer s.cursor.toNat
      let s ← fillConsumed inflate { s with cursor := inttype (s.cursor + 1) }
      pure (b.toNat, false, s)
    else .error .outside

/-- `read()`: the byte or -1, whether it found the end of the file, and the file behind it. -/
def read (inflate : Inflate) (s : BufferedRandomAccessFile) : Except Fault (Int × Bool × BufferedRandomAccessFile) :=
  readLoop inflate (s.file.length + 1) s

def readBytesLoop (inflate : Inflate) :
    Nat → BufferedRandomAccessFile → Buffer → Nat → Int → Int → Except Fault (Int × Bool × Buffer × BufferedRandomAccessFile)
  | 0, _, _, _, _, _ => .error .endless
  | fuel + 1, s, bytes, offset, length, bytesRead =>
    if s.available < inttype (s.cursor + length) then do
      let diff := inttype (s.available - s.cursor)
      let bytes ← s.arraycopy bytes offset diff
      let (fillEof, s) ← s.fill inflate false
      if 0 < s.available then
        readBytesLoop inflate fuel s bytes (offset + diff.toNat) (inttype (length - diff)) (inttype (bytesRead + diff))
      else pure (inttype (bytesRead + diff), fillEof, bytes, s)
    else do
      let bytes ← s.arraycopy bytes offset length
      pure (inttype (bytesRead + length), false, bytes, { s with cursor := inttype (s.cursor + length) })

/-- `read(bytes, offset, length)`: how many, whether it found the end of the file, the bytes and the file behind it. -/
def readBytes (inflate : Inflate) (s : BufferedRandomAccessFile) (bytes : Buffer) (offset : Nat) (length : Int) :
    Except Fault (Int × Bool × Buffer × BufferedRandomAccessFile) := do
  let (bytesRead, eof, bytes, s) ← readBytesLoop inflate (s.file.length + 1) s bytes offset length 0
  let s ← fillConsumed inflate s
  pure (bytesRead, eof, bytes, s)

def skipLoop (inflate : Inflate) : Nat → BufferedRandomAccessFile → Int → Int → Except Fault (Int × Bool × BufferedRandomAccessFile)
  | 0, _, _, _ => .error .endless
  | fuel + 1, s, n, bytesSkipped =>
    if s.available < inttype (s.cursor + n) then do
      let diff := inttype (s.available - s.cursor)
      let (fillEof, s) ← s.fill inflate false
      if 0 < s.available then skipLoop inflate fuel s (inttype (n - diff)) (inttype (bytesSkipped + diff))
      else pure (inttype (bytesSkipped + diff), fillEof, s)
    else pure (inttype (bytesSkipped + n), false, { s with cursor := inttype (s.cursor + n) })

/-- `skipBytes(n)`: how many, whether it found the end of the file, and the file behind it. -/
def skipBytes (inflate : Inflate) (s : BufferedRandomAccessFile) (n : Int) : Except Fault (Int × Bool × BufferedRandomAccessFile) :=
  skipLoop inflate (s.file.length + 1) s n 0

def seek (inflate : Inflate) (s : BufferedRandomAccessFile) (pos : Nat) (validate : Bool) : Except Fault BufferedRandomAccessFile :=
  if s.refill = true ∨ s.compressMode = .read ∨ s.getFilePointer ≠ pos then
    let currentBufferStart : Int := (s.position : Int) - s.offset
    let currentBufferEnd := currentBufferStart + s.available
    if s.refill = false ∧ currentBufferStart ≤ pos ∧ pos < currentBufferEnd then
      .ok { s with cursor := inttype (pos - currentBufferStart) }
    else do
      let (_, s) ← fill inflate { s with file := s.file.seek pos, position := pos } validate
      pure s
  else .ok s

/-- A buffer of so many bytes on a file, opened to read. -/
def attach (inflate : Inflate) (content : Buffer) (length bufferSize : Nat) : Except Fault BufferedRandomAccessFile := do
  let file : RandomAccessFile := { content := content, length := length, position := length, ended := false }
  let (_, s) ← fill inflate
    { file := file.seek 0
      buffer := fun _ => 0
      bufferLength := bufferSize
      position := 0
      blockCompressionCursor := 0
      cursor := 0
      offset := 0
      finalBlockInSeries := false
      compressMode := .none
      blockLength := -1
      refill := false } false
  pure s

end BufferedRandomAccessFile

/-! ## What the buffer holds -/

theorem inttype_eq {x : Int} (h : -2 ^ 31 ≤ x) (h' : x < 2 ^ 31) : inttype x = x := by
  unfold inttype
  rw [Int.bmod_eq_of_le] <;> omega

theorem inttype_wrap {x : Int} (h : 2 ^ 31 ≤ x) (h' : x < 2 ^ 32) : inttype x = x - 2 ^ 32 := by
  unfold inttype
  rw [← Int.sub_bmod_right, Int.bmod_eq_of_le] <;> omega

namespace BufferedRandomAccessFile

/-- Read without compression, the file at `p`. -/
structure Stands (content : Buffer) (length B : Nat) (s : BufferedRandomAccessFile) (p : Nat) : Prop where
  sameContent : s.file.content = content
  sameLength : s.file.length = length
  filePosition : s.file.position = p
  position : s.position = p
  le : p ≤ length
  bufferLength : s.bufferLength = B
  mode : s.compressMode = .none

/-- The buffer holds `off` bytes of the file from `start` on, `cur` of them consumed. -/
structure Window (content : Buffer) (length B : Nat) (s : BufferedRandomAccessFile) (start off cur : Nat) : Prop
    extends Stands content length B s (start + off) where
  offset : s.offset = off
  cursor : s.cursor = cur
  consumed : cur ≤ off
  filled : off ≤ B
  bytes : ∀ i < off, s.buffer i = content (start + i)
  refill : s.refill = false

variable {content : Buffer} {length B : Nat}

variable {p : Nat}

theorem fillLoop_full {f : RandomAccessFile} {b : Buffer} (hp : f.position = p) (hle : p ≤ f.length) (hB : 0 < B) :
    ∃ ended, fillLoop (B + 1) f b 0 B false =
      (decide (f.length - p < B), min B (f.length - p), b.memcpy 0 f.content p (min B (f.length - p)),
        { f with position := p + min B (f.length - p), ended := ended }) := by
  subst hp
  obtain ⟨n, rfl⟩ : ∃ n, B = n + 1 := ⟨B - 1, by omega⟩
  rcases Nat.eq_zero_or_pos (f.length - f.position) with h0 | hpos
  · refine ⟨true, ?_⟩
    simp [fillLoop, RandomAccessFile.read, h0, Buffer.memcpy_zero]
  · have hsize : 0 < min (n + 1) (f.length - f.position) := by omega
    rcases Nat.lt_or_ge (f.length - f.position) (n + 1) with hlt | hge
    · refine ⟨true, ?_⟩
      have hmin : min (n + 1) (f.length - f.position) = f.length - f.position := Nat.min_eq_right (Nat.le_of_lt hlt)
      simp [fillLoop, RandomAccessFile.read, hmin, hpos, hlt]
    · refine ⟨f.ended, ?_⟩
      have hmin : min (n + 1) (f.length - f.position) = n + 1 := Nat.min_eq_left hge
      simp [fillLoop, RandomAccessFile.read, hmin, Nat.not_lt.mpr hge]
      omega

variable {s : BufferedRandomAccessFile} {v : Bool}

theorem fill_window (inflate : Inflate) (h : Stands content length B s p) (hB : 0 < B) :
    ∃ s', s.fill inflate v = .ok (decide (length - p < B), s') ∧ Window content length B s' p (min B (length - p)) 0 := by
  obtain ⟨ended, hloop⟩ := fillLoop_full (b := s.buffer) h.filePosition (by rw [h.sameLength]; exact h.le) hB
  rw [h.sameContent, h.sameLength] at hloop
  unfold fill
  simp only [h.mode, h.bufferLength, hloop]
  have hle := h.le
  refine ⟨_, rfl, ⟨⟨rfl, rfl, rfl, ?_, by omega, rfl, rfl⟩, rfl, rfl, Nat.zero_le _, Nat.min_le_left _ _, fun i hi => ?_, rfl⟩⟩
  · rw [h.position]
  · have hbyte : s.buffer.memcpy 0 content p (min B (length - p)) (0 + i) = content (p + i) := Buffer.memcpy_inside hi
    rwa [Nat.zero_add] at hbyte

/-- The buffer is filled, and the next byte to be read is the one at `pos`. -/
def At (content : Buffer) (length B : Nat) (s : BufferedRandomAccessFile) (pos : Nat) : Prop :=
  ∃ start off cur, Window content length B s start off cur ∧ start + cur = pos

variable {pos : Nat}

theorem At.getFilePointer : At content length B s pos → s.getFilePointer = pos := by
  rintro ⟨start, off, cur, h, rfl⟩
  rw [BufferedRandomAccessFile.getFilePointer, h.position, h.offset, h.cursor]
  omega

variable {start off cur n : Nat}

theorem Window.arraycopy (h : Window content length B s start off cur) (bytes : Buffer)
    (o : Nat) (hn : cur + n ≤ off) : s.arraycopy bytes o n = .ok (bytes.memcpy o content (start + cur) n) := by
  have hfilled := h.filled
  have hcopy : bytes.memcpy o s.buffer cur n = bytes.memcpy o content (start + cur) n := by
    funext i
    unfold Buffer.memcpy
    split
    · rw [h.bytes _ (by omega), Nat.add_assoc]
    · rfl
  rw [BufferedRandomAccessFile.arraycopy, h.cursor, h.bufferLength, ← hcopy]
  rcases Nat.eq_zero_or_pos n with rfl | hpos
  · rw [if_pos Int.natCast_zero, Buffer.memcpy_zero]
  · rw [if_neg (by omega), if_pos (by omega), Int.toNat_natCast, Int.toNat_natCast]

variable {fuel : Nat}

theorem readBytesLoop_over {inflate : Inflate} {s' : BufferedRandomAccessFile} {bytes bytes' : Buffer} {o : Nat} {n done diff : Int}
    {eof : Bool} (hover : s.available < inttype (s.cursor + n)) (hdiff : inttype (s.available - s.cursor) = diff)
    (hcopy : s.arraycopy bytes o diff = .ok bytes') (hfill : s.fill inflate false = .ok (eof, s')) :
    readBytesLoop inflate (fuel + 1) s bytes o n done =
      if 0 < s'.available then readBytesLoop inflate fuel s' bytes' (o + diff.toNat) (inttype (n - diff)) (inttype (done + diff))
      else .ok (inttype (done + diff), eof, bytes', s') := by
  rw [readBytesLoop, if_pos hover, hdiff]
  simp only [hcopy, hfill, bind, Except.bind]
  rfl

variable (inflate : Inflate) (hB : 0 < B) (hB' : (B : Int) < 2 ^ 31)

include inflate hB hB' in
theorem readBytesLoop_window (h : Window content length B s start off cur) (hfuel : length - (start + off) < fuel)
    (n done : Nat) (hn : (cur : Int) + n < 2 ^ 31) (hdone : (done : Int) + n < 2 ^ 31) (bytes : Buffer) (o : Nat) :
    ∃ s', readBytesLoop inflate fuel s bytes o n done =
        .ok (↑(done + min n (length - (start + cur))), decide (length - (start + cur) < n),
          bytes.memcpy o content (start + cur) (min n (length - (start + cur))), s') ∧
      At content length B s' (start + cur + min n (length - (start + cur))) := by
  induction fuel generalizing s start off cur n done bytes o with
  | zero => exact absurd hfuel (Nat.not_lt_zero _)
  | succ fuel ih =>
    have hle := h.le
    have hconsumed := h.consumed
    have hsum : inttype (s.cursor + n) = ↑(cur + n) := by rw [h.cursor, inttype_eq (by omega) (by omega), Int.natCast_add]
    by_cases hover : off < cur + n
    · -- what is left of the buffer, and the rest out of the next ones
      have hmin : off - cur + min (n - (off - cur)) (length - (start + off + 0)) = min n (length - (start + cur)) := by omega
      have hpos : start + off + 0 = start + cur + (off - cur) := by omega
      have hlt : length - (start + off + 0) < n - (off - cur) ↔ length - (start + cur) < n := by omega
      have hfew : min B (length - (start + off)) = 0 ∧ length - (start + off) < B ∧ length - (start + cur) < n ∧
            min n (length - (start + cur)) = off - cur ∨
          0 < min B (length - (start + off)) ∧ length - (start + off + min B (length - (start + off))) < fuel := by
        rcases Nat.eq_zero_or_pos (length - (start + off)) with hend | hmore
        · rw [hend, Nat.min_zero]
          exact .inl ⟨rfl, hB, by omega, by omega⟩
        · have hstep : 0 < min B (length - (start + off)) := Nat.lt_min.mpr ⟨hB, hmore⟩
          exact .inr ⟨hstep, by omega⟩
      have hfits : ((0 : Nat) : Int) + ↑(n - (off - cur)) < 2 ^ 31 := by omega
      have hrest : (↑(done + (off - cur)) : Int) + ↑(n - (off - cur)) < 2 ^ 31 := by omega
      have hdiff : inttype (s.available - s.cursor) = ↑(off - cur) := by
        rw [available, h.offset, h.cursor, inttype_eq (by omega) (by omega), Int.ofNat_sub hconsumed]
      have hleft : inttype ((n : Int) - ↑(off - cur)) = ↑(n - (off - cur)) := by rw [inttype_eq (by omega) (by omega)]; omega
      have hsofar : inttype ((done : Int) + ↑(off - cur)) = ↑(done + (off - cur)) := by rw [inttype_eq (by omega) (by omega), Int.natCast_add]
      obtain ⟨s1, hfill, h1⟩ := fill_window inflate (v := false) h.toStands hB
      rw [readBytesLoop_over (by rw [hsum, available, h.offset]; exact Int.ofNat_lt.mpr hover) hdiff (h.arraycopy bytes o (by omega)) hfill, hleft,
        hsofar, available, h1.offset, Int.toNat_natCast]
      rcases hfew with ⟨hk, hB1, hn1, hmin1⟩ | ⟨hk, hfuel1⟩
      · rw [hk, if_neg (by simp), hmin1, decide_eq_true hB1, decide_eq_true hn1]
        exact ⟨s1, rfl, _, _, _, h1, hpos⟩
      · obtain ⟨s', hrun, hat⟩ := ih h1 hfuel1 (n - (off - cur)) (done + (off - cur)) hfits hrest
          (bytes.memcpy o content (start + cur) (off - cur)) (o + (off - cur))
        refine ⟨s', ?_, ?_⟩
        · rw [if_pos (Int.natCast_pos.mpr hk), hrun, decide_eq_decide.mpr hlt, ← hmin, ← Nat.add_assoc, ← Buffer.memcpy_memcpy, ← hpos]
        · rw [← hmin, ← Nat.add_assoc, ← hpos]
          exact hat
    · have hmin : min n (length - (start + cur)) = n := by omega
      have hret : inttype ((done : Int) + n) = ↑(done + n) := by rw [inttype_eq (by omega) (by omega), Int.natCast_add]
      have hwithin : ¬s.available < inttype (s.cursor + n) := by
        rw [hsum, available, h.offset]
        omega
      rw [readBytesLoop, if_neg hwithin, hsum, h.arraycopy bytes o (by omega), hret, hmin, decide_eq_false (by omega)]
      exact ⟨_, rfl, start, off, cur + n, { h with cursor := rfl, consumed := by omega }, (Nat.add_assoc _ _ _).symm⟩

theorem skipLoop_of_readBytesLoop {inflate : Inflate} {s' : BufferedRandomAccessFile} {bytes bytes' : Buffer} {o : Nat}
    {n done k : Int} {eof : Bool} (h : readBytesLoop inflate fuel s bytes o n done = .ok (k, eof, bytes', s')) :
    skipLoop inflate fuel s n done = .ok (k, eof, s') := by
  induction fuel generalizing s bytes o n done with
  | zero => cases h
  | succ fuel ih =>
    rw [skipLoop]
    by_cases hover : s.available < inttype (s.cursor + n)
    · rw [if_pos hover]
      cases hcopy : s.arraycopy bytes o (inttype (s.available - s.cursor)) with
      | error e =>
        simp only [readBytesLoop, if_pos hover, hcopy, bind, Except.bind] at h
        cases h
      | ok bytes₁ =>
        cases hfill : s.fill inflate false with
        | error e =>
          simp only [readBytesLoop, if_pos hover, hcopy, hfill, bind, Except.bind] at h
          cases h
        | ok r =>
          rw [readBytesLoop_over hover rfl hcopy hfill] at h
          show (if 0 < r.2.available then _ else _) = _
          split at h
          case isTrue hmore =>
            rw [if_pos hmore]
            exact ih h
          case isFalse hmore =>
            rw [if_neg hmore]
            cases h
            rfl
    · rw [readBytesLoop, if_neg hover] at h
      rw [if_neg hover]
      cases hcopy : s.arraycopy bytes o n with
      | error e =>
        rw [hcopy] at h
        cases h
      | ok bytes₁ =>
        rw [hcopy] at h
        cases h
        rfl

include inflate hB hB' in
theorem At.fillConsumed :
    At content length B s pos → ∃ s', BufferedRandomAccessFile.fillConsumed inflate s = .ok s' ∧ At content length B s' pos := by
  rintro ⟨start, off, cur, h, rfl⟩
  have hconsumed := h.consumed
  have hfilled := h.filled
  have hdiff : inttype (s.available - s.cursor) = ↑(off - cur) := by
    rw [available, h.offset, h.cursor, inttype_eq (by omega) (by omega), Int.ofNat_sub hconsumed]
  rw [BufferedRandomAccessFile.fillConsumed, hdiff]
  rcases Nat.eq_or_lt_of_le hconsumed with rfl | hlt
  · obtain ⟨s', hfill, h'⟩ := fill_window inflate (v := false) h.toStands hB
    rw [if_pos ⟨by simp, Or.inl h.mode⟩, hfill]
    exact ⟨s', rfl, _, _, _, h', rfl⟩
  · rw [if_neg (by omega)]
    exact ⟨s, rfl, start, off, cur, h, rfl⟩

include inflate hB hB' in
theorem Window.readLoop
    (h : Window content length B s start off cur) (hcur : cur < off) (fuel : Nat) :
    ∃ s', readLoop inflate (fuel + 1) s = .ok ((content (start + cur)).toNat, false, s') ∧ At content length B s' (start + cur + 1) := by
  have hfilled := h.filled
  have hnext : inttype (s.cursor + 1) = ↑(cur + 1) := by rw [h.cursor, inttype_eq (by omega) (by omega), Int.natCast_add, Int.natCast_one]
  have hwithin : ¬s.available < inttype (s.cursor + 1) := by
    rw [hnext, available, h.offset]
    omega
  have hin : 0 ≤ s.cursor ∧ s.cursor < s.bufferLength := by
    rw [h.cursor, h.bufferLength]
    omega
  have hat : At content length B { s with cursor := inttype (s.cursor + 1) } (start + cur + 1) :=
    ⟨start, off, cur + 1, { h with cursor := hnext, consumed := hcur }, (Nat.add_assoc _ _ _).symm⟩
  obtain ⟨s', hfill, hat'⟩ := hat.fillConsumed inflate hB hB'
  rw [BufferedRandomAccessFile.readLoop, if_neg hwithin, if_pos hin, h.cursor, Int.toNat_natCast, h.bytes cur hcur, ← h.cursor, hfill]
  exact ⟨s', rfl, hat'⟩

include inflate hB hB' in
theorem At.read
    (hs : At content length B s pos) (hfit : s.cursor + 1 < 2 ^ 31) :
    ∃ s', s.read inflate = .ok (if pos < length then (content pos).toNat else -1, decide (length < pos + 1), s') ∧
      At content length B s' (pos + min 1 (length - pos)) := by
  obtain ⟨start, off, cur, h, rfl⟩ := hs
  have hle := h.le
  have hconsumed := h.consumed
  rw [BufferedRandomAccessFile.read, h.sameLength]
  rcases Nat.lt_or_eq_of_le hconsumed with hlt | rfl
  · obtain ⟨s', hread, hat⟩ := h.readLoop inflate hB hB' hlt length
    rw [hread, if_pos (by omega), decide_eq_false (by omega), Nat.min_eq_left (by omega)]
    exact ⟨s', rfl, hat⟩
  · obtain ⟨s1, hfill, h1⟩ := fill_window inflate (v := false) h.toStands hB
    have hover : s.available < inttype (s.cursor + 1) := by
      rw [h.cursor] at hfit ⊢
      rw [available, h.offset, inttype_eq (by omega) (by omega)]
      omega
    rw [BufferedRandomAccessFile.readLoop, if_pos hover, hfill]
    show ∃ s', (if 0 < s1.available then _ else _) = _ ∧ _
    rw [available, h1.offset]
    rcases Nat.lt_or_ge (start + cur) length with hmore | hend
    · obtain ⟨n, rfl⟩ : ∃ n, length = n + 1 := ⟨length - 1, by omega⟩
      obtain ⟨s', hread, hat⟩ := h1.readLoop inflate hB hB' (by omega) n
      rw [if_pos (by omega), if_pos hmore, decide_eq_false (by omega), hread, Nat.min_eq_left (by omega)]
      exact ⟨s', rfl, hat⟩
    · rw [if_neg (by omega), if_neg (by omega), decide_eq_true (by omega), decide_eq_true (by omega), Nat.sub_eq_zero_of_le hend]
      exact ⟨s1, rfl, _, _, _, h1, rfl⟩

include inflate hB hB' in
theorem At.readBytes
    (hs : At content length B s pos) (hfit : s.cursor + n < 2 ^ 31) (bytes : Buffer) (o : Nat) :
    ∃ s', s.readBytes inflate bytes o n =
        .ok (↑(min n (length - pos)), decide (length < pos + n), bytes.memcpy o content pos (min n (length - pos)), s') ∧
      At content length B s' (pos + min n (length - pos)) := by
  obtain ⟨start, off, cur, h, rfl⟩ := hs
  have hle := h.le
  have hconsumed := h.consumed
  rw [h.cursor] at hfit
  obtain ⟨s1, hloop, hat⟩ := readBytesLoop_window inflate hB hB' h (show length - (start + off) < length + 1 by omega) n 0 hfit (by omega) bytes o
  obtain ⟨s', hfill, hat'⟩ := hat.fillConsumed inflate hB hB'
  have hlt : length - (start + cur) < n ↔ length < start + cur + n := by omega
  rw [Int.natCast_zero, Nat.zero_add, decide_eq_decide.mpr hlt] at hloop
  rw [BufferedRandomAccessFile.readBytes, h.sameLength, hloop]
  show ∃ s', (BufferedRandomAccessFile.fillConsumed inflate s1 >>= _) = _ ∧ _
  rw [hfill]
  exact ⟨s', rfl, hat'⟩

include inflate hB hB' in
theorem At.skipBytes
    (hs : At content length B s pos) (hfit : s.cursor + n < 2 ^ 31) :
    ∃ s', s.skipBytes inflate n = .ok (↑(min n (length - pos)), decide (length < pos + n), s') ∧
      At content length B s' (pos + min n (length - pos)) := by
  obtain ⟨start, off, cur, h, rfl⟩ := hs
  have hle := h.le
  have hconsumed := h.consumed
  rw [h.cursor] at hfit
  obtain ⟨s1, hloop, hat⟩ := readBytesLoop_window inflate hB hB' h (show length - (start + off) < length + 1 by omega) n 0 hfit (by omega)
    (fun _ => 0) 0
  have hlt : length - (start + cur) < n ↔ length < start + cur + n := by omega
  rw [Int.natCast_zero, Nat.zero_add, decide_eq_decide.mpr hlt] at hloop
  rw [BufferedRandomAccessFile.skipBytes, h.sameLength]
  exact ⟨s1, skipLoop_of_readBytesLoop hloop, hat⟩

theorem seek_fill (inflate : Inflate) (hB : 0 < B) (hcontent : s.file.content = content)
    (hlength : s.file.length = length) (hbuffer : s.bufferLength = B) (hmode : s.compressMode = .none) (hpos : pos ≤ length) :
    ∃ eof s', fill inflate { s with file := s.file.seek pos, position := pos } v = .ok (eof, s') ∧
      Window content length B s' pos (min B (length - pos)) 0 := by
  obtain ⟨hc, hl, hp⟩ := s.file.seek_eq pos
  have hstands : Stands content length B { s with file := s.file.seek pos, position := pos } pos :=
    ⟨hc.trans hcontent, hl.trans hlength, hp, rfl, hpos, hbuffer, hmode⟩
  obtain ⟨s', hfill, h'⟩ := fill_window inflate (v := v) hstands hB
  exact ⟨_, s', hfill, h'⟩

include inflate hB hB' in
theorem At.seek
    (hs : At content length B s p) (hpos : pos ≤ length) :
    ∃ s', s.seek inflate pos v = .ok s' ∧ At content length B s' pos := by
  have hptr := hs.getFilePointer
  obtain ⟨start, off, cur, h, rfl⟩ := hs
  have hfilled := h.filled
  have hstart : (s.position : Int) - s.offset = start := by
    rw [h.position, h.offset]
    omega
  unfold BufferedRandomAccessFile.seek
  by_cases hsame : start + cur = pos
  · rw [if_neg (by simp [h.refill, h.mode, hptr, hsame])]
    exact ⟨s, rfl, start, off, cur, h, hsame⟩
  · rw [if_pos (Or.inr (Or.inr (by omega)))]
    by_cases hin : start ≤ pos ∧ pos < start + off
    · have hcur : inttype ((pos : Int) - ((s.position : Int) - s.offset)) = ↑(pos - start) := by
        rw [hstart, inttype_eq (by omega) (by omega), Int.ofNat_sub hin.1]
      refine ⟨_, if_pos ⟨h.refill, ?_, ?_⟩, start, off, pos - start, { h with cursor := hcur, consumed := by omega }, by omega⟩
      · rw [hstart]
        omega
      · rw [hstart, available, h.offset]
        omega
    · obtain ⟨eof, s', hfill, h'⟩ := seek_fill inflate (v := v) hB h.sameContent h.sameLength h.bufferLength h.mode hpos
      refine ⟨s', (if_neg ?_).trans ?_, _, _, _, h', rfl⟩
      · rw [hstart, available, h.offset]
        omega
      · rw [hfill]
        rfl

end BufferedRandomAccessFile

/-! ## A plain cursor -/

inductive Call
  | seek (pos : Nat) (validate : Bool)
  | read
  | readBytes (bytes : Buffer) (offset : Nat) (length : Int)
  | skipBytes (n : Int)

/-- What a call returns, what it makes of the flag for the end of the file and of the bytes read
into, and what `getFilePointer` returns behind it. -/
structure Answer where
  result : Int
  eof : Bool
  bytes : Option Buffer
  pointer : Int

namespace Call

open BufferedRandomAccessFile

def run (inflate : Inflate) (s : BufferedRandomAccessFile) : Call → Except Fault (Answer × BufferedRandomAccessFile)
  | seek pos validate => do
    let s ← s.seek inflate pos validate
    pure (⟨0, false, none, s.getFilePointer⟩, s)
  | read => do
    let (b, eof, s) ← s.read inflate
    pure (⟨b, eof, none, s.getFilePointer⟩, s)
  | readBytes bytes offset length => do
    let (bytesRead, eof, bytes, s) ← s.readBytes inflate bytes offset length
    pure (⟨bytesRead, eof, some bytes, s.getFilePointer⟩, s)
  | skipBytes n => do
    let (bytesSkipped, eof, s) ← s.skipBytes inflate n
    pure (⟨bytesSkipped, eof, none, s.getFilePointer⟩, s)

/-- The call on a cursor over the bytes themselves. -/
def plain (content : Buffer) (length pos : Nat) : Call → Answer × Nat
  | seek p _ => (⟨0, false, none, p⟩, p)
  | read =>
    let p := pos + min 1 (length - pos)
    (⟨if pos < length then (content pos).toNat else -1, length < pos + 1, none, p⟩, p)
  | readBytes bytes offset n =>
    let count := min n.toNat (length - pos)
    (⟨count, length < pos + n.toNat, some (bytes.memcpy offset content pos count), ↑(pos + count)⟩, pos + count)
  | skipBytes n =>
    let count := min n.toNat (length - pos)
    (⟨count, length < pos + n.toNat, none, ↑(pos + count)⟩, pos + count)

/-- Within the file, and an `inttype`. -/
def Legal (length : Nat) : Call → Prop
  | seek pos _ => pos ≤ length
  | read => True
  | readBytes _ _ n => 0 ≤ n ∧ n < 2 ^ 31
  | skipBytes n => -2 ^ 31 ≤ n ∧ n < 2 ^ 31

/-- What is asked for, counted from the start of the buffer, is an `inttype`, and not behind the cursor. -/
def Fits (cursor : Int) : Call → Prop
  | seek _ _ => True
  | read => cursor + 1 < 2 ^ 31
  | readBytes _ _ n => cursor + n < 2 ^ 31
  | skipBytes n => 0 ≤ n ∧ cursor + n < 2 ^ 31

instance (length : Nat) : (c : Call) → Decidable (c.Legal length)
  | seek pos _ => inferInstanceAs (Decidable (pos ≤ length))
  | read => inferInstanceAs (Decidable True)
  | readBytes _ _ n => inferInstanceAs (Decidable (0 ≤ n ∧ n < 2 ^ 31))
  | skipBytes n => inferInstanceAs (Decidable (-2 ^ 31 ≤ n ∧ n < 2 ^ 31))

instance (cursor : Int) : (c : Call) → Decidable (c.Fits cursor)
  | seek _ _ => inferInstanceAs (Decidable True)
  | read => inferInstanceAs (Decidable (cursor + 1 < 2 ^ 31))
  | readBytes _ _ n => inferInstanceAs (Decidable (cursor + n < 2 ^ 31))
  | skipBytes n => inferInstanceAs (Decidable (0 ≤ n ∧ cursor + n < 2 ^ 31))

variable {content : Buffer} {length B : Nat}

variable {s : BufferedRandomAccessFile} {pos : Nat} {c : Call}

theorem run_at (inflate : Inflate) (hB : 0 < B) (hB' : (B : Int) < 2 ^ 31) (hs : At content length B s pos) (hl : c.Legal length) (hf : c.Fits s.cursor) :
    ∃ s', c.run inflate s = .ok ((c.plain content length pos).1, s') ∧ At content length B s' (c.plain content length pos).2 := by
  cases c with
  | seek p validate =>
    obtain ⟨s', hrun, hat⟩ := hs.seek inflate hB hB' (v := validate) hl
    refine ⟨s', ?_, hat⟩
    simp only [run, plain, hrun, bind, Except.bind, pure, Except.pure, hat.getFilePointer]
  | read =>
    obtain ⟨s', hrun, hat⟩ := hs.read inflate hB hB' hf
    refine ⟨s', ?_, hat⟩
    simp only [run, plain, hrun, bind, Except.bind, pure, Except.pure, hat.getFilePointer]
  | readBytes bytes offset n =>
    obtain ⟨n, rfl⟩ := Int.eq_ofNat_of_zero_le hl.1
    obtain ⟨s', hrun, hat⟩ := hs.readBytes inflate hB hB' hf bytes offset
    refine ⟨s', ?_, hat⟩
    simp only [run, plain, hrun, bind, Except.bind, pure, Except.pure, hat.getFilePointer, Int.toNat_natCast]
  | skipBytes n =>
    obtain ⟨n, rfl⟩ := Int.eq_ofNat_of_zero_le hf.1
    obtain ⟨s', hrun, hat⟩ := hs.skipBytes inflate hB hB' hf.2
    refine ⟨s', ?_, hat⟩
    simp only [run, plain, hrun, bind, Except.bind, pure, Except.pure, hat.getFilePointer, Int.toNat_natCast]

/-- A sum that wraps looks as if the buffer held it all: a read then leaves the buffer, and a skip moves back. -/
theorem differs_at (inflate : Inflate) (hB' : (B : Int) < 2 ^ 31) (hs : At content length B s pos) (hl : c.Legal length) (hf : ¬c.Fits s.cursor) :
    ¬∃ s', c.run inflate s = .ok ((c.plain content length pos).1, s') := by
  obtain ⟨start, off, cur, h, rfl⟩ := hs
  have hconsumed := h.consumed
  have hfilled := h.filled
  have havailable : s.available = off := by rw [available, h.offset]
  intro ⟨s', hrun⟩
  cases c with
  | seek p validate => exact hf trivial
  | read =>
    have hcur : s.cursor + 1 = 2 ^ 31 := by
      have := Int.not_lt.mp hf
      rw [h.cursor] at this ⊢
      omega
    have hwithin : ¬s.available < inttype (s.cursor + 1) := by
      rw [havailable, hcur, inttype_wrap (Int.le_refl _) (by decide)]
      omega
    have hout : ¬(0 ≤ s.cursor ∧ s.cursor < s.bufferLength) := by
      rw [h.bufferLength]
      omega
    simp only [run, BufferedRandomAccessFile.read, readLoop, if_neg hwithin, if_neg hout, bind, Except.bind] at hrun
    cases hrun
  | readBytes bytes offset n =>
    obtain ⟨hn, hn'⟩ := hl
    have hsum : 2 ^ 31 ≤ s.cursor + n := Int.not_lt.mp hf
    have hwithin : ¬s.available < inttype (s.cursor + n) := by
      rw [havailable, inttype_wrap hsum (by rw [h.cursor]; omega)]
      rw [h.cursor]
      omega
    have hout : s.arraycopy bytes offset n = .error .outside := by
      rw [h.cursor] at hsum
      rw [arraycopy, if_neg (by omega), if_neg]
      rw [h.cursor, h.bufferLength]
      omega
    simp only [run, BufferedRandomAccessFile.readBytes, readBytesLoop, if_neg hwithin, hout, bind, Except.bind] at hrun
    cases hrun
  | skipBytes n =>
    obtain ⟨hn, hn'⟩ := hl
    have hwrapped : n < 0 ∧ inttype (s.cursor + n) = cur + n ∨ 0 ≤ n ∧ inttype (s.cursor + n) = cur + n - 2 ^ 32 := by
      rw [h.cursor]
      rcases Int.lt_or_le n 0 with hneg | hpos
      · exact .inl ⟨hneg, inttype_eq (by omega) (by omega)⟩
      · refine .inr ⟨hpos, inttype_wrap ?_ (by omega)⟩
        rw [← h.cursor]
        exact Int.not_lt.mp fun hlt => hf ⟨hpos, hlt⟩
    have hwithin : ¬s.available < inttype (s.cursor + n) := by
      rw [havailable]
      omega
    simp only [run, BufferedRandomAccessFile.skipBytes, skipLoop, if_neg hwithin, bind, Except.bind, pure, Except.pure, plain, Except.ok.injEq,
      Prod.mk.injEq, Answer.mk.injEq] at hrun
    obtain ⟨⟨hresult, -, -, hpointer⟩, -⟩ := hrun
    rcases hwrapped with ⟨hneg, -⟩ | ⟨hpos, hwrap⟩
    · rw [Int.zero_add, inttype_eq hn hn'] at hresult
      omega
    · simp only [getFilePointer, hwrap, h.position, h.offset] at hpointer
      omega

/-- A call answers as the plain cursor does exactly if it fits. -/
theorem answers_iff (inflate : Inflate) (hB : 0 < B) (hB' : (B : Int) < 2 ^ 31)
    (hs : At content length B s pos) (hl : c.Legal length) :
    (∃ s', c.run inflate s = .ok ((c.plain content length pos).1, s')) ↔ c.Fits s.cursor := by
  constructor
  · intro hrun
    by_contra hf
    exact differs_at inflate hB' hs hl hf hrun
  · intro hf
    obtain ⟨s', hrun, -⟩ := run_at inflate hB hB' hs hl hf
    exact ⟨s', hrun⟩

end Call

/-! ## Runs -/

/-- The file and what it answered so far. -/
def step (inflate : Inflate) (s : BufferedRandomAccessFile × List Answer) (c : Call) : Option (BufferedRandomAccessFile × List Answer) :=
  (c.run inflate s.1).toOption.map fun r => (r.2, s.2 ++ [r.1])

/-- The same for a cursor. -/
def plainStep (content : Buffer) (length : Nat) (s : Nat × List Answer) (c : Call) : Nat × List Answer :=
  ((c.plain content length s.1).2, s.2 ++ [(c.plain content length s.1).1])

/-- All that is answered on a file opened anew. -/
def answers (inflate : Inflate) (content : Buffer) (length bufferSize : Nat) (calls : List Call) : Option (List Answer) :=
  (BufferedRandomAccessFile.attach inflate content length bufferSize).toOption.bind fun s =>
    (Run.exec (step inflate) (s, []) calls).map Prod.snd

def plainAnswers (content : Buffer) (length : Nat) (calls : List Call) : List Answer :=
  (calls.foldl (plainStep content length) (0, [])).2

theorem attach_at (inflate : Inflate) (content : Buffer) (length : Nat) {B : Nat} (hB : 0 < B) :
    ∃ s, BufferedRandomAccessFile.attach inflate content length B = .ok s ∧ s.At content length B 0 := by
  have hseek : RandomAccessFile.seek ⟨content, length, length, false⟩ 0 = ⟨content, length, 0, false⟩ := by
    unfold RandomAccessFile.seek
    split
    case isTrue h => rw [show length = 0 from h]
    case isFalse => rfl
  have hstands : BufferedRandomAccessFile.Stands content length B
      ⟨⟨content, length, 0, false⟩, fun _ => 0, B, 0, 0, 0, 0, false, .none, -1, false⟩ 0 :=
    ⟨rfl, rfl, rfl, rfl, Nat.zero_le _, rfl, rfl⟩
  obtain ⟨s, hfill, h⟩ := BufferedRandomAccessFile.fill_window inflate (v := false) hstands hB
  refine ⟨s, ?_, _, _, _, h, rfl⟩
  rw [BufferedRandomAccessFile.attach, hseek, hfill]
  rfl

/-- They stand at one place and gave the same answers. -/
def Refines (content : Buffer) (length B : Nat) (s : BufferedRandomAccessFile × List Answer) (p : Nat × List Answer) : Prop :=
  s.1.At content length B p.1 ∧ s.2 = p.2

theorem step_refines (inflate : Inflate) {content : Buffer} {length B : Nat} (hB : 0 < B) (hB' : (B : Int) < 2 ^ 31)
    {s : BufferedRandomAccessFile × List Answer} {p : Nat × List Answer} {c : Call} (h : Refines content length B s p)
    (hc : c.Legal length ∧ c.Fits s.1.cursor) :
    ∃ s', step inflate s c = some s' ∧ Refines content length B s' (plainStep content length p c) := by
  obtain ⟨s', hrun, hat⟩ := c.run_at inflate hB hB' h.1 hc.1 hc.2
  refine ⟨(s', s.2 ++ [(c.plain content length p.1).1]), ?_, hat, ?_⟩
  · rw [step, hrun]
    rfl
  · rw [h.2]
    rfl

theorem buffered_refines_plain (inflate : Inflate) (content : Buffer) (length : Nat) {bufferSize : Nat} (hB : 0 < bufferSize)
    (hB' : (bufferSize : Int) < 2 ^ 31) :
    ∃ s₀, BufferedRandomAccessFile.attach inflate content length bufferSize = .ok s₀ ∧ s₀.getFilePointer = 0 ∧
      ∀ calls, Run.Meets (step inflate) (fun s c => c.Legal length ∧ c.Fits s.1.cursor) (s₀, []) calls →
        ∃ s, Run.exec (step inflate) (s₀, []) calls = some (s, plainAnswers content length calls) ∧
          ∀ c : Call, c.Legal length →
            ((∃ s', c.run inflate s = .ok ((c.plain content length (calls.foldl (plainStep content length) (0, [])).1).1, s')) ↔
              c.Fits s.cursor) := by
  obtain ⟨s₀, hattach, hat⟩ := attach_at inflate content length hB
  refine ⟨s₀, hattach, hat.getFilePointer, fun calls hcalls => ?_⟩
  obtain ⟨⟨s, answers⟩, hrun, hat', hanswers⟩ := Run.exec_of_meets (step_refines inflate hB hB') (r := (0, []))
    (show Refines content length bufferSize _ _ from ⟨hat, rfl⟩) hcalls
  refine ⟨s, ?_, fun c hl => c.answers_iff inflate hB hB' hat' hl⟩
  rw [hrun, plainAnswers, ← hanswers]

/-- Five bytes through a buffer of two: up to its edge, over it, into it and past the end. -/
def fiveCalls : List Call :=
  [.read, .readBytes (fun _ => 0) 0 3, .skipBytes 9, .seek 3 false, .read, .skipBytes 1, .seek 1 false, .readBytes (fun _ => 0) 2 9]

theorem five_calls : (answers (fun _ _ => none) (ofBytes [10, 11, 12, 13, 14]) 5 2 fiveCalls).map (List.map fun a => (a.result, a.eof, a.pointer)) =
    some [(10, false, 1), (3, false, 4), (1, true, 5), (0, false, 3), (13, false, 4), (1, false, 5), (0, false, 1), (4, true, 5)] := by
  obtain ⟨s₀, hattach, -, hcalls⟩ :=
    buffered_refines_plain (fun _ _ => none) (ofBytes [10, 11, 12, 13, 14]) 5 (show 0 < 2 by decide) (by decide)
  have hmeets : Run.Meets (step fun _ _ => none) (fun s c => c.Legal 5 ∧ c.Fits s.1.cursor) (s₀, []) fiveCalls := by
    have hall : (BufferedRandomAccessFile.attach (fun _ _ => none) (ofBytes [10, 11, 12, 13, 14]) 5 2).toOption.all (fun s =>
        decide (Run.Meets (step fun _ _ => none) (fun s c => c.Legal 5 ∧ c.Fits s.1.cursor) (s, []) fiveCalls)) = true := by decide +kernel
    rw [hattach] at hall
    exact of_decide_eq_true hall
  obtain ⟨s, hrun, -⟩ := hcalls fiveCalls hmeets
  simp only [answers, hattach, Except.toOption, Option.bind_some, hrun, Option.map_some]
  decide

/-- The cursor, 1, and 2147483647 have no sum that is an `inttype`: three bytes are skipped as if there were as many. -/
theorem skip_past_end_moves_back : ¬∀ calls : List Call, (∀ c ∈ calls, c.Legal 3) →
    answers (fun _ _ => none) (ofBytes [10, 11, 12]) 3 4 calls = some (plainAnswers (ofBytes [10, 11, 12]) 3 calls) := by
  intro h
  have hcalls := congrArg (Option.map (List.map Answer.result)) (h [.read, .skipBytes 2147483647] (by decide))
  revert hcalls
  decide +kernel

end DeepFabric.Store.BufferedFile
