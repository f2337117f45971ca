/-
  DeepFabric.Wire.BundleState — the counters of a bundle writer over whole runs
  (cxx/io/MsgBundle.h: writer; cxx/io/EncodeProtocol.h: getMutableBuffer).

  What is left is m_iBufferLen - m_iWritten, and what is asked for is a message's length and that
  of its header, both in 32 bits. Closing hands the buffer over and sets m_iBufferLen to 0, but
  leaves m_iWritten. append and finalizeReservation take the buffer out of the message's writer
  before they look at anything, and finalizeReservation adds before it compares.

  A call leaves a state behind when it throws, too. Nothing goes on after a fault.

  - `reserve_refused`, `reserve_closed`, `reserve_wraps`, `reserve_open`: all that reserve does.
  - `Sound`: the calls that do what they are to do; `sound_iff`: exactly these.

  As built: `closed_reserve_faults`, `append_takes_buffer`, `finalize_effect`. After close the check
  passes on a null buffer; a message that does not fit loses its buffer with the exception; a
  reservation that is too long stays added to m_iWritten.
-/
import DeepFabric.Lib.Run
import DeepFabric.Wire.MsgBundle

namespace DeepFabric.Wire

open Option
open BitVec (le_def not_lt toNat_add)

/-- getMutableBuffer: the bytes, m_iWritten, and the writer without its buffer. m_iWritten stays. -/
def getMutableBuffer (w : Writer) : Bytes × BitVec 32 × Writer :=
  (w.written, w.iWritten, { w with written := [], actualLen := 0, bufferLen := 0, reached := 0 })

namespace MsgBundle

open Lib.Run

/-- BUNDLE_SIZE bytes from the heap. -/
def fresh (content : Nat → UInt8) : Bytes := (List.range bundleSize.toNat).map content

/-- A caller's message: a writer whose header is written, and whose buffer holds what it has written. -/
structure Message where
  writer : Wire.Writer
  header : headerSize ≤ writer.iWritten
  bytes : writer.iWritten.toNat ≤ writer.written.length

def Writer.remainingSpace (b : Writer) : Except Stop (BitVec 32) :=
  if b.written > b.bufferLen then .error (.exception "Remaining space detected a buffer error.") else .ok (b.bufferLen - b.written)

inductive Call where
  | reserve (iBufferLen iMsgId : BitVec 32)
  | append (pcMsg : Message)
  | finalizeReservation (pcWriter : Wire.Writer)
  | remainingSpace
  | close (iMsgId : BitVec 32)
  | reopen (content : Nat → UInt8)

inductive Returned where
  | status (iRetVal : Int)
  /-- A writer around `len` bytes of the buffer from `pos` on. -/
  | writer (pos len : Nat)
  | space (iRemain : BitVec 32)

/-- What a call leaves behind, whether it returns or throws. -/
structure Effect where
  bundle : Writer
  /-- The writer that was passed. None is one that was deleted, or no writer at all. -/
  pcWriter : Option Wire.Writer
  result : Except Stop Returned

def effect (b : Writer) : Call → Effect
  | .reserve iBufferLen iMsgId =>
    ⟨b, none, (b.reserve iBufferLen iMsgId).map fun w => .writer b.written.toNat w.actualLen.toNat⟩
  | .append pcMsg =>
    match b.append pcMsg.writer with
    | .ok (iRetVal, b') => ⟨b', none, .ok (.status iRetVal)⟩
    | .error stop => ⟨b, some (getMutableBuffer pcMsg.writer).2.2, .error stop⟩
  | .finalizeReservation pcWriter =>
    match b.finalizeReservation pcWriter with
    | .ok (iRetVal, b') => ⟨b', none, .ok (.status iRetVal)⟩
    -- m_iWritten has been added to
    | .error stop => ⟨{ b with written := b.written + pcWriter.iWritten }, some (getMutableBuffer pcWriter).2.2, .error stop⟩
  | .remainingSpace => ⟨b, none, b.remainingSpace.map .space⟩
  | .close iMsgId =>
    match b.close iMsgId with
    | .ok (iRetVal, _, b') => ⟨b', none, .ok (if iRetVal = 0 then .writer 0 b.bufferLen.toNat else .status iRetVal)⟩
    | .error stop => ⟨b, none, .error stop⟩
  | .reopen content => ⟨b.reopen (fresh content), none, .ok (.status 0)⟩

def step (b : Writer) (c : Call) : Option Writer :=
  match (effect b c).result with
  | .error (.fault _) => none
  | _ => some (effect b c).bundle

/-! ## What is to hold -/

def Writer.IsOpen (b : Writer) : Prop := b.buffer.isSome = true

/-- There is a buffer, with room for `n` more bytes. -/
def Writer.Fits (b : Writer) (n : Nat) : Prop := b.IsOpen ∧ b.written.toNat + n ≤ b.bufferLen.toNat

def Writer.Bounded (b : Writer) : Prop := b.IsOpen → bundlePreamble ≤ b.written ∧ b.written ≤ b.bufferLen

/-- An exception that leaves the bundle and the writer that was passed as they were. -/
def Effect.Throws (e : Effect) (b : Writer) (pcWriter : Option Wire.Writer) : Prop :=
  (∃ message, e.result = .error (.exception message)) ∧ e.bundle = b ∧ e.pcWriter = pcWriter

/-- reserve and append throw when the message does not fit. -/
def Throwing (b : Writer) : Call → Prop
  | .reserve iBufferLen iMsgId => ¬b.Fits (iBufferLen.toNat + 16) → (effect b (.reserve iBufferLen iMsgId)).Throws b none
  | .append pcMsg => ¬b.Fits pcMsg.writer.iWritten.toNat → (effect b (.append pcMsg)).Throws b (some pcMsg.writer)
  | _ => True

structure Behaves (b : Writer) (c : Call) : Prop where
  bounded : (effect b c).bundle.Bounded
  throws : Throwing b c
  window : ∀ pos len, (effect b c).result = .ok (.writer pos len) → pos + len ≤ bundleSize.toNat

/-- A reservation that the check turns down, or in an open bundle one whose length with a header is no more than a uinttype;
    a message that fits an open bundle; and writers whose length, added to m_iWritten, stays in the buffer or wraps around
    to a place in it. -/
def Sound (b : Writer) : Call → Prop
  | .reserve iBufferLen _ => b.bufferLen - b.written < iBufferLen + headerSize ∨ (¬b.IsOpen ∧ b.written = 0) ∨
      (b.IsOpen ∧ iBufferLen.toNat + 16 < 2 ^ 32)
  | .append pcMsg => b.Fits pcMsg.writer.iWritten.toNat
  | .finalizeReservation pcWriter => b.IsOpen →
      b.written.toNat + pcWriter.iWritten.toNat ≤ b.bufferLen.toNat ∨ 2 ^ 32 + 20 ≤ b.written.toNat + pcWriter.iWritten.toNat
  | _ => True

instance (b : Writer) : Decidable b.IsOpen := inferInstanceAs (Decidable (_ = true))
instance (b : Writer) (n : Nat) : Decidable (b.Fits n) := inferInstanceAs (Decidable (_ ∧ _))
instance (b : Writer) : (c : Call) → Decidable (Sound b c)
  | .reserve _ _ => inferInstanceAs (Decidable (_ ∨ _ ∨ _))
  | .append _ => inferInstanceAs (Decidable (_ ∧ _))
  | .finalizeReservation _ => inferInstanceAs (Decidable (_ → _))
  | .remainingSpace => inferInstanceAs (Decidable True)
  | .close _ => inferInstanceAs (Decidable True)
  | .reopen _ => inferInstanceAs (Decidable True)

/-- Open, the bundle has its whole buffer; closed, it has none of it. -/
structure Kept (b : Writer) : Prop where
  opened : ∀ mem, b.buffer = some mem → bundleSize.toNat ≤ mem.length ∧ b.bufferLen = bundleSize ∧ 20 ≤ b.written.toNat ∧
    b.written.toNat ≤ bundleSize.toNat
  closed : b.buffer = none → b.bufferLen = 0

/-! ## reserve -/

section Reserve

variable {b : Writer} {iBufferLen : BitVec 32} (iMsgId : BitVec 32)

theorem reserve_refused (h : b.bufferLen - b.written < iBufferLen + headerSize) :
    b.reserve iBufferLen iMsgId = .error (.exception "Reservation exceeds remaining buffer size.") := if_pos h

theorem reserve_closed (hbuf : b.buffer = none) (h : ¬b.bufferLen - b.written < iBufferLen + headerSize) :
    if b.written = 0 then b.reserve iBufferLen iMsgId = .error (.exception "Internal buffer error.")
    else ∃ f, b.reserve iBufferLen iMsgId = .error (.fault f) := by
  simp only [Writer.reserve, if_neg h]
  by_cases h0 : b.written = 0
  · rw [if_pos h0, if_pos ⟨hbuf, h0⟩]
  · rw [if_neg h0, if_neg fun hn => h0 hn.2]
    by_cases hheader : headerSize > iBufferLen + headerSize
    · exact ⟨.abort, if_pos hheader⟩
    · exact ⟨.overrun, by rw [if_neg hheader, if_pos hbuf]⟩

theorem reserve_wraps {mem : Bytes} (hbuf : b.buffer = some mem) (h : ¬b.bufferLen - b.written < iBufferLen + headerSize)
    (hwrap : 2 ^ 32 ≤ iBufferLen.toNat + 16) : b.reserve iBufferLen iMsgId = .error (.fault .abort) := by
  have h16 : headerSize.toNat = 16 := rfl
  have hheader : headerSize > iBufferLen + headerSize := by
    rw [gt_iff_lt, BitVec.lt_def, toNat_add, h16]
    omega
  have hopen : ¬(b.buffer = none ∧ b.written = 0) := by
    rw [hbuf]
    exact fun hn => some_ne_none mem hn.1
  simp only [Writer.reserve, if_neg h]
  rw [if_neg hopen, if_pos hheader]

end Reserve

/-! ## What a call leaves -/

theorem isOpen_some {b : Writer} {mem : Bytes} (h : b.buffer = some mem) : b.IsOpen := by
  rw [Writer.IsOpen, h]
  rfl

theorem not_isOpen_none {b : Writer} (h : b.buffer = none) : ¬b.IsOpen := by
  rw [Writer.IsOpen, h]
  exact Bool.false_ne_true

theorem length_le_store {mem : Bytes} {pos : Nat} (h : pos ≤ mem.length) (bytes : Bytes) : mem.length ≤ (store mem pos bytes).length := by
  rw [store, List.length_append, List.length_append, List.length_take, List.length_drop]
  omega

theorem finalize_effect (b : Writer) (pcWriter : Wire.Writer) :
    (effect b (.finalizeReservation pcWriter)).bundle.written = b.written + pcWriter.iWritten ∧
    (effect b (.finalizeReservation pcWriter)).bundle.bufferLen = b.bufferLen ∧
    ((effect b (.finalizeReservation pcWriter)).bundle.buffer = b.buffer ∨ ∃ mem, b.buffer = some mem ∧
      (effect b (.finalizeReservation pcWriter)).bundle.buffer = some (store mem b.written.toNat pcWriter.written)) ∧
    (effect b (.finalizeReservation pcWriter)).bundle.buffer.isSome = b.buffer.isSome ∧
    ((effect b (.finalizeReservation pcWriter)).result = .ok (.status 0) ∨
      ∃ message, (effect b (.finalizeReservation pcWriter)).result = .error (.exception message)) := by
  by_cases h : b.written + pcWriter.iWritten > b.bufferLen
  · have hfin : b.finalizeReservation pcWriter = .error (.exception "Finalize operation caused buffer overrun.") := if_pos h
    simp only [effect, hfin]
    exact ⟨trivial, trivial, .inl trivial, trivial, .inr ⟨_, rfl⟩⟩
  · have hfin : b.finalizeReservation pcWriter = .ok (0, { b with
        buffer := b.buffer.map fun mem => store mem b.written.toNat pcWriter.written
        written := b.written + pcWriter.iWritten }) := if_neg h
    simp only [effect, hfin]
    refine ⟨trivial, trivial, ?_, ?_, .inl trivial⟩
    · cases b.buffer with
      | none => exact .inl rfl
      | some mem => exact .inr ⟨mem, rfl, rfl⟩
    · cases b.buffer <;> rfl

theorem remainingSpace_result (b : Writer) (f : Fault) : b.remainingSpace.map Returned.space ≠ .error (.fault f) := by
  rw [Writer.remainingSpace]
  split_ifs
  · exact fun h => by cases h
  · exact fun h => by cases h

namespace Kept

variable {b : Writer} (hb : Kept b)
include hb

theorem bounded : b.Bounded := by
  intro hopen
  obtain ⟨mem, hbuf⟩ := isSome_iff_exists.mp hopen
  obtain ⟨-, hlen, hlow, hhigh⟩ := hb.opened mem hbuf
  rw [hlen, le_def, le_def]
  exact ⟨hlow, hhigh⟩

/-- In an open bundle the check is whether the message fits. -/
theorem fits_iff {mem : Bytes} (hbuf : b.buffer = some mem) (n : BitVec 32) : ¬b.bufferLen - b.written < n ↔ b.Fits n.toNat := by
  obtain ⟨-, hlen, -, hhigh⟩ := hb.opened mem hbuf
  have hsub : (b.bufferLen - b.written).toNat = b.bufferLen.toNat - b.written.toNat :=
    BitVec.toNat_sub_of_le (by rw [hlen, le_def]; exact hhigh)
  have hle : b.written.toNat ≤ b.bufferLen.toNat := by rw [hlen]; exact hhigh
  rw [not_lt, le_def, hsub, Writer.Fits]
  exact ⟨fun h => ⟨isOpen_some hbuf, by omega⟩, fun h => by have := h.2; omega⟩

/-- A reservation behaves exactly if it is turned down by an exception, or fits an open bundle. -/
theorem reserve_iff (iBufferLen iMsgId : BitVec 32) : Sound b (.reserve iBufferLen iMsgId) ↔ Behaves b (.reserve iBufferLen iMsgId) := by
  have h16 : headerSize.toNat = 16 := rfl
  have thrown (message : String) (h : b.reserve iBufferLen iMsgId = .error (.exception message)) : Behaves b (.reserve iBufferLen iMsgId) := by
    refine ⟨hb.bounded, fun _ => ⟨⟨message, ?_⟩, rfl, rfl⟩, fun pos len hw => ?_⟩
    · rw [effect, h]
      rfl
    · rw [effect, h] at hw
      cases hw
  have faulted (f : Fault) (h : b.reserve iBufferLen iMsgId = .error (.fault f)) (hfit : ¬b.Fits (iBufferLen.toNat + 16)) :
      ¬Behaves b (.reserve iBufferLen iMsgId) := by
    intro hbe
    obtain ⟨⟨message, hres⟩, -, -⟩ := hbe.throws hfit
    rw [effect, h] at hres
    cases hres
  by_cases hcheck : b.bufferLen - b.written < iBufferLen + headerSize
  · exact ⟨fun _ => thrown _ (reserve_refused iMsgId hcheck), fun _ => .inl hcheck⟩
  cases hbuf : b.buffer with
  | none =>
    have hclosed := reserve_closed iMsgId hbuf hcheck
    have hopen := not_isOpen_none hbuf
    by_cases h0 : b.written = 0
    · rw [if_pos h0] at hclosed
      exact ⟨fun _ => thrown _ hclosed, fun _ => .inr (.inl ⟨hopen, h0⟩)⟩
    · rw [if_neg h0] at hclosed
      obtain ⟨f, hf⟩ := hclosed
      refine ⟨fun h => ?_, fun h => absurd h (faulted f hf fun hfit => hopen hfit.1)⟩
      rcases h with h | ⟨-, h⟩ | ⟨h, -⟩
      · exact absurd h hcheck
      · exact absurd h h0
      · exact absurd h hopen
  | some mem =>
    obtain ⟨-, hlen, -, hhigh⟩ := hb.opened mem hbuf
    have hopen := isOpen_some hbuf
    by_cases hwrap : iBufferLen.toNat + 16 < 2 ^ 32
    · refine ⟨fun _ => ?_, fun _ => .inr (.inr ⟨hopen, hwrap⟩)⟩
      have hsum : (iBufferLen + headerSize).toNat = iBufferLen.toNat + 16 := by
        rw [toNat_add, h16]
        exact Nat.mod_eq_of_lt hwrap
      have hfit := (hb.fits_iff hbuf _).mp hcheck
      rw [hsum] at hfit
      have hres := Writer.reserve_open hbuf hcheck (by rw [gt_iff_lt, not_lt, le_def, hsum]; omega) iMsgId
      refine ⟨hb.bounded, fun hnot => absurd hfit hnot, fun pos len hw => ?_⟩
      rw [effect, hres] at hw
      cases hw
      show b.written.toNat + (iBufferLen + headerSize).toNat ≤ bundleSize.toNat
      rw [hsum, ← hlen]
      exact hfit.2
    · have hfault := reserve_wraps iMsgId hbuf hcheck (Nat.le_of_not_lt hwrap)
      have hfit : ¬b.Fits (iBufferLen.toNat + 16) := by
        intro hfit
        have hle := hfit.2
        rw [hlen, toNat_bundleSize] at hle
        omega
      refine ⟨fun h => ?_, fun h => absurd h (faulted _ hfault hfit)⟩
      rcases h with h | ⟨h, -⟩ | ⟨-, h⟩
      · exact absurd h hcheck
      · exact absurd hopen h
      · exact absurd h hwrap

/-- A message that fits is taken over, with the room it takes. -/
theorem append_fits {pcMsg : Message} (h : b.Fits pcMsg.writer.iWritten.toNat) :
    ∃ b', effect b (.append pcMsg) = ⟨b', none, .ok (.status 0)⟩ ∧ Kept b' := by
  obtain ⟨mem, hbuf⟩ := isSome_iff_exists.mp h.1
  obtain ⟨hmem, hlen, hlow, hhigh⟩ := hb.opened mem hbuf
  have hfit := h.2
  rw [hlen, toNat_bundleSize] at hfit
  have hcopy : copy pcMsg.writer.written pcMsg.writer.iWritten = .ok (pcMsg.writer.written.take pcMsg.writer.iWritten.toNat) :=
    if_pos pcMsg.bytes
  have happ := Writer.append_open hbuf ((hb.fits_iff hbuf _).mpr h) hcopy
  refine ⟨_, by rw [effect, happ], ⟨fun mem' hmem' => ?_, fun hnone => by cases hnone⟩⟩
  cases hmem'
  have hsum : (b.written + pcMsg.writer.iWritten).toNat = b.written.toNat + pcMsg.writer.iWritten.toNat := by
    rw [toNat_add]
    exact Nat.mod_eq_of_lt (by omega)
  refine ⟨Nat.le_trans hmem (length_le_store ?_ _), hlen, ?_, ?_⟩
  · rw [toNat_bundleSize] at hmem
    omega
  · show 20 ≤ (b.written + pcMsg.writer.iWritten).toNat
    omega
  · show (b.written + pcMsg.writer.iWritten).toNat ≤ bundleSize.toNat
    rw [hsum, toNat_bundleSize]
    exact hfit

/-- A message that does not fit is without its buffer afterwards, if it comes to that at all. -/
theorem append_iff (pcMsg : Message) : Sound b (.append pcMsg) ↔ Behaves b (.append pcMsg) := by
  constructor
  · intro h
    obtain ⟨b', heff, hb'⟩ := hb.append_fits h
    refine ⟨by rw [heff]; exact hb'.bounded, fun hnot => absurd h hnot, fun pos len hw => ?_⟩
    rw [heff] at hw
    cases hw
  · intro hbe
    by_contra hnot
    obtain ⟨⟨message, hres⟩, -, hmsg⟩ := hbe.throws hnot
    cases happ : b.append pcMsg.writer with
    | ok ret =>
      simp only [effect, happ] at hres
      cases hres
    | error stop =>
      simp only [effect, happ, Option.some.injEq] at hmsg
      have hnil : pcMsg.writer.written = [] := (congrArg Wire.Writer.written hmsg).symm
      have hlen := pcMsg.bytes
      have hheader := pcMsg.header
      have h16 : headerSize.toNat = 16 := rfl
      rw [hnil, List.length_nil] at hlen
      rw [le_def] at hheader
      omega

/-- What is added stays in the buffer, or wraps around to a place in it. -/
theorem added_iff {mem : Bytes} (hbuf : b.buffer = some mem) (n : BitVec 32) :
    (b.written.toNat + n.toNat ≤ b.bufferLen.toNat ∨ 2 ^ 32 + 20 ≤ b.written.toNat + n.toNat) ↔
      20 ≤ (b.written + n).toNat ∧ (b.written + n).toNat ≤ b.bufferLen.toNat := by
  obtain ⟨-, hlen, hlow, hhigh⟩ := hb.opened mem hbuf
  rw [toNat_bundleSize] at hhigh
  rw [hlen, toNat_bundleSize, toNat_add]
  omega

theorem finalize_iff (pcWriter : Wire.Writer) :
    Sound b (.finalizeReservation pcWriter) ↔ Behaves b (.finalizeReservation pcWriter) := by
  obtain ⟨hwritten, hlen, -, hopen, hres⟩ := finalize_effect b pcWriter
  constructor
  · intro h
    refine ⟨fun hop => ?_, trivial, fun pos len hw => ?_⟩
    · rw [Writer.IsOpen, hopen] at hop
      obtain ⟨mem, hbuf⟩ := isSome_iff_exists.mp hop
      rw [hwritten, hlen, le_def, le_def]
      exact (hb.added_iff hbuf _).mp (h hop)
    · rcases hres with hres | ⟨message, hres⟩ <;> rw [hres] at hw <;> cases hw
  · intro hbe hop
    obtain ⟨mem, hbuf⟩ := isSome_iff_exists.mp hop
    have hbound := hbe.bounded (by rw [Writer.IsOpen, hopen]; exact hop)
    rw [hwritten, hlen, le_def, le_def] at hbound
    exact (hb.added_iff hbuf _).mpr hbound

theorem finalize_kept {pcWriter : Wire.Writer} (h : Sound b (.finalizeReservation pcWriter)) :
    Kept (effect b (.finalizeReservation pcWriter)).bundle := by
  obtain ⟨hwritten, hlen, hbuffer, hopen, -⟩ := finalize_effect b pcWriter
  constructor
  · intro mem' hmem'
    have hop : b.IsOpen := by
      rw [Writer.IsOpen, ← hopen, hmem']
      rfl
    obtain ⟨mem, hbuf⟩ := isSome_iff_exists.mp hop
    obtain ⟨hmem, hlen', hlow, hhigh⟩ := hb.opened mem hbuf
    have hadd := (hb.added_iff hbuf pcWriter.iWritten).mp (h hop)
    rw [hwritten, hlen, ← hlen']
    refine ⟨?_, rfl, hadd⟩
    rw [hlen']
    rcases hbuffer with hsame | ⟨mem₀, hbuf₀, hstore⟩
    · rw [hsame, hbuf] at hmem'
      cases hmem'
      exact hmem
    · rw [hbuf] at hbuf₀
      cases hbuf₀
      rw [hstore] at hmem'
      cases hmem'
      exact Nat.le_trans hmem (length_le_store (Nat.le_trans hhigh hmem) _)
  · intro hnone
    have hclosed : b.buffer = none := by
      rw [hnone] at hopen
      exact isSome_eq_false_iff.mp hopen.symm |> isNone_iff_eq_none.mp
    rw [hlen]
    exact hb.closed hclosed

/-- An open bundle is closed, and its buffer is handed over. -/
theorem close_open {mem : Bytes} (hbuf : b.buffer = some mem) (iMsgId : BitVec 32) :
    ∃ bytes, b.close iMsgId = .ok (0, bytes, { b with buffer := none, bufferLen := 0 }) := by
  obtain ⟨hmem, hlen, hlow, hhigh⟩ := hb.opened mem hbuf
  have h16 : headerSize.toNat = 16 := rfl
  rw [toNat_bundleSize] at hmem hhigh
  have hover : ¬b.written > b.bufferLen := by
    rw [gt_iff_lt, not_lt, le_def, hlen, toNat_bundleSize]
    exact hhigh
  have hzero : b.written ≠ 0 := by
    intro h0
    rw [h0] at hlow
    exact absurd hlow (by decide)
  have hheader : ¬headerSize > b.written := by
    rw [gt_iff_lt, not_lt, le_def]
    omega
  have hroom : ¬headerSize > b.bufferLen := by
    rw [gt_iff_lt, not_lt, le_def, hlen, toNat_bundleSize]
    omega
  have hsum : (headerSize + (b.written - headerSize)).toNat = b.written.toNat := by
    have hcancel : headerSize + (b.written - headerSize) = b.written := by
      simp only [headerSize]
      bv_omega
    rw [hcancel]
  have hcopy (bytes : Bytes) : copy (store mem 0 bytes) (headerSize + (b.written - headerSize))
      = .ok ((store mem 0 bytes).take b.written.toNat) := by
    have hstore := @length_le_store mem 0 (Nat.zero_le _) bytes
    rw [copy, hsum, if_pos (by omega)]
  rw [Writer.close, if_neg hover, if_neg hzero, if_neg hheader]
  simp only [hbuf, if_neg hroom, hcopy, lift, bind, Except.bind, pure, Except.pure]
  exact ⟨_, rfl⟩

theorem close_closed (hbuf : b.buffer = none) (iMsgId : BitVec 32) :
    b.close iMsgId = .error (.exception "Mutable buffer error discovered.") ∨ b.close iMsgId = .ok (-1, [], b) := by
  rw [Writer.close, hb.closed hbuf]
  by_cases h0 : b.written = 0
  · right
    rw [if_neg (by rw [h0]; decide), if_pos h0]
  · left
    rw [if_pos]
    bv_omega

/-- What close leaves behind: a bundle with its counters in order, and a writer around the whole buffer. -/
theorem close_effect (iMsgId : BitVec 32) :
    Kept (effect b (.close iMsgId)).bundle ∧ (∀ f, (effect b (.close iMsgId)).result ≠ .error (.fault f)) ∧
    ∀ pos len, (effect b (.close iMsgId)).result = .ok (.writer pos len) → pos + len ≤ bundleSize.toNat := by
  cases hbuf : b.buffer with
  | none =>
    rcases hb.close_closed hbuf iMsgId with hclose | hclose
    · simp only [effect, hclose]
      refine ⟨hb, fun f h => ?_, fun pos len h => ?_⟩ <;> cases h
    · simp only [effect, hclose, if_neg (show ¬(-1 : Int) = 0 by decide)]
      refine ⟨hb, fun f h => ?_, fun pos len h => ?_⟩ <;> cases h
  | some mem =>
    obtain ⟨bytes, hclose⟩ := hb.close_open hbuf iMsgId
    have hlen := (hb.opened mem hbuf).2.1
    simp only [effect, hclose]
    refine ⟨⟨fun mem' h => ?_, fun _ => rfl⟩, fun f h => ?_, fun pos len h => ?_⟩
    · cases h
    · cases h
    · rw [if_pos trivial] at h
      cases h
      rw [Nat.zero_add, hlen]

theorem reopen_kept (content : Nat → UInt8) : Kept (b.reopen (fresh content)) := by
  refine ⟨fun mem hmem => ⟨?_, rfl, Nat.le_refl 20, ?_⟩, fun hnone => ?_⟩
  · cases Option.some.inj hmem
    cases hbuf : b.buffer with
    | none => simp [fresh]
    | some mem => exact (hb.opened mem hbuf).1
  · show bundlePreamble.toNat ≤ bundleSize.toNat
    decide
  · cases hnone

theorem sound_iff (c : Call) : Sound b c ↔ Behaves b c := by
  cases c with
  | reserve iBufferLen iMsgId => exact hb.reserve_iff iBufferLen iMsgId
  | append pcMsg => exact hb.append_iff pcMsg
  | finalizeReservation pcWriter => exact hb.finalize_iff pcWriter
  | remainingSpace =>
    refine ⟨fun _ => ⟨hb.bounded, trivial, fun pos len hw => ?_⟩, fun _ => trivial⟩
    simp only [effect, Writer.remainingSpace] at hw
    split_ifs at hw <;> cases hw
  | close iMsgId =>
    obtain ⟨hk, -, hw⟩ := hb.close_effect iMsgId
    exact ⟨fun _ => ⟨hk.bounded, trivial, hw⟩, fun _ => trivial⟩
  | reopen content => exact ⟨fun _ => ⟨(hb.reopen_kept content).bounded, trivial, fun pos len hw => by cases hw⟩, fun _ => trivial⟩

end Kept

/-! ## Every run -/

theorem create_kept (content : Nat → UInt8) : Kept (.create (fresh content)) := by
  refine ⟨fun mem hmem => ?_, fun hnone => by cases hnone⟩
  cases Option.some.inj hmem
  refine ⟨by simp [fresh], rfl, Nat.le_refl 20, ?_⟩
  show bundlePreamble.toNat ≤ bundleSize.toNat
  decide

theorem step_of_result {b : Writer} {c : Call} (h : ∀ f, (effect b c).result ≠ .error (.fault f)) : step b c = some (effect b c).bundle := by
  rw [step]
  cases hres : (effect b c).result with
  | ok ret => rfl
  | error stop =>
    cases stop with
    | exception message => rfl
    | fault f => exact absurd hres (h f)

theorem step_kept {b : Writer} {c : Call} (hb : Kept b) (hc : Sound b c) : ∃ b', step b c = some b' ∧ Kept b' := by
  cases c with
  | reserve iBufferLen iMsgId =>
    refine ⟨b, step_of_result fun f hf => ?_, hb⟩
    have hbe := (hb.reserve_iff iBufferLen iMsgId).mp hc
    by_cases hfit : b.Fits (iBufferLen.toNat + 16)
    · obtain ⟨mem, hbuf⟩ := isSome_iff_exists.mp hfit.1
      obtain ⟨-, hlen, -, -⟩ := hb.opened mem hbuf
      have hle := hfit.2
      rw [hlen, toNat_bundleSize] at hle
      have hsum : (iBufferLen + headerSize).toNat = iBufferLen.toNat + 16 := by
        rw [toNat_add]
        exact Nat.mod_eq_of_lt (by rw [show headerSize.toNat = 16 from rfl]; omega)
      have h16 : headerSize.toNat = 16 := rfl
      have hcheck := (hb.fits_iff hbuf (iBufferLen + headerSize)).mpr (by rw [hsum]; exact hfit)
      have hres := Writer.reserve_open hbuf hcheck (by rw [gt_iff_lt, not_lt, le_def, hsum]; omega) iMsgId
      rw [effect, hres] at hf
      cases hf
    · obtain ⟨⟨message, hres⟩, -, -⟩ := hbe.throws hfit
      rw [hres] at hf
      cases hf
  | append pcMsg =>
    obtain ⟨b', heff, hb'⟩ := hb.append_fits hc
    exact ⟨b', by rw [step, heff], hb'⟩
  | finalizeReservation pcWriter =>
    obtain ⟨-, -, -, -, hres⟩ := finalize_effect b pcWriter
    refine ⟨_, step_of_result fun f hf => ?_, hb.finalize_kept hc⟩
    rcases hres with hres | ⟨message, hres⟩ <;> rw [hres] at hf <;> cases hf
  | remainingSpace => exact ⟨b, step_of_result (remainingSpace_result b), hb⟩
  | close iMsgId =>
    obtain ⟨hk, hf, -⟩ := hb.close_effect iMsgId
    exact ⟨_, step_of_result hf, hk⟩
  | reopen content => exact ⟨_, rfl, hb.reopen_kept content⟩

/-- In every state reached by sound calls an open bundle's counters are in order, and a call behaves exactly if it is sound. -/
theorem bundle_counters (content : Nat → UInt8) {cs : List Call} (h : Meets step Sound (.create (fresh content)) cs) :
    ∃ b, exec step (.create (fresh content)) cs = some b ∧ b.Bounded ∧ ∀ c, Sound b c ↔ Behaves b c := by
  obtain ⟨b, hrun, hb⟩ := @exec_of_meets _ _ step Sound Unit (fun u _ => u) (fun b _ => Kept b) step_kept _ () (create_kept content) _ h
  exact ⟨b, hrun, hb.bounded, hb.sound_iff⟩

/-- A message of one number. -/
def numberMessage : Message where
  writer := (setUint32Field 1 5 (.create 8 9)).2
  header := by decide +kernel
  bytes := by decide +kernel

/-- A bundle with a reservation and a message in it, and a reservation that is turned down, closed and opened again. -/
def reopened : List Call :=
  [.reserve 32 7, .finalizeReservation (.around 48 32 7), .append numberMessage, .reserve 0xffffffef 7, .remainingSpace, .close 9,
    .remainingSpace, .reopen fun _ => 0]

theorem bundle_reopened : ∃ b, exec step (.create (fresh fun _ => 0)) reopened = some b ∧ b.Bounded ∧ Behaves b (.append numberMessage) := by
  obtain ⟨b, hrun, hb, hiff⟩ := @bundle_counters (fun _ => 0) reopened (by decide +kernel)
  have hfits : ((exec step (.create (fresh fun _ => 0)) reopened).any fun b => decide (Sound b (.append numberMessage))) = true := by
    decide +kernel
  rw [hrun] at hfits
  exact ⟨b, hrun, hb, (hiff _).mp (of_decide_eq_true hfits)⟩

/-- After close the check passes, and the header of the reserved writer goes behind a null pointer. -/
theorem closed_reserve_faults : ∃ b, exec step (.create (fresh fun _ => 0)) [.close 9] = some b ∧ ¬b.IsOpen ∧
    (effect b (.reserve 32 7)).result.toOption.isNone = true ∧ ¬Behaves b (.reserve 32 7) := by
  obtain ⟨bytes, hclose⟩ := (create_kept fun _ => 0).close_open rfl 9
  have hstep : step (.create (fresh fun _ => 0)) (.close 9) = some ⟨none, 0, bundlePreamble⟩ := by
    rw [step, effect, hclose]
    rfl
  have hres : Writer.reserve ⟨none, 0, bundlePreamble⟩ 32 7 = .error (.fault .overrun) := rfl
  refine ⟨⟨none, 0, bundlePreamble⟩, by rw [exec, hstep]; rfl, by decide, ?_, fun hbe => ?_⟩
  · rw [effect, hres]
    rfl
  · obtain ⟨⟨message, hthrow⟩, -, -⟩ := hbe.throws (by decide)
    rw [effect, hres] at hthrow
    cases hthrow

/-- A message that does not fit is without its bytes after the exception. -/
theorem append_takes_buffer {b : Writer} {pcMsg : Message} (h : b.bufferLen - b.written < pcMsg.writer.iWritten) :
    effect b (.append pcMsg) = ⟨b, some (getMutableBuffer pcMsg.writer).2.2, .error (.exception "Reservation exceeds remaining buffer size.")⟩ ∧
      (getMutableBuffer pcMsg.writer).2.2.written = [] := by
  have happ : b.append pcMsg.writer = .error (.exception "Reservation exceeds remaining buffer size.") := if_pos h
  refine ⟨?_, rfl⟩
  rw [effect, happ]

end MsgBundle

end DeepFabric.Wire
