/-
  DeepFabric.Lib.Deflate — a compressor that is fed piece by piece (`zlib`).

  Each call of `deflate` takes what it can of a piece and puts out what it can into the room it is
  given; nothing has to come out before the call that finishes the stream. `Zlib` is such a
  compressor and the one that undoes it.

  - `Zlib.Stream`: what a stream took and put out, over all calls on it so far.
  - `Zlib.Documented`: what the manual says of the calls on a stream.
  - `Zlib.Finishing`, `Zlib.Whole`: the same of a stream that is given all its data by calls that finish it.
  - `Stored`: data that is stored as it is, one block of it; `stored_documented`, `stored_whole`: it is as documented.
-/
import DeepFabric.Lib.Buffer
import Mathlib.Order.Monotone.Basic

namespace DeepFabric.Lib

open List

inductive Flush
  | noFlush
  | finish
  deriving DecidableEq

inductive DeflateCode
  | ok
  | streamEnd
  | bufError
  deriving DecidableEq

/-- What a call of `deflate` returns: its code, how much it took, what it put out, and the stream behind it. -/
structure Deflated (σ : Type) where
  code : DeflateCode
  taken : Nat
  put : List UInt8
  state : σ

structure Zlib (σ : Type) where
  deflateInit : σ
  /-- Given a piece and so much room. -/
  deflate : σ → List UInt8 → Nat → Flush → Deflated σ
  /-- No more is put out for so many bytes. -/
  deflateBound : Nat → Nat
  /-- Given so much room: nothing, unless the stream ends in it. -/
  inflate : List UInt8 → Nat → Option (List UInt8)

namespace Zlib

variable {σ : Type}

/-- A stream that took `i` and put out `o`: how it was flushed last, and whether that call used up
its room. Once it is being finished it is given nothing more. -/
inductive Stream (z : Zlib σ) : Flush → List UInt8 → List UInt8 → Bool → σ → Prop
  | init : Stream z .noFlush [] [] false z.deflateInit
  | piece {i o : List UInt8} {full : Bool} {s : σ} (input : List UInt8) (room : Nat) :
      Stream z .noFlush i o full s → (z.deflate s input room .noFlush).code = .ok →
      Stream z .noFlush (i ++ input.take (z.deflate s input room .noFlush).taken) (o ++ (z.deflate s input room .noFlush).put)
        (decide ((z.deflate s input room .noFlush).put.length = room)) (z.deflate s input room .noFlush).state
  | finish {f : Flush} {i o : List UInt8} {full : Bool} {s : σ} (room : Nat) :
      Stream z f i o full s → (z.deflate s [] room .finish).code = .ok →
      Stream z .finish i (o ++ (z.deflate s [] room .finish).put) (decide ((z.deflate s [] room .finish).put.length = room))
        (z.deflate s [] room .finish).state

structure Documented (z : Zlib σ) : Prop where
  taken_le (s : σ) (input : List UInt8) (room : Nat) (f : Flush) : (z.deflate s input room f).taken ≤ input.length
  put_le (s : σ) (input : List UInt8) (room : Nat) (f : Flush) : (z.deflate s input room f).put.length ≤ room
  /-- Progress is possible where there is room, and a piece or what did not fit before. -/
  progress {i o : List UInt8} {full : Bool} {s : σ} (input : List UInt8) (room : Nat) : z.Stream .noFlush i o full s → 0 < room →
    input ≠ [] ∨ full = true → (z.deflate s input room .noFlush).code = .ok
  /-- It stops when the piece is empty or the room is full. -/
  takes {i o : List UInt8} {full : Bool} {s : σ} (input : List UInt8) (room : Nat) : z.Stream .noFlush i o full s →
    (z.deflate s input room .noFlush).code = .ok → (z.deflate s input room .noFlush).put.length < room →
    (z.deflate s input room .noFlush).taken = input.length
  /-- The stream ends if there is room enough. -/
  finishes {f : Flush} {i o : List UInt8} {full : Bool} {s : σ} (room : Nat) : z.Stream f i o full s → 0 < room →
    (z.deflate s [] room .finish).code = .streamEnd ∨
      (z.deflate s [] room .finish).code = .ok ∧ (z.deflate s [] room .finish).put.length = room
  bound_mono : Monotone z.deflateBound
  bounded {f : Flush} {i o : List UInt8} {full : Bool} {s : σ} : z.Stream f i o full s → o.length ≤ z.deflateBound i.length
  ended_bounded {f : Flush} {i o : List UInt8} {full : Bool} {s : σ} (room : Nat) : z.Stream f i o full s →
    (z.deflate s [] room .finish).code = .streamEnd → (o ++ (z.deflate s [] room .finish).put).length ≤ z.deflateBound i.length
  /-- A stream starts with a header. -/
  nonempty {f : Flush} {i o : List UInt8} {full : Bool} {s : σ} (room : Nat) : z.Stream f i o full s →
    (z.deflate s [] room .finish).code = .streamEnd → o ++ (z.deflate s [] room .finish).put ≠ []
  undone {f : Flush} {i o : List UInt8} {full : Bool} {s : σ} (room : Nat) : z.Stream f i o full s →
    (z.deflate s [] room .finish).code = .streamEnd → ∀ room', i.length ≤ room' → z.inflate (o ++ (z.deflate s [] room .finish).put) room' = some i

/-- A stream that is finished from the first call on: how much it took of the data, and what it put out into the rooms it filled. -/
inductive Finishing (z : Zlib σ) (data : List UInt8) : Nat → List UInt8 → σ → Prop
  | init : Finishing z data 0 [] z.deflateInit
  | more {t : Nat} {o : List UInt8} {s : σ} (room : Nat) :
      Finishing z data t o s → (z.deflate s (data.drop t) room .finish).code = .ok →
      (z.deflate s (data.drop t) room .finish).put.length = room →
      Finishing z data (t + (z.deflate s (data.drop t) room .finish).taken) (o ++ (z.deflate s (data.drop t) room .finish).put)
        (z.deflate s (data.drop t) room .finish).state

structure Whole (z : Zlib σ) : Prop where
  /-- The stream ends if there is room enough. -/
  ends {data : List UInt8} {t : Nat} {o : List UInt8} {s : σ} (room : Nat) : z.Finishing data t o s → 0 < room →
    (z.deflate s (data.drop t) room .finish).code = .streamEnd ∧ (z.deflate s (data.drop t) room .finish).put.length ≤ room ∨
      (z.deflate s (data.drop t) room .finish).code = .ok ∧ (z.deflate s (data.drop t) room .finish).put.length = room
  bounded {data : List UInt8} {t : Nat} {o : List UInt8} {s : σ} : z.Finishing data t o s → o.length ≤ z.deflateBound data.length
  bound_le (n : Nat) : z.deflateBound n ≤ 2 * n + 64
  undone {data : List UInt8} {t : Nat} {o : List UInt8} {s : σ} (room : Nat) : z.Finishing data t o s →
    (z.deflate s (data.drop t) room .finish).code = .streamEnd → ∀ room', data.length ≤ room' →
      z.inflate (o ++ (z.deflate s (data.drop t) room .finish).put) room' = some data
  /-- Nor does it end in less room than the data takes. -/
  cut {data : List UInt8} {t : Nat} {o : List UInt8} {s : σ} (room : Nat) : z.Finishing data t o s →
    (z.deflate s (data.drop t) room .finish).code = .streamEnd → ∀ room', room' < data.length →
      z.inflate (o ++ (z.deflate s (data.drop t) room .finish).put) room' = none

end Zlib

/-! ## Stored data -/

def adler32 (l : List UInt8) : Nat :=
  let sums := l.foldl (fun s b => ((s.1 + b.toNat) % 65521, (s.2 + s.1 + b.toNat) % 65521)) (1, 0)
  sums.2 * 65536 + sums.1

/-- A stream that has not put out everything yet. -/
structure Stored where
  pending : List UInt8
  input : List UInt8
  finished : Bool

namespace Stored

def header : List UInt8 := [0x78, 0x01]

/-- One last block, stored as it is, and the sum over it. -/
def block (l : List UInt8) : List UInt8 :=
  0x01 :: (Buffer.leBytes 2 l.length ++ Buffer.leBytes 2 (65535 - l.length % 65536) ++ l ++ (Buffer.leBytes 4 (adler32 l)).reverse)

/-- What there is to put out. -/
def due (s : Stored) (input : List UInt8) : Flush → List UInt8
  | .noFlush => s.pending
  | .finish => if s.finished then s.pending else s.pending ++ block (s.input ++ input)

def deflate (s : Stored) (input : List UInt8) (room : Nat) (flush : Flush) : Deflated Stored :=
  let out := s.due input flush
  if room = 0 then ⟨.bufError, 0, [], s⟩
  else
    { code := if flush = .finish ∧ out.length ≤ room then .streamEnd else .ok
      taken := input.length
      put := out.take room
      state := ⟨out.drop room, s.input ++ input, s.finished || decide (flush = .finish)⟩ }

def inflate (l : List UInt8) (room : Nat) : Option (List UInt8) :=
  let out := (l.drop 7).take (l.length - 11)
  if 11 ≤ l.length ∧ out.length ≤ room then some out else none

/-- `zlib` on up to 65535 bytes that nothing is saved on. -/
def zlib : Zlib Stored where
  deflateInit := ⟨header, [], false⟩
  deflate := deflate
  deflateBound n := n + 11
  inflate := inflate

theorem length_block (l : List UInt8) : (block l).length = l.length + 9 := by
  simp only [block, length_cons, length_append, Buffer.length_leBytes, length_reverse]
  omega

variable {room : Nat}

theorem inflate_block (l : List UInt8) (h : l.length ≤ room) : inflate (header ++ block l) room = some l := by
  have hlen : (header ++ block l).length = l.length + 11 := by
    rw [length_append, length_block]
    simp only [header, length_cons, length_nil]
    omega
  have hout : ((header ++ block l).drop 7).take (l.length + 11 - 11) = l := by
    have hsplit : header ++ block l = (header ++ 0x01 :: (Buffer.leBytes 2 l.length ++ Buffer.leBytes 2 (65535 - l.length % 65536))) ++
        (l ++ (Buffer.leBytes 4 (adler32 l)).reverse) := by
      simp only [block, header, append_assoc, cons_append, nil_append]
    rw [hsplit, drop_append_of_le_length (by simp [header]), drop_of_length_le (by simp [header]), Nat.add_sub_cancel]
    exact take_left
  unfold inflate
  rw [hlen, hout, if_pos ⟨by omega, h⟩]

/-- What is still to come completes the header, or the whole stream. -/
def Ahead (i o : List UInt8) (s : Stored) : Flush → Prop
  | .noFlush => s.input = i ∧ s.finished = false ∧ o ++ s.pending = header
  | .finish => s.finished = true ∧ o ++ s.pending = header ++ block i

variable {f : Flush} {i o : List UInt8} {s : Stored}

theorem Ahead.due_finish (h : Ahead i o s f) : o ++ s.due [] .finish = header ++ block i := by
  cases f with
  | noFlush =>
    obtain ⟨rfl, hopen, hput⟩ := h
    rw [due, hopen, if_neg (by decide), append_nil, ← append_assoc, hput]
  | finish =>
    obtain ⟨hfinished, hput⟩ := h
    rw [due, hfinished, if_pos rfl, hput]

theorem Ahead.length_le (h : Ahead i o s f) : o.length ≤ i.length + 11 := by
  have hall := congrArg List.length h.due_finish
  rw [length_append, length_append, length_block] at hall
  have hheader : header.length = 2 := rfl
  omega

theorem room_pos (s : Stored) (input : List UInt8) (f : Flush) (h : (deflate s input room f).code ≠ .bufError) : 0 < room := by
  rcases Nat.eq_zero_or_pos room with rfl | hpos
  · exact absurd rfl h
  · exact hpos

theorem ahead_of_stream {full : Bool} (h : zlib.Stream f i o full s) : Ahead i o s f := by
  induction h with
  | init => exact ⟨rfl, rfl, rfl⟩
  | @piece i o full s input room hs hok ih =>
    obtain ⟨rfl, hopen, hput⟩ := ih
    have hpos : 0 < room := room_pos s input .noFlush fun hbuf => by cases hok.symm.trans hbuf
    simp only [zlib, deflate, due, if_neg (Nat.pos_iff_ne_zero.mp hpos), Ahead, take_length, hopen, append_assoc,
      take_append_drop, hput, and_true, true_and]
    rfl
  | @finish f i o full s room hs hok ih =>
    have hpos : 0 < room := room_pos s [] .finish fun hbuf => by cases hok.symm.trans hbuf
    simp only [zlib, deflate, if_neg (Nat.pos_iff_ne_zero.mp hpos), Ahead, append_assoc, take_append_drop, ih.due_finish, and_true,
      decide_true, Bool.or_true]

theorem deflate_end (h : (deflate s [] room .finish).code = .streamEnd) :
    (deflate s [] room .finish).put = s.due [] .finish := by
  have hpos : 0 < room := room_pos s [] .finish fun hbuf => by cases h.symm.trans hbuf
  simp only [deflate, if_neg (Nat.pos_iff_ne_zero.mp hpos), true_and] at h ⊢
  split at h
  case isTrue hfits => exact take_of_length_le hfits
  case isFalse => cases h

theorem stored_documented : zlib.Documented where
  taken_le s input room f := by
    show (deflate s input room f).taken ≤ _
    unfold deflate
    split
    · exact Nat.zero_le _
    · exact Nat.le_refl _
  put_le s input room f := by
    show (deflate s input room f).put.length ≤ _
    unfold deflate
    split
    · exact Nat.zero_le _
    · exact length_take_le _ _
  progress _ _ _ hroom _ := by
    simp only [zlib, deflate, if_neg (Nat.pos_iff_ne_zero.mp hroom)]
    rfl
  takes {_ _ _ s} input room _ hok _ := by
    have hpos : 0 < room := room_pos s input .noFlush fun hbuf => by cases hok.symm.trans hbuf
    simp only [zlib, deflate, if_neg (Nat.pos_iff_ne_zero.mp hpos)]
  finishes {_ _ _ _ s} room _ hroom := by
    simp only [zlib, deflate, if_neg (Nat.pos_iff_ne_zero.mp hroom), true_and, length_take]
    split
    case isTrue => exact .inl rfl
    case isFalse hmore => exact .inr ⟨rfl, by omega⟩
  bound_mono _ _ h := Nat.add_le_add_right h 11
  bounded h := (ahead_of_stream h).length_le
  ended_bounded {_ i o _ s} room h hend := by
    show (o ++ (deflate s [] room .finish).put).length ≤ i.length + 11
    rw [deflate_end hend, (ahead_of_stream h).due_finish, length_append, length_block]
    exact Nat.le_of_eq (by simp only [header, length_cons, length_nil]; omega)
  nonempty {_ i o _ s} room h hend := by
    show o ++ (deflate s [] room .finish).put ≠ []
    rw [deflate_end hend, (ahead_of_stream h).due_finish]
    exact cons_ne_nil _ _
  undone {_ i o _ s} room h hend room' hroom := by
    show inflate (o ++ (deflate s [] room .finish).put) room' = some i
    rw [deflate_end hend, (ahead_of_stream h).due_finish]
    exact inflate_block i hroom

theorem inflate_block_cut (l : List UInt8) (h : room < l.length) : inflate (header ++ block l) room = none := by
  have hall := inflate_block l (Nat.le_refl l.length)
  unfold inflate at hall ⊢
  dsimp only at hall ⊢
  split at hall
  case isTrue _ =>
    rw [Option.some.inj hall, if_neg fun hle => absurd hle.2 (Nat.not_le.mpr h)]
  case isFalse => cases hall

theorem due_of_finishing {data : List UInt8} {t : Nat} (h : zlib.Finishing data t o s) :
    o ++ s.due (data.drop t) .finish = header ++ block data := by
  induction h with
  | init => rfl
  | @more t o s room hs hok hfull ih =>
    have hpos : 0 < room := room_pos s (data.drop t) .finish fun hbuf => by cases hok.symm.trans hbuf
    simp only [zlib, deflate, if_neg (Nat.pos_iff_ne_zero.mp hpos), due, Bool.or_true, decide_true, if_true, append_assoc,
      take_append_drop]
    exact ih

theorem deflate_last {input : List UInt8} (h : (deflate s input room .finish).code = .streamEnd) :
    (deflate s input room .finish).put = s.due input .finish ∧ (s.due input .finish).length ≤ room := by
  have hpos : 0 < room := room_pos s input .finish fun hbuf => by cases h.symm.trans hbuf
  simp only [deflate, if_neg (Nat.pos_iff_ne_zero.mp hpos), true_and] at h ⊢
  split at h
  case isTrue hfits => exact ⟨take_of_length_le hfits, hfits⟩
  case isFalse => cases h

theorem stored_whole : zlib.Whole where
  ends {data t _ s} room _ hroom := by
    simp only [zlib, deflate, if_neg (Nat.pos_iff_ne_zero.mp hroom), true_and, length_take]
    split
    case isTrue => exact .inl ⟨rfl, Nat.min_le_left _ _⟩
    case isFalse hmore => exact .inr ⟨rfl, by omega⟩
  bounded {data _ o s} h := by
    have hall := congrArg List.length (due_of_finishing h)
    rw [length_append, length_append, length_block] at hall
    have hheader : header.length = 2 := rfl
    show o.length ≤ data.length + 11
    omega
  bound_le n := by
    show n + 11 ≤ 2 * n + 64
    omega
  undone {data t o s} room h hend room' hroom := by
    show inflate (o ++ (deflate s (data.drop t) room .finish).put) room' = some data
    rw [(deflate_last hend).1, due_of_finishing h]
    exact inflate_block data hroom
  cut {data t o s} room h hend room' hroom := by
    show inflate (o ++ (deflate s (data.drop t) room .finish).put) room' = none
    rw [(deflate_last hend).1, due_of_finishing h]
    exact inflate_block_cut data hroom

end Stored

end DeepFabric.Lib
