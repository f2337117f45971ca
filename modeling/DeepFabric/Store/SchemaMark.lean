/-
  DeepFabric.Store.SchemaMark — where a schema file is complete (api/deep/Schema.h:
  DeepSchema_v1::validate, terminate).

  Every definition that is written to the file is closed by a mark, and a file that does not end
  with one is cut back to the last. `validate` reads the file backwards in pieces as long as the
  mark and looks for it in a window of two pieces, from the left. A mark does not overlap itself, and
  one that begins in the second piece would have been found in the window before.

  - `validate_last`: for every file the answer is one less than the end of its last mark, and -1
    where there is none.
-/
import DeepFabric.Lib.Occurrence
import DeepFabric.Store.SectionWriter

namespace DeepFabric.Store.SchemaMark

open Lib Lib.Occurrence BufferedFile

/-- `<mark/>` and a new line. -/
def marker : List UInt8 := [60, 109, 97, 114, 107, 47, 62, 10]

def indexOf (str pattern : List UInt8) : Int :=
  match find pattern str with
  | some pos => pos
  | none => -1

/-- The loop of validate, and the position behind it. -/
def validateLoop : Nat → RandomAccessFile → Buffer → Int → List UInt8 → Except Fault Int
  | 0, _, _, _, _ => .error .endless
  | fuel + 1, file, buf, pos, str =>
    if 0 < pos then
      let seek := if pos - marker.length < 0 then 0 else pos - marker.length
      let (count, _, buf, file) := (file.seek seek.toNat).read buf 0 (pos - seek).toNat
      if 0 < count then
        let prevlen := str.length
        let read := buf.bytes 0 count.toNat
        let str := read ++ str
        let found := indexOf str marker
        if 0 ≤ found then .ok (pos + prevlen - str.length + found + marker.length)
        else validateLoop fuel file buf seek read
      else validateLoop fuel file buf seek str
    else .ok pos

def validate (file : RandomAccessFile) (buf : Buffer) : Except Fault Int :=
  (validateLoop (file.length + 1) file buf file.length []).map fun pos => (if pos < 0 then 0 else pos) - 1

/-- One less than the end of the last mark; -1: there is none. -/
def LastMark (content : List UInt8) (r : Int) : Prop :=
  (∃ i, OccursAt marker content i ∧ (∀ j, OccursAt marker content j → j ≤ i) ∧ r = i + marker.length - 1) ∨
  ((∀ i, ¬OccursAt marker content i) ∧ r = -1)

variable {content : List UInt8} {pos : Nat}

theorem marker_borderless : Borderless marker := by decide

theorem indexOf_nonneg {str pattern : List UInt8} (h : 0 ≤ indexOf str pattern) :
    ∃ i, find pattern str = some i ∧ indexOf str pattern = i := by
  unfold indexOf at h ⊢
  cases hf : find pattern str with
  | none =>
    rw [hf] at h
    exact absurd h (by decide)
  | some i => exact ⟨i, rfl, rfl⟩

theorem indexOf_neg {str pattern : List UInt8} (h : ¬0 ≤ indexOf str pattern) : find pattern str = none := by
  unfold indexOf at h
  cases hf : find pattern str with
  | none => rfl
  | some i =>
    rw [hf] at h
    exact absurd (Int.natCast_nonneg i) h

/-! ## One turn -/

/-- A file of this content, wherever its position is. -/
def Holds (file : RandomAccessFile) (content : List UInt8) : Prop :=
  file.content = ofBytes content ∧ file.length = content.length

theorem read_piece {file : RandomAccessFile} (h : Holds file content) (buf : Buffer) {seek n : Nat} (hn : 0 < n)
    (hle : seek + n ≤ content.length) : ∃ eof buf' file', (file.seek seek).read buf 0 n = ((n : Int), eof, buf', file') ∧
      Holds file' content ∧ buf'.bytes 0 n = (content.drop seek).take n := by
  obtain ⟨hc, hl, hp⟩ := file.seek_eq seek
  have hsize : min n ((file.seek seek).length - (file.seek seek).position) = n := by
    rw [hl, hp, h.2]
    omega
  unfold RandomAccessFile.read
  simp only [hsize, hn, if_true]
  refine ⟨_, _, _, rfl, ⟨hc.trans h.1, hl.trans h.2⟩, ?_⟩
  rw [Buffer.bytes_memcpy, hp, hc, h.1, bytes_ofBytes hle]

/-- What has been read so far: the piece from `pos` on, and no mark begins there or behind. -/
structure Read (content : List UInt8) (pos : Nat) (str : List UInt8) : Prop where
  le : pos ≤ content.length
  piece : 0 < pos → str = (content.drop pos).take marker.length
  none : ∀ i, pos ≤ i → ¬OccursAt marker content i

/-- The piece before `pos` and the one from there on are one window of the file. -/
theorem turn_window {seek : Nat} (hseek : seek ≤ pos) :
    (content.drop seek).take (pos - seek) ++ (content.drop pos).take marker.length =
      (content.drop seek).take (pos - seek + marker.length) := by
  rw [List.take_add, List.drop_drop, Nat.add_sub_cancel' hseek]

theorem occursAt_window {seek i : Nat} :
    OccursAt marker ((content.drop seek).take (pos - seek + marker.length)) i ↔
      OccursAt marker content (seek + i) ∧ i ≤ pos - seek := by
  rw [occursAt_take (by decide), occursAt_drop]
  refine and_congr_right fun _ => ?_
  omega

/-- A mark in the window is the last of the file: none begins behind it, and two are at least a mark apart. -/
theorem last_of_window {str : List UInt8} (h : Read content pos str) {seek i : Nat} (hseek : pos ≤ seek + marker.length)
    (hi : OccursAt marker content (seek + i)) : ∀ j, OccursAt marker content j → j ≤ seek + i := by
  intro j hj
  by_contra hlt
  have happart := marker_borderless.apart hi hj (by omega)
  exact h.none j (by omega) hj

/-- Where the window has no mark, none begins from the start of the piece on. -/
theorem read_of_window {str : List UInt8} (h : Read content pos str) {seek : Nat} (hseek : seek ≤ pos)
    (hpiece : 0 < seek → pos = seek + marker.length)
    (hnone : find marker ((content.drop seek).take (pos - seek + marker.length)) = none) :
    Read content seek ((content.drop seek).take (pos - seek)) := by
  refine ⟨Nat.le_trans hseek h.le, fun hpos => ?_, fun i hi hocc => ?_⟩
  · have hlen : pos - seek = marker.length := by
      omega
    rw [hlen]
  · by_cases hp : pos ≤ i
    · exact h.none i hp hocc
    · refine find_eq_none.mp hnone (i - seek) (occursAt_window.mpr ⟨?_, by omega⟩)
      rwa [Nat.add_sub_cancel' hi]

theorem validateLoop_last {str : List UInt8} {file : RandomAccessFile} (hf : Holds file content) (h : Read content pos str)
    {fuel : Nat} (hfuel : pos < fuel) (buf : Buffer) :
    ∃ r, validateLoop fuel file buf pos str = .ok r ∧ LastMark content ((if r < 0 then 0 else r) - 1) := by
  induction fuel generalizing pos str file buf with
  | zero => exact absurd hfuel (Nat.not_lt_zero _)
  | succ fuel ih =>
    unfold validateLoop
    by_cases hpos : 0 < pos
    · have hlen : (marker.length : Int) = 8 := rfl
      -- where the piece begins, and how long it is
      have hseek : (if (pos : Int) - marker.length < 0 then 0 else (pos : Int) - marker.length) = ((pos - 8 : Nat) : Int) := by
        split_ifs <;> omega
      have hcount : ((pos : Int) - ((pos - 8 : Nat) : Int)).toNat = pos - (pos - 8) := by omega
      have hle : pos - 8 + (pos - (pos - 8)) ≤ content.length := by
        have := h.le
        omega
      obtain ⟨eof, buf', file', hread, hf', hbytes⟩ := read_piece hf buf (by omega) hle
      have hcount' : (0 : Int) < ((pos - (pos - 8) : Nat) : Int) := by omega
      simp only [Int.natCast_pos.mpr hpos, if_true, hseek, Int.toNat_natCast, hcount, hread, hcount', hbytes, h.piece hpos,
        turn_window (Nat.sub_le pos 8)]
      split_ifs with hfound
      · obtain ⟨i, hi, hidx⟩ := indexOf_nonneg hfound
        obtain ⟨hocc, -⟩ := find_eq_some hi
        obtain ⟨hocc, hir⟩ := occursAt_window.mp hocc
        refine ⟨_, rfl, .inl ⟨pos - 8 + i, hocc, last_of_window h (by omega) hocc, ?_⟩⟩
        have hread : ((content.drop (pos - 8)).take (pos - (pos - 8))).length = pos - (pos - 8) :=
          List.length_take_of_le (by rw [List.length_drop]; omega)
        rw [hidx, ← turn_window (Nat.sub_le pos 8), List.length_append, hread]
        split_ifs <;> omega
      · exact ih hf' (read_of_window h (Nat.sub_le pos 8) (by omega) (indexOf_neg hfound)) (by omega) buf'
    · obtain rfl : pos = 0 := Nat.eq_zero_of_not_pos hpos
      exact ⟨0, rfl, .inr ⟨fun i => h.none i (Nat.zero_le i), rfl⟩⟩

theorem validate_last (content : List UInt8) (position : Nat) (ended : Bool) (buf : Buffer) :
    ∃ r, validate ⟨ofBytes content, content.length, position, ended⟩ buf = .ok r ∧ LastMark content r := by
  have hinit : Read content content.length [] := by
    refine ⟨Nat.le_refl _, fun _ => by simp, fun i hi hocc => ?_⟩
    have hle := hocc.le_length (by decide)
    have hlen : marker.length = 8 := rfl
    omega
  have hfile : Holds ⟨ofBytes content, content.length, position, ended⟩ content := ⟨rfl, rfl⟩
  obtain ⟨r, hr, hlast⟩ := validateLoop_last hfile hinit (Nat.lt_succ_self _) buf
  exact ⟨_, by rw [validate, hr]; rfl, hlast⟩

/-- Two adjacent marks, and a torn one behind them. -/
example : validate ⟨ofBytes (marker ++ marker ++ marker.take 3), 19, 0, false⟩ (fun _ => 0) = .ok 15 := rfl

end DeepFabric.Store.SchemaMark
