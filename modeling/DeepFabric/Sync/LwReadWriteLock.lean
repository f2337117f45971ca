/-
  DeepFabric.Sync.LwReadWriteLock — the read-write lock in one word (concurrent/locks/LwUserSpaceReadWriteLock.h), which
  guards the versions of a key and what refers to a segment.

  The lowest bit of the word says that a writer is in the protocol; the bits above count what is taken of `MAX` tokens. A
  reader takes one of them, a writer takes what is left until it has all. N has `w + 1` bits and MAX is `2 ^ w - 1`, as in
  both instances. Every operation on the word is a step, and the threads go in any order.

  - `step_inv` / `inv`: the word says what the threads have taken, and that one of them is in the write protocol.
-/
import DeepFabric.Lib.Threads

namespace DeepFabric.Sync.LwReadWriteLock

open DeepFabric.Lib.Run DeepFabric.Lib.Threads

variable (w : Nat)

def MAX : Nat := 2 ^ w - 1

def RAW_MAX : Nat := MAX w <<< 1

/-! ## The operations on the word -/

def sample (rawSample : Nat) : Nat := (rawSample >>> 1) &&& MAX w

def getWriteRequested (raw : Nat) : Bool := raw &&& 1 ≠ 0

def setWriteRequested (raw : Nat) : Nat := raw ||| 1

def clearWriteRequested (raw : Nat) : Nat := raw &&& RAW_MAX w

def setReaders (readers : Nat) : Nat := (readers <<< 1) % 2 ^ (w + 1)

def decReaders (raw readers : Nat) : Nat := (raw + 2 ^ (w + 1) - setReaders w readers) % 2 ^ (w + 1)

/-! ## The threads -/

/-- writeLock(), writeLock(timeout) and tryWriteLock(). -/
inductive Mode where
  | wait
  | timed
  | once
  deriving DecidableEq

/-- Where a thread is; readLock() and tryReadLock() are told apart by `once`, too. -/
inductive Place where
  | idle
  | check (once : Bool)
  /-- consumeOne, at its get and at its condSet. -/
  | consumeOne (once : Bool)
  | take (once : Bool) (rawSample : Nat)
  | reading
  | request (mode : Mode)
  /-- consumeRemaining, at its get and at its condSet. -/
  | consumeRemaining (mode : Mode) (consumed : Nat)
  | fill (mode : Mode) (consumed rawSample : Nat)
  | compare (mode : Mode) (consumed : Nat)
  | giveBack (consumed : Nat)
  | clear
  | writing
  deriving DecidableEq

/-- A call, the next operation of the one under way, or that its time is over. -/
inductive Act where
  | readLock (once : Bool)
  | readUnlock
  | writeLock (mode : Mode)
  | demote
  | writeUnlock
  | go
  | timeout

/-- Another try, unless there is only one. -/
def again (once : Bool) (p : Place) : Place := if once then .idle else p

def turn (raw : Nat) : Place → Act → Option (Nat × Place)
  | .idle, .readLock once => some (raw, .check once)
  | .idle, .writeLock mode => some (raw, .request mode)
  | .check once, .go => some (raw, if getWriteRequested raw then again once (.check once) else .consumeOne once)
  | .consumeOne once, .go => some (raw, if sample w raw < MAX w then .take once raw else again once (.consumeOne once))
  | .take once rawSample, .go =>
    some (if raw = rawSample then ((rawSample + 2) % 2 ^ (w + 1), .reading) else (raw, again once (.consumeOne once)))
  | .reading, .readUnlock => some (decReaders w raw 1, .idle)
  | .request mode, .go =>
    some (setWriteRequested raw,
      if getWriteRequested raw then again (mode = .once) (.request mode) else .consumeRemaining mode 0)
  | .request .timed, .timeout => if getWriteRequested raw then some (setWriteRequested raw, .idle) else none
  | .consumeRemaining mode consumed, .go => some (raw, .fill mode consumed raw)
  | .fill mode consumed rawSample, .go =>
    some (if raw = rawSample then
        (RAW_MAX w ||| rawSample, .compare mode ((consumed + (MAX w - sample w rawSample)) % 2 ^ (w + 1)))
      else (raw, .compare mode consumed))
  | .compare mode consumed, .go =>
    some (raw, if consumed = MAX w then .writing else if mode = .once then .giveBack consumed else .consumeRemaining mode consumed)
  | .compare .timed consumed, .timeout => if consumed = MAX w then none else some (raw, .giveBack consumed)
  | .giveBack consumed, .go => some (decReaders w raw consumed, .clear)
  | .clear, .go => some (clearWriteRequested w raw, .idle)
  | .writing, .demote => some (setReaders w 1, .reading)
  | .writing, .writeUnlock => some (setReaders w 0, .idle)
  | _, _ => none

def init (n : Nat) : State Nat Place := ⟨0, .replicate n .idle⟩

/-! ## The word -/

section Word

variable {w} {raw c : Nat}

theorem width : 2 ^ (w + 1) = 2 * MAX w + 2 := by
  have := Nat.two_pow_pos w
  unfold MAX
  omega

theorem sample_eq (h : raw ≤ 2 * MAX w + 1) : sample w raw = raw / 2 := by
  have := width (w := w)
  rw [sample, MAX, Nat.and_two_pow_sub_one_eq_mod, Nat.shiftRight_eq_div_pow, Nat.mod_eq_of_lt (by omega)]

theorem getWriteRequested_iff : getWriteRequested raw = true ↔ raw % 2 = 1 := by
  simp [getWriteRequested, Nat.and_one_is_mod]

theorem setWriteRequested_eq : setWriteRequested raw = raw / 2 * 2 + 1 := by
  have hd : (raw ||| 1) / 2 = raw / 2 := by simp [Nat.or_div_two]
  have hm : (raw ||| 1) % 2 ^ 1 = 1 := by rcases Nat.mod_two_eq_zero_or_one raw with h | h <;> simp [h]
  unfold setWriteRequested
  omega

theorem RAW_MAX_eq : RAW_MAX w = 2 * MAX w := by rw [RAW_MAX, Nat.shiftLeft_eq]; omega

theorem clearWriteRequested_eq (h : raw ≤ 2 * MAX w + 1) : clearWriteRequested w raw = raw / 2 * 2 := by
  have hw := width (w := w)
  have hd : (raw &&& 2 * MAX w) / 2 = raw / 2 := by
    rw [Nat.and_div_two, Nat.mul_div_cancel_left _ (by omega), MAX, Nat.and_two_pow_sub_one_eq_mod, Nat.mod_eq_of_lt (by omega)]
  have hm : (raw &&& 2 * MAX w) % 2 ^ 1 = 0 := by rw [Nat.and_mod_two_pow, Nat.pow_one, Nat.mul_mod_right, Nat.and_zero]
  rw [clearWriteRequested, RAW_MAX_eq]
  omega

theorem fill_eq (h : raw ≤ 2 * MAX w + 1) : RAW_MAX w ||| raw = 2 * MAX w + raw % 2 := by
  have hw := width (w := w)
  have hd : MAX w ||| raw / 2 = MAX w := by
    have hlt : MAX w ||| raw / 2 < 2 ^ w := Nat.or_lt_two_pow (by omega) (by omega)
    have hle : MAX w ≤ MAX w ||| raw / 2 := Nat.left_le_or
    omega
  have h2 : (2 * MAX w ||| raw) / 2 = MAX w := by rw [Nat.or_div_two, Nat.mul_div_cancel_left _ (by omega), hd]
  have hm : (2 * MAX w ||| raw) % 2 ^ 1 = raw % 2 := by rw [Nat.or_mod_two_pow, Nat.pow_one, Nat.mul_mod_right, Nat.zero_or]
  rw [RAW_MAX_eq]
  omega

theorem setReaders_eq (h : c ≤ MAX w) : setReaders w c = 2 * c := by
  have := width (w := w)
  rw [setReaders, Nat.shiftLeft_eq, Nat.mod_eq_of_lt (by omega)]
  omega

theorem decReaders_eq (hc : c ≤ MAX w) (hr : 2 * c ≤ raw) (h : raw ≤ 2 * MAX w + 1) : decReaders w raw c = raw - 2 * c := by
  have := width (w := w)
  rw [decReaders, setReaders_eq hc, show raw + 2 ^ (w + 1) - 2 * c = raw - 2 * c + 2 ^ (w + 1) by omega, Nat.add_mod_right,
    Nat.mod_eq_of_lt (by omega)]

end Word

/-! ## The invariant -/

/-- The tokens of a thread. -/
def tokens : Place → Nat
  | .reading => 1
  | .consumeRemaining _ consumed | .fill _ consumed _ | .compare _ consumed | .giveBack consumed => consumed
  | .writing => MAX w
  | _ => 0

/-- Whether a thread is in the write protocol. -/
def requests : Place → Nat
  | .consumeRemaining _ _ | .fill _ _ _ | .compare _ _ | .giveBack _ | .clear | .writing => 1
  | _ => 0

/-- A token is taken where there was one. -/
def Sampled : Place → Prop
  | .take _ rawSample => sample w rawSample < MAX w
  | _ => True

structure Inv (s : State Nat Place) : Prop where
  word : s.shared = 2 * s.total (tokens w) + s.total requests
  one : s.total requests ≤ 1
  bound : s.total (tokens w) ≤ MAX w
  sampled : ∀ p ∈ s.places, Sampled w p

variable {w} {n i : Nat} {s s' : State Nat Place}

/-- An operation of a thread beside others that have taken `T` tokens and are `R` writers. -/
theorem turn_keeps (hw0 : 1 ≤ MAX w) {raw g T R : Nat} {p q : Place} {a : Act} (ht : turn w raw p a = some (g, q))
    (hraw : raw = 2 * (T + tokens w p) + (R + requests p)) (hR : R + requests p ≤ 1) (hT : T + tokens w p ≤ MAX w)
    (hp : Sampled w p) :
    (g = 2 * (T + tokens w q) + (R + requests q) ∧ R + requests q ≤ 1 ∧ T + tokens w q ≤ MAX w) ∧ Sampled w q := by
  have hw := width (w := w)
  have hle : raw ≤ 2 * MAX w + 1 := by omega
  have hget : getWriteRequested raw = true ↔ raw % 2 = 1 := getWriteRequested_iff
  have hsample := sample_eq hle
  unfold turn at ht
  split at ht <;> simp only [tokens, requests] at hraw hR hT
  · -- readLock
    cases ht; exact ⟨by simp only [tokens, requests]; omega, trivial⟩
  · -- writeLock
    cases ht; exact ⟨by simp only [tokens, requests]; omega, trivial⟩
  · -- check: a writer keeps it out
    rename_i once; cases ht; split <;> cases once <;> simp [again, tokens, requests, Sampled] <;> omega
  · -- consumeOne reads
    rename_i once
    cases ht
    split
    · exact ⟨by simp only [tokens, requests]; omega, by assumption⟩
    · cases once <;> simp [again, tokens, requests, Sampled] <;> omega
  · -- consumeOne sets: the word is as it was read
    rename_i once rawSample
    split at ht
    · subst rawSample
      have hlt : sample w raw < MAX w := hp
      cases ht
      rw [Nat.mod_eq_of_lt (by omega)]
      exact ⟨by simp only [tokens, requests]; omega, trivial⟩
    · cases ht; cases once <;> simp [again, tokens, requests, Sampled] <;> omega
  · -- readUnlock
    cases ht
    rw [decReaders_eq (by omega) (by omega) hle]
    exact ⟨by simp only [tokens, requests]; omega, trivial⟩
  · -- setWriteRequested: one of the two bits is new
    rename_i mode
    simp only [hget] at ht
    cases ht
    rw [setWriteRequested_eq]
    split <;> cases mode <;> simp [again, tokens, requests, Sampled] <;> omega
  · -- its timeout: the bit was set before
    simp only [hget] at ht
    split at ht <;> cases ht
    rw [setWriteRequested_eq]
    exact ⟨by simp only [tokens, requests]; omega, trivial⟩
  · -- consumeRemaining reads
    cases ht; exact ⟨by simp only [tokens, requests]; omega, trivial⟩
  · -- consumeRemaining sets: what was left comes to what it has
    rename_i mode consumed rawSample
    split at ht
    · subst rawSample
      cases ht
      rw [fill_eq hle, hsample, Nat.mod_eq_of_lt (a := consumed + _) (by omega)]
      exact ⟨by simp only [tokens, requests]; omega, trivial⟩
    · cases ht; exact ⟨by simp only [tokens, requests]; omega, trivial⟩
  · -- consumed is compared to MAX
    rename_i mode consumed
    cases ht
    split_ifs <;> exact ⟨by simp only [tokens, requests]; omega, trivial⟩
  · -- its timeout
    split at ht <;> cases ht
    exact ⟨by simp only [tokens, requests]; omega, trivial⟩
  · -- decReaders gives back
    cases ht
    rw [decReaders_eq (by omega) (by omega) hle]
    exact ⟨by simp only [tokens, requests]; omega, trivial⟩
  · -- clearWriteRequested
    cases ht
    rw [clearWriteRequested_eq hle]
    exact ⟨by simp only [tokens, requests]; omega, trivial⟩
  · -- demote
    cases ht
    rw [setReaders_eq hw0]
    exact ⟨by simp only [tokens, requests]; omega, trivial⟩
  · -- writeUnlock
    cases ht
    rw [setReaders_eq (Nat.zero_le _)]
    exact ⟨by simp only [tokens, requests]; omega, trivial⟩
  · cases ht

theorem step_inv (hw0 : 1 ≤ MAX w) {e : Nat × Act} (hi : Inv w s) (h : step (turn w) s e = some s') : Inv w s' := by
  obtain ⟨p, q, hp, ht, hmem, hf⟩ := step_moves h
  obtain ⟨htok, hlt⟩ := hf (tokens w)
  obtain ⟨hreq, hlr⟩ := hf requests
  have hword := hi.word
  have hone := hi.one
  have hbound := hi.bound
  have ⟨⟨h1, h2, h3⟩, h4⟩ := turn_keeps hw0 (T := s.total (tokens w) - tokens w p) (R := s.total requests - requests p) ht
    (by omega) (by omega) (by omega) (hi.sampled p (List.mem_of_getElem? hp))
  refine ⟨by omega, by omega, by omega, fun x hx => ?_⟩
  rcases hmem x hx with hx | rfl
  · exact hi.sampled x hx
  · exact h4

theorem inv (hw : 0 < w) (h : Reach (step (turn w)) Free (init n) s) : Inv w s := by
  have hw0 : 1 ≤ MAX w := by have := Nat.pow_le_pow_right (n := 2) (by omega) hw; unfold MAX; omega
  refine h.inv ?_ fun hi _ hs => step_inv hw0 hi hs
  have hidle : ∀ p ∈ (init n).places, p = .idle := fun p hp => List.eq_of_mem_replicate hp
  have ht : (init n).total (tokens w) = 0 := State.total_eq_zero _ fun p hp => by rw [hidle p hp]; rfl
  have hr : (init n).total requests = 0 := State.total_eq_zero _ fun p hp => by rw [hidle p hp]; rfl
  exact ⟨by rw [ht, hr]; rfl, by omega, by omega, fun p hp => by rw [hidle p hp]; trivial⟩

/-- While a thread writes, no other reads or is in the write protocol; there are never more readers than tokens; and with
every thread outside, the word is as it was. -/
theorem writes_alone (hw : 0 < w) (h : Reach (step (turn w)) Free (init n) s) :
    (∀ (i j : Nat) (p : Place), i ≠ j → s.places[i]? = some .writing → s.places[j]? = some p → p ≠ .reading ∧ requests p = 0) ∧
    s.places.count .reading ≤ MAX w ∧ ((∀ p ∈ s.places, p = .idle) → s.shared = 0) := by
  have hi := inv hw h
  refine ⟨fun i j p hne hwi hp => ?_, ?_, fun hidle => ?_⟩
  · have ht : MAX w + tokens w p ≤ s.total (tokens w) := State.add_le_total (tokens w) hwi hp hne
    have hr : 1 + requests p ≤ s.total requests := State.add_le_total requests hwi hp hne
    have hbound := hi.bound
    have hone := hi.one
    refine ⟨?_, by omega⟩
    rintro rfl
    have : tokens w .reading = 1 := rfl
    omega
  · exact Nat.le_trans (s.count_le_total (tokens w) (Nat.le_refl 1)) hi.bound
  · rw [hi.word, State.total_eq_zero (tokens w) fun p hp => by rw [hidle p hp]; rfl,
      State.total_eq_zero requests fun p hp => by rw [hidle p hp]; rfl]

/-- One of two threads writes, the other one waits to read. -/
def oneIn : List (Nat × Act) := [(0, .writeLock .wait), (0, .go), (0, .go), (0, .go), (0, .go), (1, .readLock false), (1, .go)]

theorem writes_alone_one_in : ∃ s, exec (step (turn 7)) (init 2) oneIn = some s ∧ s.places[0]? = some .writing ∧
    s.places[1]? ≠ some .reading := by
  refine ⟨_, rfl, rfl, fun h => ?_⟩
  exact ((writes_alone (w := 7) (n := 2) (by decide) (reach_of_exec oneIn rfl)).1 0 1 .reading (by decide) rfl h).1 rfl

/-- A writer that waits for the tokens gets them all in its next turn, once no thread reads. -/
theorem writer_gets_in (hw : 0 < w) (h : Reach (step (turn w)) Free (init n) s) {mode : Mode} {consumed : Nat}
    (hp : s.places[i]? = some (.consumeRemaining mode consumed)) (hr : .reading ∉ s.places) :
    ∃ s', exec (step (turn w)) s [(i, .go), (i, .go), (i, .go)] = some s' ∧ s'.places[i]? = some .writing := by
  have hi := inv hw h
  have hone := hi.one
  have hbound := hi.bound
  have hwidth := width (w := w)
  -- no other thread is in the protocol, so none has a token
  have hothers : ∀ j q, j ≠ i → s.places[j]? = some q → requests q = 0 := fun j q hj hq => by
    have : 1 + requests q ≤ s.total requests := State.add_le_total requests hp hq (Ne.symm hj)
    omega
  have htok : s.total (tokens w) = consumed := State.total_eq (tokens w) hp fun j q hj hq => by
    have := hothers j q hj hq
    cases q <;> first | rfl | exact absurd (List.mem_of_getElem? hq) hr | cases this
  have hreq : s.total requests = 1 := State.total_eq requests hp hothers
  have hword := hi.word
  have hs : sample w s.shared = consumed := by rw [sample_eq (by omega)]; omega
  have hall : (consumed + (MAX w - consumed)) % 2 ^ (w + 1) = MAX w := by rw [Nat.mod_eq_of_lt (by omega)]; omega
  have hlen := (List.getElem?_eq_some_iff.mp hp).1
  have ht2 : turn w s.shared (.fill mode consumed s.shared) .go = some (RAW_MAX w ||| s.shared, .compare mode (MAX w)) := by
    simp only [turn, if_pos, hs, hall]
  have ht3 : turn w (RAW_MAX w ||| s.shared) (.compare mode (MAX w)) .go = some (RAW_MAX w ||| s.shared, .writing) := by
    simp only [turn, if_pos]
  have h1 := step_eq (a := .go) hp (show turn w s.shared _ _ = _ from rfl)
  have h2 := step_eq (s := ⟨s.shared, s.places.set i _⟩) (List.getElem?_set_self hlen) ht2
  have h3 := step_eq (s := ⟨_, s.places.set i _⟩) (List.getElem?_set_self hlen) ht3
  exact ⟨⟨RAW_MAX w ||| s.shared, s.places.set i .writing⟩, by simp only [exec, h1, h2, h3, List.set_set, Option.bind_some],
    List.getElem?_set_self hlen⟩

theorem writer_gets_in_first : ∃ s s', exec (step (turn 7)) (init 2) (oneIn.take 2) = some s ∧
    exec (step (turn 7)) s [(0, .go), (0, .go), (0, .go)] = some s' ∧ s'.places[0]? = some .writing :=
  have ⟨s', hs⟩ := writer_gets_in (w := 7) (n := 2) (by decide) (reach_of_exec (oneIn.take 2) rfl) (i := 0) rfl (by decide)
  ⟨_, s', rfl, hs⟩

end DeepFabric.Sync.LwReadWriteLock
