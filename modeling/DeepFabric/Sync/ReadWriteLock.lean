/-
  DeepFabric.Sync.ReadWriteLock — the read-write lock of the checkpoint requests and the context tables
  (concurrent/locks/UserSpaceReadWriteLock.h).

  A reader counts itself in and looks for a writer; if there is one it counts itself as waiting until that is gone. A
  writer owns `m_writeRequested`, waits for the readers to leave, raises `m_writer` and waits until all readers that are
  there are waiting. The last reader to leave raises `m_writer` for a writer that waits. Every operation on a field is a
  step, and the threads go in any order; what only yields the processor is left out.

  As built a writer that came by tryWriteLock does not wait for the readers that are leaving. One of them may hand the lock
  over to the next writer, and another reader has just gone in (`try_lets_both_in`).

  - `step_inv` / `inv`: on the other runs, who is counted where, and what is certain while `m_writer` is raised.
-/
import Mathlib.Tactic.MkIffOfInductiveProp
import DeepFabric.Lib.Threads

namespace DeepFabric.Sync.ReadWriteLock

open DeepFabric.Lib.Run DeepFabric.Lib.Threads

def MAX_NEW_READERS : Nat := 100

inductive WriteRequestMode where
  | WRITE_IDLE
  | WRITE_WAIT
  | WRITE_TRY
  deriving DecidableEq

def WriteRequestMode.owned : WriteRequestMode → Nat
  | .WRITE_IDLE => 0
  | .WRITE_WAIT => 1
  | .WRITE_TRY => 1

/-- Of numbers alone; the two writer fields are 0 or 1. -/
structure Lock where
  readers : Nat
  readersWaiting : Nat
  readersUnlocking : Nat
  newReaders : Nat
  writer : Nat
  writeRequested : WriteRequestMode
  writerUnlocking : Nat
  deriving DecidableEq

/-! ## The threads -/

/-- The operation that comes next; `once` in tryReadLock and tryWriteLock. -/
inductive Place where
  | idle
  | gateRequested (once : Bool)
  | gateWriter (once : Bool)
  | gateNew (once : Bool)
  | enter (once : Bool)
  | look (once : Bool)
  | join
  | lookAgain
  | unjoin
  | turnBack
  | noteRequested
  | noteWriter
  | noteNew
  | reading
  | unlock
  | checkUnlocking
  | stepBack
  | leave
  | lastOut
  | handOver
  | left
  | request (once : Bool)
  | checkReaders (once : Bool)
  | checkWriter (once : Bool)
  | withdraw
  | raise (once : Bool)
  | countWaiting (once : Bool)
  | compare (once : Bool) (waiting : Nat)
  | clearNew
  | writing
  | setUnlocking
  | checkMode
  | awaitReaders
  | lower
  | release
  | done
  deriving DecidableEq

inductive Act where
  | readLock (once : Bool)
  | readUnlock
  | writeLock (once : Bool)
  | writeUnlock
  | go

def advance (s : Lock) : Place → Lock × Place
  -- readLock, tryReadLock
  | .gateRequested once => (s, if s.writeRequested ≠ .WRITE_IDLE then .gateWriter once else .enter once)
  | .gateWriter once => (s, if s.writer = 0 then .gateNew once else .enter once)
  | .gateNew once =>
    (s, if s.newReaders ≥ MAX_NEW_READERS then if once then .idle else .gateRequested once else .enter once)
  | .enter once => ({ s with readers := s.readers + 1 }, .look once)
  | .look once => (s, if s.writer = 1 then if once then .turnBack else .join else .noteRequested)
  | .join => ({ s with readersWaiting := s.readersWaiting + 1 }, .lookAgain)
  | .lookAgain => (s, if s.writer = 1 then .lookAgain else .unjoin)
  | .unjoin => ({ s with readersWaiting := s.readersWaiting - 1 }, .noteRequested)
  | .turnBack => ({ s with readers := s.readers - 1 }, .idle)
  | .noteRequested => (s, if s.writeRequested ≠ .WRITE_IDLE then .noteWriter else .reading)
  | .noteWriter => (s, if s.writer = 0 then .noteNew else .reading)
  | .noteNew => ({ s with newReaders := s.newReaders + 1 }, .reading)
  -- readUnlock
  | .unlock => ({ s with readersUnlocking := s.readersUnlocking + 1 }, .checkUnlocking)
  | .checkUnlocking => (s, if s.writerUnlocking = 1 then .stepBack else .leave)
  | .stepBack => ({ s with readersUnlocking := s.readersUnlocking - 1 }, .unlock)
  | .leave => ({ s with readers := s.readers - 1 }, if s.readers - 1 = 0 then .lastOut else .left)
  | .lastOut => (s, if s.writeRequested = .WRITE_WAIT then .handOver else .left)
  | .handOver => ({ s with writer := 1 }, .left)
  | .left => ({ s with readersUnlocking := s.readersUnlocking - 1 }, .idle)
  -- writeLock, tryWriteLock
  | .request once =>
    if s.writeRequested = .WRITE_IDLE then ({ s with writeRequested := if once then .WRITE_TRY else .WRITE_WAIT }, .checkReaders once)
    else (s, if once then .idle else .request once)
  | .checkReaders once => (s, if s.readers ≠ 0 then .checkWriter once else .raise once)
  | .checkWriter once => (s, if s.writer = 0 then if once then .withdraw else .checkReaders once else .raise once)
  | .withdraw => ({ s with writeRequested := .WRITE_IDLE }, .idle)
  | .raise once => ({ s with writer := 1 }, .countWaiting once)
  | .countWaiting once => (s, .compare once s.readersWaiting)
  | .compare once waiting =>
    (s, if waiting ≠ s.readers then if once then .setUnlocking else .countWaiting once
      else if once then .writing else .clearNew)
  | .clearNew => ({ s with newReaders := 0 }, .writing)
  -- writeUnlock
  | .setUnlocking => if s.writerUnlocking = 0 then ({ s with writerUnlocking := 1 }, .checkMode) else (s, .setUnlocking)
  | .checkMode => (s, if s.writeRequested = .WRITE_WAIT then .awaitReaders else .lower)
  | .awaitReaders => (s, if s.readersUnlocking ≠ 0 then .awaitReaders else .lower)
  | .lower => ({ s with writer := 0 }, .release)
  | .release => ({ s with writeRequested := .WRITE_IDLE }, .done)
  | .done => ({ s with writerUnlocking := 0 }, .idle)
  | .idle => (s, .idle)
  | .reading => (s, .reading)
  | .writing => (s, .writing)

def turn (s : Lock) : Place → Act → Option (Lock × Place)
  | p, .go => some (advance s p)
  | .idle, .readLock once => some (s, .gateRequested once)
  | .reading, .readUnlock => some (s, .unlock)
  | .idle, .writeLock once => some (s, .request once)
  | .writing, .writeUnlock => some (s, .setUnlocking)
  | _, _ => none

def init (n : Nat) : State Lock Place := ⟨⟨0, 0, 0, 0, 0, .WRITE_IDLE, 0⟩, .replicate n .idle⟩

/-! ## Who counts where -/

inductive Role where
  | outside
  | arriving | joining | waiting | unjoining | inside | checking | leaving | lastOut | left
  | owning | raising | raised | holding | unlocking | lowering | releasing | done
  deriving DecidableEq

def Place.role : Place → Role
  | .idle | .gateRequested _ | .gateWriter _ | .gateNew _ | .enter _ | .request _ => .outside
  | .look _ | .turnBack => .arriving
  | .join => .joining
  | .lookAgain => .waiting
  | .unjoin => .unjoining
  | .noteRequested | .noteWriter | .noteNew | .reading | .unlock => .inside
  | .checkUnlocking | .stepBack => .checking
  | .leave => .leaving
  | .lastOut | .handOver => .lastOut
  | .left => .left
  | .checkReaders _ | .checkWriter _ | .withdraw => .owning
  | .raise _ => .raising
  | .countWaiting _ | .compare _ _ | .setUnlocking => .raised
  | .clearNew | .writing => .holding
  | .checkMode | .awaitReaders => .unlocking
  | .lower => .lowering
  | .release => .releasing
  | .done => .done

/-- A release that does not wait finds no reader past its look at `m_writerUnlocking`. -/
def Ok (s : State Lock Place) (e : Nat × Act) : Prop :=
  s.places[e.1]? = some .checkMode → s.shared.writeRequested ≠ .WRITE_WAIT → ∀ p ∈ s.places, p.role ≠ .leaving ∧ p.role ≠ .lastOut

instance decidableOk (s : State Lock Place) (e : Nat × Act) : Decidable (Ok s e) :=
  inferInstanceAs (Decidable (s.places[e.1]? = some .checkMode → s.shared.writeRequested ≠ .WRITE_WAIT →
    ∀ p ∈ s.places, p.role ≠ .leaving ∧ p.role ≠ .lastOut))

/-- What the fields say of the numbers of threads in each role. -/
@[mk_iff]
structure Good (s : Lock) (c : Role → Nat) : Prop where
  readers : s.readers =
    c .arriving + c .joining + c .waiting + c .unjoining + c .inside + c .checking + c .leaving
  waiting : s.readersWaiting = c .waiting + c .unjoining
  unlocking : s.readersUnlocking = c .checking + c .leaving + c .lastOut + c .left
  owner : c .owning + c .raising + c .raised + c .holding + c .unlocking + c .lowering + c .releasing =
    s.writeRequested.owned
  unlocker : c .unlocking + c .lowering + c .releasing + c .done = s.writerUnlocking
  single : s.writerUnlocking ≤ 1
  raised : c .raised + c .holding + c .unlocking + c .lowering ≤ s.writer
  flag : s.writer ≤ 1
  settled : s.writer = 0 ∨ c .unjoining = 0
  quiet : c .lastOut + c .raising = 0 ∨ c .unjoining = 0 ∧ (s.writer = 1 ∨ c .waiting + c .joining = 0)
  late : c .lowering = 0 ∨ c .leaving + c .lastOut = 0
  alone : c .holding = 0 ∨ c .unjoining + c .inside + c .checking + c .leaving = 0

theorem owned_idle : WriteRequestMode.WRITE_IDLE.owned = 0 := rfl

/-- One more thread in the role. -/
def more (c : Role → Nat) (r : Role) : Role → Nat := fun x => c x + if r = x then 1 else 0

theorem advance_good {s s' : Lock} {p q : Place} {c : Role → Nat} (h : advance s p = (s', q)) (hg : Good s (more c p.role))
    (hmode : p = .checkMode → s.writeRequested ≠ .WRITE_WAIT → c .leaving = 0 ∧ c .lastOut = 0)
    (hcompare : ∀ once k, p = .compare once k → k ≤ c .waiting) : Good s' (more c q.role) := by
  have hone : s.writeRequested.owned ≤ 1 := by cases s.writeRequested <;> decide
  rw [good_iff] at hg ⊢
  cases p
  case request once =>
    simp only [advance] at h
    split at h <;> rename_i hidle
    · have : (if once then WriteRequestMode.WRITE_TRY else .WRITE_WAIT).owned = 1 := by cases once <;> rfl
      cases h
      simp [hidle, more, Place.role, owned_idle, this] at hg ⊢
      omega
    · cases h
      cases once <;> exact hg
  case checkMode =>
    have hl := hmode rfl
    simp only [advance] at h
    split at h <;> rename_i hwait <;> cases h
    · exact hg
    · have := hl hwait
      simp [more, Place.role] at hg ⊢
      omega
  case compare once k =>
    have hk := hcompare once k rfl
    simp only [advance] at h
    split at h <;> cases h <;> cases once
    · exact hg
    · exact hg
    all_goals
      simp [more, Place.role] at hg ⊢
      omega
  all_goals
    simp only [advance] at h
    (repeat split at h) <;> cases h <;>
    -- many moves change neither a role nor a field
    first
    | exact hg
    | simp [more, Place.role, owned_idle] at hg ⊢
      omega

theorem turn_good {s s' : Lock} {p q : Place} {a : Act} {c : Role → Nat} (h : turn s p a = some (s', q))
    (hg : Good s (more c p.role)) (hmode : p = .checkMode → s.writeRequested ≠ .WRITE_WAIT → c .leaving = 0 ∧ c .lastOut = 0)
    (hcompare : ∀ once k, p = .compare once k → k ≤ c .waiting) : Good s' (more c q.role) := by
  unfold turn at h
  split at h
  · exact advance_good (Option.some.inj h) hg hmode hcompare
  · cases h; exact hg
  · cases h; exact hg
  · cases h; exact hg
  · cases h
    rw [good_iff] at hg ⊢
    simp [more, Place.role] at hg ⊢
    omega
  · cases h

/-- Where the waiting readers are counted, and that they stay while `m_writer` is raised. -/
theorem turn_waiting {s s' : Lock} {p q : Place} {a : Act} (h : turn s p a = some (s', q)) :
    (∀ once k, q = .compare once k → p.role = .raised ∧ k = s.readersWaiting) ∧
    (p.role = .waiting → s.writer = 1 → q.role = .waiting) := by
  unfold turn at h
  split at h
  · replace h := Option.some.inj h
    cases p <;> simp only [advance] at h <;> (repeat' split at h) <;> cases h <;> simp [Place.role, *]
  all_goals cases h <;> simp [Place.role]

def count (s : State Lock Place) (r : Role) : Nat := s.total fun p => if p.role = r then 1 else 0

structure Inv (s : State Lock Place) : Prop where
  good : Good s.shared (count s)
  compared : ∀ once k, .compare once k ∈ s.places → k ≤ count s .waiting

variable {n : Nat} {s s' : State Lock Place}

theorem count_pos {p : Place} (h : p ∈ s.places) : 0 < count s p.role := by
  obtain ⟨j, hj⟩ := List.mem_iff_getElem?.mp h
  have hle := State.le_total (fun x => if x.role = p.role then 1 else 0) hj
  rwa [if_pos rfl] at hle

theorem step_inv {e : Nat × Act} (hi : Inv s) (hok : Ok s e) (h : step turn s e = some s') : Inv s' := by
  obtain ⟨p, q, hp, ht, hmem, hf⟩ := step_moves h
  have hpm := List.mem_of_getElem? hp
  -- the others
  let c : Role → Nat := fun r => count s r - if p.role = r then 1 else 0
  have hc : count s = more c p.role := funext fun r => by have := (hf fun x => if x.role = r then 1 else 0).2; simp only [more, c, count]; omega
  have hc' : count s' = more c q.role := funext fun r => by have := hf fun x => if x.role = r then 1 else 0; simp only [more, c, count]; omega
  have hg := hi.good
  rw [hc] at hg
  have hcompared : ∀ once k, .compare once k ∈ s.places → k ≤ c .waiting + if p.role = .waiting then 1 else 0 := by
    simpa only [hc, more] using hi.compared
  refine ⟨hc' ▸ turn_good ht hg (fun hcm hw => ?_) fun once k hk => ?_, fun once k hk => ?_⟩
  · subst hcm
    have hnone := hok hp hw
    have hl : count s .leaving = 0 := State.total_eq_zero _ fun x hx => if_neg (hnone x hx).1
    have ho : count s .lastOut = 0 := State.total_eq_zero _ fun x hx => if_neg (hnone x hx).2
    simpa [hc, more, Place.role] using And.intro hl ho
  · subst hk
    simpa [Place.role] using hcompared once k hpm
  · -- a thread that compares has raised `m_writer`, so no reader stops waiting
    obtain ⟨hnew, hstay⟩ := turn_waiting ht
    have hwriter : 0 < count s .raised → s.shared.writer = 1 ∧ s.shared.readersWaiting = count s .waiting := fun h => by
      obtain ⟨-, h2, -, -, -, -, h7, h8, h9, -⟩ := hi.good
      omega
    rw [hc']
    rcases hmem _ hk with hk | rfl
    · have hle := hcompared once k hk
      have hw := (hwriter (count_pos hk)).1
      unfold more
      split at hle
      · rwa [if_pos (hstay (by assumption) hw)]
      · omega
    · obtain ⟨hrole, rfl⟩ := hnew once k rfl
      have hraised : 0 < count s .raised := by rw [hc, more, if_pos hrole]; omega
      rw [(hwriter hraised).2, hc, more, more, hrole]
      exact Nat.le_refl _

theorem inv (h : Reach (step turn) Ok (init n) s) : Inv s := by
  refine h.inv ?_ step_inv
  have hidle : ∀ p ∈ (init n).places, p = .idle := fun p hp => List.eq_of_mem_replicate hp
  have hzero : ∀ r, r ≠ .outside → count (init n) r = 0 := fun r hr =>
    State.total_eq_zero _ fun p hp => by rw [hidle p hp]; exact if_neg (Ne.symm hr)
  refine ⟨?_, fun once k hk => by cases hidle _ hk⟩
  simp [good_iff, hzero, show (init n).shared = ⟨0, 0, 0, 0, 0, .WRITE_IDLE, 0⟩ from rfl, owned_idle]

/-- A thread writes alone. -/
theorem writer_is_alone (h : Reach (step turn) Ok (init n) s) {i j : Nat} {p : Place} (hne : i ≠ j)
    (hi : s.places[i]? = some .writing) (hj : s.places[j]? = some p) : p ≠ .reading ∧ p ≠ .writing := by
  have hg := (inv h).good
  have hone : s.shared.writeRequested.owned ≤ 1 := by cases s.shared.writeRequested <;> decide
  obtain ⟨-, -, -, h4, -, -, -, -, -, -, -, h12⟩ := hg
  have hhold := count_pos (List.mem_of_getElem? hi)
  constructor <;> rintro rfl
  · have := count_pos (List.mem_of_getElem? hj)
    simp only [Place.role] at hhold this
    omega
  · have hle := State.add_le_total (fun p => if p.role = .holding then 1 else 0) hi hj hne
    have : 1 + 1 ≤ count s .holding := hle
    omega

/-- An operation of a thread and the next ones behind it. -/
def run (i : Nat) (act : Act) (more : Nat) : List (Nat × Act) := (i, act) :: .replicate more (i, .go)

/-- A tryWriteLock after the last reader left, and a reader that comes then. -/
def onlyWriter : List (Nat × Act) :=
  run 0 (.readLock true) 4 ++ run 0 .readUnlock 5 ++ run 1 (.writeLock true) 5 ++ run 0 (.readLock false) 5

theorem writer_is_alone_after_reader : ∃ s, exec (guarded (step turn) Ok) (init 2) onlyWriter = some s ∧
    s.places[1]? = some .writing ∧ s.places[0]? ≠ some .reading := by
  have hrun : (exec (guarded (step turn) Ok) (init 2) onlyWriter).any (fun s => s.places[1]? = some .writing) = true := by
    decide +kernel
  obtain ⟨s, hs, hp⟩ := exec_ends hrun
  exact ⟨s, hs, hp, fun h => (writer_is_alone (n := 2) (reach_of_exec_guarded onlyWriter hs) (i := 1) (j := 0) (by decide) hp h).1 rfl⟩

/-! ## As built -/

/-- A reader on its way out hands the lock to a writer while another reader, which waited for a tryWriteLock to end, still
counts as waiting. -/
def bothIn : List (Nat × Act) :=
  -- 0 reads and is about to see whether a writer waits; 1 writes by tryWriteLock, and 2 waits to read
  [run 0 (.readLock false) 4, run 0 .readUnlock 3, run 1 (.writeLock true) 5, run 2 (.readLock false) 5,
  -- 1 leaves, 2 sees that, 3 waits to write, and 0 hands over
    run 1 .writeUnlock 3, run 2 .go 0, run 1 .go 1, run 3 (.writeLock false) 2, run 0 .go 1, run 3 .go 4, run 2 .go 2].flatten

theorem try_lets_both_in : ∃ s, Reach (step turn) Free (init 4) s ∧ s.places = [.left, .idle, .reading, .writing] := by
  have h : (exec (step turn) (init 4) bothIn).any (fun s => s.places = [.left, .idle, .reading, .writing]) = true := by
    decide +kernel
  obtain ⟨s, hs, hp⟩ := exec_ends h
  exact ⟨s, reach_of_exec _ hs, hp⟩

end DeepFabric.Sync.ReadWriteLock
