/-
  DeepFabric.Transaction.WaitCycle — deadlock detection: checkCycleLock and what
  checkAccessLock does around it (core/RealTimeMap.cxx), with the wait field, the wait flag and
  the signal of a transaction (core/Transaction.h).

  Actors. A transaction that does not get a row lock has left the story lock when it
  comes here. It reads the lock's identifier again and records it in its wait field. Then it
  walks: from the transaction that has this identifier to the one whose identifier that one's wait
  field shows, and so on. It holds no lock meanwhile, and reads every wait field three times: is it
  0, is it my own identifier, who has it. Everybody else goes on between any two of these
  reads, and story locks change hands. A walk that finds nothing waits on the first
  transaction's monitor, until that one signals or the time is up.
  - A walk ends with a deadlock when it reads its own identifier, and also when it has gone
    DEFAULT_TRANSACTION_INFINITE turns.
  - The transaction then takes its wait field back. The first three times it sleeps and tries again,
    after that it gives up with ERR_DEADLOCK.
  - A shared lock shows the identifier of one of its readers, which may be the requester itself.

  An object that has left the table lives on while somebody has a reference to it, so objects
  are numbered and a number is not used twice.

  - `as_built_report_without_cycle`: 64 transactions that wait in a row, none of them for the
    65th, which asks the first one's row and is told there is a deadlock. And a walk that reads
    its own identifier when the wait it came by is over.
  - `at_succ` / `at_run`: what a transaction has read, at each point of its walk.
-/
import Mathlib.Data.List.MinMax
import DeepFabric.Lib.MovingGraph
import DeepFabric.Lib.Run
import DeepFabric.Transaction.Table

namespace DeepFabric.Transaction.WaitCycle

open DeepFabric.Lib.Run DeepFabric.Lib.MovingGraph Function
open Nat (le_succ_of_le zero_le)
open Option (ite_none_right_eq_some some)
open Function (update)

def DEFAULT_TRANSACTION_RETRY : Nat := 2

def DEFAULT_TRANSACTION_DEPTH : Nat := 128

def DEFAULT_TRANSACTION_INFINITE : Nat := DEFAULT_TRANSACTION_DEPTH / 2

inductive ErrorCode where
  | ERR_SUCCESS
  | ERR_TIMEOUT
  | ERR_DEADLOCK
  deriving DecidableEq, Repr

/-- The three reads of a wait field in a turn of the loop. -/
inductive Read where
  | zero
  | own
  | next
  deriving DecidableEq, Repr

/-- Where a transaction's thread is. -/
inductive Phase where
  | idle
  /-- With the identifier it has read from the row's story lock. -/
  | recording (row id : Nat)
  /-- The wait identifier is recorded. -/
  | recorded (row : Nat)
  | walking (read : Read) (row otx ntx iter : Nat)
  /-- The walk has found no deadlock. -/
  | checked (row otx : Nat)
  | waiting (row otx : Nat)
  | leaving (code : ErrorCode)
  /-- The walk has found a deadlock. -/
  | reporting
  /-- checkCycleLock has returned true. -/
  | deadlocked
  deriving DecidableEq, Repr

/-- The fields of a transaction object that waiting looks at, and its thread's place and error code. -/
structure Tx where
  identifier : Nat
  waitIdentifier : Nat
  retry : Nat
  /-- `m_wait`: somebody may be waiting on this object. -/
  wait : Bool
  phase : Phase
  code : ErrorCode
  deriving DecidableEq, Repr

structure St where
  /-- The object in each slot of `s_transactions`. -/
  table : Table Nat
  objects : Nat → Tx
  /-- The next object's number. -/
  fresh : Nat
  /-- `getLockIdentifier` of each row's story lock. -/
  locks : Nat → Nat

namespace St

def getTransaction (s : St) (id : Nat) : Option Nat := s.table.transactions id

/-- Whom a transaction's wait field shows. -/
def next (s : St) (h : Nat) : Option Nat := s.getTransaction (s.objects h).waitIdentifier

def set (s : St) (h : Nat) (x : Tx) : St := { s with objects := update s.objects h x }

def setPhase (s : St) (h : Nat) (p : Phase) : St := s.set h { s.objects h with phase := p }

end St

/-! ## The call -/

/-- Behind the loop of checkCycleLock. -/
def exitLoop (row otx iter : Nat) : Phase :=
  if iter = DEFAULT_TRANSACTION_INFINITE then .reporting else .checked row otx

/-- The loop's condition, then its body or what is behind it. -/
def loopHead (row otx iter : Nat) : Option Nat → Phase
  | some ntx => if iter < DEFAULT_TRANSACTION_INFINITE then .walking .zero row otx ntx iter else exitLoop row otx iter
  | none => exitLoop row otx iter

/-- Transaction::release, on the way out of checkAccessLock. -/
def release (itx : Tx) : Tx := { itx with waitIdentifier := 0, retry := 0, phase := .idle }

/-- The next access of `h` to what it shares with others, in checkCycleLock and in checkAccessLock behind the story lock. -/
def turn (s : St) (h : Nat) : Option St :=
  let itx := s.objects h
  match itx.phase with
  | .idle => none
  | .recording row id => some (s.set h { itx with waitIdentifier := id, phase := .recorded row })
  | .recorded row =>
    match s.getTransaction itx.waitIdentifier with
    | some otx => some (s.setPhase h (loopHead row otx 0 (some otx)))
    | none => some (s.setPhase h (.leaving .ERR_SUCCESS))
  | .walking .zero row otx ntx iter =>
    if (s.objects ntx).waitIdentifier = 0 then some (s.setPhase h (exitLoop row otx iter))
    else some (s.setPhase h (.walking .own row otx ntx iter))
  | .walking .own row otx ntx iter =>
    if (s.objects ntx).waitIdentifier = itx.identifier then some (s.setPhase h .reporting)
    else some (s.setPhase h (.walking .next row otx ntx iter))
  | .walking .next row otx ntx iter => some (s.setPhase h (loopHead row otx (iter + 1) (s.next ntx)))
  | .reporting => some (s.set h { itx with waitIdentifier := 0, phase := .deadlocked })
  | .deadlocked =>
    if itx.retry > DEFAULT_TRANSACTION_RETRY then some (s.set h { release itx with code := .ERR_DEADLOCK })
    else some (s.set h { itx with retry := itx.retry + 1, phase := .idle })
  | .checked row otx =>
    -- otx is locked from here on; the wait unlocks it
    if s.locks row ≠ (s.objects otx).identifier then some (s.setPhase h (.leaving .ERR_SUCCESS))
    else some ((s.set otx { s.objects otx with wait := true }).setPhase h (.waiting row otx))
  | .waiting _ _ => none
  | .leaving code => some (s.set h { release itx with code := code })

/-! ## The others -/

/-- A thread that waits on the monitor of `h` is woken. -/
def notify (h : Nat) (x : Tx) : Tx :=
  match x.phase with
  | .waiting _ otx => if otx = h then { x with phase := .leaving .ERR_SUCCESS } else x
  | _ => x

/-- Transaction::signal -/
def signal (s : St) (h : Nat) : St :=
  if (s.objects h).wait = true then
    let s1 := { s with objects := fun k => notify h (s.objects k) }
    s1.set h { s1.objects h with wait := false }
  else s

/-- The object in the table, and its thread outside of the call. -/
def Ready (s : St) (h : Nat) : Prop := s.getTransaction (s.objects h).identifier = some h ∧ (s.objects h).phase = .idle

instance (s : St) (h : Nat) : Decidable (Ready s h) := inferInstanceAs (Decidable (_ ∧ _))

/-- A new object. -/
def created (id : Nat) : Tx := ⟨id, 0, 0, false, .idle, .ERR_SUCCESS⟩

inductive Event where
  | create
  | destroy (h : Nat)
  /-- A story lock changes hands. -/
  | credentials (row id : Nat)
  /-- Transaction::reassign hands a story lock of `h` to another reader, or to nobody. -/
  | reassign (h row id : Nat)
  /-- setDirty(false), which signals: the transaction has ended. -/
  | clean (h : Nat)
  /-- checkAccessLock has to wait for the row. -/
  | block (h row : Nat)
  | turn (h : Nat)
  | timeout (h : Nat)
  deriving DecidableEq, Repr

def step (s : St) : Event → Option St
  | .create =>
    match s.table.create fun _ => s.fresh with
    | some (id, table) => some { s with
        table := table
        objects := update s.objects s.fresh (created id)
        fresh := s.fresh + 1 }
    | none => none
  | .destroy h => if Ready s h then some { s with table := s.table.destroy (s.objects h).identifier } else none
  | .credentials row id => some { s with locks := update s.locks row id }
  | .reassign h row id =>
    if Ready s h ∧ s.locks row = (s.objects h).identifier then
      some ({ s with locks := update s.locks row id }.set h { s.objects h with wait := true })
    else none
  | .clean h => if Ready s h then some (signal (s.set h { s.objects h with retry := 0 }) h) else none
  | .block h row =>
    if Ready s h then some (s.set h { s.objects h with phase := .recording row (s.locks row), code := .ERR_SUCCESS }) else none
  | .turn h => turn s h
  | .timeout h =>
    match (s.objects h).phase with
    | .waiting _ _ => some (s.setPhase h (.leaving .ERR_TIMEOUT))
    | _ => none

/-- The transaction tells its caller of a deadlock, or is about to. -/
def Reported (s : St) (h : Nat) : Prop := (s.objects h).phase = .reporting ∨ (s.objects h).phase = .deadlocked

instance (s : St) (h : Nat) : Decidable (Reported s h) := inferInstanceAs (Decidable (_ ∨ _))

def init : St := ⟨.empty, fun _ => created 0, 1, fun _ => 0⟩

/-! ## As built -/

/-- The transactions 1 to `n`, each the owner of the row of its own number. -/
def owners (n : Nat) : List Event := (List.range n).flatMap fun i => [.create, .credentials (i + 1) (i + 1)]

/-- `h` asks for a row and makes `n` accesses. -/
def asks (h row n : Nat) : List Event := .block h row :: List.replicate n (.turn h)

/-- Each of the first 64 waits for the next one; the 65th is not waiting, and the 66th asks for the first one's row. -/
def chain : List Event := owners 66 ++ (List.range 64).flatMap (fun i => asks (i + 1) (i + 2) 4) ++ asks 66 1 194

/-- 1 has come by 2's wait for 3 when that one's time is up; then 3 asks for 1's row. -/
def bygone : List Event :=
  owners 3 ++ asks 2 3 4 ++ asks 1 2 5 ++ [.timeout 2, .turn 2] ++ asks 3 1 1 ++ [.turn 1, .turn 1]

/-- A deadlock is reported where the wait identifiers do not lead back, from a row of waits and from a wait that is over. -/
theorem as_built_report_without_cycle :
    (∃ s, exec step init chain = some s ∧ Reported s 66 ∧ ¬LeadsBack s.next 66) ∧
    ∃ s, exec step init bygone = some s ∧ Reported s 1 ∧ ¬LeadsBack s.next 1 := by
  constructor
  · obtain ⟨s, hs, hr, hends⟩ := exec_ends (p := fun s => Reported s 66 ∧ Ends s.next 66 66)
      (show (exec step init chain).any _ = true by decide +kernel)
    exact ⟨s, hs, hr, hends.not_leadsBack⟩
  · obtain ⟨s, hs, hr, hends⟩ := exec_ends (p := fun s => Reported s 1 ∧ Ends s.next 2 1)
      (show (exec step init bygone).any _ = true by decide +kernel)
    exact ⟨s, hs, hr, hends.not_leadsBack⟩

/-! ## What a step leaves -/

/-- What others leave of an object: they wake its thread at most. -/
structure Kept (x y : Tx) : Prop where
  identifier : y.identifier = x.identifier
  waitIdentifier : y.waitIdentifier = x.waitIdentifier
  phase : y.phase = x.phase ∨ ∃ row otx code, x.phase = .waiting row otx ∧ y.phase = .leaving code

section Frame

variable {s s' : St} {e : Event} {h k : Nat}

@[simp] theorem set_self (s : St) (h : Nat) (x : Tx) : (s.set h x).objects h = x := update_self ..

theorem set_other (s : St) {h k : Nat} (x : Tx) (hne : k ≠ h) : (s.set h x).objects k = s.objects k :=
  update_of_ne hne ..

@[simp] theorem setPhase_self (s : St) (h : Nat) (p : Phase) : (s.setPhase h p).objects h = { s.objects h with phase := p } :=
  set_self ..

theorem Kept.refl (x : Tx) : Kept x x := ⟨rfl, rfl, .inl rfl⟩

theorem Kept.notify (h : Nat) (x : Tx) : Kept x (notify h x) := by
  unfold WaitCycle.notify
  split
  · rename_i row otx hp
    split
    · exact ⟨rfl, rfl, .inr ⟨row, otx, _, hp, rfl⟩⟩
    · exact Kept.refl x
  · exact Kept.refl x

theorem Kept.trans {x y z : Tx} (hxy : Kept x y) (hyz : Kept y z) : Kept x z := by
  refine ⟨hyz.identifier.trans hxy.identifier, hyz.waitIdentifier.trans hxy.waitIdentifier, ?_⟩
  obtain hy | ⟨row, otx, code, hx, hy⟩ := hxy.phase
  · rw [← hy]
    exact hyz.phase
  · obtain hz | ⟨row', otx', code', hy', -⟩ := hyz.phase
    · exact .inr ⟨row, otx, code, hx, hz.trans hy⟩
    · rw [hy] at hy'
      cases hy'

theorem Kept.flags (x : Tx) (retry : Nat) (wait : Bool) : Kept x { x with retry := retry, wait := wait } := ⟨rfl, rfl, .inl rfl⟩

theorem Kept.set {x : Tx} (hk : Kept (s.objects h) x) (k : Nat) : Kept (s.objects k) ((s.set h x).objects k) := by
  by_cases hkh : k = h
  · subst hkh
    rw [set_self]
    exact hk
  · rw [set_other _ _ hkh]
    exact Kept.refl _

theorem signal_other (s : St) (h k : Nat) : Kept (s.objects k) ((signal s h).objects k) := by
  unfold signal
  split
  · let s1 : St := { s with objects := fun j => WaitCycle.notify h (s.objects j) }
    have hnotify : Kept (s.objects k) (s1.objects k) := Kept.notify ..
    have hflag : Kept (s1.objects h) { s1.objects h with wait := false } := Kept.flags ..
    exact hnotify.trans (hflag.set k)
  · exact Kept.refl _

theorem signal_table (s : St) (h : Nat) : (signal s h).table = s.table ∧ (signal s h).fresh = s.fresh := by
  unfold signal
  split <;> exact ⟨rfl, rfl⟩

/-- The object an access is about, after it, and the wait flag of another one at most. -/
theorem turn_shape (ht : turn s h = some s') : ∃ s1 x, s' = s1.set h x ∧ x.identifier = (s.objects h).identifier ∧
    (s1 = s ∨ ∃ o, s1 = s.set o { s.objects o with wait := true }) := by
  unfold turn at ht
  simp only at ht
  split at ht
  · cases ht
  · cases ht
    exact ⟨s, _, rfl, rfl, .inl rfl⟩
  · split at ht <;> cases ht <;> exact ⟨s, _, rfl, rfl, .inl rfl⟩
  · split at ht <;> cases ht <;> exact ⟨s, _, rfl, rfl, .inl rfl⟩
  · split at ht <;> cases ht <;> exact ⟨s, _, rfl, rfl, .inl rfl⟩
  · cases ht
    exact ⟨s, _, rfl, rfl, .inl rfl⟩
  · cases ht
    exact ⟨s, _, rfl, rfl, .inl rfl⟩
  · split at ht <;> cases ht <;> exact ⟨s, _, rfl, rfl, .inl rfl⟩
  · rename_i row otx hp
    split at ht
    · cases ht
      exact ⟨s, _, rfl, rfl, .inl rfl⟩
    · cases ht
      refine ⟨_, _, rfl, ?_, .inr ⟨otx, rfl⟩⟩
      by_cases ho : h = otx
      · subst ho
        simp
      · simp only [set_other _ _ ho]
  · cases ht
  · cases ht
    exact ⟨s, _, rfl, rfl, .inl rfl⟩

theorem turn_table (ht : turn s h = some s') : s'.table = s.table ∧ s'.fresh = s.fresh ∧
    (s'.objects h).identifier = (s.objects h).identifier := by
  obtain ⟨s1, x, rfl, hx, hs1⟩ := turn_shape ht
  obtain rfl | ⟨o, rfl⟩ := hs1
  · exact ⟨rfl, rfl, by simpa using hx⟩
  · exact ⟨rfl, rfl, by simpa using hx⟩

theorem turn_other (ht : turn s h = some s') (hne : k ≠ h) : Kept (s.objects k) (s'.objects k) := by
  obtain ⟨s1, x, rfl, -, hs1⟩ := turn_shape ht
  rw [set_other _ _ hne]
  obtain rfl | ⟨o, rfl⟩ := hs1
  · exact Kept.refl _
  · exact Kept.set (Kept.flags ..) k

/-- An object comes into the table or leaves it, or the table stays; then an object is kept, or its thread blocks or makes an access. -/
theorem step_cases (hs : step s e = some s') :
    (∃ id table, s.table.create (fun _ => s.fresh) = some (id, table) ∧
      s' = { s with table := table, objects := update s.objects s.fresh (created id), fresh := s.fresh + 1 }) ∨
    (∃ h, Ready s h ∧ s' = { s with table := s.table.destroy (s.objects h).identifier }) ∨
    (s'.table = s.table ∧ s'.fresh = s.fresh ∧ ∀ k, Kept (s.objects k) (s'.objects k) ∨
      (Ready s k ∧ ∃ row id, s'.objects k = { s.objects k with phase := .recording row id, code := .ERR_SUCCESS }) ∨
      (e = .turn k ∧ turn s k = some s')) := by
  cases e with
  | create =>
    simp only [step] at hs
    split at hs
    · rename_i id table hc
      cases hs
      exact .inl ⟨id, table, hc, rfl⟩
    · cases hs
  | destroy h =>
    obtain ⟨hr, hs⟩ := ite_none_right_eq_some.mp hs
    cases hs
    exact .inr (.inl ⟨h, hr, rfl⟩)
  | credentials row id =>
    cases hs
    exact .inr (.inr ⟨rfl, rfl, fun k => .inl (Kept.refl _)⟩)
  | reassign h row id =>
    obtain ⟨-, hs⟩ := ite_none_right_eq_some.mp hs
    cases hs
    exact .inr (.inr ⟨rfl, rfl, fun k => .inl (Kept.set (Kept.flags ..) k)⟩)
  | clean h =>
    obtain ⟨-, hs⟩ := ite_none_right_eq_some.mp hs
    cases hs
    refine .inr (.inr ⟨(signal_table ..).1, (signal_table ..).2, fun k => .inl ?_⟩)
    have hretry : Kept (s.objects k) ((s.set h { s.objects h with retry := 0 }).objects k) := Kept.set (Kept.flags ..) k
    exact hretry.trans (signal_other ..)
  | block h row =>
    obtain ⟨hr, hs⟩ := ite_none_right_eq_some.mp hs
    cases hs
    refine .inr (.inr ⟨rfl, rfl, fun k => ?_⟩)
    by_cases hkh : k = h
    · subst hkh
      rw [set_self]
      exact .inr (.inl ⟨hr, row, _, rfl⟩)
    · rw [set_other _ _ hkh]
      exact .inl (Kept.refl _)
  | turn h =>
    obtain ⟨htable, hfresh, -⟩ := turn_table hs
    refine .inr (.inr ⟨htable, hfresh, fun k => ?_⟩)
    by_cases hkh : k = h
    · subst hkh
      exact .inr (.inr ⟨rfl, hs⟩)
    · exact .inl (turn_other hs hkh)
  | timeout h =>
    simp only [step] at hs
    split at hs
    · rename_i row otx hp
      cases hs
      have hleave : Kept (s.objects h) { s.objects h with phase := .leaving .ERR_TIMEOUT } :=
        ⟨rfl, rfl, .inr ⟨row, otx, _, hp, rfl⟩⟩
      exact .inr (.inr ⟨rfl, rfl, fun k => .inl (hleave.set k)⟩)
    · cases hs

end Frame

/-! ## The table -/

/-- A slot's object has the slot's identifier, and a thread in the call has its object in the table. -/
structure Valid (s : St) : Prop where
  slot : ∀ {i h}, s.getTransaction i = some h → (s.objects h).identifier = i ∧ h < s.fresh
  busy : ∀ {h}, (s.objects h).phase ≠ .idle → s.getTransaction (s.objects h).identifier = some h

theorem valid_init : Valid init := by
  constructor
  · intro i h hi
    cases hi
  · intro h hh
    exact absurd rfl hh

section Table

variable {s s' : St} {e : Event} {h k : Nat}

theorem Kept.busy {x y : Tx} (hk : Kept x y) (hy : y.phase ≠ .idle) : x.phase ≠ .idle := by
  obtain hp | ⟨row, otx, code, hp, -⟩ := hk.phase
  · rw [← hp]
    exact hy
  · rw [hp]
    exact Phase.noConfusion

theorem getTransaction_zero (s : St) : s.getTransaction 0 = none := by
  cases h0 : s.getTransaction 0 with
  | none => rfl
  | some h => exact absurd (s.table.live 0 (by rw [show s.table.transactions 0 = some h from h0]; rfl)).1 (Nat.lt_irrefl 0)

theorem turn_busy (ht : turn s h = some s') : (s.objects h).phase ≠ .idle := by
  intro hp
  rw [turn] at ht
  simp only [hp] at ht
  cases ht

theorem step_valid (hv : Valid s) (hs : step s e = some s') : Valid s' := by
  obtain ⟨id, table, hc, rfl⟩ | ⟨k, hr, rfl⟩ | ⟨htable, hfresh, hobjects⟩ := step_cases hs
  · obtain ⟨hfree, hput⟩ := Table.create_eq_some hc
    have hold : ∀ {h}, h ≠ s.fresh → update s.objects s.fresh (created id) h = s.objects h :=
      fun hne => update_of_ne hne ..
    constructor
    · intro i h hi
      rw [St.getTransaction, hput] at hi
      by_cases hid : i = id
      · subst hid
        rw [update_self] at hi
        cases hi
        simp [created]
      · rw [update_of_ne hid] at hi
        obtain ⟨hslot, hlt⟩ := hv.slot hi
        refine ⟨?_, Nat.lt_succ_of_lt hlt⟩
        show (update s.objects s.fresh (created id) h).identifier = i
        rw [hold (Nat.ne_of_lt hlt)]
        exact hslot
    · intro h hp
      by_cases hh : h = s.fresh
      · subst hh
        simp [created] at hp
      · simp only [hold hh] at hp ⊢
        have hlive := hv.busy hp
        have hid : (s.objects h).identifier ≠ id := by
          intro hid
          rw [hid, St.getTransaction, hfree] at hlive
          cases hlive
        rw [St.getTransaction, hput, update_of_ne hid]
        exact hlive
  · constructor
    · intro i h hi
      rw [St.getTransaction, Table.destroy_transactions] at hi
      by_cases hid : i = (s.objects k).identifier
      · subst hid
        rw [update_self] at hi
        cases hi
      · rw [update_of_ne hid] at hi
        exact hv.slot hi
    · intro h hp
      have hlive := hv.busy hp
      have hid : (s.objects h).identifier ≠ (s.objects k).identifier := by
        intro hid
        rw [hid, hr.1] at hlive
        cases hlive
        exact hp hr.2
      rw [St.getTransaction, Table.destroy_transactions, update_of_ne hid]
      exact hlive
  · have hident : ∀ h, (s'.objects h).identifier = (s.objects h).identifier := by
      intro h
      obtain hk | ⟨-, row, id, hx⟩ | ⟨-, ht⟩ := hobjects h
      · exact hk.identifier
      · rw [hx]
      · exact (turn_table ht).2.2
    have hget : ∀ i, s'.getTransaction i = s.getTransaction i := fun i => by rw [St.getTransaction, htable]; rfl
    constructor
    · intro i h hi
      rw [hget] at hi
      rw [hident, hfresh]
      exact hv.slot hi
    · intro h hp
      rw [hident, hget]
      obtain hk | ⟨hr, -⟩ | ⟨-, ht⟩ := hobjects h
      · exact hv.busy (hk.busy hp)
      · exact hr.1
      · exact hv.busy (turn_busy ht)

/-- What another's step leaves of an object, as far as its thread has recorded anything. -/
theorem step_other (hs : step s e = some s') (he : e ≠ .turn k) : Kept (s.objects k) (s'.objects k) ∨
    (s'.objects k).phase = .idle ∨ ∃ row id, (s'.objects k).phase = .recording row id := by
  obtain ⟨id, table, -, rfl⟩ | ⟨h, -, rfl⟩ | ⟨-, -, hobjects⟩ := step_cases hs
  · by_cases hk : k = s.fresh
    · subst hk
      simp only [update_self]
      exact .inr (.inl rfl)
    · simp only [update_of_ne hk]
      exact .inl (Kept.refl _)
  · exact .inl (Kept.refl _)
  · obtain hkept | ⟨-, row, id, hx⟩ | ⟨hturn, -⟩ := hobjects k
    · exact .inl hkept
    · exact .inr (.inr ⟨row, id, by rw [hx]⟩)
    · exact absurd hturn he

end Table

/-! ## What a walk has read -/

/-- Whom each wait field shows, at each time. -/
def waits (st : Nat → St) (i h : Nat) : Option Nat := (st i).next h

/-- From `r` to `n` the wait field of `h` is what it is at `n`, and `h` has the slot of its identifier. -/
def Since (st : Nat → St) (r n h : Nat) : Prop :=
  ∀ i, r ≤ i → i ≤ n → ((st i).objects h).waitIdentifier = ((st n).objects h).waitIdentifier ∧
    (st i).getTransaction ((st n).objects h).identifier = some h

/-- Following the recorded wait identifiers from `h`, each as it stood when the walk came by, led back to `h`. -/
def LedBack (st : Nat → St) (r n h : Nat) : Prop := ∃ k, Journey (waits st) r h n h (k + 1)

/-- It has led to DEFAULT_TRANSACTION_INFINITE transactions, of which the last one too had a wait identifier recorded. -/
def Exhausted (st : Nat → St) (r n h : Nat) : Prop :=
  ∃ m p i, Journey (waits st) r h m p DEFAULT_TRANSACTION_INFINITE ∧ m ≤ i ∧ i ≤ n ∧ ((st i).objects p).waitIdentifier ≠ 0

/-- The walk since the record came back or was too long, while the record stood. -/
def Found (st : Nat → St) (n h : Nat) : Prop :=
  ∃ r e, r ≤ e ∧ e ≤ n ∧ Since st r e h ∧ (LedBack st r e h ∨ Exhausted st r e h)

/-- The walk since the record came to somebody who waited for nobody. -/
def Quiet (st : Nat → St) (n h : Nat) : Prop :=
  ∃ r m p k e, Since st r n h ∧ Journey (waits st) r h m p k ∧ m ≤ e ∧ e ≤ n ∧ waits st e p = none

/-- Under way since the record, after `iter` turns. -/
def UnderWay (st : Nat → St) (n h ntx iter : Nat) (read : Read) : Prop :=
  iter < DEFAULT_TRANSACTION_INFINITE ∧ ∃ r m, Since st r n h ∧ m ≤ n ∧ Journey (waits st) r h m ntx (iter + 1) ∧
    (read ≠ .zero → ∃ i, m ≤ i ∧ i ≤ n ∧ ((st i).objects ntx).waitIdentifier ≠ 0)

/-- What `h` has read by time `n`, by the place of its thread. -/
def At (st : Nat → St) (n h : Nat) : Phase → Prop
  | .idle | .recording _ _ => True
  | .recorded _ => ∃ r ≤ n, Since st r n h
  | .walking read _ _ ntx iter => UnderWay st n h ntx iter read
  | .checked _ _ | .waiting _ _ | .leaving _ => Quiet st n h
  | .reporting | .deadlocked => Found st n h

section Walk

variable {st : Nat → St} {e : Event} {r n h : Nat}

theorem Since.succ (hs : Since st r n h)
    (hwait : ((st (n + 1)).objects h).waitIdentifier = ((st n).objects h).waitIdentifier)
    (hident : ((st (n + 1)).objects h).identifier = ((st n).objects h).identifier)
    (hlive : (st (n + 1)).getTransaction ((st (n + 1)).objects h).identifier = some h) : Since st r (n + 1) h := by
  intro i hr hi
  rcases Nat.lt_or_eq_of_le hi with hlt | rfl
  · obtain ⟨hw, ht⟩ := hs i hr (Nat.le_of_lt_succ hlt)
    rw [hwait, hident]
    exact ⟨hw, ht⟩
  · exact ⟨rfl, hlive⟩

theorem Since.single (hlive : (st n).getTransaction ((st n).objects h).identifier = some h) : Since st n n h := by
  intro i hr hi
  obtain rfl := Nat.le_antisymm hi hr
  exact ⟨rfl, hlive⟩

theorem Found.succ (hf : Found st n h) : Found st (n + 1) h := by
  obtain ⟨r, e, hre, hen, hsince, hfound⟩ := hf
  exact ⟨r, e, hre, le_succ_of_le hen, hsince, hfound⟩

theorem Quiet.succ (hq : Quiet st n h) (hs : ∀ {r}, Since st r n h → Since st r (n + 1) h) : Quiet st (n + 1) h := by
  obtain ⟨r, m, p, k, e, hsince, hj, hme, hen, hnone⟩ := hq
  exact ⟨r, m, p, k, e, hs hsince, hj, hme, le_succ_of_le hen, hnone⟩

variable {ntx iter : Nat}

theorem UnderWay.succ {read : Read} (hu : UnderWay st n h ntx iter read)
    (hs : ∀ {r}, Since st r n h → Since st r (n + 1) h) : UnderWay st (n + 1) h ntx iter read := by
  obtain ⟨hiter, r, m, hsince, hm, hj, hread⟩ := hu
  refine ⟨hiter, r, m, hs hsince, le_succ_of_le hm, hj, fun hz => ?_⟩
  obtain ⟨i, hmi, hi, hne⟩ := hread hz
  exact ⟨i, hmi, le_succ_of_le hi, hne⟩

theorem At.kept {x y : Tx} (hx : (st n).objects h = x) (hy : (st (n + 1)).objects h = y) (hk : Kept x y)
    (hlive : y.phase ≠ .idle → (st (n + 1)).getTransaction y.identifier = some h) (hat : At st n h x.phase) :
    At st (n + 1) h y.phase := by
  subst hx hy
  have hs : ((st (n + 1)).objects h).phase ≠ .idle → ∀ {r}, Since st r n h → Since st r (n + 1) h :=
    fun hp {_} hsince => hsince.succ hk.waitIdentifier hk.identifier (hlive hp)
  obtain hp | ⟨row, otx, code, hp, hp'⟩ := hk.phase
  · rw [hp] at hs ⊢
    cases hphase : ((st n).objects h).phase with
    | idle => trivial
    | recording row id => trivial
    | recorded row =>
      rw [hphase] at hat hs
      obtain ⟨r, hr, hsince⟩ := hat
      exact ⟨r, le_succ_of_le hr, hs Phase.noConfusion hsince⟩
    | walking read row otx ntx iter =>
      rw [hphase] at hat hs
      exact UnderWay.succ hat (hs Phase.noConfusion)
    | checked row otx =>
      rw [hphase] at hat hs
      exact Quiet.succ hat (hs Phase.noConfusion)
    | waiting row otx =>
      rw [hphase] at hat hs
      exact Quiet.succ hat (hs Phase.noConfusion)
    | leaving code =>
      rw [hphase] at hat hs
      exact Quiet.succ hat (hs Phase.noConfusion)
    | reporting =>
      rw [hphase] at hat
      exact Found.succ hat
    | deadlocked =>
      rw [hphase] at hat
      exact Found.succ hat
  · rw [hp] at hat
    rw [hp'] at hs ⊢
    exact Quiet.succ hat (hs Phase.noConfusion)

/-! ### The accesses of a walk -/

/-- The record stands on while the thread goes on in the call. -/
theorem Since.moved {p : Phase} (hv : Valid (st (n + 1))) (hobj : st (n + 1) = (st n).setPhase h p) (hp : p ≠ .idle)
    (hs : Since st r n h) : Since st r (n + 1) h := by
  have hx : (st (n + 1)).objects h = { (st n).objects h with phase := p } := by rw [hobj, setPhase_self]
  refine hs.succ (by rw [hx]) (by rw [hx]) (hv.busy ?_)
  rw [hx]
  exact hp

variable {row otx : Nat}

theorem exitLoop_eq (hi : iter < DEFAULT_TRANSACTION_INFINITE) : exitLoop row otx iter = .checked row otx :=
  if_neg (Nat.ne_of_lt hi)

theorem exitLoop_infinite (row otx : Nat) : exitLoop row otx DEFAULT_TRANSACTION_INFINITE = .reporting := if_pos rfl

theorem loopHead_some (ntx : Nat) (hi : iter < DEFAULT_TRANSACTION_INFINITE) :
    loopHead row otx iter (some ntx) = .walking .zero row otx ntx iter := by
  rw [loopHead, if_pos hi]

theorem loopHead_none (hi : iter < DEFAULT_TRANSACTION_INFINITE) :
    loopHead row otx iter none = .checked row otx := exitLoop_eq hi

theorem loopHead_infinite (row otx : Nat) (ntx : Option Nat) :
    loopHead row otx DEFAULT_TRANSACTION_INFINITE ntx = .reporting := by
  cases ntx with
  | none => exact exitLoop_infinite row otx
  | some q => rw [loopHead, if_neg (Nat.lt_irrefl _), exitLoop_infinite]

theorem at_first (hv : Valid (st (n + 1))) (hr : ∃ r ≤ n, Since st r n h) (hp : ((st n).objects h).phase = .recorded row)
    (ht : turn (st n) h = some (st (n + 1))) : At st (n + 1) h ((st (n + 1)).objects h).phase := by
  obtain ⟨r, hrn, hsince⟩ := hr
  rw [turn] at ht
  simp only [hp] at ht
  cases hw : waits st n h with
  | some otx =>
    simp only [show (st n).getTransaction ((st n).objects h).waitIdentifier = some otx from hw] at ht
    have hst := (some.inj ht).symm
    rw [loopHead_some otx (by decide)] at hst
    have hsince' := hsince.moved hv hst Phase.noConfusion
    rw [hst, setPhase_self]
    exact ⟨by decide, r, n, hsince', Nat.le_succ n, Journey.start.hop hrn hw, fun hz => absurd rfl hz⟩
  | none =>
    simp only [show (st n).getTransaction ((st n).objects h).waitIdentifier = none from hw] at ht
    have hst := (some.inj ht).symm
    have hsince' := hsince.moved hv hst Phase.noConfusion
    rw [hst, setPhase_self]
    exact ⟨r, r, h, 0, n, hsince', Journey.start, hrn, Nat.le_succ n, hw⟩

theorem at_zero (hv : Valid (st (n + 1))) (hu : UnderWay st n h ntx iter .zero)
    (hp : ((st n).objects h).phase = .walking .zero row otx ntx iter) (ht : turn (st n) h = some (st (n + 1))) :
    At st (n + 1) h ((st (n + 1)).objects h).phase := by
  obtain ⟨hiter, r, m, hsince, hm, hj, -⟩ := hu
  rw [turn] at ht
  simp only [hp] at ht
  split at ht
  · rename_i h0
    have hst := (some.inj ht).symm
    rw [exitLoop_eq hiter] at hst
    have hsince' := hsince.moved hv hst Phase.noConfusion
    have hnone : waits st n ntx = none := by
      rw [waits, St.next, h0]
      exact getTransaction_zero _
    rw [hst, setPhase_self]
    exact ⟨r, m, ntx, iter + 1, n, hsince', hj, hm, Nat.le_succ n, hnone⟩
  · rename_i h0
    have hst := (some.inj ht).symm
    have hsince' := hsince.moved hv hst Phase.noConfusion
    rw [hst, setPhase_self]
    exact ⟨hiter, r, m, hsince', le_succ_of_le hm, hj, fun _ => ⟨n, hm, Nat.le_succ n, h0⟩⟩

theorem at_own (hvn : Valid (st n)) (hv : Valid (st (n + 1))) (hu : UnderWay st n h ntx iter .own)
    (hp : ((st n).objects h).phase = .walking .own row otx ntx iter) (ht : turn (st n) h = some (st (n + 1))) :
    At st (n + 1) h ((st (n + 1)).objects h).phase := by
  obtain ⟨hiter, r, m, hsince, hm, hj, hread⟩ := hu
  rw [turn] at ht
  simp only [hp] at ht
  split at ht
  · rename_i hown
    have hst := (some.inj ht).symm
    have hlive : (st n).getTransaction ((st n).objects h).identifier = some h := by
      apply hvn.busy
      rw [hp]
      exact Phase.noConfusion
    have hback : waits st n ntx = some h := by
      rw [waits, St.next, hown]
      exact hlive
    rw [hst, setPhase_self]
    exact ⟨r, n, Nat.le_trans hj.since hm, Nat.le_succ n, hsince, .inl ⟨iter + 1, hj.hop hm hback⟩⟩
  · have hst := (some.inj ht).symm
    have hsince' := hsince.moved hv hst Phase.noConfusion
    obtain ⟨i, hmi, hi, hne⟩ := hread Read.noConfusion
    rw [hst, setPhase_self]
    exact ⟨hiter, r, m, hsince', le_succ_of_le hm, hj, fun _ => ⟨i, hmi, le_succ_of_le hi, hne⟩⟩

theorem at_next (hv : Valid (st (n + 1))) (hu : UnderWay st n h ntx iter .next)
    (hp : ((st n).objects h).phase = .walking .next row otx ntx iter) (ht : turn (st n) h = some (st (n + 1))) :
    At st (n + 1) h ((st (n + 1)).objects h).phase := by
  obtain ⟨hiter, r, m, hsince, hm, hj, hread⟩ := hu
  obtain ⟨i, hmi, hi, hne⟩ := hread Read.noConfusion
  rw [turn] at ht
  simp only [hp] at ht
  have hst := (some.inj ht).symm
  by_cases hlast : iter + 1 = DEFAULT_TRANSACTION_INFINITE
  · rw [hst, hlast, loopHead_infinite, setPhase_self]
    have hexhausted : Exhausted st r n h := ⟨m, ntx, i, hlast ▸ hj, hmi, hi, hne⟩
    exact ⟨r, n, Nat.le_trans hj.since hm, Nat.le_succ n, hsince, .inr hexhausted⟩
  · have hlt : iter + 1 < DEFAULT_TRANSACTION_INFINITE := Nat.lt_of_le_of_ne hiter hlast
    cases hq : (st n).next ntx with
    | none =>
      rw [hq, loopHead_none hlt] at hst
      have hsince' := hsince.moved hv hst Phase.noConfusion
      rw [hst, setPhase_self]
      exact ⟨r, m, ntx, iter + 1, n, hsince', hj, hm, Nat.le_succ n, hq⟩
    | some q =>
      rw [hq, loopHead_some q hlt] at hst
      have hsince' := hsince.moved hv hst Phase.noConfusion
      rw [hst, setPhase_self]
      exact ⟨hlt, r, n, hsince', Nat.le_succ n, hj.hop hm hq, fun hz => absurd rfl hz⟩

theorem at_turn (hvn : Valid (st n)) (hv : Valid (st (n + 1))) (hat : At st n h ((st n).objects h).phase)
    (ht : turn (st n) h = some (st (n + 1))) : At st (n + 1) h ((st (n + 1)).objects h).phase := by
  cases hp : ((st n).objects h).phase with
  | idle => exact absurd hp (turn_busy ht)
  | recording row id =>
    rw [turn] at ht
    simp only [hp] at ht
    have hst := (some.inj ht).symm
    have hlive : (st (n + 1)).getTransaction ((st (n + 1)).objects h).identifier = some h := by
      apply hv.busy
      rw [hst, set_self]
      exact Phase.noConfusion
    have hsingle : At st (n + 1) h (.recorded row) := ⟨n + 1, Nat.le_refl _, Since.single hlive⟩
    rw [hst, set_self]
    exact hsingle
  | recorded row =>
    rw [hp] at hat
    exact at_first hv hat hp ht
  | walking read row otx ntx iter =>
    rw [hp] at hat
    cases read with
    | zero => exact at_zero hv hat hp ht
    | own => exact at_own hvn hv hat hp ht
    | next => exact at_next hv hat hp ht
  | checked row otx =>
    rw [hp] at hat
    rw [turn] at ht
    simp only [hp] at ht
    split at ht
    · have hst := (some.inj ht).symm
      have hquiet := Quiet.succ hat fun hs => hs.moved hv hst Phase.noConfusion
      rw [hst, setPhase_self]
      exact hquiet
    · have hst := (some.inj ht).symm
      have hflag : Kept ((st n).objects h) (((st n).set otx { (st n).objects otx with wait := true }).objects h) :=
        Kept.set (Kept.flags ..) h
      have hx : (st (n + 1)).objects h =
          { ((st n).set otx { (st n).objects otx with wait := true }).objects h with phase := .waiting row otx } := by
        rw [hst, setPhase_self]
      have hquiet : Quiet st (n + 1) h := by
        refine Quiet.succ hat fun hs => hs.succ ?_ ?_ (hv.busy ?_)
        · rw [hx]
          exact hflag.waitIdentifier
        · rw [hx]
          exact hflag.identifier
        · rw [hx]
          exact Phase.noConfusion
      rw [hx]
      exact hquiet
  | waiting row otx =>
    rw [turn] at ht
    simp only [hp] at ht
    cases ht
  | leaving code =>
    rw [turn] at ht
    simp only [hp] at ht
    rw [(some.inj ht).symm, set_self]
    trivial
  | reporting =>
    rw [hp] at hat
    rw [turn] at ht
    simp only [hp] at ht
    have hfound : Found st (n + 1) h := Found.succ hat
    rw [(some.inj ht).symm, set_self]
    exact hfound
  | deadlocked =>
    rw [turn] at ht
    simp only [hp] at ht
    split at ht
    · rw [(some.inj ht).symm, set_self]
      trivial
    · rw [(some.inj ht).symm, set_self]
      trivial

theorem at_succ (hvn : Valid (st n)) (hat : At st n h ((st n).objects h).phase) (hs : step (st n) e = some (st (n + 1))) :
    At st (n + 1) h ((st (n + 1)).objects h).phase := by
  have hv : Valid (st (n + 1)) := step_valid hvn hs
  by_cases he : e = .turn h
  · subst he
    exact at_turn hvn hv hat hs
  · obtain hk | hidle | ⟨row, id, hrec⟩ := step_other hs he
    · exact At.kept rfl rfl hk (fun hp => hv.busy hp) hat
    · rw [hidle]
      trivial
    · rw [hrec]
      trivial

theorem at_run {es : List Event} (ht : Timeline step es st) (h0 : st 0 = init) :
    ∀ n ≤ es.length, Valid (st n) ∧ ∀ h, At st n h ((st n).objects h).phase := by
  refine ht.inv ?_ ?_
  · rw [h0]
    exact ⟨valid_init, fun h => trivial⟩
  · intro n e hn hs
    exact ⟨step_valid hn.1 hs, fun h => at_succ hn.1 (hn.2 h) hs⟩

end Walk

/-! ## No cycle is missed -/

/-- Distinct transactions, each of which waits for the next one and the last one for the first. -/
def Cycle (s : St) (l : List Nat) : Prop :=
  l ≠ [] ∧ l.Nodup ∧ ∀ i < l.length, l[i]?.bind s.next = l[(i + 1) % l.length]?

/-- The walk is over, and the record may stand. -/
def Walked (s : St) (h : Nat) : Prop :=
  match (s.objects h).phase with
  | .checked _ _ | .waiting _ _ | .leaving _ | .reporting | .deadlocked => True
  | .idle | .recording _ _ | .recorded _ | .walking _ _ _ _ _ => False

theorem Cycle.next {s : St} {l : List Nat} (hc : Cycle s l) {v : Nat} (hv : v ∈ l) : ∃ w ∈ l, s.next v = some w := by
  obtain ⟨i, hi, hiv⟩ := List.mem_iff_getElem.mp hv
  have hlt : (i + 1) % l.length < l.length := Nat.mod_lt _ (Nat.lt_of_le_of_lt (zero_le i) hi)
  have hnext := hc.2.2 i hi
  rw [List.getElem?_eq_getElem hi, List.getElem?_eq_getElem hlt, hiv] at hnext
  exact ⟨_, List.getElem_mem hlt, hnext⟩

section Cycle

variable {st : Nat → St} {n h : Nat} {l : List Nat}

theorem quiet_or_reported (hat : At st n h ((st n).objects h).phase) (hw : Walked (st n) h) :
    Quiet st n h ∨ Reported (st n) h := by
  unfold Walked at hw
  unfold Reported
  cases hp : ((st n).objects h).phase with
  | idle | recording | recorded | walking =>
    rw [hp] at hw
    exact absurd hw not_false
  | checked | waiting | leaving =>
    rw [hp] at hat
    exact .inl hat
  | reporting => exact .inr (.inl rfl)
  | deadlocked => exact .inr (.inr rfl)

/-- Of a cycle's members the one that recorded last has found all the other records in place. -/
theorem no_silent_cycle (hv : Valid (st n)) (hc : Cycle (st n) l) (hq : ∀ h ∈ l, Quiet st n h) : False := by
  choose! r m p k e hsince hjourney hme hen hnone using hq
  -- the last one to record
  obtain ⟨h, hmax⟩ : ∃ h, h ∈ l.argmax r := by
    cases hmax : l.argmax r with
    | none => exact absurd (List.argmax_eq_none.mp hmax) hc.1
    | some h => exact ⟨h, rfl⟩
  have hh : h ∈ l := List.argmax_mem hmax
  have hlast : ∀ v ∈ l, r v ≤ r h := fun v hvl => List.le_of_mem_argmax hvl hmax
  have hclosed : ∀ i v, r h ≤ i → i ≤ n → v ∈ l → ∃ w, waits st i v = some w ∧ w ∈ l := by
    intro i v hri hin hvl
    obtain ⟨w, hw, hnext⟩ := hc.next hvl
    obtain ⟨hwait, -⟩ := hsince v hvl i (Nat.le_trans (hlast v hvl) hri) hin
    obtain ⟨-, hlive⟩ := hsince w hw i (Nat.le_trans (hlast w hw) hri) hin
    refine ⟨w, ?_, hw⟩
    rw [waits, St.next, hwait, ← (hv.slot hnext).1]
    exact hlive
  exact (hjourney h hh).no_end (C := fun v => v ∈ l) hh hclosed (hme h hh) (hen h hh) (hnone h hh)

end Cycle

/-! ## A walk ends -/

/-- In the loop of checkCycleLock. -/
def Walking (s : St) (h : Nat) : Prop :=
  match (s.objects h).phase with
  | .walking _ _ _ _ _ => True
  | _ => False

/-- How many reads a walk has before it, at most. -/
def readsLeft : Phase → Nat
  | .walking .zero _ _ _ iter => 3 * (DEFAULT_TRANSACTION_INFINITE - iter) + 3
  | .walking .own _ _ _ iter => 3 * (DEFAULT_TRANSACTION_INFINITE - iter) + 2
  | .walking .next _ _ _ iter => 3 * (DEFAULT_TRANSACTION_INFINITE - iter) + 1
  | _ => 0

/-- The most that a walk reads. -/
def MAXIMUM_READS : Nat := 3 * DEFAULT_TRANSACTION_INFINITE + 3

theorem readsLeft_le (p : Phase) : readsLeft p ≤ MAXIMUM_READS := by
  unfold readsLeft MAXIMUM_READS
  split <;> omega

theorem readsLeft_exitLoop (row otx iter : Nat) : readsLeft (exitLoop row otx iter) = 0 := by
  unfold exitLoop
  split <;> rfl

theorem readsLeft_loopHead (row otx iter : Nat) (ntx : Option Nat) :
    readsLeft (loopHead row otx (iter + 1) ntx) ≤ 3 * (DEFAULT_TRANSACTION_INFINITE - iter) := by
  cases ntx with
  | none =>
    rw [loopHead, readsLeft_exitLoop]
    exact zero_le _
  | some q =>
    rw [loopHead]
    split
    · rw [readsLeft]
      omega
    · rw [readsLeft_exitLoop]
      exact zero_le _

section Ends

variable {s s' : St} {e : Event} {h : Nat}

/-- A walk's next read is always possible, and it has fewer before it then. -/
theorem turn_walking (hw : Walking s h) : ∃ s', turn s h = some s' ∧
    readsLeft (s'.objects h).phase < readsLeft (s.objects h).phase := by
  unfold Walking at hw
  cases hp : (s.objects h).phase with
  | idle | recording | recorded | checked | waiting | leaving | reporting | deadlocked =>
    rw [hp] at hw
    exact absurd hw not_false
  | walking read row otx ntx iter =>
    cases read with
    | zero =>
      rw [turn]
      simp only [hp]
      split
      · refine ⟨_, rfl, ?_⟩
        rw [setPhase_self, readsLeft_exitLoop]
        exact Nat.succ_pos _
      · refine ⟨_, rfl, ?_⟩
        rw [setPhase_self]
        exact Nat.lt_succ_self _
    | own =>
      rw [turn]
      simp only [hp]
      split
      · refine ⟨_, rfl, ?_⟩
        rw [setPhase_self]
        exact Nat.succ_pos _
      · refine ⟨_, rfl, ?_⟩
        rw [setPhase_self]
        exact Nat.lt_succ_self _
    | next =>
      rw [turn]
      simp only [hp]
      refine ⟨_, rfl, ?_⟩
      rw [setPhase_self]
      exact Nat.lt_succ_of_le (readsLeft_loopHead ..)

/-- Left alone, a walk comes to its end, whatever the wait fields hold. -/
theorem walk_ends (s : St) (h : Nat) : ∃ k ≤ readsLeft (s.objects h).phase, ∃ s', exec step s (List.replicate k (.turn h)) = some s' ∧
    ¬Walking s' h := by
  induction hleft : readsLeft (s.objects h).phase using Nat.strong_induction_on generalizing s with
  | _ left ih =>
    by_cases hw : Walking s h
    · obtain ⟨s1, hturn, hlt⟩ := turn_walking hw
      rw [hleft] at hlt
      obtain ⟨k, hk, s', hs', hend⟩ := ih _ hlt s1 rfl
      refine ⟨k + 1, Nat.lt_of_le_of_lt hk hlt, s', ?_, hend⟩
      rw [List.replicate_succ, exec, show step s (.turn h) = some s1 from hturn]
      exact hs'
    · exact ⟨0, zero_le _, s, rfl, hw⟩

theorem readsLeft_other (hs : step s e = some s') (he : e ≠ .turn h) :
    readsLeft (s'.objects h).phase ≤ readsLeft (s.objects h).phase := by
  obtain hk | hidle | ⟨row, id, hrec⟩ := step_other hs he
  · obtain hp | ⟨row, otx, code, -, hp⟩ := hk.phase
    · rw [hp]
    · rw [hp]
      exact zero_le _
  · rw [hidle]
    exact zero_le _
  · rw [hrec]
    exact zero_le _

/-- Nobody keeps a walk going: it does not make more reads while the others do what they do. -/
theorem turns_le {es : List Event} {st : Nat → St} (ht : Timeline step es st) {n : Nat} (j : Nat) (hm : n + j ≤ es.length)
    (hw : ∀ i, n ≤ i → i < n + j → Walking (st i) h) :
    ((es.drop n).take j).count (.turn h) + readsLeft ((st (n + j)).objects h).phase ≤ readsLeft ((st n).objects h).phase := by
  induction j with
  | zero => simp
  | succ j ih =>
    have hlt : j < (es.drop n).length := by
      rw [List.length_drop]
      omega
    have hbefore := ih (by omega) fun i hni hi => hw i hni (by omega)
    have hstep := ht (n + j) (by omega)
    rw [List.take_succ_eq_append_getElem hlt, List.count_append, List.getElem_drop, List.count_singleton, ← Nat.add_assoc]
    by_cases he : es[n + j] = .turn h
    · obtain ⟨s1, hturn, hdown⟩ := turn_walking (hw (n + j) (by omega) (by omega))
      rw [he] at hstep
      cases hturn.symm.trans hstep
      rw [he, if_pos (beq_self_eq_true _)]
      omega
    · have hdown := readsLeft_other hstep he
      rw [if_neg (by simpa using he)]
      omega

end Ends

/-! ## Any run -/

/-- No cycle of recorded waits stands whose members have all walked and none has reported a deadlock; what is reported has led back or
has gone all the turns; and every walk ends. -/
theorem wait_cycles_reported {es : List Event} {st : Nat → St} (ht : Timeline step es st) (h0 : st 0 = init) :
    (∀ n ≤ es.length, ∀ l, Cycle (st n) l → (∀ h ∈ l, Walked (st n) h) → ∃ h ∈ l, Reported (st n) h) ∧
    (∀ n ≤ es.length, ∀ h, Reported (st n) h → Found st n h) ∧
    (∀ n j h, n + j ≤ es.length → (∀ i, n ≤ i → i < n + j → Walking (st i) h) →
      ((es.drop n).take j).count (.turn h) ≤ MAXIMUM_READS) ∧
    ∀ s h, ∃ k ≤ MAXIMUM_READS, ∃ s', exec step s (List.replicate k (.turn h)) = some s' ∧ ¬Walking s' h := by
  have hat := at_run ht h0
  refine ⟨?_, ?_, ?_, ?_⟩
  · intro n hn l hc hw
    obtain ⟨hv, hwalks⟩ := hat n hn
    by_contra hnone
    refine no_silent_cycle hv hc fun h hh => ?_
    obtain hq | hr := quiet_or_reported (hwalks h) (hw h hh)
    · exact hq
    · exact absurd ⟨h, hh, hr⟩ hnone
  · intro n hn h hr
    have hph := (hat n hn).2 h
    obtain hp | hp := hr
    · rw [hp] at hph
      exact hph
    · rw [hp] at hph
      exact hph
  · intro n j h hm hw
    have hturns := turns_le ht j hm hw
    have hmax := readsLeft_le ((st n).objects h).phase
    omega
  · intro s h
    obtain ⟨k, hk, hs⟩ := walk_ends s h
    exact ⟨k, Nat.le_trans hk (readsLeft_le _), hs⟩

/-- Two transactions that ask for each other's row: the second one is told. -/
def crossed : List Event := owners 2 ++ asks 1 2 4 ++ asks 2 1 4

theorem crossed_found : ∃ st, Timeline step crossed st ∧ Reported (st crossed.length) 2 ∧ Found st crossed.length 2 := by
  obtain ⟨s, hs, hr⟩ := exec_ends (p := fun s => Reported s 2) (show (exec step init crossed).any _ = true by decide +kernel)
  obtain ⟨st, ht, h0, hend⟩ := timeline_of_exec hs
  have hlast : Reported (st crossed.length) 2 := by
    rw [hend]
    exact hr
  exact ⟨st, ht, hlast, (wait_cycles_reported ht h0).2.1 _ (Nat.le_refl _) 2 hlast⟩

end DeepFabric.Transaction.WaitCycle
