/-
  DeepFabric.Transaction.RowLock — row locks: checkAccessLock (core/RealTimeMap.cxx), the
  StoryLock it works on (core/Information.h), and how a transaction's end gives locks up
  (Transaction::reassign, signal and destroy in core/Transaction.h).

  A row's lock is a share flag and a pair of credentials.
  - Not shared: the credentials are a stamp (identifier, sequence) of the writer. Nothing is
    released when the writer ends: `signal` moves the identifier's current sequence on, and
    the stamp is expired from then on. `lockable` clears another's expired stamp.
  - Shared: the identifier is one of the readers and the sequence is their number. Each
    reader has the lock in its read lock set. `reassign` takes an ending reader out and hands
    the identifier over to another reader; the last one turns the share flag off.
  Sequences are 32-bit and skip 0. A request is atomic (the story lock is held), and so is an
  end, reassign then signal.

  `granted` is a history variable: what each identifier was granted since it last ended.

  A READ request of a transaction that meets its own expired stamp (the object was used again,
  or its identifier handed out again) is granted and nothing is recorded; the WRITE request in
  the same place stamps the lock afresh. The next writer then sees an expired stamp. `OwnStamp`
  is that case.

  - `own_stamp_read_unrecorded`: such a grant, and a WRITE granted to somebody else on top.
  - `step_inv` / `inv`: on runs where no READ request meets its own expired stamp, a shared
    lock counts its readers and is owned by one of them, and every grant is backed by the lock.
-/
import Mathlib.Algebra.Group.Nat.Defs
import Mathlib.Data.Finset.Card
import Mathlib.Data.Finset.Range
import DeepFabric.Lib.Run
import DeepFabric.Transaction.Table

namespace DeepFabric.Transaction.RowLock

open DeepFabric.Lib.Run Function
open Option (map_eq_some_iff some)
open Finset (card_pos mem_erase range)
open Function (update)

inductive LockOption where
  | read
  /-- LOCK_WRITE and LOCK_NONE take one path. -/
  | write
  deriving DecidableEq, Repr

structure StoryLock where
  share : Bool
  identifier : Nat
  sequence : Nat
  deriving DecidableEq, Repr

namespace StoryLock

def release (l : StoryLock) : StoryLock := { l with identifier := 0, sequence := 0 }

def setCredentials (l : StoryLock) (identifier sequence : Nat) : StoryLock :=
  { l with identifier := identifier, sequence := sequence }

def incrementSequence (l : StoryLock) : StoryLock := { l with sequence := (l.sequence + 1) % 2 ^ 32 }

def decrementSequence (l : StoryLock) : StoryLock := { l with sequence := (l.sequence + (2 ^ 32 - 1)) % 2 ^ 32 }

end StoryLock

/-- The fields of a transaction object that locking looks at. -/
structure Tx where
  sequence : Nat
  dirty : Bool
  readLockSet : Finset Nat

structure St where
  table : Table Tx
  /-- `s_sequences`, which outlives the objects. -/
  sequences : Nat → Nat
  locks : Nat → StoryLock
  granted : Finset (Nat × Nat × LockOption)

def init : St := ⟨.empty, fun _ => 0, fun _ => ⟨false, 0, 0⟩, ∅⟩

/-! ## The operations -/

/-- `++m_sequence`, skipping 0; destroySequence is the same number. -/
def nextSequence (n : Nat) : Nat := if (n + 1) % 2 ^ 32 = 0 then (n + 1) % 2 ^ 32 + 1 else (n + 1) % 2 ^ 32

/-- Transaction::lockable: the answer, and the lock with another's expired stamp released. -/
def lockable (sequences : Nat → Nat) (l : StoryLock) (id : Nat) (share : Bool) : Bool × StoryLock :=
  if l.share = false then
    if l.identifier ≠ 0 ∧ l.identifier ≠ id then
      if l.sequence ≠ sequences l.identifier then (true, l.release) else (false, l)
    else (true, l)
  else if share = false ∨ l.identifier ≠ id then (false, l)
  else (true, l)

/-- Add the lock to the reader's set; the first reader takes the credentials. -/
def addReader (id : Nat) (itx : Tx) (r : Nat) (l : StoryLock) : StoryLock × Tx :=
  if r ∈ itx.readLockSet then (l, itx)
  else
    let l1 := l.incrementSequence
    (if l1.sequence = 1 then l1.setCredentials id l1.sequence else l1,
      { itx with dirty := true, readLockSet := insert r itx.readLockSet })

/-- Take a shared lock over: out of the own read lock set, unshared, stamped. -/
def takeOver (id : Nat) (itx : Tx) (r : Nat) (l : StoryLock) : StoryLock × Tx :=
  ({ l with share := false }.setCredentials id itx.sequence, { itx with readLockSet := itx.readLockSet.erase r })

/-- RealTimeMap::checkAccessLock under the story lock: the wait flag, the lock and the transaction after it. -/
def checkAccessLock (s : St) (id : Nat) (itx : Tx) (r : Nat) : LockOption → Bool × StoryLock × Tx
  | .read =>
    let sharing := (s.locks r).share
    let a := lockable s.sequences (s.locks r) id true
    if sharing = false ∧ a.1 = true ∧ a.2.identifier ≠ id then
      let itx1 := { itx with readLockSet := itx.readLockSet.erase r }
      (false, addReader id itx1 r { a.2 with share := true }.release)
    else if sharing = true then (false, addReader id itx r a.2)
    else if a.2.identifier = id then (false, a.2, itx)
    else (true, a.2, itx)
  | .write =>
    let sharing := (s.locks r).share
    let a := lockable s.sequences (s.locks r) id false
    if sharing = false then
      if a.1 = true then (false, a.2.setCredentials id itx.sequence, itx) else (true, a.2, itx)
    else if a.2.sequence = 0 then (false, takeOver id itx r a.2)
    else if a.2.sequence = 1 then
      if a.2.identifier = id then (false, takeOver id itx r a.2)
      else if (s.table.transactions a.2.identifier).isNone then (false, takeOver id itx r a.2)
      else (true, a.2, itx)
    else (true, a.2, itx)

def reads (t : Table Tx) (r i : Nat) : Bool :=
  match t.transactions i with
  | some tx => r ∈ tx.readLockSet
  | none => false

/-- reassign(storyLock): the first other transaction, in identifier order, whose read lock set has the lock. -/
def nextOwner (t : Table Tx) (id r : Nat) : Option Nat := t.scan.find? fun i => i ≠ id && reads t r i

/-- One turn of reassign's loop over the read lock set. -/
def reassignLock (t : Table Tx) (id r : Nat) (l : StoryLock) : StoryLock :=
  let l1 :=
    if l.identifier = id then
      if l.sequence > 1 then
        match nextOwner t id r with
        | some j => l.setCredentials j l.sequence
        | none => l
      else { l.setCredentials 0 l.sequence with share := false }
    else l
  l1.decrementSequence

/-- A turn touches its own lock only, so the set's iteration order does not matter. -/
def reassign (s : St) (id : Nat) (itx : Tx) : St :=
  { s with
    locks := fun r => if r ∈ itx.readLockSet then reassignLock s.table id r (s.locks r) else s.locks r
    table := s.table.set id { itx with readLockSet := ∅ } }

def dropGrants (s : St) (id : Nat) : St := { s with granted := s.granted.filter fun g => g.1 ≠ id }

/-- setDirty(false), which signals. -/
def signal (s : St) (id : Nat) (itx : Tx) : St :=
  dropGrants { s with
    table := s.table.set id { itx with dirty := false, sequence := nextSequence itx.sequence }
    sequences := update s.sequences id (nextSequence itx.sequence) } id

/-- commit(0) and rollback(0): reassign only if dirty, signal always. -/
def finish (s : St) (id : Nat) (itx : Tx) : St :=
  if itx.dirty then signal (reassign s id itx) id { itx with readLockSet := ∅ } else signal s id itx

inductive Ev where
  | create
  /-- A write of the transaction: setDirty(true). -/
  | touch (id : Nat)
  | request (id r : Nat) (lock : LockOption)
  | finish (id : Nat)
  | destroy (id : Nat)
  deriving Repr

def request (s : St) (id : Nat) (itx : Tx) (r : Nat) (lock : LockOption) : St :=
  let a := checkAccessLock s id itx r lock
  { s with
    locks := update s.locks r a.2.1
    table := s.table.set id a.2.2
    granted := if a.1 then s.granted else insert (id, r, lock) s.granted }

/-- `none`: the event is one of a transaction that does not exist, or destroy throws on a dirty one. -/
def step (s : St) : Ev → Option St
  | .create =>
    match s.table.create fun i => ⟨nextSequence (s.sequences i), false, ∅⟩ with
    | none => none
    | some (i, t) => some { s with table := t, sequences := update s.sequences i (nextSequence (s.sequences i)) }
  | .touch id => (s.table.transactions id).map fun itx => { s with table := s.table.set id { itx with dirty := true } }
  | .request id r lock => (s.table.transactions id).map fun itx => request s id itx r lock
  | .finish id => (s.table.transactions id).map fun itx => finish s id itx
  | .destroy id =>
    match s.table.transactions id with
    | none => none
    | some itx =>
      if itx.dirty then none
      else some (dropGrants { s with
        table := s.table.destroy id
        sequences := update s.sequences id (nextSequence itx.sequence) } id)

/-- A READ request of `id` meets its own expired stamp. -/
def OwnStamp (s : St) (id r : Nat) : Prop :=
  (s.locks r).share = false ∧ (s.locks r).identifier = id ∧
    ∃ itx ∈ s.table.transactions id, (s.locks r).sequence ≠ itx.sequence

instance (s : St) (id r : Nat) : Decidable (OwnStamp s id r) := inferInstanceAs (Decidable (_ ∧ _))

/-- The steps that do not run into an own expired stamp. -/
def NoOwnStamp (s : St) : Ev → Prop
  | .request id r .read => ¬ OwnStamp s id r
  | _ => True

instance (s : St) : (e : Ev) → Decidable (NoOwnStamp s e)
  | .request id r .read => inferInstanceAs (Decidable (¬ OwnStamp s id r))
  | .request _ _ .write => .isTrue trivial
  | .create => .isTrue trivial
  | .touch _ => .isTrue trivial
  | .finish _ => .isTrue trivial
  | .destroy _ => .isTrue trivial

/-- What mutual exclusion says of the grants that have not ended. -/
def Exclusive (s : St) : Prop :=
  ∀ i j r lock, i ≠ j → (i, r, .write) ∈ s.granted → (j, r, lock) ∉ s.granted

/-! ## The defect -/

/-- 1 writes row 7 and ends; the same object then reads row 7, and 2 writes it. -/
def ownStampTrace : List Ev :=
  [.create, .create, .request 1 7 .write, .touch 1, .finish 1, .request 1 7 .read, .request 2 7 .write]

theorem own_stamp_read_unrecorded : ∃ s, Reach step Free init s ∧ ¬ Exclusive s := by
  obtain ⟨s, hs, h1, h2⟩ : ∃ s, exec step init ownStampTrace = some s ∧ (1, 7, .read) ∈ s.granted ∧
      (2, 7, .write) ∈ s.granted := ⟨_, rfl, by decide, by decide⟩
  exact ⟨s, reach_of_exec _ hs, fun h => h 2 1 7 .read (by decide) h2 h1⟩

/-! ## The invariant -/

/-- The transactions that have row `r`'s lock in their read lock set. -/
def holders (t : Table Tx) (r : Nat) : Finset Nat := (range DEFAULT_TRANSACTION_SIZE).filter fun i => reads t r i

/-- The lock carries `i`'s stamp, and it has not expired. -/
def Stamped (t : Table Tx) (l : StoryLock) (i : Nat) : Prop :=
  l.share = false ∧ l.identifier = i ∧ ∃ tx, t.transactions i = some tx ∧ l.sequence = tx.sequence

/-- What the lock must say for a grant to stand. -/
def Backed (t : Table Tx) (l : StoryLock) (i r : Nat) : LockOption → Prop
  | .read => (l.share = true ∧ i ∈ holders t r) ∨ Stamped t l i
  | .write => Stamped t l i

structure LockOk (t : Table Tx) (r : Nat) (l : StoryLock) : Prop where
  owner : l.share = true → l.identifier ∈ holders t r
  count : l.share = true → l.sequence = (holders t r).card
  unshared : l.share = false → holders t r = ∅

structure Inv (s : St) : Prop where
  sequences : ∀ i tx, s.table.transactions i = some tx → s.sequences i = tx.sequence
  dirty : ∀ i tx, s.table.transactions i = some tx → tx.readLockSet ≠ ∅ → tx.dirty = true
  locks : ∀ r, LockOk s.table r (s.locks r)
  granted : ∀ i r lock, (i, r, lock) ∈ s.granted → Backed s.table (s.locks r) i r lock

variable {t : Table Tx} {r i : Nat}

theorem mem_holders :
    i ∈ holders t r ↔ ∃ tx, t.transactions i = some tx ∧ r ∈ tx.readLockSet := by
  rw [holders, Finset.mem_filter, Finset.mem_range]
  cases h : t.transactions i with
  | none => simp [reads, h]
  | some tx => simpa [reads, h] using fun _ => (t.live i (by simp [h])).2.1

theorem holders_card_le (t : Table Tx) (r : Nat) : (holders t r).card ≤ DEFAULT_TRANSACTION_SIZE := by
  have := Finset.card_filter_le (range DEFAULT_TRANSACTION_SIZE) fun i => reads t r i
  simpa [holders] using this

variable {tx : Tx}

theorem holders_set (h : t.transactions i = some tx) (tx' : Tx) (r : Nat) :
    holders (t.set i tx') r = if r ∈ tx'.readLockSet then insert i (holders t r) else (holders t r).erase i := by
  ext j
  by_cases e : j = i
  · subst e; split <;> simp_all [mem_holders, Table.set_transactions h]
  · split <;> simp [mem_holders, Table.set_transactions h, e]

/-- Replacing an object by one with the same read lock set changes no row's readers. -/
theorem holders_set_same {tx' : Tx} (h : t.transactions i = some tx)
    (hr : r ∈ tx'.readLockSet ↔ r ∈ tx.readLockSet) : holders (t.set i tx') r = holders t r := by
  rw [holders_set h]
  have hm : i ∈ holders t r ↔ r ∈ tx.readLockSet := by simp [mem_holders, h]
  split <;> simp_all

variable {l : StoryLock} {j : Nat}

theorem stamped_set {tx' : Tx} (h : t.transactions i = some tx)
    (hseq : tx'.sequence = tx.sequence) : Stamped (t.set i tx') l j ↔ Stamped t l j := by
  unfold Stamped
  rw [Table.set_transactions h]
  by_cases e : j = i
  · subst e; simp [h, hseq]
  · simp [update_of_ne e]

variable {lock : LockOption}

theorem backed_of_holders {t' : Table Tx}
    (hh : holders t' r = holders t r) (hs : Stamped t l i → Stamped t' l i) (h : Backed t l i r lock) :
    Backed t' l i r lock := by
  cases lock with
  | write => exact hs h
  | read => exact h.imp (fun h => ⟨h.1, by rw [hh]; exact h.2⟩) hs

theorem lockOk_of_holders {t' : Table Tx} (hh : holders t' r = holders t r)
    (h : LockOk t r l) : LockOk t' r l := by
  obtain ⟨h1, h2, h3⟩ := h
  rw [← hh] at h1 h2 h3
  exact ⟨h1, h2, h3⟩

theorem init_inv : Inv init where
  sequences i tx h := by simp [init, Table.empty] at h
  dirty i tx h := by simp [init, Table.empty] at h
  locks r := by
    refine ⟨fun h => by simp [init] at h, fun h => by simp [init] at h, fun _ => ?_⟩
    ext i
    simp [mem_holders, init, Table.empty]
  granted i r lock h := by simp [init] at h

/-! ### Requests -/

/-- Nobody's grant stands on this lock, except perhaps `i`'s own: it is unshared, and its stamp is nobody's, `i`'s,
    or expired. -/
def FreeFor (s : St) (l : StoryLock) (i : Nat) : Prop :=
  l.share = false ∧ (l.identifier = 0 ∨ l.identifier = i ∨ l.sequence ≠ s.sequences l.identifier)

variable {s : St}

theorem lockable_unshared {b : Bool} (h : l.share = false) :
    ((lockable s.sequences l i b).1 = true ↔ FreeFor s l i) ∧
    ((lockable s.sequences l i b).1 = true → l.identifier ≠ i → (lockable s.sequences l i b).2 = l.release ∨
      l.identifier = 0 ∧ (lockable s.sequences l i b).2 = l) ∧
    ((lockable s.sequences l i b).1 = false ∨ l.identifier = i → (lockable s.sequences l i b).2 = l) := by
  unfold lockable FreeFor
  simp only [h, if_true]
  split_ifs with h1 h2
  · simp_all
  · simp_all
  · by_cases e : l.identifier = 0
    · simp_all
    · simp_all

theorem lockable_shared {seqs : Nat → Nat} {b : Bool} (h : l.share = true) :
    (lockable seqs l i b).2 = l := by
  unfold lockable
  simp only [h]
  split_ifs <;> simp_all

theorem not_backed_of_free (hi : Inv s) (hf : FreeFor s (s.locks r) i)
    (hne : j ≠ i) : ¬ Backed s.table (s.locks r) j r lock := by
  intro hb
  have hst : Stamped s.table (s.locks r) j := by
    cases lock with
    | write => exact hb
    | read =>
      rcases hb with ⟨hs, -⟩ | hs
      · rw [hf.1] at hs; cases hs
      · exact hs
  obtain ⟨-, hid, tx, htx, hseq⟩ := hst
  rcases hf.2 with h | h | h
  · have := (s.table.live j (by simp [htx])).1
    omega
  · exact hne (hid.symm.trans h)
  · rw [hid, hi.sequences j tx htx] at h
    exact h hseq

/-- What a request on row `r` has to deliver: the lock, the transaction object and the grants on that row. -/
structure Served (s : St) (i : Nat) (itx : Tx) (r : Nat) (lock : LockOption) (a : Bool × StoryLock × Tx) : Prop where
  sequence : a.2.2.sequence = itx.sequence
  dirty : a.2.2.readLockSet ≠ ∅ → a.2.2.dirty = true
  others : ∀ r', r' ≠ r → (r' ∈ a.2.2.readLockSet ↔ r' ∈ itx.readLockSet)
  lockOk : LockOk (s.table.set i a.2.2) r a.2.1
  backed : a.1 = false → Backed (s.table.set i a.2.2) a.2.1 i r lock
  keeps : ∀ j lk, Backed s.table (s.locks r) j r lk → Backed (s.table.set i a.2.2) a.2.1 j r lk

section Request

variable {s : St} (hi : Inv s) {i r : Nat} {itx : Tx} (htx : s.table.transactions i = some itx)
include hi htx

/-- The request changes nothing: it has to wait, or it is granted what the lock backs already. -/
theorem served_unchanged {lock : LockOption} {w : Bool} (hb : w = false → Backed s.table (s.locks r) i r lock) :
    Served s i itx r lock (w, s.locks r, itx) where
  sequence := rfl
  dirty := hi.dirty i itx htx
  others _ _ := Iff.rfl
  lockOk := lockOk_of_holders (holders_set_same htx Iff.rfl) (hi.locks r)
  backed hw := backed_of_holders (holders_set_same htx Iff.rfl) (stamped_set htx rfl).mpr (hb hw)
  keeps _ _ := backed_of_holders (holders_set_same htx Iff.rfl) (stamped_set htx rfl).mpr

theorem served_stamp (hf : FreeFor s (s.locks r) i) (lock : LockOption) :
    Served s i itx r lock (false, ⟨false, i, itx.sequence⟩, itx) := by
  have hh : holders (s.table.set i itx) r = holders s.table r := holders_set_same htx Iff.rfl
  have hst : Stamped (s.table.set i itx) ⟨false, i, itx.sequence⟩ i :=
    ⟨rfl, rfl, itx, by simp [Table.set_transactions htx], rfl⟩
  have hb : ∀ lk, Backed (s.table.set i itx) ⟨false, i, itx.sequence⟩ i r lk := by
    intro lk
    cases lk with
    | read => exact Or.inr hst
    | write => exact hst
  refine ⟨rfl, hi.dirty i itx htx, fun _ _ => Iff.rfl, ⟨nofun, nofun, fun _ => ?_⟩, fun _ => hb lock, fun j lk h => ?_⟩
  · rw [hh]; exact (hi.locks r).unshared hf.1
  · by_cases e : j = i
    · subst e; exact hb lk
    · exact absurd h (not_backed_of_free hi hf e)

theorem served_first_reader (hf : FreeFor s (s.locks r) i) (hid : (s.locks r).identifier ≠ i) :
    Served s i itx r .read (false, ⟨true, i, 1⟩, { itx with dirty := true, readLockSet := insert r (itx.readLockSet.erase r) }) := by
  have hh : holders (s.table.set i { itx with dirty := true, readLockSet := insert r (itx.readLockSet.erase r) }) r = {i} := by
    rw [holders_set htx, (hi.locks r).unshared hf.1]
    simp
  refine ⟨rfl, fun _ => rfl, fun r' hr => by simp [hr], ⟨fun _ => by simp [hh], fun _ => by simp [hh], nofun⟩,
    fun _ => Or.inl ⟨rfl, by simp [hh]⟩, fun j lk h => ?_⟩
  by_cases e : j = i
  · -- the own stamp is not there either: the identifier is another's
    subst e
    have hns : ¬ Stamped s.table (s.locks r) j := fun h => hid h.2.1
    cases lk with
    | write => exact absurd h hns
    | read =>
      rcases h with ⟨hs, -⟩ | hs
      · rw [hf.1] at hs; cases hs
      · exact absurd hs hns
  · exact absurd h (not_backed_of_free hi hf e)

theorem served_add_reader (hs : (s.locks r).share = true) :
    Served s i itx r .read (false, addReader i itx r (s.locks r)) := by
  unfold addReader
  split
  · rename_i hm
    exact served_unchanged hi htx fun _ => Or.inl ⟨hs, mem_holders.mpr ⟨itx, htx, hm⟩⟩
  · rename_i hm
    have hok := hi.locks r
    have hnot : i ∉ holders s.table r := fun h => by
      obtain ⟨tx, h1, h2⟩ := mem_holders.mp h
      rw [htx] at h1; cases h1; exact hm h2
    have hpos : 0 < (holders s.table r).card := card_pos.mpr ⟨_, hok.owner hs⟩
    have hle := holders_card_le s.table r
    have hcount := hok.count hs
    have hseq : ((s.locks r).sequence + 1) % 2 ^ 32 = (holders s.table r).card + 1 := by
      rw [hcount]
      apply Nat.mod_eq_of_lt
      simp only [DEFAULT_TRANSACTION_SIZE] at hle
      omega
    have hne : ¬ ((s.locks r).incrementSequence).sequence = 1 := by simp only [StoryLock.incrementSequence]; omega
    have hh : holders (s.table.set i { itx with dirty := true, readLockSet := insert r itx.readLockSet }) r =
        insert i (holders s.table r) := by rw [holders_set htx]; simp
    simp only [hne, if_false]
    refine ⟨rfl, fun _ => rfl, fun r' hr => by simp [hr], ⟨fun _ => ?_, fun _ => ?_, fun h => ?_⟩,
      fun _ => Or.inl ⟨hs, by simp [hh]⟩, fun j lk h => ?_⟩
    · rw [hh]; exact Finset.mem_insert_of_mem (hok.owner hs)
    · rw [hh, Finset.card_insert_of_notMem hnot]; exact hseq
    · simp only [StoryLock.incrementSequence, hs] at h; cases h
    · cases lk with
      | write => have := h.1; rw [hs] at this; cases this
      | read =>
        rcases h with ⟨-, hj⟩ | h
        · exact Or.inl ⟨hs, by rw [hh]; exact Finset.mem_insert_of_mem hj⟩
        · have := h.1; rw [hs] at this; cases this

theorem served_take_over (hs : (s.locks r).share = true) (h1 : (s.locks r).sequence = 1)
    (hid : (s.locks r).identifier = i) : Served s i itx r .write (false, takeOver i itx r (s.locks r)) := by
  have hok := hi.locks r
  have hone : holders s.table r = {i} := by
    obtain ⟨j, hj⟩ := Finset.card_eq_one.mp ((hok.count hs).symm.trans h1)
    have hm := hok.owner hs
    rw [hj, Finset.mem_singleton, hid] at hm
    rw [hj, hm]
  have hh : holders (s.table.set i (takeOver i itx r (s.locks r)).2) r = ∅ := by
    rw [holders_set htx, hone]
    simp [takeOver]
  have hst : Stamped (s.table.set i (takeOver i itx r (s.locks r)).2) (takeOver i itx r (s.locks r)).1 i :=
    ⟨rfl, rfl, (takeOver i itx r (s.locks r)).2, by rw [Table.set_transactions htx]; simp, rfl⟩
  refine ⟨rfl, fun hne => ?_, fun r' hr => by simp [takeOver, hr], ⟨nofun, nofun, fun _ => hh⟩, fun _ => hst, fun j lk h => ?_⟩
  · refine hi.dirty i itx htx fun he => hne ?_
    simp [takeOver, he]
  · cases lk with
    | write => have := h.1; rw [hs] at this; cases this
    | read =>
      rcases h with ⟨-, hj⟩ | h
      · rw [hone, Finset.mem_singleton] at hj
        subst hj
        exact Or.inr hst
      · have := h.1; rw [hs] at this; cases this

theorem read_served (hok : ¬ OwnStamp s i r) : Served s i itx r .read (checkAccessLock s i itx r .read) := by
  unfold checkAccessLock
  by_cases hs : (s.locks r).share = true
  · simp only [hs, lockable_shared hs, Bool.true_eq_false, false_and, if_false, if_true]
    exact served_add_reader hi htx hs
  · have hs : (s.locks r).share = false := by simpa using hs
    obtain ⟨hl, hrel, hsame⟩ := lockable_unshared (s := s) (i := i) (b := true) hs
    have h0 : i ≠ 0 := by have := (s.table.live i (by simp [htx])).1; omega
    simp only [hs, true_and, Bool.false_eq_true, if_false]
    by_cases hid : (s.locks r).identifier = i
    · -- the own stamp, which has not expired
      simp only [hsame (Or.inr hid), hid, ne_eq, not_true, and_false, if_false, if_true]
      refine served_unchanged hi htx fun _ => Or.inr ⟨hs, hid, itx, htx, ?_⟩
      by_contra hne
      exact hok ⟨hs, hid, itx, htx, hne⟩
    · by_cases hf : (lockable s.sequences (s.locks r) i true).1 = true
      · have hrel' : (lockable s.sequences (s.locks r) i true).2.identifier ≠ i ∧
            ({ (lockable s.sequences (s.locks r) i true).2 with share := true } : StoryLock).release = ⟨true, 0, 0⟩ := by
          rcases hrel hf hid with h | ⟨hz, h⟩
          · rw [h]; exact ⟨fun e => h0 e.symm, rfl⟩
          · rw [h]; exact ⟨hid, rfl⟩
        rw [if_pos ⟨hf, hrel'.1⟩, hrel'.2]
        simpa [addReader, StoryLock.incrementSequence, StoryLock.setCredentials] using
          served_first_reader hi htx (hl.mp hf) hid
      · have hf : (lockable s.sequences (s.locks r) i true).1 = false := by simpa using hf
        simp only [hf, hsame (Or.inl hf), hid, Bool.false_eq_true, false_and, if_false]
        exact served_unchanged hi htx nofun

theorem write_served : Served s i itx r .write (checkAccessLock s i itx r .write) := by
  unfold checkAccessLock
  by_cases hs : (s.locks r).share = true
  · have hok := hi.locks r
    have hpos : 0 < (holders s.table r).card := card_pos.mpr ⟨_, hok.owner hs⟩
    have hcount := hok.count hs
    simp only [hs, lockable_shared hs, Bool.true_eq_false, if_false]
    rw [if_neg (by omega)]
    split
    · rename_i h1
      split
      · rename_i hid
        exact served_take_over hi htx hs h1 hid
      · -- the owner is a reader, so it is alive
        obtain ⟨tx, hlive, -⟩ := mem_holders.mp (hok.owner hs)
        simp only [hlive, Option.isNone_some, Bool.false_eq_true, if_false]
        exact served_unchanged hi htx nofun
    · exact served_unchanged hi htx nofun
  · have hs : (s.locks r).share = false := by simpa using hs
    obtain ⟨hl, hrel, hsame⟩ := lockable_unshared (s := s) (i := i) (b := false) hs
    simp only [hs, if_true]
    by_cases hf : (lockable s.sequences (s.locks r) i false).1 = true
    · have hstamp : (lockable s.sequences (s.locks r) i false).2.setCredentials i itx.sequence = ⟨false, i, itx.sequence⟩ := by
        by_cases hid : (s.locks r).identifier = i
        · rw [hsame (Or.inr hid)]; simp [StoryLock.setCredentials, hs]
        · rcases hrel hf hid with h | ⟨-, h⟩ <;> rw [h] <;> simp [StoryLock.setCredentials, StoryLock.release, hs]
      rw [if_pos hf, hstamp]
      exact served_stamp hi htx (hl.mp hf) .write
    · have hf : (lockable s.sequences (s.locks r) i false).1 = false := by simpa using hf
      simp only [hf, hsame (Or.inl hf), Bool.false_eq_true, if_false]
      exact served_unchanged hi htx nofun

/-- A request that is served keeps the invariant: its row by `Served`, the others because nothing of theirs moved. -/
theorem request_inv {lock : LockOption} (h : Served s i itx r lock (checkAccessLock s i itx r lock)) :
    Inv (request s i itx r lock) := by
  have hother : ∀ r', r' ≠ r → holders (s.table.set i (checkAccessLock s i itx r lock).2.2) r' = holders s.table r' :=
    fun r' hr => holders_set_same htx (h.others r' hr)
  refine ⟨fun j tx hj => ?_, fun j tx hj => ?_, fun r' => ?_, fun j r' lk hg => ?_⟩
  · simp only [request, Table.set_transactions htx] at hj
    by_cases e : j = i
    · subst e
      simp only [update_self, some.injEq] at hj
      subst hj
      exact (hi.sequences j itx htx).trans h.sequence.symm
    · exact hi.sequences j tx (by simpa [update_of_ne e] using hj)
  · simp only [request, Table.set_transactions htx] at hj
    by_cases e : j = i
    · subst e
      simp only [update_self, some.injEq] at hj
      subst hj
      exact h.dirty
    · exact hi.dirty j tx (by simpa [update_of_ne e] using hj)
  · by_cases e : r' = r
    · subst e; simpa [request] using h.lockOk
    · simpa [request, update_of_ne e] using lockOk_of_holders (hother r' e) (hi.locks r')
  · by_cases e : r' = r
    · subst e
      simp only [request, update_self]
      simp only [request] at hg
      split at hg
      · exact h.keeps j lk (hi.granted j r' lk hg)
      · rename_i hw
        rcases Finset.mem_insert.mp hg with he | hg
        · cases he; exact h.backed (by simpa using hw)
        · exact h.keeps j lk (hi.granted j r' lk hg)
    · have hg' : (j, r', lk) ∈ s.granted := by
        simp only [request] at hg
        split at hg
        · exact hg
        · exact (Finset.mem_insert.mp hg).resolve_left fun he => e (by cases he; rfl)
      simp only [request, update_of_ne e]
      exact backed_of_holders (hother r' e) (stamped_set htx h.sequence).mpr (hi.granted j r' lk hg')

end Request

/-! ### Ends -/

variable {id : Nat}

theorem mem_dropGrants :
    (j, r, lock) ∈ (dropGrants s id).granted ↔ (j, r, lock) ∈ s.granted ∧ j ≠ id := by
  simp [dropGrants]

theorem nextOwner_some (h : ∃ j ∈ holders t r, j ≠ id) :
    ∃ j, nextOwner t id r = some j ∧ j ∈ holders t r ∧ j ≠ id := by
  obtain ⟨j, hj, hne⟩ := h
  obtain ⟨tx, htx, hr⟩ := mem_holders.mp hj
  have hsome : (nextOwner t id r).isSome := by
    simp only [nextOwner, List.find?_isSome]
    exact ⟨j, Table.mem_scan htx, by simp [hne, reads, htx, hr]⟩
  obtain ⟨k, hk⟩ := Option.isSome_iff_exists.mp hsome
  have hp := List.find?_some hk
  simp only [reads, ne_eq, Bool.and_eq_true, decide_not, Bool.not_eq_true', decide_eq_false_iff_not] at hp
  refine ⟨k, hk, mem_holders.mpr ?_, hp.1⟩
  cases hkt : t.transactions k with
  | none => simp [hkt] at hp
  | some ktx => exact ⟨ktx, rfl, by simpa [hkt] using hp.2⟩

variable {n : Nat}

theorem decrementSequence_of_succ (h : l.sequence = n + 1) (hn : n < 2 ^ 32) :
    l.decrementSequence = ⟨l.share, l.identifier, n⟩ := by
  have hm : (n + 1 + (2 ^ 32 - 1)) % 2 ^ 32 = n := by omega
  rw [StoryLock.decrementSequence, h, hm]

/-- A turn of reassign on a lock of `n` readers besides the ending one. -/
theorem reassignLock_eq (hs : l.sequence = n + 1) (hn : n < 2 ^ 32) :
    reassignLock t id r l =
      if l.identifier = id then
        if n = 0 then ⟨false, 0, 0⟩ else ⟨l.share, (nextOwner t id r).getD l.identifier, n⟩
      else ⟨l.share, l.identifier, n⟩ := by
  unfold reassignLock
  by_cases ho : l.identifier = id
  · simp only [ho, if_true]
    by_cases h0 : n = 0
    · rw [if_neg (by omega), if_pos h0, decrementSequence_of_succ (n := 0) (by simp [StoryLock.setCredentials, hs, h0]) (by decide)]
      rfl
    · rw [if_pos (by omega), if_neg h0]
      cases nextOwner t id r with
      | none => rw [decrementSequence_of_succ hs hn, ho]; rfl
      | some j => rw [decrementSequence_of_succ (n := n) (by simp [StoryLock.setCredentials, hs]) hn]; rfl
  · simp only [ho, if_false]
    exact decrementSequence_of_succ hs hn

/-- One turn of reassign: the lock as its remaining readers must see it. -/
theorem reassignLock_spec (h : LockOk t r l) (hid : id ∈ holders t r) :
    ((reassignLock t id r l).share = true → (reassignLock t id r l).identifier ∈ (holders t r).erase id ∧
      (reassignLock t id r l).sequence = ((holders t r).erase id).card) ∧
    ((reassignLock t id r l).share = false ↔ (holders t r).erase id = ∅) := by
  have hs : l.share = true := by
    by_contra hc
    rw [h.unshared (by simpa using hc)] at hid
    cases hid
  have hcard := Finset.card_erase_add_one hid
  have hle := holders_card_le t r
  have hseq : l.sequence = ((holders t r).erase id).card + 1 := by rw [hcard]; exact h.count hs
  have hlt : ((holders t r).erase id).card < 2 ^ 32 := by simp only [DEFAULT_TRANSACTION_SIZE] at hle; omega
  rw [reassignLock_eq hseq hlt]
  by_cases ho : l.identifier = id
  · rw [if_pos ho]
    by_cases h0 : ((holders t r).erase id).card = 0
    · rw [if_pos h0]
      exact ⟨nofun, fun _ => Finset.card_eq_zero.mp h0, fun _ => rfl⟩
    · obtain ⟨k, hk⟩ : ((holders t r).erase id).Nonempty := card_pos.mp (by omega)
      obtain ⟨hkne, hkm⟩ := mem_erase.mp hk
      obtain ⟨j, hj, hjm, hjne⟩ := nextOwner_some ⟨k, hkm, hkne⟩
      have hm : j ∈ (holders t r).erase id := mem_erase.mpr ⟨hjne, hjm⟩
      rw [if_neg h0, hj, hs]
      generalize (holders t r).erase id = H at hm
      exact ⟨fun _ => ⟨hm, rfl⟩, nofun, fun he => by rw [he] at hm; cases hm⟩
  · have hm : l.identifier ∈ (holders t r).erase id := mem_erase.mpr ⟨ho, h.owner hs⟩
    rw [if_neg ho, hs]
    generalize (holders t r).erase id = H at hm
    exact ⟨fun _ => ⟨hm, rfl⟩, nofun, fun he => by rw [he] at hm; cases hm⟩

variable {itx : Tx}

variable (hi : Inv s) (htx : s.table.transactions id = some itx)

include hi htx in
/-- An end, whatever becomes of the object: the read locks are reassigned, the object has none left (or is gone), its
    grants are dropped and nobody else's object moved. -/
theorem end_inv {s' : St}
    (hlocks : ∀ r, s'.locks r = if r ∈ itx.readLockSet then reassignLock s.table id r (s.locks r) else s.locks r)
    (hothers : ∀ j, j ≠ id → s'.table.transactions j = s.table.transactions j ∧ s'.sequences j = s.sequences j)
    (hself : ∀ tx, s'.table.transactions id = some tx → tx.readLockSet = ∅ ∧ s'.sequences id = tx.sequence)
    (hg : ∀ g, g ∈ s'.granted → g ∈ s.granted ∧ g.1 ≠ id) : Inv s' := by
  have hh : ∀ r, holders s'.table r = (holders s.table r).erase id := by
    intro r
    ext j
    by_cases e : j = id
    · subst e
      simp only [mem_holders, mem_erase, ne_eq, not_true, false_and, iff_false, not_exists, not_and]
      intro tx ht
      simp [(hself tx ht).1]
    · simp [mem_holders, e, (hothers j e).1]
  have hmem : ∀ r, id ∈ holders s.table r ↔ r ∈ itx.readLockSet := fun r => by simp [mem_holders, htx]
  refine ⟨fun j tx hj => ?_, fun j tx hj hne => ?_, fun r => ?_, fun j r lk hgr => ?_⟩
  · by_cases e : j = id
    · subst e; exact (hself tx hj).2
    · rw [(hothers j e).2]; exact hi.sequences j tx ((hothers j e).1 ▸ hj)
  · by_cases e : j = id
    · subst e; exact absurd (hself tx hj).1 hne
    · exact hi.dirty j tx ((hothers j e).1 ▸ hj) hne
  · rw [hlocks]
    split
    · rename_i hr
      obtain ⟨h1, h2⟩ := reassignLock_spec (hi.locks r) ((hmem r).mpr hr)
      exact ⟨fun hs => by rw [hh]; exact (h1 hs).1, fun hs => by rw [hh]; exact (h1 hs).2, fun hs => by rw [hh]; exact h2.mp hs⟩
    · rename_i hr
      refine lockOk_of_holders ?_ (hi.locks r)
      rw [hh, Finset.erase_eq_of_notMem fun h => hr ((hmem r).mp h)]
  · obtain ⟨hgr, hne⟩ := hg _ hgr
    have hb := hi.granted j r lk hgr
    have hstamp : Stamped s.table (s.locks r) j → Stamped s'.table (s'.locks r) j := by
      intro h
      have hr : r ∉ itx.readLockSet := fun hr => by
        have := (hmem r).mpr hr
        rw [(hi.locks r).unshared h.1] at this
        cases this
      rw [hlocks, if_neg hr]
      exact ⟨h.1, h.2.1, by rw [(hothers j hne).1]; exact h.2.2⟩
    have hread : (s.locks r).share = true ∧ j ∈ holders s.table r → (s'.locks r).share = true ∧ j ∈ holders s'.table r := by
      intro ⟨hs, hj⟩
      have hj' : j ∈ (holders s.table r).erase id := mem_erase.mpr ⟨hne, hj⟩
      refine ⟨?_, by rw [hh]; exact hj'⟩
      rw [hlocks]
      split
      · rename_i hr
        by_contra hc
        rw [(reassignLock_spec (hi.locks r) ((hmem r).mpr hr)).2.mp (by simpa using hc)] at hj'
        cases hj'
      · exact hs
    cases lk with
    | write => exact hstamp hb
    | read => exact hb.imp hread hstamp

include hi htx in
/-- An object that is not dirty has no read locks, so reassigning them is no change. -/
theorem locks_of_clean
    (hd : itx.dirty = false) (r : Nat) :
    s.locks r = if r ∈ itx.readLockSet then reassignLock s.table id r (s.locks r) else s.locks r := by
  have he : itx.readLockSet = ∅ := by
    by_contra hne
    rw [hi.dirty id itx htx hne] at hd
    cases hd
  simp [he]

theorem signal_others (htx : s.table.transactions id = some itx) (j : Nat) (hj : j ≠ id) :
    (signal s id tx).table.transactions j = s.table.transactions j ∧ (signal s id tx).sequences j = s.sequences j := by
  simp [signal, dropGrants, Table.set_transactions htx, hj]

theorem signal_self (htx : s.table.transactions id = some itx) (x : Tx)
    (hx : (signal s id tx).table.transactions id = some x) :
    x.readLockSet = tx.readLockSet ∧ (signal s id tx).sequences id = x.sequence := by
  simp only [signal, dropGrants, Table.set_transactions htx, update_self, some.injEq] at hx
  subst hx
  simp [signal, dropGrants]

include hi htx in
theorem finish_inv :
    Inv (finish s id itx) := by
  unfold finish
  split
  · have htx' : (reassign s id itx).table.transactions id = some { itx with readLockSet := ∅ } := by
      simp [reassign, Table.set_transactions htx]
    refine end_inv hi htx (fun _ => rfl) (fun j hj => ?_) (fun tx ht => signal_self htx' tx ht) fun g hg => ?_
    · obtain ⟨h1, h2⟩ := signal_others htx' j hj
      exact ⟨h1.trans (by simp [reassign, Table.set_transactions htx, hj]), h2⟩
    · exact mem_dropGrants.mp hg
  · rename_i hd
    have hd : itx.dirty = false := by simpa using hd
    have he : itx.readLockSet = ∅ := by
      by_contra hne
      rw [hi.dirty id itx htx hne] at hd
      cases hd
    refine end_inv hi htx (locks_of_clean hi htx hd) (signal_others htx) (fun tx ht => ?_) fun g hg => mem_dropGrants.mp hg
    rw [← he]
    exact signal_self htx tx ht

include hi htx in
theorem destroy_inv
    (hd : itx.dirty = false) :
    Inv (dropGrants { s with
      table := s.table.destroy id, sequences := update s.sequences id (nextSequence itx.sequence) } id) := by
  refine end_inv hi htx (locks_of_clean hi htx hd) (fun j hj => ?_) (fun tx ht => ?_) fun g hg => mem_dropGrants.mp hg
  · simp [dropGrants, hj]
  · simp [dropGrants] at ht

/-! ### The other steps -/

theorem create_inv (hi : Inv s)
    (hc : s.table.create (fun i => ⟨nextSequence (s.sequences i), false, ∅⟩) = some (i, t))
    (hn : n = nextSequence (s.sequences i)) :
    Inv { s with table := t, sequences := update s.sequences i n } := by
  obtain ⟨hfree, ht⟩ := Table.create_eq_some hc
  subst hn
  have hh : ∀ r, holders t r = holders s.table r := by
    intro r
    ext j
    by_cases e : j = i
    · subst e; simp [mem_holders, ht, hfree]
    · simp [mem_holders, ht, e]
  refine ⟨fun j tx hj => ?_, fun j tx hj hne => ?_, fun r => lockOk_of_holders (hh r) (hi.locks r), fun j r lk hg => ?_⟩
  · simp only [ht] at hj
    by_cases e : j = i
    · subst e; simp only [update_self, some.injEq] at hj; subst hj; simp
    · simp only [update_of_ne e] at hj ⊢; exact hi.sequences j tx hj
  · simp only [ht] at hj
    by_cases e : j = i
    · subst e; simp only [update_self, some.injEq] at hj; subst hj; exact absurd rfl hne
    · exact hi.dirty j tx (by simpa [update_of_ne e] using hj) hne
  · refine backed_of_holders (hh r) ?_ (hi.granted j r lk hg)
    intro ⟨h1, h2, tx, htx, hseq⟩
    have e : j ≠ i := fun e => by subst e; rw [hfree] at htx; cases htx
    exact ⟨h1, h2, tx, by rw [ht, update_of_ne e]; exact htx, hseq⟩

include hi htx in
theorem touch_inv :
    Inv { s with table := s.table.set id { itx with dirty := true } } := by
  have hh : ∀ r, holders (s.table.set id { itx with dirty := true }) r = holders s.table r :=
    fun r => holders_set_same htx Iff.rfl
  have hst : ∀ l j, Stamped (s.table.set id { itx with dirty := true }) l j ↔ Stamped s.table l j := by
    intro l j
    apply stamped_set htx
    rfl
  refine ⟨fun j tx hj => ?_, fun j tx hj hne => ?_, fun r => lockOk_of_holders (hh r) (hi.locks r),
    fun j r lk hg => backed_of_holders (hh r) (hst _ _).mpr (hi.granted j r lk hg)⟩
  all_goals
    simp only [Table.set_transactions htx] at hj
    by_cases e : j = id
  · subst e; simp only [update_self, some.injEq] at hj; subst hj; exact hi.sequences j itx htx
  · exact hi.sequences j tx (by simpa [update_of_ne e] using hj)
  · subst e; simp only [update_self, some.injEq] at hj; subst hj; rfl
  · exact hi.dirty j tx (by simpa [update_of_ne e] using hj) hne

theorem step_inv {s' : St} {e : Ev} (hi : Inv s) (hok : NoOwnStamp s e) (hs : step s e = some s') : Inv s' := by
  cases e with
  | create =>
    simp only [step] at hs
    split at hs
    · cases hs
    · rename_i i t hc
      cases hs
      exact create_inv hi hc rfl
  | touch id =>
    obtain ⟨itx, htx, rfl⟩ := map_eq_some_iff.mp hs
    exact touch_inv hi htx
  | request id r lock =>
    obtain ⟨itx, htx, rfl⟩ := map_eq_some_iff.mp hs
    cases lock with
    | read => exact request_inv hi htx (read_served hi htx hok)
    | write => exact request_inv hi htx (write_served hi htx)
  | finish id =>
    obtain ⟨itx, htx, rfl⟩ := map_eq_some_iff.mp hs
    exact finish_inv hi htx
  | destroy id =>
    simp only [step] at hs
    split at hs
    · cases hs
    · rename_i itx htx
      split at hs
      · cases hs
      · rename_i hd
        cases hs
        exact destroy_inv hi htx (by simpa using hd)

theorem inv (h : Reach step NoOwnStamp init s) : Inv s := h.inv (P := Inv) init_inv step_inv

/-! ## Mutual exclusion -/

/-- A write lock is one stamp, and a read lock excludes it: two grants on one row, one of them WRITE, are of one
    transaction. -/
theorem mutual_exclusion {s : St} (h : Reach step NoOwnStamp init s) : Exclusive s := by
  intro i j r lock hne hw hg
  obtain ⟨hs, hid, -⟩ := (inv h).granted i r .write hw
  have hj := (inv h).granted j r lock hg
  cases lock with
  | write => exact hne (hid.symm.trans hj.2.1)
  | read =>
    rcases hj with ⟨hsh, -⟩ | hj
    · rw [hs] at hsh; cases hsh
    · exact hne (hid.symm.trans hj.2.1)

/-- Two readers of row 7; the first ends and hands the lock over, the second promotes it and ends; then 1 writes. -/
def handoverTrace : List Ev :=
  [.create, .create, .request 1 7 .read, .request 2 7 .read, .request 2 7 .write, .finish 1, .request 2 7 .write,
   .request 1 7 .read, .finish 2, .request 1 7 .write]

theorem handover_exclusive : ∃ s, exec (guarded step NoOwnStamp) init handoverTrace = some s ∧ Exclusive s ∧
    s.granted = {(1, 7, .write)} := by
  refine ⟨_, rfl, ?_, by decide⟩
  exact mutual_exclusion (reach_of_exec_guarded handoverTrace rfl)

end DeepFabric.Transaction.RowLock
