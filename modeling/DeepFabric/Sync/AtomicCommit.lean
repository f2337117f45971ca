/-
  DeepFabric.Sync.AtomicCommit — durable commits over several tables
  (core/Transaction.h: commit; core/RealTimeAtomic.h; util/MeasuredRandomAccessFile.h; the ACP
  check of recoveryRead in core/RealTimeProtocol_v1_1.h).

  A committer plans a group sync. Table after table, under the table's write lock, it appends its
  records to the table's log and value file, flushes both and registers them; a table whose files
  are full moves to a new pair, and the old pair is fdsynced and closed. A transaction over more
  than one table draws an id with its first table and tags its records with it; when all tables
  are written it writes the id, its end record, to the transaction file deep.trt, a ring of
  ids, and registers that file. Then it joins the group sync: the committer that brings the count
  of planned ones to zero fdsyncs the registered files in the order of the list, one by one, with
  the event's lock held; the others wait for it. Registering and closing files take that lock,
  writing and flushing do not.

  A crash leaves what was fdsynced. Recovery replays a table's surviving records in order and
  stops at the first whose transaction has not completed: its id is not among the ids of deep.trt
  and not below all of them.

  The order is not kept. deep.trt stays where an earlier transaction of the round registered it,
  so that a later one's end record is synced with it and ahead of that one's logs. And the ids are
  not written in ascending order, so that the ring can lose the record of an id that is above
  another. `EndSafe` says, of the state before an end record is written, that neither happens.

  - `step_inv` / `inv`: on the other runs a transaction whose end record survives, or that is
    below all that do, survives as a whole, and in no table stands behind one that does not.
-/
import Mathlib.Data.Finset.Card
import Mathlib.Data.List.TakeWhile
import DeepFabric.Lib.Run

namespace DeepFabric.Sync.AtomicCommit

open DeepFabric.Lib.Run List Option Function
open Function (update)

/-- The two files of a table: keys in the log, values beside it. -/
inductive Kind where
  | lrt
  | vrt
  deriving DecidableEq, Repr

inductive File where
  | trt
  /-- The `gen`-th file of its kind of a table. -/
  | log (kind : Kind) (table gen : Nat)
  deriving DecidableEq, Repr

/-- A table's log through all its files. A record is the id of its transaction, 0 for one that needs no end record. -/
structure Table where
  log : List Nat
  /-- How many records have left the buffer of the file, and how many have been fdsynced. -/
  flushed : Kind → Nat
  synced : Kind → Nat
  /-- The pair of files that is written now. -/
  gen : Nat
  /-- Who holds the lock of the write file list. -/
  owner : Option Nat

inductive Pc where
  | idle
  | planned
  | writing (table : Nat)
  /-- The end record is written, deep.trt not yet registered. -/
  | ended
  | ready
  | waiting
  | syncing
  deriving DecidableEq, Repr

structure Committer where
  pc : Pc
  requiresACP : Bool
  /-- m_transactionId, 0 before the first table. -/
  transactionId : Nat
  todo : List Nat
  done : List Nat

structure St where
  syncCount : Int
  syncFiles : List File
  syncable : File → Bool
  /-- The files the running pass has not come to yet; the event's lock is held meanwhile. -/
  pass : Option (List File)
  table : Nat → Table
  /-- The ids in deep.trt, and the position the next one goes to. -/
  trt : List Nat
  trtNext : Nat
  trtSynced : List Nat
  sequence : Nat
  committer : Nat → Committer

def init : St where
  syncCount := 0
  syncFiles := []
  syncable := fun _ => false
  pass := none
  table := fun _ => ⟨[], fun _ => 0, fun _ => 0, 0, none⟩
  trt := []
  trtNext := 0
  trtSynced := []
  sequence := 0
  committer := fun _ => ⟨.idle, false, 0, [], []⟩

/-! ## The operations -/

def St.setCommitter (s : St) (t : Nat) (c : Committer) : St := { s with committer := update s.committer t c }

def St.setTable (s : St) (i : Nat) (tb : Table) : St := { s with table := update s.table i tb }

def list (s : St) (f : File) : St :=
  { s with syncable := update s.syncable f true, syncFiles := s.syncFiles ++ [f] }

def prepareSynchronizeGlobally (s : St) (wfile : File) : St := if s.syncable wfile then s else list s wfile

def preparePairGlobally (s : St) (lwfile vwfile : File) : St :=
  if s.syncable lwfile ∧ s.syncable vwfile then s else list (list s vwfile) lwfile

/-- What survives of a file is what it holds now. An older pair of a table was synced when it was closed. -/
def fdsync (s : St) (f : File) : St :=
  let s := { s with syncable := update s.syncable f false }
  match f with
  | .trt => { s with trtSynced := s.trt }
  | .log k i g =>
    let tb := s.table i
    if g = tb.gen then s.setTable i { tb with synced := update tb.synced k (tb.flushed k) } else s

/-- syncAndCloseFiles, and the pair of files that follows. -/
def nextRealTime (s : St) (i : Nat) : St :=
  let tb := s.table i
  let s := fdsync (fdsync s (.log .vrt i tb.gen)) (.log .lrt i tb.gen)
  s.setTable i { s.table i with gen := tb.gen + 1 }

/-- An id has eight bytes; the file pointer goes back to 0 when it is behind the file size. -/
def writeEndTransaction (trtFileSize : Nat) (s : St) (transactionId : Nat) : St :=
  { s with
    trt := s.trt.take s.trtNext ++ transactionId :: s.trt.drop (s.trtNext + 1)
    trtNext := if 8 * (s.trtNext + 1) > trtFileSize then 0 else s.trtNext + 1 }

inductive Ev where
  /-- A commit of level 0 begins. -/
  | plan (t : Nat) (requiresACP : Bool) (tables : List Nat)
  /-- commitRealTime of the next table, up to its lock. -/
  | lock (t : Nat)
  | write (t : Nat)
  /-- The buffer of a file is written out up to a record, because it is full or by flush(). -/
  | flush (t : Nat) (k : Kind) (n : Nat)
  | rotate (t : Nat)
  | prepare (t : Nat)
  | writeEnd (t : Nat)
  | prepareTrt (t : Nat)
  | perform (t : Nat)
  /-- The pass comes to its next file. -/
  | sync
  | finish (t : Nat)
  deriving Repr

/-- Where the table of a committer is flushed. -/
def Flushed (tb : Table) : Prop := tb.flushed .lrt = tb.log.length ∧ tb.flushed .vrt = tb.log.length

instance (tb : Table) : Decidable (Flushed tb) := inferInstanceAs (Decidable (_ ∧ _))

/-- The id is drawn with the first table. -/
def lock (s : St) (t : Nat) (c : Committer) (i : Nat) : St :=
  let s := if c.requiresACP ∧ c.transactionId = 0 then
      { s with sequence := s.sequence + 1 }.setCommitter t { c with pc := .writing i, transactionId := s.sequence + 1 }
    else s.setCommitter t { c with pc := .writing i }
  s.setTable i { s.table i with owner := some t }

def write (s : St) (t i : Nat) : St :=
  s.setTable i { s.table i with log := (s.table i).log ++ [(s.committer t).transactionId] }

def flush (s : St) (i : Nat) (k : Kind) (n : Nat) : St :=
  s.setTable i { s.table i with flushed := update (s.table i).flushed k n }

def prepare (s : St) (t i : Nat) : St :=
  let c := s.committer t
  let tb := s.table i
  ((preparePairGlobally s (.log .lrt i tb.gen) (.log .vrt i tb.gen)).setTable i { tb with owner := none }).setCommitter t
    { c with pc := .planned, todo := c.todo.tail, done := i :: c.done }

def writeEnd (trtFileSize : Nat) (s : St) (t : Nat) : St :=
  (writeEndTransaction trtFileSize s (s.committer t).transactionId).setCommitter t { s.committer t with pc := .ended }

def perform (s : St) (t : Nat) : St :=
  if s.syncCount - 1 = 0 then
    { s with syncCount := s.syncCount - 1, pass := some s.syncFiles }.setCommitter t { s.committer t with pc := .syncing }
  else { s with syncCount := s.syncCount - 1 }.setCommitter t { s.committer t with pc := .waiting }

/-- One turn of the pass. -/
def syncTurn (s : St) (f : File) (rest : List File) : St :=
  { (if s.syncable f then fdsync s f else s) with pass := some rest }

/-- The end of the pass: everybody who waits returns. -/
def finishPass (s : St) : St :=
  { s with
    syncFiles := []
    pass := none
    committer := fun u =>
      if (s.committer u).pc = .waiting ∨ (s.committer u).pc = .syncing then { s.committer u with pc := .idle }
      else s.committer u }

def step (trtFileSize : Nat) (s : St) : Ev → Option St
  | .plan t acp tables =>
    if (s.committer t).pc = .idle ∧ tables.Nodup ∧ (acp = true → 2 ≤ tables.length) then
      some ({ s with syncCount := s.syncCount + 1 }.setCommitter t ⟨.planned, acp, 0, tables, []⟩)
    else none
  | .lock t =>
    match (s.committer t).pc, (s.committer t).todo with
    | .planned, i :: _ => if (s.table i).owner = none then some (lock s t (s.committer t) i) else none
    | _, _ => none
  | .write t =>
    match (s.committer t).pc with
    | .writing i => some (write s t i)
    | _ => none
  | .flush t k n =>
    match (s.committer t).pc with
    | .writing i =>
      if (s.table i).flushed k ≤ n ∧ n ≤ (s.table i).log.length then some (flush s i k n) else none
    | _ => none
  | .rotate t =>
    match (s.committer t).pc with
    | .writing i => if s.pass = none ∧ Flushed (s.table i) then some (nextRealTime s i) else none
    | _ => none
  | .prepare t =>
    match (s.committer t).pc with
    | .writing i => if s.pass = none ∧ Flushed (s.table i) then some (prepare s t i) else none
    | _ => none
  | .writeEnd t =>
    if (s.committer t).pc = .planned ∧ (s.committer t).todo = [] ∧ (s.committer t).requiresACP = true then
      some (writeEnd trtFileSize s t)
    else none
  | .prepareTrt t =>
    if (s.committer t).pc = .ended ∧ s.pass = none then
      some ((prepareSynchronizeGlobally s .trt).setCommitter t { s.committer t with pc := .ready })
    else none
  | .perform t =>
    if s.pass = none ∧ ((s.committer t).pc = .ready ∨ (s.committer t).pc = .planned ∧ (s.committer t).todo = []
        ∧ (s.committer t).requiresACP = false) then some (perform s t) else none
  | .sync =>
    match s.pass with
    | some (f :: rest) => some (syncTurn s f rest)
    | _ => none
  | .finish t => if s.pass = some [] ∧ (s.committer t).pc = .syncing then some (finishPass s) else none

/-! ## Recovery -/

/-- m_entries->first(), 0 of an empty set. -/
def getMinimumTransaction (entries : List Nat) : Nat := entries.min?.getD 0

def transactionCompleted (entries : List Nat) (id : Nat) : Bool := entries.contains id

/-- A record passes the ACP check; one without an id has none. -/
def completed (entries : List Nat) (id : Nat) : Bool :=
  id = 0 || !(id ≥ getMinimumTransaction entries && !transactionCompleted entries id)

/-- The records of a table that survive a crash: a record needs its key and its value. -/
def surviving (tb : Table) : List Nat := tb.log.take (min (tb.synced .lrt) (tb.synced .vrt))

/-- recoveryRead: the records before the first that does not pass. -/
def recoveryRead (s : St) (i : Nat) : List Nat := (surviving (s.table i)).takeWhile (completed s.trtSynced)

/-- A transaction is applied in a table when the whole group it has written there is replayed. -/
def applied (s : St) (i id : Nat) : Prop :=
  id ∈ (s.table i).log ∧ (recoveryRead s i).count id = (s.table i).log.count id

instance (s : St) (i id : Nat) : Decidable (applied s i id) := inferInstanceAs (Decidable (_ ∧ _))

/-! ## The order -/

/-- The file is listed, ahead of deep.trt if that is listed too. -/
def Ahead (f : File) (files : List File) : Prop := f ∈ files.takeWhile (· ≠ .trt)

instance (f : File) (files : List File) : Decidable (Ahead f files) := inferInstanceAs (Decidable (_ ∈ _))

/-- The condition on a step, in the state before it. At an end record every file that holds a record of the transaction
    that is not yet fdsynced is listed ahead of deep.trt, and the id that is written over is below all that stay. -/
def EndSafe (s : St) : Ev → Prop
  | .writeEnd t =>
    (∀ i ∈ (s.committer t).done, ∀ k ∈ [Kind.lrt, Kind.vrt],
      (s.committer t).transactionId ∈ (s.table i).log.drop ((s.table i).synced k) →
        Ahead (.log k i (s.table i).gen) s.syncFiles)
    ∧ ∀ x ∈ s.trt[s.trtNext]?, ∀ y ∈ (s.committer t).transactionId :: s.trt.eraseIdx s.trtNext, x < y
  | _ => True

instance (s : St) : (e : Ev) → Decidable (EndSafe s e)
  | .writeEnd _ => inferInstanceAs (Decidable (_ ∧ _))
  | .plan .. | .lock _ | .write _ | .flush .. | .rotate _ | .prepare _ | .prepareTrt _ | .perform _ | .sync | .finish _ =>
    .isTrue trivial

/-- A commit of one table by its committer. -/
def commitTable (t n : Nat) : List Ev := [.lock t, .write t, .flush t .vrt n, .flush t .lrt n, .prepare t]

/-- 1 writes tables 1 and 2 and registers deep.trt; 2 writes tables 1 and 3. The pass syncs deep.trt and has not come to
    table 3. -/
def trtFirstTrace : List Ev :=
  [.plan 1 true [1, 2]] ++ commitTable 1 1 ++ commitTable 1 1 ++ [.writeEnd 1, .prepareTrt 1]
    ++ [.plan 2 true [1, 3]] ++ commitTable 2 2 ++ commitTable 2 1 ++ [.writeEnd 2, .prepareTrt 2]
    ++ [.perform 1, .perform 2, .sync, .sync, .sync, .sync, .sync]

/-- A ring of two ids. 1 and 2 end in the order 2, 1; 3 writes its end record over that of 2. -/
def ringTrace : List Ev :=
  [.plan 1 true [1, 2], .lock 1, .write 1, .flush 1 .vrt 1, .flush 1 .lrt 1, .prepare 1, .plan 2 true [3, 4]]
    ++ commitTable 2 1 ++ commitTable 2 1 ++ [.writeEnd 2, .prepareTrt 2] ++ commitTable 1 1 ++ [.writeEnd 1, .prepareTrt 1]
    ++ [.perform 1, .perform 2] ++ List.replicate 9 .sync ++ [.finish 2, .plan 3 true [3, 5]]
    ++ commitTable 3 2 ++ commitTable 3 1 ++ [.writeEnd 3, .prepareTrt 3, .perform 3] ++ List.replicate 5 .sync

/-- All three have been synced as a whole, but table 3 stops at the record of 2, and 3 is applied in table 5 alone. -/
theorem ring_loses_an_id : ∃ s, Reach (step 8) Free init s
    ∧ 3 ∈ s.trtSynced ∧ surviving (s.table 3) = [2, 3] ∧ ¬applied s 3 3 ∧ applied s 5 3 := by
  obtain ⟨s, hs, h⟩ : ∃ s, exec (step 8) init ringTrace = some s ∧ 3 ∈ s.trtSynced ∧ surviving (s.table 3) = [2, 3]
      ∧ ¬applied s 3 3 ∧ applied s 5 3 := exec_ends (by decide +kernel)
  exact ⟨s, reach_of_exec _ hs, h⟩

/-! ## Frames -/

section Frame
variable (s : St) (t u i j : Nat) (c : Committer) (tb : Table)

@[simp] theorem setCommitter_self : (s.setCommitter t c).committer t = c := update_self ..

theorem setCommitter_of_ne (h : u ≠ t) : (s.setCommitter t c).committer u = s.committer u := update_of_ne h ..

@[simp] theorem setTable_self : (s.setTable i tb).table i = tb := update_self ..

theorem setTable_of_ne (h : j ≠ i) : (s.setTable i tb).table j = s.table j := update_of_ne h ..

theorem fdsync_syncable (f : File) : (fdsync s f).syncable = update s.syncable f false := by
  cases f with
  | trt => rfl
  | log k i g => rw [fdsync]; split <;> rfl

theorem fdsync_pass (f : File) : (fdsync s f).pass = s.pass := by
  cases f with
  | trt => rfl
  | log k i g => rw [fdsync]; split <;> rfl

end Frame

variable {x n : Nat} {l : List Nat}

theorem mem_drop_append {a : Nat} (h : x ∈ (l ++ [a]).drop n) : x ∈ l.drop n ∨ x = a := by
  rw [drop_append, mem_append] at h
  rcases h with h | h
  · exact .inl h
  · exact .inr (mem_singleton.mp (mem_of_mem_drop h))

theorem length_ring (h : n ≤ l.length) (a : Nat) :
    (l.take n ++ a :: l.drop (n + 1)).length = max (n + 1) l.length := by
  rw [length_append, length_take, length_cons, length_drop]
  omega

theorem mem_ring_of_mem (a : Nat) (hx : x ∈ l) :
    x ∈ l.take n ++ a :: l.drop (n + 1) ∨ l[n]? = some x := by
  obtain ⟨p, hp, rfl⟩ := mem_iff_getElem.mp hx
  rcases Nat.lt_trichotomy p n with h | rfl | h
  · exact .inl (mem_append_left _ (mem_take_iff_getElem.mpr ⟨p, by omega, rfl⟩))
  · exact .inr (List.getElem?_eq_getElem hp)
  · refine .inl (mem_append_right _ (mem_cons_of_mem _ (mem_drop_iff_getElem.mpr ⟨p - (n + 1), by omega, ?_⟩)))
    congr 1
    omega

theorem mem_ring {a : Nat} (hx : x ∈ l.take n ++ a :: l.drop (n + 1)) : x = a ∨ x ∈ l := by
  rcases mem_append.mp hx with hx | hx
  · exact .inr (mem_of_mem_take hx)
  · exact (mem_cons.mp hx).imp_right mem_of_mem_drop

theorem mem_drop_of_le {m : Nat} (h : n ≤ m) (hx : x ∈ l.drop m) : x ∈ l.drop n := by
  obtain ⟨d, rfl⟩ := Nat.exists_eq_add_of_le h
  rw [← drop_drop] at hx
  exact mem_of_mem_drop hx

theorem ahead_append {f : File} {l : List File} (l' : List File) (h : Ahead f l) : Ahead f (l ++ l') := by
  induction l with
  | nil => exact absurd h not_mem_nil
  | cons g l ih =>
    by_cases hg : g = .trt
    · simp [Ahead, hg] at h
    · simp only [Ahead, cons_append, ne_eq, hg, not_false_eq_true, decide_true, takeWhile_cons_of_pos,
        mem_cons] at h ⊢
      exact h.imp_right ih

theorem ahead_tail {f g : File} {l : List File} (h : Ahead f (g :: l)) : g ≠ .trt ∧ (f = g ∨ Ahead f l) := by
  by_cases hg : g = .trt
  · simp [Ahead, hg] at h
  · refine ⟨hg, ?_⟩
    simpa [Ahead, hg] using h

/-! ## The invariant -/

/-- Before its end record. -/
def NotEnded (c : Committer) : Prop := c.pc = .planned ∨ ∃ i, c.pc = .writing i

/-- Planned, and has not performed. -/
def InFlight (c : Committer) : Prop := NotEnded c ∨ c.pc = .ended ∨ c.pc = .ready

/-- An id whose end record has been written. -/
def Ended (s : St) (x : Nat) : Prop :=
  0 < x ∧ x ≤ s.sequence ∧ ∀ t, NotEnded (s.committer t) → (s.committer t).transactionId ≠ x

/-- What recovery takes for completed. -/
def Complete (entries : List Nat) (x : Nat) : Prop := x ∈ entries ∨ entries ≠ [] ∧ ∀ y ∈ entries, x < y

/-- The list of files, as far as a pass has not come to them. -/
def pending (s : St) : List File := s.pass.getD s.syncFiles

/-- What holds of a committer in a state. -/
structure CommitterInv (s : St) (c : Committer) : Prop where
  atHead : ∀ i, c.pc = .writing i → ∃ rest, c.todo = i :: rest
  once : NotEnded c → c.todo.Nodup ∧ ∀ i ∈ c.todo, i ∉ c.done
  several : NotEnded c → c.requiresACP = true → c.done = [] → c.todo ≠ []
  unnumbered : c.requiresACP = false → c.transactionId = 0
  numbered : NotEnded c → c.requiresACP = true → c.done ≠ [] ∨ (∃ i, c.pc = .writing i) → c.transactionId ≠ 0
  bound : c.transactionId ≤ s.sequence
  above : NotEnded c → c.transactionId ≠ 0 → ∀ x ∈ s.trtSynced, x < c.transactionId
  abovePass : s.pass ≠ none → NotEnded c → c.transactionId ≠ 0 → ∀ x ∈ s.trt, x < c.transactionId
  passing : s.pass ≠ none → InFlight c → NotEnded c ∧ c.done = []

/-- What holds of table `i`, with `tb` in it, in a state. -/
structure TableInv (s : St) (i : Nat) (tb : Table) : Prop where
  owned : ∀ t, (s.committer t).pc = .writing i ↔ tb.owner = some t
  bound : ∀ x ∈ tb.log, x ≤ s.sequence
  located : ∀ t, NotEnded (s.committer t) → (s.committer t).transactionId ≠ 0 → (s.committer t).transactionId ∈ tb.log →
    i ∈ (s.committer t).done ∨ (s.committer t).pc = .writing i
  /-- The writer's records are the last ones. -/
  atTail : ∀ t, tb.owner = some t → (s.committer t).transactionId ≠ 0 →
    tb.log.Pairwise fun a b => a = (s.committer t).transactionId → b = (s.committer t).transactionId
  counts : ∀ k, tb.synced k ≤ tb.flushed k ∧ tb.flushed k ≤ tb.log.length
  unflushed : ∀ k, ∀ x ∈ tb.log.drop (tb.flushed k), ∃ t, tb.owner = some t ∧ (s.committer t).transactionId = x
  unsynced : ∀ k, ∀ x ∈ tb.log.drop (tb.synced k), s.syncable (.log k i tb.gen) = true
    ∨ ∃ t, tb.owner = some t ∧ (s.committer t).transactionId = x
  ahead : ∀ x, Ended s x → ∀ k, x ∈ tb.log.drop (tb.synced k) → Ahead (.log k i tb.gen) (pending s)
  durable : ∀ x, x ≠ 0 → Complete s.trtSynced x → ∀ k, x ∉ tb.log.drop (tb.synced k)
  ordered : tb.log.Pairwise fun a b => b ≠ 0 → Complete s.trtSynced b → a = 0 ∨ Complete s.trtSynced a

structure Inv (trtFileSize : Nat) (s : St) : Prop where
  counted : ∃ P : Finset Nat, (∀ t, t ∈ P ↔ InFlight (s.committer t)) ∧ s.syncCount = P.card
  committers : ∀ t, CommitterInv s (s.committer t)
  unique : ∀ t u, t ≠ u → (s.committer t).transactionId = (s.committer u).transactionId → (s.committer t).transactionId = 0
  tables : ∀ i, TableInv s i (s.table i)
  listed : ∀ f, s.syncable f = true → f ∈ pending s
  ring : s.trtNext ≤ s.trt.length ∧ 8 * s.trtNext ≤ trtFileSize ∧ (s.trtNext < s.trt.length → trtFileSize < 8 * s.trt.length)
  inRing : ∀ x ∈ s.trt, Ended s x
  kept : ∀ x, Ended s x → x ∈ s.trt ∨ trtFileSize < 8 * s.trt.length ∧ ∀ y ∈ s.trt, x < y
  syncedBound : ∀ x ∈ s.trtSynced, 0 < x ∧ x ≤ s.sequence

theorem init_inv (trtFileSize : Nat) : Inv trtFileSize init where
  counted := ⟨∅, by simp [init, InFlight, NotEnded]⟩
  committers t := by constructor <;> simp [init, NotEnded, InFlight]
  unique t u _ _ := rfl
  tables i := by constructor <;> simp [init, NotEnded, Complete]
  listed f h := by simp [init] at h
  ring := by simp [init]
  inRing x h := by simp [init] at h
  kept x h := by
    have : x ≤ 0 := h.2.1
    exact absurd h.1 (by omega)
  syncedBound x h := by simp [init] at h

theorem not_complete {entries : List Nat} (h : ∀ y ∈ entries, y < x) : ¬Complete entries x := by
  rintro (hx | ⟨hne, hx⟩)
  · exact Nat.lt_irrefl x (h x hx)
  · obtain ⟨y, hy⟩ := exists_mem_of_ne_nil entries hne
    exact Nat.lt_asymm (h y hy) (hx y hy)

variable {s : St}

/-- Behind its end record a committer has nothing left to keep. -/
theorem CommitterInv.of_ended {c : Committer} (hne : ¬NotEnded c) (hpass : s.pass ≠ none → ¬InFlight c)
    (hu : c.requiresACP = false → c.transactionId = 0) (hb : c.transactionId ≤ s.sequence) : CommitterInv s c where
  atHead i h := absurd (.inr ⟨i, h⟩) hne
  once h := absurd h hne
  several h := absurd h hne
  unnumbered := hu
  numbered h := absurd h hne
  bound := hb
  above h := absurd h hne
  abovePass _ h := absurd h hne
  passing hp h := absurd h (hpass hp)

/-- A table keeps what holds of it when committers move that neither take nor release its lock. -/
theorem TableInv.of_committers {s' : St} {i : Nat} {tb : Table} (h : TableInv s i tb) (hseq : s.sequence ≤ s'.sequence)
    (hsync : s'.syncable = s.syncable) (hsynced : s'.trtSynced = s.trtSynced)
    (hwr : ∀ u, (s'.committer u).pc = .writing i ↔ (s.committer u).pc = .writing i)
    (hid : ∀ u, (s.committer u).pc = .writing i → (s'.committer u).transactionId = (s.committer u).transactionId)
    (hloc : ∀ u, NotEnded (s'.committer u) → (s'.committer u).transactionId ≠ 0 → (s'.committer u).transactionId ∈ tb.log →
      i ∈ (s'.committer u).done ∨ (s'.committer u).pc = .writing i)
    (hahead : ∀ x, Ended s' x → ∀ k, x ∈ tb.log.drop (tb.synced k) → Ahead (.log k i tb.gen) (pending s')) :
    TableInv s' i tb where
  owned u := (hwr u).trans (h.owned u)
  bound x hx := Nat.le_trans (h.bound x hx) hseq
  located := hloc
  atTail u hu h0 := by
    rw [hid u ((h.owned u).mpr hu)] at h0 ⊢
    exact h.atTail u hu h0
  counts := h.counts
  unflushed k x hx := by
    obtain ⟨u, hu, hx⟩ := h.unflushed k x hx
    exact ⟨u, hu, (hid u ((h.owned u).mpr hu)).trans hx⟩
  unsynced k x hx := by
    rw [hsync]
    refine (h.unsynced k x hx).imp_right fun ⟨u, hu, hx⟩ => ?_
    exact ⟨u, hu, (hid u ((h.owned u).mpr hu)).trans hx⟩
  ahead := hahead
  durable := by
    rw [hsynced]
    exact h.durable
  ordered := by
    rw [hsynced]
    exact h.ordered

section Steps
variable {trtFileSize : Nat} {s : St} (hi : Inv trtFileSize s) {t : Nat}
include hi

variable {i : Nat}

/-- A table is written in its own place, and nothing else changes. -/
theorem setTable_inv {tb : Table} (h : TableInv s i tb) : Inv trtFileSize (s.setTable i tb) where
  counted := hi.counted
  committers u := { hi.committers u with }
  unique := hi.unique
  tables j := by
    rcases eq_or_ne j i with rfl | hj
    · rw [setTable_self]
      exact { h with }
    · rw [setTable_of_ne _ _ _ _ hj]
      exact { hi.tables j with }
  listed := hi.listed
  ring := hi.ring
  inRing := hi.inRing
  kept := hi.kept
  syncedBound := hi.syncedBound

/-- What the writer of a table writes is not completed, and is not ended. -/
theorem writer_open (ht : (s.committer t).pc = .writing i) :
    ¬Ended s (s.committer t).transactionId ∧
      ((s.committer t).transactionId ≠ 0 → ¬Complete s.trtSynced (s.committer t).transactionId) :=
  ⟨fun h => h.2.2 t (.inr ⟨i, ht⟩) rfl, fun h0 => not_complete ((hi.committers t).above (.inr ⟨i, ht⟩) h0)⟩

theorem write_inv (ht : (s.committer t).pc = .writing i) : Inv trtFileSize (write s t i) := by
  obtain ⟨hnot, hcomp⟩ := writer_open hi ht
  have h := hi.tables i
  have hown := (h.owned t).mp ht
  refine setTable_inv hi { h with
    bound := fun x hx => ?_
    located := fun u hu h0 hx => ?_
    atTail := fun u hu h0 => ?_
    counts := fun k => ?_
    unflushed := fun k x hx => ?_
    unsynced := fun k x hx => ?_
    ahead := fun x hend k hx => ?_
    durable := fun x h0 hc k hx => ?_
    ordered := ?_ }
  · rcases mem_append.mp hx with hx | hx
    · exact h.bound x hx
    · rw [mem_singleton.mp hx]
      exact (hi.committers t).bound
  · rcases mem_append.mp hx with hx | hx
    · exact h.located u hu h0 hx
    · rcases eq_or_ne u t with rfl | hut
      · exact .inr ht
      · exact absurd (hi.unique u t hut (mem_singleton.mp hx)) h0
  · have hut : t = u := Option.some.inj (hown.symm.trans hu)
    subst hut
    exact pairwise_append.mpr
      ⟨h.atTail t hu h0, pairwise_singleton _ _, fun a _ b hb _ => mem_singleton.mp hb⟩
  · rw [length_append]
    exact ⟨(h.counts k).1, Nat.le_trans (h.counts k).2 (Nat.le_add_right _ _)⟩
  · rcases mem_drop_append hx with hx | rfl
    · exact h.unflushed k x hx
    · exact ⟨t, hown, rfl⟩
  · rcases mem_drop_append hx with hx | rfl
    · exact h.unsynced k x hx
    · exact .inr ⟨t, hown, rfl⟩
  · rcases mem_drop_append hx with hx | rfl
    · exact h.ahead x hend k hx
    · exact absurd hend hnot
  · rcases mem_drop_append hx with hx | rfl
    · exact h.durable x h0 hc k hx
    · exact hcomp h0 hc
  · refine pairwise_append.mpr ⟨h.ordered, pairwise_singleton _ _, fun a _ b hb hb0 hc => ?_⟩
    obtain rfl := mem_singleton.mp hb
    exact absurd hc (hcomp hb0)

theorem flush_inv {k : Kind} {n : Nat} (hn : (s.table i).flushed k ≤ n) (hl : n ≤ (s.table i).log.length) :
    Inv trtFileSize (flush s i k n) := by
  have h := hi.tables i
  refine setTable_inv hi { h with counts := fun k' => ?_, unflushed := fun k' x hx => ?_ }
  · rcases eq_or_ne k' k with rfl | hk
    · simp only [update_self]
      exact ⟨Nat.le_trans (h.counts k').1 hn, hl⟩
    · simp only [update_of_ne hk]
      exact h.counts k'
  · rcases eq_or_ne k' k with rfl | hk
    · simp only [update_self] at hx
      exact h.unflushed k' x (mem_drop_of_le hn hx)
    · simp only [update_of_ne hk] at hx
      exact h.unflushed k' x hx

variable {x : Nat}

/-- What a table's file has not synced of an ended transaction is marked. -/
theorem ended_syncable (hx : Ended s x) {k : Kind} (h : x ∈ (s.table i).log.drop ((s.table i).synced k)) :
    s.syncable (.log k i (s.table i).gen) = true := by
  rcases (hi.tables i).unsynced k x h with h | ⟨u, hu, hid⟩
  · exact h
  · exact absurd hid (hx.2.2 u (.inr ⟨i, ((hi.tables i).owned u).mpr hu⟩))

theorem ended_flushed (hx : Ended s x) (i : Nat) (k : Kind) : x ∉ (s.table i).log.drop ((s.table i).flushed k) := by
  intro h
  obtain ⟨u, hu, hid⟩ := (hi.tables i).unflushed k x h
  exact hx.2.2 u (.inr ⟨i, ((hi.tables i).owned u).mpr hu⟩) hid

theorem fdsync_log_inv (k : Kind) (i g : Nat) : Inv trtFileSize (fdsync s (.log k i g)) := by
  have hmark (f : File) (hf : f ≠ .log k i g) : update s.syncable (.log k i g) false f = s.syncable f :=
    update_of_ne hf ..
  have hlisted (f : File) (hf : update s.syncable (.log k i g) false f = true) : f ∈ pending s := by
    rcases eq_or_ne f (.log k i g) with rfl | hne
    · simp at hf
    · rw [hmark f hne] at hf
      exact hi.listed f hf
  -- the tables whose file of this kind is another one
  have hother (j : Nat) (hj : File.log k j (s.table j).gen ≠ .log k i g) :
      TableInv { s with syncable := update s.syncable (.log k i g) false } j (s.table j) :=
    { hi.tables j with
      unsynced := fun k' x hx => ((hi.tables j).unsynced k' x hx).imp_left fun h =>
        (hmark _ fun heq => hj (by cases heq; rfl)).trans h }
  by_cases hg : g = (s.table i).gen
  · subst hg
    have h := hi.tables i
    simp only [fdsync, if_true]
    refine { hi with
      committers := fun u => { hi.committers u with }
      listed := hlisted
      tables := fun j => ?_ }
    rcases eq_or_ne j i with rfl | hj
    · rw [setTable_self]
      exact { h with
        counts := fun k' => by
          rcases eq_or_ne k' k with rfl | hk
          · simp only [update_self]
            exact ⟨Nat.le_refl _, (h.counts k').2⟩
          · simp only [update_of_ne hk]
            exact h.counts k'
        unsynced := fun k' x hx => by
          rcases eq_or_ne k' k with rfl | hk
          · simp only [update_self] at hx
            exact .inr (h.unflushed k' x hx)
          · simp only [update_of_ne hk] at hx
            refine (h.unsynced k' x hx).imp_left fun hs => ?_
            exact (hmark _ (by simp [hk])).trans hs
        ahead := fun x hend k' hx => by
          rcases eq_or_ne k' k with rfl | hk
          · simp only [update_self] at hx
            exact absurd hx (ended_flushed hi hend j k')
          · simp only [update_of_ne hk] at hx
            exact h.ahead x hend k' hx
        durable := fun x h0 hc k' hx => by
          rcases eq_or_ne k' k with rfl | hk
          · simp only [update_self] at hx
            exact h.durable x h0 hc k' (mem_drop_of_le (h.counts k').1 hx)
          · simp only [update_of_ne hk] at hx
            exact h.durable x h0 hc k' hx }
    · rw [setTable_of_ne _ _ _ _ hj]
      exact { hother j (by simp [hj]) with }
  · simp only [fdsync, hg, if_false]
    refine { hi with
      committers := fun u => { hi.committers u with }
      listed := hlisted
      tables := fun j => hother j ?_ }
    intro heq
    cases heq
    exact hg rfl

theorem nextRealTime_inv (hf : Flushed (s.table i)) : Inv trtFileSize (nextRealTime s i) := by
  have h₁ := fdsync_log_inv (fdsync_log_inv hi .vrt i (s.table i).gen) .lrt i (s.table i).gen
  have hsync (k : Kind) : ((fdsync (fdsync s (.log .vrt i (s.table i).gen)) (.log .lrt i (s.table i).gen)).table i).synced k
      = ((fdsync (fdsync s (.log .vrt i (s.table i).gen)) (.log .lrt i (s.table i).gen)).table i).log.length := by
    cases k <;> simp [fdsync, hf.1, hf.2]
  have h := h₁.tables i
  refine setTable_inv h₁ { h with
    unsynced := fun k x hx => ?_
    ahead := fun x _ k hx => ?_ }
  · rw [hsync k, drop_length] at hx
    exact absurd hx not_mem_nil
  · rw [hsync k, drop_length] at hx
    exact absurd hx not_mem_nil

variable {rest : List File}

/-- The pass leaves the file at its head behind, which is not marked any more. -/
theorem passTail_inv {f : File} (hp : s.pass = some (f :: rest)) (hf : s.syncable f = false) :
    Inv trtFileSize { s with pass := some rest } := by
  have hpend : pending s = f :: rest := by rw [pending, hp]; rfl
  have hpass : s.pass ≠ none := by rw [hp]; exact some_ne_none _
  refine { hi with
    committers := fun u => { hi.committers u with
      abovePass := fun _ => (hi.committers u).abovePass hpass
      passing := fun _ => (hi.committers u).passing hpass }
    tables := fun i => { hi.tables i with ahead := fun x hend k hx => ?_ }
    listed := fun g hg => ?_ }
  · have hahead := (hi.tables i).ahead x hend k hx
    rw [hpend] at hahead
    rcases (ahead_tail hahead).2 with heq | hahead
    · exact absurd (ended_syncable hi hend hx) (by rw [heq, hf]; exact Bool.false_ne_true)
    · exact hahead
  · have hmem := hi.listed g hg
    rw [hpend] at hmem
    rcases mem_cons.mp hmem with rfl | hmem
    · exact absurd hg (by rw [hf]; exact Bool.false_ne_true)
    · exact hmem

theorem ended_complete (hx : Ended s x) : Complete s.trt x := by
  refine (hi.kept x hx).imp_right fun ⟨hfull, hlt⟩ => ⟨?_, hlt⟩
  intro hnil
  rw [hnil] at hfull
  simp at hfull

theorem open_or_ended (hx : x ∈ (s.table i).log) (h0 : x ≠ 0) :
    Ended s x ∨ ∃ t, NotEnded (s.committer t) ∧ (s.committer t).transactionId = x := by
  by_cases h : ∃ t, NotEnded (s.committer t) ∧ (s.committer t).transactionId = x
  · exact .inr h
  · exact .inl ⟨Nat.pos_of_ne_zero h0, (hi.tables i).bound x hx, fun t ht hid => h ⟨t, ht, hid⟩⟩

/-- The pass comes to deep.trt: all that have ended are synced, and nobody else has an id below theirs. -/
theorem fdsync_trt_inv (hp : s.pass = some (.trt :: rest)) : Inv trtFileSize (fdsync s .trt) := by
  have hpend : pending s = .trt :: rest := by rw [pending, hp]; rfl
  have hpass : s.pass ≠ none := by rw [hp]; exact some_ne_none _
  have hopen {t : Nat} (ht : NotEnded (s.committer t)) (h0 : (s.committer t).transactionId ≠ 0) :
      ¬Complete s.trt (s.committer t).transactionId :=
    not_complete ((hi.committers t).abovePass hpass ht h0)
  have hmark (k : Kind) (i g : Nat) : (fdsync s .trt).syncable (.log k i g) = s.syncable (.log k i g) := by
    rw [fdsync_syncable, update_of_ne (by simp)]
  refine { hi with
    committers := fun u => { hi.committers u with above := (hi.committers u).abovePass hpass }
    tables := fun i => { hi.tables i with
      unsynced := fun k x hx => ((hi.tables i).unsynced k x hx).imp_left (hmark k i _).trans
      durable := fun x h0 hc k hx => ?_
      ordered := ?_ }
    listed := fun g hg => ?_
    syncedBound := fun x hx => ⟨(hi.inRing x hx).1, (hi.inRing x hx).2.1⟩ }
  · rcases open_or_ended hi (mem_of_mem_drop hx) h0 with hend | ⟨t, ht, rfl⟩
    · have hahead := (hi.tables i).ahead x hend k hx
      rw [hpend] at hahead
      exact (ahead_tail hahead).1 rfl
    · exact hopen ht h0 hc
  · -- a record that is not ended is its writer's, and all behind it are the writer's too
    have hwriter {a : Nat} (ha : a ∈ (s.table i).log) (h0 : a ≠ 0) (hc : ¬Complete s.trt a) :
        ∃ t, (s.table i).owner = some t ∧ (s.committer t).transactionId = a := by
      rcases open_or_ended hi ha h0 with hend | ⟨t, ht, rfl⟩
      · exact absurd (ended_complete hi hend) hc
      · have hdone := ((hi.committers t).passing hpass (.inl ht)).2
        rcases (hi.tables i).located t ht h0 ha with hmem | hw
        · rw [hdone] at hmem
          exact absurd hmem not_mem_nil
        · exact ⟨t, ((hi.tables i).owned t).mp hw, rfl⟩
    have hall : ∀ a ∈ (s.table i).log, ∀ b, (∀ t, (s.table i).owner = some t → (s.committer t).transactionId ≠ 0 →
        a = (s.committer t).transactionId → b = (s.committer t).transactionId) →
        b ≠ 0 → Complete s.trt b → a = 0 ∨ Complete s.trt a := by
      intro a ha b htail hb0 hb
      by_contra hneg
      rw [not_or] at hneg
      obtain ⟨t, ht, rfl⟩ := hwriter ha hneg.1 hneg.2
      obtain rfl := htail t ht hneg.1 rfl
      exact hneg.2 hb
    cases ho : (s.table i).owner with
    | none =>
      refine pairwise_of_forall_mem_list fun a ha b _ => hall a ha b fun t ht => ?_
      rw [ho] at ht
      cases ht
    | some t =>
      by_cases h0 : (s.committer t).transactionId = 0
      · refine pairwise_of_forall_mem_list fun a ha b _ => hall a ha b fun u hu hu0 => ?_
        obtain rfl := Option.some.inj (ho.symm.trans hu)
        exact absurd h0 hu0
      · refine List.Pairwise.imp_of_mem (fun {a b} ha _ hab => hall a ha b fun u hu _ => ?_)
          ((hi.tables i).atTail t ho h0)
        obtain rfl := Option.some.inj (ho.symm.trans hu)
        exact hab
  · rcases eq_or_ne g .trt with rfl | hne
    · simp [fdsync] at hg
    · rw [fdsync_syncable, update_of_ne hne] at hg
      exact hi.listed g hg

theorem syncTurn_inv {f : File} (hp : s.pass = some (f :: rest)) :
    Inv trtFileSize (syncTurn s f rest) := by
  by_cases hf : s.syncable f = true
  · simp only [syncTurn, hf, if_true]
    have hmark : (fdsync s f).syncable f = false := by rw [fdsync_syncable, update_self]
    have hpass : (fdsync s f).pass = some (f :: rest) := (fdsync_pass s f).trans hp
    refine passTail_inv ?_ hpass hmark
    cases f with
    | trt => exact fdsync_trt_inv hi hp
    | log k i g => exact fdsync_log_inv hi k i g
  · have hf : s.syncable f = false := by simpa using hf
    simp only [syncTurn, hf, Bool.false_eq_true, if_false]
    exact passTail_inv hi hp hf

theorem list_inv (hp : s.pass = none) (f : File) : Inv trtFileSize (list s f) := by
  have hmark {g : File} (hg : s.syncable g = true) : (list s f).syncable g = true := by
    rcases eq_or_ne g f with rfl | hne
    · exact update_self ..
    · exact (update_of_ne hne ..).trans hg
  have hpend : pending (list s f) = pending s ++ [f] := by simp [pending, list, hp]
  refine { hi with
    committers := fun u => { hi.committers u with }
    tables := fun i => { hi.tables i with
      unsynced := fun k x hx => ((hi.tables i).unsynced k x hx).imp_left hmark
      ahead := fun x hend k hx => ?_ }
    listed := fun g hg => ?_ }
  · rw [hpend]
    exact ahead_append _ ((hi.tables i).ahead x hend k hx)
  · rw [hpend, mem_append, mem_singleton]
    rcases eq_or_ne g f with rfl | hne
    · exact .inr rfl
    · have hg' : s.syncable g = true := (update_of_ne hne ..).symm.trans hg
      exact .inl (hi.listed g hg')

theorem prepareSynchronizeGlobally_inv (hp : s.pass = none) (f : File) :
    Inv trtFileSize (prepareSynchronizeGlobally s f) := by
  rw [prepareSynchronizeGlobally]
  split
  · exact hi
  · exact list_inv hi hp f

theorem preparePairGlobally_inv (hp : s.pass = none) (l v : File) : Inv trtFileSize (preparePairGlobally s l v) := by
  rw [preparePairGlobally]
  split
  · exact hi
  · exact list_inv (list_inv hi hp v) hp l

/-- Committers move that neither write a table before nor after, and whose ids stay open or closed as they were. -/
theorem committers_inv {n : Int} {f : Nat → Committer} {p : Option (List File)} {l : List File}
    (hpend : p.getD l = pending s) (hcount : ∃ P : Finset Nat, (∀ t, t ∈ P ↔ InFlight (f t)) ∧ n = P.card)
    (hc : ∀ u, CommitterInv { s with pass := p } (f u))
    (hwr : ∀ u i, (f u).pc = .writing i ↔ (s.committer u).pc = .writing i)
    (hid : ∀ u, (f u).transactionId = (s.committer u).transactionId
      ∨ (f u).transactionId = 0 ∧ ∀ i, (s.committer u).pc ≠ .writing i)
    (hopen : ∀ u, NotEnded (f u) → (f u).transactionId ≠ 0 →
      NotEnded (s.committer u) ∧ (f u).done = (s.committer u).done)
    (hkeep : ∀ u, NotEnded (s.committer u) → (s.committer u).transactionId ≠ 0 →
      NotEnded (f u) ∧ (f u).transactionId = (s.committer u).transactionId) :
    Inv trtFileSize { s with syncCount := n, committer := f, pass := p, syncFiles := l } := by
  have hend {x : Nat} : Ended { s with syncCount := n, committer := f, pass := p, syncFiles := l } x ↔ Ended s x := by
    refine ⟨fun h => ⟨h.1, h.2.1, fun u hu hx => ?_⟩, fun h => ⟨h.1, h.2.1, fun u hu hx => ?_⟩⟩
    · obtain ⟨hf, hfid⟩ := hkeep u hu (by rw [hx]; exact Nat.pos_iff_ne_zero.mp h.1)
      exact h.2.2 u hf (hfid.trans hx)
    · have h0 : (f u).transactionId ≠ 0 := by rw [hx]; exact Nat.pos_iff_ne_zero.mp h.1
      exact h.2.2 u (hopen u hu h0).1 (((hid u).resolve_right fun h => h0 h.1).symm.trans hx)
  refine {
    counted := hcount
    committers := fun u => { hc u with }
    unique := fun u v huv h => ?_
    tables := fun i => (hi.tables i).of_committers (Nat.le_refl _) rfl rfl (fun u => hwr u i) (fun u hu => ?_)
      (fun u hu h0 hx => ?_) (fun x hx k hk => ?_)
    listed := fun g hg => ?_
    ring := hi.ring
    inRing := fun x hx => hend.mpr (hi.inRing x hx)
    kept := fun x hx => hi.kept x (hend.mp hx)
    syncedBound := hi.syncedBound }
  · rcases hid u with hu | ⟨hu, -⟩
    · rcases hid v with hv | ⟨hv, -⟩
      · exact hu.trans (hi.unique u v huv (hu.symm.trans (h.trans hv)))
      · exact h.trans hv
    · exact hu
  · exact (hid u).resolve_right fun h => h.2 i hu
  · obtain ⟨hne, hdone⟩ := hopen u hu h0
    have hsame := (hid u).resolve_right fun h => h0 h.1
    change (f u).transactionId ≠ 0 at h0
    change (f u).transactionId ∈ (s.table i).log at hx
    rw [hsame] at h0 hx
    change i ∈ (f u).done ∨ (f u).pc = .writing i
    rw [hdone, hwr u i]
    exact (hi.tables i).located u hne h0 hx
  · change Ahead _ (p.getD l)
    rw [hpend]
    exact (hi.tables i).ahead x (hend.mp hx) k hk
  · change g ∈ p.getD l
    rw [hpend]
    exact hi.listed g hg

theorem setCommitter_inv {c : Committer} {n : Int} {p : Option (List File)} (hpend : p.getD s.syncFiles = pending s)
    (hcount : ∃ P : Finset Nat, (∀ u, u ∈ P ↔ InFlight ((s.setCommitter t c).committer u)) ∧ n = P.card)
    (hc : CommitterInv { s with pass := p } c) (hother : ∀ u, u ≠ t → CommitterInv { s with pass := p } (s.committer u))
    (hold : ∀ i, (s.committer t).pc ≠ .writing i) (hnew : ∀ i, c.pc ≠ .writing i)
    (hid : c.transactionId = (s.committer t).transactionId ∨ c.transactionId = 0)
    (hopen : NotEnded c → c.transactionId ≠ 0 → NotEnded (s.committer t) ∧ c.done = (s.committer t).done)
    (hkeep : NotEnded (s.committer t) → (s.committer t).transactionId ≠ 0 →
      NotEnded c ∧ c.transactionId = (s.committer t).transactionId) :
    Inv trtFileSize { s.setCommitter t c with syncCount := n, pass := p } := by
  refine committers_inv hi hpend hcount (fun u => ?_) (fun u i => ?_) (fun u => ?_) (fun u => ?_) (fun u => ?_)
  all_goals rcases eq_or_ne u t with rfl | hu
  · rw [setCommitter_self]
    exact hc
  · rw [setCommitter_of_ne _ _ _ _ hu]
    exact hother u hu
  · rw [setCommitter_self]
    exact ⟨fun h => absurd h (hnew i), fun h => absurd h (hold i)⟩
  · rw [setCommitter_of_ne _ _ _ _ hu]
  · rw [setCommitter_self]
    exact hid.imp_right fun h => ⟨h, hold⟩
  · rw [setCommitter_of_ne _ _ _ _ hu]
    exact .inl rfl
  · rw [setCommitter_self]
    exact hopen
  · rw [setCommitter_of_ne _ _ _ _ hu]
    exact fun h _ => ⟨h, rfl⟩
  · rw [setCommitter_self]
    exact hkeep
  · rw [setCommitter_of_ne _ _ _ _ hu]
    exact fun h _ => ⟨h, rfl⟩

theorem plan_inv {acp : Bool} {tables : List Nat} (ht : (s.committer t).pc = .idle) (hn : tables.Nodup)
    (hl : acp = true → 2 ≤ tables.length) :
    Inv trtFileSize ({ s with syncCount := s.syncCount + 1 }.setCommitter t ⟨.planned, acp, 0, tables, []⟩) := by
  obtain ⟨P, hP, hcard⟩ := hi.counted
  have hnot : t ∉ P := fun h => by simpa [InFlight, NotEnded, ht] using (hP t).mp h
  refine setCommitter_inv hi (n := s.syncCount + 1) rfl ⟨insert t P, fun u => ?_, ?_⟩ ?_ (fun u _ => { hi.committers u with })
    (by simp [ht]) (by simp) (.inr rfl) (fun _ h => absurd rfl h) (fun h => by simp [NotEnded, ht] at h)
  · rcases eq_or_ne u t with rfl | hu
    · simp [InFlight, NotEnded]
    · rw [setCommitter_of_ne _ _ _ _ hu, Finset.mem_insert, hP u]
      exact or_iff_right hu
  · rw [Finset.card_insert_of_notMem hnot, hcard]
    rfl
  · have hne (h : acp = true) : tables ≠ [] := by
      rintro rfl
      exact absurd (hl h) (by decide)
    constructor <;> simp_all [NotEnded, InFlight]

theorem prepareTrt_inv (ht : (s.committer t).pc = .ended) (hp : s.pass = none) :
    Inv trtFileSize ((prepareSynchronizeGlobally s .trt).setCommitter t { s.committer t with pc := .ready }) := by
  have hcom : (prepareSynchronizeGlobally s .trt).committer = s.committer := by
    rw [prepareSynchronizeGlobally]
    split <;> rfl
  have hpass : (prepareSynchronizeGlobally s .trt).pass = none := by
    rw [prepareSynchronizeGlobally]
    split <;> exact hp
  have h₁ := prepareSynchronizeGlobally_inv hi hp .trt
  generalize prepareSynchronizeGlobally s .trt = s₁ at *
  rw [← hcom] at ht ⊢
  have hc := h₁.committers t
  obtain ⟨P, hP, hcard⟩ := h₁.counted
  refine setCommitter_inv h₁ (n := s₁.syncCount) rfl ⟨P, fun u => ?_, hcard⟩ ?_ (fun u _ => { h₁.committers u with })
    (by simp [ht]) (by simp) (.inl rfl) (fun h => by simp [NotEnded] at h) (fun h => by simp [NotEnded, ht] at h)
  · rcases eq_or_ne u t with rfl | hu
    · rw [setCommitter_self, hP u]
      simp [InFlight, ht]
    · rw [setCommitter_of_ne _ _ _ _ hu, hP u]
  · exact .of_ended (by simp [NotEnded]) (fun h => absurd hpass h) hc.unnumbered hc.bound

theorem perform_inv (hp : s.pass = none) (ht : (s.committer t).pc = .ready ∨ (s.committer t).pc = .planned
    ∧ (s.committer t).todo = [] ∧ (s.committer t).requiresACP = false) : Inv trtFileSize (perform s t) := by
  have hc := hi.committers t
  have hnw (i : Nat) : (s.committer t).pc ≠ .writing i := by
    rcases ht with h | ⟨h, -⟩ <;> simp [h]
  have hfl : InFlight (s.committer t) := by
    rcases ht with h | ⟨h, -⟩ <;> simp [InFlight, NotEnded, h]
  have hzero : NotEnded (s.committer t) → (s.committer t).transactionId = 0 := by
    intro hne
    rcases ht with h | ⟨-, -, hacp⟩
    · simp [NotEnded, h] at hne
    · exact hc.unnumbered hacp
  obtain ⟨P, hP, hcard⟩ := hi.counted
  have hmem : t ∈ P := (hP t).mpr hfl
  have hcard' : s.syncCount - 1 = ((P.erase t).card : Int) := by
    have := Finset.card_erase_add_one hmem
    omega
  have hset {pc : Pc} (hpc : pc = .waiting ∨ pc = .syncing) (u : Nat) :
      u ∈ P.erase t ↔ InFlight ((s.setCommitter t { s.committer t with pc := pc }).committer u) := by
    rcases eq_or_ne u t with rfl | hu
    · rw [setCommitter_self]
      rcases hpc with rfl | rfl <;> simp [InFlight, NotEnded]
    · rw [setCommitter_of_ne _ _ _ _ hu, Finset.mem_erase, hP u]
      exact and_iff_right hu
  rw [perform]
  split
  · rename_i h0
    -- nobody is in flight when the pass begins
    have hnone (u : Nat) (hu : u ≠ t) : ¬InFlight (s.committer u) := by
      intro h
      have hcount : (P.erase t).card = 0 := by omega
      have : u ∈ P.erase t := Finset.mem_erase.mpr ⟨hu, (hP u).mpr h⟩
      rw [Finset.card_eq_zero.mp hcount] at this
      exact absurd this (Finset.notMem_empty u)
    refine setCommitter_inv hi (n := s.syncCount - 1) (p := some s.syncFiles) (by simp [pending, hp])
      ⟨P.erase t, hset (.inr rfl), hcard'⟩ ?_ (fun u hu => ?_) hnw (by simp) (.inl rfl) (fun h => by simp [NotEnded] at h)
      (fun h h0 => absurd (hzero h) h0)
    · exact .of_ended (by simp [NotEnded]) (fun _ => by simp [InFlight, NotEnded]) hc.unnumbered hc.bound
    · exact { hi.committers u with
        abovePass := fun _ h => absurd (.inl h) (hnone u hu)
        passing := fun _ h => absurd h (hnone u hu) }
  · refine setCommitter_inv hi (n := s.syncCount - 1) rfl ⟨P.erase t, hset (.inl rfl), hcard'⟩ ?_
      (fun u hu => { hi.committers u with }) hnw (by simp) (.inl rfl) (fun h => by simp [NotEnded] at h)
      (fun h h0 => absurd (hzero h) h0)
    exact .of_ended (by simp [NotEnded]) (fun _ => by simp [InFlight, NotEnded]) hc.unnumbered hc.bound

theorem finishPass_inv (hp : s.pass = some []) : Inv trtFileSize (finishPass s) := by
  have hquiet {u : Nat} (h : (s.committer u).pc = .waiting ∨ (s.committer u).pc = .syncing) :
      ¬InFlight (s.committer u) ∧ ∀ i, (s.committer u).pc ≠ .writing i := by
    rcases h with h | h <;> simp [InFlight, NotEnded, h]
  have hidle (c : Committer) : ¬InFlight { c with pc := .idle } := by simp [InFlight, NotEnded]
  obtain ⟨P, hP, hcard⟩ := hi.counted
  refine committers_inv hi (n := s.syncCount) (p := none) (l := []) (by simp [pending, hp]) ⟨P, fun u => ?_, hcard⟩
    (fun u => ?_) (fun u i => ?_) (fun u => ?_) (fun u => ?_) (fun u => ?_)
  all_goals
    dsimp only
    split
  · rename_i h
    exact (hP u).trans (iff_of_false (hquiet h).1 (hidle _))
  · exact hP u
  · exact .of_ended (fun h => hidle _ (.inl h)) (fun _ => hidle _) (hi.committers u).unnumbered (hi.committers u).bound
  · exact { hi.committers u with
      abovePass := fun h => absurd rfl h
      passing := fun h => absurd rfl h }
  · rename_i h
    exact iff_of_false (by simp) ((hquiet h).2 i)
  · exact Iff.rfl
  · exact .inl rfl
  · exact .inl rfl
  · exact fun h => absurd (.inl h) (hidle _)
  · exact fun h _ => ⟨h, rfl⟩
  · rename_i h
    exact fun hne => absurd (.inl hne) (hquiet h).1
  · exact fun h _ => ⟨h, rfl⟩

/-- With an end record its own id ends, and nothing else. -/
theorem ended_writeEnd (h0 : (s.committer t).transactionId ≠ 0) :
    Ended (writeEnd trtFileSize s t) x ↔ Ended s x ∨ x = (s.committer t).transactionId := by
  constructor
  · intro ⟨hpos, hle, hx⟩
    rcases eq_or_ne x (s.committer t).transactionId with rfl | hne
    · exact .inr rfl
    · refine .inl ⟨hpos, hle, fun u hu hxu => ?_⟩
      have hut : u ≠ t := fun h => hne (h ▸ hxu.symm)
      have hsame : (writeEnd trtFileSize s t).committer u = s.committer u := setCommitter_of_ne _ _ _ _ hut
      exact hx u (hsame ▸ hu) (hsame ▸ hxu)
  · have hopen {u : Nat} (hu : NotEnded ((writeEnd trtFileSize s t).committer u)) :
        u ≠ t ∧ (writeEnd trtFileSize s t).committer u = s.committer u := by
      have hut : u ≠ t := by
        rintro rfl
        rw [writeEnd, setCommitter_self] at hu
        simp [NotEnded] at hu
      exact ⟨hut, setCommitter_of_ne _ _ _ _ hut⟩
    rintro (⟨hpos, hle, hx⟩ | rfl)
    · refine ⟨hpos, hle, fun u hu => ?_⟩
      have hsame := (hopen hu).2
      rw [hsame] at hu ⊢
      exact hx u hu
    · refine ⟨Nat.pos_of_ne_zero h0, (hi.committers t).bound, fun u hu hxu => ?_⟩
      rw [(hopen hu).2] at hxu
      exact h0 (hxu ▸ hi.unique u t (hopen hu).1 hxu)

/-- The ring after an end record, if the id written over is below all that stay. -/
theorem ring_writeEnd
    (hover : ∀ x ∈ s.trt[s.trtNext]?, ∀ y ∈ (s.committer t).transactionId :: s.trt.eraseIdx s.trtNext, x < y) :
    ((writeEnd trtFileSize s t).trtNext ≤ (writeEnd trtFileSize s t).trt.length
      ∧ 8 * (writeEnd trtFileSize s t).trtNext ≤ trtFileSize
      ∧ ((writeEnd trtFileSize s t).trtNext < (writeEnd trtFileSize s t).trt.length →
        trtFileSize < 8 * (writeEnd trtFileSize s t).trt.length))
    ∧ ∀ x, Ended s x ∨ x = (s.committer t).transactionId → x ∈ (writeEnd trtFileSize s t).trt
      ∨ trtFileSize < 8 * (writeEnd trtFileSize s t).trt.length ∧ ∀ y ∈ (writeEnd trtFileSize s t).trt, x < y := by
  obtain ⟨hlen, hnext, hfull⟩ := hi.ring
  have htrt : (writeEnd trtFileSize s t).trt
    = s.trt.take s.trtNext ++ (s.committer t).transactionId :: s.trt.drop (s.trtNext + 1) := rfl
  have hl : (writeEnd trtFileSize s t).trt.length = max (s.trtNext + 1) s.trt.length := by rw [htrt, length_ring hlen]
  have hn : (writeEnd trtFileSize s t).trtNext = if 8 * (s.trtNext + 1) > trtFileSize then 0 else s.trtNext + 1 := rfl
  refine ⟨by rw [hn, hl]; split <;> omega, ?_⟩
  -- an id that is written over, or was before
  have hlost {x z : Nat} (hz : s.trt[s.trtNext]? = some z) (hxz : x ≤ z) :
      trtFileSize < 8 * (writeEnd trtFileSize s t).trt.length ∧ ∀ y ∈ (writeEnd trtFileSize s t).trt, x < y := by
    have hlt : s.trtNext < s.trt.length := (List.getElem?_eq_some_iff.mp hz).1
    refine ⟨by omega, fun y hy => Nat.lt_of_le_of_lt hxz (hover z hz y ?_)⟩
    rw [htrt] at hy
    rw [eraseIdx_eq_take_drop_succ]
    simpa [or_left_comm] using hy
  rintro x (hx | rfl)
  · rcases hi.kept x hx with hmem | ⟨hbig, hlow⟩
    · refine (mem_ring_of_mem (s.committer t).transactionId hmem).imp_right fun hz => hlost hz (Nat.le_refl x)
    · have hlt : s.trtNext < s.trt.length := by omega
      exact .inr (hlost (List.getElem?_eq_getElem hlt) (Nat.le_of_lt (hlow _ (getElem_mem hlt))))
  · rw [htrt]
    exact .inl (mem_append_right _ mem_cons_self)

theorem writeEnd_inv (ht : (s.committer t).pc = .planned) (htodo : (s.committer t).todo = [])
    (hacp : (s.committer t).requiresACP = true) (hok : EndSafe s (.writeEnd t)) :
    Inv trtFileSize (writeEnd trtFileSize s t) := by
  have hc := hi.committers t
  have hdone : (s.committer t).done ≠ [] := fun h => hc.several (.inl ht) hacp h htodo
  have h0 := hc.numbered (.inl ht) hacp (.inl hdone)
  have hpass : s.pass = none := by
    by_contra h
    exact hdone (hc.passing h (.inl (.inl ht))).2
  have hself : (writeEnd trtFileSize s t).committer t = { s.committer t with pc := .ended } := setCommitter_self ..
  have hother {u : Nat} (hu : u ≠ t) : (writeEnd trtFileSize s t).committer u = s.committer u :=
    setCommitter_of_ne _ _ _ _ hu
  have hid (u : Nat) : ((writeEnd trtFileSize s t).committer u).transactionId = (s.committer u).transactionId := by
    rcases eq_or_ne u t with rfl | hu
    · rw [hself]
    · rw [hother hu]
  have hend {x : Nat} := ended_writeEnd hi (t := t) h0 (x := x)
  obtain ⟨hring, hkept⟩ := ring_writeEnd hi hok.2
  obtain ⟨P, hP, hcard⟩ := hi.counted
  refine {
    counted := ⟨P, fun u => ?_, hcard⟩
    committers := fun u => ?_
    unique := fun u v huv h => ?_
    tables := fun i => (hi.tables i).of_committers (Nat.le_refl _) rfl rfl (fun u => ?_) (fun u _ => hid u)
      (fun u hu hu0 hx => ?_) (fun x hx k hk => ?_)
    listed := hi.listed
    ring := hring
    inRing := fun x hx => hend.mpr ((mem_ring hx).symm.imp_left (hi.inRing x))
    kept := fun x hx => hkept x (hend.mp hx)
    syncedBound := hi.syncedBound }
  · rcases eq_or_ne u t with rfl | hu
    · rw [hself, hP u]
      simp [InFlight, NotEnded, ht]
    · rw [hother hu, hP u]
  · rcases eq_or_ne u t with rfl | hu
    · rw [hself]
      exact .of_ended (by simp [NotEnded]) (fun h => absurd hpass h) hc.unnumbered hc.bound
    · rw [hother hu]
      exact { hi.committers u with abovePass := fun h => absurd hpass h }
  · rw [hid] at h ⊢
    exact hi.unique u v huv (h.trans (hid v))
  · rcases eq_or_ne u t with rfl | hu
    · rw [hself, ht]
      simp
    · rw [hother hu]
  · rcases eq_or_ne u t with rfl | hut
    · rw [hself] at hu
      simp [NotEnded] at hu
    · rw [hother hut] at hu hu0 hx ⊢
      exact (hi.tables i).located u hu hu0 hx
  · rcases hend.mp hx with hx | rfl
    · exact (hi.tables i).ahead x hx k hk
    · have hmem : i ∈ (s.committer t).done := by
        refine ((hi.tables i).located t (.inl ht) h0 (mem_of_mem_drop hk)).resolve_right fun hw => ?_
        rw [ht] at hw
        cases hw
      have hahead := hok.1 i hmem k (by cases k <;> simp) hk
      have hpend : pending (writeEnd trtFileSize s t) = s.syncFiles := by
        rw [pending, show (writeEnd trtFileSize s t).pass = none from hpass]
        rfl
      rw [hpend]
      exact hahead

/-- A table is locked, with an id that is the committer's or drawn for it. -/
theorem writing_inv {n : Nat} {rest : List Nat} (ht : (s.committer t).pc = .planned)
    (htodo : (s.committer t).todo = i :: rest) (hown : (s.table i).owner = none)
    (hx : n = s.sequence ∧ x = (s.committer t).transactionId
      ∨ n = s.sequence + 1 ∧ x = s.sequence + 1 ∧ (s.committer t).requiresACP = true ∧ (s.committer t).transactionId = 0)
    (h0 : (s.committer t).requiresACP = true → x ≠ 0) :
    Inv trtFileSize (({ s with sequence := n }.setCommitter t
      { s.committer t with pc := .writing i, transactionId := x }).setTable i { s.table i with owner := some t }) := by
  set s' := ({ s with sequence := n }.setCommitter t
    { s.committer t with pc := .writing i, transactionId := x }).setTable i { s.table i with owner := some t } with hs'
  have hc := hi.committers t
  have hne : NotEnded (s.committer t) := .inl ht
  have hself : s'.committer t = { s.committer t with pc := .writing i, transactionId := x } := setCommitter_self ..
  have hother {u : Nat} (hu : u ≠ t) : s'.committer u = s.committer u := setCommitter_of_ne _ _ _ _ hu
  have hle : s.sequence ≤ n := by omega
  have hbound : (s.committer t).transactionId ≤ s.sequence := hc.bound
  have hend {y : Nat} : Ended s' y ↔ Ended s y := by
    constructor
    · intro ⟨hpos, hy, hall⟩
      have hty : x ≠ y := by
        have := hall t (by rw [hself]; exact .inr ⟨i, rfl⟩)
        rwa [hself] at this
      change y ≤ n at hy
      refine ⟨hpos, by omega, fun u hu huy => ?_⟩
      rcases eq_or_ne u t with rfl | hut
      · omega
      · exact hall u (by rwa [hother hut]) (by rwa [hother hut])
    · intro ⟨hpos, hy, hall⟩
      have hty := hall t hne
      refine ⟨hpos, Nat.le_trans hy hle, fun u hu => ?_⟩
      rcases eq_or_ne u t with rfl | hut
      · rw [hself]
        change x ≠ y
        omega
      · rw [hother hut] at hu ⊢
        exact hall u hu
  -- what is below the sequence number, or below the committer's id, is below the id
  have hfresh {j : Nat} (hj : x ≠ 0) (hmem : x ∈ (s.table j).log) : j ∈ (s.committer t).done := by
    have hb := (hi.tables j).bound x hmem
    have hxt : x = (s.committer t).transactionId := by omega
    subst hxt
    refine ((hi.tables j).located t hne hj hmem).resolve_right fun h => ?_
    rw [ht] at h
    cases h
  have hnew : i ∉ (s.committer t).done := (hc.once hne).2 i (by rw [htodo]; exact mem_cons_self)
  obtain ⟨P, hP, hcard⟩ := hi.counted
  refine {
    counted := ⟨P, fun u => ?_, hcard⟩
    committers := fun u => ?_
    unique := fun u v huv h => ?_
    tables := fun j => ?_
    listed := hi.listed
    ring := hi.ring
    inRing := fun y hy => hend.mpr (hi.inRing y hy)
    kept := fun y hy => hi.kept y (hend.mp hy)
    syncedBound := fun y hy => (hi.syncedBound y hy).imp_right (Nat.le_trans · hle) }
  · rcases eq_or_ne u t with rfl | hu
    · rw [hself, hP u]
      simp [InFlight, NotEnded, ht]
    · rw [hother hu, hP u]
  · rcases eq_or_ne u t with rfl | hu
    · rw [hself]
      exact {
        atHead := fun j hj => ⟨rest, by cases hj; exact htodo⟩
        once := fun _ => hc.once hne
        several := fun _ _ _ => by
          rw [htodo]
          exact cons_ne_nil _ _
        unnumbered := fun h => by
          rcases hx with ⟨-, hx⟩ | ⟨-, -, hacp, -⟩
          · exact hx.trans (hc.unnumbered h)
          · exact absurd (h.symm.trans hacp) Bool.false_ne_true
        numbered := fun _ h _ => h0 h
        bound := by
          change x ≤ n
          omega
        above := fun _ hx0 y hy => by
          have := (hi.syncedBound y hy).2
          rcases hx with ⟨-, rfl⟩ | ⟨-, rfl, -⟩
          · exact hc.above hne hx0 y hy
          · exact Nat.lt_succ_of_le this
        abovePass := fun hp _ hx0 y hy => by
          have := (hi.inRing y hy).2.1
          rcases hx with ⟨-, rfl⟩ | ⟨-, rfl, -⟩
          · exact hc.abovePass hp hne hx0 y hy
          · exact Nat.lt_succ_of_le this
        passing := fun hp _ => ⟨.inr ⟨i, rfl⟩, (hc.passing hp (.inl hne)).2⟩ }
    · rw [hother hu]
      exact { hi.committers u with bound := Nat.le_trans (hi.committers u).bound hle }
  · have hu := (hi.committers u).bound
    have hv := (hi.committers v).bound
    rcases eq_or_ne u t with rfl | hut
    · rw [hself, hother huv.symm] at h
      rw [hself]
      change x = _ at h
      change x = 0
      have := hi.unique u v huv
      omega
    · rcases eq_or_ne v t with rfl | hvt
      · rw [hself, hother huv] at h
        rw [hother huv]
        change _ = x at h
        have := hi.unique u v huv
        omega
      · rw [hother hut, hother hvt] at h
        rw [hother hut]
        exact hi.unique u v huv h
  · have hloc (u : Nat) (hu : NotEnded (s'.committer u)) (hu0 : (s'.committer u).transactionId ≠ 0)
        (hmem : (s'.committer u).transactionId ∈ (s.table j).log) :
        j ∈ (s'.committer u).done ∨ (s'.committer u).pc = .writing j := by
      rcases eq_or_ne u t with rfl | hut
      · rw [hself] at hu0 hmem ⊢
        exact .inl (hfresh hu0 hmem)
      · rw [hother hut] at hu hu0 hmem ⊢
        exact (hi.tables j).located u hu hu0 hmem
    rcases eq_or_ne j i with rfl | hji
    · have hnot {u : Nat} : (s.table j).owner ≠ some u := by simp [hown]
      have h := hi.tables j
      rw [hs', setTable_self]
      exact { h with
        owned := fun u => by
          change (s'.committer u).pc = _ ↔ _
          rcases eq_or_ne u t with rfl | hut
          · simp [hself]
          · rw [hother hut]
            exact iff_of_false (fun hw => hnot ((h.owned u).mp hw)) fun heq => hut (Option.some.inj heq).symm
        bound := fun y hy => Nat.le_trans (h.bound y hy) hle
        located := hloc
        atTail := fun u hu hu0 => by
          change (s'.committer u).transactionId ≠ 0 at hu0
          change (s.table j).log.Pairwise fun a b => a = (s'.committer u).transactionId → b = (s'.committer u).transactionId
          obtain rfl := Option.some.inj hu
          rw [hself] at hu0 ⊢
          refine pairwise_of_forall_mem_list fun a ha b _ hax => ?_
          change a = x at hax
          exact absurd (hfresh hu0 (hax ▸ ha)) hnew
        unflushed := fun k y hy => by
          obtain ⟨u, hu, -⟩ := h.unflushed k y hy
          exact absurd hu hnot
        unsynced := fun k y hy => (h.unsynced k y hy).imp_right fun ⟨u, hu, _⟩ => absurd hu hnot
        ahead := fun y hy => h.ahead y (hend.mp hy) }
    · rw [hs', setTable_of_ne _ _ _ _ hji]
      refine (hi.tables j).of_committers hle rfl rfl (fun u => ?_) (fun u hu => ?_) hloc
        fun y hy => (hi.tables j).ahead y (hend.mp hy)
      · change (s'.committer u).pc = _ ↔ _
        rcases eq_or_ne u t with rfl | hut
        · rw [hself, ht]
          exact iff_of_false (fun h => hji (Pc.writing.inj h).symm) (by simp)
        · rw [hother hut]
      · change (s'.committer u).transactionId = _
        have hut : u ≠ t := by
          rintro rfl
          rw [ht] at hu
          cases hu
        rw [hother hut]

theorem lock_inv {rest : List Nat} (ht : (s.committer t).pc = .planned)
    (htodo : (s.committer t).todo = i :: rest) (hown : (s.table i).owner = none) :
    Inv trtFileSize (lock s t (s.committer t) i) := by
  rw [lock]
  split
  · rename_i h
    exact writing_inv hi ht htodo hown (.inr ⟨rfl, rfl, h⟩) fun _ => Nat.succ_ne_zero _
  · rename_i h
    exact writing_inv hi (n := s.sequence) ht htodo hown (.inl ⟨rfl, rfl⟩) fun hacp h0 => h ⟨hacp, h0⟩

/-- A table is left when its files are flushed and marked. -/
theorem release_inv (ht : (s.committer t).pc = .writing i) (hp : s.pass = none) (hf : Flushed (s.table i))
    (hmark : ∀ k, s.syncable (.log k i (s.table i).gen) = true) :
    Inv trtFileSize ((s.setTable i { s.table i with owner := none }).setCommitter t { s.committer t with
      pc := .planned, todo := (s.committer t).todo.tail, done := i :: (s.committer t).done }) := by
  set s' := (s.setTable i { s.table i with owner := none }).setCommitter t { s.committer t with
    pc := .planned, todo := (s.committer t).todo.tail, done := i :: (s.committer t).done } with hs'
  have hc := hi.committers t
  have hne : NotEnded (s.committer t) := .inr ⟨i, ht⟩
  have hself : s'.committer t = { s.committer t with
    pc := .planned, todo := (s.committer t).todo.tail, done := i :: (s.committer t).done } := setCommitter_self ..
  have hother {u : Nat} (hu : u ≠ t) : s'.committer u = s.committer u := setCommitter_of_ne _ _ _ _ hu
  have hid (u : Nat) : (s'.committer u).transactionId = (s.committer u).transactionId := by
    rcases eq_or_ne u t with rfl | hu
    · rw [hself]
    · rw [hother hu]
  have hopen (u : Nat) : NotEnded (s'.committer u) ↔ NotEnded (s.committer u) := by
    rcases eq_or_ne u t with rfl | hu
    · rw [hself]
      exact iff_of_true (.inl rfl) hne
    · rw [hother hu]
  have hend {x : Nat} : Ended s' x ↔ Ended s x := by
    refine and_congr_right fun _ => and_congr_right fun _ => forall_congr' fun u => ?_
    rw [hopen u, hid u]
  obtain ⟨rest, htodo⟩ := hc.atHead i ht
  have honce := hc.once hne
  rw [htodo, nodup_cons] at honce
  obtain ⟨P, hP, hcard⟩ := hi.counted
  refine {
    counted := ⟨P, fun u => ?_, hcard⟩
    committers := fun u => ?_
    unique := fun u v huv h => ?_
    tables := fun j => ?_
    listed := hi.listed
    ring := hi.ring
    inRing := fun x hx => hend.mpr (hi.inRing x hx)
    kept := fun x hx => hi.kept x (hend.mp hx)
    syncedBound := hi.syncedBound }
  · rcases eq_or_ne u t with rfl | hu
    · rw [hself, hP u]
      simp [InFlight, NotEnded, ht]
    · rw [hother hu, hP u]
  · rcases eq_or_ne u t with rfl | hu
    · rw [hself]
      exact {
        atHead := fun j hj => by cases hj
        once := fun _ => by
          change (s.committer u).todo.tail.Nodup ∧ ∀ j ∈ (s.committer u).todo.tail, j ∉ i :: (s.committer u).done
          rw [htodo]
          refine ⟨honce.1.2, fun j hj hmem => ?_⟩
          rcases mem_cons.mp hmem with rfl | hmem
          · exact honce.1.1 hj
          · exact honce.2 j (mem_cons_of_mem _ hj) hmem
        several := fun _ _ h => absurd h (cons_ne_nil _ _)
        unnumbered := hc.unnumbered
        numbered := fun _ h _ => hc.numbered hne h (.inr ⟨i, ht⟩)
        bound := hc.bound
        above := fun _ => hc.above hne
        abovePass := fun h => absurd hp h
        passing := fun h => absurd hp h }
    · rw [hother hu]
      exact { hi.committers u with }
  · rw [hid, hid] at h
    rw [hid]
    exact hi.unique u v huv h
  · have h := hi.tables j
    have hloc (u : Nat) (hu : NotEnded (s'.committer u)) (hu0 : (s'.committer u).transactionId ≠ 0)
        (hmem : (s'.committer u).transactionId ∈ (s.table j).log) :
        j ∈ (s'.committer u).done ∨ (s'.committer u).pc = .writing j := by
      rw [hid] at hu0 hmem
      have := h.located u ((hopen u).mp hu) hu0 hmem
      rcases eq_or_ne u t with rfl | hut
      · rw [hself]
        rcases this with hd | hw
        · exact .inl (mem_cons_of_mem _ hd)
        · obtain rfl := Pc.writing.inj (ht.symm.trans hw)
          exact .inl mem_cons_self
      · rwa [hother hut]
    rcases eq_or_ne j i with rfl | hji
    · have hown := (h.owned t).mp ht
      change TableInv s' j ((s.setTable j _).table j)
      rw [setTable_self]
      exact { h with
        owned := fun u => by
          rcases eq_or_ne u t with rfl | hut
          · simp [hself]
          · rw [hother hut]
            refine iff_of_false (fun hw => hut ?_) (by simp)
            exact Option.some.inj (((h.owned u).mp hw).symm.trans hown)
        located := hloc
        atTail := fun u hu => by cases hu
        unflushed := fun k x hx => by
          have : (s.table j).flushed k = (s.table j).log.length := by cases k <;> simp [hf.1, hf.2]
          change x ∈ (s.table j).log.drop ((s.table j).flushed k) at hx
          rw [this, drop_length] at hx
          exact absurd hx not_mem_nil
        unsynced := fun k x _ => .inl (hmark k)
        ahead := fun x hx => h.ahead x (hend.mp hx) }
    · change TableInv s' j ((s.setTable i _).table j)
      rw [setTable_of_ne _ _ _ _ hji]
      refine h.of_committers (Nat.le_refl _) rfl rfl (fun u => ?_) (fun u _ => hid u) hloc fun x hx => h.ahead x (hend.mp hx)
      rcases eq_or_ne u t with rfl | hut
      · rw [hself, ht]
        exact iff_of_false (by simp) fun hw => hji (Pc.writing.inj hw).symm
      · rw [hother hut]

theorem prepare_inv (ht : (s.committer t).pc = .writing i) (hp : s.pass = none) (hf : Flushed (s.table i)) :
    Inv trtFileSize (prepare s t i) := by
  have h₁ := preparePairGlobally_inv hi hp (.log .lrt i (s.table i).gen) (.log .vrt i (s.table i).gen)
  have hframe : (preparePairGlobally s (.log .lrt i (s.table i).gen) (.log .vrt i (s.table i).gen)).committer = s.committer
      ∧ (preparePairGlobally s (.log .lrt i (s.table i).gen) (.log .vrt i (s.table i).gen)).table = s.table
      ∧ (preparePairGlobally s (.log .lrt i (s.table i).gen) (.log .vrt i (s.table i).gen)).pass = s.pass := by
    rw [preparePairGlobally]
    split <;> exact ⟨rfl, rfl, rfl⟩
  have hmark (k : Kind) : (preparePairGlobally s (.log .lrt i (s.table i).gen) (.log .vrt i (s.table i).gen)).syncable
      (.log k i (s.table i).gen) = true := by
    rw [preparePairGlobally]
    split
    · rename_i h
      cases k
      · exact h.1
      · exact h.2
    · cases k <;> simp [list]
  rw [prepare]
  generalize preparePairGlobally s (.log .lrt i (s.table i).gen) (.log .vrt i (s.table i).gen) = s₁ at *
  obtain ⟨hcom, htab, hpass⟩ := hframe
  rw [← htab] at hf hmark ⊢
  rw [← hcom] at ht ⊢
  exact release_inv h₁ ht (hpass.trans hp) hf hmark

end Steps

variable {trtFileSize : Nat}

theorem step_inv {s' : St} {e : Ev} (hi : Inv trtFileSize s) (hok : EndSafe s e)
    (h : step trtFileSize s e = some s') : Inv trtFileSize s' := by
  cases e with
  | plan t acp tables =>
    obtain ⟨⟨ht, hn, hl⟩, ⟨⟩⟩ := ite_none_right_eq_some.mp h
    exact plan_inv hi ht hn hl
  | lock t =>
    simp only [step] at h
    split at h
    · obtain ⟨hown, ⟨⟩⟩ := ite_none_right_eq_some.mp h
      exact lock_inv hi ‹_› ‹_› hown
    · cases h
  | write t =>
    simp only [step] at h
    split at h
    · cases h
      exact write_inv hi ‹_›
    · cases h
  | flush t k n =>
    simp only [step] at h
    split at h
    · obtain ⟨⟨hn, hl⟩, ⟨⟩⟩ := ite_none_right_eq_some.mp h
      exact flush_inv hi hn hl
    · cases h
  | rotate t =>
    simp only [step] at h
    split at h
    · obtain ⟨⟨-, hf⟩, ⟨⟩⟩ := ite_none_right_eq_some.mp h
      exact nextRealTime_inv hi hf
    · cases h
  | prepare t =>
    simp only [step] at h
    split at h
    · obtain ⟨⟨hp, hf⟩, ⟨⟩⟩ := ite_none_right_eq_some.mp h
      exact prepare_inv hi ‹_› hp hf
    · cases h
  | writeEnd t =>
    obtain ⟨⟨ht, htodo, hacp⟩, ⟨⟩⟩ := ite_none_right_eq_some.mp h
    exact writeEnd_inv hi ht htodo hacp hok
  | prepareTrt t =>
    obtain ⟨⟨ht, hp⟩, ⟨⟩⟩ := ite_none_right_eq_some.mp h
    exact prepareTrt_inv hi ht hp
  | perform t =>
    obtain ⟨⟨hp, ht⟩, ⟨⟩⟩ := ite_none_right_eq_some.mp h
    exact perform_inv hi hp ht
  | sync =>
    simp only [step] at h
    split at h
    · cases h
      exact syncTurn_inv hi ‹_›
    · cases h
  | finish t =>
    obtain ⟨⟨hp, -⟩, ⟨⟩⟩ := ite_none_right_eq_some.mp h
    exact finishPass_inv hi hp

theorem inv (h : Reach (step trtFileSize) EndSafe init s) : Inv trtFileSize s :=
  h.inv (P := Inv trtFileSize) (init_inv trtFileSize) step_inv

/-! ## What recovery applies -/

theorem completed_iff {entries : List Nat} : completed entries x = true ↔ x = 0 ∨ Complete entries x := by
  rcases eq_or_ne entries [] with rfl | hne
  · simp [completed, getMinimumTransaction, transactionCompleted, Complete]
  · obtain ⟨m, hm⟩ := Option.ne_none_iff_exists'.mp (mt List.min?_eq_none_iff.mp hne)
    obtain ⟨hmem, hle⟩ := List.min?_eq_some_iff.mp hm
    have hlow : x < m ↔ ∀ y ∈ entries, x < y :=
      ⟨fun h y hy => Nat.lt_of_lt_of_le h (hle y hy), fun h => h m hmem⟩
    simp only [completed, getMinimumTransaction, hm, getD_some, transactionCompleted, Complete, ← hlow]
    simp [hne]
    tauto

/-- When whatever stands ahead of a replayed record is replayed too, all of it that is in the list is replayed. -/
theorem count_takeWhile {p : Nat → Bool} (hx : p x = true)
    (h : l.Pairwise fun a b => b = x → p a = true) : (l.takeWhile p).count x = l.count x := by
  induction l with
  | nil => rfl
  | cons a l ih =>
    obtain ⟨ha, hl⟩ := pairwise_cons.mp h
    by_cases hp : p a = true
    · rw [takeWhile_cons_of_pos hp, count_cons, count_cons, ih hl]
    · rw [takeWhile_cons_of_neg hp]
      refine (count_eq_zero.mpr fun hmem => ?_).symm
      rcases mem_cons.mp hmem with rfl | hmem
      · exact hp hx
      · exact hp (ha x hmem rfl)

/-- The group of a completed transaction survives in every table. -/
theorem count_surviving (hi : Inv trtFileSize s) (h0 : x ≠ 0)
    (hx : Complete s.trtSynced x) (i : Nat) : (surviving (s.table i)).count x = (s.table i).log.count x := by
  have hdrop : x ∉ (s.table i).log.drop (min ((s.table i).synced .lrt) ((s.table i).synced .vrt)) := by
    rcases Nat.le_total ((s.table i).synced .lrt) ((s.table i).synced .vrt) with h | h
    · rw [Nat.min_eq_left h]
      exact (hi.tables i).durable x h0 hx .lrt
    · rw [Nat.min_eq_right h]
      exact (hi.tables i).durable x h0 hx .vrt
  have hsplit := congrArg (List.count x)
    (take_append_drop (min ((s.table i).synced .lrt) ((s.table i).synced .vrt)) (s.table i).log)
  rw [count_append, count_eq_zero.mpr hdrop] at hsplit
  exact hsplit

theorem count_recoveryRead (hi : Inv trtFileSize s) (h0 : x ≠ 0)
    (hx : Complete s.trtSynced x) (i : Nat) : (recoveryRead s i).count x = (s.table i).log.count x := by
  rw [← count_surviving hi h0 hx i]
  refine count_takeWhile (completed_iff.mpr (.inr hx)) ?_
  refine ((hi.tables i).ordered.imp fun hab hb => ?_).sublist (take_sublist _ _)
  subst hb
  exact completed_iff.mpr (hab h0 hx)

/-- Two rounds. The pass of the second has synced the logs of its transaction, in table 1 behind the first one's. -/
def roundsTrace : List Ev :=
  [.plan 1 true [1, 2]] ++ commitTable 1 1 ++ commitTable 1 1 ++ [.writeEnd 1, .prepareTrt 1, .perform 1]
    ++ List.replicate 5 .sync ++ [.finish 1, .plan 2 true [1, 3]] ++ commitTable 2 2 ++ commitTable 2 1
    ++ [.writeEnd 2, .prepareTrt 2, .perform 2] ++ List.replicate 5 .sync

end DeepFabric.Sync.AtomicCommit
