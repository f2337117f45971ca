/-
  DeepFabric.Sync.EndRecords — which transactions the file deep.trt says have completed, over any runs
  and restarts (core/RealTimeAtomic.h; the ACP check of recoveryRead in core/RealTimeProtocol_v1_1.h).

  A transaction over several tables draws an id, tags its records in the logs with it and writes it to
  deep.trt when all its tables are written. "A series of transactionIds in ascending order" is what
  the file is meant to hold: the recovery takes an id that is missing as complete if it is below all
  others, as one that was written over. But ids are written as transactions end. After a restart the
  first commit takes the largest id of the file, and makes the file anew.

  Transactions are named by the order in which they drew their ids, since an id can be drawn twice.
  `logged` are those with a record in some table's log. A file that does not exist yet is an empty one:
  no transaction has drawn an id before it is made. Ids are 64-bit and do not come to their end.

  - `judged_wrongly`: two transactions that end out of order; a file of two ids in which the larger one
    is written over; and a restart after which the file is empty and an id is drawn again.
-/
import DeepFabric.Sync.AtomicCommit

namespace DeepFabric.Sync.EndRecords

open DeepFabric.Lib.Run Option Function
open AtomicCommit (getMinimumTransaction transactionCompleted)
open Finset (mem_insert notMem_empty)

structure St where
  /-- The ids in deep.trt, and the position the next one goes to. -/
  trt : List Nat
  trtNext : Nat
  /-- The sequence of the instance that writes, once the process has one. -/
  sequence : Option Nat
  id : Nat → Nat
  drawn : Nat
  /-- The transactions of the process that runs now. -/
  running : Finset Nat
  logged : Finset Nat
  ended : Finset Nat

def init : St := ⟨[], 0, none, fun _ => 0, 0, ∅, ∅, ∅⟩

/-- entries->last(), 0 of an empty set. -/
def getMaximumTransaction (entries : List Nat) : Nat := entries.max?.getD 0

def writeEndTransaction (trtFileSize : Nat) (s : St) (transactionId : Nat) : St :=
  { s with
    trt := s.trt.take s.trtNext ++ transactionId :: s.trt.drop (s.trtNext + 1)
    trtNext := if 8 * (s.trtNext + 1) > trtFileSize then 0 else s.trtNext + 1 }

inductive Ev where
  /-- The first getInstance(WRITE) of a process: the sequence behind the largest id, and an empty file. -/
  | getInstance
  | getTransactionId
  /-- A record of the transaction is written to a table's log. -/
  | log (n : Nat)
  | writeEnd (n : Nat)
  /-- The last log with a record of the transaction is gone. -/
  | purge (n : Nat)
  | restart
  deriving DecidableEq, Repr

def step (trtFileSize : Nat) (s : St) : Ev → Option St
  | .getInstance =>
    if s.sequence = none then
      some { s with trt := [], trtNext := 0, sequence := some (getMaximumTransaction s.trt + 1) }
    else none
  | .getTransactionId => s.sequence.map fun q =>
    { s with
      sequence := some (q + 1)
      id := Function.update s.id s.drawn (q + 1)
      drawn := s.drawn + 1
      running := insert s.drawn s.running }
  | .log n => if n ∈ s.running ∧ n ∉ s.ended then some { s with logged := insert n s.logged } else none
  | .writeEnd n =>
    if n ∈ s.running ∧ n ∉ s.ended then
      some { writeEndTransaction trtFileSize s (s.id n) with ended := insert n s.ended }
    else none
  | .purge n => some { s with logged := s.logged.erase n }
  | .restart => some { s with sequence := none, running := ∅ }

/-- The ACP check finds that the transaction did not complete. -/
def incomplete (entries : List Nat) (transactionId : Nat) : Bool :=
  transactionId ≥ getMinimumTransaction entries && !transactionCompleted entries transactionId

/-- The verdict on every id in a log is right, and the ids to come are above all that were ever in the file. -/
def Right (s : St) : Prop :=
  (∀ n ∈ s.logged, incomplete s.trt (s.id n) = true ↔ n ∉ s.ended) ∧ ∀ q ∈ s.sequence, ∀ n ∈ s.ended, s.id n ≤ q

instance (s : St) : Decidable (Right s) := inferInstanceAs (Decidable (_ ∧ _))

/-- The ids that stay in the file when the next one is written. -/
def kept (s : St) : List Nat := s.trt.eraseIdx s.trtNext

/-- The condition on a step, in the state before it.
    - An end record: of the transactions in a log, those that have ended stay in the file or are below all that is then in it, and
      those that have not have another id, and one that is above a smaller one.
    - A first record in a log: the file has a smaller id, or none at all.
    - A file made anew: no log has a transaction that has ended, and no id was ever recorded that is two above all in the file. -/
def EndSafe (s : St) : Ev → Prop
  | .writeEnd n =>
    (∀ m ∈ s.logged, m ∈ s.ended → s.id m ∈ kept s ∨ ∀ y ∈ s.id n :: kept s, s.id m < y) ∧
      ∀ m ∈ s.logged, m ∉ s.ended → m ≠ n → s.id m ≠ s.id n ∧ ∃ y ∈ s.id n :: kept s, y < s.id m
  | .log n => s.trt = [] ∨ ∃ y ∈ s.trt, y < s.id n
  | .getInstance => (∀ n ∈ s.logged, n ∉ s.ended) ∧ ∀ n ∈ s.ended, ∃ y ∈ s.trt, s.id n ≤ y + 1
  | .getTransactionId | .purge _ | .restart => True

instance (s : St) : (e : Ev) → Decidable (EndSafe s e)
  | .writeEnd _ => inferInstanceAs (Decidable (_ ∧ _))
  | .log _ => inferInstanceAs (Decidable (_ ∨ _))
  | .getInstance => inferInstanceAs (Decidable (_ ∧ _))
  | .getTransactionId | .purge _ | .restart => .isTrue trivial

/-! ## As built -/

/-- A transaction that draws its id and writes to a log. -/
def tagged (n : Nat) : List Ev := [.getTransactionId, .log n]

/-- The second transaction ends first, and the first is taken as complete. -/
def outOfOrder : List Ev := [.getInstance] ++ tagged 0 ++ tagged 1 ++ [.writeEnd 1]

/-- A file of two ids: the end record of the second transaction is written over by the third. -/
def overwritten : List Ev :=
  [.getInstance] ++ tagged 0 ++ tagged 1 ++ tagged 2 ++ [.writeEnd 1, .writeEnd 0, .writeEnd 2]

/-- A transaction ends, and the process starts again twice: the file is empty, and the id is drawn again. -/
def recreated : List Ev := [.getInstance] ++ tagged 0 ++ [.writeEnd 0, .restart, .getInstance, .restart, .getInstance]

theorem incomplete_iff {entries : List Nat} {i : Nat} :
    incomplete entries i = true ↔ i ∉ entries ∧ (entries = [] ∨ ∃ y ∈ entries, y < i) := by
  have hmin : getMinimumTransaction entries ≤ i ↔ entries = [] ∨ ∃ y ∈ entries, y ≤ i := by
    unfold getMinimumTransaction
    cases hm : entries.min? with
    | none => simp [List.min?_eq_none_iff.mp hm]
    | some m =>
      have hne : entries ≠ [] := by
        intro hnil
        rw [hnil] at hm
        cases hm
      obtain ⟨hmem, hle⟩ := List.min?_eq_some_iff.mp hm
      simp only [getD_some, hne, false_or]
      exact ⟨fun h => ⟨m, hmem, h⟩, fun ⟨y, hy, h⟩ => (hle y hy).trans h⟩
  have hcontains : transactionCompleted entries i = true ↔ i ∈ entries := List.contains_iff_mem
  simp only [incomplete, ge_iff_le, Bool.and_eq_true, decide_eq_true_eq, Bool.not_eq_true', Bool.eq_false_iff, ne_eq, hcontains, hmin]
  constructor
  · intro ⟨h, hnot⟩
    refine ⟨hnot, h.imp_right ?_⟩
    intro ⟨y, hy, hle⟩
    exact ⟨y, hy, Nat.lt_of_le_of_ne hle fun heq => hnot (heq ▸ hy)⟩
  · intro ⟨hnot, h⟩
    refine ⟨h.imp_right ?_, hnot⟩
    intro ⟨y, hy, hlt⟩
    exact ⟨y, hy, hlt.le⟩

theorem le_maximum_iff {entries : List Nat} {i : Nat} (hi : 2 ≤ i) :
    i ≤ getMaximumTransaction entries + 1 ↔ ∃ y ∈ entries, i ≤ y + 1 := by
  unfold getMaximumTransaction
  cases hm : entries.max? with
  | none =>
    rw [List.max?_eq_none_iff.mp hm]
    simp only [getD_none, List.not_mem_nil, false_and, exists_false, iff_false]
    omega
  | some m =>
    obtain ⟨hmem, hle⟩ := List.max?_eq_some_iff.mp hm
    constructor
    · intro h
      exact ⟨m, hmem, h⟩
    · rintro ⟨y, hy, h⟩
      exact h.trans (Nat.succ_le_succ (hle y hy))

theorem mem_written {s : St} {size i y : Nat} : y ∈ (writeEndTransaction size s i).trt ↔ y ∈ i :: kept s := by
  simp only [writeEndTransaction, kept, List.eraseIdx_eq_take_drop_succ, List.mem_append, List.mem_cons]
  constructor
  · intro h
    rcases h with h | h | h
    · exact .inr (.inl h)
    · exact .inl h
    · exact .inr (.inr h)
  · intro h
    rcases h with h | h | h
    · exact .inr (.inl h)
    · exact .inl h
    · exact .inr (.inr h)

/-! ## One step -/

/-- What holds as long as the verdicts and the ids are right. -/
structure Inv (s : St) : Prop where
  sequence : ∀ q ∈ s.sequence, 1 ≤ q ∧ ∀ n ∈ s.running, s.id n ≤ q
  process : s.sequence = none → s.running = ∅
  running : ∀ n ∈ s.running, n < s.drawn
  logged : ∀ n ∈ s.logged, n < s.drawn
  ended : ∀ n ∈ s.ended, n < s.drawn
  ids : ∀ n < s.drawn, 2 ≤ s.id n
  /-- A transaction that can still end shares its id with none of its process, and with none that has ended. -/
  distinct : ∀ n ∈ s.running, n ∉ s.ended → ∀ m, m ∈ s.running ∨ m ∈ s.ended → m ≠ n → s.id m ≠ s.id n
  recorded : ∀ y ∈ s.trt, ∃ m ∈ s.ended, s.id m = y

theorem init_inv : Inv init where
  sequence := nofun
  process _ := rfl
  running n hn := absurd hn (notMem_empty n)
  logged n hn := absurd hn (notMem_empty n)
  ended n hn := absurd hn (notMem_empty n)
  ids := nofun
  distinct n hn := absurd hn (notMem_empty n)
  recorded := nofun

theorem init_right : Right init := ⟨fun n hn => absurd hn (notMem_empty n), nofun⟩

section Step

variable {s s' : St} {size n : Nat} {e : Ev}

theorem writeEnd_some (h : step size s (.writeEnd n) = some s') : (n ∈ s.running ∧ n ∉ s.ended) ∧
    s' = { writeEndTransaction size s (s.id n) with ended := insert n s.ended } := by
  obtain ⟨hp, hs⟩ := ite_none_right_eq_some.mp h
  exact ⟨hp, (Option.some.inj hs).symm⟩

theorem log_some (h : step size s (.log n) = some s') : (n ∈ s.running ∧ n ∉ s.ended) ∧ s' = { s with logged := insert n s.logged } := by
  obtain ⟨hp, hs⟩ := ite_none_right_eq_some.mp h
  exact ⟨hp, (Option.some.inj hs).symm⟩

theorem getInstance_some (h : step size s .getInstance = some s') : s.sequence = none ∧
    s' = { s with trt := [], trtNext := 0, sequence := some (getMaximumTransaction s.trt + 1) } := by
  obtain ⟨hp, hs⟩ := ite_none_right_eq_some.mp h
  exact ⟨hp, (Option.some.inj hs).symm⟩

theorem getTransactionId_some (h : step size s .getTransactionId = some s') : ∃ q, s.sequence = some q ∧ s' =
    { s with
      sequence := some (q + 1)
      id := Function.update s.id s.drawn (q + 1)
      drawn := s.drawn + 1
      running := insert s.drawn s.running } := by
  obtain ⟨q, hq, hs⟩ := map_eq_some_iff.mp h
  exact ⟨q, hq, hs.symm⟩

theorem step_inv (hi : Inv s) (hr : Right s) (h : step size s e = some s') : Inv s' := by
  cases e with
  | getInstance =>
    obtain ⟨hnone, rfl⟩ := getInstance_some h
    have hrunning := hi.process hnone
    refine ⟨?_, nofun, hi.running, hi.logged, hi.ended, hi.ids, hi.distinct, nofun⟩
    intro q hq
    cases hq
    refine ⟨Nat.le_add_left 1 _, fun n hn => ?_⟩
    rw [hrunning] at hn
    exact absurd hn (notMem_empty n)
  | getTransactionId =>
    obtain ⟨q, hq, rfl⟩ := getTransactionId_some h
    obtain ⟨hq1, hle⟩ := hi.sequence q hq
    have hold {m : Nat} (hm : m < s.drawn) : Function.update s.id s.drawn (q + 1) m = s.id m := update_of_ne hm.ne _ _
    refine ⟨?_, nofun, ?_, fun m hm => (hi.logged m hm).trans (Nat.lt_succ_self _),
      fun m hm => (hi.ended m hm).trans (Nat.lt_succ_self _), ?_, ?_, ?_⟩
    · intro q' hq'
      cases hq'
      refine ⟨hq1.trans (Nat.le_succ q), fun m hm => ?_⟩
      rcases mem_insert.mp hm with rfl | hm
      · exact (update_self ..).le
      · simp only [hold (hi.running m hm)]
        exact (hle m hm).trans (Nat.le_succ q)
    · intro m hm
      rcases mem_insert.mp hm with rfl | hm
      · exact Nat.lt_succ_self _
      · exact (hi.running m hm).trans (Nat.lt_succ_self _)
    · intro m hm
      rcases Nat.lt_succ_iff_lt_or_eq.mp hm with hm | rfl
      · simp only [hold hm]
        exact hi.ids m hm
      · simp only [update_self]
        omega
    · -- the new id is above all that are running or have ended
      have habove {m : Nat} (hm : m ∈ s.running ∨ m ∈ s.ended) : m < s.drawn ∧ s.id m ≤ q := by
        rcases hm with hm | hm
        · exact ⟨hi.running m hm, hle m hm⟩
        · exact ⟨hi.ended m hm, hr.2 q hq m hm⟩
      intro k hk hke m hm hmk
      have hm' : m = s.drawn ∨ m ∈ s.running ∨ m ∈ s.ended := by
        rcases hm with hm | hm
        · exact (mem_insert.mp hm).imp_right .inl
        · exact .inr (.inr hm)
      rcases mem_insert.mp hk with rfl | hk
      · obtain ⟨hlt, hmq⟩ := habove (hm'.resolve_left hmk)
        simp only [hold hlt, update_self]
        omega
      · obtain ⟨hlt, hkq⟩ := habove (.inl hk)
        rcases hm' with rfl | hm
        · simp only [hold hlt, update_self]
          omega
        · simp only [hold hlt, hold (habove hm).1]
          exact hi.distinct k hk hke m hm hmk
    · intro y hy
      obtain ⟨m, hm, hid⟩ := hi.recorded y hy
      refine ⟨m, hm, ?_⟩
      simp only [hold (hi.ended m hm)]
      exact hid
  | log n =>
    obtain ⟨⟨hrunning, -⟩, rfl⟩ := log_some h
    refine ⟨hi.sequence, hi.process, hi.running, ?_, hi.ended, hi.ids, hi.distinct, hi.recorded⟩
    intro m hm
    rcases mem_insert.mp hm with rfl | hm
    · exact hi.running m hrunning
    · exact hi.logged m hm
  | writeEnd n =>
    obtain ⟨⟨hrunning, -⟩, rfl⟩ := writeEnd_some h
    refine ⟨hi.sequence, hi.process, hi.running, hi.logged, ?_, hi.ids, ?_, ?_⟩
    · intro m hm
      rcases mem_insert.mp hm with rfl | hm
      · exact hi.running m hrunning
      · exact hi.ended m hm
    · intro k hk hke m hm hmk
      refine hi.distinct k hk (fun hc => hke (Finset.mem_insert_of_mem hc)) m ?_ hmk
      rcases hm with hm | hm
      · exact .inl hm
      · rcases mem_insert.mp hm with rfl | hm
        · exact .inl hrunning
        · exact .inr hm
    · intro y hy
      have hy : y ∈ (writeEndTransaction size s (s.id n)).trt := hy
      rcases List.mem_cons.mp (mem_written.mp hy) with rfl | hy
      · exact ⟨n, Finset.mem_insert_self .., rfl⟩
      · obtain ⟨m, hm, hid⟩ := hi.recorded y (List.mem_of_mem_eraseIdx hy)
        exact ⟨m, Finset.mem_insert_of_mem hm, hid⟩
  | purge n =>
    cases h
    exact ⟨hi.sequence, hi.process, hi.running, fun m hm => hi.logged m (Finset.mem_of_mem_erase hm), hi.ended, hi.ids,
      hi.distinct, hi.recorded⟩
  | restart =>
    cases h
    exact ⟨nofun, fun _ => rfl, fun m hm => absurd hm (notMem_empty m), hi.logged, hi.ended, hi.ids,
      fun m hm => absurd hm (notMem_empty m), hi.recorded⟩

/-- What a file says of an id that is not the one just written. -/
theorem incomplete_written {m : Nat} (hne : s.id m ≠ s.id n) : incomplete (writeEndTransaction size s (s.id n)).trt (s.id m) = true ↔
    s.id m ∉ kept s ∧ ∃ y ∈ s.id n :: kept s, y < s.id m := by
  have hnonempty : (writeEndTransaction size s (s.id n)).trt ≠ [] := by simp [writeEndTransaction]
  rw [incomplete_iff, mem_written, List.mem_cons, not_or]
  simp only [hnonempty, false_or, mem_written]
  exact ⟨fun h => ⟨h.1.2, h.2⟩, fun h => ⟨⟨hne, h.1⟩, h.2⟩⟩

/-- An end record leaves every verdict right exactly if it meets its condition. -/
theorem writeEnd_right_iff (hi : Inv s) (hr : Right s) (hrunning : n ∈ s.running) (hn : n ∉ s.ended) :
    Right { writeEndTransaction size s (s.id n) with ended := insert n s.ended } ↔ EndSafe s (.writeEnd n) := by
  have hother {m : Nat} (hm : m ∈ s.ended) : s.id m ≠ s.id n :=
    hi.distinct n hrunning hn m (.inr hm) fun heq => hn (heq ▸ hm)
  have hsequence : ∀ q ∈ s.sequence, ∀ m ∈ insert n s.ended, s.id m ≤ q := by
    intro q hq m hm
    rcases mem_insert.mp hm with rfl | hm
    · exact (hi.sequence q hq).2 m hrunning
    · exact hr.2 q hq m hm
  have hself : incomplete (writeEndTransaction size s (s.id n)).trt (s.id n) = false := by
    rw [Bool.eq_false_iff]
    intro hc
    exact (incomplete_iff.mp hc).1 (mem_written.mpr List.mem_cons_self)
  have hended {m : Nat} (hm : m ∈ s.ended) : incomplete (writeEndTransaction size s (s.id n)).trt (s.id m) = false ↔
      s.id m ∈ kept s ∨ ∀ y ∈ s.id n :: kept s, s.id m < y := by
    rw [Bool.eq_false_iff, ne_eq, incomplete_written (hother hm)]
    constructor
    · intro h
      by_cases hk : s.id m ∈ kept s
      · exact .inl hk
      · refine .inr fun y hy => ?_
        have hne : s.id m ≠ y := by
          rcases List.mem_cons.mp hy with rfl | hy
          · exact hother hm
          · exact fun heq => hk (heq ▸ hy)
        by_contra hc
        exact h ⟨hk, y, hy, by omega⟩
    · intro h ⟨hk, y, hy, hlt⟩
      exact absurd (h.resolve_left hk y hy) (Nat.lt_asymm hlt)
  have hright : Right { writeEndTransaction size s (s.id n) with ended := insert n s.ended } ↔
      (∀ m ∈ s.logged, incomplete (writeEndTransaction size s (s.id n)).trt (s.id m) = true ↔ m ∉ insert n s.ended) ∧
        ∀ q ∈ s.sequence, ∀ m ∈ insert n s.ended, s.id m ≤ q := Iff.rfl
  rw [hright]
  unfold EndSafe
  constructor
  · intro ⟨hverdict, _⟩
    refine ⟨fun m hm hme => ?_, fun m hm hme hmn => ?_⟩
    · refine (hended hme).mp (Bool.eq_false_iff.mpr fun hc => ?_)
      exact (hverdict m hm).mp hc (Finset.mem_insert_of_mem hme)
    · have hinc := (hverdict m hm).mpr fun hc => hme ((mem_insert.mp hc).resolve_left hmn)
      have hid : s.id m ≠ s.id n := by
        intro heq
        rw [heq] at hinc
        exact Bool.false_ne_true (hself.symm.trans hinc)
      exact ⟨hid, ((incomplete_written hid).mp hinc).2⟩
  · intro ⟨hkeeps, horder⟩
    refine ⟨fun m hm => ?_, hsequence⟩
    by_cases hmn : m = n
    · rw [hmn]
      simp [hself]
    · by_cases hme : m ∈ s.ended
      · have hfalse := (hended hme).mpr (hkeeps m hm hme)
        simp [hfalse, hme]
      · obtain ⟨hid, hlow⟩ := horder m hm hme hmn
        have hnot : s.id m ∉ kept s := fun hk => (incomplete_iff.mp ((hr.1 m hm).mpr hme)).1 (List.mem_of_mem_eraseIdx hk)
        have htrue : incomplete (writeEndTransaction size s (s.id n)).trt (s.id m) = true := (incomplete_written hid).mpr ⟨hnot, hlow⟩
        simp [htrue, hme, hmn]

/-- A step leaves the verdicts and the ids right exactly if it meets its condition. -/
theorem step_right_iff (hi : Inv s) (hr : Right s) (h : step size s e = some s') : Right s' ↔ EndSafe s e := by
  cases e with
  | getInstance =>
    obtain ⟨-, rfl⟩ := getInstance_some h
    unfold Right EndSafe
    refine and_congr (forall₂_congr fun n _ => ?_) ?_
    · have hall : incomplete [] (s.id n) = true := incomplete_iff.mpr ⟨List.not_mem_nil, .inl rfl⟩
      simp [hall]
    · have hbound (n : Nat) (hn : n ∈ s.ended) : s.id n ≤ getMaximumTransaction s.trt + 1 ↔ ∃ y ∈ s.trt, s.id n ≤ y + 1 :=
        le_maximum_iff (hi.ids n (hi.ended n hn))
      constructor
      · intro hle n hn
        exact (hbound n hn).mp (hle _ rfl n hn)
      · intro hle q hq n hn
        cases hq
        exact (hbound n hn).mpr (hle n hn)
  | getTransactionId =>
    obtain ⟨q, hq, rfl⟩ := getTransactionId_some h
    have hold {m : Nat} (hm : m < s.drawn) : Function.update s.id s.drawn (q + 1) m = s.id m := update_of_ne hm.ne _ _
    refine iff_of_true ⟨fun m hm => ?_, fun q' hq' m hm => ?_⟩ trivial
    · simp only [hold (hi.logged m hm)]
      exact hr.1 m hm
    · cases hq'
      simp only [hold (hi.ended m hm)]
      exact (hr.2 q hq m hm).trans (Nat.le_succ q)
  | log n =>
    obtain ⟨⟨hrunning, hn⟩, rfl⟩ := log_some h
    have hnot : s.id n ∉ s.trt := by
      intro hmem
      obtain ⟨m, hm, hid⟩ := hi.recorded _ hmem
      exact hi.distinct n hrunning hn m (.inr hm) (fun heq => hn (heq ▸ hm)) hid
    unfold EndSafe
    constructor
    · intro hright
      exact (incomplete_iff.mp ((hright.1 n (Finset.mem_insert_self ..)).mpr hn)).2
    · intro hlow
      refine ⟨fun m hm => ?_, hr.2⟩
      rcases mem_insert.mp hm with rfl | hm
      · exact iff_of_true (incomplete_iff.mpr ⟨hnot, hlow⟩) hn
      · exact hr.1 m hm
  | writeEnd n =>
    obtain ⟨⟨hrunning, hn⟩, rfl⟩ := writeEnd_some h
    exact writeEnd_right_iff hi hr hrunning hn
  | purge n =>
    cases h
    exact iff_of_true ⟨fun m hm => hr.1 m (Finset.mem_of_mem_erase hm), hr.2⟩ trivial
  | restart =>
    cases h
    exact iff_of_true ⟨hr.1, nofun⟩ trivial

end Step

/-! ## Every run -/

theorem meets_right_iff {size : Nat} {s s' : St} {es : List Ev} (hi : Inv s) (hr : Right s) (h : exec (step size) s es = some s') :
    (∀ l, l <+: es → ∀ r, exec (step size) s l = some r → Right r) ↔ Meets (step size) EndSafe s es := by
  induction es generalizing s with
  | nil =>
    refine ⟨fun _ => trivial, fun _ l hl r hl' => ?_⟩
    rw [List.prefix_nil.mp hl] at hl'
    cases hl'
    exact hr
  | cons e es ih =>
    obtain ⟨s1, h1, h2⟩ := bind_eq_some_iff.mp h
    have hstep := step_right_iff hi hr h1
    have hi1 := step_inv hi hr h1
    constructor
    · intro hall
      have hr1 : Right s1 := hall [e] ⟨es, rfl⟩ s1 (by rw [exec, h1]; rfl)
      refine ⟨hstep.mp hr1, fun s'' hs'' => ?_⟩
      cases h1.symm.trans hs''
      refine (ih hi1 hr1 h2).mp fun l hl r hrun => hall (e :: l) (List.cons_prefix_cons.mpr ⟨rfl, hl⟩) r ?_
      rw [exec, h1]
      exact hrun
    · rintro ⟨hsafe, hrest⟩ l hl r hrun
      have hr1 := hstep.mpr hsafe
      cases l with
      | nil =>
        cases hrun
        exact hr
      | cons e' l =>
        obtain ⟨rfl, htail⟩ := List.cons_prefix_cons.mp hl
        rw [exec, h1] at hrun
        exact (ih hi1 hr1 h2).mpr (hrest s1 h1) l htail r hrun

/-- Three transactions in order, in a file of two ids. -/
def inOrder : List Ev :=
  [.getInstance] ++ tagged 0 ++ [.writeEnd 0] ++ tagged 1 ++ tagged 2 ++ [.writeEnd 1, .writeEnd 2, .restart]

end DeepFabric.Sync.EndRecords
