/-
  DeepFabric.Transaction.Credentials — how long the stamp of a writer holds a lock (Transaction::create,
  setDirty, signal, destroy and lockable in core/Transaction.h).

  A write lock is a stamp (identifier, sequence) and is never given up: `lockable` compares it with
  the identifier's current sequence. An object's own sequence moves on when it ends, its constructor
  ends it once, and destroy moves the identifier's sequence on once more; identifiers are handed out
  again. Objects are named by the order in which they were created, and the table's slots name them.

  Sequences are 32-bit and skip 0, so 2^32 - 1 moves lead back to a stamp that expired long ago. A
  transaction that is only created and destroyed moves its identifier's sequence twice and never ends.

  - `step_inv`, `inv`: an object has its identifier's slot, and its sequence is the identifier's current one.
-/
import DeepFabric.Transaction.RowLock

namespace DeepFabric.Transaction.Credentials

open DeepFabric.Lib.Run Option Function
open RowLock (StoryLock lockable nextSequence)
open Function (comp update)

/-- The fields of an object that its credentials depend on. -/
structure Tx where
  identifier : Nat
  sequence : Nat
  dirty : Bool
  deriving DecidableEq, Repr

structure St where
  /-- `s_transactions`, which names the objects. -/
  table : Table Nat
  sequences : Nat → Nat
  objects : Nat → Option Tx
  /-- How many objects there have been. -/
  created : Nat

def init : St := ⟨.empty, fun _ => 0, fun _ => none, 0⟩

/-- setDirty(false), which signals. -/
def signal (s : St) (n : Nat) (tx : Tx) : St :=
  { s with
    sequences := update s.sequences tx.identifier (nextSequence tx.sequence)
    objects := update s.objects n (some { tx with sequence := nextSequence tx.sequence, dirty := false }) }

inductive Ev where
  | create
  /-- setDirty(true). -/
  | setDirty (n : Nat)
  /-- commit(0) or rollback(0). -/
  | finish (n : Nat)
  | destroy (n : Nat)
  deriving DecidableEq, Repr

/-- `none`: there is no such object, destroy throws on a dirty one, or create has not returned. -/
def step (s : St) : Ev → Option St
  | .create =>
    match s.table.create fun _ => s.created with
    | none => none
    | some (i, t) => some (signal { s with table := t, created := s.created + 1 } s.created ⟨i, s.sequences i, false⟩)
  | .setDirty n => (s.objects n).map fun tx => { s with objects := update s.objects n (some { tx with dirty := true }) }
  | .finish n => (s.objects n).map fun tx => signal s n tx
  | .destroy n =>
    match s.objects n with
    | none => none
    | some tx =>
      if tx.dirty then none
      else some { s with
        table := s.table.destroy tx.identifier
        sequences := update s.sequences tx.identifier (nextSequence tx.sequence)
        objects := update s.objects n none }

/-- The identifier whose sequence an event moves on. -/
def target (s : St) : Ev → Option Nat
  | .create => (s.table.create fun _ => s.created).map Prod.fst
  | .setDirty _ => none
  | .finish n | .destroy n => (s.objects n).map Tx.identifier

/-- How often a run moves an identifier's sequence on. -/
def moves (i : Nat) : St → List Ev → Nat
  | _, [] => 0
  | s, e :: es => (if target s e = some i then 1 else 0) +
    match step s e with
    | none => 0
    | some s' => moves i s' es

/-- An event ends a transaction. -/
def Ev.Ends : Ev → Nat → Prop
  | .finish m, n | .destroy m, n => m = n
  | _, _ => False

instance : (e : Ev) → (n : Nat) → Decidable (e.Ends n)
  | .finish m, n => inferInstanceAs (Decidable (m = n))
  | .destroy m, n => inferInstanceAs (Decidable (m = n))
  | .create, _ => .isFalse id
  | .setDirty _, _ => .isFalse id

def Ev.isEnd : Ev → Bool
  | .finish _ | .destroy _ => true
  | _ => false

/-- `lockable` tells another identifier that a writer's stamp holds the lock. -/
def Held (sequences : Nat → Nat) (identifier sequence : Nat) : Prop :=
  ∀ id share, id ≠ identifier → (lockable sequences ⟨false, identifier, sequence⟩ id share).1 = false

/-! ## Sequences -/

theorem nextSequence_pos (n : Nat) : 0 < nextSequence n ∧ nextSequence n < 2 ^ 32 := by
  unfold nextSequence
  split <;> omega

theorem iterate_nextSequence {q : Nat} (h0 : 0 < q) (hq : q < 2 ^ 32) (n : Nat) :
    nextSequence^[n] q = (q - 1 + n) % (2 ^ 32 - 1) + 1 := by
  induction n with
  | zero =>
    rw [iterate_zero, id]
    omega
  | succ n ih =>
    rw [Function.iterate_succ', comp, ih]
    unfold nextSequence
    split <;> omega

theorem iterate_eq_iff {q : Nat} (h0 : 0 < q) (hq : q < 2 ^ 32) (n : Nat) : nextSequence^[n] q = q ↔ (2 ^ 32 - 1) ∣ n := by
  rw [iterate_nextSequence h0 hq]
  omega

theorem lockable_stamp {sequences : Nat → Nat} {i q id : Nat} (hi : 0 < i) (hid : id ≠ i) (share : Bool) :
    (lockable sequences ⟨false, i, q⟩ id share).1 = false ↔ sequences i = q := by
  unfold lockable
  rw [if_pos rfl, if_pos ⟨Nat.ne_of_gt hi, hid.symm⟩]
  by_cases h : q = sequences i
  · simp [h]
  · simp [h, Ne.symm h]

theorem held_iff {sequences : Nat → Nat} {i q : Nat} (hi : 0 < i) : Held sequences i q ↔ sequences i = q := by
  constructor
  · intro h
    exact (lockable_stamp hi (Nat.succ_ne_self i) false).mp (h (i + 1) false (Nat.succ_ne_self i))
  · intro h id share hid
    exact (lockable_stamp hi hid share).mpr h

/-! ## As built -/

/-- Transactions that are created and destroyed, `m` of them. -/
def idle : Nat → Nat → List Ev
  | _, 0 => []
  | n, m + 1 => .create :: .destroy n :: idle (n + 1) m

/-- No transaction is left. -/
def rest (n q : Nat) : St := ⟨.empty, update (fun _ => 0) 1 q, fun _ => none, n⟩

/-- The table in which the first identifier was handed out. -/
theorem create_empty (n : Nat) : ∃ t : Table Nat, Table.empty.create (fun _ => n) = some (1, t) ∧ t.destroy 1 = .empty := by
  refine ⟨_, rfl, ?_⟩
  unfold Table.destroy Table.empty
  rw [Table.mk.injEq]
  refine ⟨rfl, rfl, ?_⟩
  funext i
  by_cases hi : i = 1
  · rw [hi]
    rfl
  · exact (update_of_ne hi _ _).trans (update_of_ne hi _ _)

theorem step_rest (n q : Nat) : ∃ t : Table Nat, t.destroy 1 = .empty ∧ step (rest n q) .create = some ⟨t,
    update (fun _ => 0) 1 (nextSequence q), update (fun _ => none) n (some ⟨1, nextSequence q, false⟩), n + 1⟩ := by
  obtain ⟨t, ht, hd⟩ := create_empty n
  refine ⟨t, hd, ?_⟩
  unfold step rest
  simp only [ht, signal, update_self, update_idem]

theorem exec_idle (n q m : Nat) : exec step (rest n q) (idle n m) = some (rest (n + m) (nextSequence^[2 * m] q)) := by
  induction m generalizing n q with
  | zero => rfl
  | succ m ih =>
    obtain ⟨t, hd, ht⟩ := step_rest n q
    have hdestroy : step ⟨t, update (fun _ => 0) 1 (nextSequence q),
        update (fun _ => none) n (some ⟨1, nextSequence q, false⟩), n + 1⟩ (.destroy n) =
        some (rest (n + 1) (nextSequence (nextSequence q))) := by
      unfold step rest
      simp only [update_self, Bool.false_eq_true, if_false, hd, update_idem]
      rw [update_eq_self_iff.mpr rfl]
    rw [idle, exec, ht, bind_some, exec, hdestroy, bind_some, ih]
    congr 2
    omega

theorem isEnd_idle (n m : Nat) : (idle n m).countP Ev.isEnd = m := by
  induction m generalizing n with
  | zero => rfl
  | succ m ih =>
    rw [idle, List.countP_cons_of_neg (by decide), List.countP_cons_of_pos rfl, ih]

/-- The writer ends and is destroyed, 2^31 - 2 other transactions are created and destroyed, and one more is created: its
    identifier's sequence is the stamp's. -/
theorem held_after_ended : ∃ s tx es s', exec step init [.create, .setDirty 0] = some s ∧ s.objects 0 = some tx ∧
    exec step s es = some s' ∧ Ev.finish 0 ∈ es ∧ es.countP Ev.isEnd < 2 ^ 32 - 1 ∧ Held s'.sequences tx.identifier tx.sequence := by
  have hinit : init = rest 0 0 := by
    unfold init rest
    rw [update_eq_self_iff.mpr rfl]
  obtain ⟨t, hd, ht⟩ := step_rest 0 0
  let s : St := ⟨t, update (fun _ => 0) 1 1, update (fun _ => none) 0 (some ⟨1, 1, true⟩), 1⟩
  have hwriter : exec step init [.create, .setDirty 0] = some s := by
    rw [hinit, exec, ht, bind_some]
    simp [exec, step, s, nextSequence]
  have hended : exec step s [.finish 0, .destroy 0] = some (rest 1 3) := by
    simp [exec, step, signal, s, nextSequence, hd, rest]
  have hthen (m : Nat) : ∃ s', exec step s ([.finish 0, .destroy 0] ++ (idle 1 m ++ [.create])) = some s' ∧
      s'.sequences 1 = nextSequence (nextSequence^[2 * m] 3) := by
    obtain ⟨t', -, ht'⟩ := step_rest (1 + m) (nextSequence^[2 * m] 3)
    rw [exec_append, hended, bind_some, exec_append, exec_idle, bind_some, exec, ht']
    exact ⟨_, rfl, by simp only [update_self]⟩
  obtain ⟨s', hrun, hsequence⟩ := hthen (2 ^ 31 - 2)
  refine ⟨s, ⟨1, 1, true⟩, _, s', hwriter, rfl, hrun, List.mem_append_left _ List.mem_cons_self, ?_, ?_⟩
  · rw [List.countP_append, List.countP_append, isEnd_idle]
    decide
  · rw [held_iff (by decide), hsequence, iterate_nextSequence (by decide) (by decide)]
    decide

/-! ## Every run -/

structure Inv (s : St) : Prop where
  slot : ∀ n tx, s.objects n = some tx → s.table.transactions tx.identifier = some n
  current : ∀ n tx, s.objects n = some tx → s.sequences tx.identifier = tx.sequence
  sequence : ∀ n tx, s.objects n = some tx → 0 < tx.sequence ∧ tx.sequence < 2 ^ 32
  fresh : ∀ n, s.created ≤ n → s.objects n = none

theorem init_inv : Inv init := ⟨nofun, nofun, nofun, fun _ _ => rfl⟩

section Step

variable {s s' : St} {n : Nat} {tx : Tx} {e : Ev}

theorem Inv.pos (hi : Inv s) (h : s.objects n = some tx) : 0 < tx.identifier ∧ tx.identifier < DEFAULT_TRANSACTION_SIZE ∧
    tx.identifier ≤ s.table.maxIdentifier := s.table.live _ (by simp [hi.slot n tx h])

theorem Inv.distinct (hi : Inv s) {m : Nat} {tx' : Tx} (h : s.objects n = some tx) (h' : s.objects m = some tx') (hne : n ≠ m) :
    tx.identifier ≠ tx'.identifier := by
  intro heq
  have hn := hi.slot n tx h
  rw [heq, hi.slot m tx' h'] at hn
  exact hne (Option.some.inj hn).symm

/-- A step is about one object `n` and one identifier `i`: the other objects, which have other identifiers, are as before. -/
theorem touched_inv (hi : Inv s) {i : Nat} (hobjects : ∀ m, m ≠ n → s'.objects m = s.objects m)
    (hfree : ∀ m tx, m ≠ n → s.objects m = some tx → tx.identifier ≠ i)
    (hslots : ∀ j, j ≠ i → s'.table.transactions j = s.table.transactions j ∧ s'.sequences j = s.sequences j)
    (hself : ∀ tx, s'.objects n = some tx → s'.table.transactions tx.identifier = some n ∧
      s'.sequences tx.identifier = tx.sequence ∧ 0 < tx.sequence ∧ tx.sequence < 2 ^ 32)
    (hcreated : s.created ≤ s'.created) (hn : n < s'.created) : Inv s' := by
  have hother {m : Nat} {tx : Tx} (hm : s'.objects m = some tx) (hne : m ≠ n) : s.objects m = some tx ∧
      s'.table.transactions tx.identifier = s.table.transactions tx.identifier ∧
      s'.sequences tx.identifier = s.sequences tx.identifier := by
    rw [hobjects m hne] at hm
    exact ⟨hm, hslots _ (hfree m tx hne hm)⟩
  refine ⟨fun m tx hm => ?_, fun m tx hm => ?_, fun m tx hm => ?_, fun m hm => ?_⟩
  · by_cases hne : m = n
    · subst hne
      exact (hself tx hm).1
    · obtain ⟨hm, hslot, -⟩ := hother hm hne
      exact hslot.trans (hi.slot m tx hm)
  · by_cases hne : m = n
    · subst hne
      exact (hself tx hm).2.1
    · obtain ⟨hm, -, hsequence⟩ := hother hm hne
      exact hsequence.trans (hi.current m tx hm)
  · by_cases hne : m = n
    · subst hne
      exact (hself tx hm).2.2
    · exact hi.sequence m tx (hother hm hne).1
  · rw [hobjects m (by omega)]
    exact hi.fresh m (by omega)

theorem create_some (h : step s .create = some s') : ∃ i t, s.table.create (fun _ => s.created) = some (i, t) ∧
    s.table.transactions i = none ∧ t.transactions = update s.table.transactions i (some s.created) ∧
    s' = signal { s with table := t, created := s.created + 1 } s.created ⟨i, s.sequences i, false⟩ := by
  simp only [step] at h
  split at h
  · cases h
  · rename_i i t hc
    cases h
    obtain ⟨hfree, ht⟩ := Table.create_eq_some hc
    exact ⟨i, t, hc, hfree, ht, rfl⟩

theorem setDirty_some (h : step s (.setDirty n) = some s') : ∃ tx, s.objects n = some tx ∧
    s' = { s with objects := update s.objects n (some { tx with dirty := true }) } := by
  obtain ⟨tx, htx, hs⟩ := map_eq_some_iff.mp h
  exact ⟨tx, htx, hs.symm⟩

theorem finish_some (h : step s (.finish n) = some s') : ∃ tx, s.objects n = some tx ∧ s' = signal s n tx := by
  obtain ⟨tx, htx, hs⟩ := map_eq_some_iff.mp h
  exact ⟨tx, htx, hs.symm⟩

theorem destroy_some (h : step s (.destroy n) = some s') : ∃ tx, s.objects n = some tx ∧ s' = { s with
    table := s.table.destroy tx.identifier
    sequences := update s.sequences tx.identifier (nextSequence tx.sequence)
    objects := update s.objects n none } := by
  simp only [step] at h
  split at h
  · cases h
  · rename_i tx htx
    split at h
    · cases h
    · cases h
      exact ⟨tx, htx, rfl⟩

theorem step_inv (hi : Inv s) (h : step s e = some s') : Inv s' := by
  have hlt {m : Nat} {tx : Tx} (hm : s.objects m = some tx) : m < s.created := by
    by_contra hc
    rw [hi.fresh m (Nat.le_of_not_lt hc)] at hm
    cases hm
  cases e with
  | create =>
    obtain ⟨i, t, -, hfree, ht, rfl⟩ := create_some h
    refine touched_inv hi (n := s.created) (i := i) (fun m hm => update_of_ne hm ..) (fun m tx _ hm heq => ?_)
      (fun j hj => ⟨?_, update_of_ne hj ..⟩) (fun tx hm => ?_) (Nat.le_succ _) (Nat.lt_succ_self _)
    · rw [← heq, hi.slot m tx hm] at hfree
      cases hfree
    · exact (congrFun ht j).trans (update_of_ne hj ..)
    · simp only [signal, update_self, Option.some.injEq] at hm
      subst hm
      exact ⟨(congrFun ht i).trans (update_self ..), update_self .., nextSequence_pos _⟩
  | setDirty m =>
    obtain ⟨tx, htx, rfl⟩ := setDirty_some h
    refine touched_inv hi (n := m) (i := tx.identifier) (fun k hk => update_of_ne hk ..)
      (fun k tx' hk hm => hi.distinct hm htx hk) (fun j _ => ⟨rfl, rfl⟩) (fun tx' hm => ?_) (Nat.le_refl _) (hlt htx)
    simp only [update_self, Option.some.injEq] at hm
    subst hm
    exact ⟨hi.slot m tx htx, hi.current m tx htx, hi.sequence m tx htx⟩
  | finish m =>
    obtain ⟨tx, htx, rfl⟩ := finish_some h
    refine touched_inv hi (n := m) (i := tx.identifier) (fun k hk => update_of_ne hk ..)
      (fun k tx' hk hm => hi.distinct hm htx hk) (fun j hj => ⟨rfl, update_of_ne hj ..⟩) (fun tx' hm => ?_)
      (Nat.le_refl _) (hlt htx)
    simp only [signal, update_self, Option.some.injEq] at hm
    subst hm
    exact ⟨hi.slot m tx htx, update_self .., nextSequence_pos _⟩
  | destroy m =>
    obtain ⟨tx, htx, rfl⟩ := destroy_some h
    refine touched_inv hi (n := m) (i := tx.identifier) (fun k hk => update_of_ne hk ..)
      (fun k tx' hk hm => hi.distinct hm htx hk) (fun j hj => ⟨?_, update_of_ne hj ..⟩) (fun tx' hm => ?_)
      (Nat.le_refl _) (hlt htx)
    · rw [Table.destroy_transactions]
      exact update_of_ne hj ..
    · simp only [update_self] at hm
      cases hm

end Step

theorem inv {s : St} (h : Reach step Free init s) : Inv s := h.inv init_inv fun hi _ hs => step_inv hi hs

/-! ## How long a stamp holds -/

section Moves

variable {s s' : St} {n i : Nat} {tx : Tx} {e : Ev}

/-- A step moves the sequence of its target on, and no other. -/
theorem step_sequences (hi : Inv s) (h : step s e = some s') :
    s'.sequences i = if target s e = some i then nextSequence (s.sequences i) else s.sequences i := by
  have hmoved (j q : Nat) : update s.sequences j q i = if some j = some i then q else s.sequences i := by
    by_cases hj : j = i
    · subst hj
      simp
    · simp [update_of_ne (Ne.symm hj), hj]
  cases e with
  | create =>
    obtain ⟨j, t, hc, -, -, rfl⟩ := create_some h
    simp only [target, hc, signal, map_some]
    rw [hmoved]
    by_cases hj : j = i
    · rw [hj]
    · simp [hj]
  | setDirty m =>
    obtain ⟨tx, -, rfl⟩ := setDirty_some h
    rfl
  | finish m =>
    obtain ⟨tx, htx, rfl⟩ := finish_some h
    simp only [target, htx, signal, map_some]
    rw [hmoved, ← hi.current m tx htx]
    by_cases hj : tx.identifier = i
    · rw [hj]
    · simp [hj]
  | destroy m =>
    obtain ⟨tx, htx, rfl⟩ := destroy_some h
    simp only [target, htx, map_some]
    rw [hmoved, ← hi.current m tx htx]
    by_cases hj : tx.identifier = i
    · rw [hj]
    · simp [hj]

theorem moves_cons (h : step s e = some s') (es : List Ev) :
    moves i s (e :: es) = (if target s e = some i then 1 else 0) + moves i s' es := by
  rw [moves, h]

theorem sequences_exec (hi : Inv s) {es : List Ev} (h : exec step s es = some s') :
    s'.sequences i = nextSequence^[moves i s es] (s.sequences i) := by
  induction es generalizing s with
  | nil =>
    cases h
    rfl
  | cons e es ih =>
    obtain ⟨s1, h1, h2⟩ := bind_eq_some_iff.mp h
    rw [ih (step_inv hi h1) h2, moves_cons h1, step_sequences hi h1]
    by_cases ht : target s e = some i
    · rw [if_pos ht, if_pos ht, Nat.add_comm, iterate_add_apply, iterate_one]
    · rw [if_neg ht, if_neg ht, Nat.zero_add]

/-- An object that does not end keeps its identifier to itself. -/
theorem step_live (hi : Inv s) (htx : s.objects n = some tx) (h : step s e = some s') (he : ¬e.Ends n) :
    target s e ≠ some tx.identifier ∧ ∃ tx', s'.objects n = some tx' ∧ tx'.identifier = tx.identifier := by
  cases e with
  | create =>
    obtain ⟨j, t, hc, hfree, -, rfl⟩ := create_some h
    have hn : n ≠ s.created := by
      intro heq
      rw [hi.fresh n heq.ge] at htx
      cases htx
    have hj : j ≠ tx.identifier := by
      intro heq
      rw [heq, hi.slot n tx htx] at hfree
      cases hfree
    refine ⟨by simp [target, hc, hj], tx, ?_, rfl⟩
    simp only [signal]
    rw [update_of_ne hn]
    exact htx
  | setDirty m =>
    obtain ⟨ux, hux, rfl⟩ := setDirty_some h
    refine ⟨nofun, ?_⟩
    by_cases hn : n = m
    · subst hn
      cases hux.symm.trans htx
      exact ⟨_, update_self .., rfl⟩
    · exact ⟨tx, (update_of_ne hn ..).trans htx, rfl⟩
  | finish m =>
    obtain ⟨ux, hux, rfl⟩ := finish_some h
    have hn : n ≠ m := fun heq => he heq.symm
    refine ⟨?_, tx, (update_of_ne hn ..).trans htx, rfl⟩
    simpa [target, hux] using hi.distinct hux htx hn.symm
  | destroy m =>
    obtain ⟨ux, hux, rfl⟩ := destroy_some h
    have hn : n ≠ m := fun heq => he heq.symm
    refine ⟨?_, tx, (update_of_ne hn ..).trans htx, rfl⟩
    simpa [target, hux] using hi.distinct hux htx hn.symm

/-- The identifier of a live object is moved on by a run exactly if the run ends the object. -/
theorem moves_eq_zero_iff (hi : Inv s) (htx : s.objects n = some tx) {es : List Ev} (h : exec step s es = some s') :
    moves tx.identifier s es = 0 ↔ ∀ e ∈ es, ¬e.Ends n := by
  induction es generalizing s tx with
  | nil => exact ⟨fun _ => nofun, fun _ => rfl⟩
  | cons e es ih =>
    obtain ⟨s1, h1, h2⟩ := bind_eq_some_iff.mp h
    rw [moves_cons h1, List.forall_mem_cons]
    by_cases he : e.Ends n
    · have ht : target s e = some tx.identifier := by
        cases e with
        | create => exact he.elim
        | setDirty m => exact he.elim
        | finish m =>
          cases he
          simp [target, htx]
        | destroy m =>
          cases he
          simp [target, htx]
      rw [if_pos ht]
      constructor
      · intro hz
        omega
      · intro hall
        exact absurd he hall.1
    · obtain ⟨ht, tx', htx', hid⟩ := step_live hi htx h1 he
      rw [if_neg ht, Nat.zero_add, ← hid, ih (step_inv hi h1) htx' h2]
      exact ⟨fun hall => ⟨he, hall⟩, fun hall => hall.2⟩

end Moves

/-- Identifiers are told apart, and a stamp holds until its transaction ends, as long as the identifier's sequence has not
    been moved on 2^32 - 1 times since. -/
theorem credentials {s : St} (hr : Reach step Free init s) :
    (∀ n m tx tx', s.objects n = some tx → s.objects m = some tx' → n ≠ m → tx.identifier ≠ tx'.identifier) ∧
    (∀ n tx, s.objects n = some tx →
      1 ≤ tx.identifier ∧ tx.identifier ≤ DEFAULT_TRANSACTION_SIZE - 1 ∧ tx.identifier ≤ s.table.maxIdentifier) ∧
    ∀ n tx, s.objects n = some tx → ∀ es s', exec step s es = some s' →
      (Held s'.sequences tx.identifier tx.sequence ↔ (2 ^ 32 - 1) ∣ moves tx.identifier s es) ∧
      (moves tx.identifier s es < 2 ^ 32 - 1 → (Held s'.sequences tx.identifier tx.sequence ↔ ∀ e ∈ es, ¬e.Ends n)) := by
  have hi := inv hr
  refine ⟨fun n m tx tx' h h' hne => hi.distinct h h' hne, fun n tx h => ?_, fun n tx htx es s' hrun => ?_⟩
  · obtain ⟨h0, hlt, hmax⟩ := hi.pos h
    exact ⟨h0, Nat.le_sub_one_of_lt hlt, hmax⟩
  · obtain ⟨h0, hlt⟩ := hi.sequence n tx htx
    have hheld : Held s'.sequences tx.identifier tx.sequence ↔ (2 ^ 32 - 1) ∣ moves tx.identifier s es := by
      rw [held_iff (hi.pos htx).1, sequences_exec hi hrun, hi.current n tx htx]
      exact iterate_eq_iff h0 hlt _
    refine ⟨hheld, fun hfew => ?_⟩
    rw [hheld, ← moves_eq_zero_iff hi htx hrun]
    exact ⟨fun hd => Nat.eq_zero_of_dvd_of_lt hd hfew, fun hz => hz ▸ Nat.dvd_zero _⟩

/-- A writer's first stamp, before and after it ends. -/
theorem held_until_ended : ∃ s s', exec step init [.create, .setDirty 0] = some s ∧ exec step s [.finish 0] = some s' ∧
    Held s.sequences 1 1 ∧ ¬Held s'.sequences 1 1 := by
  obtain ⟨s, s', hs, hs', htx, hmoves⟩ : ∃ s s', exec step init [.create, .setDirty 0] = some s ∧ exec step s [.finish 0] = some s' ∧
      s.objects 0 = some ⟨1, 1, true⟩ ∧ moves 1 s [.finish 0] = 1 := ⟨_, _, rfl, rfl, by decide, by decide⟩
  have hstamp := (credentials (reach_of_exec _ hs)).2.2 0 ⟨1, 1, true⟩ htx
  refine ⟨s, s', hs, hs', ?_, fun hheld => ?_⟩
  · exact (hstamp [] s rfl).1.mpr (Nat.dvd_zero _)
  · have hended := (hstamp [.finish 0] s' hs').2
    rw [hmoves] at hended
    exact (hended (by decide)).mp hheld (.finish 0) List.mem_cons_self rfl

end DeepFabric.Transaction.Credentials
