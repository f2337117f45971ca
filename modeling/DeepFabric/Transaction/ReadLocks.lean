/-
  DeepFabric.Transaction.ReadLocks — who owns a shared lock when its readers end one after the other
  (Transaction::reassign, commit and rollback at level 0 in core/Transaction.h).

  `Agrees` says of every lock what its readers need: the sequence is their number, the identifier is
  one of them, and with no reader left the lock is unshared and nobody's. No other part of the row
  locks' invariant is assumed, so the readers and their sets are any.
-/
import DeepFabric.Transaction.RowLock

namespace DeepFabric.Transaction.RowLock

open DeepFabric.Lib.Run

/-- What a lock says of the transactions that have it in their read lock sets. -/
structure Counted (t : Table Tx) (r : Nat) (l : StoryLock) : Prop where
  sequence : l.sequence = (holders t r).card
  owner : (holders t r).Nonempty → l.identifier ∈ holders t r
  free : holders t r = ∅ → l.identifier = 0 ∧ l.share = false

def Agrees (s : St) : Prop := ∀ r, Counted s.table r (s.locks r)

/-- commit(0) or rollback(0) that comes to reassign: the transaction is dirty. -/
def endTransaction (s : St) (id : Nat) : Option St :=
  match s.table.transactions id with
  | some itx => if itx.dirty then some (finish s id itx) else none
  | none => none

/-! ## One end -/

section Ends

variable {s s' : St} {t t' : Table Tx} {id r : Nat} {l : StoryLock}

theorem endTransaction_some (h : endTransaction s id = some s') : ∃ itx, s.table.transactions id = some itx ∧
    s' = signal (reassign s id itx) id { itx with readLockSet := ∅ } := by
  unfold endTransaction at h
  split at h
  · rename_i itx htx
    split at h
    · rename_i hdirty
      cases h
      exact ⟨itx, htx, if_pos hdirty⟩
    · cases h
  · cases h

theorem holder_pos (h : id ∈ holders t r) : id ≠ 0 := by
  obtain ⟨tx, htx, -⟩ := mem_holders.mp h
  have hlive := t.live id (by simp [htx])
  omega

/-- The lock of the readers besides the ending one, as long as there are any, and a free lock after the last. -/
theorem counted_reassign (h : Counted t r l) (hid : id ∈ holders t r) (ht : holders t' r = (holders t r).erase id) :
    Counted t' r (reassignLock t id r l) := by
  have hcard := Finset.card_erase_add_one hid
  have hle := holders_card_le t r
  have hseq : l.sequence = ((holders t r).erase id).card + 1 := by
    rw [hcard]
    exact h.sequence
  have hlt : ((holders t r).erase id).card < 2 ^ 32 := by
    unfold DEFAULT_TRANSACTION_SIZE at hle
    omega
  have howner := h.owner ⟨id, hid⟩
  rw [reassignLock_eq hseq hlt]
  by_cases ho : l.identifier = id
  · rw [if_pos ho]
    by_cases h0 : ((holders t r).erase id).card = 0
    · -- the last reader is the owner
      rw [if_pos h0]
      have hempty : holders t' r = ∅ := by
        rw [ht]
        exact Finset.card_eq_zero.mp h0
      refine ⟨?_, ?_, fun _ => ⟨rfl, rfl⟩⟩
      · rw [hempty]
        rfl
      · intro hne
        rw [hempty] at hne
        exact absurd hne Finset.not_nonempty_empty
    · obtain ⟨k, hk⟩ : ((holders t r).erase id).Nonempty := Finset.card_pos.mp (Nat.pos_of_ne_zero h0)
      obtain ⟨hkne, hkm⟩ := Finset.mem_erase.mp hk
      obtain ⟨j, hj, hjm, hjne⟩ := nextOwner_some ⟨k, hkm, hkne⟩
      rw [if_neg h0, hj]
      refine ⟨?_, ?_, ?_⟩
      · rw [ht]
      · intro _
        rw [ht]
        exact Finset.mem_erase.mpr ⟨hjne, hjm⟩
      · intro hempty
        rw [ht] at hempty
        exact absurd hk (Finset.eq_empty_iff_forall_notMem.mp hempty k)
  · have hkeep : l.identifier ∈ holders t' r := by
      rw [ht]
      exact Finset.mem_erase.mpr ⟨ho, howner⟩
    rw [if_neg ho]
    refine ⟨?_, fun _ => hkeep, ?_⟩
    · rw [ht]
    · intro hempty
      exact absurd hkeep (Finset.eq_empty_iff_forall_notMem.mp hempty _)

theorem holders_ended (h : endTransaction s id = some s') (r : Nat) : holders s'.table r = (holders s.table r).erase id := by
  obtain ⟨itx, htx, rfl⟩ := endTransaction_some h
  have hclear : (reassign s id itx).table.transactions id = some { itx with readLockSet := ∅ } := by
    simp [reassign, Table.set_transactions htx]
  ext j
  by_cases e : j = id
  · subst e
    simp [mem_holders, signal, dropGrants, Table.set_transactions hclear]
  · have hother : (signal (reassign s id itx) id { itx with readLockSet := ∅ }).table.transactions j =
        (reassign s id itx).table.transactions j := (signal_others hclear j e).1
    have hsame : (reassign s id itx).table.transactions j = s.table.transactions j := by
      simp [reassign, Table.set_transactions htx, e]
    simp [mem_holders, hother, hsame, e]

theorem endTransaction_agrees (ha : Agrees s) (h : endTransaction s id = some s') : Agrees s' := by
  intro r
  have hholders := holders_ended h r
  obtain ⟨itx, htx, rfl⟩ := endTransaction_some h
  have hmem : id ∈ holders s.table r ↔ r ∈ itx.readLockSet := by simp [mem_holders, htx]
  have hlock : (signal (reassign s id itx) id { itx with readLockSet := ∅ }).locks r =
      if r ∈ itx.readLockSet then reassignLock s.table id r (s.locks r) else s.locks r := rfl
  rw [hlock]
  split
  · rename_i hr
    exact counted_reassign (ha r) (hmem.mpr hr) hholders
  · rename_i hr
    rw [Finset.erase_eq_of_notMem fun h => hr (hmem.mp h)] at hholders
    obtain ⟨hsequence, howner, hfree⟩ := ha r
    rw [← hholders] at hsequence howner hfree
    exact ⟨hsequence, howner, hfree⟩

end Ends

/-! ## Any ends -/

theorem free_iff {s : St} (ha : Agrees s) (r : Nat) : s.locks r = ⟨false, 0, 0⟩ ↔ holders s.table r = ∅ := by
  constructor
  · intro hfree
    by_contra hne
    have howner := (ha r).owner (Finset.nonempty_iff_ne_empty.mpr hne)
    rw [hfree] at howner
    exact holder_pos howner rfl
  · intro hempty
    obtain ⟨hidentifier, hshare⟩ := (ha r).free hempty
    have hsequence := (ha r).sequence
    rw [hempty, Finset.card_empty] at hsequence
    cases hlock : s.locks r with
    | mk share identifier sequence =>
      rw [hlock] at hidentifier hshare hsequence
      simp only at hidentifier hshare hsequence
      rw [hidentifier, hshare, hsequence]

theorem holders_exec {s s' : St} {ids : List Nat} (h : exec endTransaction s ids = some s') (r : Nat) :
    holders s'.table r = (holders s.table r).filter fun i => i ∉ ids := by
  induction ids generalizing s with
  | nil =>
    cases h
    exact (Finset.filter_true_of_mem fun _ _ => List.not_mem_nil).symm
  | cons id ids ih =>
    obtain ⟨s1, h1, h2⟩ := Option.bind_eq_some_iff.mp h
    rw [ih h2, holders_ended h1]
    ext i
    simp only [Finset.mem_filter, Finset.mem_erase, List.mem_cons, not_or]
    exact ⟨fun hi => ⟨hi.1.2, hi.1.1, hi.2⟩, fun hi => ⟨⟨hi.2.1, hi.1⟩, hi.2.2⟩⟩

/-- Transactions that end in any order leave every shared lock to its other readers, and release it with the last one. -/
theorem reassign_agrees {s s' : St} {ids : List Nat} (ha : Agrees s) (h : exec endTransaction s ids = some s') :
    Agrees s' ∧ ∀ r, (s'.locks r = ⟨false, 0, 0⟩ ↔ ∀ i ∈ holders s.table r, i ∈ ids) := by
  have hagrees : Agrees s' := (reach_of_exec ids h).inv ha fun hs _ hstep => endTransaction_agrees hs hstep
  refine ⟨hagrees, fun r => ?_⟩
  rw [free_iff hagrees, holders_exec h, Finset.filter_eq_empty_iff]
  simp only [not_not]

theorem two_below : 2 < DEFAULT_TRANSACTION_SIZE := by decide

theorem readers_below (i : Nat) (h : (if i = 1 ∨ i = 2 then some (⟨1, true, {7}⟩ : Tx) else none).isSome = true) :
    0 < i ∧ i < DEFAULT_TRANSACTION_SIZE ∧ i ≤ 2 := by
  split at h
  · simp only [DEFAULT_TRANSACTION_SIZE]
    omega
  · cases h

def twoReaders : St where
  table := ⟨2, 2, fun i => if i = 1 ∨ i = 2 then some ⟨1, true, {7}⟩ else none, two_below, readers_below⟩
  sequences _ := 1
  locks r := if r = 7 then ⟨true, 1, 2⟩ else ⟨false, 0, 0⟩
  granted := {(1, 7, .read), (2, 7, .read)}

theorem holders_twoReaders (r : Nat) : holders twoReaders.table r = if r = 7 then {1, 2} else ∅ := by
  ext i
  rw [mem_holders]
  by_cases hr : r = 7 <;> by_cases hi : i = 1 ∨ i = 2 <;> simp [twoReaders, hr, hi]

theorem agrees_twoReaders : Agrees twoReaders := by
  intro r
  have hholders := holders_twoReaders r
  by_cases hr : r = 7
  · rw [if_pos hr] at hholders
    refine ⟨?_, fun _ => ?_, fun hempty => ?_⟩
    · rw [hholders]
      simp [twoReaders, hr]
    · rw [hholders]
      simp [twoReaders, hr]
    · rw [hholders] at hempty
      exact absurd hempty (by decide)
  · rw [if_neg hr] at hholders
    refine ⟨?_, fun hne => ?_, fun _ => ?_⟩
    · rw [hholders]
      simp [twoReaders, hr]
    · rw [hholders] at hne
      exact absurd hne Finset.not_nonempty_empty
    · simp [twoReaders, hr]

/-- The owner ends first and hands the lock to the other reader, which releases it. -/
theorem two_readers_end : ∃ s1 s2, exec endTransaction twoReaders [1] = some s1 ∧ s1.locks 7 = ⟨true, 2, 1⟩ ∧
    exec endTransaction twoReaders [1, 2] = some s2 ∧ Agrees s2 ∧ s2.locks 7 = ⟨false, 0, 0⟩ := by
  obtain ⟨s1, h1, hlock⟩ := exec_ends (p := fun s => s.locks 7 = ⟨true, 2, 1⟩)
    (show (exec endTransaction twoReaders [1]).any _ = true by decide)
  obtain ⟨s2, h2, -⟩ := exec_ends (p := fun _ => True) (show (exec endTransaction twoReaders [1, 2]).any _ = true by decide)
  have hended := reassign_agrees agrees_twoReaders h2
  refine ⟨s1, s2, h1, hlock, h2, hended.1, (hended.2 7).mpr fun i hi => ?_⟩
  rw [holders_twoReaders] at hi
  simpa using hi

end DeepFabric.Transaction.RowLock
