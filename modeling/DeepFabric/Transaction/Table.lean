/-
  DeepFabric.Transaction.Table — the static table of live transactions (core/Transaction.h).

  `s_transactions` has a slot for each identifier below DEFAULT_TRANSACTION_SIZE. Slot 0 is
  reserved and never handed out, so 0 in a lock's credentials means "nobody".
  `create` walks up from `s_theIdentifier`, wrapping to 1, to the first free slot; with no free
  slot it sleeps and walks again (`none`: the call has not returned). `destroy` empties a slot
  and recomputes `s_maxIdentifier`, the bound of every later scan, and `s_theIdentifier`.

  What a transaction object holds is a parameter: the row locks and the viewpoints look at
  different fields. A table carries that every live identifier is below the scan bound.
-/
import Mathlib.Logic.Function.Basic
import Mathlib.Data.List.Basic

namespace DeepFabric.Transaction

open Function (update update_of_ne)

def DEFAULT_TRANSACTION_SIZE : Nat := 1024 * 10

/-- The turn `++s_theIdentifier`, with its wrap to 1. -/
def nextIdentifier (i : Nat) : Nat := if i + 1 ≥ DEFAULT_TRANSACTION_SIZE then 1 else i + 1

variable {α : Type}

/-- create's walk from `i` to the first free slot, for `n` turns. -/
def findFree (txs : Nat → Option α) : Nat → Nat → Option Nat
  | 0, _ => none
  | n + 1, i => if (txs (nextIdentifier i)).isNone then some (nextIdentifier i) else findFree txs n (nextIdentifier i)

/-- One turn of destroy's scan over the pair (s_theIdentifier, s_maxIdentifier). -/
def rescanTurn (txs : Nat → Option α) (p : Nat × Nat) (i : Nat) : Nat × Nat :=
  match txs i with
  | none => if i < p.1 then (if i = 0 then 0 else i - 1, p.2) else p
  | some _ => if i > p.2 then (p.1, i) else p

structure Table (α : Type) where
  theIdentifier : Nat
  maxIdentifier : Nat
  transactions : Nat → Option α
  the_lt : theIdentifier < DEFAULT_TRANSACTION_SIZE
  live : ∀ i, (transactions i).isSome → 0 < i ∧ i < DEFAULT_TRANSACTION_SIZE ∧ i ≤ maxIdentifier

/-! ## The walk and the scan -/

theorem nextIdentifier_bounds (i : Nat) : 0 < nextIdentifier i ∧ nextIdentifier i < DEFAULT_TRANSACTION_SIZE := by
  unfold nextIdentifier
  split
  · exact ⟨by omega, by decide⟩
  · omega

variable {txs : Nat → Option α} {n i j : Nat}

theorem findFree_some (h : findFree txs n i = some j) :
    txs j = none ∧ 0 < j ∧ j < DEFAULT_TRANSACTION_SIZE := by
  induction n generalizing i with
  | zero => cases h
  | succ n ih =>
    simp only [findFree] at h
    split at h
    · rename_i hn
      cases h
      exact ⟨Option.isNone_iff_eq_none.mp hn, nextIdentifier_bounds i⟩
    · exact ih h

/-- From below, the walk reaches a free slot `j` in `j - i` turns, if nothing stops it before. -/
theorem findFree_below (hj : txs j = none) (hs : j < DEFAULT_TRANSACTION_SIZE)
    (hi : i < j) (hn : j - i ≤ n) : (findFree txs n i).isSome := by
  induction n generalizing i with
  | zero => omega
  | succ n ih =>
    have hnext : nextIdentifier i = i + 1 := if_neg (by omega)
    simp only [findFree, hnext]
    split
    · rfl
    · rename_i hc
      by_cases e : i + 1 = j
      · subst e; simp [hj] at hc
      · exact ih (by omega) (by omega)

theorem findFree_above (hj : txs j = none) (h0 : 0 < j)
    (hs : i < DEFAULT_TRANSACTION_SIZE) (hi : j ≤ i) (hn : DEFAULT_TRANSACTION_SIZE - i + (j - 1) ≤ n) :
    (findFree txs n i).isSome := by
  induction n generalizing i with
  | zero => omega
  | succ n ih =>
    simp only [findFree]
    split
    · rfl
    · rename_i hc
      by_cases e : i + 1 < DEFAULT_TRANSACTION_SIZE
      · have hnext : nextIdentifier i = i + 1 := if_neg (by omega)
        rw [hnext]
        exact ih e (by omega) (by omega)
      · have hnext : nextIdentifier i = 1 := if_pos (by omega)
        rw [hnext] at hc ⊢
        by_cases e1 : j = 1
        · subst e1; simp [hj] at hc
        · exact findFree_below hj (by omega) (by omega) (by omega)

theorem rescan_the_lt (txs : Nat → Option α) (is : List Nat) {p : Nat × Nat} (h : p.1 < DEFAULT_TRANSACTION_SIZE) :
    (is.foldl (rescanTurn txs) p).1 < DEFAULT_TRANSACTION_SIZE := by
  induction is generalizing p with
  | nil => exact h
  | cons i is ih =>
    refine ih ?_
    unfold rescanTurn
    split <;> split <;> try exact h
    split <;> simp only <;> omega

theorem rescanTurn_max (txs : Nat → Option α) (p : Nat × Nat) (i : Nat) : p.2 ≤ (rescanTurn txs p i).2 := by
  unfold rescanTurn
  split <;> split <;> simp only [Nat.le_refl]
  omega

theorem rescan_max_le (txs : Nat → Option α) (is : List Nat) (p : Nat × Nat) :
    p.2 ≤ (is.foldl (rescanTurn txs) p).2 := by
  induction is generalizing p with
  | nil => exact Nat.le_refl _
  | cons i is ih => exact Nat.le_trans (rescanTurn_max txs p i) (ih _)

theorem le_rescan_max {is : List Nat} (hi : i ∈ is) (hl : (txs i).isSome)
    (p : Nat × Nat) : i ≤ (is.foldl (rescanTurn txs) p).2 := by
  induction is generalizing p with
  | nil => cases hi
  | cons j is ih =>
    rcases List.mem_cons.mp hi with rfl | h
    · refine Nat.le_trans ?_ (rescan_max_le txs is _)
      unfold rescanTurn
      obtain ⟨x, hx⟩ := Option.isSome_iff_exists.mp hl
      simp only [hx]
      split
      · exact Nat.le_refl _
      · omega
    · exact ih h _

/-! ## The operations -/

namespace Table

def empty : Table α := ⟨0, 0, fun _ => none, by decide, fun _ h => by simp at h⟩

/-- The scan order of every loop `i < (s_maxIdentifier + 1)`. -/
def scan (t : Table α) : List Nat := List.range (t.maxIdentifier + 1)

/-- Transaction::create: the identifier and the table with `mk` in its slot. -/
def create (t : Table α) (mk : Nat → α) : Option (Nat × Table α) :=
  match h : findFree t.transactions DEFAULT_TRANSACTION_SIZE t.theIdentifier with
  | none => none
  | some i => some (i,
      { theIdentifier := i
        maxIdentifier := if i > t.maxIdentifier then i else t.maxIdentifier
        transactions := update t.transactions i (some (mk i))
        the_lt := (findFree_some h).2.2
        live := by
          intro j hj
          obtain ⟨-, h0, hs⟩ := findFree_some h
          by_cases e : j = i
          · subst e; refine ⟨h0, hs, ?_⟩; split <;> omega
          · obtain ⟨hp, hlt, hm⟩ := t.live j (by simpa [update_of_ne e] using hj)
            refine ⟨hp, hlt, ?_⟩
            split <;> omega })

/-- The table part of Transaction::destroy. -/
def destroy (t : Table α) (i : Nat) : Table α :=
  let txs := update t.transactions i none
  let p := t.scan.foldl (rescanTurn txs) (t.theIdentifier, 0)
  { theIdentifier := p.1
    maxIdentifier := p.2
    transactions := txs
    the_lt := rescan_the_lt txs t.scan t.the_lt
    live := by
      intro j hj
      have hne : j ≠ i := fun e => by subst e; simp [txs] at hj
      obtain ⟨h0, hs, hm⟩ := t.live j (by simpa [txs, update_of_ne hne] using hj)
      exact ⟨h0, hs, le_rescan_max (List.mem_range.mpr (by omega)) hj _⟩ }

/-- Replace what the transaction object at `i` holds; nothing if there is none. -/
def set (t : Table α) (i : Nat) (x : α) : Table α :=
  { t with
    transactions := if (t.transactions i).isSome then update t.transactions i (some x) else t.transactions
    live := by
      intro j hj
      refine t.live j ?_
      split at hj
      · by_cases e : j = i
        · subst e; assumption
        · simpa [update_of_ne e] using hj
      · exact hj }

variable {t : Table α} {i : Nat}

theorem create_eq_some {t' : Table α} {mk : Nat → α} (h : t.create mk = some (i, t')) :
    t.transactions i = none ∧ t'.transactions = update t.transactions i (some (mk i)) := by
  unfold create at h
  split at h
  · cases h
  · cases h
    exact ⟨(findFree_some ‹_›).1, rfl⟩

/-- create returns exactly if some identifier is free, wherever the search starts. -/
theorem create_isSome_iff (mk : Nat → α) :
    (t.create mk).isSome ↔ ∃ i, 0 < i ∧ i < DEFAULT_TRANSACTION_SIZE ∧ t.transactions i = none := by
  unfold create
  split
  · rename_i hc
    refine iff_of_false Bool.false_ne_true ?_
    rintro ⟨i, h0, hs, hi⟩
    have hf : (findFree t.transactions DEFAULT_TRANSACTION_SIZE t.theIdentifier).isSome := by
      by_cases e : t.theIdentifier < i
      · exact findFree_below hi hs e (by omega)
      · exact findFree_above hi h0 t.the_lt (by omega) (by omega)
    simp [hc] at hf
  · rename_i i hc
    obtain ⟨hi, h0, hs⟩ := findFree_some hc
    exact iff_of_true rfl ⟨i, h0, hs, hi⟩

@[simp] theorem destroy_transactions (t : Table α) (i : Nat) :
    (t.destroy i).transactions = update t.transactions i none := rfl

theorem set_transactions {x y : α} (h : t.transactions i = some y) :
    (t.set i x).transactions = update t.transactions i (some x) := by simp [set, h]

theorem mem_scan {x : α} (h : t.transactions i = some x) : i ∈ t.scan := by
  have := t.live i (by simp [h])
  exact List.mem_range.mpr (by omega)

end Table

end DeepFabric.Transaction
