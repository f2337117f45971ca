/-
  DeepFabric.Lib.LinkedCells — linked lists in a heap: cells with a content and a link.

  A list of cells is laid from one link to another. The list may end nowhere, or where it began.

  - `laid_append`: two parts of a list, with the link between them.
  - `Laid.congr`: a list hangs on its own cells alone.
  - `Laid.setNext`: the link of the last cell is set to another one.
-/
import Mathlib.Data.List.Basic

namespace DeepFabric.Lib.LinkedCells

variable {α ι : Type}

structure Cell (α ι : Type) where
  info : ι
  next : Option α
  deriving DecidableEq, Repr

/-- None where nothing is allocated. -/
abbrev Heap (α ι : Type) := α → Option (Cell α ι)

/-- The cells from the first link on, up to the second one. -/
def Laid (heap : Heap α ι) : Option α → List (α × ι) → Option α → Prop
  | p, [], q => p = q
  | p, c :: l, q => p = some c.1 ∧ ∃ next, heap c.1 = some ⟨c.2, next⟩ ∧ Laid heap next l q

variable {heap heap' : Heap α ι} {p q m : Option α} {l r : List (α × ι)} {c : α × ι} {a b : α}

@[simp] theorem laid_nil : Laid heap p [] q ↔ p = q := Iff.rfl

@[simp] theorem laid_cons : Laid heap p (c :: l) q ↔ p = some c.1 ∧ ∃ next, heap c.1 = some ⟨c.2, next⟩ ∧ Laid heap next l q := Iff.rfl

theorem laid_append : Laid heap p (l ++ r) q ↔ ∃ m, Laid heap p l m ∧ Laid heap m r q := by
  induction l generalizing p with
  | nil => simp
  | cons c l ih =>
    rw [List.cons_append, laid_cons]
    constructor
    · rintro ⟨hp, next, hcell, hrest⟩
      obtain ⟨m, hl, hr⟩ := ih.mp hrest
      exact ⟨m, ⟨hp, next, hcell, hl⟩, hr⟩
    · rintro ⟨m, ⟨hp, next, hcell, hl⟩, hr⟩
      exact ⟨hp, next, hcell, ih.mpr ⟨m, hl, hr⟩⟩

/-- Where a list begins. -/
theorem Laid.first (h : Laid heap p l q) : p = (l.head?.map (·.1)).or q := by
  cases l with
  | nil => exact h
  | cons c l => exact h.1

theorem Laid.cell (h : Laid heap p l q) (hc : c ∈ l) : ∃ next, heap c.1 = some ⟨c.2, next⟩ := by
  induction l generalizing p with
  | nil => exact absurd hc List.not_mem_nil
  | cons d l ih =>
    obtain ⟨-, next, hcell, hrest⟩ := h
    rcases List.mem_cons.mp hc with rfl | hc
    · exact ⟨next, hcell⟩
    · exact ih hrest hc

theorem Laid.congr (h : Laid heap p l q) (hsame : ∀ c ∈ l, heap' c.1 = heap c.1) : Laid heap' p l q := by
  induction l generalizing p with
  | nil => exact h
  | cons c l ih =>
    obtain ⟨hp, next, hcell, hrest⟩ := h
    refine ⟨hp, next, ?_, ih hrest (List.forall_mem_cons.mp hsame).2⟩
    rw [hsame c List.mem_cons_self]
    exact hcell

/-! ## Writes -/

section Writes
variable [DecidableEq α]

def setNext (heap : Heap α ι) (a : α) (next : Option α) : Heap α ι :=
  fun b => if b = a then (heap a).map fun cell => { cell with next := next } else heap b

def free (heap : Heap α ι) (a : α) : Heap α ι := fun b => if b = a then none else heap b

@[simp] theorem setNext_self (next : Option α) : setNext heap a next a = (heap a).map fun cell => { cell with next := next } := if_pos rfl

theorem setNext_of_ne (next : Option α) (h : b ≠ a) : setNext heap a next b = heap b := if_neg h

@[simp] theorem free_self : free heap a a = none := if_pos rfl

theorem free_of_ne (h : b ≠ a) : free heap a b = heap b := if_neg h

/-- The last cell goes on elsewhere. -/
theorem Laid.setNext (h : Laid heap p (l ++ [c]) q) (hout : c.1 ∉ l.map (·.1)) (m : Option α) :
    Laid (LinkedCells.setNext heap c.1 m) p (l ++ [c]) m := by
  obtain ⟨n, hl, hn, next, hcell, -⟩ := laid_append.mp h
  refine laid_append.mpr ⟨n, hl.congr fun d hd => setNext_of_ne m fun heq => hout (List.mem_map.mpr ⟨d, hd, heq⟩), hn, m, ?_, rfl⟩
  rw [setNext_self, hcell, Option.map_some]

end Writes

end DeepFabric.Lib.LinkedCells
