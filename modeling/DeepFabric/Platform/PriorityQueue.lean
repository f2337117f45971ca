/-
  DeepFabric.Platform.PriorityQueue — the priority queue's calls in any order (`PriorityQueue.h`).

  The heap itself is `Lib.PriorityQueue`; here are its runs, with what was added and what was taken
  out kept as histories. The comparator is any total preorder, so that level elements may be many.

  As built `removeAt` lets the element that fills the gap only sink: `last_before_new_parent`.
-/
import Mathlib.Order.Antisymmetrization
import Mathlib.Order.WithBot
import DeepFabric.Lib.PriorityQueue
import DeepFabric.Lib.Run

namespace DeepFabric.Platform.PriorityQueues

open Lib.Run
open Lib.PriorityQueue

variable {α : Type}

/-- What a comparator must be: a total order, in which elements may be level. -/
structure TotalOrder (cmp : α → α → Int) : Prop where
  swap : ∀ a b, cmp a b < 0 ↔ 0 < cmp b a
  trans : ∀ a b c, cmp a b ≤ 0 → cmp b c ≤ 0 → cmp a c ≤ 0

/-- No element compares less than its parent. -/
def HeapOrder (cmp : α → α → Int) (xs : Array α) : Prop :=
  ∀ i c p, 0 < i → xs[i]? = some c → xs[parentOf i]? = some p → ¬cmp c p < 0

/-- The queue, what was added to it, and what was taken out of it. -/
structure St (α : Type) where
  queue : Array α
  added : List α
  removed : List α
  deriving DecidableEq

def init : St α := ⟨#[], [], []⟩

inductive Ev (α : Type) where
  | add (v : α)
  | remove
  | removeAt (i : Nat)
  | removeElement (e : α)

/-- `ArrayList::indexOf`: the first place whose element equals the one given. -/
def indexOf (equals : α → α → Bool) (xs : Array α) (e : α) : Option Nat := xs.findIdx? (equals · e)

variable (cmp : α → α → Int) (equals : α → α → Bool)

def take (s : St α) (i : Nat) : Option (St α) :=
  (removeAt cmp s.queue i).map fun (v, queue) => ⟨queue, s.added, v :: s.removed⟩

def step (s : St α) : Ev α → Option (St α)
  | .add v => some { s with queue := add cmp s.queue v, added := v :: s.added }
  | .remove => take cmp s 0
  | .removeAt i => take cmp s i
  | .removeElement e =>
    match indexOf equals s.queue e with
    | none => some s
    | some i => take cmp s i

/-- The last element does not come before the parent of the place it is to fill. -/
def settles (xs : Array α) (i : Nat) : Bool :=
  i = 0 || i + 1 = xs.size ||
    match xs[xs.size - 1]?, xs[parentOf i]? with
    | some last, some p => !(cmp last p < 0)
    | _, _ => true

/-- The calls with a place in range that keep the order. -/
def Settles (s : St α) : Ev α → Prop
  | .add _ => True
  | .remove => 0 < s.queue.size
  | .removeAt i => i < s.queue.size ∧ settles cmp s.queue i = true
  | .removeElement e => ∀ i ∈ indexOf equals s.queue e, settles cmp s.queue i = true

/-- The heap order, what is in the queue, and that what `remove` would take out now is a least element. -/
structure Ordered (s : St α) : Prop where
  order : HeapOrder cmp s.queue
  exact : (s.removed ++ s.queue.toList).Perm s.added
  least : ∀ v queue, removeAt cmp s.queue 0 = some (v, queue) → ∀ a ∈ s.queue, ¬cmp a v < 0

/-- As built: the 4 fills the place of the 10 and comes before its new parent, the 9. -/
theorem last_before_new_parent :
    ∃ s, exec (step (· - ·) (· == ·)) (init : St Int) ([1, 9, 2, 10, 11, 3, 4].map .add ++ [.removeAt 3]) = some s ∧
      s.queue = #[1, 9, 2, 4, 11, 3] ∧ ¬HeapOrder (· - ·) s.queue := by
  refine ⟨⟨#[1, 9, 2, 4, 11, 3], [4, 3, 11, 10, 2, 9, 1], [10]⟩, by decide +kernel, rfl, fun h => ?_⟩
  exact h 3 4 9 (by decide) rfl rfl (by decide)

variable {cmp equals}

/-! ## Ranks -/

section Ranks

variable (hc : TotalOrder cmp)

include hc

theorem TotalOrder.self (a : α) : cmp a a ≤ 0 := by
  have := hc.swap a a
  omega

theorem TotalOrder.total (a b : α) : cmp a b ≤ 0 ∨ cmp b a ≤ 0 := by
  have := hc.swap b a
  omega

/-- The classes of level elements are in a linear order; below them all one rank is left for places beyond the array. -/
theorem TotalOrder.ranks :
    ∃ (β : Type) (_ : LinearOrder β) (rank : α → β) (_ : β), Ranks cmp (fun _ => True) rank ∧ ∀ a b, rank a ≤ rank b ↔ cmp a b ≤ 0 := by
  classical
  let _ : Preorder α := { le := fun a b => cmp a b ≤ 0, le_refl := hc.self, le_trans := hc.trans }
  have : Std.Total (α := α) (· ≤ ·) := ⟨hc.total⟩
  have hle : ∀ a b : α, (toAntisymmetrization (· ≤ ·) a : WithBot (Antisymmetrization α (· ≤ ·))) ≤ toAntisymmetrization (· ≤ ·) b ↔
      cmp a b ≤ 0 := fun a b => WithBot.coe_le_coe.trans toAntisymmetrization_le_toAntisymmetrization_iff
  refine ⟨WithBot (Antisymmetrization α (· ≤ ·)), inferInstance, fun a => ((toAntisymmetrization (· ≤ ·) a :
    Antisymmetrization α (· ≤ ·)) : WithBot (Antisymmetrization α (· ≤ ·))), ⊥, ⟨fun {a b} _ _ hlt => ?_, fun {a b} _ _ hlt => ?_⟩, hle⟩
  · have hnot := mt (hle b a).mpr (not_le.mpr hlt)
    have := hc.swap a b
    omega
  · have hnot := mt (hle a b).mpr (not_le.mpr hlt)
    omega

theorem not_lt_iff {a b : α} : ¬cmp a b < 0 ↔ cmp b a ≤ 0 := by
  have := hc.swap a b
  omega

end Ranks

section Order

variable {β : Type} [LinearOrder β] {rank : α → β} {xs : Array α} (d : β)

theorem heapOrder_iff (hc : TotalOrder cmp) (hle : ∀ a b, rank a ≤ rank b ↔ cmp a b ≤ 0) : HeapOrder cmp xs ↔ Heap xs.size (ranks rank d xs) := by
  constructor
  · intro h i hpos hi
    have hparent : parentOf i < xs.size := by
      unfold parentOf
      omega
    have hci : xs[i]? = some xs[i] := Array.getElem?_eq_getElem hi
    have hpi : xs[parentOf i]? = some xs[parentOf i] := Array.getElem?_eq_getElem hparent
    rw [ranks_get d hci, ranks_get d hpi, hle]
    exact (not_lt_iff hc).mp (h i _ _ hpos hci hpi)
  · intro h i c p hpos hci hpi
    obtain ⟨hi, -⟩ := Array.getElem?_eq_some_iff.mp hci
    have := h i hpos hi
    rw [ranks_get d hci, ranks_get d hpi, hle] at this
    exact (not_lt_iff hc).mpr this

theorem settles_iff (hc : TotalOrder cmp) (hle : ∀ a b, rank a ≤ rank b ↔ cmp a b ≤ 0) {i : Nat} (hi : i < xs.size) :
    settles cmp xs i = true ↔ (0 < i → i + 1 < xs.size → ranks rank d xs (parentOf i) ≤ ranks rank d xs (xs.size - 1)) := by
  have hparent : parentOf i < xs.size := by
    unfold parentOf
    omega
  have hlast : xs[xs.size - 1]? = some xs[xs.size - 1] := Array.getElem?_eq_getElem (by omega)
  have hpi : xs[parentOf i]? = some xs[parentOf i] := Array.getElem?_eq_getElem hparent
  rw [settles, ranks_get d hlast, ranks_get d hpi, hle, hlast, hpi, ← not_lt_iff hc]
  simp only [Bool.or_eq_true, decide_eq_true_eq, Bool.not_eq_true', decide_eq_false_iff_not]
  constructor
  · rintro ((h | h) | h) h1 h2
    · omega
    · omega
    · exact h
  · intro h
    by_cases h0 : i = 0
    · exact .inl (.inl h0)
    · by_cases h1 : i + 1 = xs.size
      · exact .inl (.inr h1)
      · exact .inr (h (by omega) (by omega))

end Order

/-! ## One call -/

section Calls

variable {s s' : St α} {i : Nat}

theorem take_eq_some (h : take cmp s i = some s') :
    ∃ v, removeAt cmp s.queue i = some (v, s'.queue) ∧ s'.added = s.added ∧ s'.removed = v :: s.removed := by
  obtain ⟨⟨v, queue⟩, hr, rfl⟩ := Option.map_eq_some_iff.mp h
  exact ⟨v, hr, rfl, rfl⟩

theorem take_some (hi : i < s.queue.size) : ∃ s', take cmp s i = some s' := by
  rw [take, removeAt, Array.getElem?_eq_getElem hi]
  exact ⟨_, rfl⟩

theorem lt_of_take (h : take cmp s i = some s') : i < s.queue.size := by
  obtain ⟨v, hr, -⟩ := take_eq_some h
  obtain ⟨w, hw, -⟩ := Option.map_eq_some_iff.mp hr
  exact (Array.getElem?_eq_some_iff.mp hw).1

theorem take_exact (h : take cmp s i = some s') (hs : (s.removed ++ s.queue.toList).Perm s.added) :
    (s'.removed ++ s'.queue.toList).Perm s'.added := by
  obtain ⟨v, hr, hadded, hremoved⟩ := take_eq_some h
  rw [hadded, hremoved]
  refine .trans ?_ hs
  exact List.perm_middle.symm.trans ((removeAt_perm hr).append_left s.removed)

theorem lt_of_indexOf {e : α} (h : indexOf equals s.queue e = some i) : i < s.queue.size := by
  obtain ⟨hi, -⟩ := Array.findIdx?_eq_some_iff_findIdx_eq.mp h
  exact hi

theorem step_exact {e : Ev α} (h : step cmp equals s e = some s') (hs : (s.removed ++ s.queue.toList).Perm s.added) :
    (s'.removed ++ s'.queue.toList).Perm s'.added := by
  cases e with
  | add v =>
    cases h
    exact ((add_perm s.queue v).append_left s.removed).trans (List.perm_middle.trans (hs.cons v))
  | remove => exact take_exact h hs
  | removeAt i => exact take_exact h hs
  | removeElement e =>
    rw [step] at h
    split at h
    · cases h
      exact hs
    · exact take_exact h hs

variable (hc : TotalOrder cmp)

include hc

theorem least_of_order (h : HeapOrder cmp s.queue) :
    ∀ v queue, removeAt cmp s.queue 0 = some (v, queue) → ∀ a ∈ s.queue, ¬cmp a v < 0 := by
  obtain ⟨β, _, rank, d, hrank, hle⟩ := hc.ranks
  intro v queue hr a ha
  rw [not_lt_iff hc, ← hle]
  obtain ⟨-, hleast⟩ := remove_heap d hrank (fun _ _ => trivial) ((heapOrder_iff d hc hle).mp h) hr
  rcases List.mem_cons.mp ((removeAt_perm hr).mem_iff.mpr (Array.mem_toList_iff.mpr ha)) with rfl | ha
  · exact le_refl _
  · exact hleast a (Array.mem_toList_iff.mp ha)

/-- Taking out keeps the order exactly if the last element settles in the gap. -/
theorem take_order_iff (h : HeapOrder cmp s.queue) (ht : take cmp s i = some s') :
    HeapOrder cmp s'.queue ↔ settles cmp s.queue i = true := by
  obtain ⟨β, _, rank, d, hrank, hle⟩ := hc.ranks
  obtain ⟨v, hr, -⟩ := take_eq_some ht
  have hheap := (heapOrder_iff d hc hle).mp h
  rw [heapOrder_iff d hc hle, settles_iff d hc hle (lt_of_take ht)]
  constructor
  · intro hheap' hpos hi
    refine not_lt.mp fun hlt => ?_
    exact removeAt_not_heap d hrank (fun _ _ => trivial) hheap hr hpos hi hlt hheap'
  · exact removeAt_heap d hrank (fun _ _ => trivial) hheap hr

theorem add_order {v : α} (h : HeapOrder cmp s.queue) : HeapOrder cmp (add cmp s.queue v) := by
  obtain ⟨β, _, rank, d, hrank, hle⟩ := hc.ranks
  rw [heapOrder_iff d hc hle] at h ⊢
  exact add_heap d hrank (fun _ _ => trivial) trivial h

theorem step_ordered {e : Ev α} (h : Ordered cmp s) (hok : Settles cmp equals s e) : ∃ s', step cmp equals s e = some s' ∧ Ordered cmp s' := by
  have htake {i : Nat} (hi : i < s.queue.size) (hsettles : settles cmp s.queue i = true) : ∃ s', take cmp s i = some s' ∧ Ordered cmp s' := by
    obtain ⟨s', hs'⟩ := take_some hi
    have horder := (take_order_iff hc h.order hs').mpr hsettles
    exact ⟨s', hs', horder, take_exact hs' h.exact, least_of_order hc horder⟩
  cases e with
  | add v =>
    have horder := add_order hc h.order (v := v)
    exact ⟨_, rfl, horder, ((add_perm s.queue v).append_left s.removed).trans (List.perm_middle.trans (h.exact.cons v)), least_of_order hc horder⟩
  | remove => exact htake hok rfl
  | removeAt i => exact htake hok.1 hok.2
  | removeElement e =>
    rw [step]
    cases hindex : indexOf equals s.queue e with
    | none => exact ⟨s, rfl, h⟩
    | some i => exact htake (lt_of_indexOf hindex) (hok i hindex)

theorem settles_of_ordered {e : Ev α} (h : Ordered cmp s) (hs : step cmp equals s e = some s') (h' : Ordered cmp s') : Settles cmp equals s e := by
  cases e with
  | add v => trivial
  | remove => exact lt_of_take hs
  | removeAt i => exact ⟨lt_of_take hs, (take_order_iff hc h.order hs).mp h'.order⟩
  | removeElement e =>
    intro i hi
    rw [step, hi] at hs
    exact (take_order_iff hc h.order hs).mp h'.order

end Calls

/-! ## All along a run -/

theorem init_ordered : Ordered cmp (init : St α) where
  order i c p _ hc := by cases hc
  exact := .refl _
  least v queue h := by cases h

/-- In every run, whatever is removed: the queue is what was added and not taken out. -/
theorem queue_exact {s : St α} (es : List (Ev α)) (h : exec (step cmp equals) init es = some s) : (s.removed ++ s.queue.toList).Perm s.added :=
  (reach_of_exec es h).inv (P := fun s => (s.removed ++ s.queue.toList).Perm s.added) (.refl _) fun hp _ hst => step_exact hst hp

theorem queue_exact_three : ((St.removed ⟨#[(4 : Int)], [3, 2, 4], [3, 2]⟩) ++ [4]).Perm [3, 2, 4] :=
  @queue_exact Int (· - ·) (· == ·) ⟨#[4], [3, 2, 4], [3, 2]⟩ [.add 4, .add 2, .add 3, .removeElement 2, .remove] (by decide +kernel)

/-- All along a run no element comes before its parent, and `remove` would take out a least one, exactly if the last element
    settles in every gap the run makes. -/
theorem heap_iff (cmp : α → α → Int) (equals : α → α → Bool) (hc : TotalOrder cmp) (es : List (Ev α)) :
    (∀ l, l <+: es → ∃ s, exec (step cmp equals) init l = some s ∧ Ordered cmp s) ↔
      Meets (step cmp equals) (Settles cmp equals) init es := by
  have hmeets : ∀ {s : St α} {r : Unit} {e : Ev α}, Ordered cmp s → Settles cmp equals s e →
      ∃ s', step cmp equals s e = some s' ∧ Ordered cmp s' := step_ordered hc
  have hsettles : ∀ {s s' : St α} {r : Unit} {e : Ev α}, Ordered cmp s → step cmp equals s e = some s' → Ordered cmp s' →
      Settles cmp equals s e := settles_of_ordered hc
  exact @meets_iff _ _ _ _ Unit (fun _ _ => ()) (fun s _ => Ordered cmp s) (fun s _ => Ordered cmp s) id @hmeets @hsettles init ()
    init_ordered es

theorem sub_totalOrder : TotalOrder (fun a b : Int => a - b) where
  swap a b := by omega
  trans a b c := by omega

/-- Removing from the middle in one subtree. -/
theorem heap_after_middle : TotalOrder (fun a b : Int => a - b) ∧
    ((∀ l, l <+: [Ev.add 4, .add 2, .add 3, .removeElement 2, .remove] →
      ∃ s, exec (step (fun a b : Int => a - b) (· == ·)) init l = some s ∧ Ordered (fun a b : Int => a - b) s) ↔
        Meets (step (fun a b : Int => a - b) (· == ·)) (Settles (fun a b : Int => a - b) (· == ·)) init
          [Ev.add 4, .add 2, .add 3, .removeElement 2, .remove]) :=
  ⟨sub_totalOrder, heap_iff _ _ sub_totalOrder _⟩

end DeepFabric.Platform.PriorityQueues
