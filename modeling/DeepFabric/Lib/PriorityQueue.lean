/-
  DeepFabric.Lib.PriorityQueue — a binary heap in an array, ordered by a comparator.

  - `order_perm`: what is added comes out, each element once, whatever the comparator says.
  - `order_sorted`: if the comparator agrees with a rank of the elements, they come out by
    rank.
  - `removeAt_heap`, `removeAt_not_heap`: removing from the middle keeps the heap exactly if the
    last element does not come before the parent of the place it moves to.

  The two sifts compare in the order given: an odd child with its parent, an even child the
  other way round.
-/
import Mathlib.Order.Lattice
import Mathlib.Data.List.Basic
import Mathlib.Order.Basic
import Mathlib.Order.Defs.LinearOrder

namespace DeepFabric.Lib.PriorityQueue

open List Option

def parentOf (child : Nat) : Nat := (child - 1) / 2

def leftChild (parent : Nat) : Nat := 2 * parent + 1

variable {α : Type} (cmp : α → α → Int)

/-- Whether a child is to come before its parent. -/
def rises (child : Nat) (c p : α) : Bool := if child % 2 = 1 then cmp c p < 0 else 0 < cmp p c

def reheapifyUp : Nat → Nat → Array α → Array α
  | 0, _, xs => xs
  | fuel + 1, child, xs =>
    if child = 0 then xs
    else
      match xs[child]?, xs[parentOf child]? with
      | some c, some p =>
        if rises cmp child c p then
          reheapifyUp fuel (parentOf child) (xs.swapIfInBounds child (parentOf child))
        else xs
      | _, _ => xs

/-- The smaller child, the left one if they are level. -/
def minChild (xs : Array α) (left : Nat) (l : α) : Nat × α :=
  match xs[left + 1]? with
  | some r => if 0 < cmp l r then (left + 1, r) else (left, l)
  | none => (left, l)

def reheapifyDown : Nat → Nat → Array α → Array α
  | 0, _, xs => xs
  | fuel + 1, parent, xs =>
    match xs[leftChild parent]?, xs[parent]? with
    | some l, some p =>
      if 0 < cmp p (minChild cmp xs (leftChild parent) l).2 then
        reheapifyDown fuel (minChild cmp xs (leftChild parent) l).1 (xs.swapIfInBounds parent (minChild cmp xs (leftChild parent) l).1)
      else xs
    | _, _ => xs

def add (xs : Array α) (v : α) : Array α := reheapifyUp cmp (xs.size + 1) xs.size (xs.push v)

def addAll (l : List α) : Array α := l.foldl (add cmp) #[]

def remove (xs : Array α) : Option (α × Array α) :=
  xs[0]?.map fun v =>
    (v, if 1 < xs.size then reheapifyDown cmp xs.size 0 (xs.swapIfInBounds 0 (xs.size - 1)).pop else xs.pop)

/-- Removing from any place: the last element moves there, and down from there. -/
def removeAt (xs : Array α) (i : Nat) : Option (α × Array α) :=
  xs[i]?.map fun v =>
    (v, if 1 < xs.size - i then reheapifyDown cmp xs.size i (xs.swapIfInBounds i (xs.size - 1)).pop else xs.pop)

def drain : Nat → Array α → List α
  | 0, _ => []
  | fuel + 1, xs =>
    match remove cmp xs with
    | some (v, xs) => v :: drain fuel xs
    | none => []

/-- The order in which elements come out that were added in the order given. -/
def order (l : List α) : List α := drain cmp l.length (addAll cmp l)

/-! ## What comes out -/

variable {cmp}

theorem swap_perm (xs : Array α) (i j : Nat) : (xs.swapIfInBounds i j).Perm xs := by
  rw [Array.swapIfInBounds_def]
  split_ifs with hi hj
  · exact Array.swap_perm hi hj
  · exact .refl _
  · exact .refl _

theorem reheapifyUp_perm (fuel child : Nat) (xs : Array α) : (reheapifyUp cmp fuel child xs).Perm xs := by
  induction fuel generalizing child xs with
  | zero => exact .refl _
  | succ fuel ih =>
    unfold reheapifyUp
    split
    · exact .refl _
    · split
      · split
        · exact (ih _ _).trans (swap_perm _ _ _)
        · exact .refl _
      · exact .refl _

theorem reheapifyDown_perm (fuel parent : Nat) (xs : Array α) : (reheapifyDown cmp fuel parent xs).Perm xs := by
  induction fuel generalizing parent xs with
  | zero => exact .refl _
  | succ fuel ih =>
    unfold reheapifyDown
    split
    · split
      · exact (ih _ _).trans (swap_perm _ _ _)
      · exact .refl _
    · exact .refl _

theorem size_reheapifyUp (fuel child : Nat) (xs : Array α) : (reheapifyUp cmp fuel child xs).size = xs.size :=
  (reheapifyUp_perm fuel child xs).size_eq

theorem size_reheapifyDown (fuel parent : Nat) (xs : Array α) : (reheapifyDown cmp fuel parent xs).size = xs.size :=
  (reheapifyDown_perm fuel parent xs).size_eq

theorem add_perm (xs : Array α) (v : α) : (add cmp xs v).toList.Perm (v :: xs.toList) := by
  refine (Array.perm_iff_toList_perm.mp (reheapifyUp_perm _ _ _)).trans ?_
  rw [Array.toList_push]
  exact perm_append_singleton v xs.toList

theorem addAll_perm (l : List α) : (addAll cmp l).toList.Perm l := by
  suffices h : ∀ xs : Array α, (l.foldl (add cmp) xs).toList.Perm (xs.toList ++ l) from h #[]
  induction l with
  | nil => exact fun xs => by rw [append_nil]; exact .refl _
  | cons v l ih =>
    intro xs
    refine (ih (add cmp xs v)).trans ?_
    exact ((add_perm xs v).append_right l).trans perm_middle.symm

theorem getElem?_swap {xs : Array α} {i j : Nat} (hi : i < xs.size) (hj : j < xs.size) (k : Nat) :
    (xs.swapIfInBounds i j)[k]? = if k = i then xs[j]? else if k = j then xs[i]? else xs[k]? := by
  rw [Array.swapIfInBounds_def, dif_pos hi, dif_pos hj, Array.getElem?_swap, ← Array.getElem?_eq_getElem hi, ← Array.getElem?_eq_getElem hj]
  by_cases hki : k = i
  · by_cases hkj : k = j
    · rw [if_pos hkj.symm, if_pos hki, ← hki, ← hkj]
    · rw [if_neg (Ne.symm hkj), if_pos hki.symm, if_pos hki]
  · rw [if_neg hki, if_neg (Ne.symm hki)]
    by_cases hkj : k = j
    · rw [if_pos hkj, if_pos hkj.symm]
    · rw [if_neg hkj, if_neg (Ne.symm hkj)]

theorem removeAt_perm {xs ys : Array α} {i : Nat} {v : α} (h : removeAt cmp xs i = some (v, ys)) : (v :: ys.toList).Perm xs.toList := by
  obtain ⟨w, hw, he⟩ := map_eq_some_iff.mp h
  obtain ⟨hi, -⟩ := Array.getElem?_eq_some_iff.mp hw
  cases he
  split_ifs with hsize
  · have hlt : xs.size - 1 < xs.size := by omega
    have hlast : (xs.swapIfInBounds i (xs.size - 1)).toList.getLast? = some v := by
      rw [List.getLast?_eq_getElem?, Array.length_toList, Array.size_swapIfInBounds, Array.getElem?_toList, getElem?_swap hi hlt,
        if_neg (by omega), if_pos rfl, hw]
    have hpop : (xs.swapIfInBounds i (xs.size - 1)).pop.toList ++ [v] = (xs.swapIfInBounds i (xs.size - 1)).toList := by
      rw [Array.toList_pop]
      exact dropLast_append_getLast? v hlast
    refine ((Array.perm_iff_toList_perm.mp (reheapifyDown_perm _ _ _)).cons v).trans ?_
    refine (perm_append_singleton v _).symm.trans ?_
    rw [hpop]
    exact Array.perm_iff_toList_perm.mp (swap_perm _ _ _)
  · have hlast : xs.toList.getLast? = some v := by
      rw [List.getLast?_eq_getElem?, Array.length_toList, Array.getElem?_toList, show xs.size - 1 = i by omega, hw]
    refine (perm_append_singleton v _).symm.trans ?_
    rw [Array.toList_pop, dropLast_append_getLast? v hlast]

theorem remove_perm {xs ys : Array α} {v : α} (h : remove cmp xs = some (v, ys)) : (v :: ys.toList).Perm xs.toList :=
  removeAt_perm (i := 0) h

theorem remove_eq_none {xs : Array α} (h : remove cmp xs = none) : xs.toList = [] := by
  have hw : xs[0]? = none := map_eq_none_iff.mp h
  rw [← Array.getElem?_toList, List.getElem?_eq_none_iff] at hw
  exact eq_nil_of_length_eq_zero (Nat.le_zero.mp hw)

theorem drain_perm {fuel : Nat} {xs : Array α} (h : xs.toList.length ≤ fuel) : (drain cmp fuel xs).Perm xs.toList := by
  induction fuel generalizing xs with
  | zero =>
    rw [eq_nil_of_length_eq_zero (Nat.le_zero.mp h)]
    exact .refl _
  | succ fuel ih =>
    rw [drain]
    cases hr : remove cmp xs with
    | none =>
      rw [remove_eq_none hr]
    | some p =>
      obtain ⟨v, ys⟩ := p
      have hperm := remove_perm hr
      have hlen : ys.toList.length ≤ fuel := by
        have := hperm.length_eq
        rw [length_cons] at this
        omega
      exact ((ih hlen).cons v).trans hperm

theorem drain_mem {fuel : Nat} {xs : Array α} {a : α} (h : a ∈ drain cmp fuel xs) : a ∈ xs := by
  induction fuel generalizing xs with
  | zero => exact absurd h not_mem_nil
  | succ fuel ih =>
    rw [drain] at h
    cases hr : remove cmp xs with
    | none =>
      rw [hr] at h
      exact absurd h not_mem_nil
    | some p =>
      rw [hr] at h
      have hmem := (remove_perm hr).mem_iff (a := a)
      refine Array.mem_toList_iff.mp (hmem.mp ?_)
      rcases mem_cons.mp h with rfl | h
      · exact mem_cons_self
      · exact mem_cons_of_mem _ (Array.mem_toList_iff.mpr (ih h))

/-- Every element that was added comes out once. -/
theorem order_perm (l : List α) : (order cmp l).Perm l :=
  (drain_perm (Nat.le_of_eq (addAll_perm l).length_eq)).trans (addAll_perm l)

/-! ## In which order -/

section Heap

variable {β : Type} [LinearOrder β] {n : Nat} {g : Nat → β}

/-- No child is before its parent. -/
def Heap (n : Nat) (g : Nat → β) : Prop := ∀ i, 0 < i → i < n → g (parentOf i) ≤ g i

/-- All is well but for one place and its parent; the places below it are not before that parent. -/
structure HeapUp (n : Nat) (g : Nat → β) (child : Nat) : Prop where
  rest : ∀ i, 0 < i → i < n → i ≠ child → g (parentOf i) ≤ g i
  below : 0 < child → ∀ i, 0 < i → i < n → parentOf i = child → g (parentOf child) ≤ g i

/-- All is well but for one place and its children, which are not before the place's parent. -/
structure HeapDown (n : Nat) (g : Nat → β) (parent : Nat) : Prop where
  rest : ∀ i, 0 < i → i < n → parentOf i ≠ parent → g (parentOf i) ≤ g i
  below : 0 < parent → ∀ i, 0 < i → i < n → parentOf i = parent → g (parentOf parent) ≤ g i

def swapped (g : Nat → β) (i j k : Nat) : β := if k = i then g j else if k = j then g i else g k

omit [LinearOrder β] in
theorem swapped_left (i j : Nat) : swapped g i j i = g j := if_pos rfl

omit [LinearOrder β] in
theorem swapped_right (i j : Nat) : swapped g i j j = g i := by
  unfold swapped
  by_cases h : j = i
  · rw [if_pos h, h]
  · rw [if_neg h, if_pos rfl]

omit [LinearOrder β] in
theorem swapped_other {i j k : Nat} (hi : k ≠ i) (hj : k ≠ j) : swapped g i j k = g k := by
  rw [swapped, if_neg hi, if_neg hj]

variable {child : Nat}

theorem HeapUp.heap (h : HeapUp n g child) (hle : 0 < child → g (parentOf child) ≤ g child) : Heap n g := by
  intro i hi hn
  by_cases he : i = child
  · rw [he]
    exact hle (he ▸ hi)
  · exact h.rest i hi hn he

theorem HeapUp.move (h : HeapUp n g child) (hpos : 0 < child) (hn : child < n) (hle : g child ≤ g (parentOf child)) :
    HeapUp n (swapped g child (parentOf child)) (parentOf child) := by
  have hp : parentOf child < child := by
    unfold parentOf
    omega
  refine ⟨fun i hi hin hne => ?_, fun hpp i hi hin hpi => ?_⟩
  · have hpi : parentOf i < i := by
      unfold parentOf
      omega
    by_cases hic : i = child
    · rw [hic, swapped_left, swapped_right]
      exact hle
    · rw [swapped_other hic hne]
      by_cases h1 : parentOf i = child
      · rw [h1, swapped_left]
        exact h.below hpos i hi hin h1
      · by_cases h2 : parentOf i = parentOf child
        · rw [h2, swapped_right]
          exact le_trans hle (h2 ▸ h.rest i hi hin hic)
        · rw [swapped_other h1 h2]
          exact h.rest i hi hin hic
  · have hgrand : g (parentOf (parentOf child)) ≤ g (parentOf child) := h.rest _ hpp (by omega) (by omega)
    have hpp' : parentOf (parentOf child) < parentOf child := by
      unfold parentOf at hpp ⊢
      omega
    rw [swapped_other (by omega) (by omega)]
    by_cases hic : i = child
    · rw [hic, swapped_left]
      exact hgrand
    · have hine : i ≠ parentOf child := by
        intro he
        rw [he] at hpi
        omega
      rw [swapped_other hic hine]
      exact le_trans hgrand (hpi ▸ h.rest i hi hin hic)

theorem HeapDown.heap {parent : Nat} (h : HeapDown n g parent) (hle : ∀ i, 0 < i → i < n → parentOf i = parent → g parent ≤ g i) : Heap n g := by
  intro i hi hn
  by_cases he : parentOf i = parent
  · rw [he]
    exact hle i hi hn he
  · exact h.rest i hi hn he

theorem HeapDown.move {parent : Nat} (h : HeapDown n g parent) (hpos : 0 < child) (hn : child < n) (hpc : parentOf child = parent)
    (hle : g child ≤ g parent) (hmin : ∀ i, 0 < i → i < n → parentOf i = parent → g child ≤ g i) :
    HeapDown n (swapped g parent child) child := by
  have hp : parent < child := by
    unfold parentOf at hpc
    omega
  refine ⟨fun i hi hin hne => ?_, fun _ i hi hin hpi => ?_⟩
  · have hpi : parentOf i < i := by
      unfold parentOf
      omega
    by_cases h1 : parentOf i = parent
    · rw [h1, swapped_left]
      by_cases hic : i = child
      · rw [hic, swapped_right]
        exact hle
      · rw [swapped_other (by omega) hic]
        exact hmin i hi hin h1
    · rw [swapped_other h1 hne]
      by_cases hip : i = parent
      · rw [hip, swapped_left]
        exact h.below (hip ▸ hi) child hpos hn hpc
      · have hic : i ≠ child := by
          intro he
          rw [he] at h1
          exact h1 hpc
        rw [swapped_other hip hic]
        exact h.rest i hi hin h1
  · have hlt' : parentOf i < i := by
      unfold parentOf
      omega
    rw [hpc, swapped_left, swapped_other (by omega) (by omega)]
    have := h.rest i hi hin (by omega)
    rwa [hpi] at this

/-- The first place is not after any other. -/
theorem Heap.first (h : Heap n g) {i : Nat} (hi : i < n) : g 0 ≤ g i := by
  induction i using Nat.strongRecOn with
  | ind i ih =>
    rcases Nat.eq_zero_or_pos i with rfl | hpos
    · exact le_refl _
    · have hp : parentOf i < i := by
        unfold parentOf
        omega
      exact le_trans (ih _ hp (by omega)) (h i hpos hi)

end Heap

/-- The comparator agrees with a rank, on the elements there are; on level ones it is free. -/
structure Ranks {β : Type} [LinearOrder β] (cmp : α → α → Int) (S : α → Prop) (rank : α → β) : Prop where
  lt : ∀ {a b}, S a → S b → rank a < rank b → cmp a b < 0
  gt : ∀ {a b}, S a → S b → rank b < rank a → 0 < cmp a b

section Ranks

variable {β : Type} [LinearOrder β] {S : α → Prop} {rank : α → β} {a b : α}

theorem Ranks.le_of_neg (hc : Ranks cmp S rank) (ha : S a) (hb : S b) (h : cmp a b < 0) : rank a ≤ rank b :=
  not_lt.mp fun hlt => absurd h (Int.not_lt.mpr (Int.le_of_lt (hc.gt ha hb hlt)))

theorem Ranks.le_of_not_neg (hc : Ranks cmp S rank) (ha : S a) (hb : S b) (h : ¬cmp a b < 0) : rank b ≤ rank a :=
  not_lt.mp fun hlt => h (hc.lt ha hb hlt)

theorem Ranks.le_of_pos (hc : Ranks cmp S rank) (ha : S a) (hb : S b) (h : 0 < cmp a b) : rank b ≤ rank a :=
  not_lt.mp fun hlt => absurd h (Int.not_lt.mpr (Int.le_of_lt (hc.lt ha hb hlt)))

theorem Ranks.le_of_not_pos (hc : Ranks cmp S rank) (ha : S a) (hb : S b) (h : ¬0 < cmp a b) : rank a ≤ rank b :=
  not_lt.mp fun hlt => h (hc.gt ha hb hlt)

end Ranks

section Sorted

variable {β : Type} [LinearOrder β] {S : α → Prop} {rank : α → β} (d : β)

/-- The ranks in an array, and any rank beyond it. -/
def ranks (rank : α → β) (d : β) (xs : Array α) (i : Nat) : β := xs[i]?.elim d rank

variable {i : Nat}

omit [LinearOrder β] in
theorem ranks_get {xs : Array α} {a : α} (h : xs[i]? = some a) : ranks rank d xs i = rank a := by
  rw [ranks, h, elim_some]

omit [LinearOrder β] in
theorem ranks_swap {xs : Array α} {j : Nat} (hi : i < xs.size) (hj : j < xs.size) :
    ranks rank d (xs.swapIfInBounds i j) = swapped (ranks rank d xs) i j := by
  funext k
  rw [ranks, getElem?_swap hi hj, swapped]
  split_ifs <;> rfl

variable (hc : Ranks cmp S rank)

include hc

variable {child : Nat}

theorem le_of_rises {c p : α} (hcs : S c) (hps : S p) (h : rises cmp child c p = true) : rank c ≤ rank p := by
  unfold rises at h
  split_ifs at h
  · exact hc.le_of_neg hcs hps (decide_eq_true_eq.mp h)
  · exact hc.le_of_pos hps hcs (decide_eq_true_eq.mp h)

theorem le_of_not_rises {c p : α} (hcs : S c) (hps : S p) (h : ¬rises cmp child c p = true) : rank p ≤ rank c := by
  unfold rises at h
  split_ifs at h
  · exact hc.le_of_not_neg hcs hps fun hn => h (decide_eq_true_eq.mpr hn)
  · exact hc.le_of_not_pos hps hcs fun hn => h (decide_eq_true_eq.mpr hn)

variable {fuel : Nat}

theorem reheapifyUp_heap {xs : Array α} (hS : ∀ a ∈ xs, S a) (hfuel : child < fuel) (hsize : child < xs.size)
    (h : HeapUp xs.size (ranks rank d xs) child) : Heap xs.size (ranks rank d (reheapifyUp cmp fuel child xs)) := by
  induction fuel generalizing child xs with
  | zero => exact absurd hfuel (Nat.not_lt_zero _)
  | succ fuel ih =>
    unfold reheapifyUp
    by_cases h0 : child = 0
    · rw [if_pos h0]
      exact h.heap fun hpos => absurd h0 (Nat.ne_of_gt hpos)
    · have hp : parentOf child < child := by
        unfold parentOf
        omega
      have hcs : xs[child]? = some xs[child] := Array.getElem?_eq_getElem hsize
      have hps : xs[parentOf child]? = some xs[parentOf child] := Array.getElem?_eq_getElem (Nat.lt_trans hp hsize)
      rw [if_neg h0, hcs, hps]
      have hc1 : S xs[child] := hS _ (Array.getElem_mem hsize)
      have hp1 : S xs[parentOf child] := hS _ (Array.getElem_mem (Nat.lt_trans hp hsize))
      have hcr : ranks rank d xs child = rank xs[child] := ranks_get d hcs
      have hpr : ranks rank d xs (parentOf child) = rank xs[parentOf child] := ranks_get d hps
      by_cases hr : rises cmp child xs[child] xs[parentOf child] = true
      · simp only [hr, if_true]
        have hmove := h.move (Nat.pos_of_ne_zero h0) hsize (by rw [hcr, hpr]; exact le_of_rises hc hc1 hp1 hr)
        rw [← ranks_swap d hsize (Nat.lt_trans hp hsize)] at hmove
        have := @ih (parentOf child) (xs.swapIfInBounds child (parentOf child))
          (fun a ha => hS a ((swap_perm _ _ _).mem_iff.mp ha)) (by omega) (by rw [Array.size_swapIfInBounds]; omega)
          (by rw [Array.size_swapIfInBounds]; exact hmove)
        rwa [Array.size_swapIfInBounds] at this
      · simp only [hr]
        exact h.heap fun _ => by rw [hcr, hpr]; exact le_of_not_rises hc hc1 hp1 hr

theorem minChild_spec {xs : Array α} (hS : ∀ a ∈ xs, S a) {parent : Nat} {l : α} (hl : xs[leftChild parent]? = some l) :
    let m := minChild cmp xs (leftChild parent) l
    xs[m.1]? = some m.2 ∧ 0 < m.1 ∧ parentOf m.1 = parent ∧
      ∀ i, 0 < i → i < xs.size → parentOf i = parent → ranks rank d xs m.1 ≤ ranks rank d xs i := by
  have hchild {i : Nat} (hi : 0 < i) (hp : parentOf i = parent) : i = leftChild parent ∨ i = leftChild parent + 1 := by
    unfold parentOf at hp
    unfold leftChild
    omega
  have hpl : parentOf (leftChild parent) = parent := by
    unfold parentOf leftChild
    omega
  have hpr : parentOf (leftChild parent + 1) = parent := by
    unfold parentOf leftChild
    omega
  have hmem {i : Nat} {a : α} (h : xs[i]? = some a) : S a := hS a (Array.mem_of_getElem? h)
  have hrl : ranks rank d xs (leftChild parent) = rank l := ranks_get d hl
  unfold minChild
  cases hr : xs[leftChild parent + 1]? with
  | none =>
    refine ⟨hl, Nat.succ_pos _, hpl, fun i hi hn hp => ?_⟩
    rcases hchild hi hp with rfl | rfl
    · exact le_refl _
    · rw [Array.getElem?_eq_getElem hn] at hr
      cases hr
  | some r =>
    have hrr : ranks rank d xs (leftChild parent + 1) = rank r := ranks_get d hr
    by_cases hlt : 0 < cmp l r
    · simp only [hlt, if_true]
      refine ⟨hr, Nat.succ_pos _, hpr, fun i hi hn hp => ?_⟩
      rcases hchild hi hp with rfl | rfl
      · rw [hrl, hrr]
        exact hc.le_of_pos (hmem hl) (hmem hr) hlt
      · exact le_refl _
    · simp only [hlt, if_false]
      refine ⟨hl, Nat.succ_pos _, hpl, fun i hi hn hp => ?_⟩
      rcases hchild hi hp with rfl | rfl
      · exact le_refl _
      · rw [hrl, hrr]
        exact hc.le_of_not_pos (hmem hl) (hmem hr) hlt

theorem reheapifyDown_heap {parent : Nat} {xs : Array α} (hS : ∀ a ∈ xs, S a) (hfuel : xs.size ≤ fuel + parent)
    (h : HeapDown xs.size (ranks rank d xs) parent) : Heap xs.size (ranks rank d (reheapifyDown cmp fuel parent xs)) := by
  induction fuel generalizing parent xs with
  | zero =>
    refine h.heap fun i hi hn hp => ?_
    unfold parentOf at hp
    omega
  | succ fuel ih =>
    unfold reheapifyDown
    cases hl : xs[leftChild parent]? with
    | none =>
      have hsize : xs.size ≤ leftChild parent := by rwa [Array.getElem?_eq_none_iff] at hl
      refine h.heap fun i hi hn hp => ?_
      unfold leftChild at hsize
      unfold parentOf at hp
      omega
    | some l =>
      obtain ⟨hm, hpos, hpar, hmin⟩ := minChild_spec d hc hS hl
      obtain ⟨m, hmdef⟩ : ∃ m, m = minChild cmp xs (leftChild parent) l := ⟨_, rfl⟩
      rw [← hmdef] at hm hpos hpar hmin
      obtain ⟨hmn, -⟩ := Array.getElem?_eq_some_iff.mp hm
      have hlt : parent < m.1 := by
        unfold parentOf at hpar
        omega
      have hpn : parent < xs.size := Nat.lt_trans hlt hmn
      have hp : xs[parent]? = some xs[parent] := Array.getElem?_eq_getElem hpn
      have hpr : ranks rank d xs parent = rank xs[parent] := ranks_get d hp
      have hmr : ranks rank d xs m.1 = rank m.2 := ranks_get d hm
      have hp1 : S xs[parent] := hS _ (Array.getElem_mem hpn)
      have hm1 : S m.2 := hS _ (Array.mem_of_getElem? hm)
      simp only [hp, ← hmdef]
      by_cases hcmp : 0 < cmp xs[parent] m.2
      · simp only [hcmp, if_true]
        have hmove := h.move hpos hmn hpar (by rw [hpr, hmr]; exact hc.le_of_pos hp1 hm1 hcmp) hmin
        rw [← ranks_swap d hpn hmn] at hmove
        have := @ih m.1 (xs.swapIfInBounds parent m.1) (fun a ha => hS a ((swap_perm _ _ _).mem_iff.mp ha))
          (by rw [Array.size_swapIfInBounds]; omega) (by rw [Array.size_swapIfInBounds]; exact hmove)
        rwa [Array.size_swapIfInBounds] at this
      · simp only [hcmp, if_false]
        refine h.heap fun i hi hn hpi => le_trans ?_ (hmin i hi hn hpi)
        rw [hpr, hmr]
        exact hc.le_of_not_pos hp1 hm1 hcmp

variable {v : α}

theorem add_heap {xs : Array α} (hS : ∀ a ∈ xs, S a) (hv : S v) (h : Heap xs.size (ranks rank d xs)) :
    Heap (add cmp xs v).size (ranks rank d (add cmp xs v)) := by
  have hS' : ∀ a ∈ xs.push v, S a := fun a ha => (Array.mem_push.mp ha).elim (hS a) fun he => he ▸ hv
  have hranks {i : Nat} (hi : i < xs.size) : ranks rank d (xs.push v) i = ranks rank d xs i := by
    rw [ranks, Array.getElem?_push, if_neg (Nat.ne_of_lt hi), ranks]
  have hup : HeapUp (xs.push v).size (ranks rank d (xs.push v)) xs.size := by
    rw [Array.size_push]
    refine ⟨fun i hi hn hne => ?_, fun _ i hi hn hp => ?_⟩
    · have hp : parentOf i < i := by
        unfold parentOf
        omega
      rw [hranks (by omega), hranks (by omega)]
      exact h i hi (by omega)
    · unfold parentOf at hp
      omega
  unfold add
  rw [size_reheapifyUp]
  exact reheapifyUp_heap d hc hS' (Nat.lt_succ_self _) (by rw [Array.size_push]; exact Nat.lt_succ_self _) hup

theorem addAll_heap {l : List α} (hS : ∀ a ∈ l, S a) : Heap (addAll cmp l).size (ranks rank d (addAll cmp l)) := by
  suffices h : ∀ xs : Array α, (∀ a ∈ xs, S a) → Heap xs.size (ranks rank d xs) →
      Heap (l.foldl (add cmp) xs).size (ranks rank d (l.foldl (add cmp) xs)) from
    h #[] (fun a ha => absurd ha (Array.not_mem_empty a)) fun i _ hi => absurd hi (Nat.not_lt_zero i)
  induction l with
  | nil => exact fun xs _ h => h
  | cons v l ih =>
    intro xs hxs h
    have hv := hS v mem_cons_self
    refine ih (forall_mem_cons.mp hS).2 (add cmp xs v) (fun a ha => ?_) (add_heap d hc hxs hv h)
    rw [← Array.mem_toList_iff, (add_perm xs v).mem_iff, mem_cons] at ha
    exact ha.elim (fun he => he ▸ hv) fun ha => hxs a (Array.mem_toList_iff.mp ha)

omit [LinearOrder β] hc in
/-- The ranks before the last element sinks from its new place. -/
theorem ranks_moved {xs : Array α} {j : Nat} (hi : i < xs.size) (hj : j < xs.size - 1) :
    ranks rank d (xs.swapIfInBounds i (xs.size - 1)).pop j = if j = i then ranks rank d xs (xs.size - 1) else ranks rank d xs j := by
  rw [ranks, Array.getElem?_pop, Array.size_swapIfInBounds, if_pos hj, getElem?_swap hi (by omega)]
  by_cases hji : j = i
  · rw [if_pos hji, if_pos hji, ranks]
  · rw [if_neg hji, if_neg hji, if_neg (by omega), ranks]

omit [LinearOrder β] hc in
theorem forall_moved {xs : Array α} (hS : ∀ a ∈ xs, S a) : ∀ a ∈ (xs.swapIfInBounds i (xs.size - 1)).pop, S a := by
  intro a ha
  rw [← Array.mem_toList_iff, Array.toList_pop] at ha
  exact hS a ((swap_perm xs i (xs.size - 1)).mem_iff.mp (Array.mem_toList_iff.mp ((dropLast_sublist _).subset ha)))

/-- The last element must not come before the parent of the place it moves to. -/
theorem removeAt_heap {xs ys : Array α} (hS : ∀ a ∈ xs, S a) (h : Heap xs.size (ranks rank d xs))
    (hr : removeAt cmp xs i = some (v, ys))
    (hlast : 0 < i → i + 1 < xs.size → ranks rank d xs (parentOf i) ≤ ranks rank d xs (xs.size - 1)) :
    Heap ys.size (ranks rank d ys) := by
  obtain ⟨w, hw, he⟩ := map_eq_some_iff.mp hr
  obtain ⟨hi, -⟩ := Array.getElem?_eq_some_iff.mp hw
  cases he
  split_ifs with hsize
  · obtain ⟨zs, hzs⟩ : ∃ zs, zs = (xs.swapIfInBounds i (xs.size - 1)).pop := ⟨_, rfl⟩
    have hsz : zs.size = xs.size - 1 := by rw [hzs, Array.size_pop, Array.size_swapIfInBounds]
    have hget {j : Nat} (hj : j < xs.size - 1) :
        ranks rank d zs j = if j = i then ranks rank d xs (xs.size - 1) else ranks rank d xs j := hzs ▸ ranks_moved d hi hj
    have hdown : HeapDown zs.size (ranks rank d zs) i := by
      rw [hsz]
      refine ⟨fun j hj hn hp => ?_, fun hpos j hj hn hp => ?_⟩
      · have hlt : parentOf j < j := by
          unfold parentOf
          omega
        rw [hget (by omega), hget hn, if_neg hp]
        by_cases hji : j = i
        · rw [if_pos hji, hji]
          exact hlast (hji ▸ hj) (by omega)
        · rw [if_neg hji]
          exact h j hj (by omega)
      · have hlt : parentOf j < j := by
          unfold parentOf
          omega
        have hlt' : parentOf i < i := by
          unfold parentOf
          omega
        rw [hget (by omega), hget hn, if_neg (by omega), if_neg (by omega)]
        have hchild := h j hj (by omega)
        rw [hp] at hchild
        exact le_trans (h i hpos hi) hchild
    have hSz : ∀ a ∈ zs, S a := hzs ▸ forall_moved hS
    rw [← hzs, size_reheapifyDown]
    exact reheapifyDown_heap d hc hSz (by omega) hdown
  · intro j hj hn
    rw [Array.size_pop] at hn
    have hlt : parentOf j < j := by
      unfold parentOf
      omega
    have hpop {k : Nat} (hk : k < xs.size - 1) : ranks rank d xs.pop k = ranks rank d xs k := by
      rw [ranks, Array.getElem?_pop, if_pos hk, ranks]
    rw [hpop (by omega), hpop hn]
    exact h j hj (by omega)

/-- Where it comes before that parent it stays there. -/
theorem removeAt_not_heap {xs ys : Array α} (hS : ∀ a ∈ xs, S a) (h : Heap xs.size (ranks rank d xs))
    (hr : removeAt cmp xs i = some (v, ys)) (hpos : 0 < i) (hi : i + 1 < xs.size)
    (hlast : ranks rank d xs (xs.size - 1) < ranks rank d xs (parentOf i)) : ¬Heap ys.size (ranks rank d ys) := by
  obtain ⟨w, hw, he⟩ := map_eq_some_iff.mp hr
  cases he
  rw [if_pos (by omega)]
  obtain ⟨zs, hzs⟩ : ∃ zs, zs = (xs.swapIfInBounds i (xs.size - 1)).pop := ⟨_, rfl⟩
  have hsz : zs.size = xs.size - 1 := by rw [hzs, Array.size_pop, Array.size_swapIfInBounds]
  have hget {j : Nat} (hj : j < xs.size - 1) :
      ranks rank d zs j = if j = i then ranks rank d xs (xs.size - 1) else ranks rank d xs j := hzs ▸ ranks_moved d (by omega) hj
  have hparent : parentOf i < i := by
    unfold parentOf
    omega
  have hSz : ∀ a ∈ zs, S a := hzs ▸ forall_moved hS
  have hstays : reheapifyDown cmp xs.size i zs = zs := by
    cases hfuel : xs.size with
    | zero => rfl
    | succ fuel =>
      unfold reheapifyDown
      cases hl : zs[leftChild i]? with
      | none => rfl
      | some l =>
        obtain ⟨hm, hmpos, hmpar, -⟩ := minChild_spec d hc hSz hl
        obtain ⟨m, hmdef⟩ : ∃ m, m = minChild cmp zs (leftChild i) l := ⟨_, rfl⟩
        rw [← hmdef] at hm hmpos hmpar
        obtain ⟨hmn, -⟩ := Array.getElem?_eq_some_iff.mp hm
        have hmi : i < m.1 := by
          unfold parentOf at hmpar
          omega
        have hzi : zs[i]? = some zs[i] := Array.getElem?_eq_getElem (by omega)
        have hri : ranks rank d zs i = rank zs[i] := ranks_get d hzi
        have hrm : ranks rank d zs m.1 = rank m.2 := ranks_get d hm
        have hrank : rank zs[i] < rank m.2 := by
          rw [← hri, ← hrm, hget (by omega), hget (by omega), if_pos rfl, if_neg (by omega)]
          have hchild := h m.1 hmpos (by omega)
          rw [hmpar] at hchild
          exact lt_of_lt_of_le hlast (le_trans (h i hpos (by omega)) hchild)
        have hcmp := hc.lt (hSz _ (Array.getElem_mem (by omega))) (hSz _ (Array.mem_of_getElem? hm)) hrank
        rw [hzi]
        simp only [← hmdef]
        rw [if_neg (by omega)]
  rw [← hzs, hstays, hsz]
  intro hheap
  have hle := hheap i hpos (by omega)
  rw [hget (by omega), hget (by omega), if_neg (by omega), if_pos rfl] at hle
  exact absurd hlast (not_lt.mpr hle)

theorem remove_heap {xs ys : Array α} (hS : ∀ a ∈ xs, S a) (h : Heap xs.size (ranks rank d xs)) (hr : remove cmp xs = some (v, ys)) :
    Heap ys.size (ranks rank d ys) ∧ ∀ a ∈ ys, rank v ≤ rank a := by
  refine ⟨removeAt_heap d hc hS h hr fun h0 => absurd h0 (Nat.lt_irrefl 0), fun a ha => ?_⟩
  obtain ⟨w, hw, he⟩ := map_eq_some_iff.mp hr
  have hmem : a ∈ xs := Array.mem_toList_iff.mp ((remove_perm hr).mem_iff.mp (mem_cons_of_mem _ (Array.mem_toList_iff.mpr ha)))
  cases he
  obtain ⟨i, hi⟩ := Array.mem_iff_getElem?.mp hmem
  obtain ⟨hin, -⟩ := Array.getElem?_eq_some_iff.mp hi
  have hfirst := h.first hin
  rwa [ranks_get d hw, ranks_get d hi] at hfirst

theorem drain_sorted {xs : Array α} (hS : ∀ a ∈ xs, S a) (h : Heap xs.size (ranks rank d xs)) :
    (drain cmp fuel xs).Pairwise fun a b => rank a ≤ rank b := by
  induction fuel generalizing xs with
  | zero => exact .nil
  | succ fuel ih =>
    rw [drain]
    cases hr : remove cmp xs with
    | none => exact .nil
    | some p =>
      obtain ⟨v, ys⟩ := p
      obtain ⟨hheap, hfirst⟩ := remove_heap d hc hS h hr
      have hys : ∀ a ∈ ys, a ∈ xs := fun a ha =>
        Array.mem_toList_iff.mp ((remove_perm hr).mem_iff.mp (mem_cons_of_mem _ (Array.mem_toList_iff.mpr ha)))
      exact pairwise_cons.mpr ⟨fun a ha => hfirst a (drain_mem ha), ih (fun a ha => hS a (hys a ha)) hheap⟩

omit d in
/-- Elements of a known rank come out by rank. -/
theorem order_sorted {l : List α} (hS : ∀ a ∈ l, S a) : (order cmp l).Pairwise fun a b => rank a ≤ rank b := by
  cases l with
  | nil => exact .nil
  | cons v l =>
    have hS' : ∀ a ∈ addAll cmp (v :: l), S a := fun a ha => hS a ((addAll_perm _).mem_iff.mp (Array.mem_toList_iff.mpr ha))
    exact drain_sorted (rank v) hc hS' (addAll_heap (rank v) hc hS)

end Sorted

end DeepFabric.Lib.PriorityQueue
