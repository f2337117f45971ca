/-
  DeepFabric.Platform.TreeNode — the nodes of the B-tree behind `TreeMap` and how entries
  move between them.

  Entries stand in leaves and in branches. A branch has one node more than it has objects
  (`m_items[0].m_object` is scratch space and is not modelled), and all leaves are at one
  depth, so a node carries its height in its type. What a node does to its parent's object
  is modelled on the two neighbours and the object between them.

  A full node is mended by its parent (`isFull`: balance with a neighbour that has room, or
  split two nodes into three), and so is a low one (`isLow`: balance, or merge).

  Reading an object or a node that is not there is `none`.
-/
import Mathlib.Data.List.Basic

namespace DeepFabric.Platform

open List Option
open Nat (zero_lt_succ)
open Prod (fst snd)

/-! ## Branches -/

structure Branch (E N : Type) where
  first : N
  items : List (E × N)
  deriving DecidableEq

namespace Branch

variable {E N R : Type}

def nodes (b : Branch E N) : List N := b.first :: b.items.map snd

def lastIndex (b : Branch E N) : Nat := b.items.length

def getNode (b : Branch E N) (index : Nat) : Option N := b.nodes[index]?

def getObject (b : Branch E N) : Nat → Option E
  | 0 => none
  | i + 1 => b.items[i]?.map fst

def cons (n : N) (e : E) (b : Branch E N) : Branch E N := ⟨n, (e, b.first) :: b.items⟩

def pair (p : N × E × N) : Branch E N := ⟨p.1, [p.2]⟩

def setObject (b : Branch E N) : Nat → E → Branch E N
  | 0, _ => b
  | i + 1, e => ⟨b.first, b.items.modify i fun it => (e, it.2)⟩

/-- The node at an index is changed in place. -/
def onNodeFrom (f : N → Option (N × R)) : N → List (E × N) → Nat → Option (Branch E N × R)
  | n, items, 0 => (f n).map fun p => (⟨p.1, items⟩, p.2)
  | _, [], _ + 1 => none
  | n, (e, m) :: items, i + 1 => (onNodeFrom f m items i).map fun p => (cons n e p.1, p.2)

def onNode (f : N → Option (N × R)) (b : Branch E N) (index : Nat) : Option (Branch E N × R) :=
  onNodeFrom f b.first b.items index

/-- The neighbours at both sides of an object are changed, with the object: two nodes may
become one or three. -/
def spliceFrom (f : N → E → N → Option (Branch E N)) : N → List (E × N) → Nat → Option (Branch E N)
  | _, _, 0 => none
  | _, [], _ + 1 => none
  | l, (e, r) :: items, 1 => (f l e r).map fun b => ⟨b.first, b.items ++ items⟩
  | n, (e, m) :: items, i + 2 => (spliceFrom f m items (i + 1)).map (cons n e)

def splice (f : N → E → N → Option (Branch E N)) (b : Branch E N) (pIndex : Nat) : Option (Branch E N) :=
  spliceFrom f b.first b.items pIndex

/-! The entries of a branch in order, and those before and after the node at an index. -/

def flat (g : N → List E) (b : Branch E N) : List E := g b.first ++ b.items.flatMap fun it => it.1 :: g it.2

def before (g : N → List E) : N → List (E × N) → Nat → List E
  | _, _, 0 => []
  | _, [], _ + 1 => []
  | n, (e, m) :: items, i + 1 => g n ++ e :: before g m items i

def after (g : N → List E) (items : List (E × N)) (index : Nat) : List E :=
  (items.drop index).flatMap fun it => it.1 :: g it.2

/-! What the accessors see of a branch that is built up from its right end. -/

theorem cons_eta (n : N) (e : E) (m : N) (items : List (E × N)) : (⟨n, (e, m) :: items⟩ : Branch E N) = cons n e ⟨m, items⟩ := rfl

@[simp] theorem getNode_zero (b : Branch E N) : b.getNode 0 = some b.first := rfl

@[simp] theorem getNode_cons (n : N) (e : E) (b : Branch E N) (i : Nat) : (cons n e b).getNode (i + 1) = b.getNode i := rfl

@[simp] theorem lastIndex_mk (n : N) (items : List (E × N)) : (⟨n, items⟩ : Branch E N).lastIndex = items.length := rfl

@[simp] theorem lastIndex_cons (n : N) (e : E) (b : Branch E N) : (cons n e b).lastIndex = b.lastIndex + 1 := rfl

theorem getNode_succ (b : Branch E N) (i : Nat) : b.getNode (i + 1) = b.items[i]?.map snd := by
  simp [getNode, nodes]

variable {b : Branch E N} {i : Nat}

theorem getNode_isSome (h : i ≤ b.lastIndex) : ∃ m, b.getNode i = some m := by
  have hi : i < b.nodes.length := by simp only [nodes, length_cons, length_map]; exact Nat.lt_succ_of_le h
  exact ⟨b.nodes[i], List.getElem?_eq_getElem hi⟩

variable {m : N}

theorem le_lastIndex (h : b.getNode i = some m) : i ≤ b.lastIndex := by
  obtain ⟨hi, -⟩ := List.getElem?_eq_some_iff.mp h
  simp only [nodes, length_cons, length_map] at hi
  exact Nat.le_of_lt_succ hi

theorem mem_nodes : m ∈ b.nodes ↔ ∃ i, b.getNode i = some m := mem_iff_getElem?

theorem item_of_getNode (h : b.getNode (i + 1) = some m) : ∃ e, b.items[i]? = some (e, m) := by
  rw [getNode_succ, map_eq_some_iff] at h
  obtain ⟨⟨e, n⟩, h, rfl⟩ := h
  exact ⟨e, h⟩

@[simp] theorem flat_single (g : N → List E) (n : N) : flat g ⟨n, []⟩ = g n := append_nil _

@[simp] theorem flat_cons (g : N → List E) (n : N) (e : E) (b : Branch E N) : flat g (cons n e b) = g n ++ e :: flat g b := rfl

@[simp] theorem flat_pair (g : N → List E) (p : N × E × N) : flat g (pair p) = g p.1 ++ p.2.1 :: g p.2.2 := by simp [flat, pair]

theorem mem_pair {p : N × E × N} : m ∈ (pair p).nodes ↔ m = p.1 ∨ m = p.2.2 := by simp [nodes, pair]

theorem flat_append (g : N → List E) (n : N) (xs ys : List (E × N)) :
    flat g ⟨n, xs ++ ys⟩ = flat g ⟨n, xs⟩ ++ ys.flatMap fun it => it.1 :: g it.2 := by
  simp [flat, append_assoc]

theorem flat_at {g : N → List E} (h : b.getNode i = some m) :
    flat g b = before g b.first b.items i ++ g m ++ after g b.items i := by
  obtain ⟨n, items⟩ := b
  induction items generalizing n i with
  | nil =>
    cases i with
    | zero => cases h; simp [flat, before, after]
    | succ i => cases h
  | cons it items ih =>
    cases i with
    | zero => cases h; simp [flat, before, after]
    | succ i =>
      rw [cons_eta, flat_cons, ih it.2 h]
      simp [cons, before, after]

variable {items : List (E × N)} {e : E}

theorem modify_object (g : N → List E) (n : N) (h : items[i]? = some (e, m)) :
    ∃ pre, before g n items (i + 1) = pre ++ [e] ∧
      ∀ e', before g n (items.modify i fun it => (e', it.2)) (i + 1) = pre ++ [e'] := by
  induction items generalizing n i with
  | nil => cases h
  | cons it items ih =>
    cases i with
    | zero => cases h; exact ⟨g n, by simp [before], fun e' => by simp [before]⟩
    | succ i =>
      obtain ⟨pre, h1, h2⟩ := ih it.2 h
      refine ⟨g n ++ it.1 :: pre, ?_, fun e' => ?_⟩
      · show g n ++ it.1 :: before g it.2 items (i + 1) = _
        rw [h1, append_assoc, cons_append]
      · show g n ++ it.1 :: before g it.2 (items.modify i fun it => (e', it.2)) (i + 1) = _
        rw [h2, append_assoc, cons_append]

/-- What stands ahead of a node ends with the object ahead of it. -/
theorem getLast?_before (g : N → List E) (hi : i ≤ b.lastIndex) :
    (before g b.first b.items i).getLast? = b.getObject i := by
  cases i with
  | zero => cases b with | mk n items => cases items <;> rfl
  | succ i =>
    obtain ⟨it, hit⟩ : ∃ it, b.items[i]? = some it := ⟨_, List.getElem?_eq_getElem hi⟩
    obtain ⟨pre, hpre, -⟩ := modify_object g b.first (e := it.1) (m := it.2) hit
    rw [hpre, List.getLast?_concat, getObject, hit]
    rfl

theorem head?_after (g : N → List E) : (after g b.items i).head? = b.getObject (i + 1) := by
  rw [after, getObject]
  by_cases hlt : i < b.items.length
  · rw [drop_eq_getElem_cons hlt, List.getElem?_eq_getElem hlt]
    rfl
  · rw [drop_eq_nil_of_le (Nat.le_of_not_lt hlt), List.getElem?_eq_none (Nat.le_of_not_lt hlt)]
    rfl

theorem after_last (g : N → List E) : after g b.items b.lastIndex = [] := by
  rw [after, drop_eq_nil_of_le (show b.items.length ≤ b.lastIndex from Nat.le_refl _), flatMap_nil]

theorem modify_nodes : (items.modify i fun it => (e, it.2)).map snd = items.map snd := by
  induction items generalizing i with
  | nil => rw [modify_nil]
  | cons it items ih =>
    cases i with
    | zero => rfl
    | succ i => rw [modify_succ_cons, map_cons, map_cons, ih]

theorem after_modify (g : N → List E) :
    after g (items.modify i fun it => (e, it.2)) (i + 1) = after g items (i + 1) := by
  rw [after, after, drop_modify_of_lt _ _ _ _ (Nat.lt_succ_self i)]

theorem setObject_nodes (b : Branch E N) (i : Nat) (e : E) : (b.setObject i e).nodes = b.nodes := by
  cases i with
  | zero => rfl
  | succ i => exact congrArg (b.first :: ·) modify_nodes

/-- A branch with another node at an index. -/
structure Sets (b : Branch E N) (i : Nat) (m : N) (b' : Branch E N) : Prop where
  lastIndex : b'.lastIndex = b.lastIndex
  here : b'.getNode i = some m
  elsewhere : ∀ {j}, j ≠ i → b'.getNode j = b.getNode j
  flat : ∀ g, flat g b' = before g b.first b.items i ++ g m ++ after g b.items i

theorem onNode_sets {f : N → Option (N × R)} {m' : N} {r : R} (h : b.getNode i = some m)
    (hf : f m = some (m', r)) : ∃ b', b.onNode f i = some (b', r) ∧ Sets b i m' b' := by
  obtain ⟨n, items⟩ := b
  induction items generalizing n i with
  | nil =>
    cases i with
    | zero =>
      cases h
      refine ⟨⟨m', []⟩, by simp [onNode, onNodeFrom, hf], rfl, rfl, fun {j} hj => ?_, fun g => by simp [before, after]⟩
      cases j with
      | zero => exact absurd rfl hj
      | succ j => rfl
    | succ i => cases h
  | cons it items ih =>
    cases i with
    | zero =>
      cases h
      refine ⟨⟨m', it :: items⟩, by simp [onNode, onNodeFrom, hf], rfl, rfl, fun {j} hj => ?_, fun g => ?_⟩
      · cases j with
        | zero => exact absurd rfl hj
        | succ j => rfl
      · simp [Branch.flat, before, after]
    | succ i =>
      obtain ⟨b', hb, hs⟩ := ih it.2 h
      have hb' : onNodeFrom f it.2 items i = some (b', r) := hb
      refine ⟨cons n it.1 b', by simp [onNode, onNodeFrom, hb'], by simp [hs.lastIndex], hs.here,
        fun {j} hj => ?_, fun g => ?_⟩
      · cases j with
        | zero => rfl
        | succ j => exact hs.elsewhere fun he => hj (he ▸ rfl)
      · rw [flat_cons, hs.flat]
        simp [before, after]

theorem Sets.exchange {b' : Branch E N} {Q : N → Prop} (hs : Sets b i m b') (hb : ∀ x ∈ b.nodes, Q x) {j : Nat} {x : N}
    (hj : j ≠ i) (hx : b'.getNode j = some x) : Q x :=
  hb x (mem_nodes.mpr ⟨j, (hs.elsewhere hj).symm.trans hx⟩)

theorem Sets.forall_nodes {b' : Branch E N} {Q : N → Prop} (hs : Sets b i m b') (hb : ∀ x ∈ b.nodes, Q x) (hm : Q m) :
    ∀ x ∈ b'.nodes, Q x := by
  intro x hx
  obtain ⟨j, hj⟩ := mem_nodes.mp hx
  by_cases he : j = i
  · rw [he, hs.here] at hj
    cases hj
    exact hm
  · exact hs.exchange hb he hj

/-- A branch in which two neighbours and their object became the branch `out`. -/
structure Spliced (b : Branch E N) (k : Nat) (l : N) (e : E) (r : N) (out b' : Branch E N) : Prop where
  lastIndex : b'.lastIndex + 1 = b.lastIndex + out.lastIndex
  flat : ∀ {g : N → List E}, flat g out = g l ++ e :: g r → flat g b' = flat g b
  nodes : ∀ {m}, m ∈ b'.nodes → m ∈ out.nodes ∨ ∃ j, j ≠ k ∧ j ≠ k + 1 ∧ b.getNode j = some m

theorem splice_spliced {f : N → E → N → Option (Branch E N)} {k : Nat} {l r : N} {out : Branch E N}
    (hl : b.getNode k = some l) (hr : b.items[k]? = some (e, r)) (hf : f l e r = some out) :
    ∃ b', b.splice f (k + 1) = some b' ∧ Spliced b k l e r out b' := by
  obtain ⟨n, items⟩ := b
  induction items generalizing n k with
  | nil => cases hr
  | cons it items ih =>
    cases k with
    | zero =>
      cases hl
      cases hr
      refine ⟨⟨out.first, out.items ++ items⟩, by simp [splice, spliceFrom, hf], ?_, fun {g} hg => ?_, fun {m} hm => ?_⟩
      · simp only [lastIndex_mk, length_append, length_cons]
        have : out.lastIndex = out.items.length := rfl
        omega
      · rw [flat_append, hg]
        simp [Branch.flat]
      · simp only [Branch.nodes, map_append, mem_cons, mem_append] at hm ⊢
        rcases hm with hm | hm | hm
        · exact Or.inl (Or.inl hm)
        · exact Or.inl (Or.inr hm)
        · obtain ⟨i, hi⟩ := mem_iff_getElem?.mp hm
          exact Or.inr ⟨i + 2, by omega, by omega, hi⟩
    | succ k =>
      obtain ⟨b', hb, hs⟩ := ih it.2 hl hr
      have hb' : spliceFrom f it.2 items (k + 1) = some b' := hb
      refine ⟨cons n it.1 b', by simp [splice, spliceFrom, hb'], ?_, fun {g} hg => ?_, fun {m} hm => ?_⟩
      · have := hs.lastIndex
        simp only [lastIndex_mk, lastIndex_cons, length_cons] at this ⊢
        omega
      · rw [flat_cons, hs.flat hg]
        rfl
      · rcases mem_cons.mp hm with rfl | hm
        · exact Or.inr ⟨0, by omega, by omega, rfl⟩
        · rcases hs.nodes hm with hm | ⟨j, h1, h2, hj⟩
          · exact Or.inl hm
          · exact Or.inr ⟨j + 1, by omega, by omega, hj⟩

end Branch

/-! ## What a node does -/

/-- The operations `isFull` and `isLow` use on the nodes of one kind. `m_lastIndex` of a leaf
is one less than its number of objects, that of a branch is equal to it: both are counted in
`physicalEntries` here. -/
structure Kind (E N : Type) where
  maxPhysicalEntries : Nat
  lowEntries : Nat
  physicalEntries : N → Nat
  pushLeft : Nat → N → E → N → Option (N × E × N)
  pushRight : Nat → N → E → N → Option (N × E × N)
  /-- The last object leaves for the parent, and a new node follows it. -/
  detach : N → Option (N × E × N)
  mergeWithRight : N → E → N → Option N
  splitWith : N → E → N → Option (Branch E N)

namespace Kind

variable {E N : Type} (d : Kind E N)

def virtualEntries (n : N) : Nat := d.physicalEntries n + 1

def isFull (n : N) : Bool := d.physicalEntries n == d.maxPhysicalEntries

def isAlmostFull (n : N) : Bool := d.maxPhysicalEntries - 1 ≤ d.physicalEntries n

def isLow (n : N) : Bool := d.physicalEntries n < d.lowEntries

def balanceWithLeft (l : N) (e : E) (r : N) : Option (N × E × N) :=
  let newSize := (d.virtualEntries r + d.physicalEntries l) / 2
  if newSize ≤ d.physicalEntries r then d.pushLeft (d.physicalEntries r - newSize) l e r else none

def balanceWithRight (l : N) (e : E) (r : N) : Option (N × E × N) :=
  let newSize := (d.physicalEntries l + d.virtualEntries r) / 2
  if newSize ≤ d.physicalEntries l then d.pushRight (d.physicalEntries l - newSize) l e r else none

def balanceWith (l : N) (e : E) (r : N) : Option (N × E × N) :=
  if d.physicalEntries l < d.virtualEntries r then d.balanceWithLeft l e r else d.balanceWithRight l e r

/-- A full root is split in two. -/
def split (n : N) : Option (Branch E N) := do
  let (l, e, r) ← d.detach n
  let p ← d.balanceWithRight l e r
  return .pair p

end Kind

/-- How many entries leave the left node for the new one between, and how many the right. -/
def splitCounts (phys virt : Nat) : Nat × Nat :=
  let numberOfKeys := phys + virt
  let newSizeOne3rd := numberOfKeys / 3
  let newSizeOneHalf := (numberOfKeys - newSizeOne3rd) / 2
  let newSizeOfNode := numberOfKeys - newSizeOne3rd - newSizeOneHalf
  (phys - newSizeOne3rd, virt - newSizeOfNode)

theorem splitCounts_eq (phys virt : Nat) : ∃ third half, splitCounts phys virt = (phys - third, virt - (phys + virt - third - half)) ∧
    3 * third ≤ phys + virt ∧ phys + virt < 3 * third + 3 ∧ 2 * half + third ≤ phys + virt ∧ phys + virt < 2 * half + third + 2 :=
  ⟨(phys + virt) / 3, (phys + virt - (phys + virt) / 3) / 2, rfl, by omega, by omega, by omega, by omega⟩

namespace Leaf

variable {E : Type}

def pushLeft (indexFromHere : Nat) (l : List E) (e : E) (r : List E) : Option (List E × E × List E) :=
  -- `m_objects[indexFromHere - 1]` is read: nothing to push is no case of it
  if indexFromHere = 0 then none
  else r[indexFromHere - 1]?.map fun o => (l ++ e :: r.take (indexFromHere - 1), o, r.drop indexFromHere)

def pushRight (indexFromHere : Nat) (l : List E) (e : E) (r : List E) : Option (List E × E × List E) :=
  if l.length < indexFromHere then none
  else
    let begin := l.length - indexFromHere
    l[begin]?.map fun o => (l.take begin, o, l.drop (begin + 1) ++ e :: r)

def detach (l : List E) : Option (List E × E × List E) := l.getLast?.map fun o => (l.dropLast, o, [])

def mergeWithRight (l : List E) (e : E) (r : List E) : Option (List E) :=
  (pushLeft r.length l e r).map fun p => p.1 ++ [p.2.1]

def splitWith (l : List E) (e : E) (r : List E) : Option (Branch E (List E)) := do
  let (indexFromHere, indexFromNode) := splitCounts l.length (r.length + 1)
  let (l, e1, n) ← detach l
  let (l, e1, n) ← pushRight (indexFromHere - 1) l e1 n
  let (n, e, r) ← pushLeft indexFromNode n e r
  return ⟨l, [(e1, n), (e, r)]⟩

def kind (order : Nat) : Kind E (List E) where
  maxPhysicalEntries := 2 * (order + 1)
  lowEntries := (2 * (order + 1) - 1) / 2
  physicalEntries := List.length
  pushLeft := pushLeft
  pushRight := pushRight
  detach := detach
  mergeWithRight := mergeWithRight
  splitWith := splitWith

end Leaf

namespace Branch

variable {E N : Type}

/-- The items from the first to be pushed on become a node: their first object is the parent's. -/
def ofRow : List (E × N) → Option (E × Branch E N)
  | [] => none
  | (e, n) :: items => some (e, ⟨n, items⟩)

def pushLeft (indexFromHere : Nat) (l : Branch E N) (e : E) (r : Branch E N) : Option (Branch E N × E × Branch E N) :=
  let row := (e, r.first) :: r.items
  (ofRow (row.drop indexFromHere)).map fun p => (⟨l.first, l.items ++ row.take indexFromHere⟩, p)

def pushRight (indexFromHere : Nat) (l : Branch E N) (e : E) (r : Branch E N) : Option (Branch E N × E × Branch E N) :=
  if l.items.length < indexFromHere then none
  else
    let begin := l.items.length - indexFromHere
    (ofRow (l.items.drop begin ++ (e, r.first) :: r.items)).map fun p => (⟨l.first, l.items.take begin⟩, p)

def detach (l : Branch E N) : Option (Branch E N × E × Branch E N) :=
  l.items.getLast?.map fun it => (⟨l.first, l.items.dropLast⟩, it.1, ⟨it.2, []⟩)

def mergeWithRight (l : Branch E N) (e : E) (r : Branch E N) : Option (Branch E N) :=
  let pushed := if 0 < r.lastIndex then pushLeft r.lastIndex l e r else some (l, e, r)
  pushed.map fun p => ⟨p.1.first, p.1.items ++ [(p.2.1, p.2.2.first)]⟩

def splitWith (l : Branch E N) (e : E) (r : Branch E N) : Option (Branch E (Branch E N)) :=
  let (indexFromHere, indexFromNode) := splitCounts l.lastIndex (r.lastIndex + 1)
  if 0 < indexFromHere then do
    let (l, e1, n) ← detach l
    let pushed := if 2 < indexFromHere then pushRight (indexFromHere - 1) l e1 n else some (l, e1, n)
    let (l, e1, n) ← pushed
    let (n, e, r) ← pushLeft indexFromNode n e r
    return ⟨l, [(e1, n), (e, r)]⟩
  else do
    -- the new node starts from the right one's first
    let (e1, r1) ← ofRow r.items
    let (n, e1, r) ← pushLeft (indexFromNode - 1) ⟨r.first, []⟩ e1 r1
    return ⟨l, [(e, n), (e1, r)]⟩

def kind (order : Nat) : Kind E (Branch E N) where
  maxPhysicalEntries := order
  lowEntries := (order - 1) / 2
  physicalEntries := lastIndex
  pushLeft := pushLeft
  pushRight := pushRight
  detach := detach
  mergeWithRight := mergeWithRight
  splitWith := splitWith

end Branch

/-! ## What a parent relies on -/

section Lawful

variable {E N : Type}

/-- Two neighbours after a move between them: the sizes `x` and `y`, and nothing else new. -/
def Kind.Moved (d : Kind E N) (g : N → List E) (P : N → Prop) (out : Option (N × E × N)) (l : N) (e : E) (r : N) (x y : Nat) : Prop :=
  ∃ l' e' r', out = some (l', e', r') ∧ g l' ++ e' :: g r' = g l ++ e :: g r ∧ d.physicalEntries l' = x ∧
    d.physicalEntries r' = y ∧ P l' ∧ P r'

/-- A node between its bounds. -/
structure Kind.Fits (d : Kind E N) (P : N → Prop) (lo : Nat) (n : N) : Prop where
  least : lo ≤ d.physicalEntries n
  room : d.physicalEntries n < d.maxPhysicalEntries
  inner : P n

/-- `g` is the entries of a node, `P` what holds inside it, `lo` the fewest entries of one
that has a parent. The moves between two neighbours and a merge of them keep to these. -/
structure Kind.Balances (d : Kind E N) (g : N → List E) (P : N → Prop) (lo : Nat) : Prop where
  pos : 0 < lo
  lo_le_low : lo ≤ d.lowEntries
  lo_lt_half : 2 * lo < d.maxPhysicalEntries
  low_le_half : 2 * d.lowEntries ≤ d.maxPhysicalEntries - 1
  three : 3 ≤ d.maxPhysicalEntries
  pushLeft : ∀ {count l e r}, 0 < count → count ≤ d.physicalEntries r → P l → P r →
    d.Moved g P (d.pushLeft count l e r) l e r (d.physicalEntries l + count) (d.physicalEntries r - count)
  pushRight : ∀ {count l e r}, 0 < count → count ≤ d.physicalEntries l → P l → P r →
    d.Moved g P (d.pushRight count l e r) l e r (d.physicalEntries l - count) (d.physicalEntries r + count)
  mergeWithRight : ∀ {l e r}, lo ≤ d.physicalEntries r + 1 → P l → P r → ∃ n, d.mergeWithRight l e r = some n ∧
    g n = g l ++ e :: g r ∧ d.physicalEntries n = d.physicalEntries l + d.physicalEntries r + 1 ∧ P n

/-- And so does a split. -/
structure Kind.Lawful (d : Kind E N) (g : N → List E) (P : N → Prop) (lo : Nat) : Prop extends d.Balances g P lo where
  detach : ∀ {n}, 0 < d.physicalEntries n → P n → ∃ l e r, d.detach n = some (l, e, r) ∧ g l ++ e :: g r = g n ∧
    d.physicalEntries l = d.physicalEntries n - 1 ∧ d.physicalEntries r = 0 ∧ P l ∧ P r
  splitWith : ∀ {l e r}, P l → P r → d.maxPhysicalEntries - 1 ≤ d.physicalEntries l → d.maxPhysicalEntries - 1 ≤ d.physicalEntries r →
    d.physicalEntries l + d.physicalEntries r = 2 * d.maxPhysicalEntries - 1 →
    ∃ b, d.splitWith l e r = some b ∧ b.lastIndex = 2 ∧ b.flat g = g l ++ e :: g r ∧ ∀ n ∈ b.nodes, d.Fits P lo n

end Lawful

namespace Leaf

variable {E : Type} (order : Nat)

variable {r : List E}

theorem split_getElem? {i : Nat} {o : E} (h : r[i]? = some o) : r.take i ++ o :: r.drop (i + 1) = r := by
  obtain ⟨hi, rfl⟩ := List.getElem?_eq_some_iff.mp h
  rw [← drop_eq_getElem_cons hi, take_append_drop]

variable {l : List E} {e : E}

theorem pushLeft_moved {count : Nat} (h0 : 0 < count) (h : count ≤ r.length) :
    (kind order).Moved id (fun _ => True) (pushLeft count l e r) l e r (l.length + count) (r.length - count) := by
  obtain ⟨i, rfl⟩ : ∃ i, count = i + 1 := ⟨count - 1, by omega⟩
  have ho : r[i]? = some r[i] := List.getElem?_eq_getElem (by omega)
  refine ⟨l ++ e :: r.take i, r[i], r.drop (i + 1), by simp [pushLeft, ho], ?_, ?_, ?_, trivial, trivial⟩
  · show (l ++ e :: r.take i) ++ r[i] :: r.drop (i + 1) = l ++ e :: r
    rw [append_assoc, cons_append, split_getElem? ho]
  · show (l ++ e :: r.take i).length = _
    rw [length_append, length_cons, length_take]
    omega
  · exact length_drop

theorem pushRight_moved {count : Nat} (h0 : 0 < count) (h : count ≤ l.length) :
    (kind order).Moved id (fun _ => True) (pushRight count l e r) l e r (l.length - count) (r.length + count) := by
  have ho : l[l.length - count]? = some l[l.length - count] := List.getElem?_eq_getElem (by omega)
  refine ⟨l.take (l.length - count), l[l.length - count], l.drop (l.length - count + 1) ++ e :: r,
    by simp [pushRight, Nat.not_lt.mpr h, ho], ?_, ?_, ?_, trivial, trivial⟩
  · show l.take (l.length - count) ++ l[l.length - count] :: (l.drop (l.length - count + 1) ++ e :: r) = l ++ e :: r
    rw [← cons_append, ← append_assoc, split_getElem? ho]
  · show (l.take (l.length - count)).length = _
    rw [length_take]
    omega
  · show (l.drop (l.length - count + 1) ++ e :: r).length = _
    rw [length_append, length_drop, length_cons]
    omega

theorem detach_eq {n : List E} (h : 0 < n.length) : ∃ l e, detach n = some (l, e, []) ∧ l ++ [e] = n ∧ l.length = n.length - 1 := by
  have hn : n ≠ [] := ne_nil_of_length_pos h
  exact ⟨n.dropLast, n.getLast hn, by simp [detach, List.getLast?_eq_getLast_of_ne_nil hn], dropLast_append_getLast hn,
    length_dropLast⟩

theorem mergeWithRight_eq (h : 0 < r.length) : mergeWithRight l e r = some (l ++ e :: r) := by
  obtain ⟨l', e', r', hp, hg, -, hr, -, -⟩ := pushLeft_moved 0 (l := l) (e := e) h (Nat.le_refl r.length)
  have hr' : r' = [] := eq_nil_of_length_eq_zero (hr.trans (Nat.sub_self _))
  subst hr'
  have hg' : l' ++ [e'] = l ++ e :: r := hg
  rw [mergeWithRight, hp, map_some, hg']

theorem splitWith_fits (ho : 3 ≤ order) (hl : 2 * (order + 1) - 1 ≤ l.length)
    (hr : 2 * (order + 1) - 1 ≤ r.length) (h : l.length + r.length = 2 * (2 * (order + 1)) - 1) :
    ∃ b, splitWith l e r = some b ∧ b.lastIndex = 2 ∧ b.flat id = l ++ e :: r ∧
      ∀ n ∈ b.nodes, (kind order).Fits (fun _ => True) order n := by
  obtain ⟨third, half, hc, h1, h2, h3, h4⟩ := splitCounts_eq l.length (r.length + 1)
  obtain ⟨l1, e1, hd, hg1, hl1⟩ := detach_eq (n := l) (by omega)
  have hpush : 0 < l.length - third - 1 := by omega
  have hnode : 0 < r.length + 1 - (l.length + (r.length + 1) - third - half) := by omega
  obtain ⟨l2, e2, n2, hp2, hg2, hl2, hn2, -, -⟩ := pushRight_moved order (l := l1) (e := e1) (r := []) hpush (by omega)
  obtain ⟨n3, e3, r3, hp3, hg3, hn3, hr3, -, -⟩ := pushLeft_moved order (l := n2) (e := e) (r := r) hnode (by omega)
  have hl2' : l2.length = l1.length - (l.length - third - 1) := hl2
  have hn2' : n2.length = 0 + (l.length - third - 1) := hn2
  have hn3' : n3.length = n2.length + _ := hn3
  have hr3' : r3.length = r.length - _ := hr3
  refine ⟨⟨l2, [(e2, n3), (e3, r3)]⟩, ?_, rfl, ?_, fun n hm => ?_⟩
  · simp only [splitWith, hc, hd, bind_eq_bind, bind_some, hp2, hp3]
    rfl
  · have hg2' : l2 ++ e2 :: n2 = l1 ++ [e1] := hg2
    have hg3' : n3 ++ e3 :: r3 = n2 ++ e :: r := hg3
    simp only [Branch.flat, flatMap_cons, flatMap_nil, append_nil, id]
    rw [cons_append, hg3', ← hg1, ← hg2', append_assoc, cons_append]
  · have h5 : l2.length = third := by omega
    have h6 : n3.length + 1 = half := by omega
    have h7 : r3.length + 1 + third + half = l.length + (r.length + 1) := by omega
    simp only [Branch.nodes, map_cons, map_nil, mem_cons, not_mem_nil, or_false] at hm
    clear hn2' hn3' hl2' hr3' hl1 hpush hnode
    have hfit {n : List E} (h1 : order ≤ n.length) (h2 : n.length < 2 * (order + 1)) : (kind order).Fits (fun _ => True) order n :=
      ⟨h1, h2, trivial⟩
    rcases hm with rfl | rfl | rfl
    · exact hfit (by omega) (by omega)
    · exact hfit (by omega) (by omega)
    · exact hfit (by omega) (by omega)

theorem balances (ho : 3 ≤ order) : (kind (E := E) order).Balances id (fun _ => True) order where
  pos := by omega
  lo_le_low := by simp only [kind]; omega
  lo_lt_half := by simp only [kind]; omega
  low_le_half := by simp only [kind]; omega
  three := by simp only [kind]; omega
  pushLeft := fun h0 h _ _ => pushLeft_moved order h0 h
  pushRight := fun h0 h _ _ => pushRight_moved order h0 h
  mergeWithRight := fun {l e r} h _ _ => by
    have h : order ≤ r.length + 1 := h
    refine ⟨l ++ e :: r, mergeWithRight_eq (by omega), rfl, ?_, trivial⟩
    show (l ++ e :: r).length = l.length + r.length + 1
    rw [length_append, length_cons, Nat.add_assoc]

theorem lawful (ho : 3 ≤ order) : (kind (E := E) order).Lawful id (fun _ => True) order where
  toBalances := balances order ho
  detach := fun {n} h _ => by
    obtain ⟨l, e, hd, hg, hl⟩ := detach_eq (n := n) h
    exact ⟨l, e, [], hd, hg, hl, rfl, trivial, trivial⟩
  splitWith := fun _ _ hl hr h => splitWith_fits order ho hl hr h

end Leaf

namespace Branch

variable {E N : Type}

section Moves

variable {g : N → List E} {Q : N → Prop} (order : Nat)

theorem row_flat (g : N → List E) (e : E) (r : Branch E N) :
    e :: flat g r = ((e, r.first) :: r.items).flatMap fun it => it.1 :: g it.2 := rfl

theorem ofRow_eq {row : List (E × N)} (h : 0 < row.length) : ∃ e r, ofRow row = some (e, r) ∧ row = (e, r.first) :: r.items := by
  cases row with
  | nil => cases h
  | cons it row => exact ⟨it.1, ⟨it.2, row⟩, rfl, rfl⟩

theorem nodes_append {n : N} {xs ys : List (E × N)} (h : ∀ m ∈ nodes ⟨n, xs⟩, Q m) (h' : ∀ m ∈ ys.map snd, Q m) :
    ∀ m ∈ nodes ⟨n, xs ++ ys⟩, Q m := by
  intro m hm
  simp only [nodes, map_append, mem_cons, mem_append] at hm
  rcases hm with hm | hm | hm
  · exact h m (mem_cons.mpr (Or.inl hm))
  · exact h m (mem_cons_of_mem _ hm)
  · exact h' m hm

theorem nodes_take {n : N} {xs : List (E × N)} {i : Nat} (h : ∀ m ∈ nodes ⟨n, xs⟩, Q m) : ∀ m ∈ nodes ⟨n, xs.take i⟩, Q m := by
  intro m hm
  rcases mem_cons.mp hm with rfl | hm
  · exact h _ mem_cons_self
  · refine h m (mem_cons_of_mem _ ?_)
    rw [map_take] at hm
    exact mem_of_mem_take hm

variable {l r : Branch E N} {e : E}

theorem pushLeft_moved {count : Nat} (h : count ≤ r.lastIndex) (hl : ∀ m ∈ l.nodes, Q m) (hr : ∀ m ∈ r.nodes, Q m) :
    (kind order).Moved (flat g) (fun b => ∀ m ∈ b.nodes, Q m) (pushLeft count l e r) l e r (l.lastIndex + count) (r.lastIndex - count) := by
  have hlen : ((e, r.first) :: r.items).length = r.lastIndex + 1 := length_cons
  obtain ⟨e', r', hrow, hdrop⟩ := ofRow_eq (show 0 < (((e, r.first) :: r.items).drop count).length by rw [length_drop, hlen]; omega)
  have hsplit := take_append_drop count ((e, r.first) :: r.items)
  refine ⟨⟨l.first, l.items ++ ((e, r.first) :: r.items).take count⟩, e', r', by simp only [pushLeft, hrow, map_some], ?_, ?_, ?_,
    nodes_append hl fun m hm => ?_, fun m hm => ?_⟩
  · rw [flat_append, row_flat, row_flat, ← hdrop, append_assoc, ← flatMap_append, hsplit]
  · show (l.items ++ ((e, r.first) :: r.items).take count).length = l.items.length + count
    rw [length_append, length_take, hlen]
    omega
  · have := congrArg List.length hdrop
    rw [length_drop, hlen, length_cons] at this
    show r'.items.length = r.lastIndex - count
    omega
  · rw [map_take] at hm
    exact hr m (mem_of_mem_take hm)
  · have hm' : m ∈ (((e, r.first) :: r.items).drop count).map snd := by rw [hdrop]; exact hm
    rw [map_drop] at hm'
    exact hr m (mem_of_mem_drop hm')

theorem pushRight_moved {count : Nat} (h : count ≤ l.lastIndex) (hl : ∀ m ∈ l.nodes, Q m) (hr : ∀ m ∈ r.nodes, Q m) :
    (kind order).Moved (flat g) (fun b => ∀ m ∈ b.nodes, Q m) (pushRight count l e r) l e r (l.lastIndex - count) (r.lastIndex + count) := by
  have hl' : l.items.length = l.lastIndex := rfl
  obtain ⟨e', r', hrow, hdrop⟩ := ofRow_eq (show 0 < (l.items.drop (l.items.length - count) ++ (e, r.first) :: r.items).length by
    rw [length_append, length_cons]; omega)
  have hsplit := take_append_drop (l.items.length - count) l.items
  refine ⟨⟨l.first, l.items.take (l.items.length - count)⟩, e', r', ?_, ?_, ?_, ?_, nodes_take hl, fun m hm => ?_⟩
  · simp only [pushRight, Nat.not_lt.mpr (hl' ▸ h), if_false, hrow, map_some]
  · rw [row_flat, row_flat, ← hdrop, flatMap_append, ← append_assoc, ← flat_append, hsplit]
  · show (l.items.take (l.items.length - count)).length = _
    rw [length_take]
    omega
  · have := congrArg List.length hdrop
    rw [length_append, length_drop, length_cons, length_cons] at this
    show r'.items.length = r.items.length + count
    omega
  · have hm' : m ∈ (l.items.drop (l.items.length - count) ++ (e, r.first) :: r.items).map snd := by rw [hdrop]; exact hm
    rw [map_append, map_drop] at hm'
    rcases mem_append.mp hm' with hm' | hm'
    · exact hl m (mem_cons_of_mem _ (mem_of_mem_drop hm'))
    · exact hr m hm'

theorem detach_eq {n : Branch E N} (h : 0 < n.lastIndex) (hn : ∀ m ∈ n.nodes, Q m) :
    ∃ l e r, detach n = some (l, e, r) ∧ flat g l ++ e :: flat g r = flat g n ∧ l.lastIndex = n.lastIndex - 1 ∧ r.lastIndex = 0 ∧
      (∀ m ∈ l.nodes, Q m) ∧ ∀ m ∈ r.nodes, Q m := by
  obtain ⟨first, items⟩ := n
  have hi : items ≠ [] := ne_nil_of_length_pos h
  have hsplit := dropLast_append_getLast hi
  refine ⟨⟨first, items.dropLast⟩, (items.getLast hi).1, ⟨(items.getLast hi).2, []⟩,
    by simp [detach, List.getLast?_eq_getLast_of_ne_nil hi], ?_, length_dropLast, rfl, fun m hm => ?_, fun m hm => ?_⟩
  · conv_rhs => rw [← hsplit]
    rw [flat_append]
    simp
  · rcases mem_cons.mp hm with rfl | hm
    · exact hn _ mem_cons_self
    · rw [map_dropLast] at hm
      exact hn m (mem_cons_of_mem _ ((dropLast_sublist _).subset hm))
  · have : m = (items.getLast hi).2 := mem_singleton.mp hm
    subst this
    exact hn _ (mem_cons_of_mem _ (mem_map.mpr ⟨_, getLast_mem hi, rfl⟩))

theorem mergeWithRight_eq (hl : ∀ m ∈ l.nodes, Q m) (hr : ∀ m ∈ r.nodes, Q m) :
    ∃ n, mergeWithRight l e r = some n ∧ flat g n = flat g l ++ e :: flat g r ∧ n.lastIndex = l.lastIndex + r.lastIndex + 1 ∧
      ∀ m ∈ n.nodes, Q m := by
  obtain ⟨l', e', r', hp, hg, hl', hr', hQl, hQr⟩ : ∃ l' e' r',
      (if 0 < r.lastIndex then pushLeft r.lastIndex l e r else some (l, e, r)) = some (l', e', r') ∧
      flat g l' ++ e' :: flat g r' = flat g l ++ e :: flat g r ∧ l'.lastIndex = l.lastIndex + r.lastIndex ∧ r'.lastIndex = 0 ∧
      (∀ m ∈ l'.nodes, Q m) ∧ ∀ m ∈ r'.nodes, Q m := by
    by_cases h : 0 < r.lastIndex
    · obtain ⟨l', e', r', hp, hg, h1, h2, h3, h4⟩ := pushLeft_moved (g := g) (e := e) 0 (Nat.le_refl r.lastIndex) hl hr
      exact ⟨l', e', r', by rw [if_pos h, hp], hg, h1, h2.trans (Nat.sub_self _), h3, h4⟩
    · exact ⟨l, e, r, if_neg h, rfl, by omega, by omega, hl, hr⟩
  obtain ⟨n, items⟩ := r'
  have hi : items = [] := eq_nil_of_length_eq_zero hr'
  subst hi
  refine ⟨⟨l'.first, l'.items ++ [(e', n)]⟩, by simp only [mergeWithRight, hp, map_some], ?_, ?_, nodes_append hQl fun m hm => hQr m hm⟩
  · rw [flat_append, ← hg]
    simp
  · show (l'.items ++ [(e', n)]).length = _
    rw [length_append, length_singleton]
    have : l'.items.length = l'.lastIndex := rfl
    omega

/-- The fewest objects of a branch that has a parent: of order 5, `splitWith` makes one with fewer than `m_branchLowWater`. -/
def least (order : Nat) : Nat := if order = 5 then 1 else (order - 1) / 2

theorem least_bounds (ho : 3 ≤ order) : 1 ≤ least order ∧ 2 * least order ≤ order - 1 ∧ (order = 5 → least order = 1) := by
  rw [least]
  split_ifs <;> omega

theorem splitWith_fits (ho : 3 ≤ order) (hQl : ∀ m ∈ l.nodes, Q m) (hQr : ∀ m ∈ r.nodes, Q m)
    (hl : order - 1 ≤ l.lastIndex) (hr : order - 1 ≤ r.lastIndex) (h : l.lastIndex + r.lastIndex = 2 * order - 1) :
    ∃ b, splitWith l e r = some b ∧ b.lastIndex = 2 ∧ b.flat (flat g) = flat g l ++ e :: flat g r ∧
      ∀ n ∈ b.nodes, (kind order).Fits (fun b => ∀ m ∈ b.nodes, Q m) (least order) n := by
  have hfit {n : Branch E N} (h1 : least order ≤ n.lastIndex) (h2 : n.lastIndex < order) (h3 : ∀ m ∈ n.nodes, Q m) :
      (kind order).Fits (fun b => ∀ m ∈ b.nodes, Q m) (least order) n := ⟨h1, h2, h3⟩
  have hleast := least_bounds order ho
  obtain ⟨third, half, hc, h1, h2, h3, h4⟩ := splitCounts_eq l.lastIndex (r.lastIndex + 1)
  by_cases hpos : 0 < l.lastIndex - third
  · obtain ⟨l1, e1, n1, hd, hg1, hl1, hn1, hQl1, hQn1⟩ := detach_eq (g := g) (n := l) (by omega) hQl
    obtain ⟨l2, e2, n2, moved, hp2, hg2, hl2, hn2, hmoved, hQl2, hQn2⟩ : ∃ l2 e2 n2 moved,
        (if 2 < l.lastIndex - third then pushRight (l.lastIndex - third - 1) l1 e1 n1 else some (l1, e1, n1)) = some (l2, e2, n2) ∧
        flat g l2 ++ e2 :: flat g n2 = flat g l1 ++ e1 :: flat g n1 ∧ l2.lastIndex = l1.lastIndex - moved ∧ n2.lastIndex = moved ∧
        (moved = 0 ∧ l.lastIndex ≤ third + 2 ∨ moved = l.lastIndex - third - 1) ∧ (∀ m ∈ l2.nodes, Q m) ∧ ∀ m ∈ n2.nodes, Q m := by
      by_cases h5 : 2 < l.lastIndex - third
      · have hle : l.lastIndex - third - 1 ≤ l1.lastIndex := by omega
        obtain ⟨l2, e2, n2, hp, hg, h6, h7, h8, h9⟩ := pushRight_moved (g := g) (e := e1) 0 hle hQl1 hQn1
        exact ⟨l2, e2, n2, _, by rw [if_pos h5, hp], hg, h6, by rw [show n2.lastIndex = _ from h7, hn1, Nat.zero_add], Or.inr rfl, h8, h9⟩
      · exact ⟨l1, e1, n1, 0, if_neg h5, rfl, rfl, hn1, Or.inl ⟨rfl, by omega⟩, hQl1, hQn1⟩
    have hle : r.lastIndex + 1 - (l.lastIndex + (r.lastIndex + 1) - third - half) ≤ r.lastIndex := by omega
    obtain ⟨n3, e3, r3, hp3, hg3, hn3, hr3, hQn3, hQr3⟩ := pushLeft_moved (g := g) (e := e) 0 hle hQn2 hQr
    have hn3' : n3.lastIndex = n2.lastIndex + (r.lastIndex + 1 - (l.lastIndex + (r.lastIndex + 1) - third - half)) := hn3
    have hr3' : r3.lastIndex = r.lastIndex - (r.lastIndex + 1 - (l.lastIndex + (r.lastIndex + 1) - third - half)) := hr3
    refine ⟨⟨l2, [(e2, n3), (e3, r3)]⟩, ?_, rfl, ?_, fun n hm => ?_⟩
    · simp only [splitWith, hc, if_pos hpos, hd, bind_eq_bind, bind_some, hp2, hp3]
      rfl
    · show flat g l2 ++ (e2 :: flat g n3 ++ (e3 :: flat g r3 ++ [])) = _
      rw [append_nil, cons_append, hg3, ← hg1, ← hg2, append_assoc, cons_append]
    · have hcount : r.lastIndex + 1 - (l.lastIndex + (r.lastIndex + 1) - third - half) + l.lastIndex = third + half := by omega
      have hleft : l2.lastIndex + n3.lastIndex + 1 = third + half := by omega
      have hright : r3.lastIndex + third + half = l.lastIndex + r.lastIndex := by omega
      have hmiddle : l2.lastIndex = third ∨ l2.lastIndex + 1 = l.lastIndex ∧ third < l.lastIndex ∧ l.lastIndex ≤ third + 2 := by omega
      clear hn3' hr3' hn3 hr3 hl2 hn2 hl1 hn1 hmoved hcount hle hpos
      have hatLeast : least order ≤ n3.lastIndex := by
        rcases hmiddle with hthird | ⟨hone, -, hnear⟩
        · omega
        · omega
      simp only [Branch.nodes, map_cons, map_nil, mem_cons, not_mem_nil, or_false] at hm
      rcases hm with rfl | rfl | rfl
      · exact hfit (by omega) (by omega) hQl2
      · exact hfit hatLeast (by omega) hQn3
      · exact hfit (by omega) (by omega) hQr3
  · obtain ⟨e1, r1, hrow, hitems⟩ := ofRow_eq (show 0 < r.items.length from (show 0 < r.lastIndex by omega))
    have hr1 : r.lastIndex = r1.lastIndex + 1 := congrArg List.length hitems
    have hfirst : ∀ m ∈ nodes (⟨r.first, []⟩ : Branch E N), Q m := fun m hm => mem_singleton.mp hm ▸ hQr _ mem_cons_self
    have hrest : ∀ m ∈ r1.nodes, Q m := fun m hm => hQr m (mem_cons_of_mem _ (by rw [hitems]; exact hm))
    have hle : r.lastIndex + 1 - (l.lastIndex + (r.lastIndex + 1) - third - half) - 1 ≤ r1.lastIndex := by omega
    obtain ⟨n3, e3, r3, hp3, hg3, hn3, hr3, hQn3, hQr3⟩ := pushLeft_moved (g := g) (e := e1) 0 hle hfirst hrest
    have hn3' : n3.lastIndex = 0 + (r.lastIndex + 1 - (l.lastIndex + (r.lastIndex + 1) - third - half) - 1) := hn3
    have hr3' : r3.lastIndex = r1.lastIndex - (r.lastIndex + 1 - (l.lastIndex + (r.lastIndex + 1) - third - half) - 1) := hr3
    refine ⟨⟨l, [(e, n3), (e3, r3)]⟩, ?_, rfl, ?_, fun n hm => ?_⟩
    · simp only [splitWith, hc, if_neg hpos, hrow, bind_eq_bind, bind_some, hp3]
      rfl
    · show flat g l ++ (e :: flat g n3 ++ (e3 :: flat g r3 ++ [])) = _
      rw [append_nil, cons_append, hg3, flat_single]
      conv_rhs => rw [show r = ⟨r.first, (e1, r1.first) :: r1.items⟩ from by rw [← hitems], cons_eta, flat_cons]
    · have hcount : r.lastIndex + 1 - (l.lastIndex + (r.lastIndex + 1) - third - half) + l.lastIndex = third + half := by omega
      have hmiddle : n3.lastIndex + l.lastIndex + 1 = third + half := by omega
      have hright : r3.lastIndex + third + half = l.lastIndex + r.lastIndex := by omega
      clear hn3' hr3' hn3 hr3 hr1 hcount hle
      simp only [Branch.nodes, map_cons, map_nil, mem_cons, not_mem_nil, or_false] at hm
      rcases hm with rfl | rfl | rfl
      · exact hfit (by omega) (by omega) hQl
      · exact hfit (by omega) (by omega) hQn3
      · exact hfit (by omega) (by omega) hQr3

/-- What branches below a branch hold, with any bound up to the one at which they are low. -/
theorem balances (ho : 3 ≤ order) {lo : Nat} (h1 : 1 ≤ lo) (h2 : lo ≤ (order - 1) / 2) :
    (kind (E := E) (N := N) order).Balances (flat g) (fun b => ∀ m ∈ b.nodes, Q m) lo where
  pos := h1
  lo_le_low := h2
  lo_lt_half := by simp only [kind]; omega
  low_le_half := by simp only [kind]; omega
  three := ho
  pushLeft := fun _ h hl hr => pushLeft_moved order h hl hr
  pushRight := fun _ h hl hr => pushRight_moved order h hl hr
  mergeWithRight := fun _ hl hr => mergeWithRight_eq hl hr

theorem lawful (ho : 3 ≤ order) : (kind (E := E) (N := N) order).Lawful (flat g) (fun b => ∀ m ∈ b.nodes, Q m) (least order) where
  toBalances := by
    have := least_bounds order ho
    exact balances order ho (by omega) (by omega)
  detach := fun h hn => detach_eq h hn
  splitWith := fun hQl hQr hl hr h => splitWith_fits order ho hQl hQr hl hr h

end Moves

/-! ## Mending a node -/

section Mend

variable (d : Kind E N) (order : Nat) (b : Branch E N)

def hasLeft (index : Nat) : Bool := 0 < index

def hasRight (index : Nat) : Bool := index < b.lastIndex

/-- Two nodes become three: the branch itself may be full after that. -/
def splitAt (pIndex : Nat) : Option (Branch E N × Bool) :=
  (b.splice d.splitWith pIndex).map fun b' => (b', b'.lastIndex == order)

def balanceAt (f : N → E → N → Option (N × E × N)) (pIndex : Nat) : Option (Branch E N × Bool) :=
  (b.splice (fun l e r => (f l e r).map pair) pIndex).map fun b' => (b', false)

/-- Two nodes become one: the branch itself may be low after that. -/
def mergeAt (pIndex : Nat) : Option (Branch E N × Bool) :=
  (b.splice (fun l e r => (d.mergeWithRight l e r).map fun n => ⟨n, []⟩) pIndex).map fun b' =>
    (b', b'.lastIndex < (order - 1) / 2)

/-- The node at the index is full. The branch with it mended, and whether the branch has to
tell its own parent. -/
def isFull (index : Nat) : Option (Branch E N × Bool) :=
  let rightFull := b.hasRight index && (b.getNode (index + 1)).any d.isAlmostFull
  let leftFull := hasLeft index && (b.getNode (index - 1)).any d.isAlmostFull
  if rightFull then
    if leftFull then b.splitAt d order index
    else if hasLeft index then b.balanceAt d.balanceWithLeft index
    else b.splitAt d order (index + 1)
  else if b.hasRight index then b.balanceAt d.balanceWithRight (index + 1)
  else if leftFull then b.splitAt d order index
  else if hasLeft index then b.balanceAt d.balanceWithLeft index
  else some (b, false)

/-- The node at the index is low. -/
def isLow (index : Nat) : Option (Branch E N × Bool) := do
  let node ← b.getNode index
  let room (l r : N) : Bool := d.maxPhysicalEntries ≤ d.physicalEntries l + d.virtualEntries r
  if b.hasRight index && (b.getNode (index + 1)).any (room node) then b.balanceAt d.balanceWith (index + 1)
  else if hasLeft index && (b.getNode (index - 1)).any (room · node) then b.balanceAt d.balanceWith index
  else if hasLeft index then b.mergeAt d order index
  else if b.hasRight index then b.mergeAt d order (index + 1)
  else return (b, false)

end Mend

end Branch

/-! ## Moves between neighbours that fit -/

section Fits

variable {E N : Type} {d : Kind E N} {g : N → List E} {P : N → Prop} {lo : Nat}

/-- Two neighbours that fit after a move. -/
def Kind.Settled (d : Kind E N) (g : N → List E) (P : N → Prop) (lo : Nat) (out : Option (N × E × N)) (l : N) (e : E) (r : N) : Prop :=
  ∃ l' e' r', out = some (l', e', r') ∧ g l' ++ e' :: g r' = g l ++ e :: g r ∧ d.Fits P lo l' ∧ d.Fits P lo r'

theorem Kind.Moved.settled {out : Option (N × E × N)} {l r : N} {e : E} {x y : Nat} (h : d.Moved g P out l e r x y)
    (hx : lo ≤ x ∧ x < d.maxPhysicalEntries) (hy : lo ≤ y ∧ y < d.maxPhysicalEntries) : d.Settled g P lo out l e r := by
  obtain ⟨l', e', r', ho, hg, hl, hr, hPl, hPr⟩ := h
  exact ⟨l', e', r', ho, hg, ⟨hl ▸ hx.1, hl ▸ hx.2, hPl⟩, ⟨hr ▸ hy.1, hr ▸ hy.2, hPr⟩⟩

namespace Kind.Balances

variable (hd : d.Balances g P lo)

include hd

variable {l r : N} {e : E}

theorem balanceWithLeft (hl : P l) (hr : P r) (h0 : d.physicalEntries l + 2 ≤ d.physicalEntries r)
    (h1 : 2 * lo ≤ d.physicalEntries l + d.physicalEntries r) (h2 : d.physicalEntries l + d.physicalEntries r + 2 ≤ 2 * d.maxPhysicalEntries) :
    d.Settled g P lo (d.balanceWithLeft l e r) l e r := by
  obtain ⟨size, hs⟩ : ∃ x, x = (d.virtualEntries r + d.physicalEntries l) / 2 := ⟨_, rfl⟩
  have hs' : 2 * size ≤ d.physicalEntries r + 1 + d.physicalEntries l ∧ d.physicalEntries r + 1 + d.physicalEntries l < 2 * size + 2 := by
    rw [hs, Kind.virtualEntries]
    omega
  have hm := hd.pushLeft (e := e) (show 0 < d.physicalEntries r - size by omega) (by omega) hl hr
  rw [Kind.balanceWithLeft, ← hs, if_pos (by omega)]
  exact hm.settled (by omega) (by omega)

theorem balanceWithRight (hl : P l) (hr : P r) (h0 : d.physicalEntries r + 2 ≤ d.physicalEntries l)
    (h1 : 2 * lo ≤ d.physicalEntries l + d.physicalEntries r) (h2 : d.physicalEntries l + d.physicalEntries r + 2 ≤ 2 * d.maxPhysicalEntries) :
    d.Settled g P lo (d.balanceWithRight l e r) l e r := by
  obtain ⟨size, hs⟩ : ∃ x, x = (d.physicalEntries l + d.virtualEntries r) / 2 := ⟨_, rfl⟩
  have hs' : 2 * size ≤ d.physicalEntries l + (d.physicalEntries r + 1) ∧ d.physicalEntries l + (d.physicalEntries r + 1) < 2 * size + 2 := by
    rw [hs, Kind.virtualEntries]
    omega
  have hm := hd.pushRight (e := e) (show 0 < d.physicalEntries l - size by omega) (by omega) hl hr
  rw [Kind.balanceWithRight, ← hs, if_pos (by omega)]
  exact hm.settled (by omega) (by omega)

/-- One of two neighbours is low, and together they are not few. -/
theorem balanceWith (hl : P l) (hr : P r)
    (hlow : d.physicalEntries l < d.lowEntries ∨ d.physicalEntries r < d.lowEntries)
    (hroom : d.maxPhysicalEntries ≤ d.physicalEntries l + d.virtualEntries r)
    (hl' : d.physicalEntries l < d.maxPhysicalEntries) (hr' : d.physicalEntries r < d.maxPhysicalEntries) :
    d.Settled g P lo (d.balanceWith l e r) l e r := by
  have h1 := hd.low_le_half
  have h2 := hd.lo_lt_half
  rw [Kind.balanceWith]
  rw [Kind.virtualEntries] at hroom ⊢
  split_ifs with h
  · exact hd.balanceWithLeft hl hr (by omega) (by omega) (by omega)
  · exact hd.balanceWithRight hl hr (by omega) (by omega) (by omega)

end Kind.Balances

theorem Kind.Lawful.split (hd : d.Lawful g P lo) {n : N} (hn : P n) (h : d.physicalEntries n = d.maxPhysicalEntries) :
    ∃ b, d.split n = some b ∧ b.lastIndex = 1 ∧ b.flat g = g n ∧ ∀ m ∈ b.nodes, d.Fits P lo m := by
  have h2 := hd.lo_lt_half
  have h3 := hd.three
  obtain ⟨l, e, r, hdet, hg, hl, hr, hPl, hPr⟩ := hd.detach (by omega) hn
  obtain ⟨l', e', r', hb, hg', hFl, hFr⟩ := hd.balanceWithRight (e := e) hPl hPr (by omega) (by omega) (by omega)
  refine ⟨.pair (l', e', r'), by simp [Kind.split, hdet, hb], rfl, ?_, fun m hm => ?_⟩
  · rw [← hg, ← hg', Branch.flat_pair]
  · rcases Branch.mem_pair.mp hm with rfl | rfl
    · exact hFl
    · exact hFr

namespace Branch

theorem splice_fits {f : N → E → N → Option (Branch E N)} {b : Branch E N} {k : Nat} {l r : N} {e : E} {out : Branch E N}
    (hl : b.getNode k = some l) (hr : b.items[k]? = some (e, r)) (hf : f l e r = some out) (hg : out.flat g = g l ++ e :: g r)
    (hout : ∀ n ∈ out.nodes, d.Fits P lo n) (hrest : ∀ {j n}, j ≠ k → j ≠ k + 1 → b.getNode j = some n → d.Fits P lo n) :
    ∃ b', b.splice f (k + 1) = some b' ∧ b'.flat g = b.flat g ∧ (∀ n ∈ b'.nodes, d.Fits P lo n) ∧
      b'.lastIndex + 1 = b.lastIndex + out.lastIndex := by
  obtain ⟨b', hb, hs⟩ := splice_spliced hl hr hf
  refine ⟨b', hb, hs.flat hg, fun n hn => ?_, hs.lastIndex⟩
  rcases hs.nodes hn with hn | ⟨j, h1, h2, hj⟩
  · exact hout n hn
  · exact hrest h1 h2 hj

theorem balanceAt_fits {f : N → E → N → Option (N × E × N)} {b : Branch E N} {k : Nat} {l r : N} {e : E}
    (hl : b.getNode k = some l) (hr : b.items[k]? = some (e, r)) (hf : d.Settled g P lo (f l e r) l e r)
    (hrest : ∀ {j n}, j ≠ k → j ≠ k + 1 → b.getNode j = some n → d.Fits P lo n) :
    ∃ b', b.balanceAt f (k + 1) = some (b', false) ∧ b'.flat g = b.flat g ∧ (∀ n ∈ b'.nodes, d.Fits P lo n) ∧
      b'.lastIndex = b.lastIndex := by
  obtain ⟨l', e', r', hp, hg, hFl, hFr⟩ := hf
  have hp' : (f l e r).map pair = some (pair (l', e', r')) := by rw [hp, map_some]
  have hfits : ∀ n ∈ (pair (l', e', r')).nodes, d.Fits P lo n := by
    intro n hn
    rcases mem_pair.mp hn with rfl | rfl
    · exact hFl
    · exact hFr
  obtain ⟨b', hb, hflat, hfit, hlast⟩ := splice_fits (f := fun l e r => (f l e r).map pair) hl hr hp'
    ((flat_pair g _).trans hg) hfits hrest
  exact ⟨b', by rw [balanceAt, hb, map_some], hflat, hfit, Nat.add_right_cancel hlast⟩

/-- What mending a branch below which one node was out of bounds gives. -/
structure Mended (d : Kind E N) (g : N → List E) (P : N → Prop) (lo : Nat) (b b' : Branch E N) : Prop where
  flat : b'.flat g = b.flat g
  fits : ∀ n ∈ b'.nodes, d.Fits P lo n

variable {b : Branch E N} {index : Nat} {m : N}

theorem left_of {k : Nat} (hm : b.getNode (k + 1) = some m) (hrest : ∀ {j n}, j ≠ k + 1 → b.getNode j = some n → d.Fits P lo n) :
    ∃ l e, b.getNode k = some l ∧ b.items[k]? = some (e, m) ∧ d.Fits P lo l := by
  obtain ⟨l, hl⟩ := getNode_isSome (show k ≤ b.lastIndex by have := le_lastIndex hm; omega)
  obtain ⟨e, he⟩ := item_of_getNode hm
  exact ⟨l, e, hl, he, hrest (by omega) hl⟩

theorem right_of (hR : index < b.lastIndex) (hrest : ∀ {j n}, j ≠ index → b.getNode j = some n → d.Fits P lo n) :
    ∃ r e, b.getNode (index + 1) = some r ∧ b.items[index]? = some (e, r) ∧ d.Fits P lo r := by
  obtain ⟨r, hr⟩ := getNode_isSome (show index + 1 ≤ b.lastIndex from hR)
  obtain ⟨e, he⟩ := item_of_getNode hr
  exact ⟨r, e, hr, he, hrest (by omega) hr⟩

/-- The branch has one node more at most, and says so if it is full. -/
def Grows (d : Kind E N) (g : N → List E) (P : N → Prop) (lo order : Nat) (b : Branch E N) (out : Option (Branch E N × Bool)) : Prop :=
  ∃ b' notify, out = some (b', notify) ∧ Mended d g P lo b b' ∧
    (notify = false ∧ b'.lastIndex = b.lastIndex ∨ b'.lastIndex = b.lastIndex + 1 ∧ notify = (b'.lastIndex == order))

/-- The branch has one node less at most, and says so if it is low. -/
def Shrinks (d : Kind E N) (g : N → List E) (P : N → Prop) (lo order : Nat) (b : Branch E N) (out : Option (Branch E N × Bool)) : Prop :=
  ∃ b' notify, out = some (b', notify) ∧ Mended d g P lo b b' ∧
    (notify = false ∧ b'.lastIndex = b.lastIndex ∨ b'.lastIndex + 1 = b.lastIndex ∧ notify = decide (b'.lastIndex < (order - 1) / 2))

theorem isFull_spec (hd : d.Lawful g P lo) (order : Nat) (hm : b.getNode index = some m) (hP : P m) (hfull : d.physicalEntries m = d.maxPhysicalEntries)
    (hrest : ∀ {j n}, j ≠ index → b.getNode j = some n → d.Fits P lo n) (hb : 0 < b.lastIndex) : Grows d g P lo order b (b.isFull d order index) := by
  -- three out of two, at the node and its left neighbour or at the node and its right one
  have hsplit {k : Nat} {l r : N} {e : E} (hl : b.getNode k = some l) (hr : b.items[k]? = some (e, r)) (hPl : P l) (hPr : P r)
      (hsz : d.maxPhysicalEntries - 1 ≤ d.physicalEntries l ∧ d.maxPhysicalEntries - 1 ≤ d.physicalEntries r ∧
        d.physicalEntries l + d.physicalEntries r = 2 * d.maxPhysicalEntries - 1)
      (hk : index = k ∨ index = k + 1) : Grows d g P lo order b (b.splitAt d order (k + 1)) := by
    obtain ⟨out, hout, hlast, hg, hfit⟩ := hd.splitWith (e := e) hPl hPr hsz.1 hsz.2.1 hsz.2.2
    obtain ⟨b', hb', hflat, hfits, hlen⟩ := splice_fits hl hr hout hg hfit fun {j n} h3 h4 hj => hrest (by omega) hj
    exact ⟨b', _, by rw [splitAt, hb', map_some], ⟨hflat, hfits⟩, Or.inr ⟨by omega, rfl⟩⟩
  have hbal {f : N → E → N → Option (N × E × N)} {k : Nat} {l r : N} {e : E} (hl : b.getNode k = some l)
      (hr : b.items[k]? = some (e, r)) (hf : d.Settled g P lo (f l e r) l e r) (hk : index = k ∨ index = k + 1) : Grows d g P lo order b (b.balanceAt f (k + 1)) := by
    obtain ⟨b', hb', hflat, hfits, hlen⟩ := balanceAt_fits hl hr hf fun {j n} h3 h4 hj => hrest (by omega) hj
    exact ⟨b', false, hb', ⟨hflat, hfits⟩, Or.inl ⟨rfl, hlen⟩⟩
  have hle := le_lastIndex hm
  rw [isFull]
  by_cases hR : index < b.lastIndex
  · obtain ⟨r, e, hr, hre, hFr⟩ := right_of hR hrest
    have h3 := hFr.room
    have h4 := hFr.least
    cases index with
    | zero =>
      by_cases hrf : d.maxPhysicalEntries - 1 ≤ d.physicalEntries r
      · simp only [hasRight, hR, hr, hasLeft, Kind.isAlmostFull, hrf, any_some, decide_true, Bool.and_true, Nat.lt_irrefl, decide_false,
          Bool.false_and, if_true, Bool.false_eq_true, if_false]
        exact hsplit hm hre hP hFr.inner (by omega) (Or.inl rfl)
      · simp only [hasRight, hR, hr, hasLeft, Kind.isAlmostFull, hrf, any_some, decide_true, Bool.and_false, Nat.lt_irrefl, decide_false,
          Bool.false_eq_true, if_true, if_false]
        exact hbal hm hre (hd.balanceWithRight hP hFr.inner (by omega) (by omega) (by omega)) (Or.inl rfl)
    | succ k =>
      obtain ⟨l, e', hl, hme, hFl⟩ := left_of hm hrest
      have h5 := hFl.room
      have h6 := hFl.least
      have hk : k + 1 - 1 = k := rfl
      by_cases hrf : d.maxPhysicalEntries - 1 ≤ d.physicalEntries r
      · by_cases hlf : d.maxPhysicalEntries - 1 ≤ d.physicalEntries l
        · simp only [hasRight, hR, hr, hasLeft, hk, hl, Kind.isAlmostFull, hrf, hlf, any_some, decide_true, Bool.and_true, if_true,
            zero_lt_succ]
          exact hsplit hl hme hFl.inner hP (by omega) (Or.inr rfl)
        · simp only [hasRight, hR, hr, hasLeft, hk, hl, Kind.isAlmostFull, hrf, hlf, any_some, decide_true, decide_false, Bool.and_true,
            Bool.and_false, if_true, Bool.false_eq_true, if_false, zero_lt_succ]
          exact hbal hl hme (hd.balanceWithLeft hFl.inner hP (by omega) (by omega) (by omega)) (Or.inr rfl)
      · simp only [hasRight, hR, hr, Kind.isAlmostFull, hrf, any_some, decide_true, decide_false, Bool.and_false, Bool.false_eq_true,
          if_true, if_false]
        exact hbal hm hre (hd.balanceWithRight hP hFr.inner (by omega) (by omega) (by omega)) (Or.inl rfl)
  · obtain ⟨k, rfl⟩ : ∃ k, index = k + 1 := ⟨index - 1, by omega⟩
    obtain ⟨l, e', hl, hme, hFl⟩ := left_of hm hrest
    have h5 := hFl.room
    have h6 := hFl.least
    have hk : k + 1 - 1 = k := rfl
    by_cases hlf : d.maxPhysicalEntries - 1 ≤ d.physicalEntries l
    · simp only [hasRight, hR, hasLeft, hk, hl, Kind.isAlmostFull, hlf, any_some, decide_true, decide_false, Bool.and_true, Bool.false_and,
        Bool.false_eq_true, if_true, if_false, zero_lt_succ]
      exact hsplit hl hme hFl.inner hP (by omega) (Or.inr rfl)
    · simp only [hasRight, hR, hasLeft, hk, hl, Kind.isAlmostFull, hlf, any_some, decide_true, decide_false, Bool.and_false, Bool.false_and,
        Bool.false_eq_true, if_true, if_false, zero_lt_succ]
      exact hbal hl hme (hd.balanceWithLeft hFl.inner hP (by omega) (by omega) (by omega)) (Or.inr rfl)

theorem isLow_spec (hd : d.Balances g P lo) (order : Nat) (hm : b.getNode index = some m) (hP : P m) (hlo : lo ≤ d.physicalEntries m + 1)
    (hlow : d.physicalEntries m < d.lowEntries) (hrest : ∀ {j n}, j ≠ index → b.getNode j = some n → d.Fits P lo n)
    (hb : 0 < b.lastIndex) : Shrinks d g P lo order b (b.isLow d order index) := by
  have h1 := hd.low_le_half
  have hbal {k : Nat} {l r : N} {e : E} (hl : b.getNode k = some l) (hr : b.items[k]? = some (e, r))
      (hf : d.Settled g P lo (d.balanceWith l e r) l e r) (hk : index = k ∨ index = k + 1) : Shrinks d g P lo order b (b.balanceAt d.balanceWith (k + 1)) := by
    obtain ⟨b', hb', hflat, hfits, hlen⟩ := balanceAt_fits hl hr hf fun {j n} h3 h4 hj => hrest (by omega) hj
    exact ⟨b', false, hb', ⟨hflat, hfits⟩, Or.inl ⟨rfl, hlen⟩⟩
  have hmerge {k : Nat} {l r : N} {e : E} (hl : b.getNode k = some l) (hr : b.items[k]? = some (e, r)) (hPl : P l) (hPr : P r)
      (h3 : lo ≤ d.physicalEntries r + 1) (h4 : d.physicalEntries l + d.physicalEntries r + 1 < d.maxPhysicalEntries)
      (hk : index = k ∨ index = k + 1) : Shrinks d g P lo order b (b.mergeAt d order (k + 1)) := by
    obtain ⟨n, hn, hg, hsz, hPn⟩ := hd.mergeWithRight (e := e) h3 hPl hPr
    have hout : (d.mergeWithRight l e r).map (fun n => (⟨n, []⟩ : Branch E N)) = some ⟨n, []⟩ := by rw [hn, map_some]
    have hfit : ∀ x ∈ (⟨n, []⟩ : Branch E N).nodes, d.Fits P lo x := by
      intro x hx
      rw [show x = n from mem_singleton.mp hx]
      exact ⟨by omega, by omega, hPn⟩
    obtain ⟨b', hb', hflat, hfits, hlen⟩ := splice_fits (f := fun l e r => (d.mergeWithRight l e r).map fun n => ⟨n, []⟩) hl hr hout
      ((flat_single g n).trans hg) hfit fun {j n} h3 h4 hj => hrest (by omega) hj
    exact ⟨b', _, by rw [mergeAt, hb', map_some], ⟨hflat, hfits⟩, Or.inr ⟨hlen, rfl⟩⟩
  have hle := le_lastIndex hm
  simp only [isLow, hm, bind_eq_bind, bind_some, hasRight, hasLeft]
  by_cases hR : index < b.lastIndex
  · obtain ⟨r, e, hr, hre, hFr⟩ := right_of hR hrest
    have h3 := hFr.least
    by_cases hroom : d.maxPhysicalEntries ≤ d.physicalEntries m + d.virtualEntries r
    · simp only [hR, hr, hroom, any_some, decide_true, Bool.and_true, if_true]
      exact hbal hm hre (hd.balanceWith hP hFr.inner (Or.inl hlow) hroom (by omega) hFr.room) (Or.inl rfl)
    · cases index with
      | zero =>
        simp only [hR, hr, hroom, any_some, decide_true, decide_false, Bool.and_false, Bool.false_and, Nat.lt_irrefl,
          Bool.false_eq_true, if_true, if_false]
        rw [Kind.virtualEntries] at hroom
        exact hmerge hm hre hP hFr.inner (by omega) (by omega) (Or.inl rfl)
      | succ k =>
        obtain ⟨l, e', hl, hme, hFl⟩ := left_of hm hrest
        have hk : k + 1 - 1 = k := rfl
        by_cases hroom' : d.maxPhysicalEntries ≤ d.physicalEntries l + d.virtualEntries m
        · simp only [hR, hr, hk, hl, hroom, hroom', any_some, decide_true, decide_false, Bool.and_false, Bool.and_true, zero_lt_succ,
            Bool.false_eq_true, if_true, if_false]
          exact hbal hl hme (hd.balanceWith hFl.inner hP (Or.inr hlow) hroom' hFl.room (by omega)) (Or.inr rfl)
        · simp only [hR, hr, hk, hl, hroom, hroom', any_some, decide_true, decide_false, Bool.and_false, zero_lt_succ,
            Bool.false_eq_true, if_true, if_false]
          rw [Kind.virtualEntries] at hroom'
          exact hmerge hl hme hFl.inner hP hlo (by omega) (Or.inr rfl)
  · obtain ⟨k, rfl⟩ : ∃ k, index = k + 1 := ⟨index - 1, by omega⟩
    obtain ⟨l, e', hl, hme, hFl⟩ := left_of hm hrest
    have hk : k + 1 - 1 = k := rfl
    by_cases hroom' : d.maxPhysicalEntries ≤ d.physicalEntries l + d.virtualEntries m
    · simp only [hR, hk, hl, hroom', any_some, decide_true, decide_false, Bool.false_and, Bool.and_true, zero_lt_succ,
        Bool.false_eq_true, if_true, if_false]
      exact hbal hl hme (hd.balanceWith hFl.inner hP (Or.inr hlow) hroom' hFl.room (by omega)) (Or.inr rfl)
    · simp only [hR, hk, hl, hroom', any_some, decide_true, decide_false, Bool.false_and, Bool.and_false, zero_lt_succ,
        Bool.false_eq_true, if_true, if_false]
      rw [Kind.virtualEntries] at hroom'
      exact hmerge hl hme hFl.inner hP hlo (by omega) (Or.inr rfl)

end Branch

end Fits

/-! ## Nodes of any height -/

abbrev Node (K V : Type) : Nat → Type
  | 0 => List (K × V)
  | n + 1 => Branch (K × V) (Node K V n)

namespace Node

variable {K V : Type}

def kind (order : Nat) : (n : Nat) → Kind (K × V) (Node K V n)
  | 0 => Leaf.kind order
  | _ + 1 => Branch.kind order

def flat : (n : Nat) → Node K V n → List (K × V)
  | 0, os => os
  | n + 1, b => Branch.flat (flat n) b

/-- `firstLeaf()->m_objects[0]`. -/
def firstObject : (n : Nat) → Node K V n → Option (K × V)
  | 0, os => List.head? os
  | n + 1, b => firstObject n (Branch.first b)

/-- `x->setKey` and `x->setValue` for the object at a place: the way down to its node, and
its index there. -/
def assign (obj : K × V) : (n : Nat) → Node K V n → List Nat → Nat → Option (Node K V n)
  | 0, os, _, index => some (List.set os index obj)
  | _ + 1, b, [], index => some (Branch.setObject b index obj)
  | n + 1, b, i :: path, index => (Branch.onNode (fun m => (assign obj n m path index).map fun m => (m, ())) b i).map fst

/-- The node with the object put in, and whether it has to tell its parent. The place is one
in a leaf. -/
def insert (order : Nat) (obj : K × V) (sequential : Bool) : (n : Nat) → Node K V n → List Nat → Nat → Option (Node K V n × Bool)
  | 0, os, _, index =>
    if index ≤ List.length os then
      let os' := List.take index os ++ obj :: List.drop index os
      some (os', (Leaf.kind order).isFull os')
    else none
  | _ + 1, _, [], _ => none
  | n + 1, b, i :: path, index => do
    let (b, notify) ← Branch.onNode (fun m => insert order obj sequential n m path index) b i
    -- a sequential insert is into the last leaf, and its parent does not look where that is
    if notify then Branch.isFull (kind order n) order b (if n = 0 ∧ sequential then Branch.lastIndex b else i)
    else return (b, false)

def remove (order : Nat) : (n : Nat) → Node K V n → List Nat → Nat → Option (Node K V n × Bool)
  | 0, os, _, index =>
    if index < List.length os then
      let os' := List.eraseIdx os index
      some (os', (Leaf.kind order).isLow os')
    else none
  | n + 1, b, [], index => do
    -- the first object of the leaf after it takes the object's place
    let obj ← (Branch.getNode b index).bind (firstObject n)
    let (b, notify) ← Branch.onNode (fun m => remove order n m (List.replicate n 0) 0) (Branch.setObject b index obj) index
    if notify then Branch.isLow (kind order n) order b index else return (b, false)
  | n + 1, b, i :: path, index => do
    let (b, notify) ← Branch.onNode (fun m => remove order n m path index) b i
    if notify then Branch.isLow (kind order n) order b i else return (b, false)


/-! ## What the operations do to the entries -/

def least (order : Nat) : Nat → Nat
  | 0 => order
  | _ + 1 => Branch.least order

theorem least_pos (ho : 3 ≤ order) : ∀ n, 0 < least order n
  | 0 => Nat.lt_of_lt_of_le (by decide) ho
  | _ + 1 => (Branch.least_bounds _ ho).1

/-- Every node below this one is between its bounds. -/
def Inner (order : Nat) : (n : Nat) → Node K V n → Prop
  | 0, _ => True
  | n + 1, b => ∀ m ∈ Branch.nodes b, (kind order n).Fits (Inner order n) (least order n) m

theorem lawful {order : Nat} (ho : 3 ≤ order) :
    (n : Nat) → (kind (K := K) (V := V) order n).Lawful (flat n) (Inner order n) (least order n)
  | 0 => Leaf.lawful order ho
  | _ + 1 => Branch.lawful order ho

/-- The place `path`, `index` is one in a leaf, with the entries `pre` before it and `post`
after it. -/
def At : (n : Nat) → Node K V n → List Nat → Nat → List (K × V) → List (K × V) → Prop
  | 0, os, path, index, pre, post => path = [] ∧ List.length pre = index ∧ os = pre ++ post
  | _ + 1, _, [], _, _, _ => False
  | n + 1, b, i :: path, index, pre, post => ∃ m a c, Branch.getNode b i = some m ∧ At n m path index a c ∧
      pre = Branch.before (flat n) b.first b.items i ++ a ∧ post = c ++ Branch.after (flat n) b.items i

/-- At the place is the object `x`, with the entries `pre` before it and `post` after it. -/
def On : (n : Nat) → Node K V n → List Nat → Nat → List (K × V) → K × V → List (K × V) → Prop
  | 0, os, path, index, pre, x, post => path = [] ∧ List.length pre = index ∧ os = pre ++ x :: post
  | n + 1, b, [], index, pre, x, post => ∃ i m, index = i + 1 ∧ b.items[i]? = some (x, m) ∧
      Branch.before (flat n) b.first b.items (i + 1) = pre ++ [x] ∧ post = flat n m ++ Branch.after (flat n) b.items (i + 1)
  | n + 1, b, i :: path, index, pre, x, post => ∃ m a c, Branch.getNode b i = some m ∧ On n m path index a x c ∧
      pre = Branch.before (flat n) b.first b.items i ++ a ∧ post = c ++ Branch.after (flat n) b.items i

variable {order : Nat}

theorem At.flat : ∀ {n : Nat} {node : Node K V n} {path : List Nat} {index : Nat} {pre post : List (K × V)},
    At n node path index pre post → flat n node = pre ++ post
  | 0, _, _, _, _, _, ⟨_, _, h⟩ => h
  | n + 1, b, i :: path, index, pre, post, ⟨m, a, c, hm, hat, hpre, hpost⟩ => by
    show Branch.flat (Node.flat n) b = pre ++ post
    rw [Branch.flat_at hm, hat.flat, hpre, hpost]
    simp

theorem On.flat : ∀ {n : Nat} {node : Node K V n} {path : List Nat} {index : Nat} {pre post : List (K × V)} {x : K × V},
    On n node path index pre x post → flat n node = pre ++ x :: post
  | 0, _, _, _, _, _, _, ⟨_, _, h⟩ => h
  | n + 1, b, [], _, pre, post, x, ⟨i, m, _, hi, hpre, hpost⟩ => by
    have hm : Branch.getNode b (i + 1) = some m := by rw [Branch.getNode_succ, hi, map_some]
    show Branch.flat (Node.flat n) b = pre ++ x :: post
    rw [Branch.flat_at hm, hpre, hpost]
    simp
  | n + 1, b, i :: path, index, pre, post, x, ⟨m, a, c, hm, hon, hpre, hpost⟩ => by
    show Branch.flat (Node.flat n) b = pre ++ x :: post
    rw [Branch.flat_at hm, hon.flat, hpre, hpost]
    simp

variable {n : Nat} {b : Branch (K × V) (Node K V n)} {i : Nat} {m : Node K V n}

theorem inner_of_sets {b' : Branch (K × V) (Node K V n)} (hs : Branch.Sets b i m b')
    (hb : Inner order (n + 1) b) (hm : (kind order n).Fits (Inner order n) (least order n) m) : Inner order (n + 1) b' :=
  hs.forall_nodes hb hm

/-! ### Putting an object in -/

/-- One more entry, where it was told to go. -/
structure Inserted (order : Nat) (obj : K × V) (n : Nat) (node : Node K V n) (pre post : List (K × V)) (node' : Node K V n) (notify : Bool) :
    Prop where
  flat : flat n node' = pre ++ obj :: post
  inner : Inner order n node'
  le : (kind order n).physicalEntries node ≤ (kind order n).physicalEntries node'
  succ_le : (kind order n).physicalEntries node' ≤ (kind order n).physicalEntries node + 1
  notify : notify = (kind order n).isFull node'

theorem insert_spec (ho : 3 ≤ order) (obj : K × V) {sequential : Bool} : ∀ {n : Nat} {node : Node K V n} {path : List Nat} {index : Nat}
    {pre post : List (K × V)}, At n node path index pre post → Inner order n node →
    (0 < n → 0 < (kind order n).physicalEntries node) → (kind order n).physicalEntries node < (kind (K := K) (V := V) order n).maxPhysicalEntries →
    (sequential = true → post = []) →
    ∃ node' notify, insert order obj sequential n node path index = some (node', notify) ∧ Inserted order obj n node pre post node' notify
  | 0, os, path, index, pre, post, hat, _, _, _, _ => by
    obtain ⟨-, rfl, hos⟩ := hat
    have hlen : os.length = pre.length + post.length := (congrArg List.length hos).trans length_append
    have htake : List.take pre.length os ++ obj :: List.drop pre.length os = pre ++ obj :: post := by
      rw [hos, take_left, drop_left]
    refine ⟨pre ++ obj :: post, _, ?_, rfl, trivial, ?_, ?_, rfl⟩
    · rw [insert, if_pos (by omega), htake]
      rfl
    · show os.length ≤ (pre ++ obj :: post).length
      rw [hlen, length_append, length_cons]
      omega
    · show (pre ++ obj :: post).length ≤ os.length + 1
      rw [hlen, length_append, length_cons]
      omega
  | n + 1, b, i :: path, index, pre, post, ⟨m, a, c, hm, hat, hpre, hpost⟩, hin, hpos, hroom, hseq => by
    have hFm := hin m (Branch.mem_nodes.mpr ⟨i, hm⟩)
    have hpos' : 0 < Branch.lastIndex b := hpos (Nat.succ_pos n)
    obtain ⟨hc, hafter⟩ : (sequential = true → c = []) ∧ (sequential = true → Branch.lastIndex b ≤ i) := by
      refine ⟨fun hs => ?_, fun hs => ?_⟩
      · rw [hseq hs] at hpost
        exact (append_eq_nil_iff.mp hpost.symm).1
      · rw [hseq hs] at hpost
        have h := (append_eq_nil_iff.mp hpost.symm).2
        rw [Branch.after, flatMap_eq_nil_iff] at h
        by_contra hlt
        have hd : b.items.drop i ≠ [] := by
          rw [ne_eq, drop_eq_nil_iff]
          exact hlt
        obtain ⟨it, rest, hr⟩ := exists_cons_of_ne_nil hd
        exact absurd (h it (by rw [hr]; exact mem_cons_self)) (cons_ne_nil _ _)
    obtain ⟨m', notify, hins, hI⟩ := insert_spec ho obj hat hFm.inner (fun _ => Nat.lt_of_lt_of_le (least_pos ho n) hFm.least) hFm.room hc
    obtain ⟨b', hb', hs⟩ := Branch.onNode_sets (f := fun m => insert order obj sequential n m path index) hm hins
    have hflat : Branch.flat (Node.flat n) b' = pre ++ obj :: post := by
      rw [hs.flat, hI.flat, hpre, hpost]
      simp
    have hindex : (if n = 0 ∧ sequential = true then Branch.lastIndex b' else i) = i := by
      split_ifs with h
      · rw [hs.lastIndex]
        exact Nat.le_antisymm (hafter h.2) (Branch.le_lastIndex hm)
      · rfl
    have hstep : insert order obj sequential (n + 1) b (i :: path) index =
        if notify then Branch.isFull (kind order n) order b' i else some (b', false) := by
      simp only [insert, hb', bind_eq_bind, bind_some, hindex]
      rfl
    have hlast : Branch.lastIndex b' = Branch.lastIndex b := hs.lastIndex
    have hroom' : Branch.lastIndex b < order := hroom
    cases hn : notify with
    | true =>
      have hfull : (kind order n).physicalEntries m' = (kind order n).maxPhysicalEntries :=
        of_decide_eq_true (hI.notify.symm.trans hn)
      obtain ⟨b'', notify', hb'', hmend, hcount⟩ := Branch.isFull_spec (lawful ho n) order hs.here hI.inner hfull
        (fun {j x} hj hx => hs.exchange hin hj hx) (hlast ▸ hpos')
      refine ⟨b'', notify', by rw [hstep, hn, if_pos rfl, hb''], hmend.flat.trans hflat, hmend.fits, ?_, ?_, ?_⟩
      · show Branch.lastIndex b ≤ Branch.lastIndex b''
        rcases hcount with ⟨-, h⟩ | ⟨h, -⟩ <;> omega
      · show Branch.lastIndex b'' ≤ Branch.lastIndex b + 1
        rcases hcount with ⟨-, h⟩ | ⟨h, -⟩ <;> omega
      · show notify' = (Branch.lastIndex b'' == order)
        rcases hcount with ⟨h1, h2⟩ | ⟨-, h⟩
        · rw [h1, eq_comm, beq_eq_false_iff_ne]
          omega
        · exact h
    | false =>
      have hnot : (kind order n).physicalEntries m' ≠ (kind order n).maxPhysicalEntries :=
        of_decide_eq_false (hI.notify.symm.trans hn)
      have hle := hI.le
      have hsucc := hI.succ_le
      have hrm := hFm.room
      have hlo := hFm.least
      refine ⟨b', false, by rw [hstep, hn]; rfl, hflat, inner_of_sets hs hin ⟨by omega, by omega, hI.inner⟩, Nat.le_of_eq hlast.symm, ?_, ?_⟩
      · show Branch.lastIndex b' ≤ Branch.lastIndex b + 1
        omega
      · show false = (Branch.lastIndex b' == order)
        rw [eq_comm, beq_eq_false_iff_ne]
        omega

/-! ### Replacing an object -/

theorem setObject_spec {e : K × V} (obj : K × V)
    {pre : List (K × V)} (hi : b.items[i]? = some (e, m)) (hpre : Branch.before (flat n) b.first b.items (i + 1) = pre ++ [e]) :
    Branch.before (flat n) (b.setObject (i + 1) obj).first (b.setObject (i + 1) obj).items (i + 1) = pre ++ [obj] ∧
      Branch.flat (flat n) (b.setObject (i + 1) obj) = pre ++ obj :: (flat n m ++ Branch.after (flat n) b.items (i + 1)) ∧
      Branch.getNode (b.setObject (i + 1) obj) (i + 1) = some m := by
  obtain ⟨pre', h1, h2⟩ := Branch.modify_object (flat n) b.first hi
  obtain ⟨rfl, -⟩ := List.append_inj' (hpre.symm.trans h1) rfl
  have hm : Branch.getNode (b.setObject (i + 1) obj) (i + 1) = some m := by
    rw [Branch.getNode, Branch.setObject_nodes, ← Branch.getNode, Branch.getNode_succ, hi, map_some]
  refine ⟨h2 obj, ?_, hm⟩
  rw [Branch.flat_at hm, show Branch.before (flat n) (b.setObject (i + 1) obj).first (b.setObject (i + 1) obj).items (i + 1) = _ from h2 obj,
    show Branch.after (flat n) (b.setObject (i + 1) obj).items (i + 1) = _ from Branch.after_modify _]
  simp

theorem assign_spec (obj : K × V) : ∀ {n : Nat} {node : Node K V n} {path : List Nat} {index : Nat} {pre post : List (K × V)} {x : K × V},
    On n node path index pre x post → Inner order n node →
    ∃ node', assign obj n node path index = some node' ∧ flat n node' = pre ++ obj :: post ∧ Inner order n node' ∧
      (kind order n).physicalEntries node' = (kind order n).physicalEntries node
  | 0, os, path, index, pre, post, x, hon, _ => by
    obtain ⟨-, rfl, hos⟩ := hon
    have hset : List.set os pre.length obj = pre ++ obj :: post := by rw [hos]; simp
    refine ⟨pre ++ obj :: post, by rw [assign, hset], rfl, trivial, ?_⟩
    show (pre ++ obj :: post).length = os.length
    rw [← hset, length_set]
  | n + 1, b, [], index, pre, post, x, ⟨i, m, hidx, hi, hpre, hpost⟩, hin => by
    subst hidx hpost
    obtain ⟨-, hflat, -⟩ := setObject_spec obj hi hpre
    refine ⟨Branch.setObject b (i + 1) obj, rfl, hflat, fun m hm => hin m ?_, ?_⟩
    · rwa [Branch.setObject_nodes] at hm
    · exact length_modify _ _ _
  | n + 1, b, i :: path, index, pre, post, x, ⟨m, a, c, hm, hon, hpre, hpost⟩, hin => by
    have hFm := hin m (Branch.mem_nodes.mpr ⟨i, hm⟩)
    obtain ⟨m', has, hflat, hI, hsz⟩ := assign_spec obj hon hFm.inner
    obtain ⟨b', hb', hs⟩ := Branch.onNode_sets (f := fun m => (assign obj n m path index).map fun m => (m, ())) (r := ()) hm
      (show (assign obj n m path index).map (fun m => (m, ())) = some (m', ()) by rw [has, map_some])
    refine ⟨b', by rw [assign, hb', map_some], ?_, inner_of_sets hs hin ⟨hsz ▸ hFm.least, hsz ▸ hFm.room, hI⟩, hs.lastIndex⟩
    show Branch.flat (Node.flat n) b' = _
    rw [hs.flat, hflat, hpre, hpost]
    simp

/-! ### Taking an object out -/

/-- One entry less, the one it was told. -/
structure Removed (order : Nat) (n : Nat) (node : Node K V n) (pre post : List (K × V)) (node' : Node K V n) (notify : Bool) : Prop where
  flat : flat n node' = pre ++ post
  inner : Inner order n node'
  le : (kind order n).physicalEntries node' ≤ (kind order n).physicalEntries node
  le_succ : (kind order n).physicalEntries node ≤ (kind order n).physicalEntries node' + 1
  low : notify = true → (kind order n).isLow node' = true
  kept : notify = false → (kind order n).physicalEntries node' = (kind order n).physicalEntries node ∨ (kind order n).isLow node' = false

theorem firstLeaf_on (ho : 3 ≤ order) : ∀ {n : Nat} {node : Node K V n}, (kind order n).Fits (Inner order n) (least order n) node →
    ∃ x post, firstObject n node = some x ∧ On n node (List.replicate n 0) 0 [] x post
  | 0, os, h => by
    have hpos : 0 < List.length os := Nat.lt_of_lt_of_le (Nat.lt_of_lt_of_le (by omega) ho) h.least
    obtain ⟨x, post, hos⟩ := exists_cons_of_length_pos hpos
    exact ⟨x, post, by rw [firstObject, hos]; rfl, rfl, rfl, hos⟩
  | n + 1, b, h => by
    have hm : Branch.getNode b 0 = some b.first := rfl
    obtain ⟨x, post, hx, hon⟩ := firstLeaf_on ho (h.inner b.first mem_cons_self)
    exact ⟨x, _, hx, b.first, [], post, hm, hon, by cases b.items <;> rfl, rfl⟩

/-- A branch one of whose nodes has lost an entry tells its parent what the node told it. -/
theorem removed_of_node (ho : 3 ≤ order) {b' : Branch (K × V) (Node K V n)} {m' : Node K V n}
    {a c pre post : List (K × V)} {notify : Bool} (hin : Inner order (n + 1) b) (hpos : 0 < b.lastIndex)
    (hFm : (kind order n).Fits (Inner order n) (least order n) m) (hR : Removed order n m a c m' notify)
    (hs : Branch.Sets b i m' b') (hflat : Branch.flat (flat n) b' = pre ++ post) :
    ∃ b'' notify', (if notify then Branch.isLow (kind order n) order b' i else some (b', false)) = some (b'', notify') ∧
      Removed order (n + 1) b pre post b'' notify' := by
  have hlast : Branch.lastIndex b' = Branch.lastIndex b := hs.lastIndex
  have hlaw := lawful (K := K) (V := V) ho n
  have hle := hR.le
  have hsucc := hR.le_succ
  have hroom := hFm.room
  have hleast := hFm.least
  cases hn : notify with
  | true =>
    have hlow : (kind order n).physicalEntries m' < (kind order n).lowEntries := of_decide_eq_true (hR.low hn)
    obtain ⟨b'', notify', hb'', hmend, hcount⟩ := Branch.isLow_spec hlaw.toBalances order hs.here hR.inner (by omega) hlow
      (fun {j x} hj hx => hs.exchange hin hj hx) (by omega)
    refine ⟨b'', notify', by rw [if_pos rfl, hb''], hmend.flat.trans hflat, hmend.fits, ?_, ?_, fun h => ?_, fun h => ?_⟩
    · show Branch.lastIndex b'' ≤ Branch.lastIndex b
      rcases hcount with ⟨-, h⟩ | ⟨h, -⟩ <;> omega
    · show Branch.lastIndex b ≤ Branch.lastIndex b'' + 1
      rcases hcount with ⟨-, h⟩ | ⟨h, -⟩ <;> omega
    · rcases hcount with ⟨h1, -⟩ | ⟨-, h1⟩
      · rw [h] at h1
        cases h1
      · exact h1.symm.trans h
    · rcases hcount with ⟨-, h1⟩ | ⟨-, h1⟩
      · exact Or.inl (h1.trans hlast)
      · exact Or.inr (h1.symm.trans h)
  | false =>
    have hlo : least order n ≤ (kind order n).physicalEntries m' := by
      rcases hR.kept hn with h | h
      · omega
      · have h := of_decide_eq_false h
        have := hlaw.lo_le_low
        omega
    exact ⟨b', false, rfl, hflat, inner_of_sets hs hin ⟨hlo, by omega, hR.inner⟩, Nat.le_of_eq hlast,
      Nat.le_succ_of_le (Nat.le_of_eq hlast.symm), fun h => (by cases h), fun _ => Or.inl hlast⟩

theorem remove_spec (ho : 3 ≤ order) : ∀ {n : Nat} {node : Node K V n} {path : List Nat} {index : Nat} {pre post : List (K × V)} {x : K × V},
    On n node path index pre x post → Inner order n node → (0 < n → 0 < (kind order n).physicalEntries node) →
    ∃ node' notify, remove order n node path index = some (node', notify) ∧ Removed order n node pre post node' notify
  | 0, os, path, index, pre, post, x, hon, _, _ => by
    obtain ⟨-, rfl, hos⟩ := hon
    have hlen : List.length os = pre.length + post.length + 1 := by rw [hos, length_append, length_cons]; omega
    have herase : List.eraseIdx os pre.length = pre ++ post := by
      rw [hos, eraseIdx_append_of_length_le (Nat.le_refl _), Nat.sub_self, eraseIdx_cons_zero]
    refine ⟨pre ++ post, _, ?_, rfl, trivial, ?_, ?_, fun h => h, fun h => Or.inr h⟩
    · rw [remove, if_pos (by omega), herase]
      rfl
    · show (pre ++ post).length ≤ os.length
      rw [hlen, length_append]
      omega
    · show os.length ≤ (pre ++ post).length + 1
      exact Nat.le_of_eq (hlen.trans (by rw [length_append]))
  | n + 1, b, [], index, pre, post, x, ⟨i, m, hidx, hi, hpre, hpost⟩, hin, hpos => by
    subst hidx hpost
    have hm : Branch.getNode b (i + 1) = some m := by rw [Branch.getNode_succ, hi, map_some]
    have hFm := hin m (Branch.mem_nodes.mpr ⟨i + 1, hm⟩)
    obtain ⟨obj, rest, hobj, hon⟩ := firstLeaf_on ho hFm
    obtain ⟨hbefore, -, hm'⟩ := setObject_spec obj hi hpre
    obtain ⟨m', notify, hrem, hR⟩ := remove_spec ho hon hFm.inner (fun _ => Nat.lt_of_lt_of_le (least_pos ho n) hFm.least)
    obtain ⟨b', hb', hs⟩ := Branch.onNode_sets (f := fun m => remove order n m (List.replicate n 0) 0) hm' hrem
    have hflat : Branch.flat (Node.flat n) b' = pre ++ (Node.flat n m ++ Branch.after (Node.flat n) b.items (i + 1)) := by
      rw [hs.flat, hbefore, hR.flat, hon.flat, show Branch.after (Node.flat n) (Branch.setObject b (i + 1) obj).items (i + 1) = _ from
        Branch.after_modify _]
      simp
    have hin' : Inner order (n + 1) (Branch.setObject b (i + 1) obj) := fun x hx => hin x (by rwa [Branch.setObject_nodes] at hx)
    have hlast : Branch.lastIndex (Branch.setObject b (i + 1) obj) = Branch.lastIndex b := length_modify _ _ _
    obtain ⟨b'', notify', hstep, hR'⟩ := removed_of_node ho hin' (hlast ▸ hpos (Nat.succ_pos n)) hFm hR hs hflat
    refine ⟨b'', notify', ?_, hR'.flat, hR'.inner, Nat.le_trans hR'.le (Nat.le_of_eq hlast),
      Nat.le_trans (Nat.le_of_eq hlast.symm) hR'.le_succ, hR'.low, fun h => (hR'.kept h).imp (fun h => h.trans hlast) id⟩
    simp only [remove, hm, bind_eq_bind, bind_some, hobj, hb']
    exact hstep
  | n + 1, b, i :: path, index, pre, post, x, ⟨m, a, c, hm, hon, hpre, hpost⟩, hin, hpos => by
    have hFm := hin m (Branch.mem_nodes.mpr ⟨i, hm⟩)
    obtain ⟨m', notify, hrem, hR⟩ := remove_spec ho hon hFm.inner (fun _ => Nat.lt_of_lt_of_le (least_pos ho n) hFm.least)
    obtain ⟨b', hb', hs⟩ := Branch.onNode_sets (f := fun m => remove order n m path index) hm hrem
    have hflat : Branch.flat (Node.flat n) b' = pre ++ post := by
      rw [hs.flat, hR.flat, hpre, hpost]
      simp
    obtain ⟨b'', notify', hstep, hR'⟩ := removed_of_node ho hin (hpos (Nat.succ_pos n)) hFm hR hs hflat
    refine ⟨b'', notify', ?_, hR'⟩
    simp only [remove, bind_eq_bind, hb', bind_some]
    exact hstep

end Node

end DeepFabric.Platform
