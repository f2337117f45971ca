/-
  DeepFabric.Platform.TreeMapIterator — the iterator of a `TreeMap` that goes both ways
  (cxx/util/TreeMap.h, `TreeMapIterator`).

  The iterator stands at the entry it returns next: at an object of a leaf or of a branch. Behind
  the last entry it stands one behind the last index of the root, which is no object's place; over
  an empty map it stands nowhere.
-/
import DeepFabric.Platform.TreeRange

namespace DeepFabric.Platform

open Lib Lib.Run List Option

variable {K V : Type}

/-! ## Steps back -/

namespace Branch

variable {E N : Type}

def getEntry (b : Branch E N) (index : Int) : Option E := if 0 < index ∧ index ≤ b.lastIndex then b.getObject index.toNat else none

end Branch

namespace Node

def lastIndexOf : (n : Nat) → Node K V n → Int
  | 0, os => List.length os - 1
  | _ + 1, b => Branch.lastIndex b

/-- `lastLeaf()->getObject(m_lastIndex)`. -/
def lastObject : (n : Nat) → Node K V n → Option (K × V)
  | 0, os => List.getLast? os
  | n + 1, b => (Branch.getNode b (Branch.lastIndex b)).bind (lastObject n)

def getEntry : (n : Nat) → Node K V n → List Nat → Int → Option (K × V)
  | 0, os, _, index => if 0 ≤ index ∧ index ≤ lastIndexOf 0 os then os[index.toNat]? else none
  | _ + 1, b, [], index => Branch.getEntry b index
  | n + 1, b, i :: path, index => (Branch.getNode b i).bind fun m => getEntry n m path index

/-- `previousEntry`: of the node, or climbing from it, of the first parent that has an object ahead. -/
def previousEntry : (n : Nat) → Node K V n → List Nat → Int → Option ((K × V) × Cursor)
  | 0, os, _, index => if 0 < index then os[(index - 1).toNat]?.map fun e => (e, ⟨[], index - 1⟩) else none
  | n + 1, b, [], index =>
    if 0 < index then do
      let i := (index - 1).toNat
      let m ← Branch.getNode b i
      (lastObject n m).map fun e => (e, ⟨i :: (lastLeaf n m).1, (lastLeaf n m).2 - 1⟩)
    else none
  | n + 1, b, i :: path, index =>
    match (Branch.getNode b i).bind fun m => previousEntry n m path index with
    | some (e, c) => some (e, ⟨i :: c.path, c.index⟩)
    | none => (Branch.getEntry b i).map fun e => (e, ⟨[], i⟩)

end Node

namespace TreeMap

variable (t : TreeMap K V)

def getEntry (c : Cursor) : Option (K × V) := t.root.bind fun r => Node.getEntry r.1 r.2 c.path c.index

def previousEntry (c : Cursor) : Option ((K × V) × Cursor) := t.root.bind fun r => Node.previousEntry r.1 r.2 c.path c.index

def hasPreviousEntry (place : Option Cursor) : Bool := place.any fun c => (t.previousEntry c).isSome

end TreeMap

/-! ## The iterator -/

structure TreeMapIterator (K V : Type) where
  map : TreeMap K V
  cursor : Option Cursor

namespace TreeMapIterator

variable (it : TreeMapIterator K V)

/-- Where `setEnd` puts the cursor. -/
def endPlace : Option Cursor := it.map.root.map fun r => ⟨[], Node.lastIndexOf r.1 r.2 + 1⟩

def isEnd : Bool := it.cursor.isNone || it.cursor == it.endPlace

def setEnd : TreeMapIterator K V := { it with cursor := it.endPlace }

def hasNext : Bool := !it.isEnd

def hasPrevious : Bool := it.map.hasPreviousEntry it.cursor

def next : Option (K × V) × TreeMapIterator K V :=
  if it.isEnd then (none, it)
  else
    let nextEntry := it.cursor.bind it.map.getEntry
    match it.cursor.bind it.map.nextEntry with
    | some (_, c) => (nextEntry, { it with cursor := some c })
    | none => (nextEntry, it.setEnd)

def previous : Option (K × V) × TreeMapIterator K V :=
  if it.hasPrevious then
    match it.cursor.bind it.map.previousEntry with
    | some (e, c) => (some e, { it with cursor := some c })
    | none => (none, { it with cursor := none })
  else (none, it)

/-- `reset`, and what it writes to `*exact`. -/
def reset [LinearOrder K] (map : TreeMap K V) (nullKey startKey : K) (ceiling : Bool) : TreeMapIterator K V × Option Bool :=
  let it : TreeMapIterator K V := ⟨map, none⟩
  if map.root.isSome ∧ startKey ≠ nullKey then
    let (key, status) := if ceiling then map.ceilingKey nullKey startKey else map.floorKey nullKey startKey
    (if status then { it with cursor := map.findPlace key } else it.setEnd, some status)
  else (it, none)

end TreeMapIterator

/-! ## A cursor over a list -/

/-- Between the entries it has passed and those to come. -/
structure ListCursor (E : Type) where
  front : List E
  back : List E

namespace ListCursor

variable {E : Type} (c : ListCursor E)

def hasNext : Bool := !c.back.isEmpty

def hasPrevious : Bool := !c.front.isEmpty

def next : Option E × ListCursor E :=
  match c.back with
  | [] => (none, c)
  | x :: back => (some x, ⟨c.front ++ [x], back⟩)

def previous : Option E × ListCursor E :=
  match c.front.getLast? with
  | none => (none, c)
  | some x => (some x, ⟨c.front.dropLast, x :: c.back⟩)

@[simp] theorem next_nil (front : List E) : next ⟨front, []⟩ = (none, ⟨front, []⟩) := rfl

@[simp] theorem next_cons (front back : List E) (x : E) : next ⟨front, x :: back⟩ = (some x, ⟨front ++ [x], back⟩) := rfl

@[simp] theorem previous_nil (back : List E) : previous ⟨[], back⟩ = (none, ⟨[], back⟩) := rfl

@[simp] theorem previous_concat (front back : List E) (x : E) : previous ⟨front ++ [x], back⟩ = (some x, ⟨front, x :: back⟩) := by
  simp [previous]

/-- Ahead of the first entry from a key on, or of the last up to it. If no key is up to it, behind
all entries, like the iterator. -/
def start [LinearOrder K] (l : List (K × V)) (key : K) (ceiling : Bool) : ListCursor (K × V) :=
  if ceiling then ⟨l.filter fun e => e.1 < key, l.filter fun e => key ≤ e.1⟩
  else
    match (l.filter fun e => e.1 ≤ key).getLast? with
    | some x => ⟨l.filter fun e => e.1 < x.1, l.filter fun e => x.1 ≤ e.1⟩
    | none => ⟨l, []⟩

end ListCursor

inductive TreeMapIterator.Call
  | hasNext
  | hasPrevious
  | next
  | previous

inductive TreeMapIterator.Answer (E : Type)
  | truth (b : Bool)
  | entry (x : Option E)

namespace TreeMapIterator

def call (it : TreeMapIterator K V) : Call → Answer (K × V) × TreeMapIterator K V
  | .hasNext => (.truth it.hasNext, it)
  | .hasPrevious => (.truth it.hasPrevious, it)
  | .next => (.entry it.next.1, it.next.2)
  | .previous => (.entry it.previous.1, it.previous.2)

def answers (it : TreeMapIterator K V) : List Call → List (Answer (K × V))
  | [] => []
  | c :: calls => (it.call c).1 :: answers (it.call c).2 calls

end TreeMapIterator

namespace ListCursor

open TreeMapIterator

variable {E : Type}

def call (c : ListCursor E) : Call → Answer E × ListCursor E
  | .hasNext => (.truth c.hasNext, c)
  | .hasPrevious => (.truth c.hasPrevious, c)
  | .next => (.entry c.next.1, c.next.2)
  | .previous => (.entry c.previous.1, c.previous.2)

def answers (c : ListCursor E) : List Call → List (Answer E)
  | [] => []
  | k :: calls => (c.call k).1 :: answers (c.call k).2 calls

end ListCursor

/-! ## What stands ahead of a place -/

namespace Node

/-- The entries ahead of a place: in a leaf the objects before its index, in a branch what stands
before the object at its index. -/
def Front : (n : Nat) → Node K V n → List Nat → Int → List (K × V) → Prop
  | 0, os, path, index, front => path = [] ∧ 0 ≤ index ∧ index ≤ List.length os ∧ front = List.take index.toNat os
  | n + 1, b, [], index, front => ∃ (i : Nat) (m : Node K V n), index = i + 1 ∧ Branch.getNode b i = some m ∧
      front = Branch.before (flat n) b.first b.items i ++ flat n m
  | n + 1, b, i :: path, index, front => ∃ m a, Branch.getNode b i = some m ∧ Front n m path index a ∧
      front = Branch.before (flat n) b.first b.items i ++ a

variable {order : Nat}

theorem On.front : ∀ {n : Nat} {node : Node K V n} {path : List Nat} {index : Nat} {pre post : List (K × V)} {x : K × V},
    On n node path index pre x post → Front n node path index pre
  | 0, os, path, index, pre, post, x, ⟨hpath, hindex, hos⟩ => by
    refine ⟨hpath, Int.natCast_nonneg index, ?_, ?_⟩
    · rw [hos, length_append, length_cons]
      omega
    · rw [Int.toNat_natCast, ← hindex, hos, take_left]
  | n + 1, b, [], index, pre, post, x, ⟨i, m, hindex, hi, hpre, _⟩ => by
    have hlt : i < b.lastIndex := (List.getElem?_eq_some_iff.mp hi).1
    obtain ⟨m', hm'⟩ := Branch.getNode_isSome (Nat.le_of_lt hlt)
    have hobj : b.getObject (i + 1) = some x := by rw [Branch.getObject, hi]; rfl
    rw [Branch.before_succ _ hm' hobj] at hpre
    exact ⟨i, m', by rw [hindex]; rfl, hm', (List.append_inj' hpre rfl).1.symm⟩
  | n + 1, b, i :: path, index, pre, post, x, ⟨m, a, c, hm, hon, hpre, _⟩ => ⟨m, a, hm, hon.front, hpre⟩

theorem end_front : ∀ {n : Nat} {node : Node K V n}, Front n node [] (lastIndexOf n node + 1) (flat n node)
  | 0, os => by
    have hlast : lastIndexOf 0 os + 1 = List.length os := Int.sub_add_cancel _ 1
    rw [hlast]
    exact ⟨rfl, Int.natCast_nonneg _, Int.le_refl _, (take_length).symm⟩
  | n + 1, b => by
    obtain ⟨m, hm⟩ := Branch.getNode_isSome (Nat.le_refl (Branch.lastIndex b))
    refine ⟨Branch.lastIndex b, m, rfl, hm, ?_⟩
    show Branch.flat (flat n) b = _
    rw [Branch.flat_at hm, Branch.after_last, append_nil]

theorem getEntry_object {n : Nat} {b : Branch (K × V) (Node K V n)} {i : Nat} (hi : i ≤ b.lastIndex) : b.getEntry i = b.getObject i := by
  rw [Branch.getEntry, Int.toNat_natCast]
  cases i with
  | zero => rfl
  | succ i => exact if_pos (by omega)

theorem On.getEntry : ∀ {n : Nat} {node : Node K V n} {path : List Nat} {index : Nat} {pre post : List (K × V)} {x : K × V},
    On n node path index pre x post → getEntry n node path index = some x
  | 0, os, path, index, pre, post, x, ⟨_, hindex, hos⟩ => by
    have hlen : List.length os = pre.length + post.length + 1 := by rw [hos, length_append, length_cons]; omega
    have hlast : lastIndexOf 0 os = List.length os - 1 := rfl
    rw [Node.getEntry, if_pos (by omega), Int.toNat_natCast, hos, ← hindex, List.getElem?_append_right (Nat.le_refl _), Nat.sub_self]
    rfl
  | n + 1, b, [], index, pre, post, x, ⟨i, m, hindex, hi, _, _⟩ => by
    have hlt : i < b.lastIndex := (List.getElem?_eq_some_iff.mp hi).1
    rw [Node.getEntry, hindex, getEntry_object hlt, Branch.getObject, hi]
    rfl
  | n + 1, b, i :: path, index, pre, post, x, ⟨m, a, c, hm, hon, _, _⟩ => by
    rw [Node.getEntry, hm, bind_some, hon.getEntry]

theorem On.ne_end : ∀ {n : Nat} {node : Node K V n} {path : List Nat} {index : Nat} {pre post : List (K × V)} {x : K × V},
    On n node path index pre x post → (⟨path, index⟩ : Cursor) ≠ ⟨[], lastIndexOf n node + 1⟩
  | 0, os, path, index, pre, post, x, ⟨_, hindex, hos⟩ => by
    intro h
    have hlen : List.length os = pre.length + post.length + 1 := by rw [hos, length_append, length_cons]; omega
    have hlast : (index : Int) = List.length os - 1 + 1 := congrArg Cursor.index h
    omega
  | n + 1, b, [], index, pre, post, x, ⟨i, m, hindex, hi, _, _⟩ => by
    intro h
    have hlt : i < b.lastIndex := (List.getElem?_eq_some_iff.mp hi).1
    have hlast : (index : Int) = Branch.lastIndex b + 1 := congrArg Cursor.index h
    omega
  | n + 1, b, i :: path, index, pre, post, x, _ => by
    intro h
    cases congrArg Cursor.path h

theorem physicalEntries_pos (ho : 3 ≤ order) {n : Nat} {node : Node K V n} (h : (kind order n).Fits (Inner order n) (least order n) node) :
    0 < (kind order n).physicalEntries node := Nat.lt_of_lt_of_le (lawful (K := K) (V := V) ho n).pos h.least

theorem lastLeaf_on (ho : 3 ≤ order) : ∀ {n : Nat} {node : Node K V n}, Inner order n node → 0 < (kind order n).physicalEntries node →
    ∃ (index : Nat) (x : K × V) (pre : List (K × V)), lastObject n node = some x ∧ ((lastLeaf n node).2 : Int) - 1 = index ∧
      On n node (lastLeaf n node).1 index pre x []
  | 0, os, _, hpos => by
    obtain ⟨pre, x, hos⟩ : ∃ pre x, os = pre ++ [x] := (List.eq_nil_or_concat' os).resolve_left (ne_nil_of_length_pos hpos)
    subst hos
    refine ⟨pre.length, x, pre, ?_, ?_, rfl, rfl, rfl⟩
    · rw [lastObject, List.getLast?_concat]
    · show ((pre ++ [x]).length : Int) - 1 = _
      rw [length_append, length_singleton]
      omega
  | n + 1, b, hin, _ => by
    obtain ⟨m, hm⟩ := Branch.getNode_isSome (Nat.le_refl (Branch.lastIndex b))
    have hfits := hin m (Branch.mem_nodes.mpr ⟨_, hm⟩)
    obtain ⟨index, x, pre, hx, hindex, hon⟩ := lastLeaf_on ho hfits.inner (physicalEntries_pos ho hfits)
    refine ⟨index, x, Branch.before (flat n) b.first b.items (Branch.lastIndex b) ++ pre, ?_, ?_, ?_⟩
    · rw [lastObject, hm]
      exact hx
    · simp only [lastLeaf, hm]
      exact hindex
    · simp only [lastLeaf, hm]
      exact ⟨m, pre, [], hm, hon, rfl, by rw [Branch.after_last]; rfl⟩

theorem previousEntry_nil (ho : 3 ≤ order) : ∀ {n : Nat} {node : Node K V n} {path : List Nat} {index : Int}, Inner order n node →
    Front n node path index [] → previousEntry n node path index = none
  | 0, os, path, index, _, ⟨_, h0, hle, hfront⟩ => by
    have hlen := congrArg List.length hfront
    rw [length_take, length_nil] at hlen
    exact if_neg (by omega)
  | n + 1, b, [], index, hin, ⟨i, m, _, hm, hfront⟩ => by
    obtain ⟨-, hflat⟩ := append_eq_nil_iff.mp hfront.symm
    exact absurd hflat (exists_entry ho (hin m (Branch.mem_nodes.mpr ⟨i, hm⟩)))
  | n + 1, b, i :: path, index, hin, ⟨m, a, hm, ha, hfront⟩ => by
    obtain ⟨hbefore, rfl⟩ := append_eq_nil_iff.mp hfront.symm
    have hle := Branch.le_lastIndex hm
    have hobj : Branch.getEntry b i = none := by rw [getEntry_object hle, ← Branch.getLast?_before (flat n) hle, hbefore]; rfl
    simp only [previousEntry, hm, bind_some, previousEntry_nil ho (hin m (Branch.mem_nodes.mpr ⟨i, hm⟩)).inner ha, hobj, map_none]

theorem previousEntry_concat (ho : 3 ≤ order) : ∀ {n : Nat} {node : Node K V n} {path : List Nat} {index : Int} {x : K × V} {pre : List (K × V)},
    Inner order n node → Front n node path index (pre ++ [x]) →
    ∃ (path' : List Nat) (index' : Nat) (post : List (K × V)), previousEntry n node path index = some (x, ⟨path', index'⟩) ∧
      On n node path' index' pre x post
  | 0, os, path, index, x, pre, _, ⟨_, h0, hle, hfront⟩ => by
    have hlen := congrArg List.length hfront
    rw [length_take, length_append, length_singleton] at hlen
    have hindex : index - 1 = pre.length := by omega
    have hos : os = pre ++ x :: List.drop index.toNat os := by
      rw [← singleton_append, ← append_assoc, hfront]
      exact (take_append_drop _ os).symm
    have hx : (show List (K × V) from os)[pre.length]? = some x := by
      rw [hos, List.getElem?_append_right (Nat.le_refl _), Nat.sub_self]
      rfl
    refine ⟨[], pre.length, List.drop index.toNat os, ?_, rfl, rfl, hos⟩
    rw [previousEntry, if_pos (by omega), hindex, Int.toNat_natCast, hx]
    rfl
  | n + 1, b, [], index, x, pre, hin, ⟨i, m, hindex, hm, hfront⟩ => by
    have hfits := hin m (Branch.mem_nodes.mpr ⟨i, hm⟩)
    obtain ⟨index', y, pre', hy, hlast, hon⟩ := lastLeaf_on ho hfits.inner (physicalEntries_pos ho hfits)
    rw [hon.flat, ← append_assoc] at hfront
    obtain ⟨rfl, hxy⟩ := List.append_inj' hfront rfl
    cases hxy
    have hi : (index - 1).toNat = i := by omega
    have hpos : 0 < index := by omega
    refine ⟨i :: (lastLeaf n m).1, index', _, ?_, m, pre', [], hm, hon, rfl, rfl⟩
    simp only [previousEntry, if_pos hpos, hi, hm, bind_eq_bind, bind_some, hy, map_some, hlast]
  | n + 1, b, i :: path, index, x, pre, hin, ⟨m, a, hm, ha, hfront⟩ => by
    have hinner := (hin m (Branch.mem_nodes.mpr ⟨i, hm⟩)).inner
    rcases List.eq_nil_or_concat' a with rfl | ⟨a, y, rfl⟩
    · cases i with
      | zero =>
        rw [show Branch.before (flat n) b.first b.items 0 = [] by cases b.items <;> rfl] at hfront
        cases pre <;> cases hfront
      | succ i =>
        obtain ⟨o, pre', hobj, hpre', hon⟩ := on_ahead hm
        rw [hpre', append_nil] at hfront
        obtain ⟨rfl, hxo⟩ := List.append_inj' hfront rfl
        cases hxo
        refine ⟨[], i + 1, _, ?_, hon⟩
        simp only [previousEntry, hm, bind_some, previousEntry_nil ho hinner ha, getEntry_object (Branch.le_lastIndex hm), hobj,
          map_some]
    · rw [← append_assoc] at hfront
      obtain ⟨rfl, hxy⟩ := List.append_inj' hfront rfl
      cases hxy
      obtain ⟨path', index', post, hprevious, hon⟩ := previousEntry_concat ho hinner ha
      refine ⟨i :: path', index', _, ?_, m, a, post, hm, hon, rfl, rfl⟩
      simp only [previousEntry, hm, bind_some, hprevious]

end Node

/-! ## The calls -/

namespace TreeMapIterator

/-- An iterator over `t` between the entries `front` and `back`. -/
inductive Between (t : TreeMap K V) : TreeMapIterator K V → ListCursor (K × V) → Prop
  | empty : t.root = none → Between t ⟨t, none⟩ ⟨[], []⟩
  | entry {n : Nat} {node : Node K V n} {path : List Nat} {index : Nat} {front back : List (K × V)} {x : K × V} :
      t.root = some ⟨n, node⟩ → Node.On n node path index front x back → Between t ⟨t, some ⟨path, index⟩⟩ ⟨front, x :: back⟩
  | done {n : Nat} {node : Node K V n} :
      t.root = some ⟨n, node⟩ → Between t ⟨t, some ⟨[], Node.lastIndexOf n node + 1⟩⟩ ⟨Node.flat n node, []⟩

section Calls

variable {t : TreeMap K V} {it : TreeMapIterator K V} {c : ListCursor (K × V)}

theorem isEnd_eq (h : Between t it c) : it.isEnd = c.back.isEmpty := by
  cases h with
  | empty hroot => rfl
  | @entry n node path index front back x hroot hon =>
    have hend : (some ⟨path, index⟩ : Option Cursor) ≠ endPlace ⟨t, some ⟨path, index⟩⟩ := by
      simp only [endPlace, hroot, map_some, ne_eq, Option.some.injEq]
      exact hon.ne_end
    simp [isEnd, hend]
  | done hroot => simp [isEnd, endPlace, hroot]

theorem hasNext_eq (h : Between t it c) : it.hasNext = c.hasNext := by
  rw [hasNext, isEnd_eq h, ListCursor.hasNext]

variable [LinearOrder K] (ht : t.Valid)

include ht

theorem next_spec (h : Between t it c) : it.next.1 = c.next.1 ∧ Between t it.next.2 c.next.2 := by
  have hend := isEnd_eq h
  cases h with
  | empty hroot => exact ⟨rfl, .empty hroot⟩
  | @entry n node path index front back x hroot hon =>
    have hin := (ht.root hroot).1
    have hget : t.getEntry ⟨path, index⟩ = some x := by rw [TreeMap.getEntry, hroot, bind_some, hon.getEntry]
    cases back with
    | nil =>
      have hnone : t.nextEntry ⟨path, index⟩ = none := by
        rw [TreeMap.nextEntry, hroot, bind_some, Node.nextEntry_nil ht.order hin hon.rest]
      have hnext : next ⟨t, some ⟨path, index⟩⟩ = (some x, ⟨t, some ⟨[], Node.lastIndexOf n node + 1⟩⟩) := by
        rw [next, hend]
        simp [hget, hnone, setEnd, endPlace, hroot]
      rw [hnext, ListCursor.next_cons, ← hon.flat]
      exact ⟨rfl, .done hroot⟩
    | cons y back =>
      obtain ⟨path', index', pre, hstep, hon'⟩ := Node.nextEntry_cons ht.order hin hon.rest
      have hpre : pre = front ++ [x] := by
        have hflat := hon'.flat.symm.trans hon.flat
        rw [append_cons front] at hflat
        exact append_cancel_right hflat
      have hsome : t.nextEntry ⟨path, index⟩ = some (y, ⟨path', index'⟩) := by rw [TreeMap.nextEntry, hroot, bind_some, hstep]
      have hnext : next ⟨t, some ⟨path, index⟩⟩ = (some x, ⟨t, some ⟨path', index'⟩⟩) := by
        rw [next, hend]
        simp [hget, hsome]
      rw [hnext, ListCursor.next_cons, ← hpre]
      exact ⟨rfl, .entry hroot hon'⟩
  | @done n node hroot =>
    have hnext : next ⟨t, some ⟨[], Node.lastIndexOf n node + 1⟩⟩ = (none, ⟨t, some ⟨[], Node.lastIndexOf n node + 1⟩⟩) := by
      rw [next, hend]
      rfl
    rw [hnext, ListCursor.next_nil]
    exact ⟨rfl, .done hroot⟩

omit ht [LinearOrder K] in
theorem Between.place (h : Between t it c) (hc : it.cursor ≠ none) : it.map = t ∧ ∃ n node place, t.root = some ⟨n, node⟩ ∧
    it.cursor = some place ∧ Node.Front n node place.path place.index c.front ∧ Node.flat n node = c.front ++ c.back := by
  cases h with
  | empty hroot => exact absurd rfl hc
  | entry hroot hon => exact ⟨rfl, _, _, _, hroot, rfl, hon.front, hon.flat⟩
  | done hroot => exact ⟨rfl, _, _, _, hroot, rfl, Node.end_front, (append_nil _).symm⟩

theorem previous_spec (h : Between t it c) :
    it.hasPrevious = c.hasPrevious ∧ it.previous.1 = c.previous.1 ∧ Between t it.previous.2 c.previous.2 := by
  by_cases hcursor : it.cursor = none
  · cases h with
    | empty hroot => exact ⟨rfl, rfl, .empty hroot⟩
    | entry hroot hon => cases hcursor
    | done hroot => cases hcursor
  · obtain ⟨hmap, n, node, place, hroot, hplace, hfront, hflat⟩ := h.place hcursor
    have hin := (ht.root hroot).1
    have hstep : it.map.previousEntry place = Node.previousEntry n node place.path place.index := by
      rw [hmap, TreeMap.previousEntry, hroot, bind_some]
    obtain ⟨front, back⟩ := c
    rcases List.eq_nil_or_concat' front with rfl | ⟨front, x, rfl⟩
    · have hno : it.hasPrevious = false := by
        rw [hasPrevious, TreeMap.hasPreviousEntry, hplace, any_some, hstep, Node.previousEntry_nil ht.order hin hfront]
        rfl
      have hprevious : it.previous = (none, it) := by
        rw [previous, hno]
        rfl
      rw [hprevious, ListCursor.previous_nil]
      exact ⟨hno, rfl, h⟩
    · obtain ⟨path, index, post, hsome, hon⟩ := Node.previousEntry_concat ht.order hin hfront
      rw [hsome] at hstep
      have hyes : it.hasPrevious = true := by
        rw [hasPrevious, TreeMap.hasPreviousEntry, hplace, any_some, hstep]
        rfl
      have hprevious : it.previous = (some x, { it with cursor := some ⟨path, index⟩ }) := by
        rw [previous, hyes, if_pos rfl, hplace, bind_some, hstep]
      have hpost : post = back := by
        have hflat' := hon.flat.symm.trans hflat
        rw [append_cons front] at hflat'
        exact append_cancel_left hflat'
      rw [hprevious, ListCursor.previous_concat, ← hpost, hmap]
      refine ⟨hyes.trans ?_, rfl, .entry hroot hon⟩
      simp [ListCursor.hasPrevious]

theorem call_spec (h : Between t it c) (k : Call) : (it.call k).1 = (c.call k).1 ∧ Between t (it.call k).2 (c.call k).2 := by
  obtain ⟨hnext, hnext'⟩ := next_spec ht h
  obtain ⟨hhas, hprevious, hprevious'⟩ := previous_spec ht h
  cases k with
  | hasNext => exact ⟨congrArg Answer.truth (hasNext_eq h), h⟩
  | hasPrevious => exact ⟨congrArg Answer.truth hhas, h⟩
  | next => exact ⟨congrArg Answer.entry hnext, hnext'⟩
  | previous => exact ⟨congrArg Answer.entry hprevious, hprevious'⟩

theorem answers_eq (h : Between t it c) (calls : List Call) : it.answers calls = c.answers calls := by
  induction calls generalizing it c with
  | nil => rfl
  | cons k calls ih =>
    obtain ⟨hanswer, hnext⟩ := call_spec ht h k
    rw [answers, ListCursor.answers, hanswer, ih hnext]

end Calls

/-! ## Where it starts -/

section Start

variable [LinearOrder K]

theorem cut_at {pre post : List (K × V)} {x : K × V} {key : K} (hs : (pre ++ x :: post).Pairwise fun a b => a.1 < b.1)
    (hpre : ∀ e ∈ pre, e.1 < key) (hx : key ≤ x.1) :
    (pre ++ x :: post).filter (fun e => e.1 < key) = pre ∧ (pre ++ x :: post).filter (fun e => key ≤ e.1) = x :: post := by
  have hge : ∀ e ∈ x :: post, key ≤ e.1 := by
    intro e he
    rcases mem_cons.mp he with rfl | he
    · exact hx
    · exact le_of_lt (lt_of_le_of_lt hx ((pairwise_cons.mp (pairwise_append.mp hs).2.1).1 e he))
  have h1 : pre.filter (fun e => e.1 < key) = pre := filter_eq_self.mpr fun e he => by simpa using hpre e he
  have h2 : (x :: post).filter (fun e => e.1 < key) = [] := filter_eq_nil_iff.mpr fun e he => by simpa using hge e he
  have h3 : pre.filter (fun e => key ≤ e.1) = [] := filter_eq_nil_iff.mpr fun e he => by simpa using hpre e he
  have h4 : (x :: post).filter (fun e => key ≤ e.1) = x :: post := filter_eq_self.mpr fun e he => by simpa using hge e he
  exact ⟨by rw [filter_append, h1, h2, append_nil], by rw [filter_append, h3, h4, nil_append]⟩

theorem reset_between {t : TreeMap K V} (ht : t.Valid) {nullKey startKey : K} (hkey : startKey ≠ nullKey) (ceiling : Bool) :
    Between t (reset t nullKey startKey ceiling).1 (ListCursor.start t.entries startKey ceiling) := by
  have hs := ht.sorted
  rcases hroot : t.root with _ | ⟨n, node⟩
  · have hstart : ListCursor.start t.entries startKey ceiling = ⟨[], []⟩ := by
      rw [TreeMap.entries_nil hroot]
      cases ceiling <;> rfl
    rw [hstart]
    simp only [reset, hroot, isSome_none, Bool.false_eq_true, false_and, if_false]
    exact .empty hroot
  · have hend : Between t (setEnd ⟨t, none⟩) ⟨t.entries, []⟩ := by
      rw [setEnd, endPlace, TreeMap.entries_of_root hroot]
      dsimp only
      rw [hroot]
      exact .done hroot
    have hentry {pre post : List (K × V)} {x : K × V} (h : t.entries = pre ++ x :: post) :
        Between t ⟨t, t.findPlace x.1⟩ ⟨pre, x :: post⟩ := by
      obtain ⟨n, node, path, index, hroot, hplace, hon⟩ := TreeMap.findPlace_on ht h
      rw [hplace]
      exact .entry hroot hon
    simp only [reset, hroot, isSome_some, ne_eq, hkey, not_false_eq_true, and_self, if_true]
    cases ceiling with
    | true =>
      simp only [if_true, TreeMap.ceilingKey, TreeMap.ceilingEntry_eq ht, TreeMap.keyOf, ListCursor.start]
      cases hx : Partition.ceilingEntry t.entries startKey with
      | none =>
        have hall : ∀ e ∈ t.entries, e.1 < startKey := fun e he => by simpa using List.find?_eq_none.mp hx e he
        have h1 : t.entries.filter (fun e => e.1 < startKey) = t.entries := filter_eq_self.mpr fun e he => by simpa using hall e he
        have h2 : t.entries.filter (fun e => startKey ≤ e.1) = [] := filter_eq_nil_iff.mpr fun e he => by simpa using hall e he
        rw [h1, h2]
        exact hend
      | some x =>
        obtain ⟨hle, pre, post, h, hpre⟩ := List.find?_eq_some_iff_append.mp hx
        rw [h] at hs
        obtain ⟨h1, h2⟩ := cut_at hs (fun e he => by simpa using hpre e he) (by simpa using hle)
        rw [h, h1, h2]
        exact hentry h
    | false =>
      simp only [Bool.false_eq_true, if_false, TreeMap.floorKey, TreeMap.floorEntry_eq ht, TreeMap.keyOf, ListCursor.start,
        Partition.floorEntry]
      cases hx : (t.entries.filter fun e => e.1 ≤ startKey).getLast? with
      | none => exact hend
      | some x =>
        obtain ⟨pre, post, h⟩ := append_of_mem (mem_filter.mp (mem_of_getLast? hx)).1
        rw [h] at hs
        obtain ⟨h1, h2⟩ := cut_at hs (fun e he => (pairwise_append.mp hs).2.2 e he x mem_cons_self) (le_refl x.1)
        dsimp only
        rw [h, h1, h2]
        exact hentry h

end Start

end TreeMapIterator

/-- An iterator over any tree, from the first entry on or above a key, or from the last on or below
it, answers as a cursor over the list of the entries does, whatever is called in which order. -/
theorem answers_like_list [LinearOrder K] {t : TreeMap K V} (ht : t.Valid) {nullKey startKey : K} (hkey : startKey ≠ nullKey) (ceiling : Bool)
    (calls : List TreeMapIterator.Call) : (TreeMapIterator.reset t nullKey startKey ceiling).1.answers calls =
      (ListCursor.start t.entries startKey ceiling).answers calls :=
  TreeMapIterator.answers_eq ht (TreeMapIterator.reset_between ht hkey ceiling) calls

/-- From one of the last keys, back and over the end. -/
theorem answers_of_five :
    ∃ s, exec Session.step ⟨TreeMap.init 3 false, []⟩ ((List.range 20).map fun k => Op.put (k + 1) k) = some s ∧
      (TreeMapIterator.reset s.map 0 18 true).1.answers [.previous, .next, .next, .next, .next, .hasNext, .next, .previous] =
        [.entry (some (17, 16)), .entry (some (17, 16)), .entry (some (18, 17)), .entry (some (19, 18)), .entry (some (20, 19)),
          .truth false, .entry none, .entry (some (20, 19))] := by
  obtain ⟨s, hs, hent⟩ : ∃ s, exec Session.step ⟨TreeMap.init 3 false, []⟩ ((List.range 20).map fun k => Op.put (k + 1) k) = some s ∧
      s.map.entries = (List.range 20).map fun k => (k + 1, k) := exec_ends (by decide +kernel)
  obtain ⟨s', hs', h⟩ := run_refines (K := Nat) (V := Nat) 3 false
    (show exec Reference.step ⟨.empty, []⟩ ((List.range 20).map fun k => Op.put (k + 1) k) = some _ from rfl)
  cases hs.symm.trans hs'
  refine ⟨s, hs, ?_⟩
  rw [answers_like_list h.valid (by decide), hent]
  rfl

end DeepFabric.Platform
