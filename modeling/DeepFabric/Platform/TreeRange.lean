/-
  DeepFabric.Platform.TreeRange — `headMap`, `subMap` and `tailMap` of a `TreeMap`, and what
  their entry sets iterate over.

  A view keeps two places in the tree, a node and an index each: the iterator goes on from the
  first until it stands at the second. The first is where `lower` ended, the last entry below
  `from`; the second is where `find` ended, the entry of `to`. A node is named by the way to it
  from the root, and its parent by that way without its last step.

  Where the searches end without an entry the places are others. `find` ends at the first object
  of a leaf that is above `to`, or behind the leaf; `lower` ends behind the first leaf.

  As built, `to` has to be stored or above all keys, and a key has to be below `from`.
-/
import DeepFabric.Platform.TreeNavigation

namespace DeepFabric.Platform

open Lib Lib.Run List Option
open Option (some)

variable {K V : Type}

/-! ## Places and steps -/

/-- A `Node*` and an index into it. -/
structure Cursor where
  path : List Nat
  index : Int
  deriving DecidableEq

namespace Node

/-- `nextEntry`: of the node, or climbing from it, of the first parent that has an object behind. -/
def nextEntry : (n : Nat) → Node K V n → List Nat → Int → Option ((K × V) × Cursor)
  | 0, os, _, index => if index < List.length os - 1 then os[(index + 1).toNat]?.map fun e => (e, ⟨[], index + 1⟩) else none
  | _ + 1, _, [], .negSucc _ => none
  | n + 1, b, [], .ofNat i =>
    if i ≤ Branch.lastIndex b then ((Branch.getNode b i).bind (firstObject n)).map fun e => (e, ⟨i :: List.replicate n 0, 0⟩) else none
  | n + 1, b, i :: path, index =>
    match (Branch.getNode b i).bind fun m => nextEntry n m path index with
    | some (e, c) => some (e, ⟨i :: c.path, c.index⟩)
    | none => (Branch.getObject b (i + 1)).map fun e => (e, ⟨[], (i + 1 : Nat)⟩)

end Node

/-- The two places of an `EntryMap`, of its `EntrySet` and of the set's iterator. No place is `null`. -/
structure Range where
  start : Option Cursor
  finish : Option Cursor
  deriving DecidableEq

namespace Range

def atEnd (it : Range) : Bool := it.finish.isSome && it.start == it.finish

end Range

namespace TreeMap

variable (t : TreeMap K V)

def nextEntry (c : Cursor) : Option ((K × V) × Cursor) := t.root.bind fun r => Node.nextEntry r.1 r.2 c.path c.index

def rootIsLeaf : Bool := t.root.any fun r => r.1 = 0

def hasNextEntry (start : Option Cursor) : Bool := start.any fun c => (t.nextEntry c).isSome

/-- `reset`, of all three: without a start it is ahead of the first entry. -/
def reset (v : Range) : Range :=
  match v.start with
  | none => { v with start := t.root.map fun r => ⟨[], if r.1 = 0 then -1 else 0⟩ }
  | some _ => v

def entrySet (v : Range) : Range := t.reset v

def iterator (v : Range) : Range := t.reset v

def hasNext (it : Range) : Bool := if it.atEnd then false else t.hasNextEntry it.start

def next (it : Range) : Option (K × V) × Range :=
  if it.atEnd then (none, it)
  else
    match it.start.bind t.nextEntry with
    | some (e, c) => (some e, { it with start := some c })
    | none => (none, { it with start := none })

variable [LinearOrder K]

/-- Where `find` ends. -/
def findPlace (key : K) : Option Cursor := t.root.map fun r => ⟨(Node.find key r.1 r.2).path, (Node.find key r.1 r.2).index⟩

/-- Where `lower` ends. -/
def lowerPlace (key : K) : Option Cursor := t.root.map fun r => ⟨(Node.lower key r.1 r.2).path, (Node.lower key r.1 r.2).index⟩

def headMap (toKey : K) : Range := t.reset ⟨none, t.findPlace toKey⟩

def subMap (fromKey toKey : K) : Range := t.reset ⟨t.lowerPlace fromKey, t.findPlace toKey⟩

def tailMap (fromKey : K) : Range := t.reset ⟨t.lowerPlace fromKey, none⟩

end TreeMap

/-- `while (iter->hasNext()) iter->next()`, up to a number of turns. -/
def drain (t : TreeMap K V) : Nat → Range → Option (List (K × V))
  | 0, _ => none
  | fuel + 1, it =>
    if t.hasNext it then
      match t.next it with
      | (some e, it) => (drain t fuel it).map (e :: ·)
      | (none, _) => none
    else some []

/-- Iterating over the entry set of a view ends, with these entries. -/
def Yields (t : TreeMap K V) (view : Range) (out : List (K × V)) : Prop := ∃ fuel, drain t fuel (t.iterator (t.entrySet view)) = some out

/-! ## What is still to come at a place -/

namespace Node

/-- The entries behind a place, as the iterator takes it: in a leaf the object at its index is
behind it, in a branch the object at its index is and the node at it is next. -/
def Rest : (n : Nat) → Node K V n → List Nat → Int → List (K × V) → Prop
  | 0, os, path, index, rest => path = [] ∧ -1 ≤ index ∧ rest = List.drop (index + 1).toNat os
  | n + 1, b, [], index, rest => ∃ (i : Nat) (m : Node K V n), index = i ∧ Branch.getNode b i = some m ∧
      rest = flat n m ++ Branch.after (flat n) b.items i
  | n + 1, b, i :: path, index, rest => ∃ m a, Branch.getNode b i = some m ∧ Rest n m path index a ∧
      rest = a ++ Branch.after (flat n) b.items i

variable {order : Nat}

theorem On.rest : ∀ {n : Nat} {node : Node K V n} {path : List Nat} {index : Nat} {pre post : List (K × V)} {x : K × V},
    On n node path index pre x post → Rest n node path index post
  | 0, os, path, index, pre, post, x, ⟨hpath, hindex, hos⟩ => by
    refine ⟨hpath, by omega, ?_⟩
    rw [show ((index : Int) + 1).toNat = pre.length + 1 by omega, hos, ← drop_drop, drop_left, drop_one, tail_cons]
  | n + 1, b, [], index, pre, post, x, ⟨i, m, hindex, hi, _, hpost⟩ =>
    ⟨i + 1, m, congrArg Nat.cast hindex, by rw [Branch.getNode_succ, hi]; rfl, hpost⟩
  | n + 1, b, i :: path, index, pre, post, x, ⟨m, a, c, hm, hon, _, hpost⟩ => ⟨m, c, hm, hon.rest, hpost⟩

theorem firstLeaf_rest : ∀ (n : Nat) (node : Node K V n),
    ∃ rest, flat n node = firstLeaf n node ++ rest ∧ Rest n node (List.replicate n 0) (firstLeaf n node).length rest ∧
      At n node (List.replicate n 0) (firstLeaf n node).length (firstLeaf n node) rest
  | 0, os => by
    refine ⟨[], (append_nil os).symm, ⟨rfl, by omega, ?_⟩, rfl, rfl, (append_nil os).symm⟩
    rw [drop_eq_nil_of_le (by show List.length os ≤ ((List.length os : Int) + 1).toNat; omega)]
  | n + 1, b => by
    obtain ⟨rest, hflat, hrest, hat⟩ := firstLeaf_rest n (Branch.first b)
    have hbefore : Branch.before (flat n) b.first b.items 0 = [] := by cases b.items <;> rfl
    refine ⟨rest ++ Branch.after (flat n) b.items 0, ?_, ⟨b.first, rest, rfl, hrest, rfl⟩, b.first, _, rest, rfl, hat, ?_, rfl⟩
    · show Branch.flat (flat n) b = firstLeaf n b.first ++ _
      rw [Branch.flat_at (Branch.getNode_zero b), hbefore, hflat, nil_append, append_assoc]
    · rw [hbefore]
      rfl

theorem start_rest : ∀ {n : Nat} {node : Node K V n}, Rest n node [] (if n = 0 then -1 else 0) (flat n node)
  | 0, os => ⟨rfl, by decide, rfl⟩
  | n + 1, b => by
    refine ⟨0, b.first, rfl, rfl, ?_⟩
    show Branch.flat (flat n) b = _
    rw [Branch.flat_at (Branch.getNode_zero b)]
    cases b.items <;> rfl

theorem nextEntry_nil (ho : 3 ≤ order) : ∀ {n : Nat} {node : Node K V n} {path : List Nat} {index : Int}, Inner order n node →
    Rest n node path index [] → nextEntry n node path index = none
  | 0, os, path, index, _, ⟨_, h0, hrest⟩ => by
    have hlen := drop_eq_nil_iff.mp hrest.symm
    exact if_neg (by omega)
  | n + 1, b, [], index, hin, ⟨i, m, _, hm, hrest⟩ => by
    obtain ⟨hflat, -⟩ := append_eq_nil_iff.mp hrest.symm
    exact absurd hflat (exists_entry ho (hin m (Branch.mem_nodes.mpr ⟨i, hm⟩)))
  | n + 1, b, i :: path, index, hin, ⟨m, a, hm, ha, hrest⟩ => by
    obtain ⟨rfl, hafter⟩ := append_eq_nil_iff.mp hrest.symm
    have hobj : Branch.getObject b (i + 1) = none := by rw [← Branch.head?_after (flat n), hafter]; rfl
    simp only [nextEntry, hm, bind_some, nextEntry_nil ho (hin m (Branch.mem_nodes.mpr ⟨i, hm⟩)).inner ha, hobj, map_none]

theorem nextEntry_cons (ho : 3 ≤ order) : ∀ {n : Nat} {node : Node K V n} {path : List Nat} {index : Int} {x : K × V} {post : List (K × V)},
    Inner order n node → Rest n node path index (x :: post) →
    ∃ (path' : List Nat) (index' : Nat) (pre : List (K × V)), nextEntry n node path index = some (x, ⟨path', index'⟩) ∧
      On n node path' index' pre x post
  | 0, os, path, index, x, post, _, ⟨_, h0, hrest⟩ => by
    obtain ⟨k, hk⟩ : ∃ k : Nat, index + 1 = k := ⟨(index + 1).toNat, by omega⟩
    rw [hk, Int.toNat_natCast] at hrest
    have hx : (show List (K × V) from os)[k]? = some x := by rw [← List.head?_drop, ← hrest]; rfl
    have hlt : k < List.length os := (List.getElem?_eq_some_iff.mp hx).1
    refine ⟨[], k, List.take k os, ?_, rfl, ?_, ?_⟩
    · rw [nextEntry, if_pos (by omega), hk, Int.toNat_natCast, hx]
      rfl
    · rw [length_take]
      exact Nat.min_eq_left (Nat.le_of_lt hlt)
    · rw [hrest]
      exact (take_append_drop k os).symm
  | n + 1, b, [], index, x, post, hin, ⟨i, m, hindex, hm, hrest⟩ => by
    obtain ⟨y, post', hy, hon⟩ := firstLeaf_on ho (hin m (Branch.mem_nodes.mpr ⟨i, hm⟩))
    rw [hon.flat, nil_append, cons_append, List.cons.injEq] at hrest
    obtain ⟨rfl, rfl⟩ := hrest
    subst hindex
    refine ⟨i :: List.replicate n 0, 0, _, ?_, m, [], post', hm, hon, rfl, rfl⟩
    show (if i ≤ Branch.lastIndex b then _ else none) = _
    rw [if_pos (Branch.le_lastIndex hm), hm, bind_some, hy]
    rfl
  | n + 1, b, i :: path, index, x, post, hin, ⟨m, a, hm, ha, hrest⟩ => by
    have hinner := (hin m (Branch.mem_nodes.mpr ⟨i, hm⟩)).inner
    cases a with
    | nil =>
      have hlt : i < Branch.lastIndex b := by
        by_contra hge
        rw [show i = Branch.lastIndex b from Nat.le_antisymm (Branch.le_lastIndex hm) (Nat.le_of_not_lt hge), Branch.after_last] at hrest
        cases hrest
      obtain ⟨o, post', hobj, hafter, hon⟩ := on_behind hm hlt
      rw [hafter, nil_append, List.cons.injEq] at hrest
      obtain ⟨rfl, rfl⟩ := hrest
      refine ⟨[], i + 1, _, ?_, hon⟩
      simp only [nextEntry, hm, bind_some, nextEntry_nil ho hinner ha, hobj, map_some]
    | cons y a =>
      rw [cons_append, List.cons.injEq] at hrest
      obtain ⟨rfl, rfl⟩ := hrest
      obtain ⟨path', index', pre, hnext, hon⟩ := nextEntry_cons ho hinner ha
      refine ⟨i :: path', index', _, ?_, m, pre, a, hm, hon, rfl, rfl⟩
      simp only [nextEntry, hm, bind_some, hnext]

theorem head?_firstLeaf : ∀ (n : Nat) (node : Node K V n), (firstLeaf n node).head? = firstObject n node
  | 0, _ => rfl
  | n + 1, b => head?_firstLeaf n (Branch.first b)

theorem firstLeaf_ne_nil (ho : 3 ≤ order) : ∀ {n : Nat} {node : Node K V n}, TreeMap.Rooted order n node → firstLeaf n node ≠ []
  | 0, os, ⟨_, hpos, _⟩ => ne_nil_of_length_pos hpos
  | n + 1, b, ⟨hin, _, _⟩ => by
    obtain ⟨x, -, hx, -⟩ := firstLeaf_on ho (hin b.first mem_cons_self)
    intro hnil
    have h : (firstLeaf n b.first).head? = none := by rw [show firstLeaf n b.first = [] from hnil]; rfl
    rw [head?_firstLeaf, hx] at h
    cases h

/-- Only a root that is a leaf ends with its first leaf. -/
theorem behind_firstLeaf : ∀ {n : Nat} {node : Node K V n} {rest : List (K × V)}, TreeMap.Rooted order n node →
    flat n node = firstLeaf n node ++ rest → (rest = [] ↔ n = 0)
  | 0, os, rest, _, h => iff_of_true (append_right_eq_self.mp h.symm) rfl
  | n + 1, b, rest, ⟨_, hpos, _⟩, h => by
    obtain ⟨rest', hflat, -, -⟩ := firstLeaf_rest n b.first
    have hbefore : Branch.before (flat n) b.first b.items 0 = [] := by cases b.items <;> rfl
    have hrest : rest = rest' ++ Branch.after (flat n) b.items 0 := by
      refine append_cancel_left ((show firstLeaf n b.first ++ rest = _ from h.symm).trans ?_)
      show Branch.flat (flat n) b = _
      rw [Branch.flat_at (Branch.getNode_zero b), hbefore, hflat, nil_append, append_assoc]
    obtain ⟨o, post, -, hafter, -⟩ := on_behind (Branch.getNode_zero b) (show 0 < Branch.lastIndex b from hpos)
    refine iff_of_false ?_ (Nat.succ_ne_zero n)
    rw [hrest, hafter]
    exact append_ne_nil_of_right_ne_nil _ (cons_ne_nil _ _)

/-- No search ends where an iteration without a start begins. -/
theorem On.ne_start : ∀ {n : Nat} {node : Node K V n} {path : List Nat} {index : Nat} {pre post : List (K × V)} {x : K × V},
    On n node path index pre x post → (⟨[], if n = 0 then -1 else 0⟩ : Cursor) ≠ ⟨path, index⟩
  | 0, os, path, index, pre, post, x, _ => fun h => by
    have hindex : (-1 : Int) = index := congrArg Cursor.index h
    omega
  | n + 1, b, [], index, pre, post, x, ⟨i, _, hi, _⟩ => fun h => by
    have hindex : (0 : Int) = index := congrArg Cursor.index h
    omega
  | n + 1, b, i :: path, index, pre, post, x, _ => fun h => by cases congrArg Cursor.path h

theorem At.ne_start : ∀ {n : Nat} {node : Node K V n} {path : List Nat} {index : Nat} {pre post : List (K × V)},
    At n node path index pre post → (⟨[], if n = 0 then -1 else 0⟩ : Cursor) ≠ ⟨path, index⟩
  | 0, os, path, index, pre, post, _ => fun h => by
    have hindex : (-1 : Int) = index := congrArg Cursor.index h
    omega
  | n + 1, b, i :: path, index, pre, post, _ => fun h => by cases congrArg Cursor.path h

/-! ### A place is one entry's -/

theorem On.unique : ∀ {n : Nat} {node : Node K V n} {path : List Nat} {index : Nat} {pre pre' post post' : List (K × V)} {x x' : K × V},
    On n node path index pre x post → On n node path index pre' x' post' → x = x' ∧ post = post'
  | 0, os, path, index, pre, pre', post, post', x, x', ⟨_, h1, h2⟩, ⟨_, h1', h2'⟩ => by
    obtain ⟨-, h⟩ := append_inj (h2.symm.trans h2') (h1.trans h1'.symm)
    exact List.cons.inj h
  | n + 1, b, [], index, pre, pre', post, post', x, x', ⟨i, m, h1, h2, _, h4⟩, ⟨i', m', h1', h2', _, h4'⟩ => by
    obtain rfl : i = i' := Nat.succ.inj (h1.symm.trans h1')
    cases h2.symm.trans h2'
    exact ⟨rfl, h4.trans h4'.symm⟩
  | n + 1, b, i :: path, index, pre, pre', post, post', x, x', ⟨m, a, c, hm, hon, _, hc⟩, ⟨m', a', c', hm', hon', _, hc'⟩ => by
    cases hm.symm.trans hm'
    obtain ⟨hx, rfl⟩ := hon.unique hon'
    exact ⟨hx, hc.trans hc'.symm⟩

theorem At.unique : ∀ {n : Nat} {node : Node K V n} {path : List Nat} {index : Nat} {pre pre' post post' : List (K × V)},
    At n node path index pre post → At n node path index pre' post' → pre = pre'
  | 0, os, path, index, pre, pre', post, post', ⟨_, h1, h2⟩, ⟨_, h1', h2'⟩ => (append_inj (h2.symm.trans h2') (h1.trans h1'.symm)).1
  | n + 1, b, i :: path, index, pre, pre', post, post', ⟨m, a, c, hm, hat, ha, _⟩, ⟨m', a', c', hm', hat', ha', _⟩ => by
    cases hm.symm.trans hm'
    rw [ha, ha', hat.unique hat']

/-- An entry at a place in a leaf is the first that stands behind it. -/
theorem At.on : ∀ {n : Nat} {node : Node K V n} {path : List Nat} {index : Nat} {pre pre' post post' : List (K × V)} {x : K × V},
    At n node path index pre post → On n node path index pre' x post' → post = x :: post'
  | 0, os, path, index, pre, pre', post, post', x, ⟨_, h1, h2⟩, ⟨_, h1', h2'⟩ => (append_inj (h2.symm.trans h2') (h1.trans h1'.symm)).2
  | n + 1, b, i :: path, index, pre, pre', post, post', x, ⟨m, a, c, hm, hat, _, hc⟩, ⟨m', a', c', hm', hon, _, hc'⟩ => by
    cases hm.symm.trans hm'
    rw [hc, hc', hat.on hon]
    rfl

variable {n : Nat} {b : Branch (K × V) (Node K V n)} {i j : Nat}

/-- What stands ahead of a node is longer by a node and an object than what stands ahead of one before it. -/
theorem length_before_lt {m : Node K V n} (hm : b.getNode i = some m) (hij : i < j)
    (hj : j ≤ b.lastIndex) : (Branch.before (flat n) b.first b.items i).length + (flat n m).length <
      (Branch.before (flat n) b.first b.items j).length := by
  induction j, hij using Nat.le_induction with
  | base =>
    obtain ⟨o, -, ho, -, -⟩ := on_behind hm hj
    rw [Branch.before_succ _ hm ho]
    simp
  | succ j hij ih =>
    obtain ⟨m', hm'⟩ := Branch.getNode_isSome (Nat.le_of_succ_le hj)
    obtain ⟨o, -, ho, -, -⟩ := on_behind hm' hj
    rw [Branch.before_succ _ hm' ho, length_append, length_append]
    omega

theorem length_before_le (hij : i ≤ j) (hj : j ≤ b.lastIndex) :
    (Branch.before (flat n) b.first b.items i).length ≤ (Branch.before (flat n) b.first b.items j).length := by
  rcases Nat.lt_or_eq_of_le hij with hlt | rfl
  · obtain ⟨m, hm⟩ := Branch.getNode_isSome (Nat.le_trans hij hj)
    have := length_before_lt hm hlt hj
    omega
  · exact Nat.le_refl _

theorem object_outside {len : Nat} {m : Node K V n} (hi : i ≤ b.lastIndex)
    (hobj : len + 1 = (Branch.before (flat n) b.first b.items i).length) (hm : b.getNode j = some m)
    (hge : (Branch.before (flat n) b.first b.items j).length ≤ len) :
    (Branch.before (flat n) b.first b.items j).length + (flat n m).length ≤ len := by
  rcases Nat.lt_or_ge j i with hlt | hle
  · have := length_before_lt hm hlt hi
    omega
  · have := length_before_le hle (Branch.le_lastIndex hm)
    omega

theorem On.place : ∀ {n : Nat} {node : Node K V n} {path path' : List Nat} {index index' : Nat} {pre post post' : List (K × V)} {x x' : K × V},
    On n node path index pre x post → On n node path' index' pre x' post' → path = path' ∧ index = index'
  | 0, os, path, path', index, index', pre, post, post', x, x', ⟨hp, h1, _⟩, ⟨hp', h1', _⟩ => ⟨hp.trans hp'.symm, h1.symm.trans h1'⟩
  | n + 1, b, [], [], index, index', pre, post, post', x, x', ⟨i, m, h1, h2, h3, _⟩, ⟨j, m', h1', h2', h3', _⟩ => by
    have hi : i + 1 ≤ b.lastIndex := (List.getElem?_eq_some_iff.mp h2).1
    have hj : j + 1 ≤ b.lastIndex := (List.getElem?_eq_some_iff.mp h2').1
    have hlen : (Branch.before (Node.flat n) b.first b.items (i + 1)).length = pre.length + 1 := by rw [h3, length_append]; rfl
    have hlen' : (Branch.before (Node.flat n) b.first b.items (j + 1)).length = pre.length + 1 := by rw [h3', length_append]; rfl
    rcases Nat.lt_trichotomy i j with hlt | heq | hgt
    · obtain ⟨k, hk⟩ := Branch.getNode_isSome hi
      have := length_before_lt hk (show i + 1 < j + 1 by omega) hj
      omega
    · exact ⟨rfl, by rw [h1, h1', heq]⟩
    · obtain ⟨k, hk⟩ := Branch.getNode_isSome hj
      have := length_before_lt hk (show j + 1 < i + 1 by omega) hi
      omega
  | n + 1, b, [], j :: path', index, index', pre, post, post', x, x', ⟨i, m, h1, h2, h3, _⟩, ⟨m', a, c, hm', hon', ha, _⟩ => by
    have hflat := congrArg List.length hon'.flat
    have hpre := congrArg List.length ha
    have hlen := congrArg List.length h3
    rw [length_append] at hflat hpre hlen
    rw [length_cons] at hflat
    have := object_outside (List.getElem?_eq_some_iff.mp h2).1 hlen.symm hm' (by omega)
    omega
  | n + 1, b, i :: path, [], index, index', pre, post, post', x, x', ⟨m, a, c, hm, hon, ha, _⟩, ⟨j, m', h1', h2', h3', _⟩ => by
    have hflat := congrArg List.length hon.flat
    have hpre := congrArg List.length ha
    have hlen := congrArg List.length h3'
    rw [length_append] at hflat hpre hlen
    rw [length_cons] at hflat
    have := object_outside (List.getElem?_eq_some_iff.mp h2').1 hlen.symm hm (by omega)
    omega
  | n + 1, b, i :: path, j :: path', index, index', pre, post, post', x, x', ⟨m, a, c, hm, hon, ha, _⟩, ⟨m', a', c', hm', hon', ha', _⟩ => by
    have hflat := congrArg List.length hon.flat
    have hflat' := congrArg List.length hon'.flat
    have hpre := congrArg List.length ha
    have hpre' := congrArg List.length ha'
    rw [length_append] at hflat hflat' hpre hpre'
    rw [length_cons] at hflat hflat'
    rcases Nat.lt_trichotomy i j with hlt | rfl | hgt
    · have := length_before_lt hm hlt (Branch.le_lastIndex hm')
      omega
    · cases hm.symm.trans hm'
      obtain rfl := append_cancel_left (ha.symm.trans ha')
      obtain ⟨rfl, rfl⟩ := hon.place hon'
      exact ⟨rfl, rfl⟩
    · have := length_before_lt hm' hgt (Branch.le_lastIndex hm)
      omega

end Node

theorem TreeMap.findPlace_on [LinearOrder K] {t : TreeMap K V} (ht : t.Valid) {pre post : List (K × V)} {x : K × V}
    (h : t.entries = pre ++ x :: post) : ∃ (n : Nat) (node : Node K V n) (path : List Nat) (index : Nat), t.root = some ⟨n, node⟩ ∧
      t.findPlace x.1 = some ⟨path, index⟩ ∧ Node.On n node path index pre x post := by
  rcases hroot : t.root with _ | ⟨n, node⟩
  · rw [TreeMap.entries_nil hroot] at h
    cases pre <;> cases h
  · have hent := TreeMap.entries_of_root hroot
    refine ⟨n, node, (Node.find x.1 n node).path, (Node.find x.1 n node).index, rfl, by rw [TreeMap.findPlace, hroot]; rfl, ?_⟩
    rcases (TreeMap.located_of_root ht hroot x.1).2 with @⟨y, pre', post', -, hy, hon, -⟩ | @⟨pre', post', -, hat, hpre, hpost, -⟩
    · have hs := ht.sorted
      rw [h] at hs
      obtain ⟨rfl, rfl, rfl⟩ := Partition.Ascending.split_unique hs (h.symm.trans (hent.trans hon.flat)) hy.symm
      exact hon
    · have hx : x ∈ t.entries := h ▸ mem_append_right _ mem_cons_self
      rw [hent, hat.flat] at hx
      rcases mem_append.mp hx with hx | hx
      · exact absurd (hpre x hx) (lt_irrefl _)
      · exact absurd (hpost x hx) (lt_irrefl _)

/-! ## Iterating -/

section Drain

variable {t : TreeMap K V} {n order : Nat} {node : Node K V n} {c : Cursor} {finish : Option Cursor} {rest : List (K × V)}

variable {fuel : Nat} {it : Range} {out : List (K × V)}

theorem drain_succ (h : drain t fuel it = some out) : drain t (fuel + 1) it = some out := by
  induction fuel generalizing it out with
  | zero => cases h
  | succ fuel ih =>
    rw [drain] at h ⊢
    split_ifs at h ⊢ with hnext
    · split at h
      · obtain ⟨out', hout, rfl⟩ := map_eq_some_iff.mp h
        rw [ih hout]
        rfl
      · cases h
    · exact h

theorem drain_mono {more : Nat} (h : drain t fuel it = some out) (hle : fuel ≤ more) :
    drain t more it = some out := by
  induction more, hle using Nat.le_induction with
  | base => exact h
  | succ more _ ih => exact drain_succ ih

theorem drain_unique {fuel' : Nat} {out' : List (K × V)} (h : drain t fuel it = some out)
    (h' : drain t fuel' it = some out') : out = out' :=
  some.inj ((drain_mono h (Nat.le_max_left fuel fuel')).symm.trans (drain_mono h' (Nat.le_max_right fuel fuel')))

theorem drain_end (fuel : Nat) : drain t (fuel + 1) ⟨some c, some c⟩ = some [] := by
  have hnext : t.hasNext ⟨some c, some c⟩ = false := by simp [TreeMap.hasNext, Range.atEnd]
  rw [drain, hnext]
  rfl

variable (ho : 3 ≤ order) (hroot : t.root = some ⟨n, node⟩) (hin : Node.Inner order n node) (hne : some c ≠ finish)

include ho hroot hin

theorem drain_nil (hrest : Node.Rest n node c.path c.index []) (fuel : Nat) : drain t (fuel + 1) ⟨some c, finish⟩ = some [] := by
  have hnone : t.nextEntry c = none := by rw [TreeMap.nextEntry, hroot, bind_some, Node.nextEntry_nil ho hin hrest]
  have hnext : t.hasNext ⟨some c, finish⟩ = false := by simp [TreeMap.hasNext, TreeMap.hasNextEntry, hnone]
  rw [drain, hnext]
  rfl

include hne

theorem drain_cons {x : K × V} (hrest : Node.Rest n node c.path c.index (x :: rest)) :
    ∃ (c' : Cursor) (index : Nat) (pre : List (K × V)), c'.index = index ∧ Node.On n node c'.path index pre x rest ∧
      ∀ fuel, drain t (fuel + 1) ⟨some c, finish⟩ = (drain t fuel ⟨some c', finish⟩).map (x :: ·) := by
  obtain ⟨path, index, pre, hnext, hon⟩ := Node.nextEntry_cons ho hin hrest
  have hsome : t.nextEntry c = some (x, ⟨path, index⟩) := by rw [TreeMap.nextEntry, hroot, bind_some, hnext]
  have hend : Range.atEnd ⟨some c, finish⟩ = false := by simp [Range.atEnd, hne]
  refine ⟨⟨path, index⟩, index, pre, rfl, hon, fun fuel => ?_⟩
  simp only [drain, TreeMap.hasNext, TreeMap.next, TreeMap.hasNextEntry, hend, hsome, any_some, bind_some, isSome_some,
    Bool.false_eq_true, if_false, if_true]

/-- An iteration that does not come to its end goes on to the last entry. -/
theorem drain_past (hrest : Node.Rest n node c.path c.index rest)
    (hmiss : ∀ {path : List Nat} {index : Nat} {pre post : List (K × V)} {x : K × V}, finish = some ⟨path, index⟩ →
      Node.On n node path index pre x post → x ∉ rest) :
    ∃ fuel, drain t fuel ⟨some c, finish⟩ = some rest := by
  induction rest generalizing c with
  | nil => exact ⟨1, drain_nil ho hroot hin hrest 0⟩
  | cons x rest ih =>
    obtain ⟨⟨path, _⟩, index, pre, rfl, hon, hdrain⟩ := drain_cons ho hroot hin hne hrest
    have hne' : some (⟨path, index⟩ : Cursor) ≠ finish := fun h => hmiss h.symm hon mem_cons_self
    obtain ⟨fuel, hfuel⟩ := ih hne' hon.rest fun h hon' hx => hmiss h hon' (mem_cons_of_mem _ hx)
    exact ⟨fuel + 1, by rw [hdrain, hfuel]; rfl⟩

theorem drain_through {path : List Nat} {index : Nat} {pre l post : List (K × V)} {x : K × V}
    (hrest : Node.Rest n node c.path c.index (l ++ x :: post)) (hfinish : finish = some ⟨path, index⟩) (hon : Node.On n node path index pre x post) :
    ∃ fuel, drain t fuel ⟨some c, finish⟩ = some (l ++ [x]) := by
  induction l generalizing c with
  | nil =>
    obtain ⟨⟨path', _⟩, index', pre', rfl, hon', hdrain⟩ := drain_cons ho hroot hin hne hrest
    obtain rfl : pre' = pre := append_cancel_right (hon'.flat.symm.trans hon.flat)
    obtain ⟨rfl, rfl⟩ := hon'.place hon
    exact ⟨2, by rw [hdrain, hfinish, drain_end]; rfl⟩
  | cons y l ih =>
    obtain ⟨⟨path', _⟩, index', pre', rfl, hon', hdrain⟩ := drain_cons ho hroot hin hne hrest
    have hne' : some (⟨path', index'⟩ : Cursor) ≠ finish := by
      rw [hfinish]
      intro h
      obtain ⟨rfl, hindex⟩ := Cursor.mk.inj (some.inj h)
      obtain rfl : index' = index := Int.ofNat.inj hindex
      have hpost := congrArg List.length (hon'.unique hon).2
      simp only [append_eq, length_append, length_cons] at hpost
      omega
    obtain ⟨fuel, hfuel⟩ := ih hne' hon'.rest
    exact ⟨fuel + 1, by rw [hdrain, hfuel]; rfl⟩

omit hne in
theorem drain_initial (hrest : Node.Rest n node c.path c.index rest)
    (h : drain t fuel ⟨some c, finish⟩ = some out) : out <+: rest := by
  induction rest generalizing c fuel out with
  | nil =>
    obtain rfl := drain_unique h (drain_nil ho hroot hin hrest 0)
    exact nil_prefix
  | cons x rest ih =>
    by_cases hend : some c = finish
    · rw [← hend] at h
      obtain rfl := drain_unique h (drain_end 0)
      exact nil_prefix
    · obtain ⟨c', index, pre, hindex, hon, hdrain⟩ := drain_cons ho hroot hin hend hrest
      cases fuel with
      | zero => cases h
      | succ fuel =>
        rw [hdrain] at h
        obtain ⟨out', hout, rfl⟩ := map_eq_some_iff.mp h
        rw [prefix_cons_inj]
        exact ih (hindex ▸ hon.rest) hout

end Drain

/-! ## What the views have -/

theorem drain_iff {t : TreeMap K V} {it : Range} {out out' : List (K × V)} (h : ∃ fuel, drain t fuel it = some out) :
    (∃ fuel, drain t fuel it = some out') ↔ out = out' := by
  obtain ⟨fuel, hfuel⟩ := h
  constructor
  · intro ⟨fuel', hfuel'⟩
    exact drain_unique hfuel hfuel'
  · rintro rfl
    exact ⟨fuel, hfuel⟩

theorem filter_mid (below mid above : List (K × V)) {p : K × V → Bool} (hbelow : ∀ e ∈ below, p e = false) (hmid : ∀ e ∈ mid, p e = true)
    (habove : ∀ e ∈ above, p e = false) : (below ++ (mid ++ above)).filter p = mid := by
  have h1 : below.filter p = [] := filter_eq_nil_iff.mpr fun e he => by simp [hbelow e he]
  have h2 : above.filter p = [] := filter_eq_nil_iff.mpr fun e he => by simp [habove e he]
  rw [filter_append, filter_append, h1, h2, filter_eq_self.mpr hmid, nil_append, append_nil]

/-- Two cuts of a list, the second ahead of what follows the first. -/
theorem exists_between {α : Type} {pre post front rest : List α} (h : pre ++ post = front ++ rest) (hfront : ∀ y ∈ front, y ∉ post) :
    ∃ l, pre = front ++ l ∧ rest = l ++ post := by
  rcases append_eq_append_iff.mp h with ⟨a, h1, h2⟩ | ⟨a, h1, h2⟩
  · cases a with
    | nil => exact ⟨[], by rw [h1, append_nil, append_nil], h2.symm⟩
    | cons y a => exact absurd (h2 ▸ mem_cons_self) (hfront y (by rw [h1]; simp))
  · exact ⟨a, h1, h2⟩

section Views

variable [LinearOrder K] {t : TreeMap K V} (ht : t.Valid) {n : Nat} {node : Node K V n} (hroot : t.root = some ⟨n, node⟩)

include ht hroot

variable {toKey : K}

/-- An iteration that is to end where `find` ended does so at the right entry if the key is stored,
or goes on to the last entry rightly if all are below the key. -/
theorem drain_upto {c : Cursor} {front rest : List (K × V)} (hent : t.entries = front ++ rest) (hfront : ∀ e ∈ front, e.1 < toKey)
    (hrest : Node.Rest n node c.path c.index rest) (hne : some c ≠ t.findPlace toKey) :
    (∃ fuel, drain t fuel ⟨some c, t.findPlace toKey⟩ = some (rest.filter fun e => e.1 ≤ toKey)) ↔
      (∃ e ∈ t.entries, e.1 = toKey) ∨ ∀ e ∈ t.entries, e.1 < toKey := by
  have hin := (ht.root hroot).1
  have hplace : t.findPlace toKey = some ⟨(Node.find toKey n node).path, (Node.find toKey n node).index⟩ := by rw [TreeMap.findPlace, hroot]; rfl
  have hs := ht.sorted
  rcases (TreeMap.located_of_root ht hroot toKey).2 with @⟨x, pre, post, -, hx, hon, -⟩ | @⟨pre, post, -, hat, hpre, hpost, -⟩
  · have hent' : t.entries = pre ++ x :: post := (TreeMap.entries_of_root hroot).trans hon.flat
    rw [hent'] at hs
    obtain ⟨-, hxpost, hcross⟩ := pairwise_append.mp hs
    obtain ⟨l, hl, rfl⟩ := exists_between (hent'.symm.trans hent) fun y hy hy' => by
      rcases mem_cons.mp hy' with rfl | hy'
      · exact lt_irrefl _ (hx ▸ hfront y hy)
      · exact lt_irrefl _ (lt_trans (hx ▸ hfront y hy) ((pairwise_cons.mp hxpost).1 y hy'))
    have hfilter : (l ++ x :: post).filter (fun e => e.1 ≤ toKey) = l ++ [x] := by
      have h := filter_mid [] (l ++ [x]) post (p := fun e => e.1 ≤ toKey) (forall_mem_nil _) (fun e he => ?_)
        fun e he => by simpa [hx] using (pairwise_cons.mp hxpost).1 e he
      · simpa using h
      · rcases mem_append.mp he with he | he
        · simpa [hx] using le_of_lt (hcross e (hl ▸ mem_append_right _ he) x mem_cons_self)
        · simp [mem_singleton.mp he, hx]
    rw [hfilter]
    refine iff_of_true ?_ (Or.inl ⟨x, hent' ▸ by simp, hx⟩)
    exact drain_through ht.order hroot hin hne hrest hplace hon
  · have hent' : t.entries = pre ++ post := (TreeMap.entries_of_root hroot).trans hat.flat
    obtain ⟨l, hl, rfl⟩ := exists_between (hent'.symm.trans hent) fun y hy hy' => lt_irrefl _ (lt_trans (hfront y hy) (hpost y hy'))
    have hfilter : (l ++ post).filter (fun e => e.1 ≤ toKey) = l := by
      have h := filter_mid [] l post (p := fun e => e.1 ≤ toKey) (forall_mem_nil _)
        (fun e he => by simpa using le_of_lt (hpre e (hl ▸ mem_append_right _ he))) fun e he => by simpa using hpost e he
      simpa using h
    have hcond : ((∃ e ∈ t.entries, e.1 = toKey) ∨ ∀ e ∈ t.entries, e.1 < toKey) ↔ post = [] := by
      rw [hent']
      constructor
      · rintro (⟨e, he, rfl⟩ | hall)
        · rcases mem_append.mp he with he | he
          · exact absurd (hpre e he) (lt_irrefl _)
          · exact absurd (hpost e he) (lt_irrefl _)
        · refine eq_nil_iff_forall_not_mem.mpr fun e he => ?_
          exact lt_asymm (hpost e he) (hall e (mem_append_right _ he))
      · rintro rfl
        exact Or.inr fun e he => hpre e (by simpa using he)
    rw [hfilter, hcond]
    by_cases hstop : ∃ pre' x post', Node.On n node (Node.find toKey n node).path (Node.find toKey n node).index pre' x post'
    · -- the place is the first entry above the key
      obtain ⟨pre', x, post', hon⟩ := hstop
      obtain rfl := hat.on hon
      rw [drain_iff (drain_through ht.order hroot hin hne hrest hplace hon)]
      simp
    · rw [drain_iff (drain_past ht.order hroot hin hne hrest fun hf hon => ?_)]
      · simp
      · rw [hplace] at hf
        obtain ⟨hpath, hindex⟩ := Cursor.mk.inj (some.inj hf)
        obtain rfl := hpath
        obtain rfl := Int.ofNat.inj hindex
        exact absurd ⟨_, _, _, hon⟩ hstop

omit hroot in
theorem headMap_iff (toKey : K) :
    Yields t (t.headMap toKey) (t.entries.filter fun e => e.1 ≤ toKey) ↔ (∃ e ∈ t.entries, e.1 = toKey) ∨ ∀ e ∈ t.entries, e.1 < toKey := by
  rcases hroot : t.root with _ | ⟨n, node⟩
  · have hview : t.iterator (t.entrySet (t.headMap toKey)) = ⟨none, none⟩ := by
      simp [TreeMap.iterator, TreeMap.entrySet, TreeMap.headMap, TreeMap.reset, TreeMap.findPlace, hroot]
    rw [TreeMap.entries_nil hroot, Yields, hview]
    exact iff_of_true ⟨1, rfl⟩ (Or.inr (forall_mem_nil _))
  · have hent := TreeMap.entries_of_root hroot
    have hview : t.iterator (t.entrySet (t.headMap toKey)) = ⟨some ⟨[], if n = 0 then -1 else 0⟩, t.findPlace toKey⟩ := by
      simp [TreeMap.iterator, TreeMap.entrySet, TreeMap.headMap, TreeMap.reset, hroot]
    have hne : some (⟨[], if n = 0 then -1 else 0⟩ : Cursor) ≠ t.findPlace toKey := by
      rw [TreeMap.findPlace, hroot, map_some, ne_eq, some.injEq]
      rcases (TreeMap.located_of_root ht hroot toKey).2 with ⟨-, -, hon, -⟩ | ⟨-, hat, -⟩
      · exact hon.ne_start
      · exact hat.ne_start
    rw [Yields, hview]
    exact drain_upto ht hroot (nil_append t.entries).symm (forall_mem_nil _) (hent ▸ Node.start_rest) hne

omit hroot in
theorem tailMap_iff (fromKey : K) :
    Yields t (t.tailMap fromKey) (t.entries.filter fun e => fromKey ≤ e.1) ↔ t.entries = [] ∨ ∃ e ∈ t.entries, e.1 < fromKey := by
  rcases hroot : t.root with _ | ⟨n, node⟩
  · have hview : t.iterator (t.entrySet (t.tailMap fromKey)) = ⟨none, none⟩ := by
      simp [TreeMap.iterator, TreeMap.entrySet, TreeMap.tailMap, TreeMap.reset, TreeMap.lowerPlace, hroot]
    rw [TreeMap.entries_nil hroot, Yields, hview]
    exact iff_of_true ⟨1, rfl⟩ (Or.inl rfl)
  · have hent := TreeMap.entries_of_root hroot
    have hR := ht.root hroot
    have hs := ht.sorted
    have hview : t.iterator (t.entrySet (t.tailMap fromKey)) =
        ⟨some ⟨(Node.lower fromKey n node).path, (Node.lower fromKey n node).index⟩, none⟩ := by
      simp [TreeMap.iterator, TreeMap.entrySet, TreeMap.tailMap, TreeMap.reset, TreeMap.lowerPlace, hroot]
    rw [Yields, hview]
    rw [hent] at hs ⊢
    cases Node.lower_spec ht.order fromKey hR.1 hs with
    | @entry x pre post _ hon hlt hpost _ =>
      rw [hon.flat] at hs ⊢
      have hpre : ∀ e ∈ pre ++ [x], e.1 < fromKey := fun e he => by
        rcases mem_append.mp he with he | he
        · exact lt_trans ((pairwise_append.mp hs).2.2 e he x mem_cons_self) hlt
        · exact mem_singleton.mp he ▸ hlt
      have hfilter : (pre ++ x :: post).filter (fun e => fromKey ≤ e.1) = post := by
        have h := filter_mid (pre ++ [x]) post [] (p := fun e => fromKey ≤ e.1)
          (fun e he => by simpa using hpre e he) (fun e he => by simpa using hpost e he) (forall_mem_nil _)
        simpa using h
      rw [hfilter]
      refine iff_of_true ?_ (Or.inr ⟨x, by simp, hlt⟩)
      exact drain_past ht.order hroot hR.1 (some_ne_none _) hon.rest fun h => by cases h
    | none _ hpath hindex hall _ =>
      -- it starts behind the first leaf
      obtain ⟨rest, hflat, hrest, -⟩ := Node.firstLeaf_rest n node
      rw [hpath, hindex, filter_eq_self.mpr fun e he => by simpa using hall e he]
      have hne := Node.firstLeaf_ne_nil ht.order hR
      refine iff_of_false ?_ ?_
      · intro ⟨fuel, hfuel⟩
        have hle := (drain_initial (c := ⟨_, _⟩) ht.order hroot hR.1 hrest hfuel).length_le
        rw [hflat, length_append] at hle
        have := length_pos_of_ne_nil hne
        omega
      · rintro (hnil | ⟨e, he, hlt⟩)
        · rw [hflat] at hnil
          exact hne (append_eq_nil_iff.mp hnil).1
        · exact absurd hlt (not_lt.mpr (hall e he))

/-- An iteration from behind the first leaf: it has what is behind it, and so only a range below all
keys of one leaf. -/
theorem drain_behind_firstLeaf {fromKey : K} (hall : ∀ e ∈ t.entries, fromKey ≤ e.1) :
    (∃ fuel, drain t fuel ⟨some ⟨List.replicate n 0, (Node.firstLeaf n node).length⟩, t.findPlace toKey⟩ =
      some (t.entries.filter fun e => fromKey ≤ e.1 ∧ e.1 ≤ toKey)) ↔ n = 0 ∧ ∀ e ∈ t.entries, toKey < e.1 := by
  have hent := TreeMap.entries_of_root hroot
  have hR := ht.root hroot
  have hs := ht.sorted
  obtain ⟨rest, hflat, hrest, hat⟩ := Node.firstLeaf_rest n node
  obtain ⟨e₀, leaf, hleaf⟩ := exists_cons_of_ne_nil (Node.firstLeaf_ne_nil ht.order hR)
  have hent' : t.entries = e₀ :: (leaf ++ rest) := by rw [hent, hflat, hleaf]; rfl
  rw [hent'] at hs
  have hnot : e₀ ∉ rest := fun h => lt_irrefl _ ((pairwise_cons.mp hs).1 e₀ (mem_append_right _ h))
  by_cases hbelow : ∀ e ∈ t.entries, toKey < e.1
  · have hfilter : t.entries.filter (fun e => fromKey ≤ e.1 ∧ e.1 ≤ toKey) = [] :=
      filter_eq_nil_iff.mpr fun e he => by simpa using fun _ => hbelow e he
    have hplace : t.findPlace toKey = some ⟨(Node.find toKey n node).path, (Node.find toKey n node).index⟩ := by
      rw [TreeMap.findPlace, hroot]; rfl
    rcases (TreeMap.located_of_root ht hroot toKey).2 with @⟨x, pre, post, -, hx, hon, -⟩ | @⟨pre, post, -, hat', hpre, -⟩
    · exact absurd (hbelow x (by rw [hent, hon.flat]; simp)) (by simp [hx])
    · have hnil : pre = [] := eq_nil_iff_forall_not_mem.mpr fun e he =>
        lt_asymm (hpre e he) (hbelow e (by rw [hent, hat'.flat]; exact mem_append_left _ he))
      have hne : some (⟨List.replicate n 0, (Node.firstLeaf n node).length⟩ : Cursor) ≠ t.findPlace toKey := by
        rw [hplace]
        intro h
        obtain ⟨hpath, hindex⟩ := Cursor.mk.inj (some.inj h)
        rw [← hpath, ← Int.ofNat.inj hindex] at hat'
        rw [hat.unique hat', hnil] at hleaf
        cases hleaf
      have hmiss := drain_past (c := ⟨_, _⟩) ht.order hroot hR.1 hne hrest fun {path index pre' post' x} hf hon hx => by
        rw [hplace] at hf
        obtain ⟨hpath, hindex⟩ := Cursor.mk.inj (some.inj hf)
        rw [← hpath, ← Int.ofNat.inj hindex] at hon
        have hx₀ := hat'.flat
        rw [hat'.on hon, hnil, ← hent, hent'] at hx₀
        exact hnot ((List.cons.inj hx₀).1 ▸ hx)
      rw [drain_iff hmiss, hfilter, Node.behind_firstLeaf hR hflat]
      exact (and_iff_left hbelow).symm
  · refine iff_of_false ?_ fun h => hbelow h.2
    intro ⟨fuel, hfuel⟩
    have hmem : e₀ ∈ t.entries.filter fun e => fromKey ≤ e.1 ∧ e.1 ≤ toKey := by
      have hto : e₀.1 ≤ toKey := by
        by_contra hlt
        refine hbelow fun e he => ?_
        rw [hent'] at he
        rcases mem_cons.mp he with rfl | he
        · exact not_le.mp hlt
        · exact lt_trans (not_le.mp hlt) ((pairwise_cons.mp hs).1 e he)
      have hmem₀ : e₀ ∈ t.entries := hent' ▸ mem_cons_self
      exact mem_filter.mpr ⟨hmem₀, by simpa using ⟨hall e₀ hmem₀, hto⟩⟩
    exact hnot ((drain_initial (c := ⟨_, _⟩) ht.order hroot hR.1 hrest hfuel).subset hmem)

omit hroot in
theorem subMap_iff {fromKey : K} (hle : fromKey ≤ toKey) :
    Yields t (t.subMap fromKey toKey) (t.entries.filter fun e => fromKey ≤ e.1 ∧ e.1 ≤ toKey) ↔
      t.entries = [] ∨ ((∃ e ∈ t.entries, e.1 < fromKey) ∧ ((∃ e ∈ t.entries, e.1 = toKey) ∨ ∀ e ∈ t.entries, e.1 < toKey)) ∨
        t.rootIsLeaf ∧ ∀ e ∈ t.entries, toKey < e.1 := by
  rcases hroot : t.root with _ | ⟨n, node⟩
  · have hview : t.iterator (t.entrySet (t.subMap fromKey toKey)) = ⟨none, none⟩ := by
      simp [TreeMap.iterator, TreeMap.entrySet, TreeMap.subMap, TreeMap.reset, TreeMap.lowerPlace, TreeMap.findPlace, hroot]
    rw [TreeMap.entries_nil hroot, Yields, hview]
    exact iff_of_true ⟨1, rfl⟩ (Or.inl rfl)
  · have hent := TreeMap.entries_of_root hroot
    have hR := ht.root hroot
    have hs := ht.sorted
    have hview : t.iterator (t.entrySet (t.subMap fromKey toKey)) =
        ⟨some ⟨(Node.lower fromKey n node).path, (Node.lower fromKey n node).index⟩, t.findPlace toKey⟩ := by
      simp [TreeMap.iterator, TreeMap.entrySet, TreeMap.subMap, TreeMap.reset, TreeMap.lowerPlace, hroot]
    rw [Yields, hview]
    rw [hent] at hs
    cases Node.lower_spec ht.order fromKey hR.1 hs with
    | @entry x pre post _ hon hlt hpost _ =>
      rw [hon.flat] at hs
      have hent' : t.entries = (pre ++ [x]) ++ post := by rw [hent, hon.flat, append_assoc]; rfl
      have hpre : ∀ e ∈ pre ++ [x], e.1 < fromKey := fun e he => by
        rcases mem_append.mp he with he | he
        · exact lt_trans ((pairwise_append.mp hs).2.2 e he x mem_cons_self) hlt
        · exact mem_singleton.mp he ▸ hlt
      have hfilter : t.entries.filter (fun e => fromKey ≤ e.1 ∧ e.1 ≤ toKey) = post.filter fun e => e.1 ≤ toKey := by
        have hnil : (pre ++ [x]).filter (fun e => fromKey ≤ e.1 ∧ e.1 ≤ toKey) = [] :=
          filter_eq_nil_iff.mpr fun e he => by simpa using fun h => absurd (hpre e he) (not_lt.mpr h)
        rw [hent', filter_append, hnil, nil_append]
        exact filter_congr fun e he => by simp [hpost e he]
      have hne : some (⟨(Node.lower fromKey n node).path, (Node.lower fromKey n node).index⟩ : Cursor) ≠ t.findPlace toKey := by
        rw [TreeMap.findPlace, hroot, map_some]
        intro h
        obtain ⟨hpath, hindex⟩ := Cursor.mk.inj (some.inj h)
        rw [hpath, Int.ofNat.inj hindex] at hon
        rcases (TreeMap.located_of_root ht hroot toKey).2 with @⟨y, _, _, -, hy, hon', -⟩ | @⟨_, post', -, hat, -, hpost', -⟩
        · obtain ⟨rfl, -⟩ := hon.unique hon'
          exact absurd (lt_of_lt_of_le hlt hle) (by simp [hy])
        · exact lt_asymm (lt_of_lt_of_le hlt hle) (hpost' x (by rw [hat.on hon]; exact mem_cons_self))
      have hx : x ∈ t.entries := by rw [hent']; simp
      rw [hfilter, drain_upto ht hroot hent' (fun e he => lt_of_lt_of_le (hpre e he) hle) hon.rest hne]
      constructor
      · exact fun h => Or.inr (Or.inl ⟨⟨x, hx, hlt⟩, h⟩)
      · rintro (hnil | ⟨-, h⟩ | ⟨-, hall⟩)
        · rw [hnil] at hx
          cases hx
        · exact h
        · exact absurd (lt_of_lt_of_le hlt hle) (lt_asymm (hall x hx))
    | none _ hpath hindex hall _ =>
      rw [← hent] at hall
      rw [hpath, hindex, drain_behind_firstLeaf ht hroot hall]
      have hleaf : t.rootIsLeaf = true ↔ n = 0 := by simp [TreeMap.rootIsLeaf, hroot]
      have hnil : t.entries ≠ [] := by
        obtain ⟨rest, hflat, -, -⟩ := Node.firstLeaf_rest n node
        rw [hent, hflat]
        exact append_ne_nil_of_left_ne_nil (Node.firstLeaf_ne_nil ht.order hR) _
      have hnone : ¬∃ e ∈ t.entries, e.1 < fromKey := fun ⟨e, he, hlt⟩ => absurd hlt (not_lt.mpr (hall e he))
      rw [hleaf]
      simp only [hnil, hnone, false_and, false_or]

end Views

/-- After any run, and for any bounds, when the views have the entries of their ranges, in order. -/
theorem range_views_iff [LinearOrder K] (order : Int8) (cardinalityEnabled : Bool) (ops : List (Op K V)) (r : Reference K V)
    (hr : exec Reference.step ⟨.empty, []⟩ ops = some r) :
    ∃ s, exec Session.step ⟨TreeMap.init order cardinalityEnabled, []⟩ ops = some s ∧
      (∀ toKey, Yields s.map (s.map.headMap toKey) (r.map.entries.filter fun e => e.1 ≤ toKey) ↔
        (∃ e ∈ r.map.entries, e.1 = toKey) ∨ ∀ e ∈ r.map.entries, e.1 < toKey) ∧
      (∀ fromKey, Yields s.map (s.map.tailMap fromKey) (r.map.entries.filter fun e => fromKey ≤ e.1) ↔
        r.map.entries = [] ∨ ∃ e ∈ r.map.entries, e.1 < fromKey) ∧
      ∀ fromKey toKey, fromKey ≤ toKey →
        (Yields s.map (s.map.subMap fromKey toKey) (r.map.entries.filter fun e => fromKey ≤ e.1 ∧ e.1 ≤ toKey) ↔
          r.map.entries = [] ∨
            ((∃ e ∈ r.map.entries, e.1 < fromKey) ∧ ((∃ e ∈ r.map.entries, e.1 = toKey) ∨ ∀ e ∈ r.map.entries, e.1 < toKey)) ∨
            s.map.rootIsLeaf ∧ ∀ e ∈ r.map.entries, toKey < e.1) := by
  obtain ⟨s, hs, h⟩ := run_refines order cardinalityEnabled hr
  rw [← h.entries]
  exact ⟨s, hs, headMap_iff h.valid, tailMap_iff h.valid, fun fromKey toKey hle => subMap_iff h.valid hle⟩

/-- In one leaf, bounds between its keys and beyond its last one. -/
theorem range_views_of_two :
    ∃ s, exec Session.step ⟨TreeMap.init 3 false, []⟩ [.put 10 0, .put 20 0] = some s ∧
      Yields s.map (s.map.headMap 10) [(10, 0)] ∧ Yields s.map (s.map.tailMap 15) [(20, 0)] ∧ Yields s.map (s.map.subMap 12 30) [(20, 0)] := by
  obtain ⟨s, hs, hhead, htail, hsub⟩ := range_views_iff (K := Nat) (V := Nat) 3 false [.put 10 0, .put 20 0]
    ⟨⟨[(10, 0), (20, 0)], by decide⟩, [none, none]⟩ rfl
  exact ⟨s, hs, (hhead 10).mpr (by decide), (htail 15).mpr (by decide), (hsub 12 30 (by decide)).mpr (Or.inr (Or.inl (by decide)))⟩

/-- As built: a bound between two keys lets the upper one in, and from the first key on there is nothing. -/
theorem absent_bounds :
    ∃ s : Session Nat Nat, exec Session.step ⟨TreeMap.init 3 false, []⟩ [.put 10 0, .put 20 0] = some s ∧
      ¬Yields s.map (s.map.headMap 15) (s.map.entries.filter fun e => e.1 ≤ 15) ∧
      ¬Yields s.map (s.map.tailMap 10) (s.map.entries.filter fun e => 10 ≤ e.1) ∧
      ¬Yields s.map (s.map.subMap 10 20) (s.map.entries.filter fun e => 10 ≤ e.1 ∧ e.1 ≤ 20) := by
  refine ⟨_, rfl, ?_, ?_, ?_⟩
  · intro ⟨fuel, hfuel⟩
    have h := drain_unique hfuel (show drain _ 3 _ = some [(10, 0), (20, 0)] from rfl)
    revert h
    decide
  · intro ⟨fuel, hfuel⟩
    have h := drain_unique hfuel (show drain _ 1 _ = some [] from rfl)
    revert h
    decide
  · intro ⟨fuel, hfuel⟩
    have h := drain_unique hfuel (show drain _ 1 _ = some [] from rfl)
    revert h
    decide

end DeepFabric.Platform
