/-
  DeepFabric.Platform.TreeNavigation — the entries of a `TreeMap` next to a key.

  `lower` goes down to the last entry below the key and tells on the way, in `*next`, which
  entry follows it; a branch fills `*next` in where the node below it could not. `higher` is
  its mirror. The floor and the ceiling of a key are read off both answers.
-/
import DeepFabric.Lib.Partition
import DeepFabric.Platform.TreeMap
import Mathlib.Data.List.Induction

namespace DeepFabric.Platform

open Lib Lib.Run List Option
open Lib.Partition (getEntry getEntry_append getEntry_none greatest_only least_only only)

variable {K V : Type} [LinearOrder K]

/-! ## Going down -/

/-- An entry next to a key and its place. The key is between it and `beside`: `*next` of
`lower`, `*prev` of `higher`. -/
structure Near (K V : Type) where
  entry : Option (K × V)
  path : List Nat
  index : Nat
  beside : Option (K × V)
  deriving DecidableEq

namespace Leaf

def lowerFrom (os : List (K × V)) (what : K) : Nat → Option (K × V) → Near K V
  | 0, next => ⟨none, [], os.length, next⟩
  | i + 1, next =>
    match os[i]? with
    | some o => if o.1 < what then ⟨some o, [], i, next⟩ else lowerFrom os what i (some o)
    | none => ⟨none, [], os.length, next⟩

def lower (os : List (K × V)) (what : K) : Near K V := lowerFrom os what os.length none

def higherFrom (what : K) : List (K × V) → Nat → Option (K × V) → Near K V
  | [], i, prev => ⟨none, [], i, prev⟩
  | o :: os, i, prev => if what < o.1 then ⟨some o, [], i, prev⟩ else higherFrom what os (i + 1) (some o)

def higher (os : List (K × V)) (what : K) : Near K V := higherFrom what os 0 none

end Leaf

namespace Branch

variable {N : Type}

/-- The node `lower` goes on in: behind the last object below the key. -/
def lowerNode (b : Branch (K × V) N) (what : K) : Nat → Nat
  | 0 => 0
  | i + 1 => if (b.getObject (i + 1)).any fun o => o.1 < what then i + 1 else lowerNode b what i

/-- The node `higher` goes on in: ahead of the first object above the key. -/
def higherNode (what : K) : List ((K × V) × N) → Nat → Nat
  | [], i => i
  | (o, _) :: items, i => if what < o.1 then i else higherNode what items (i + 1)

end Branch

namespace Node

def lower (what : K) : (n : Nat) → Node K V n → Near K V
  | 0, os => Leaf.lower os what
  | n + 1, b =>
    let i := Branch.lowerNode b what (Branch.lastIndex b)
    match Branch.getNode b i with
    | some m =>
      let r := lower what n m
      -- the loop over the objects ends at one below the key, or falls through to the first node
      if r.entry.isNone ∧ 0 < i then ⟨Branch.getObject b i, [], i, r.beside⟩
      else ⟨r.entry, i :: r.path, r.index, if r.beside.isNone ∧ i ≠ Branch.lastIndex b then Branch.getObject b (i + 1) else r.beside⟩
    | none => ⟨none, [], 0, none⟩

def higher (what : K) : (n : Nat) → Node K V n → Near K V
  | 0, os => Leaf.higher os what
  | n + 1, b =>
    let i := Branch.higherNode what b.items 0
    match Branch.getNode b i with
    | some m =>
      let r := higher what n m
      -- falling through is to the last node
      if r.entry.isNone ∧ i < Branch.lastIndex b then ⟨Branch.getObject b (i + 1), [], i + 1, r.beside⟩
      else ⟨r.entry, i :: r.path, r.index, if r.beside.isNone ∧ 0 < i then Branch.getObject b i else r.beside⟩
    | none => ⟨none, [], 0, none⟩

def firstLeaf : (n : Nat) → Node K V n → List (K × V)
  | 0, os => os
  | n + 1, b => firstLeaf n (Branch.first b)

end Node

/-! ## The queries -/

namespace TreeMap

variable (t : TreeMap K V)

def lowerEntry (key : K) : Option (K × V) := t.root.bind fun r => (Node.lower key r.1 r.2).entry

def higherEntry (key : K) : Option (K × V) := t.root.bind fun r => (Node.higher key r.1 r.2).entry

/-- The entry beside an answer is the key's own, or the answer stands. -/
def orEqual (key : K) (r : Near K V) : Option (K × V) :=
  match r.beside with
  | some e => if e.1 = key then some e else r.entry
  | none => r.entry

def floorEntry (key : K) : Option (K × V) := t.root.bind fun r => orEqual key (Node.lower key r.1 r.2)

def ceilingEntry (key : K) : Option (K × V) := t.root.bind fun r => orEqual key (Node.higher key r.1 r.2)

/-- The key of an answer, and `*status`. -/
def keyOf (nullKey : K) (x : Option (K × V)) : K × Bool := (x.elim nullKey Prod.fst, x.isSome)

def lowerKey (nullKey key : K) : K × Bool := keyOf nullKey (t.lowerEntry key)

def higherKey (nullKey key : K) : K × Bool := keyOf nullKey (t.higherEntry key)

def floorKey (nullKey key : K) : K × Bool := keyOf nullKey (t.floorEntry key)

def ceilingKey (nullKey key : K) : K × Bool := keyOf nullKey (t.ceilingEntry key)

end TreeMap

/-! ## What the way down finds -/

section Cut

variable {N : Type} {p q : K → Prop}

/-- Ahead of the node at an index stands an object with `p`, behind it one with `q`. -/
structure Branch.Cut (b : Branch (K × V) N) (p q : K → Prop) (i : Nat) : Prop where
  le : i ≤ b.lastIndex
  ahead : ∀ {o}, b.getObject i = some o → p o.1
  behind : ∀ {o}, b.getObject (i + 1) = some o → q o.1

theorem Branch.lowerNode_cut {b : Branch (K × V) N} {what : K} {n : Nat} (hn : n ≤ b.lastIndex)
    (hq : ∀ {o}, b.getObject (n + 1) = some o → what ≤ o.1) : b.Cut (· < what) (what ≤ ·) (b.lowerNode what n) := by
  induction n with
  | zero => exact ⟨hn, fun h => (by cases h), hq⟩
  | succ n ih =>
    obtain ⟨o, ho⟩ : ∃ o, b.getObject (n + 1) = some o := ⟨_, congrArg (Option.map Prod.fst) (List.getElem?_eq_getElem hn)⟩
    rw [lowerNode, ho, any_some]
    by_cases hlt : o.1 < what
    · rw [if_pos (decide_eq_true hlt)]
      refine ⟨hn, fun {o'} ho' => ?_, hq⟩
      cases ho.symm.trans ho'
      exact hlt
    · rw [if_neg (by simpa using hlt)]
      refine ih (Nat.le_of_succ_le hn) fun {o'} ho' => ?_
      cases ho.symm.trans ho'
      exact not_lt.mp hlt

theorem Branch.higherNode_cut {b : Branch (K × V) N} {what : K} {done rest : List ((K × V) × N)} (hb : b.items = done ++ rest)
    (hp : ∀ {o}, b.getObject done.length = some o → o.1 ≤ what) : b.Cut (· ≤ what) (what < ·) (higherNode what rest done.length) := by
  induction rest generalizing done with
  | nil =>
    have hlen : b.items.length = done.length := by rw [hb, append_nil]
    refine ⟨Nat.le_of_eq hlen.symm, hp, fun {o} ho => ?_⟩
    rw [higherNode, getObject, List.getElem?_eq_none (Nat.le_of_eq hlen)] at ho
    cases ho
  | cons it rest ih =>
    have ho : b.getObject (done.length + 1) = some it.1 := by
      rw [getObject, hb, List.getElem?_append_right (Nat.le_refl _), Nat.sub_self]
      rfl
    rw [higherNode]
    by_cases hlt : what < it.1.1
    · rw [if_pos hlt]
      refine ⟨?_, hp, fun {o'} ho' => ?_⟩
      · rw [lastIndex, hb, length_append]
        exact Nat.le_add_right _ _
      · cases ho.symm.trans ho'
        exact hlt
    · have hlen : (done ++ [it]).length = done.length + 1 := by rw [length_append]; rfl
      rw [if_neg hlt, ← hlen]
      refine ih (by rw [hb, append_assoc]; rfl) fun {o'} ho' => ?_
      rw [hlen] at ho'
      cases ho.symm.trans ho'
      exact not_lt.mp hlt

end Cut

namespace Branch

variable {N : Type} (g : N → List (K × V)) {b : Branch (K × V) N} {i : Nat}

omit [LinearOrder K] in
theorem before_succ {m : N} {o : K × V} (hm : b.getNode i = some m) (ho : b.getObject (i + 1) = some o) :
    before g b.first b.items (i + 1) = before g b.first b.items i ++ g m ++ [o] := by
  obtain ⟨n, items⟩ := b
  induction items generalizing n i with
  | nil => cases ho
  | cons it items ih =>
    cases i with
    | zero =>
      cases hm
      cases ho
      simp [before]
    | succ i =>
      show g n ++ it.1 :: before g it.2 items (i + 1) = g n ++ it.1 :: before g it.2 items i ++ g m ++ [o]
      rw [show before g it.2 items (i + 1) = _ from ih it.2 hm ho]
      simp

variable {p q : K → Prop}

theorem Cut.entries (h : b.Cut p q i) (hs : (flat g b).Pairwise fun a b => a.1 < b.1) (hp : ∀ {x y}, x ≤ y → p y → p x)
    (hq : ∀ {x y}, x ≤ y → q x → q y) :
    (∀ e ∈ before g b.first b.items i, p e.1) ∧ ∀ e ∈ after g b.items i, q e.1 := by
  obtain ⟨m, hm⟩ := getNode_isSome h.le
  rw [flat_at hm] at hs
  obtain ⟨hs1, hafter, -⟩ := pairwise_append.mp hs
  obtain ⟨hbefore, -, -⟩ := pairwise_append.mp hs1
  refine ⟨Partition.forall_of_getLast? (hbefore.imp fun hlt => hp (le_of_lt hlt)) fun x hx => h.ahead ?_,
    Partition.forall_of_head? (hafter.imp fun hlt => hq (le_of_lt hlt)) fun x hx => h.behind ?_⟩
  · rw [← getLast?_before g h.le, hx]
  · rw [← head?_after g, hx]

end Branch

namespace Node

/-- What `lower` gives. Below all keys the place is behind the first leaf. -/
inductive Lower (what : K) (n : Nat) (node : Node K V n) (r : Near K V) : Prop
  | entry {x : K × V} {pre post : List (K × V)} : r.entry = some x → On n node r.path r.index pre x post → x.1 < what →
      (∀ e ∈ post, what ≤ e.1) → r.beside = post.head? → Lower what n node r
  | none : r.entry = none → r.path = List.replicate n 0 → r.index = (firstLeaf n node).length → (∀ e ∈ flat n node, what ≤ e.1) →
      r.beside = (flat n node).head? → Lower what n node r

inductive Higher (what : K) (n : Nat) (node : Node K V n) (r : Near K V) : Prop
  | entry {x : K × V} {pre post : List (K × V)} : r.entry = some x → On n node r.path r.index pre x post → what < x.1 →
      (∀ e ∈ pre, e.1 ≤ what) → r.beside = pre.getLast? → Higher what n node r
  | none : r.entry = none → (∀ e ∈ flat n node, e.1 ≤ what) → r.beside = (flat n node).getLast? → Higher what n node r

theorem lowerFrom_lower {os : List (K × V)} {what : K} {pre post : List (K × V)} (hos : os = pre ++ post) (hpost : ∀ e ∈ post, what ≤ e.1) :
    Lower what 0 os (Leaf.lowerFrom os what pre.length post.head?) := by
  induction pre using List.reverseRecOn generalizing post with
  | nil =>
    subst hos
    exact .none rfl rfl rfl hpost rfl
  | append_singleton pre o ih =>
    have ho : os[pre.length]? = some o := by
      rw [hos, append_assoc, List.getElem?_append_right (Nat.le_refl _), Nat.sub_self]
      rfl
    have hos' : os = pre ++ o :: post := by rw [hos, append_assoc]; rfl
    rw [length_append, length_singleton, Leaf.lowerFrom, ho]
    by_cases hlt : o.1 < what
    · simp only [if_pos hlt]
      exact .entry rfl ⟨rfl, rfl, hos'⟩ hlt hpost rfl
    · simp only [if_neg hlt]
      refine ih hos' fun e he => ?_
      rcases mem_cons.mp he with rfl | he
      · exact not_lt.mp hlt
      · exact hpost e he

theorem higherFrom_higher {os : List (K × V)} {what : K} {pre post : List (K × V)} (hos : os = pre ++ post) (hpre : ∀ e ∈ pre, e.1 ≤ what) :
    Higher what 0 os (Leaf.higherFrom what post pre.length pre.getLast?) := by
  induction post generalizing pre with
  | nil =>
    rw [append_nil] at hos
    subst hos
    exact .none rfl hpre rfl
  | cons o post ih =>
    rw [Leaf.higherFrom]
    by_cases hlt : what < o.1
    · rw [if_pos hlt]
      exact .entry rfl ⟨rfl, rfl, hos⟩ hlt hpre rfl
    · have hlen : pre.length + 1 = (pre ++ [o]).length := by rw [length_append]; rfl
      rw [if_neg hlt, hlen, ← List.getLast?_concat (l := pre)]
      refine ih (by rw [hos, append_assoc]; rfl) fun e he => ?_
      rcases mem_append.mp he with he | he
      · exact hpre e he
      · rw [mem_singleton.mp he]
        exact not_lt.mp hlt

variable {order : Nat}

variable {n : Nat}

omit [LinearOrder K] in
theorem exists_entry (ho : 3 ≤ order) {node : Node K V n} (h : (kind order n).Fits (Inner order n) (least order n) node) :
    flat n node ≠ [] := by
  obtain ⟨x, post, -, hon⟩ := firstLeaf_on ho h
  rw [hon.flat]
  exact cons_ne_nil _ _

variable {b : Branch (K × V) (Node K V n)}

omit [LinearOrder K] in
theorem on_ahead {k : Nat} {m : Node K V n} (hm : b.getNode (k + 1) = some m) :
    ∃ o pre, b.getObject (k + 1) = some o ∧ Branch.before (flat n) b.first b.items (k + 1) = pre ++ [o] ∧
      On (n + 1) b [] (k + 1) pre o (flat n m ++ Branch.after (flat n) b.items (k + 1)) := by
  obtain ⟨o, ho⟩ := Branch.item_of_getNode hm
  obtain ⟨pre, hpre, -⟩ := Branch.modify_object (flat n) b.first ho
  exact ⟨o, pre, by rw [Branch.getObject, ho]; rfl, hpre, k, m, rfl, ho, hpre, rfl⟩

variable {i : Nat}

omit [LinearOrder K] in
theorem on_behind {m : Node K V n} (hm : b.getNode i = some m)
    (hlt : i < b.lastIndex) : ∃ o post, b.getObject (i + 1) = some o ∧ Branch.after (flat n) b.items i = o :: post ∧
      On (n + 1) b [] (i + 1) (Branch.before (flat n) b.first b.items i ++ flat n m) o post := by
  obtain ⟨m', hm'⟩ := Branch.getNode_isSome (show i + 1 ≤ b.lastIndex from hlt)
  obtain ⟨o, ho⟩ := Branch.item_of_getNode hm'
  have hobj : b.getObject (i + 1) = some o := by rw [Branch.getObject, ho]; rfl
  have hafter : Branch.after (flat n) b.items i = o :: (flat n m' ++ Branch.after (flat n) b.items (i + 1)) := by
    obtain ⟨h, hget⟩ := List.getElem?_eq_some_iff.mp ho
    rw [Branch.after, drop_eq_getElem_cons h, hget]
    rfl
  exact ⟨o, _, hobj, hafter, i, m', rfl, ho, Branch.before_succ _ hm hobj, rfl⟩

omit [LinearOrder K] in
theorem head?_patched (post : List (K × V)) :
    (if post.head?.isNone ∧ i ≠ b.lastIndex then b.getObject (i + 1) else post.head?) = (post ++ Branch.after (flat n) b.items i).head? := by
  cases post with
  | nil =>
    rw [nil_append, Branch.head?_after]
    split_ifs with h
    · rfl
    · have hi : i = b.lastIndex := not_not.mp fun hi => h ⟨rfl, hi⟩
      rw [← Branch.head?_after (flat n), hi, Branch.after_last]
  | cons e post => rfl

omit [LinearOrder K] in
theorem getLast?_patched (hi : i ≤ b.lastIndex) (pre : List (K × V)) :
    (if pre.getLast?.isNone ∧ 0 < i then b.getObject i else pre.getLast?) = (Branch.before (flat n) b.first b.items i ++ pre).getLast? := by
  rw [List.getLast?_append, Branch.getLast?_before _ hi]
  rcases List.eq_nil_or_concat' pre with rfl | ⟨pre, e, rfl⟩
  · cases i with
    | zero => rfl
    | succ i => rfl
  · rw [List.getLast?_concat]
    rfl

/-- The node below a cut, its entries in order, and those on both sides. -/
theorem entries_at_cut {p q : K → Prop} (hcut : b.Cut p q i)
    (hin : Inner order (n + 1) b) (hs : (flat (n + 1) b).Pairwise fun a b => a.1 < b.1) (hp : ∀ {x y}, x ≤ y → p y → p x)
    (hq : ∀ {x y}, x ≤ y → q x → q y) :
    ∃ m, b.getNode i = some m ∧ (kind order n).Fits (Inner order n) (least order n) m ∧ ((flat n m).Pairwise fun a b => a.1 < b.1) ∧
      flat (n + 1) b = Branch.before (flat n) b.first b.items i ++ flat n m ++ Branch.after (flat n) b.items i ∧
      (∀ e ∈ Branch.before (flat n) b.first b.items i, p e.1) ∧ ∀ e ∈ Branch.after (flat n) b.items i, q e.1 := by
  obtain ⟨m, hm⟩ := Branch.getNode_isSome hcut.le
  have hflat : flat (n + 1) b = Branch.before (flat n) b.first b.items i ++ flat n m ++ Branch.after (flat n) b.items i := Branch.flat_at hm
  obtain ⟨hbefore, hafter⟩ := hcut.entries (flat n) hs hp hq
  refine ⟨m, hm, hin m (Branch.mem_nodes.mpr ⟨i, hm⟩), ?_, hflat, hbefore, hafter⟩
  rw [hflat] at hs
  exact (pairwise_append.mp (pairwise_append.mp hs).1).2.1

theorem lower_spec (ho : 3 ≤ order) (what : K) : ∀ {n : Nat} {node : Node K V n}, Inner order n node →
    (flat n node).Pairwise (fun a b => a.1 < b.1) → Lower what n node (lower what n node)
  | 0, os, _, _ => lowerFrom_lower (append_nil os).symm (forall_mem_nil _)
  | n + 1, b, hin, hs => by
    obtain ⟨i, hi⟩ : ∃ i, i = Branch.lowerNode b what (Branch.lastIndex b) := ⟨_, rfl⟩
    have hcut : Branch.Cut b (· < what) (what ≤ ·) i := by
      rw [hi]
      refine Branch.lowerNode_cut (Nat.le_refl _) fun {o} ho => ?_
      rw [← Branch.head?_after (flat n), Branch.after_last] at ho
      cases ho
    obtain ⟨m, hm, hFm, hsm, hflat, hbefore, hafter⟩ := entries_at_cut hcut hin hs (fun h => lt_of_le_of_lt h) (fun h h' => le_trans h' h)
    obtain ⟨r, hr⟩ : ∃ r, r = lower what n m := ⟨_, rfl⟩
    have hlower : lower what (n + 1) b =
        if r.entry.isNone ∧ 0 < i then ⟨Branch.getObject b i, [], i, r.beside⟩
        else ⟨r.entry, i :: r.path, r.index, if r.beside.isNone ∧ i ≠ Branch.lastIndex b then Branch.getObject b (i + 1) else r.beside⟩ := by
      simp only [lower, ← hi, hm, ← hr]
    rw [hlower]
    cases hr ▸ lower_spec ho what hFm.inner hsm with
    | @entry x pre post hx hon hlt hpost hb =>
      rw [if_neg (by simp [hx]), hx, hb, head?_patched]
      refine .entry rfl ⟨m, pre, post, hm, hon, rfl, rfl⟩ hlt (fun e he => ?_) rfl
      exact (mem_append.mp he).elim (hpost e) (hafter e)
    | none hx hpath hindex hall hb =>
      have hge : ∀ e ∈ flat n m ++ Branch.after (flat n) b.items i, what ≤ e.1 := fun e he =>
        (mem_append.mp he).elim (hall e) (hafter e)
      cases i with
      | zero =>
        cases hm
        have hflat' : flat (n + 1) b = flat n b.first ++ Branch.after (flat n) b.items 0 := hflat.trans (by cases b.items <;> rfl)
        rw [if_neg (by simp), hx, hb, head?_patched, ← hflat']
        rw [← hflat'] at hge
        exact .none rfl (congrArg (0 :: ·) hpath) hindex hge rfl
      | succ k =>
        obtain ⟨o, pre, hobj, hpre, hon⟩ := on_ahead hm
        rw [if_pos ⟨by rw [hx]; rfl, Nat.succ_pos k⟩, hobj]
        refine .entry rfl hon (hcut.ahead hobj) hge ?_
        show r.beside = _
        rw [hb, List.head?_append_of_ne_nil _ (exists_entry ho hFm)]

theorem higher_spec (ho : 3 ≤ order) (what : K) : ∀ {n : Nat} {node : Node K V n}, Inner order n node →
    (flat n node).Pairwise (fun a b => a.1 < b.1) → Higher what n node (higher what n node)
  | 0, os, _, _ => higherFrom_higher (nil_append os).symm (forall_mem_nil _)
  | n + 1, b, hin, hs => by
    obtain ⟨i, hi⟩ : ∃ i, i = Branch.higherNode what b.items 0 := ⟨_, rfl⟩
    have hcut : Branch.Cut b (· ≤ what) (what < ·) i := by
      rw [hi]
      exact Branch.higherNode_cut (nil_append b.items).symm fun {o} ho => by cases ho
    obtain ⟨m, hm, hFm, hsm, hflat, hbefore, hafter⟩ := entries_at_cut hcut hin hs (fun h h' => le_trans h h') (fun h h' => lt_of_lt_of_le h' h)
    obtain ⟨r, hr⟩ : ∃ r, r = higher what n m := ⟨_, rfl⟩
    have hhigher : higher what (n + 1) b =
        if r.entry.isNone ∧ i < Branch.lastIndex b then ⟨Branch.getObject b (i + 1), [], i + 1, r.beside⟩
        else ⟨r.entry, i :: r.path, r.index, if r.beside.isNone ∧ 0 < i then Branch.getObject b i else r.beside⟩ := by
      simp only [higher, ← hi, hm, ← hr]
    rw [hhigher]
    cases hr ▸ higher_spec ho what hFm.inner hsm with
    | @entry x pre post hx hon hlt hpre hb =>
      rw [if_neg (by simp [hx]), hx, hb, getLast?_patched hcut.le]
      refine .entry rfl ⟨m, pre, post, hm, hon, rfl, rfl⟩ hlt (fun e he => ?_) rfl
      exact (mem_append.mp he).elim (hbefore e) (hpre e)
    | none hx hall hb =>
      have hle : ∀ e ∈ Branch.before (flat n) b.first b.items i ++ flat n m, e.1 ≤ what := fun e he =>
        (mem_append.mp he).elim (hbefore e) (hall e)
      by_cases hlt : i < Branch.lastIndex b
      · obtain ⟨o, post, hobj, hpost, hon⟩ := on_behind hm hlt
        rw [if_pos ⟨by rw [hx]; rfl, hlt⟩, hobj]
        refine .entry rfl hon (hcut.behind hobj) hle ?_
        show r.beside = _
        rw [hb, List.getLast?_append_of_ne_nil _ (exists_entry ho hFm)]
      · have hlast : i = Branch.lastIndex b := Nat.le_antisymm hcut.le (Nat.le_of_not_lt hlt)
        have hflat' : flat (n + 1) b = Branch.before (flat n) b.first b.items i ++ flat n m := by
          rw [hflat, hlast, Branch.after_last, append_nil]
        rw [if_neg (by simp [hlt]), hx, hb, getLast?_patched hcut.le, ← hflat']
        rw [← hflat'] at hle
        exact .none rfl hle rfl

end Node

/-! ## The queries of a map -/

namespace TreeMap

theorem orEqual_eq (key : K) (r : Near K V) : orEqual key r = (r.beside.filter fun e => e.1 = key).or r.entry := by
  rw [orEqual]
  cases r.beside with
  | none => rfl
  | some e =>
    rw [filter_some]
    by_cases h : e.1 = key <;> simp [h]

variable {t : TreeMap K V} (ht : t.Valid)

include ht

theorem lower_cut {n : Nat} {node : Node K V n} (hroot : t.root = some ⟨n, node⟩) (key : K) :
    ∃ front back, t.entries = front ++ back ∧ (∀ e ∈ front, e.1 < key) ∧ (∀ e ∈ back, key ≤ e.1) ∧
      (Node.lower key n node).entry = front.getLast? ∧ (Node.lower key n node).beside = back.head? := by
  have hent := entries_of_root hroot
  have hs := ht.sorted
  rw [hent] at hs ⊢
  cases Node.lower_spec ht.order key (ht.root hroot).1 hs with
  | @entry x pre post hx hon hlt hpost hb =>
    rw [hon.flat] at hs ⊢
    refine ⟨pre ++ [x], post, by rw [append_assoc]; rfl, fun e he => ?_, hpost, by rw [hx, List.getLast?_concat], hb⟩
    rcases mem_append.mp he with he | he
    · exact lt_trans ((pairwise_append.mp hs).2.2 e he x mem_cons_self) hlt
    · rw [mem_singleton.mp he]
      exact hlt
  | none hx _ _ hall hb => exact ⟨[], Node.flat n node, rfl, forall_mem_nil _, hall, hx, hb⟩

theorem higher_cut {n : Nat} {node : Node K V n} (hroot : t.root = some ⟨n, node⟩) (key : K) :
    ∃ front back, t.entries = front ++ back ∧ (∀ e ∈ front, e.1 ≤ key) ∧ (∀ e ∈ back, key < e.1) ∧
      (Node.higher key n node).entry = back.head? ∧ (Node.higher key n node).beside = front.getLast? := by
  have hent := entries_of_root hroot
  have hs := ht.sorted
  rw [hent] at hs ⊢
  cases Node.higher_spec ht.order key (ht.root hroot).1 hs with
  | @entry x pre post hx hon hlt hpre hb =>
    rw [hon.flat] at hs ⊢
    refine ⟨pre, x :: post, rfl, hpre, fun e he => ?_, hx, hb⟩
    rcases mem_cons.mp he with rfl | he
    · exact hlt
    · exact lt_trans hlt ((pairwise_cons.mp (pairwise_append.mp hs).2.1).1 e he)
  | none hx hall hb => exact ⟨Node.flat n node, [], (append_nil _).symm, hall, forall_mem_nil _, hx, hb⟩

theorem lowerEntry_eq (key : K) : t.lowerEntry key = Partition.lowerEntry t.entries key := by
  rcases hroot : t.root with _ | ⟨n, node⟩
  · rw [lowerEntry, hroot, entries_nil hroot]
    rfl
  · obtain ⟨front, back, hent, hfront, hback, hentry, -⟩ := lower_cut ht hroot key
    rw [lowerEntry, hroot, bind_some, hentry, hent, Partition.lowerEntry_append, Partition.lowerEntry_above hback,
      Partition.lowerEntry_below hfront, none_or]

theorem higherEntry_eq (key : K) : t.higherEntry key = Partition.higherEntry t.entries key := by
  rcases hroot : t.root with _ | ⟨n, node⟩
  · rw [higherEntry, hroot, entries_nil hroot]
    rfl
  · obtain ⟨front, back, hent, hfront, hback, hentry, -⟩ := higher_cut ht hroot key
    rw [higherEntry, hroot, bind_some, hentry, hent, Partition.higherEntry_append, Partition.higherEntry_below hfront,
      Partition.higherEntry_above hback, none_or]

theorem floorEntry_eq (key : K) : t.floorEntry key = Partition.floorEntry t.entries key := by
  rw [Partition.floorEntry_eq ht.sorted, ← lowerEntry_eq ht]
  rcases hroot : t.root with _ | ⟨n, node⟩
  · rw [floorEntry, lowerEntry, hroot, entries_nil hroot]
    rfl
  · obtain ⟨front, back, hent, hfront, hback, -, hbeside⟩ := lower_cut ht hroot key
    have hs := ht.sorted
    rw [hent] at hs
    have hget : getEntry t.entries key = back.head?.filter fun e => e.1 = key := by
      rw [hent, getEntry_append, getEntry_none fun e he => ne_of_lt (hfront e he), none_or,
        Partition.getEntry_above (pairwise_append.mp hs).2.1 hback]
    rw [hget, floorEntry, lowerEntry, hroot, bind_some, bind_some, orEqual_eq, hbeside]

theorem ceilingEntry_eq (key : K) : t.ceilingEntry key = Partition.ceilingEntry t.entries key := by
  rw [Partition.ceilingEntry_eq ht.sorted, ← higherEntry_eq ht]
  rcases hroot : t.root with _ | ⟨n, node⟩
  · rw [ceilingEntry, higherEntry, hroot, entries_nil hroot]
    rfl
  · obtain ⟨front, back, hent, hfront, hback, -, hbeside⟩ := higher_cut ht hroot key
    have hs := ht.sorted
    rw [hent] at hs
    have hget : getEntry t.entries key = front.getLast?.filter fun e => e.1 = key := by
      rw [hent, getEntry_append, getEntry_none (l := back) fun e he => ne_of_gt (hback e he), or_none,
        Partition.getEntry_below (pairwise_append.mp hs).1 hfront]
    rw [hget, ceilingEntry, higherEntry, hroot, bind_some, bind_some, orEqual_eq, hbeside]

end TreeMap

/-! ## After any run -/

/-- What a query says of a partial map: it has no entry, and says so, only if no key is bound. -/
structure Says (f : K → Option V) (x : Option (K × V)) (answer : K × Bool) : Prop where
  nothing : x = none ↔ ∀ k, f k = none
  status : answer.2 = false ↔ ∀ k, f k = none
  key : answer.2 = true → ∃ v, x = some (answer.1, v)

variable {f : K → Option V} {x : Option (K × V)}

omit [LinearOrder K] in
theorem says_keyOf (hnone : x = none → ∀ k, f k = none)
    (hsome : ∀ e, x = some e → f e.1 = some e.2) (nullKey : K) : Says f x (TreeMap.keyOf nullKey x) := by
  cases x with
  | none => exact ⟨iff_of_true rfl (hnone rfl), iff_of_true rfl (hnone rfl), fun h => by cases h⟩
  | some e =>
    have hno : ¬∀ k, f k = none := fun hall => by cases (hsome e rfl).symm.trans (hall e.1)
    exact ⟨iff_of_false (some_ne_none e) hno, iff_of_false (fun h => by cases h) hno, fun _ => ⟨e.2, rfl⟩⟩

theorem says_of_greatest (h : Partition.Greatest f x) (nullKey : K) :
    Says f x (TreeMap.keyOf nullKey x) := by
  refine says_keyOf ?_ ?_ nullKey
  · rintro rfl
    exact h
  · rintro e rfl
    exact h.1

theorem says_of_least (h : Partition.Least f x) (nullKey : K) :
    Says f x (TreeMap.keyOf nullKey x) := by
  refine says_keyOf ?_ ?_ nullKey
  · rintro rfl
    exact h
  · rintro e rfl
    exact h.1

/-- The queries of a map about a key, by the partial map it holds. -/
structure Navigates (f : K → Option V) (t : TreeMap K V) (key nullKey : K) : Prop where
  lower : Partition.Greatest (only (· < key) f) (t.lowerEntry key)
  floor : Partition.Greatest (only (· ≤ key) f) (t.floorEntry key)
  higher : Partition.Least (only (key < ·) f) (t.higherEntry key)
  ceiling : Partition.Least (only (key ≤ ·) f) (t.ceilingEntry key)
  lowerKey : Says (only (· < key) f) (t.lowerEntry key) (t.lowerKey nullKey key)
  floorKey : Says (only (· ≤ key) f) (t.floorEntry key) (t.floorKey nullKey key)
  higherKey : Says (only (key < ·) f) (t.higherEntry key) (t.higherKey nullKey key)
  ceilingKey : Says (only (key ≤ ·) f) (t.ceilingEntry key) (t.ceilingKey nullKey key)

theorem TreeMap.navigates {t : TreeMap K V} (ht : t.Valid) (hf : ∀ k v, (k, v) ∈ t.entries ↔ f k = some v)
    (key nullKey : K) : Navigates f t key nullKey := by
  have hlower : Partition.Greatest (only (· < key) f) (t.lowerEntry key) := by
    rw [lowerEntry_eq ht]
    exact greatest_only ht.sorted hf _
  have hfloor : Partition.Greatest (only (· ≤ key) f) (t.floorEntry key) := by
    rw [floorEntry_eq ht]
    exact greatest_only ht.sorted hf _
  have hhigher : Partition.Least (only (key < ·) f) (t.higherEntry key) := by
    rw [higherEntry_eq ht]
    exact least_only ht.sorted hf _
  have hceiling : Partition.Least (only (key ≤ ·) f) (t.ceilingEntry key) := by
    rw [ceilingEntry_eq ht]
    exact least_only ht.sorted hf _
  exact ⟨hlower, hfloor, hhigher, hceiling, says_of_greatest hlower nullKey, says_of_greatest hfloor nullKey,
    says_of_least hhigher nullKey, says_of_least hceiling nullKey⟩

/-- After any run, and for any key, the queries answer by the map the operations describe. -/
theorem navigation_queries (order : Int8) (cardinalityEnabled : Bool) (ops : List (Op K V)) (r : Reference K V)
    (hr : exec Reference.step ⟨.empty, []⟩ ops = some r) :
    ∃ s, exec Session.step ⟨TreeMap.init order cardinalityEnabled, []⟩ ops = some s ∧ ∀ key nullKey, Navigates r.map.get s.map key nullKey := by
  obtain ⟨s, hs, h⟩ := run_refines order cardinalityEnabled hr
  refine ⟨s, hs, fun key nullKey => TreeMap.navigates h.valid (fun k v => ?_) key nullKey⟩
  rw [h.entries]
  exact SortedMap.mem_entries

/-- At a key that was taken out of a branch. -/
theorem navigation_around_five :
    ∃ s, exec Session.step ⟨TreeMap.init 3 false, []⟩
        [.put 8 0, .put 3 0, .put 5 0, .put 1 0, .add 7 0 false, .put 2 0, .put 6 0, .put 4 0, .append 9 1, .put 3 2, .remove 5] = some s ∧
      Navigates (⟨[(1, 0), (2, 0), (3, 2), (4, 0), (6, 0), (7, 0), (8, 0), (9, 1)], by decide⟩ : SortedMap Nat Nat).get s.map 5 0 := by
  obtain ⟨s, hs, hall⟩ := navigation_queries (K := Nat) (V := Nat) 3 false
    [.put 8 0, .put 3 0, .put 5 0, .put 1 0, .add 7 0 false, .put 2 0, .put 6 0, .put 4 0, .append 9 1, .put 3 2, .remove 5]
    ⟨⟨[(1, 0), (2, 0), (3, 2), (4, 0), (6, 0), (7, 0), (8, 0), (9, 1)], by decide⟩,
      [some (5, 0), some (3, 0), none, none, none, none, none, none, none, none, none]⟩ (by rfl)
  exact ⟨s, hs, hall 5 0⟩

end DeepFabric.Platform
