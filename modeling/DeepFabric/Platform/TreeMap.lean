/-
  DeepFabric.Platform.TreeMap — `TreeMap`, the sorted map in memory, and that it is one.

  A search goes down from the root and ends either at an entry or at the place in a leaf
  where the key belongs; `put`, `add` and `remove` start from there. The comparator is a
  linear order on the keys.

  Left out: the `INDEX_REF` modification count, and here the counts of `CARDINALITY`.
-/
import DeepFabric.Lib.Partition
import DeepFabric.Lib.Run
import DeepFabric.Lib.SortedMap
import DeepFabric.Platform.TreeNode
import Mathlib.Data.Nat.Basic
import Mathlib.Order.Defs.LinearOrder

namespace DeepFabric.Platform

open Lib Lib.Run List
open Option (map_eq_some_iff map_some mem_def)
open Prod (fst)
open SortedMap (ext insertEntry)

variable {K V : Type} [LinearOrder K]

/-! ## Finding a key -/

/-- The scan that ends the search: the first key above the one asked for. -/
def scan (keys : List K) (what : K) (start : Nat) : Option Nat → Nat × Bool
  | none => (keys.length, false)
  | some last =>
    (((List.range' start (last + 1 - start)).find? fun i => keys[i]?.any (what < ·)).getD keys.length, false)

/-- `finish` is one above the source's. -/
def probe (keys : List K) (what : K) : Nat → Nat → Nat → Option Nat → Nat × Bool
  | 0, start, _, last => scan keys what start last
  | fuel + 1, start, finish, last =>
    if start < finish then
      let mid := (start + (finish - 1)) / 2
      match keys[mid]? with
      | none => (keys.length, false)
      | some key =>
        if key = what then (mid, true)
        else if key < what then probe keys what fuel (mid + 1) finish last
        else probe keys what fuel start mid (some (finish - 1))
    else scan keys what start last

def search (keys : List K) (what : K) : Nat × Bool := probe keys what keys.length 0 keys.length none

structure Found (K V : Type) where
  entry : Option (K × V)
  path : List Nat
  index : Nat
  last : Bool

def Node.find (key : K) : (n : Nat) → Node K V n → Found K V
  | 0, os =>
    let (i, hit) := search (List.map fst os) key
    ⟨if hit then (show List (K × V) from os)[i]? else none, [], i, !hit && i == List.length os⟩
  | n + 1, b =>
    let (i, hit) := search (b.items.map fun it => it.1.1) key
    if hit then ⟨Branch.getObject b (i + 1), [], i + 1, false⟩
    else
      match Branch.getNode b i with
      | some m =>
        let f := find key n m
        ⟨f.entry, i :: f.path, f.index, i == Branch.lastIndex b && f.last⟩
      | none => ⟨none, [], 0, false⟩

/-- The way down that a search of each node's keys leads, and what the searches carry along. -/
def Node.findBy {σ : Type} (seek : List K → σ → (Nat × Bool) × σ) : (n : Nat) → Node K V n → σ → Found K V × σ
  | 0, os, st =>
    let ((i, hit), st) := seek (List.map fst os) st
    (⟨if hit then (show List (K × V) from os)[i]? else none, [], i, !hit && i == List.length os⟩, st)
  | n + 1, b, st =>
    let ((i, hit), st) := seek (b.items.map fun it => it.1.1) st
    if hit then (⟨Branch.getObject b (i + 1), [], i + 1, false⟩, st)
    else
      match Branch.getNode b i with
      | some m =>
        let (f, st) := findBy seek n m st
        (⟨f.entry, i :: f.path, f.index, i == Branch.lastIndex b && f.last⟩, st)
      | none => (⟨none, [], 0, false⟩, st)

/-- The way to the last leaf, and how many objects it has. -/
def Node.lastLeaf : (n : Nat) → Node K V n → List Nat × Nat
  | 0, os => ([], List.length os)
  | n + 1, b =>
    match Branch.getNode b (Branch.lastIndex b) with
    | some m => (Branch.lastIndex b :: (lastLeaf n m).1, (lastLeaf n m).2)
    | none => ([], 0)

/-! ## The map -/

structure TreeMap (K V : Type) where
  order : Nat
  cardinalityEnabled : Bool
  root : Option ((n : Nat) × Node K V n)
  pEntries : Nat

namespace TreeMap

def initialOrder : Int := 3

def init (order : Int8) (cardinalityEnabled : Bool) : TreeMap K V where
  order := (if order.toInt < initialOrder then initialOrder else order.toInt).toNat
  cardinalityEnabled := cardinalityEnabled
  root := none
  pEntries := 0

variable (t : TreeMap K V)

def entries : List (K × V) := t.root.elim [] fun r => Node.flat r.1 r.2

def size : Nat := t.pEntries

def find (key : K) : Option (K × V) := t.root.bind fun r => (Node.find key r.1 r.2).entry

def get (key : K) : Option V := (t.find key).map Prod.snd

def containsKey (key : K) : Bool := (t.find key).isSome

def newRoot (key : K) (val : V) : TreeMap K V := { t with root := some ⟨0, [(key, val)]⟩, pEntries := t.pEntries + 1 }

/-- `n->insert`, with `notifyRootFull` for the root. -/
def insert (n : Nat) (node : Node K V n) (path : List Nat) (index : Nat) (obj : K × V) (sequential : Bool) :
    Option (TreeMap K V) := do
  let (node, notify) ← Node.insert t.order obj sequential n node path index
  let root : (n : Nat) × Node K V n ← if notify then ((Node.kind t.order n).split node).map fun b => ⟨n + 1, b⟩ else some ⟨n, node⟩
  return { t with root := some root, pEntries := t.pEntries + 1 }

def put (key : K) (val : V) : Option (TreeMap K V × Option (K × V)) :=
  match t.root with
  | some ⟨n, node⟩ =>
    let f := Node.find key n node
    match f.entry with
    | some x => (Node.assign (key, val) n node f.path f.index).map fun node => ({ t with root := some ⟨n, node⟩ }, some x)
    | none => (t.insert n node f.path f.index (key, val) false).map fun t => (t, none)
  | none => some (t.newRoot key val, none)

def add (key : K) (val : V) (replace : Bool) : Option (TreeMap K V × Option (K × V) × Bool) :=
  match t.root with
  | some ⟨n, node⟩ =>
    let f := Node.find key n node
    match f.entry with
    | some x =>
      if replace then
        (Node.assign (key, val) n node f.path f.index).map fun node => ({ t with root := some ⟨n, node⟩ }, some x, f.last)
      else some (t, some x, f.last)
    | none =>
      (t.insert n node f.path f.index (key, val) f.last).map fun t => (t, none, !t.cardinalityEnabled && f.last)
  | none => some (t.newRoot key val, none, !t.cardinalityEnabled)

/-- `add` without a search. -/
def append (key : K) (val : V) : Option (TreeMap K V) :=
  match t.root with
  | some ⟨n, node⟩ => t.insert n node (Node.lastLeaf n node).1 (Node.lastLeaf n node).2 (key, val) true
  | none => some (t.newRoot key val)

def clear : TreeMap K V :=
  match t.root with
  | some _ => { t with root := none, pEntries := 0 }
  | none => t

def notifyRootEmpty : (n : Nat) → Node K V n → Option ((n : Nat) × Node K V n)
  | 0, _ => none
  | n + 1, b => some ⟨n, Branch.first b⟩

def remove (key : K) : Option (TreeMap K V × Option (K × V)) :=
  match t.root with
  | some ⟨n, node⟩ =>
    let f := Node.find key n node
    match f.entry with
    | some x => do
      let (node, notify) ← Node.remove t.order n node f.path f.index
      let root := if notify && (Node.kind t.order n).physicalEntries node == 0 then notifyRootEmpty n node else some ⟨n, node⟩
      let t : TreeMap K V := { t with root := root, pEntries := t.pEntries - 1 }
      return (if t.size = 0 then t.clear else t, some x)
    | none => some (t, none)
  | none => some (t, none)

end TreeMap

/-! ## What a search finds -/

/-- A key that is not there has the smaller keys before its place and the greater ones after. -/
structure Searched (keys : List K) (what : K) (r : Nat × Bool) : Prop where
  hit : r.2 = true → keys[r.1]? = some what
  le : r.1 ≤ keys.length
  below : r.2 = false → ∀ {j key}, j < r.1 → keys[j]? = some key → key < what
  above : r.2 = false → ∀ {j key}, r.1 ≤ j → keys[j]? = some key → what < key

/-- What the binary search knows of the keys outside the ones still in question, and of those the scan goes over. -/
structure Window (keys : List K) (what : K) (start finish : Nat) (last : Option Nat) : Prop where
  le : start ≤ finish
  length : finish ≤ keys.length
  below : ∀ {j key}, j < start → keys[j]? = some key → key < what
  above : ∀ {j key}, finish ≤ j → keys[j]? = some key → what < key
  unscanned : last = none → finish = keys.length
  scanned : ∀ {l}, last = some l → finish ≤ l ∧ l < keys.length

namespace Window

variable {keys : List K} {what : K} {start finish mid : Nat} {last : Option Nat}

theorem init (keys : List K) (what : K) : Window keys what 0 keys.length none where
  le := Nat.zero_le _
  length := Nat.le_refl _
  below := fun h => absurd h (Nat.not_lt_zero _)
  above := fun hj hk => absurd (List.getElem?_eq_some_iff.mp hk).1 (Nat.not_lt.mpr hj)
  unscanned := fun _ => rfl
  scanned := fun h => by cases h

theorem up (h : Window keys what start finish last) (hs : keys.Pairwise (· < ·)) (hm : mid < finish) {key : K} (hk : keys[mid]? = some key)
    (hlt : key < what) : Window keys what (mid + 1) finish last := by
  obtain ⟨hmid, rfl⟩ := List.getElem?_eq_some_iff.mp hk
  refine ⟨hm, h.length, fun {j key} hj hjk => ?_, h.above, h.unscanned, h.scanned⟩
  rcases Nat.lt_or_eq_of_le (Nat.le_of_lt_succ hj) with hj | rfl
  · obtain ⟨hj', rfl⟩ := List.getElem?_eq_some_iff.mp hjk
    exact lt_trans (pairwise_iff_getElem.mp hs j mid hj' hmid hj) hlt
  · cases hk.symm.trans hjk
    exact hlt

theorem down (h : Window keys what start finish last) (hs : keys.Pairwise (· < ·)) (h1 : start ≤ mid) (h2 : mid < finish) {key : K}
    (hk : keys[mid]? = some key) (hlt : what < key) : Window keys what start mid (some (finish - 1)) := by
  obtain ⟨hmid, rfl⟩ := List.getElem?_eq_some_iff.mp hk
  refine ⟨h1, Nat.le_of_lt hmid, h.below, fun {j key} hj hjk => ?_, fun h => (by cases h), fun {l} hl => ?_⟩
  · rcases Nat.lt_or_eq_of_le hj with hj | rfl
    · obtain ⟨hj', rfl⟩ := List.getElem?_eq_some_iff.mp hjk
      exact lt_trans hlt (pairwise_iff_getElem.mp hs mid j hmid hj' hj)
    · cases hk.symm.trans hjk
      exact hlt
  · cases hl
    have := h.length
    omega

theorem scan_eq (h : Window keys what start start last) : scan keys what start last = (start, false) := by
  cases last with
  | none => rw [scan, h.unscanned rfl]
  | some l =>
    obtain ⟨h1, h2⟩ := h.scanned rfl
    have hk : keys[start]? = some keys[start] := List.getElem?_eq_getElem (by omega)
    obtain ⟨n, hn⟩ : ∃ n, l + 1 - start = n + 1 := ⟨l - start, by omega⟩
    rw [scan, hn, List.range'_succ, List.find?_cons_of_pos (by simpa [hk] using h.above (Nat.le_refl _) hk), Option.getD_some]

theorem searched (h : Window keys what start start last) : Searched keys what (scan keys what start last) := by
  rw [h.scan_eq]
  exact ⟨fun h => (by cases h), h.length, fun _ {j key} => h.below, fun _ {j key} => h.above⟩

end Window

theorem probe_searched {keys : List K} {what : K} (hs : keys.Pairwise (· < ·)) {fuel start finish : Nat} {last : Option Nat}
    (hfuel : finish - start ≤ fuel) (h : Window keys what start finish last) : Searched keys what (probe keys what fuel start finish last) := by
  have hle := h.le
  have hlen := h.length
  induction fuel generalizing start finish last with
  | zero =>
    have he : start = finish := by omega
    subst he
    exact h.searched
  | succ fuel ih =>
    rw [probe]
    by_cases hlt : start < finish
    · obtain ⟨mid, hmid⟩ : ∃ mid, mid = (start + (finish - 1)) / 2 := ⟨_, rfl⟩
      have hm1 : start ≤ mid := by omega
      have hm2 : mid < finish := by omega
      have hk : keys[mid]? = some keys[mid] := List.getElem?_eq_getElem (by omega)
      simp only [if_pos hlt, ← hmid, hk]
      split_ifs with h1 h2
      · exact ⟨fun _ => hk.trans (congrArg some h1), by show mid ≤ _; omega, fun h => (by cases h), fun h => (by cases h)⟩
      · exact ih (by omega) (h.up hs hm2 hk h2) (by omega) hlen
      · have h3 : what < keys[mid] := lt_of_le_of_ne (not_lt.mp h2) (Ne.symm h1)
        exact ih (by omega) (h.down hs hm1 hm2 hk h3) hm1 (by omega)
    · have he : start = finish := by omega
      subst he
      rw [if_neg hlt]
      exact h.searched

theorem search_searched {keys : List K} (hs : keys.Pairwise (· < ·)) (what : K) : Searched keys what (search keys what) :=
  probe_searched hs (Nat.le_refl _) (Window.init keys what)

theorem objects_sublist {E N : Type} (g : N → List E) (b : Branch E N) : (b.items.map fst).Sublist (b.flat g) := by
  refine List.Sublist.trans ?_ (sublist_append_right _ _)
  induction b.items with
  | nil => exact List.Sublist.refl _
  | cons it items ih => exact (ih.trans (sublist_append_right _ _)).cons_cons it.1

section Way

variable {σ : Type} {seek : List K → σ → (Nat × Bool) × σ} {is below above : K → Prop} {seen : σ → K → Prop}

omit [LinearOrder K]

/-- What the search of a node's keys tells of them: the key itself, or a place between two keys it has seen. -/
structure Sought (is below above : K → Prop) (seen : σ → K → Prop) (keys : List K) (r : (Nat × Bool) × σ) : Prop where
  hit : r.1.2 = true → ∃ key, keys[r.1.1]? = some key ∧ is key
  le : r.1.1 ≤ keys.length
  below : r.1.2 = false → ∀ {j key}, j < r.1.1 → keys[j]? = some key → below key
  above : r.1.2 = false → ∀ {j key}, r.1.1 ≤ j → keys[j]? = some key → above key
  beside : r.1.2 = false → ∀ {j key}, j = r.1.1 ∨ j + 1 = r.1.1 → keys[j]? = some key → seen r.2 key

/-- What the way down ends at: the same, of all entries. -/
inductive Placed (is below above : K → Prop) (seen : σ → K → Prop) (n : Nat) (node : Node K V n) (r : Found K V × σ) : Prop
  | hit {x : K × V} {pre post : List (K × V)} : r.1.entry = some x → is x.1 → Node.On n node r.1.path r.1.index pre x post →
      r.1.last = false → Placed is below above seen n node r
  | miss {pre post : List (K × V)} : r.1.entry = none → Node.At n node r.1.path r.1.index pre post → (∀ e ∈ pre, below e.1) →
      (∀ e ∈ post, above e.1) → (r.1.last = true → post = []) → (∀ e ∈ pre.getLast?, seen r.2 e.1) → (∀ e ∈ post.head?, seen r.2 e.1) →
      Placed is below above seen n node r

theorem keys_sublist {n : Nat} (b : Branch (K × V) (Node K V n)) :
    (b.items.map fun it => it.1.1).Sublist ((Node.flat (n + 1) b).map fst) := by
  have h := (objects_sublist (Node.flat n) b).map fst
  rwa [map_map] at h

theorem node_sublist {n : Nat} {b : Branch (K × V) (Node K V n)} {i : Nat} {m : Node K V n} (hm : Branch.getNode b i = some m) :
    ((Node.flat n m).map fst).Sublist ((Node.flat (n + 1) b).map fst) := by
  show ((Node.flat n m).map fst).Sublist ((Branch.flat (Node.flat n) b).map fst)
  rw [Branch.flat_at hm]
  exact ((sublist_append_right _ _).trans (sublist_append_left _ _)).map fst

theorem Node.findBy_keeps {P : σ → Prop} : ∀ {n : Nat} {node : Node K V n} {st : σ},
    (∀ {keys st}, keys.Sublist ((Node.flat n node).map fst) → P st → P (seek keys st).2) → P st → P (Node.findBy seek n node st).2
  | 0, os, st, hseek, h => hseek (List.Sublist.refl _) h
  | n + 1, b, st, hseek, h => by
    have hkeys := hseek (keys_sublist b) h
    unfold Node.findBy
    generalize seek (b.items.map fun it => it.1.1) st = r at hkeys ⊢
    obtain ⟨⟨i, hit⟩, st⟩ := r
    cases hit with
    | true => exact hkeys
    | false =>
      cases hm : Branch.getNode b i with
      | none => simpa [hm] using hkeys
      | some m =>
        have hdown : P (Node.findBy seek n m st).2 := Node.findBy_keeps (fun hsub => hseek (hsub.trans (node_sublist hm))) hkeys
        simpa [hm] using hdown

theorem Leaf.findBy_placed {os : List (K × V)} {st : σ} (h : Sought is below above seen (os.map fst) (seek (os.map fst) st)) :
    Placed is below above seen 0 os (Node.findBy seek 0 os st) := by
  have hkey {j : Nat} {e : K × V} (he : os[j]? = some e) : (os.map fst)[j]? = some e.1 := by
    rw [List.getElem?_map, he, map_some]
  have hfind : Node.findBy (V := V) seek 0 os st =
      (⟨if (seek (os.map fst) st).1.2 then os[(seek (os.map fst) st).1.1]? else none, [], (seek (os.map fst) st).1.1,
        !(seek (os.map fst) st).1.2 && (seek (os.map fst) st).1.1 == os.length⟩, (seek (os.map fst) st).2) := rfl
  rw [hfind]
  generalize seek (os.map fst) st = r at h ⊢
  obtain ⟨⟨i, hit⟩, st⟩ := r
  have hle : i ≤ os.length := by simpa using h.le
  have hi : (List.take i os).length = i := by rw [length_take, Nat.min_eq_left hle]
  cases hit with
  | true =>
    obtain ⟨key, hx, his⟩ := h.hit rfl
    rw [List.getElem?_map, map_eq_some_iff] at hx
    obtain ⟨x, hx, rfl⟩ := hx
    have hon : Node.On 0 os [] i (List.take i os) x (List.drop (i + 1) os) := ⟨rfl, hi, (Leaf.split_getElem? hx).symm⟩
    exact .hit hx his hon rfl
  | false =>
    have hat : Node.At 0 os [] i (List.take i os) (List.drop i os) := ⟨rfl, hi, (take_append_drop i os).symm⟩
    refine .miss rfl hat ?_ ?_ ?_ ?_ ?_
    · intro e he
      obtain ⟨j, hj⟩ := mem_iff_getElem?.mp he
      rw [List.getElem?_take] at hj
      split_ifs at hj with hlt
      exact h.below rfl hlt (hkey hj)
    · intro e he
      obtain ⟨j, hj⟩ := mem_iff_getElem?.mp he
      rw [List.getElem?_drop] at hj
      exact h.above rfl (Nat.le_add_right i j) (hkey hj)
    · intro hlast
      exact drop_eq_nil_of_le (Nat.le_of_eq (beq_iff_eq.mp hlast).symm)
    · intro e he
      rw [List.getLast?_eq_getElem?, hi] at he
      cases i with
      | zero => cases he
      | succ i =>
        rw [Nat.succ_sub_one, List.getElem?_take_of_lt (Nat.lt_succ_self i)] at he
        exact h.beside rfl (Or.inr rfl) (hkey he)
    · intro e he
      rw [List.head?_drop] at he
      exact h.beside rfl (Or.inl rfl) (hkey he)

/-- Where every search on the way tells of its keys, the way tells of all entries: what stands ahead of an entry below is
below, and what stands behind one above is above. -/
theorem Node.findBy_placed : ∀ {n : Nat} {node : Node K V n} {st : σ},
    (∀ {keys st}, keys.Sublist ((Node.flat n node).map fst) → Sought is below above seen keys (seek keys st)) →
    (∀ {keys st key}, keys.Sublist ((Node.flat n node).map fst) → seen st key → seen (seek keys st).2 key) →
    (Node.flat n node).Pairwise (fun a b => (below b.1 → below a.1) ∧ (above a.1 → above b.1)) →
    Placed is below above seen n node (Node.findBy seek n node st)
  | 0, os, st, hseek, _, _ => Leaf.findBy_placed (hseek (List.Sublist.refl _))
  | n + 1, b, st, hseek, hkeep, hs => by
    have h : Sought is below above seen (b.items.map fun it => it.1.1) (seek (b.items.map fun it => it.1.1) st) := hseek (keys_sublist b)
    have hkey {j : Nat} {o : K × V} (ho : b.getObject (j + 1) = some o) : (b.items.map fun it => it.1.1)[j]? = some o.1 := by
      rw [Branch.getObject, map_eq_some_iff] at ho
      obtain ⟨it, hit, rfl⟩ := ho
      rw [List.getElem?_map, hit, map_some]
    unfold Node.findBy
    generalize seek (b.items.map fun it => it.1.1) st = r at h ⊢
    obtain ⟨⟨i, hit⟩, st⟩ := r
    cases hit with
    | true =>
      obtain ⟨key, hx, his⟩ := h.hit rfl
      rw [List.getElem?_map, map_eq_some_iff] at hx
      obtain ⟨⟨x, m⟩, hx, rfl⟩ := hx
      obtain ⟨pre, hpre, -⟩ := Branch.modify_object (Node.flat n) b.first hx
      have hobj : Branch.getObject b (i + 1) = some x := by rw [Branch.getObject, hx, map_some]
      exact .hit hobj his ⟨i, m, rfl, hx, hpre, rfl⟩ rfl
    | false =>
      have hle : i ≤ Branch.lastIndex b := by simpa [Branch.lastIndex] using h.le
      obtain ⟨m, hm⟩ := Branch.getNode_isSome hle
      have hlast := Branch.getLast?_before (Node.flat n) hle
      have hhead := Branch.head?_after (Node.flat n) (b := b) (i := i)
      have hflat : Node.flat (n + 1) b = Branch.before (Node.flat n) b.first b.items i ++ Node.flat n m ++ Branch.after (Node.flat n) b.items i :=
        Branch.flat_at hm
      rw [hflat] at hs
      obtain ⟨hs1, hsafter, -⟩ := pairwise_append.mp hs
      obtain ⟨hsbefore, hsm, -⟩ := pairwise_append.mp hs1
      -- the objects at both sides of the node were seen in this search
      have hahead : ∀ e ∈ (Branch.before (Node.flat n) b.first b.items i).getLast?, below e.1 ∧ seen st e.1 := by
        intro e he
        rw [hlast] at he
        cases i with
        | zero => cases he
        | succ i => exact ⟨h.below rfl (Nat.lt_succ_self i) (hkey he), h.beside rfl (Or.inr rfl) (hkey he)⟩
      have hbehind : ∀ e ∈ (Branch.after (Node.flat n) b.items i).head?, above e.1 ∧ seen st e.1 := by
        intro e he
        rw [hhead] at he
        exact ⟨h.above rfl (Nat.le_refl i) (hkey he), h.beside rfl (Or.inl rfl) (hkey he)⟩
      have hbefore : ∀ e ∈ Branch.before (Node.flat n) b.first b.items i, below e.1 :=
        Partition.forall_of_getLast? (hsbefore.imp And.left) fun e he => (hahead e he).1
      have hafter : ∀ e ∈ Branch.after (Node.flat n) b.items i, above e.1 :=
        Partition.forall_of_head? (hsafter.imp And.right) fun e he => (hbehind e he).1
      have hdown : Placed is below above seen n m (Node.findBy seek n m st) :=
        Node.findBy_placed (fun hsub => hseek (hsub.trans (node_sublist hm))) (fun hsub => hkeep (hsub.trans (node_sublist hm))) hsm
      have hseen {key : K} : seen st key → seen (Node.findBy seek n m st).2 key :=
        Node.findBy_keeps (P := fun st => seen st key) fun hsub => hkeep (hsub.trans (node_sublist hm))
      simp only [hm, Bool.false_eq_true, if_false]
      rcases hdown with ⟨h1, h2, h3, h4⟩ | ⟨h1, h2, h3, h4, h5, h6, h7⟩
      · exact .hit h1 h2 ⟨m, _, _, hm, h3, rfl, rfl⟩ (by simp [h4])
      · refine .miss h1 ⟨m, _, _, hm, h2, rfl, rfl⟩ ?_ ?_ ?_ ?_ ?_
        · intro e he
          exact (mem_append.mp he).elim (hbefore e) (h3 e)
        · intro e he
          exact (mem_append.mp he).elim (h4 e) (hafter e)
        · intro hl
          obtain ⟨hi, hl⟩ := Bool.and_eq_true_iff.mp hl
          rw [h5 hl, beq_iff_eq.mp hi, Branch.after_last]
          rfl
        · intro e he
          rw [List.getLast?_append, mem_def, Option.or_eq_some_iff] at he
          rcases he with he | ⟨-, he⟩
          · exact h6 e he
          · exact hseen (hahead e he).2
        · intro e he
          rw [List.head?_append, mem_def, Option.or_eq_some_iff] at he
          rcases he with he | ⟨-, he⟩
          · exact h7 e he
          · exact hseen (hbehind e he).2

end Way

/-- What a search gives in a tree whose entries are in order. -/
inductive Located (key : K) (n : Nat) (node : Node K V n) (f : Found K V) : Prop
  | hit {x : K × V} {pre post : List (K × V)} : f.entry = some x → x.1 = key → Node.On n node f.path f.index pre x post → f.last = false →
      Located key n node f
  | miss {pre post : List (K × V)} : f.entry = none → Node.At n node f.path f.index pre post → (∀ e ∈ pre, e.1 < key) →
      (∀ e ∈ post, key < e.1) → (f.last = true → post = []) → Located key n node f

theorem Node.find_eq (key : K) : ∀ {n : Nat} {node : Node K V n},
    Node.find key n node = (Node.findBy (fun keys (_ : Unit) => (search keys key, ())) n node ()).1
  | 0, os => rfl
  | n + 1, b => by
    unfold Node.find Node.findBy
    cases search (b.items.map fun it => it.1.1) key with
    | mk i hit =>
      cases hit with
      | true => rfl
      | false =>
        cases hm : Branch.getNode b i with
        | none => simp [hm]
        | some m => simp [hm, Node.find_eq key]

theorem Node.find_located (key : K) {n : Nat} {node : Node K V n} (hs : (Node.flat n node).Pairwise (fun a b => a.1 < b.1)) :
    Located key n node (Node.find key n node) := by
  have hplaced : Placed (· = key) (· < key) (key < ·) (fun (_ : Unit) _ => True) n node
      (Node.findBy (fun keys (_ : Unit) => (search keys key, ())) n node ()) := by
    refine Node.findBy_placed (fun hsub => ?_) (fun _ _ => trivial) (hs.imp fun hlt => ⟨lt_trans hlt, fun h => lt_trans h hlt⟩)
    have hf := search_searched ((pairwise_map.mpr hs).sublist hsub) key
    exact ⟨fun h => ⟨key, hf.hit h, rfl⟩, hf.le, hf.below, hf.above, fun _ {_ _} _ _ => trivial⟩
  rw [Node.find_eq]
  cases hplaced with
  | hit h1 h2 h3 h4 => exact .hit h1 h2 h3 h4
  | miss h1 h2 h3 h4 h5 => exact .miss h1 h2 h3 h4 h5

/-! ## The invariant of a map -/

namespace TreeMap

/-- A root has an entry, is not full, and everything below it is between its bounds. -/
def Rooted (order n : Nat) (node : Node K V n) : Prop :=
  Node.Inner order n node ∧ 0 < (Node.kind order n).physicalEntries node ∧
    (Node.kind order n).physicalEntries node < (Node.kind (K := K) (V := V) order n).maxPhysicalEntries

structure Valid (t : TreeMap K V) : Prop where
  order : 3 ≤ t.order
  root : ∀ {n node}, t.root = some ⟨n, node⟩ → Rooted t.order n node
  sorted : t.entries.Pairwise fun a b => a.1 < b.1
  size : t.pEntries = t.entries.length

variable {t : TreeMap K V}

variable {n : Nat} {node : Node K V n}

omit [LinearOrder K] in
theorem entries_of_root (h : t.root = some ⟨n, node⟩) : t.entries = Node.flat n node := by
  rw [entries, h, Option.elim_some]

omit [LinearOrder K] in
theorem entries_nil (h : t.root = none) : t.entries = [] := by
  rw [entries, h, Option.elim_none]

/-! What holds of a map whatever the order of its keys. -/

/-- The invariant but for the order of the keys. -/
structure Built (t : TreeMap K V) : Prop where
  order : 3 ≤ t.order
  root : ∀ {n node}, t.root = some ⟨n, node⟩ → Rooted t.order n node
  size : t.pEntries = t.entries.length

section Built

omit [LinearOrder K]

theorem init_built (order : Int8) (cardinalityEnabled : Bool) : (init order cardinalityEnabled : TreeMap K V).Built where
  order := by
    show 3 ≤ (if order.toInt < initialOrder then initialOrder else order.toInt).toNat
    unfold initialOrder
    split_ifs <;> omega
  root := fun h => by cases h
  size := rfl

variable (ht : t.Built)

include ht

theorem newRoot_built (h : t.root = none) (key : K) (val : V) : (t.newRoot key val).Built ∧ (t.newRoot key val).entries = [(key, val)] := by
  have he : (t.newRoot key val).entries = [(key, val)] := rfl
  refine ⟨⟨ht.order, fun hr => ?_, ?_⟩, he⟩
  · cases hr
    exact ⟨trivial, Nat.one_pos, by show 1 < 2 * (t.order + 1); omega⟩
  · show t.pEntries + 1 = 1
    rw [ht.size, entries_nil h, length_nil]

variable {n : Nat} {node : Node K V n} {path : List Nat} {index : Nat} {pre post : List (K × V)}

theorem insert_built (hroot : t.root = some ⟨n, node⟩)
    (hat : Node.At n node path index pre post) (obj : K × V) (sequential : Bool) (hseq : sequential = true → post = []) :
    ∃ t', t.insert n node path index obj sequential = some t' ∧ t'.Built ∧ t'.entries = pre ++ obj :: post ∧
      t'.order = t.order ∧ t'.cardinalityEnabled = t.cardinalityEnabled := by
  obtain ⟨hin, hpos, hroom⟩ := ht.root hroot
  have hent : t.entries = pre ++ post := (entries_of_root hroot).trans hat.flat
  obtain ⟨node', notify, hins, hI⟩ := Node.insert_spec ht.order obj hat hin (fun _ => hpos) hroom hseq
  have hresult {m : Nat} {r : Node K V m} (hflat : Node.flat m r = pre ++ obj :: post) (hR : Rooted t.order m r) :
      let t' : TreeMap K V := { t with root := some ⟨m, r⟩, pEntries := t.pEntries + 1 }
      t'.Built ∧ t'.entries = pre ++ obj :: post := by
    refine ⟨⟨ht.order, fun h => by cases h; exact hR, ?_⟩, hflat⟩
    show t.pEntries + 1 = (Node.flat m r).length
    rw [ht.size, hent, hflat, length_append, length_append, length_cons, Nat.add_assoc]
  cases hn : notify with
  | true =>
    have hfull : (Node.kind t.order n).physicalEntries node' = (Node.kind t.order n).maxPhysicalEntries :=
      of_decide_eq_true (hI.notify.symm.trans hn)
    obtain ⟨b, hb, hlast, hflat, hfits⟩ := (Node.lawful ht.order n).split hI.inner hfull
    have h3 : (3 : Nat) ≤ t.order := ht.order
    obtain ⟨h1, h2⟩ := hresult (m := n + 1) (r := b) (hflat.trans hI.flat)
      ⟨hfits, by show 0 < b.lastIndex; omega, by show b.lastIndex < t.order; omega⟩
    exact ⟨_, by simp [insert, hins, hn, hb], h1, h2, rfl, rfl⟩
  | false =>
    have hnot : (Node.kind t.order n).physicalEntries node' ≠ (Node.kind t.order n).maxPhysicalEntries :=
      of_decide_eq_false (hI.notify.symm.trans hn)
    have hle := hI.le
    have hsucc := hI.succ_le
    obtain ⟨h1, h2⟩ := hresult hI.flat ⟨hI.inner, by omega, by omega⟩
    exact ⟨_, by simp [insert, hins, hn], h1, h2, rfl, rfl⟩

theorem assign_built (hroot : t.root = some ⟨n, node⟩)
    {x : K × V} (hon : Node.On n node path index pre x post) (obj : K × V) :
    ∃ node', Node.assign obj n node path index = some node' ∧ ({ t with root := some ⟨n, node'⟩ } : TreeMap K V).Built ∧
      ({ t with root := some ⟨n, node'⟩ } : TreeMap K V).entries = pre ++ obj :: post := by
  obtain ⟨hin, hpos, hroom⟩ := ht.root hroot
  have hent : t.entries = pre ++ x :: post := (entries_of_root hroot).trans hon.flat
  obtain ⟨node', has, hflat, hin', hsz⟩ := Node.assign_spec obj hon hin
  refine ⟨node', has, ⟨ht.order, fun h => by cases h; exact ⟨hin', hsz ▸ hpos, hsz ▸ hroom⟩, ?_⟩, hflat⟩
  show t.pEntries = (Node.flat n node').length
  rw [ht.size, hent, hflat, length_append, length_append, length_cons, length_cons]

theorem clear_built : t.clear.Built ∧ t.clear.entries = [] := by
  rcases hroot : t.root with _ | r
  · have hc : t.clear = t := by rw [clear, hroot]
    rw [hc]
    exact ⟨ht, entries_nil hroot⟩
  · have hc : t.clear = { t with root := none, pEntries := 0 } := by rw [clear, hroot]
    rw [hc]
    exact ⟨⟨ht.order, fun h => (by cases h), rfl⟩, rfl⟩

theorem remove_built (hroot : t.root = some ⟨n, node⟩)
    {x : K × V} (hon : Node.On n node path index pre x post) :
    ∃ node' notify, Node.remove t.order n node path index = some (node', notify) ∧
      let root := if notify && (Node.kind t.order n).physicalEntries node' == 0 then notifyRootEmpty n node' else some ⟨n, node'⟩
      let t' : TreeMap K V := { t with root := root, pEntries := t.pEntries - 1 }
      t'.Built ∧ t'.entries = pre ++ post := by
  obtain ⟨hin, hpos, hroom⟩ := ht.root hroot
  have hent : t.entries = pre ++ x :: post := (entries_of_root hroot).trans hon.flat
  obtain ⟨node', notify, hrem, hR⟩ := Node.remove_spec ht.order hon hin fun _ => hpos
  refine ⟨node', notify, hrem, ?_⟩
  have hsize : t.pEntries - 1 = (pre ++ post).length := by
    rw [ht.size, hent, length_append, length_append, length_cons]
    omega
  have hresult {root : Option ((m : Nat) × Node K V m)} (hr : root.elim [] (fun r => Node.flat r.1 r.2) = pre ++ post)
      (hR : ∀ {m r}, root = some ⟨m, r⟩ → Rooted t.order m r) :
      let t' : TreeMap K V := { t with root := root, pEntries := t.pEntries - 1 }
      t'.Built ∧ t'.entries = pre ++ post := by
    refine ⟨⟨ht.order, hR, ?_⟩, hr⟩
    show t.pEntries - 1 = (root.elim [] fun r => Node.flat r.1 r.2).length
    rw [hr, hsize]
  have hlaw := Node.lawful (K := K) (V := V) ht.order n
  have hle := hR.le
  by_cases hempty : (notify && (Node.kind t.order n).physicalEntries node' == 0) = true
  · have hzero := beq_iff_eq.mp (Bool.and_eq_true_iff.mp hempty).2
    simp only [if_pos hempty]
    cases n with
    | zero =>
      refine hresult ?_ fun h => by cases h
      have hnil : node' = [] := eq_nil_of_length_eq_zero hzero
      rw [← hR.flat, hnil]
      rfl
    | succ n =>
      have hfirst := hR.inner (Branch.first node') mem_cons_self
      have hlaw' := Node.lawful (K := K) (V := V) ht.order n
      refine hresult ?_ fun h => by
        cases h
        exact ⟨hfirst.inner, Nat.lt_of_lt_of_le hlaw'.pos hfirst.least, hfirst.room⟩
      rw [← hR.flat]
      have hnil : node'.items = [] := eq_nil_of_length_eq_zero hzero
      show Node.flat n node'.first = Branch.flat (Node.flat n) node'
      rw [Branch.flat, hnil, flatMap_nil, append_nil]
  · simp only [if_neg hempty]
    refine hresult hR.flat fun h => by
      cases h
      refine ⟨hR.inner, Nat.pos_of_ne_zero fun hzero => ?_, by omega⟩
      cases hn : notify with
      | true => exact hempty (by rw [hn, hzero]; rfl)
      | false =>
        rcases hR.kept hn with h | h
        · omega
        · have h := of_decide_eq_false h
          have := hlaw.lo_le_low
          have := hlaw.pos
          omega

end Built

theorem Valid.built (ht : t.Valid) : t.Built := ⟨ht.order, ht.root, ht.size⟩

theorem Built.valid (ht : t.Built) (hs : t.entries.Pairwise fun a b => a.1 < b.1) : t.Valid := ⟨ht.order, ht.root, hs, ht.size⟩

theorem init_valid (order : Int8) (cardinalityEnabled : Bool) : (init order cardinalityEnabled : TreeMap K V).Valid :=
  (init_built order cardinalityEnabled).valid .nil

variable (ht : t.Valid)

include ht

theorem newRoot_valid (h : t.root = none) (key : K) (val : V) : (t.newRoot key val).Valid ∧ (t.newRoot key val).entries = [(key, val)] := by
  obtain ⟨hb, he⟩ := newRoot_built ht.built h key val
  refine ⟨hb.valid ?_, he⟩
  rw [he]
  exact pairwise_singleton _ _

variable {path : List Nat} {index : Nat} {pre post : List (K × V)}

theorem insert_valid (hroot : t.root = some ⟨n, node⟩)
    (hat : Node.At n node path index pre post) {key : K} (val : V) (hpre : ∀ e ∈ pre, e.1 < key) (hpost : ∀ e ∈ post, key < e.1)
    (sequential : Bool) (hseq : sequential = true → post = []) :
    ∃ t', t.insert n node path index (key, val) sequential = some t' ∧ t'.Valid ∧ t'.entries = insertEntry key val t.entries ∧
      t'.order = t.order ∧ t'.cardinalityEnabled = t.cardinalityEnabled := by
  have hent : t.entries = pre ++ post := (entries_of_root hroot).trans hat.flat
  obtain ⟨t', hins, hb, he, horder, hce⟩ := insert_built ht.built hroot hat (key, val) sequential hseq
  have hinsert : t'.entries = insertEntry key val t.entries := by rw [he, hent, SortedMap.insertEntry_mid hpre hpost]
  refine ⟨t', hins, hb.valid ?_, hinsert, horder, hce⟩
  rw [hinsert]
  exact SortedMap.insertEntry_sorted key val ht.sorted

theorem assign_valid (hroot : t.root = some ⟨n, node⟩)
    {x : K × V} (hon : Node.On n node path index pre x post) (val : V) :
    ∃ node', Node.assign (x.1, val) n node path index = some node' ∧ ({ t with root := some ⟨n, node'⟩ } : TreeMap K V).Valid ∧
      ({ t with root := some ⟨n, node'⟩ } : TreeMap K V).entries = insertEntry x.1 val t.entries := by
  have hent : t.entries = pre ++ x :: post := (entries_of_root hroot).trans hon.flat
  have hpre : ∀ e ∈ pre, e.1 < x.1 := fun e he =>
    (pairwise_append.mp (hent ▸ ht.sorted)).2.2 e he x mem_cons_self
  obtain ⟨node', has, hb, he⟩ := assign_built ht.built hroot hon (x.1, val)
  have hinsert : insertEntry x.1 val t.entries = pre ++ (x.1, val) :: post := by
    rw [hent]
    exact SortedMap.insertEntry_hit hpre
  refine ⟨node', has, hb.valid ?_, he.trans hinsert.symm⟩
  rw [he, ← hinsert]
  exact SortedMap.insertEntry_sorted _ val ht.sorted

theorem find_eq (key : K) : t.find key = ((⟨t.entries, ht.sorted⟩ : SortedMap K V).get key).map fun v => (key, v) := by
  obtain ⟨m, hm⟩ : ∃ m : SortedMap K V, m = ⟨t.entries, ht.sorted⟩ := ⟨_, rfl⟩
  rw [← hm]
  have hmem {e : K × V} : e ∈ t.entries ↔ m.get e.1 = some e.2 := by rw [← SortedMap.mem_entries, hm]
  rcases hroot : t.root with _ | ⟨n, node⟩
  · have hnone : m.get key = none := by
      rw [Option.eq_none_iff_forall_ne_some]
      intro v hv
      have := hmem (e := (key, v)).mpr hv
      rw [entries_nil hroot] at this
      exact absurd this not_mem_nil
    rw [find, hroot, hnone]
    rfl
  · have hent := entries_of_root hroot
    have hfind : t.find key = (Node.find key n node).entry := by rw [find, hroot]; rfl
    rcases Node.find_located key (hent ▸ ht.sorted) with ⟨h1, rfl, h3, -⟩ | ⟨h1, h2, h3, h4, -⟩
    · have hx := hmem.mp (by rw [hent, h3.flat]; exact mem_append_right _ mem_cons_self)
      rw [hfind, h1, hx, map_some]
    · have hnone : m.get key = none := by
        rw [Option.eq_none_iff_forall_ne_some]
        intro v hv
        have := hmem (e := (key, v)).mpr hv
        rw [hent, h2.flat] at this
        rcases mem_append.mp this with h | h
        · exact lt_irrefl key (h3 _ h)
        · exact lt_irrefl key (h4 _ h)
      rw [hfind, h1, hnone]
      rfl

theorem clear_valid : t.clear.Valid ∧ t.clear.entries = [] := by
  obtain ⟨hb, he⟩ := clear_built ht.built
  refine ⟨hb.valid ?_, he⟩
  rw [he]
  exact List.Pairwise.nil

theorem remove_valid (hroot : t.root = some ⟨n, node⟩)
    {x : K × V} (hon : Node.On n node path index pre x post) :
    ∃ node' notify, Node.remove t.order n node path index = some (node', notify) ∧
      let root := if notify && (Node.kind t.order n).physicalEntries node' == 0 then notifyRootEmpty n node' else some ⟨n, node'⟩
      let t' : TreeMap K V := { t with root := root, pEntries := t.pEntries - 1 }
      t'.Valid ∧ t'.entries = t.entries.filter fun e => e.1 ≠ x.1 := by
  have hent : t.entries = pre ++ x :: post := (entries_of_root hroot).trans hon.flat
  obtain ⟨node', notify, hrem, hb, he⟩ := remove_built ht.built hroot hon
  refine ⟨node', notify, hrem, ?_⟩
  have hsorted := ht.sorted
  rw [hent] at hsorted
  obtain ⟨-, hcons, hcross⟩ := pairwise_append.mp hsorted
  have hfilter : t.entries.filter (fun e => e.1 ≠ x.1) = pre ++ post := by
    have h1 : pre.filter (fun e => e.1 ≠ x.1) = pre :=
      filter_eq_self.mpr fun e he => by simpa using ne_of_lt (hcross e he x mem_cons_self)
    have h2 : post.filter (fun e => e.1 ≠ x.1) = post :=
      filter_eq_self.mpr fun e he => by simpa using ne_of_gt ((pairwise_cons.mp hcons).1 e he)
    rw [hent, filter_append, filter_cons_of_neg (by simp), h1, h2]
  refine ⟨hb.valid ?_, he.trans hfilter.symm⟩
  rw [he, ← hfilter]
  exact ht.sorted.filter _

end TreeMap

omit [LinearOrder K] in
theorem Node.lastLeaf_at : ∀ {n : Nat} {node : Node K V n}, Node.At n node (lastLeaf n node).1 (lastLeaf n node).2 (Node.flat n node) []
  | 0, os => ⟨rfl, rfl, (append_nil os).symm⟩
  | n + 1, b => by
    obtain ⟨m, hm⟩ := Branch.getNode_isSome (Nat.le_refl (Branch.lastIndex b))
    have hafter := Branch.after_last (Node.flat n) (b := b)
    have hflat : Node.flat (n + 1) b = Branch.before (Node.flat n) b.first b.items (Branch.lastIndex b) ++ Node.flat n m := by
      show Branch.flat (Node.flat n) b = _
      rw [Branch.flat_at hm, hafter, append_nil]
    simp only [lastLeaf, hm]
    exact ⟨m, _, [], hm, lastLeaf_at, hflat, by rw [hafter]; rfl⟩

/-! ## What each operation does -/

namespace TreeMap

variable {t : TreeMap K V} (ht : t.Valid)

include ht

/-- A search from the root, and what it means for the place it ends at. -/
theorem located_of_root {n : Nat} {node : Node K V n} (hroot : t.root = some ⟨n, node⟩) (key : K) :
    t.find key = (Node.find key n node).entry ∧ Located key n node (Node.find key n node) := by
  refine ⟨?_, Node.find_located key (entries_of_root hroot ▸ ht.sorted)⟩
  rw [find, hroot]
  rfl

omit ht in
theorem find_nil (hroot : t.root = none) (key : K) : t.find key = none := by
  rw [find, hroot]
  rfl

theorem newRoot_spec (hroot : t.root = none) (key : K) (val : V) :
    (t.newRoot key val).Valid ∧ (t.newRoot key val).entries = insertEntry key val t.entries := by
  obtain ⟨hv, he⟩ := newRoot_valid ht hroot key val
  refine ⟨hv, ?_⟩
  rw [he, entries_nil hroot]
  rfl

theorem put_spec (key : K) (val : V) :
    ∃ t', t.put key val = some (t', t.find key) ∧ t'.Valid ∧ t'.entries = insertEntry key val t.entries := by
  rcases hroot : t.root with _ | ⟨n, node⟩
  · refine ⟨t.newRoot key val, ?_, newRoot_spec ht hroot key val⟩
    simp only [put, hroot, find_nil hroot]
  · obtain ⟨hfind, hloc⟩ := located_of_root ht hroot key
    cases hloc with
    | hit h1 hx hon _ =>
      subst hx
      obtain ⟨node', has, hv, he⟩ := assign_valid ht hroot hon val
      refine ⟨_, ?_, hv, he⟩
      simp only [put, hroot, hfind, h1, has, map_some]
    | miss h1 hat hpre hpost _ =>
      obtain ⟨t', hins, hv, he, -⟩ := insert_valid ht hroot hat val hpre hpost false fun hf => by cases hf
      refine ⟨t', ?_, hv, he⟩
      simp only [put, hroot, hfind, h1, hins, map_some]

theorem add_spec (key : K) (val : V) (replace : Bool) :
    ∃ t' last, t.add key val replace = some (t', t.find key, last) ∧ t'.Valid ∧
      t'.entries = if (t.find key).isSome && !replace then t.entries else insertEntry key val t.entries := by
  rcases hroot : t.root with _ | ⟨n, node⟩
  · obtain ⟨hv, he⟩ := newRoot_spec ht hroot key val
    refine ⟨t.newRoot key val, !t.cardinalityEnabled, ?_, hv, ?_⟩
    · simp only [add, hroot, find_nil hroot]
    · rw [he, find_nil hroot]
      rfl
  · obtain ⟨hfind, hloc⟩ := located_of_root ht hroot key
    cases hloc with
    | @hit x _ _ h1 hx hon _ =>
      subst hx
      cases replace with
      | true =>
        obtain ⟨node', has, hv, he⟩ := assign_valid ht hroot hon val
        refine ⟨_, (Node.find x.1 n node).last, ?_, hv, ?_⟩
        · simp only [add, hroot, hfind, h1, has, if_true, map_some]
        · rw [he, Bool.not_true, Bool.and_false]
          rfl
      | false =>
        refine ⟨t, (Node.find x.1 n node).last, ?_, ht, ?_⟩
        · simp only [add, hroot, hfind, h1, Bool.false_eq_true, if_false]
        · rw [hfind, h1]
          rfl
    | miss h1 hat hpre hpost hlast =>
      obtain ⟨t', hins, hv, he, -, hce⟩ := insert_valid ht hroot hat val hpre hpost _ hlast
      refine ⟨t', !t.cardinalityEnabled && (Node.find key n node).last, ?_, hv, ?_⟩
      · simp only [add, hroot, hfind, h1, hins, hce, map_some]
      · rw [he, hfind, h1]
        rfl

theorem append_spec {key : K} (val : V) (hkey : ∀ e ∈ t.entries, e.1 < key) :
    ∃ t', t.append key val = some t' ∧ t'.Valid ∧ t'.entries = insertEntry key val t.entries := by
  rcases hroot : t.root with _ | ⟨n, node⟩
  · refine ⟨t.newRoot key val, ?_, newRoot_spec ht hroot key val⟩
    simp only [append, hroot]
  · have hpre : ∀ e ∈ Node.flat n node, e.1 < key := entries_of_root hroot ▸ hkey
    obtain ⟨t', hins, hv, he, -⟩ := insert_valid ht hroot Node.lastLeaf_at val hpre (forall_mem_nil _) true fun _ => rfl
    refine ⟨t', ?_, hv, he⟩
    simp only [append, hroot, hins]

theorem remove_spec (key : K) :
    ∃ t', t.remove key = some (t', t.find key) ∧ t'.Valid ∧ t'.entries = t.entries.filter fun e => e.1 ≠ key := by
  rcases hroot : t.root with _ | ⟨n, node⟩
  · refine ⟨t, ?_, ht, ?_⟩
    · simp only [remove, hroot, find_nil hroot]
    · rw [entries_nil hroot]
      rfl
  · obtain ⟨hfind, hloc⟩ := located_of_root ht hroot key
    cases hloc with
    | @hit x _ _ h1 hx hon _ =>
      subst hx
      obtain ⟨node', notify, hrem, hv, he⟩ := remove_valid ht hroot hon
      obtain ⟨t', ht'⟩ : ∃ t' : TreeMap K V, t' =
          { t with
            root := if notify && (Node.kind t.order n).physicalEntries node' == 0 then notifyRootEmpty n node' else some ⟨n, node'⟩
            pEntries := t.pEntries - 1 } := ⟨_, rfl⟩
      rw [← ht'] at hv he
      have hremove : t.remove x.1 = some (if t'.size = 0 then t'.clear else t', some x) := by
        simp only [remove, hroot, h1, hrem, ht']
        rfl
      rw [hremove, hfind, h1]
      by_cases hsize : t'.size = 0
      · obtain ⟨hcv, hce⟩ := clear_valid hv
        have hnil : t'.entries = [] := eq_nil_of_length_eq_zero (hv.size.symm.trans hsize)
        exact ⟨t'.clear, by rw [if_pos hsize], hcv, hce.trans (hnil.symm.trans he)⟩
      · exact ⟨t', by rw [if_neg hsize], hv, he⟩
    | miss h1 hat hpre hpost _ =>
      refine ⟨t, ?_, ht, ?_⟩
      · simp only [remove, hroot, hfind, h1]
      · rw [entries_of_root hroot, hat.flat]
        refine (filter_eq_self.mpr fun e he => ?_).symm
        rcases mem_append.mp he with he | he
        · simpa using ne_of_lt (hpre e he)
        · simpa using ne_of_gt (hpost e he)

end TreeMap

/-! ## Refinement of a sorted map -/

/-- `append` is `add` without the search. -/
inductive Op (K V : Type)
  | put (key : K) (val : V)
  | remove (key : K)
  | clear
  | add (key : K) (val : V) (replace : Bool)
  | append (key : K) (val : V)

/-- The answers are the entries that were hit, the last one first. -/
structure Session (K V : Type) where
  map : TreeMap K V
  answers : List (Option (K × V))

def Session.step (s : Session K V) : Op K V → Option (Session K V)
  | .put key val => (s.map.put key val).map fun p => ⟨p.1, p.2 :: s.answers⟩
  | .remove key => (s.map.remove key).map fun p => ⟨p.1, p.2 :: s.answers⟩
  | .clear => some ⟨s.map.clear, none :: s.answers⟩
  | .add key val replace => (s.map.add key val replace).map fun p => ⟨p.1, p.2.1 :: s.answers⟩
  | .append key val => (s.map.append key val).map fun t => ⟨t, none :: s.answers⟩

/-- What the map is for. -/
structure Reference (K V : Type) [LinearOrder K] where
  map : SortedMap K V
  answers : List (Option (K × V))

def Reference.hit (r : Reference K V) (key : K) : Option (K × V) := (r.map.get key).map fun v => (key, v)

/-- An `append` is for a key above all others. -/
def Reference.step (r : Reference K V) : Op K V → Option (Reference K V)
  | .put key val => some ⟨r.map.put key val, r.hit key :: r.answers⟩
  | .remove key => some ⟨r.map.remove key, r.hit key :: r.answers⟩
  | .clear => some ⟨.empty, none :: r.answers⟩
  | .add key val replace => some ⟨if (r.map.get key).isSome && !replace then r.map else r.map.put key val, r.hit key :: r.answers⟩
  | .append key val => if r.map.entries.all fun e => e.1 < key then some ⟨r.map.put key val, none :: r.answers⟩ else none

structure Refines (r : Reference K V) (s : Session K V) : Prop where
  valid : s.map.Valid
  entries : s.map.entries = r.map.entries
  answers : s.answers = r.answers

variable {r : Reference K V}

theorem Refines.find {s : Session K V} (h : Refines r s) (key : K) : s.map.find key = r.hit key := by
  have hm : (⟨s.map.entries, h.valid.sorted⟩ : SortedMap K V) = r.map := ext h.entries
  rw [TreeMap.find_eq h.valid, hm]
  rfl

theorem step_refines {r' : Reference K V} {s : Session K V} {op : Op K V} (h : Refines r s) (hs : Reference.step r op = some r') :
    ∃ s', Session.step s op = some s' ∧ Refines r' s' := by
  cases op with
  | put key val =>
    cases hs
    obtain ⟨t', hput, hv, he⟩ := TreeMap.put_spec h.valid key val
    refine ⟨⟨t', s.map.find key :: s.answers⟩, by rw [Session.step, hput]; rfl, hv, ?_, ?_⟩
    · rw [he, h.entries]
      rfl
    · rw [h.find, h.answers]
  | remove key =>
    cases hs
    obtain ⟨t', hrem, hv, he⟩ := TreeMap.remove_spec h.valid key
    refine ⟨⟨t', s.map.find key :: s.answers⟩, by rw [Session.step, hrem]; rfl, hv, ?_, ?_⟩
    · rw [he, h.entries]
      rfl
    · rw [h.find, h.answers]
  | clear =>
    cases hs
    obtain ⟨hv, he⟩ := TreeMap.clear_valid h.valid
    exact ⟨⟨s.map.clear, none :: s.answers⟩, rfl, hv, he, congrArg _ h.answers⟩
  | add key val replace =>
    cases hs
    obtain ⟨t', last, hadd, hv, he⟩ := TreeMap.add_spec h.valid key val replace
    refine ⟨⟨t', s.map.find key :: s.answers⟩, by rw [Session.step, hadd]; rfl, hv, ?_, ?_⟩
    · have hit : (s.map.find key).isSome = (r.map.get key).isSome := by rw [h.find, Reference.hit, Option.isSome_map]
      rw [he, hit, h.entries]
      split_ifs <;> rfl
    · rw [h.find, h.answers]
  | append key val =>
    rw [Reference.step] at hs
    split_ifs at hs with hall
    cases hs
    have hkey : ∀ e ∈ s.map.entries, e.1 < key := by
      intro e he
      rw [h.entries] at he
      exact of_decide_eq_true (all_eq_true.mp hall e he)
    obtain ⟨t', happ, hv, he⟩ := TreeMap.append_spec h.valid val hkey
    refine ⟨⟨t', none :: s.answers⟩, by rw [Session.step, happ]; rfl, hv, ?_, congrArg _ h.answers⟩
    rw [he, h.entries]
    rfl

theorem run_refines (order : Int8) (cardinalityEnabled : Bool) {ops : List (Op K V)}
    (hr : exec Reference.step ⟨.empty, []⟩ ops = some r) :
    ∃ s, exec Session.step ⟨TreeMap.init order cardinalityEnabled, []⟩ ops = some s ∧ Refines r s := by
  have hinit : Refines (⟨.empty, []⟩ : Reference K V) ⟨TreeMap.init order cardinalityEnabled, []⟩ :=
    ⟨TreeMap.init_valid order cardinalityEnabled, rfl, rfl⟩
  exact exec_simulates step_refines hinit hr

/-- A tree map is a sorted map: whatever the order, it has the entries and gives the answers of the
reference after the same operations, and none of its own reads or writes fails. -/
theorem treeMap_refines (order : Int8) (cardinalityEnabled : Bool) (ops : List (Op K V)) (r : Reference K V)
    (hr : exec Reference.step ⟨.empty, []⟩ ops = some r) :
    ∃ s, exec Session.step ⟨TreeMap.init order cardinalityEnabled, []⟩ ops = some s ∧
      s.answers = r.answers ∧ s.map.entries = r.map.entries ∧ s.map.entries.Pairwise (fun a b => a.1 < b.1) ∧
      (∀ key, s.map.get key = r.map.get key) ∧ (∀ key, s.map.containsKey key = (r.map.get key).isSome) ∧
      s.map.size = s.map.entries.length := by
  obtain ⟨s, hs, h⟩ := run_refines order cardinalityEnabled hr
  refine ⟨s, hs, h.answers, h.entries, h.valid.sorted, fun key => ?_, fun key => ?_, h.valid.size⟩
  · rw [TreeMap.get, h.find, Reference.hit, Option.map_map]
    exact Option.map_id'
  · rw [TreeMap.containsKey, h.find, Reference.hit, Option.isSome_map]

/-- Nine keys in a tree of order 3, one of them taken out of a branch. -/
theorem treeMap_refines_nine :
    ∃ s, exec Session.step ⟨TreeMap.init 3 false, []⟩
        [.put 8 0, .put 3 0, .put 5 0, .put 1 0, .add 7 0 false, .put 2 0, .put 6 0, .put 4 0, .append 9 1, .put 3 2, .remove 5] = some s ∧
      s.answers = [some (5, 0), some (3, 0), none, none, none, none, none, none, none, none, none] ∧
      s.map.entries = [(1, 0), (2, 0), (3, 2), (4, 0), (6, 0), (7, 0), (8, 0), (9, 1)] ∧ s.map.size = 8 := by
  obtain ⟨s, hs, hans, hent, -, -, -, hsize⟩ := treeMap_refines (K := Nat) (V := Nat) 3 false
    [.put 8 0, .put 3 0, .put 5 0, .put 1 0, .add 7 0 false, .put 2 0, .put 6 0, .put 4 0, .append 9 1, .put 3 2, .remove 5]
    ⟨⟨[(1, 0), (2, 0), (3, 2), (4, 0), (6, 0), (7, 0), (8, 0), (9, 1)], by decide⟩,
      [some (5, 0), some (3, 0), none, none, none, none, none, none, none, none, none]⟩ (by rfl)
  exact ⟨s, hs, hans, hent, by rw [hsize, hent]; rfl⟩

end DeepFabric.Platform
