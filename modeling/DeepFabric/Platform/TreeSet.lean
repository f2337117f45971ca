/-
  DeepFabric.Platform.TreeSet — `TreeSet`, the sorted set in memory, and when it is one.

  An element is a key, which is all that the comparator looks at, and a value: two elements
  may be equal for the comparator and not identical. The nodes, the searches and `initialize`
  are those of `TreeMap`; the source has that code twice. All leaves of a `Node K V n` are `n`
  below it.

  Left out: the destruction of elements.
-/
import DeepFabric.Platform.TreeMap

namespace DeepFabric.Platform

open Lib Lib.Run Option
open TreeMap (clear clear_valid entries_nil find_eq find_nil located_of_root)

/-- `Branch::insert` of an element goes behind the last object below the node in front. -/
def Node.insertPlace {K V : Type} : (n : Nat) → Node K V n → List Nat → Nat → List Nat × Nat
  | 0, _, path, index => (path, index)
  | n + 1, b, [], index =>
    match Branch.getNode b (index - 1) with
    | some m => ((index - 1) :: (Node.lastLeaf n m).1, (Node.lastLeaf n m).2)
    | none => ([], index)
  | n + 1, b, i :: path, index =>
    match Branch.getNode b i with
    | some m => (i :: (insertPlace n m path index).1, (insertPlace n m path index).2)
    | none => (i :: path, index)

/-- The members of a set are those of a map. It counts no cardinalities. -/
abbrev TreeSet (K V : Type) := TreeMap K V

namespace TreeSet

section

variable {K V : Type}

def init (order : Int8) : TreeSet K V := TreeMap.init order false

/-- `node->insert`. -/
def insertAt (t : TreeSet K V) (n : Nat) (node : Node K V n) (path : List Nat) (index : Nat) (elem : K × V) : Option (TreeSet K V) :=
  let place := Node.insertPlace n node path index
  t.insert n node place.1 place.2 elem false

/-- `node->remove`, with `notifyRootEmpty` for the root. -/
def removeAt (t : TreeSet K V) (n : Nat) (node : Node K V n) (path : List Nat) (index : Nat) : Option (TreeSet K V) := do
  let (node, notify) ← Node.remove t.order n node path index
  let root := if notify && (Node.kind t.order n).physicalEntries node == 0 then TreeMap.notifyRootEmpty n node else some ⟨n, node⟩
  return { t with root := root, pEntries := t.pEntries - 1 }

variable [LinearOrder K] [DecidableEq V]

/-- The set, the status and what is written to `retelem`. -/
def add (t : TreeSet K V) (elem : K × V) : Option (TreeSet K V × Bool × Option (K × V)) :=
  match t.root with
  | some ⟨n, node⟩ =>
    let f := Node.find elem.1 n node
    match f.entry with
    | some oldelem =>
      if oldelem = elem then (insertAt t n node f.path f.index elem).map fun t => (t, false, none)
      else do
        let t ← removeAt t n node f.path f.index
        match t.root with
        | none => some (t.newRoot elem.1 elem.2, true, some oldelem)
        | some ⟨n, node⟩ =>
          let f := Node.find elem.1 n node
          (insertAt t n node f.path f.index elem).map fun t => (t, false, some oldelem)
    | none => (insertAt t n node f.path f.index elem).map fun t => (t, true, none)
  | none => some (t.newRoot elem.1 elem.2, true, none)

def contains (t : TreeSet K V) (e : K × V) : Bool × Option (K × V) := ((t.find e.1).isSome, t.find e.1)

def addAll (t : TreeSet K V) : List (K × V) → Option (TreeSet K V × Bool)
  | [] => some (t, false)
  | v :: vs =>
    if (contains t v).1 = false then do
      let (t, added, _) ← add t v
      let (t, ret) ← addAll t vs
      return (t, added || ret)
    else addAll t vs

def remove (t : TreeSet K V) (e : K × V) : Option (TreeSet K V × Bool × Option (K × V)) :=
  match t.root with
  | some ⟨n, node⟩ =>
    let f := Node.find e.1 n node
    match f.entry with
    | some x => do
      let t ← removeAt t n node f.path f.index
      return (if t.size = 0 then clear t else t, true, some x)
    | none => some (t, false, none)
  | none => some (t, false, none)

end

/-! ## Operations -/

section

variable {K V : Type} [LinearOrder K]

omit [LinearOrder K] in
theorem insertPlace_at : ∀ {n : Nat} {node : Node K V n} {path : List Nat} {index : Nat} {pre post : List (K × V)},
    Node.At n node path index pre post → Node.insertPlace n node path index = (path, index)
  | 0, _, _, _, _, _, _ => rfl
  | _ + 1, _, _ :: _, _, _, _, ⟨m, _, _, hm, hat, _, _⟩ => by
    rw [Node.insertPlace, hm]
    show (_ :: (Node.insertPlace _ m _ _).1, (Node.insertPlace _ m _ _).2) = _
    rw [insertPlace_at hat]

variable {t : TreeSet K V} (ht : TreeMap.Valid t)

include ht

/-- An element that equals none goes in where a search for it ends. -/
theorem insertAt_spec {n : Nat} {node : Node K V n} (hroot : t.root = some ⟨n, node⟩) {elem : K × V}
    (hnone : (Node.find elem.1 n node).entry = none) :
    ∃ t', insertAt t n node (Node.find elem.1 n node).path (Node.find elem.1 n node).index elem = some t' ∧ TreeMap.Valid t' ∧
      t'.entries = SortedMap.insertEntry elem.1 elem.2 t.entries ∧ t'.order = t.order := by
  obtain ⟨-, hloc⟩ := located_of_root ht hroot elem.1
  cases hloc with
  | hit h1 _ _ _ =>
    rw [hnone] at h1
    cases h1
  | miss _ hat hpre hpost _ =>
    obtain ⟨t', hins, hv, he, ho, -⟩ := TreeMap.insert_valid ht hroot hat elem.2 hpre hpost false fun hf => by cases hf
    exact ⟨t', by rw [insertAt, insertPlace_at hat]; exact hins, hv, he, ho⟩

theorem removeAt_spec {n : Nat} {node : Node K V n} (hroot : t.root = some ⟨n, node⟩) {key : K} {x : K × V}
    (hsome : (Node.find key n node).entry = some x) :
    ∃ t', removeAt t n node (Node.find key n node).path (Node.find key n node).index = some t' ∧ TreeMap.Valid t' ∧
      t'.entries = t.entries.filter (fun e => e.1 ≠ key) ∧ t'.order = t.order ∧ t'.size = t.size - 1 := by
  obtain ⟨-, hloc⟩ := located_of_root ht hroot key
  cases hloc with
  | hit h1 hx hon _ =>
    subst hx
    obtain ⟨node', notify, hrem, hv, he⟩ := TreeMap.remove_valid ht hroot hon
    exact ⟨_, by rw [removeAt, hrem]; rfl, hv, he, rfl, rfl⟩
  | miss h1 _ _ _ _ =>
    rw [hsome] at h1
    cases h1

theorem find_none_of_not_mem {key : K} (h : ∀ x ∈ t.entries, x.1 ≠ key) : t.find key = none := by
  rw [find_eq ht]
  cases hget : SortedMap.get ⟨t.entries, ht.sorted⟩ key with
  | none => rfl
  | some v => exact absurd rfl (h (key, v) (SortedMap.mem_entries.mpr hget))

theorem not_mem_of_find_none {key : K} (h : t.find key = none) : ∀ x ∈ t.entries, x.1 ≠ key := by
  rintro ⟨k, v⟩ hx rfl
  have hget := (SortedMap.mem_entries (m := ⟨t.entries, ht.sorted⟩)).mp hx
  rw [find_eq ht, hget] at h
  cases h

omit [LinearOrder K] ht in
theorem clear_order (t : TreeSet K V) : (clear t).order = t.order := by
  rw [clear]
  split <;> rfl

theorem remove_spec (e : K × V) :
    ∃ t', remove t e = some (t', (t.find e.1).isSome, t.find e.1) ∧ TreeMap.Valid t' ∧
      t'.entries = t.entries.filter (fun x => x.1 ≠ e.1) ∧ t'.order = t.order := by
  rcases hroot : t.root with _ | ⟨n, node⟩
  · refine ⟨t, ?_, ht, ?_, rfl⟩
    · rw [remove, hroot, find_nil hroot]
      rfl
    · rw [entries_nil hroot]
      rfl
  · obtain ⟨hfind, -⟩ := located_of_root ht hroot e.1
    cases hentry : (Node.find e.1 n node).entry with
    | none =>
      refine ⟨t, ?_, ht, ?_, rfl⟩
      · rw [remove, hroot, hfind]
        simp only [hentry]
        rfl
      · refine (List.filter_eq_self.mpr fun x hx => ?_).symm
        simp only [ne_eq, decide_not, Bool.not_eq_true', decide_eq_false_iff_not]
        exact not_mem_of_find_none ht (hfind.trans hentry) x hx
    | some x =>
      obtain ⟨t1, hremove, hv, he, ho, -⟩ := removeAt_spec ht hroot hentry
      have hresult : remove t e = some (if t1.size = 0 then clear t1 else t1, true, some x) := by
        rw [remove, hroot]
        simp only [hentry, hremove]
        rfl
      rw [hresult, hfind, hentry]
      by_cases hsize : t1.size = 0
      · obtain ⟨hcv, hce⟩ := clear_valid hv
        have hnil : t1.entries = [] := List.eq_nil_of_length_eq_zero (hv.size.symm.trans hsize)
        exact ⟨clear t1, by rw [if_pos hsize]; rfl, hcv, hce.trans (hnil.symm.trans he), (clear_order t1).trans ho⟩
      · exact ⟨t1, by rw [if_neg hsize]; rfl, hv, he, ho⟩

variable [DecidableEq V]

/-- No element is in the set that is to be added, and there is another one if an equal one is. -/
def Fresh (t : TreeSet K V) (elem : K × V) : Prop := ∀ oldelem ∈ t.find elem.1, oldelem ≠ elem ∧ t.size ≠ 1

theorem add_spec {elem : K × V} (hfresh : Fresh t elem) :
    ∃ t', add t elem = some (t', (t.find elem.1).isNone, t.find elem.1) ∧ TreeMap.Valid t' ∧
      t'.entries = SortedMap.insertEntry elem.1 elem.2 t.entries ∧ t'.order = t.order := by
  rcases hroot : t.root with _ | ⟨n, node⟩
  · obtain ⟨hv, he⟩ := TreeMap.newRoot_spec ht hroot elem.1 elem.2
    refine ⟨t.newRoot elem.1 elem.2, ?_, hv, he, rfl⟩
    rw [add, hroot, find_nil hroot]
    rfl
  · obtain ⟨hfind, -⟩ := located_of_root ht hroot elem.1
    cases hentry : (Node.find elem.1 n node).entry with
    | none =>
      obtain ⟨t', hins, hv, he, ho⟩ := insertAt_spec ht hroot hentry
      refine ⟨t', ?_, hv, he, ho⟩
      rw [add, hroot, hfind]
      simp only [hentry, hins]
      rfl
    | some oldelem =>
      obtain ⟨hne, hsize⟩ := hfresh oldelem (hfind.trans hentry)
      obtain ⟨t1, hremove, hv1, he1, ho1, hsize1⟩ := removeAt_spec ht hroot hentry
      -- something is left in the set, and none of it equals the element
      have hpos : t.size ≠ 0 := by
        intro hzero
        have hnil : t.entries = [] := List.eq_nil_of_length_eq_zero (ht.size.symm.trans hzero)
        have hnone : t.find elem.1 = none := find_none_of_not_mem ht (by
          rw [hnil]
          exact fun x hx => absurd hx List.not_mem_nil)
        rw [hfind, hentry] at hnone
        cases hnone
      have hnone1 : t1.find elem.1 = none := find_none_of_not_mem hv1 fun x hx => by
        rw [he1] at hx
        exact of_decide_eq_true (List.mem_filter.mp hx).2
      rcases hroot1 : t1.root with _ | ⟨n1, node1⟩
      · have hzero : t1.size = 0 := by
          show t1.pEntries = 0
          rw [hv1.size, entries_nil hroot1]
          rfl
        omega
      · obtain ⟨hfind1, -⟩ := located_of_root hv1 hroot1 elem.1
        obtain ⟨t', hins, hv, he, ho⟩ := insertAt_spec hv1 hroot1 (hfind1.symm.trans hnone1)
        refine ⟨t', ?_, hv, ?_, ho.trans ho1⟩
        · rw [add, hroot, hfind]
          simp only [hentry, if_neg hne, hremove, bind_eq_bind, bind_some, hroot1, hins]
          rfl
        · rw [he, he1, SortedMap.insertEntry_filter elem.1 elem.2 ht.sorted]

end

/-! ## How full the nodes are -/

section

variable {K V : Type} (order : Nat)

def leafMaxIndex : Int := 2 * (order + 1) - 1

def leafLowWater : Int := (leafMaxIndex order + 1 - 1) / 2 - 1

def branchMaxIndex : Int := order

def branchLowWater : Int := (order - 1) / 2

/-- A node with a parent, and everything below it. -/
def Bounded : (n : Nat) → Node K V n → Prop
  | 0, os => leafLowWater order ≤ (List.length os : Int) - 1 ∧ (List.length os : Int) - 1 ≤ leafMaxIndex order - 1
  | n + 1, b => branchLowWater order ≤ Branch.lastIndex b ∧ Branch.lastIndex b ≤ branchMaxIndex order - 1 ∧
      ∀ m ∈ Branch.nodes b, Bounded n m

/-- The root, which may be a low leaf, or a branch of two nodes. -/
def RootBounded : (n : Nat) → Node K V n → Prop
  | 0, os => 0 ≤ (List.length os : Int) - 1 ∧ (List.length os : Int) - 1 ≤ leafMaxIndex order - 1
  | n + 1, b => 1 ≤ Branch.lastIndex b ∧ Branch.lastIndex b ≤ branchMaxIndex order - 1 ∧ ∀ m ∈ Branch.nodes b, Bounded order n m

variable {order}

theorem bounded_of_fits (hne : order ≠ 5) : ∀ {n : Nat} {node : Node K V n},
    (Node.kind order n).Fits (Node.Inner order n) (Node.least order n) node → Bounded order n node
  | 0, os, h => by
    have hleast : order ≤ List.length os := h.least
    have hroom : List.length os < 2 * (order + 1) := h.room
    rw [Bounded, leafLowWater, leafMaxIndex]
    omega
  | n + 1, b, h => by
    have hleast : Branch.least order ≤ Branch.lastIndex b := h.least
    have hroom : Branch.lastIndex b < order := h.room
    rw [Branch.least, if_neg hne] at hleast
    refine ⟨?_, ?_, fun m hm => bounded_of_fits hne (h.inner m hm)⟩
    · rw [branchLowWater]
      omega
    · rw [branchMaxIndex]
      omega

theorem bounded_of_valid [LinearOrder K] {t : TreeMap K V} (ht : t.Valid) (hne : t.order ≠ 5) {n : Nat} {node : Node K V n}
    (hroot : t.root = some ⟨n, node⟩) : RootBounded t.order n node := by
  obtain ⟨hin, hpos, hroom⟩ := ht.root hroot
  cases n with
  | zero =>
    have hpos : 0 < List.length node := hpos
    have hroom : List.length node < 2 * (t.order + 1) := hroom
    rw [RootBounded, leafMaxIndex]
    omega
  | succ n =>
    have hroom : Branch.lastIndex node < t.order := hroom
    refine ⟨hpos, ?_, fun m hm => bounded_of_fits hne (hin m hm)⟩
    rw [branchMaxIndex]
    omega

end

/-! ## Refinement of a sorted set -/

section

variable {K V : Type} [LinearOrder K] [DecidableEq V]

inductive Op (K V : Type) where
  | add (elem : K × V)
  | addAll (c : List (K × V))
  | remove (e : K × V)
  | contains (e : K × V)
  | clear

/-- The answers are statuses with what is written to `retelem`, the last one first. -/
structure Session (K V : Type) where
  set : TreeSet K V
  answers : List (Bool × Option (K × V))

def Session.step (s : Session K V) : Op K V → Option (Session K V)
  | .add elem => (add s.set elem).map fun p => ⟨p.1, p.2 :: s.answers⟩
  | .addAll c => (addAll s.set c).map fun p => ⟨p.1, (p.2, none) :: s.answers⟩
  | .remove e => (remove s.set e).map fun p => ⟨p.1, p.2 :: s.answers⟩
  | .contains e => some ⟨s.set, contains s.set e :: s.answers⟩
  | .clear => some ⟨clear s.set, s.answers⟩

/-- What the set is for. -/
structure Reference (K V : Type) [LinearOrder K] where
  set : SortedMap K V
  answers : List (Bool × Option (K × V))

def Reference.hit (r : Reference K V) (key : K) : Option (K × V) := (r.set.get key).map fun v => (key, v)

def addNew (m : SortedMap K V) (elem : K × V) : SortedMap K V := if (m.get elem.1).isSome then m else m.put elem.1 elem.2

/-- An added element takes the place of an equal one. -/
def Reference.next (r : Reference K V) : Op K V → Reference K V
  | .add elem => ⟨r.set.put elem.1 elem.2, ((r.set.get elem.1).isNone, r.hit elem.1) :: r.answers⟩
  | .addAll c => ⟨c.foldl addNew r.set, (c.any fun v => (r.set.get v.1).isNone, none) :: r.answers⟩
  | .remove e => ⟨r.set.remove e.1, ((r.set.get e.1).isSome, r.hit e.1) :: r.answers⟩
  | .contains e => ⟨r.set, ((r.set.get e.1).isSome, r.hit e.1) :: r.answers⟩
  | .clear => ⟨.empty, r.answers⟩

instance (t : TreeSet K V) (elem : K × V) : Decidable (Fresh t elem) :=
  inferInstanceAs (Decidable (∀ oldelem ∈ t.find elem.1, oldelem ≠ elem ∧ t.size ≠ 1))

/-- An element that is added by itself. -/
def Allowed (s : Session K V) (op : Op K V) : Prop :=
  match op with
  | .add elem => Fresh s.set elem
  | _ => True

instance (s : Session K V) (op : Op K V) : Decidable (Allowed s op) := by
  cases op <;> unfold Allowed <;> infer_instance

/-- A set that has the elements of the reference. -/
structure Refines (order : Nat) (r : SortedMap K V) (t : TreeSet K V) : Prop where
  valid : TreeMap.Valid t
  entries : t.entries = r.entries
  order : t.order = order

variable {order : Nat} {r : SortedMap K V} {t : TreeSet K V}

omit [DecidableEq V] in
theorem Refines.find (h : Refines order r t) (key : K) : t.find key = (r.get key).map fun v => (key, v) := by
  have hr : (⟨t.entries, h.valid.sorted⟩ : SortedMap K V) = r := SortedMap.ext h.entries
  rw [find_eq h.valid, hr]

theorem Refines.add (h : Refines order r t) {elem : K × V} (hfresh : Fresh t elem) :
    ∃ t', add t elem = some (t', (r.get elem.1).isNone, t.find elem.1) ∧ Refines order (r.put elem.1 elem.2) t' := by
  obtain ⟨t', hadd, hv, he, ho⟩ := add_spec h.valid hfresh
  refine ⟨t', ?_, hv, ?_, ho.trans h.order⟩
  · rw [hadd, h.find, isNone_map]
  · rw [he, h.entries]
    rfl

theorem Refines.addAll (h : Refines order r t) (c : List (K × V)) :
    ∃ t', addAll t c = some (t', c.any fun v => (r.get v.1).isNone) ∧ Refines order (c.foldl addNew r) t' := by
  induction c generalizing r t with
  | nil => exact ⟨t, rfl, h⟩
  | cons v vs ih =>
    have hcontains : (contains t v).1 = (r.get v.1).isSome := by rw [contains, h.find, isSome_map]
    cases hget : r.get v.1 with
    | none =>
      have hnone : t.find v.1 = none := by rw [h.find, hget, map_none]
      have hfresh : Fresh t v := fun oldelem hold => by
        rw [hnone] at hold
        cases hold
      obtain ⟨t1, hadd, h1⟩ := Refines.add h hfresh
      obtain ⟨t', hall, h'⟩ := ih h1
      refine ⟨t', ?_, ?_⟩
      · rw [TreeSet.addAll, hcontains, hget]
        simp only [isSome_none, if_true, hadd, bind_eq_bind, bind_some, hall, hget, List.any_cons, isNone_none,
          Bool.true_or]
        rfl
      · rw [List.foldl_cons, addNew, hget]
        exact h'
    | some w =>
      obtain ⟨t', hall, h'⟩ := ih h
      refine ⟨t', ?_, ?_⟩
      · rw [TreeSet.addAll, hcontains, hget]
        simp only [isSome_some, Bool.true_eq_false, if_false, hall, List.any_cons, hget, isNone_some, Bool.false_or]
      · rw [List.foldl_cons, addNew, hget]
        exact h'

omit [DecidableEq V] in
theorem Refines.remove (h : Refines order r t) (e : K × V) :
    ∃ t', remove t e = some (t', (r.get e.1).isSome, t.find e.1) ∧ Refines order (r.remove e.1) t' := by
  obtain ⟨t', hremove, hv, he, ho⟩ := remove_spec h.valid e
  refine ⟨t', ?_, hv, ?_, ho.trans h.order⟩
  · rw [hremove, h.find, isSome_map]
  · rw [he, h.entries]
    rfl

/-- What a session and the reference have in common. -/
def Agree (order : Nat) (s : Session K V) (r : Reference K V) : Prop := Refines order r.set s.set ∧ s.answers = r.answers

theorem step_agrees {s : Session K V} {r : Reference K V} {op : Op K V} (h : Agree order s r) (hop : Allowed s op) :
    ∃ s', Session.step s op = some s' ∧ Agree order s' (r.next op) := by
  obtain ⟨h, hans⟩ := h
  have hhit (key : K) : s.set.find key = r.hit key := h.find key
  cases op with
  | add elem =>
    obtain ⟨t', hadd, h'⟩ := h.add hop
    refine ⟨⟨t', ((r.set.get elem.1).isNone, s.set.find elem.1) :: s.answers⟩, by rw [Session.step, hadd]; rfl, h', ?_⟩
    show _ :: s.answers = _ :: r.answers
    rw [hhit, hans]
  | addAll c =>
    obtain ⟨t', hadd, h'⟩ := h.addAll c
    refine ⟨⟨t', (c.any fun v => (r.set.get v.1).isNone, none) :: s.answers⟩, by rw [Session.step, hadd]; rfl, h', ?_⟩
    show _ :: s.answers = _ :: r.answers
    rw [hans]
  | remove e =>
    obtain ⟨t', hremove, h'⟩ := h.remove e
    refine ⟨⟨t', ((r.set.get e.1).isSome, s.set.find e.1) :: s.answers⟩, by rw [Session.step, hremove]; rfl, h', ?_⟩
    show _ :: s.answers = _ :: r.answers
    rw [hhit, hans]
  | contains e =>
    refine ⟨_, rfl, h, ?_⟩
    show _ :: s.answers = _ :: r.answers
    rw [contains, hhit, hans, Reference.hit, isSome_map]
  | clear =>
    obtain ⟨hv, he⟩ := clear_valid h.valid
    exact ⟨_, rfl, ⟨hv, he, (clear_order s.set).trans h.order⟩, hans⟩

/-- A tree set is a sorted set, if no element is added again and none in place of the only one. Its nodes are as full as
they have to be, but for order 5. -/
theorem treeSet_refines (order : Int8) {ops : List (Op K V)} (hops : Meets Session.step Allowed ⟨init order, []⟩ ops) :
    ∃ s, exec Session.step ⟨init order, []⟩ ops = some s ∧
      s.answers = (ops.foldl Reference.next ⟨.empty, []⟩).answers ∧
      s.set.entries = (ops.foldl Reference.next ⟨.empty, []⟩).set.entries ∧ s.set.entries.Pairwise (fun a b => a.1 < b.1) ∧
      s.set.size = s.set.entries.length ∧
      ((init order : TreeSet K V).order ≠ 5 → ∀ {n : Nat} {node : Node K V n}, s.set.root = some ⟨n, node⟩ → RootBounded s.set.order n node) := by
  have hinit : Agree (init order : TreeSet K V).order ⟨init order, []⟩ (⟨.empty, []⟩ : Reference K V) :=
    ⟨⟨TreeMap.init_valid order false, rfl, rfl⟩, rfl⟩
  obtain ⟨s, hs, h, hans⟩ := exec_of_meets step_agrees hinit hops
  refine ⟨s, hs, hans, h.entries, h.valid.sorted, h.valid.size, fun hne {n node} hroot => ?_⟩
  exact bounded_of_valid h.valid (by rw [h.order]; exact hne) hroot

theorem nine_elements : ∃ s, exec Session.step ⟨init 3, []⟩ [.addAll [(8, 0), (3, 0), (5, 0), (1, 0), (7, 0), (3, 1), (2, 0), (6, 0)],
      .add (4, 0), .add (9, 0), .add (3, 2), .remove (5, 7), .contains (3, 0)] = some s ∧
    s.answers = [(true, some (3, 2)), (true, some (5, 0)), (false, some (3, 0)), (true, none), (true, none), (true, none)] ∧
    s.set.entries = [(1, 0), (2, 0), (3, 2), (4, 0), (6, 0), (7, 0), (8, 0), (9, 0)] := by
  obtain ⟨s, hs, hans, hent, -⟩ := @treeSet_refines Nat Nat _ _ 3 [.addAll [(8, 0), (3, 0), (5, 0), (1, 0), (7, 0), (3, 1), (2, 0), (6, 0)],
    .add (4, 0), .add (9, 0), .add (3, 2), .remove (5, 7), .contains (3, 0)] (by decide +kernel)
  exact ⟨s, hs, hans, hent⟩

/-- An element that is in the set already is put in once more; and the replacement of the only element tells that no equal one was there. -/
theorem element_twice :
    (exec Session.step ⟨init 3, []⟩ [.add (1, 0), .add (1, 0)]).map (fun s => (s.set.entries, s.set.size)) = some ([(1, 0), (1, 0)], 2) ∧
    (exec Session.step ⟨init 3, []⟩ [.add (1, 0), .add (1, 1)]).map (fun s => (s.set.entries, s.answers)) =
      some ([((1, 1) : Nat × Nat)], [(true, some (1, 0)), (true, none)]) := by
  decide +kernel

end

end TreeSet

end DeepFabric.Platform
