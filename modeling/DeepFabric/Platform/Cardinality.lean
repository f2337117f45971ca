/-
  DeepFabric.Platform.Cardinality — the counts a `TreeMap` keeps of how far neighbouring keys agree
  (cxx/util/TreeMap.h and TreeMap.cxx, under COM_DEEPIS_DB_CARDINALITY).

  `m_cardinality[i]` is the number of keys whose first part to differ from the key before them is
  part `i`. An entry that comes is counted where the search for its place came furthest, over all
  the keys that it compared, and one that goes where its two neighbours are.

  As built, this holds as long as no `NaN` decides (`nan_miscounted`): a key with one weighs more than
  any other from both sides, and keys that agree need not be neighbours.

  Counts are numbers without bound.
-/
import DeepFabric.Lib.CommonPrefix
import DeepFabric.Platform.CompositeKey
import DeepFabric.Platform.TreeIterator
import DeepFabric.Platform.TreeMapIterator

namespace DeepFabric.Platform.Cardinality

open Lib Lib.Run CommonPrefix TreeIteration List
open Option (bind_some elim_some map_some)
open Prod (fst snd)

variable {K V : Type}

/-! ## Searching with a position -/

section Search

variable (compare : K → K → Int × Nat)

/-- `compare` with `pos`, which it only raises. -/
def compareAt (o1 o2 : K) (pos : Nat) : Int × Nat :=
  let (cmp, i) := compare o1 o2
  (cmp, if pos < i then i else pos)

def scanAt (keys : List K) (what : K) : List Nat → Nat → (Nat × Bool) × Nat
  | [], pos => ((keys.length, false), pos)
  | i :: is, pos =>
    match keys[i]? with
    | none => ((keys.length, false), pos)
    | some key =>
      let (weight, pos) := compareAt compare key what pos
      if 0 < weight then ((i, false), pos) else scanAt keys what is pos

/-- `finish` is one above the source's. -/
def probeAt (keys : List K) (what : K) : Nat → Nat → Nat → Option Nat → Nat → (Nat × Bool) × Nat
  | 0, start, _, last, pos => scanAt compare keys what (last.elim [] fun last => List.range' start (last + 1 - start)) pos
  | fuel + 1, start, finish, last, pos =>
    if start < finish then
      let mid := (start + (finish - 1)) / 2
      match keys[mid]? with
      | none => ((keys.length, false), pos)
      | some key =>
        let (weight, pos) := compareAt compare key what pos
        if weight = 0 then ((mid, true), pos)
        else if weight < 0 then probeAt keys what fuel (mid + 1) finish last pos
        else probeAt keys what fuel start mid (some (finish - 1)) pos
    else scanAt compare keys what (last.elim [] fun last => List.range' start (last + 1 - start)) pos

def searchAt (what : K) (keys : List K) (pos : Nat) : (Nat × Bool) × Nat := probeAt compare keys what keys.length 0 keys.length none pos

/-- `find`, with `pos` from 0 on. -/
def findAt (key : K) (n : Nat) (node : Node K V n) : Found K V × Nat := Node.findBy (searchAt compare key) n node 0

end Search

/-! ## The map -/

structure CountedMap (K V : Type) where
  map : TreeMap K V
  keyParts : Int8
  cardinality : Option (List Int)

namespace CountedMap

def init (order : Int8) (cardinalityEnabled : Bool) (keyParts : Int8) : CountedMap K V where
  map := TreeMap.init order cardinalityEnabled
  keyParts := keyParts
  cardinality := if keyParts.toInt < 2 then none else some (List.replicate keyParts.toInt.toNat 0)

variable (compare : K → K → Int × Nat) (t : CountedMap K V)

/-- `m_cardinality[pos]`, if they are kept, goes up or down. -/
def count (change : Int) (pos : Nat) : Option (CountedMap K V) :=
  if t.map.cardinalityEnabled then
    match t.cardinality with
    | some cardinality => (bump change cardinality pos).map fun cardinality => { t with cardinality := some cardinality }
    | none => some t
  else some t

def getCardinalityPosition (key : K) (c : Cursor) : Nat :=
  let nextPos := (t.map.nextEntry c).elim 0 fun ne => (compareAt compare key ne.1.1 0).2
  let prevPos := (t.map.previousEntry c).elim 0 fun pe => (compareAt compare key pe.1.1 0).2
  if nextPos < prevPos then prevPos else nextPos

def put (key : K) (val : V) : Option (CountedMap K V × Option (K × V)) :=
  match t.map.root with
  | some ⟨n, node⟩ =>
    let (f, pos) := findAt compare key n node
    match f.entry with
    | some x =>
      (Node.assign (key, val) n node f.path f.index).map fun node => ({ t with map := { t.map with root := some ⟨n, node⟩ } }, some x)
    | none => do
      let map ← t.map.insert n node f.path f.index (key, val) false
      let t ← { t with map := map }.count 1 pos
      return (t, none)
  | none => ({ t with map := t.map.newRoot key val }.count 1 0).map fun t => (t, none)

def add (key : K) (val : V) (replace : Bool) : Option (CountedMap K V × Option (K × V) × Bool) :=
  match t.map.root with
  | some ⟨n, node⟩ =>
    let (f, pos) := findAt compare key n node
    match f.entry with
    | some x =>
      if replace then
        (Node.assign (key, val) n node f.path f.index).map fun node =>
          ({ t with map := { t.map with root := some ⟨n, node⟩ } }, some x, f.last)
      else some (t, some x, f.last)
    | none => do
      let map ← t.map.insert n node f.path f.index (key, val) f.last
      let t ← { t with map := map }.count 1 pos
      return (t, none, !t.map.cardinalityEnabled && f.last)
  | none => ({ t with map := t.map.newRoot key val }.count 1 0).map fun t => (t, none, !t.map.cardinalityEnabled)

/-- `add` without a search: the position is that of the last entry. -/
def append (key : K) (val : V) : Option (CountedMap K V) :=
  match t.map.root with
  | some ⟨n, node⟩ => do
    let (path, index) := Node.lastLeaf n node
    let pos ←
      if t.map.cardinalityEnabled then (Node.getEntry n node path (index - 1 : Int)).map fun x => (compareAt compare key x.1 0).2
      else some 0
    let map ← t.map.insert n node path index (key, val) true
    { t with map := map }.count 1 pos
  | none => { t with map := t.map.newRoot key val }.count 1 0

def clear : CountedMap K V :=
  { t with
    map := t.map.clear
    cardinality :=
      if t.map.cardinalityEnabled then t.cardinality.map fun _ => List.replicate t.keyParts.toInt.toNat 0 else t.cardinality }

def remove (key : K) : Option (CountedMap K V × Option (K × V)) :=
  match t.map.root with
  | some ⟨n, node⟩ =>
    let (f, _) := findAt compare key n node
    match f.entry with
    | some x => do
      let t ← t.count (-1) (t.getCardinalityPosition compare key ⟨f.path, f.index⟩)
      let (node, notify) ← Node.remove t.map.order n node f.path f.index
      let root := if notify && (Node.kind t.map.order n).physicalEntries node == 0 then TreeMap.notifyRootEmpty n node else some ⟨n, node⟩
      let t : CountedMap K V := { t with map := { t.map with root := root, pEntries := t.map.pEntries - 1 } }
      return (if t.map.size = 0 then t.clear else t, some x)
    | none => some (t, none)
  | none => some (t, none)

/-- The loop of `recalculateCardinality`, up to a number of turns. -/
def recalculateFrom : Nat → EntrySetIterator K V → Option K → List Int → Option (List Int)
  | 0, _, _, _ => none
  | turns + 1, it, lastKey, cardinality =>
    if it.hasNext then
      match it.next with
      | (some x, it) =>
        let pos := lastKey.elim 0 fun lastKey => (compareAt compare lastKey x.1 0).2
        (bump 1 cardinality pos).bind (recalculateFrom turns it (some x.1))
      | (none, _) => none
    else some cardinality

def recalculateCardinality : Option (CountedMap K V) :=
  match t.cardinality with
  | some _ =>
    (recalculateFrom compare (t.map.size + 1) (iterator t.map) none (List.replicate t.keyParts.toInt.toNat 0)).map fun cardinality =>
      { t with cardinality := some cardinality }
  | none => some t

def step : Op K V → Option (CountedMap K V)
  | .put key val => (t.put compare key val).map fst
  | .remove key => (t.remove compare key).map fst
  | .clear => some t.clear
  | .add key val replace => (t.add compare key val replace).map fst
  | .append key val => t.append compare key val

end CountedMap

/-! ## What the search compares -/

section Compared

variable {compare : K → K → Int × Nat} {keys : List K} {what : K}

/-- The position goes up to what a key has in common with the other. -/
theorem compareAt_pos (o1 o2 : K) (pos : Nat) : (compareAt compare o1 o2 pos).2 = max pos (compare o1 o2).2 := by
  show (if pos < (compare o1 o2).2 then (compare o1 o2).2 else pos) = _
  split_ifs with h
  · exact (Nat.max_eq_right (Nat.le_of_lt h)).symm
  · exact (Nat.max_eq_left (Nat.le_of_not_lt h)).symm

variable {pos : Nat}

theorem scanAt_keeps {P : Nat → Prop} (hP : ∀ k ∈ keys, ∀ {pos}, P pos → P (max pos (compare k what).2)) {is : List Nat}
    (h : P pos) : P (scanAt compare keys what is pos).2 := by
  induction is generalizing pos with
  | nil => exact h
  | cons i is ih =>
    rw [scanAt]
    cases hk : keys[i]? with
    | none => exact h
    | some key =>
      have hnext := hP key (mem_of_getElem? hk) h
      rw [← compareAt_pos] at hnext
      dsimp only
      split_ifs
      · exact hnext
      · exact ih hnext

theorem probeAt_keeps {P : Nat → Prop} (hP : ∀ k ∈ keys, ∀ {pos}, P pos → P (max pos (compare k what).2)) {fuel start finish : Nat}
    {last : Option Nat} (h : P pos) : P (probeAt compare keys what fuel start finish last pos).2 := by
  induction fuel generalizing start finish last pos with
  | zero => exact scanAt_keeps hP h
  | succ fuel ih =>
    rw [probeAt]
    split_ifs with hlt
    · dsimp only
      cases hk : keys[(start + (finish - 1)) / 2]? with
      | none => exact h
      | some key =>
        have hnext := hP key (mem_of_getElem? hk) h
        rw [← compareAt_pos] at hnext
        dsimp only
        split_ifs
        · exact hnext
        · exact ih hnext
        · exact ih hnext
    · exact scanAt_keeps hP h

/-- Whatever the keys, what is found weighs the same, and no place is behind the last. -/
theorem scanAt_found {is : List Nat} : (scanAt compare keys what is pos).1.2 = false ∧ (scanAt compare keys what is pos).1.1 ≤ keys.length := by
  induction is generalizing pos with
  | nil => exact ⟨rfl, Nat.le_refl _⟩
  | cons i is ih =>
    rw [scanAt]
    cases hk : keys[i]? with
    | none => exact ⟨rfl, Nat.le_refl _⟩
    | some key =>
      dsimp only
      split_ifs
      · exact ⟨rfl, Nat.le_of_lt (List.getElem?_eq_some_iff.mp hk).1⟩
      · exact ih

theorem probeAt_found {fuel start finish : Nat} {last : Option Nat} :
    let r := (probeAt compare keys what fuel start finish last pos).1
    (r.2 = true → ∃ key, keys[r.1]? = some key ∧ (compare key what).1 = 0) ∧ r.1 ≤ keys.length := by
  have hscan {is : List Nat} {pos : Nat} :
      let r := (scanAt compare keys what is pos).1
      (r.2 = true → ∃ key, keys[r.1]? = some key ∧ (compare key what).1 = 0) ∧ r.1 ≤ keys.length := by
    obtain ⟨hmiss, hle⟩ : (scanAt compare keys what is pos).1.2 = false ∧ (scanAt compare keys what is pos).1.1 ≤ keys.length := scanAt_found
    exact ⟨fun h => absurd (hmiss.symm.trans h) (by decide), hle⟩
  induction fuel generalizing start finish last pos with
  | zero => exact hscan
  | succ fuel ih =>
    rw [probeAt]
    split_ifs with hlt
    · dsimp only
      cases hk : keys[(start + (finish - 1)) / 2]? with
      | none => exact ⟨fun h => (by cases h), Nat.le_refl _⟩
      | some key =>
        dsimp only
        split_ifs with hzero
        · exact ⟨fun _ => ⟨key, hk, hzero⟩, Nat.le_of_lt (List.getElem?_eq_some_iff.mp hk).1⟩
        · exact ih
        · exact ih
    · exact hscan

theorem findAt_found (key : K) {n : Nat} {node : Node K V n} :
    Placed (fun k => (compare k key).1 = 0) (fun _ => True) (fun _ => True) (fun _ _ => True) n node (findAt compare key n node) := by
  refine Node.findBy_placed (fun _ => ?_) (fun _ _ => trivial) (pairwise_iff_getElem.mpr fun _ _ _ _ _ => ⟨id, id⟩)
  exact ⟨probeAt_found.1, probeAt_found.2, fun _ {_ _} _ _ => trivial, fun _ {_ _} _ _ => trivial, fun _ {_ _} _ _ => trivial⟩

end Compared

/-! Where the keys are in order. -/

section Ordered

variable {α : Type} {values : K → List (WithBot α)}

/-- The values of the keys, in order. -/
def row (values : K → List (WithBot α)) (entries : List (K × V)) : List (List (WithBot α)) := entries.map fun e => values e.1

theorem row_mid (pre post : List (K × V)) (e : K × V) : row values (pre ++ e :: post) = row values pre ++ values e.1 :: row values post := by
  rw [row, map_append, map_cons]
  rfl

theorem row_append (pre post : List (K × V)) : row values (pre ++ post) = row values pre ++ row values post := map_append

variable [LinearOrder α]

/-- A comparator that goes by the values of keys, `n` of each. -/
structure Weighs (compare : K → K → Int × Nat) (values : K → List (WithBot α)) (n : Nat) : Prop where
  eq : ∀ a b, compare a b = weigh (values a) (values b)
  length : ∀ k, (values k).length = n

variable {compare : K → K → Int × Nat} {parts : Nat} (hw : Weighs compare values parts) {a b : K}

include hw

theorem Weighs.of_comparable (h : Comparable (values a) (values b)) :
    compare a b = (if values a < values b then -1 else if values a = values b then 0 else 1, common (values a) (values b)) := by
  rw [hw.eq, weigh_eq h ((hw.length a).trans (hw.length b).symm)]

theorem Weighs.below_iff : (compare a b).1 < 0 ↔ Comparable (values a) (values b) ∧ values a < values b := by
  constructor
  · intro h
    have hcmp : Comparable (values a) (values b) := comparable_of_weigh (by rwa [← hw.eq])
    refine ⟨hcmp, ?_⟩
    rw [hw.of_comparable hcmp] at h
    dsimp only at h
    split_ifs at h with hlt heq
    · exact hlt
    · exact absurd h (by decide)
    · exact absurd h (by decide)
  · intro h
    rw [hw.of_comparable h.1, if_pos h.2]
    exact (by decide : (-1 : Int) < 0)

theorem Weighs.same (h : (compare a b).1 = 0) : values a = values b :=
  eq_of_weigh ((hw.length a).trans (hw.length b).symm) (by rwa [← hw.eq])

variable {keys : List K} {what : K}

variable {pos : Nat}

/-- Once nothing is in question, the scan ends where it begins. -/
theorem scanAt_sought {start : Nat} {last : Option Nat} (hcmp : ∀ k ∈ keys, Comparable (values k) (values what))
    (h : Window (keys.map values) (values what) start start last)
    (hleft : ∀ {k}, 0 < start → keys[start - 1]? = some k → (compare k what).2 ≤ pos)
    (hright : ∀ {k}, keys[start]? = some k → (compare k what).2 ≤ pos) :
    Sought (fun k => (compare k what).1 = 0) (fun k => values k < values what) (fun k => values what < values k)
      (fun pos k => (compare k what).2 ≤ pos) keys
      (scanAt compare keys what (last.elim [] fun last => List.range' start (last + 1 - start)) pos) := by
  obtain ⟨is, his⟩ : ∃ is, is = last.elim [] fun last => List.range' start (last + 1 - start) := ⟨_, rfl⟩
  rw [← his]
  have hlen := h.length
  rw [length_map] at hlen
  have hres : (scanAt compare keys what is pos).1 = (start, false) := by
    cases last with
    | none =>
      have hstart := h.unscanned rfl
      rw [length_map] at hstart
      rw [his, hstart]
      rfl
    | some l =>
      obtain ⟨h1, h2⟩ := h.scanned rfl
      rw [length_map] at h2
      have hk : keys[start]? = some keys[start] := List.getElem?_eq_getElem (by omega)
      have hv : values what < values keys[start] := h.above (Nat.le_refl _) (by rw [List.getElem?_map, hk, map_some])
      have hweight : 0 < (compare keys[start] what).1 := by
        rw [hw.of_comparable (hcmp _ (getElem_mem _)), if_neg (not_lt_of_gt hv), if_neg (ne_of_gt hv)]
        exact Int.one_pos
      obtain ⟨n, hn⟩ : ∃ n, l + 1 - start = n + 1 := ⟨l - start, by omega⟩
      rw [his, elim_some, hn, List.range'_succ, scanAt, hk]
      exact congrArg fst (if_pos hweight)
  have hpos : pos ≤ (scanAt compare keys what is pos).2 :=
    scanAt_keeps (P := fun p => pos ≤ p) (fun _ _ {p} hp => Nat.le_trans hp (Nat.le_max_left ..)) (Nat.le_refl pos)
  have hmap {j : Nat} {k : K} (hk : keys[j]? = some k) : (keys.map values)[j]? = some (values k) := by
    rw [List.getElem?_map, hk, map_some]
  refine ⟨fun hhit => ?_, ?_, fun _ {j k} hj hk => ?_, fun _ {j k} hj hk => ?_, fun _ {j k} hj hk => ?_⟩
  · rw [hres] at hhit
    cases hhit
  · rw [hres]
    exact hlen
  · rw [hres] at hj
    exact h.below hj (hmap hk)
  · rw [hres] at hj
    exact h.above hj (hmap hk)
  · rw [hres] at hj
    rcases hj with rfl | hj
    · exact Nat.le_trans (hright hk) hpos
    · have hj : j + 1 = start := hj
      refine Nat.le_trans (hleft (by omega) ?_) hpos
      rwa [← hj, Nat.add_sub_cancel]

theorem probeAt_sought {fuel start finish : Nat} {last : Option Nat} (hs : (keys.map values).Pairwise (· < ·))
    (hcmp : ∀ k ∈ keys, Comparable (values k) (values what)) (hfuel : finish - start ≤ fuel)
    (h : Window (keys.map values) (values what) start finish last)
    (hleft : ∀ {k}, 0 < start → keys[start - 1]? = some k → (compare k what).2 ≤ pos)
    (hright : ∀ {k}, keys[finish]? = some k → (compare k what).2 ≤ pos) :
    Sought (fun k => (compare k what).1 = 0) (fun k => values k < values what) (fun k => values what < values k)
      (fun pos k => (compare k what).2 ≤ pos) keys (probeAt compare keys what fuel start finish last pos) := by
  have hle := h.le
  have hlen := h.length
  rw [length_map] at hlen
  induction fuel generalizing start finish last pos with
  | zero =>
    have he : start = finish := by omega
    subst he
    exact scanAt_sought hw hcmp h hleft hright
  | succ fuel ih =>
    by_cases hlt : start < finish
    · obtain ⟨mid, hmid⟩ : ∃ mid, mid = (start + (finish - 1)) / 2 := ⟨_, rfl⟩
      have hm1 : start ≤ mid := by omega
      have hm2 : mid < finish := by omega
      have hk : keys[mid]? = some keys[mid] := List.getElem?_eq_getElem (by omega)
      have hv : (keys.map values)[mid]? = some (values keys[mid]) := by rw [List.getElem?_map, hk, map_some]
      have hc := hw.of_comparable (hcmp _ (getElem_mem (show mid < keys.length by omega)))
      obtain ⟨pos', hpos'⟩ : ∃ pos', pos' = (compareAt compare keys[mid] what pos).2 := ⟨_, rfl⟩
      have hmax := hpos'.trans (compareAt_pos keys[mid] what pos)
      have hprobe : probeAt compare keys what (fuel + 1) start finish last pos =
          if (compare keys[mid] what).1 = 0 then ((mid, true), pos')
          else if (compare keys[mid] what).1 < 0 then probeAt compare keys what fuel (mid + 1) finish last pos'
          else probeAt compare keys what fuel start mid (some (finish - 1)) pos' := by
        rw [probeAt, if_pos hlt, ← hmid, hpos']
        simp only [hk]
        rfl
      rw [hprobe]
      rcases lt_trichotomy (values keys[mid]) (values what) with hlt | heq | hgt
      · rw [if_pos hlt] at hc
        have hweight : (compare keys[mid] what).1 = -1 := congrArg fst hc
        rw [if_neg (by omega), if_pos (by omega)]
        refine ih (by omega) (h.up hs hm2 hv hlt) (fun {k} _ hk' => ?_) (fun {k} hk' => ?_) (by omega) hlen
        · rw [Nat.add_sub_cancel, hk] at hk'
          cases hk'
          omega
        · exact Nat.le_trans (hright hk') (by omega)
      · rw [if_neg (by rw [heq]; exact lt_irrefl _), if_pos heq] at hc
        have hweight : (compare keys[mid] what).1 = 0 := congrArg fst hc
        rw [if_pos hweight]
        refine ⟨fun _ => ⟨keys[mid], hk, hweight⟩, ?_, fun h => (by cases h), fun h => (by cases h), fun h => (by cases h)⟩
        show mid ≤ keys.length
        omega
      · rw [if_neg (not_lt_of_gt hgt), if_neg (ne_of_gt hgt)] at hc
        have hweight : (compare keys[mid] what).1 = 1 := congrArg fst hc
        rw [if_neg (by omega), if_neg (by omega)]
        refine ih (by omega) (h.down hs hm1 hm2 hv hgt) (fun {k} h0 hk' => ?_) (fun {k} hk' => ?_) hm1 (by omega)
        · exact Nat.le_trans (hleft h0 hk') (by omega)
        · rw [hk] at hk'
          cases hk'
          omega
    · have he : start = finish := by omega
      subst he
      rw [probeAt, if_neg hlt]
      exact scanAt_sought hw hcmp h hleft hright

/-- The search of a node's keys compares both keys at the sides of the place. -/
theorem searchAt_sought (hs : (keys.map values).Pairwise (· < ·)) (hcmp : ∀ k ∈ keys, Comparable (values k) (values what)) :
    Sought (fun k => (compare k what).1 = 0) (fun k => values k < values what) (fun k => values what < values k)
      (fun pos k => (compare k what).2 ≤ pos) keys (searchAt compare what keys pos) := by
  have hinit := Window.init (keys.map values) (values what)
  rw [length_map] at hinit
  refine probeAt_sought hw hs hcmp (Nat.le_refl _) hinit (fun {k} h => absurd h (Nat.lt_irrefl 0)) fun {k} hk => ?_
  exact absurd (List.getElem?_eq_some_iff.mp hk).1 (Nat.lt_irrefl _)

variable {key : K} {n : Nat} {node : Node K V n}

/-- A key that is not found has its place, and the position is the greater of what it has in common with its neighbours there. -/
theorem findAt_miss (hs : (row values (Node.flat n node)).Pairwise (· < ·)) (hcmp : ∀ e ∈ Node.flat n node, Comparable (values e.1) (values key))
    (hnone : (findAt compare key n node).1.entry = none) :
    ∃ pre post, Node.At n node (findAt compare key n node).1.path (findAt compare key n node).1.index pre post ∧
      (∀ e ∈ pre, values e.1 < values key) ∧ (∀ e ∈ post, values key < values e.1) ∧
      ((findAt compare key n node).1.last = true → post = []) ∧
      (findAt compare key n node).2 = widest common (row values pre) (values key) (row values post) := by
  have hsub {keys : List K} (h : keys.Sublist ((Node.flat n node).map fst)) :
      (keys.map values).Pairwise (· < ·) ∧ ∀ k ∈ keys, Comparable (values k) (values key) := by
    constructor
    · have h := h.map values
      rw [map_map] at h
      exact List.Pairwise.sublist h hs
    · intro k hk
      obtain ⟨e, he, rfl⟩ := mem_map.mp (h.subset hk)
      exact hcmp e he
  have hkeep {B : Nat} {keys : List K} {pos : Nat} (hB : B ≤ pos) : B ≤ (searchAt compare key keys pos).2 :=
    probeAt_keeps (P := fun pos => B ≤ pos) (fun _ _ {p} hp => Nat.le_trans hp (Nat.le_max_left ..)) hB
  have hplaced : Placed (fun k => (compare k key).1 = 0) (fun k => values k < values key) (fun k => values key < values k)
      (fun pos k => (compare k key).2 ≤ pos) n node (findAt compare key n node) :=
    Node.findBy_placed (fun h => searchAt_sought hw (hsub h).1 (hsub h).2) (fun _ => hkeep)
      ((pairwise_map.mp hs).imp fun hlt => ⟨lt_trans hlt, fun h => lt_trans h hlt⟩)
  cases hplaced with
  | hit h1 => exact absurd (h1.symm.trans hnone) (by simp)
  | @miss pre post h1 hat hpre hpost hlast hahead hbehind =>
    refine ⟨pre, post, hat, hpre, hpost, hlast, ?_⟩
    have hflat : Node.flat n node = pre ++ post := hat.flat
    have hposition {e : K × V} (he : e ∈ pre ++ post) : (compare e.1 key).2 = common (values e.1) (values key) :=
      congrArg snd (hw.of_comparable (hcmp e (hflat ▸ he)))
    have hsorted : (row values pre ++ values key :: row values post).Pairwise (· < ·) := by
      rw [row, hflat, map_append] at hs
      obtain ⟨hs1, hs2, hs12⟩ := pairwise_append.mp hs
      refine pairwise_append.mpr ⟨hs1, pairwise_cons.mpr ⟨forall_mem_map.mpr hpost, hs2⟩, fun a ha b hb => ?_⟩
      rcases mem_cons.mp hb with rfl | hb
      · obtain ⟨e, he, rfl⟩ := mem_map.mp ha
        exact hpre e he
      · exact hs12 a ha b hb
    obtain ⟨hwidest, hwidest'⟩ := common_le_widest hsorted
    apply Nat.le_antisymm
    · refine Node.findBy_keeps (P := fun pos => pos ≤ widest common (row values pre) (values key) (row values post)) (fun h hP => ?_) (Nat.zero_le _)
      refine probeAt_keeps (P := fun pos => pos ≤ widest common (row values pre) (values key) (row values post)) (fun k hk {pos} hP => ?_) hP
      obtain ⟨e, he, rfl⟩ := mem_map.mp (h.subset hk)
      rw [hflat] at he
      rw [hposition he]
      refine Nat.max_le.mpr ⟨hP, ?_⟩
      rcases mem_append.mp he with he | he
      · exact hwidest _ (mem_map_of_mem he)
      · rw [common_comm]
        exact hwidest' _ (mem_map_of_mem he)
    · refine Nat.max_le.mpr ⟨?_, ?_⟩
      · rw [row, List.getLast?_map]
        cases h : pre.getLast? with
        | none => exact Nat.zero_le _
        | some e =>
          rw [map_some, elim_some, ← hposition (mem_append_left _ (mem_of_getLast? h))]
          exact hahead e h
      · rw [row, List.head?_map]
        cases h : post.head? with
        | none => exact Nat.zero_le _
        | some e =>
          rw [map_some, elim_some, common_comm, ← hposition (mem_append_right _ (mem_of_mem_head? h))]
          exact hbehind e h

end Ordered

/-! ## The counts through the operations -/

section Counted

variable {α : Type} [LinearOrder α]

/-- No entry is out of order with another, and every counter is up to date. -/
structure Counted (values : K → List (WithBot α)) (parts : Nat) (t : CountedMap K V) : Prop where
  built : t.map.Built
  enabled : t.map.cardinalityEnabled = true
  keyParts : t.keyParts.toInt = parts
  ordered : (row values t.map.entries).Pairwise fun a b => Comparable a b ∧ a < b
  cardinality : t.cardinality = some (tally parts (gaps common (row values t.map.entries)))

variable {values : K → List (WithBot α)} {parts : Nat} {t : CountedMap K V}

theorem count_eq (hce : t.map.cardinalityEnabled = true) {counters counters' : List Int} (hc : t.cardinality = some counters) {change : Int}
    {pos : Nat} (hb : bump change counters pos = some counters') : t.count change pos = some { t with cardinality := some counters' } := by
  simp [CountedMap.count, hce, hc, hb]

/-- The gap between the neighbours is the smaller of the two that come in its place. -/
theorem tally_insert {pre post : List (List (WithBot α))} {x : List (WithBot α)} (hs : (pre ++ x :: post).Pairwise (· < ·)) :
    tally parts (gaps common (pre ++ x :: post)) = tally parts (widest common pre x post :: gaps common (pre ++ post)) := by
  obtain ⟨-, hcons, hcross⟩ := pairwise_append.mp hs
  refine tally_perm (gaps_insert fun p hp s hs => ?_)
  exact common_min (hcross p (mem_of_getLast? hp) x mem_cons_self) ((pairwise_cons.mp hcons).1 s (mem_of_mem_head? hs))

theorem widest_row_lt (hlen : ∀ k, (values k).length = parts) (hparts : 0 < parts) {pre post : List (K × V)} {e : K × V}
    (hs : (row values (pre ++ e :: post)).Pairwise (· < ·)) : widest common (row values pre) (values e.1) (row values post) < parts := by
  rw [row_mid] at hs
  obtain ⟨-, hcons, hcross⟩ := pairwise_append.mp hs
  refine widest_lt hparts (hlen _) (fun y hy => ⟨?_, ne_of_lt (hcross y hy _ mem_cons_self)⟩)
    fun y hy => ⟨?_, ne_of_gt ((pairwise_cons.mp hcons).1 y hy)⟩
  · obtain ⟨e, -, rfl⟩ := mem_map.mp hy
    exact hlen _
  · obtain ⟨e, -, rfl⟩ := mem_map.mp hy
    exact hlen _

/-! The entries at the sides of a place. -/

section Sides

variable {β : Type} {m : TreeMap K V} (hb : m.Built) {n : Nat} {node : Node K V n} (hroot : m.root = some ⟨n, node⟩) {path : List Nat}
  {index : Nat} {pre post : List (K × V)} {x : K × V} (hon : Node.On n node path index pre x post) (f : K × V → Nat)

include hb hroot hon

theorem nextEntry_elim : ((m.nextEntry ⟨path, index⟩).elim 0 fun ne => f ne.1) = post.head?.elim 0 f := by
  obtain ⟨hin, -, -⟩ := hb.root hroot
  have hrest := hon.rest
  rw [TreeMap.nextEntry, hroot, bind_some]
  cases post with
  | nil =>
    rw [Node.nextEntry_nil hb.order hin hrest]
    rfl
  | cons s post =>
    obtain ⟨path', index', -, hnext, -⟩ := Node.nextEntry_cons hb.order hin hrest
    rw [hnext]
    rfl

theorem previousEntry_elim : ((m.previousEntry ⟨path, index⟩).elim 0 fun pe => f pe.1) = pre.getLast?.elim 0 f := by
  obtain ⟨hin, -, -⟩ := hb.root hroot
  have hfront := hon.front
  rw [TreeMap.previousEntry, hroot, bind_some]
  rcases List.eq_nil_or_concat' pre with rfl | ⟨pre, p, rfl⟩
  · rw [Node.previousEntry_nil hb.order hin hfront]
    rfl
  · obtain ⟨path', index', -, hprevious, -⟩ := Node.previousEntry_concat hb.order hin hfront
    rw [hprevious, List.getLast?_concat]
    rfl

end Sides

section Steps

variable {compare : K → K → Int × Nat} (hw : Weighs compare values parts) (hparts : 0 < parts) (h : Counted values parts t)

include hw hparts h

variable {pre post : List (K × V)}

theorem Counted.inserted (hent : t.map.entries = pre ++ post) {map : TreeMap K V} (hb : map.Built)
    (hce : map.cardinalityEnabled = t.map.cardinalityEnabled) {key : K} {val : V} (he : map.entries = pre ++ (key, val) :: post)
    (hpre : ∀ e ∈ pre, Comparable (values e.1) (values key) ∧ values e.1 < values key)
    (hpost : ∀ e ∈ post, Comparable (values key) (values e.1) ∧ values key < values e.1) {pos : Nat}
    (hpos : pos = widest common (row values pre) (values key) (row values post)) :
    ∃ t', ({ t with map := map } : CountedMap K V).count 1 pos = some t' ∧ Counted values parts t' := by
  have hordered : (row values map.entries).Pairwise fun a b => Comparable a b ∧ a < b := by
    have hold := h.ordered
    rw [hent, row_append] at hold
    obtain ⟨h1, h2, h12⟩ := pairwise_append.mp hold
    rw [he, row_mid]
    refine pairwise_append.mpr ⟨h1, pairwise_cons.mpr ⟨forall_mem_map.mpr hpost, h2⟩, fun a ha b hb => ?_⟩
    rcases mem_cons.mp hb with rfl | hb
    · obtain ⟨e, he, rfl⟩ := mem_map.mp ha
      exact hpre e he
    · exact h12 a ha b hb
  have hs : (row values (pre ++ (key, val) :: post)).Pairwise (· < ·) := he ▸ hordered.imp And.right
  have hlt : pos < parts := by
    rw [hpos]
    exact widest_row_lt hw.length hparts hs
  have hbump := @bump_up parts (gaps common (row values t.map.entries)) pos hlt
  refine ⟨_, count_eq (t := { t with map := map }) (hce.trans h.enabled) h.cardinality hbump, hb, hce.trans h.enabled, h.keyParts, hordered,
    congrArg some ?_⟩
  rw [row_mid] at hs
  rw [hpos, hent, row_append, ← tally_insert hs, ← row_mid pre post (key, val), ← he]

variable {x : K × V}

omit hw hparts in
/-- An entry has taken the place of one whose key has the same values. -/
theorem Counted.replaced (hent : t.map.entries = pre ++ x :: post) {map : TreeMap K V} (hb : map.Built)
    (hce : map.cardinalityEnabled = t.map.cardinalityEnabled) {key : K} {val : V} (he : map.entries = pre ++ (key, val) :: post)
    (hv : values x.1 = values key) : Counted values parts { t with map := map } := by
  have hrow : row values map.entries = row values t.map.entries := by rw [he, hent, row_mid, row_mid, hv]
  refine ⟨hb, hce.trans h.enabled, h.keyParts, ?_, ?_⟩
  · show (row values map.entries).Pairwise _
    rw [hrow]
    exact h.ordered
  · show t.cardinality = some (tally parts (gaps common (row values map.entries)))
    rw [hrow]
    exact h.cardinality

theorem Counted.removed (hent : t.map.entries = pre ++ x :: post) {pos : Nat}
    (hpos : pos = widest common (row values pre) (values x.1) (row values post)) :
    ∃ cardinality, t.count (-1) pos = some { t with cardinality := cardinality } ∧ ∀ {map : TreeMap K V}, map.Built →
      map.cardinalityEnabled = t.map.cardinalityEnabled → map.entries = pre ++ post →
      Counted values parts ⟨map, t.keyParts, cardinality⟩ := by
  have hordered := h.ordered
  rw [hent] at hordered
  have hs := hordered.imp And.right
  have hlt : pos < parts := by
    rw [hpos]
    exact widest_row_lt hw.length hparts hs
  have hcard := h.cardinality
  rw [row_mid] at hs
  rw [hent, row_mid, tally_insert hs, ← hpos] at hcard
  refine ⟨_, count_eq h.enabled hcard (bump_down hlt), fun {map} hb hce he => ⟨hb, hce.trans h.enabled, h.keyParts, ?_, ?_⟩⟩
  · show (row values map.entries).Pairwise _
    rw [he, row_append]
    rw [row_mid] at hordered
    exact hordered.sublist (List.Sublist.append_left (sublist_cons_self _ _) _)
  · rw [he, row_append]

variable {key : K}

variable {n : Nat} {node : Node K V n}

omit hparts h in
theorem find_hit (hroot : t.map.root = some ⟨n, node⟩)
    (hx : (findAt compare key n node).1.entry = some x) :
    ∃ pre post, t.map.entries = pre ++ x :: post ∧ values x.1 = values key ∧
      Node.On n node (findAt compare key n node).1.path (findAt compare key n node).1.index pre x post := by
  have hfound : Placed _ _ _ _ n node (findAt compare key n node) := findAt_found key
  cases hfound with
  | @hit y pre post h1 hy hon _ =>
    cases h1.symm.trans hx
    exact ⟨pre, post, (TreeMap.entries_of_root hroot).trans hon.flat, hw.same hy, hon⟩
  | miss h1 => exact absurd (h1.symm.trans hx) (by simp)

/-- An entry goes in where the search ends, and is counted where the search came furthest. -/
theorem Counted.insert (hroot : t.map.root = some ⟨n, node⟩) (val : V)
    (hcmp : ∀ e ∈ t.map.entries, Comparable (values e.1) (values key)) (hnone : (findAt compare key n node).1.entry = none)
    (sequential : Bool) (hseq : sequential = true → (findAt compare key n node).1.last = true) :
    ∃ map, t.map.insert n node (findAt compare key n node).1.path (findAt compare key n node).1.index (key, val) sequential = some map ∧
      ∃ t', ({ t with map := map } : CountedMap K V).count 1 (findAt compare key n node).2 = some t' ∧ Counted values parts t' := by
  have hent := TreeMap.entries_of_root hroot
  have hs := h.ordered.imp And.right
  rw [hent] at hs hcmp
  obtain ⟨pre, post, hat, hpre, hpost, hlast, hpos⟩ := findAt_miss hw hs hcmp hnone
  have hflat : t.map.entries = pre ++ post := hent.trans hat.flat
  rw [hat.flat] at hcmp
  obtain ⟨map, hins, hb, he, -, hce⟩ := TreeMap.insert_built h.built hroot hat (key, val) sequential fun hs => hlast (hseq hs)
  refine ⟨map, hins, h.inserted hw hparts hflat hb hce he (fun e he => ?_) (fun e he => ?_) hpos⟩
  · exact ⟨hcmp e (mem_append_left _ he), hpre e he⟩
  · exact ⟨(hcmp e (mem_append_right _ he)).symm, hpost e he⟩

theorem Counted.newRoot (hroot : t.map.root = none) (key : K) (val : V) :
    ∃ t', ({ t with map := t.map.newRoot key val } : CountedMap K V).count 1 0 = some t' ∧ Counted values parts t' := by
  obtain ⟨hb, he⟩ := TreeMap.newRoot_built h.built hroot key val
  have hnil : t.map.entries = [] ++ [] := TreeMap.entries_nil hroot
  exact h.inserted hw hparts hnil hb rfl he (forall_mem_nil _) (forall_mem_nil _) rfl

theorem put_counted (val : V) (hcmp : ∀ e ∈ t.map.entries, Comparable (values e.1) (values key)) :
    ∃ t' x, t.put compare key val = some (t', x) ∧ Counted values parts t' := by
  unfold CountedMap.put
  rcases hroot : t.map.root with _ | ⟨n, node⟩
  · obtain ⟨t', hcount, ht'⟩ := h.newRoot hw hparts hroot key val
    exact ⟨t', none, by simp [hcount], ht'⟩
  · cases hx : (findAt compare key n node).1.entry with
    | some x =>
      obtain ⟨pre, post, hent, hv, hon⟩ := find_hit hw hroot hx
      obtain ⟨node', has, hb, he⟩ := TreeMap.assign_built h.built hroot hon (key, val)
      exact ⟨_, some x, by simp [hx, has], h.replaced hent hb rfl he hv⟩
    | none =>
      obtain ⟨map, hins, t', hcount, ht'⟩ := h.insert hw hparts hroot val hcmp hx false fun hf => by cases hf
      exact ⟨t', none, by simp [hx, hins, hcount], ht'⟩

theorem add_counted (val : V) (replace : Bool) (hcmp : ∀ e ∈ t.map.entries, Comparable (values e.1) (values key)) :
    ∃ t' r, t.add compare key val replace = some (t', r) ∧ Counted values parts t' := by
  unfold CountedMap.add
  rcases hroot : t.map.root with _ | ⟨n, node⟩
  · obtain ⟨t', hcount, ht'⟩ := h.newRoot hw hparts hroot key val
    exact ⟨t', (none, !t'.map.cardinalityEnabled), by simp [hcount], ht'⟩
  · cases hx : (findAt compare key n node).1.entry with
    | some x =>
      cases replace with
      | true =>
        obtain ⟨pre, post, hent, hv, hon⟩ := find_hit hw hroot hx
        obtain ⟨node', has, hb, he⟩ := TreeMap.assign_built h.built hroot hon (key, val)
        exact ⟨_, (some x, (findAt compare key n node).1.last), by simp [hx, has], h.replaced hent hb rfl he hv⟩
      | false => exact ⟨t, (some x, (findAt compare key n node).1.last), by simp [hx], h⟩
    | none =>
      obtain ⟨map, hins, t', hcount, ht'⟩ := h.insert hw hparts hroot val hcmp hx _ id
      exact ⟨t', (none, !t'.map.cardinalityEnabled && (findAt compare key n node).1.last), by simp [hx, hins, hcount], ht'⟩

theorem append_counted (val : V) (hkey : ∀ e ∈ t.map.entries, (compare e.1 key).1 < 0) :
    ∃ t', t.append compare key val = some t' ∧ Counted values parts t' := by
  have hbelow : ∀ e ∈ t.map.entries, Comparable (values e.1) (values key) ∧ values e.1 < values key := fun e he => hw.below_iff.mp (hkey e he)
  unfold CountedMap.append
  rcases hroot : t.map.root with _ | ⟨n, node⟩
  · exact h.newRoot hw hparts hroot key val
  · have hent := TreeMap.entries_of_root hroot
    obtain ⟨hin, hpos, -⟩ := h.built.root hroot
    obtain ⟨index, x, pre, -, hindex, hon⟩ := Node.lastLeaf_on h.built.order hin hpos
    have hflat : t.map.entries = pre ++ [x] := hent.trans hon.flat
    have hx : x ∈ t.map.entries := by rw [hflat]; exact mem_append_right _ (mem_singleton.mpr rfl)
    have hat : Node.At n node (Node.lastLeaf n node).1 (Node.lastLeaf n node).2 t.map.entries [] := by
      rw [hent]
      exact Node.lastLeaf_at
    obtain ⟨map, hins, hb, he, -, hce⟩ := TreeMap.insert_built h.built hroot hat (key, val) true fun _ => rfl
    have hposition : (compareAt compare key x.1 0).2 = widest common (row values t.map.entries) (values key) (row values ([] : List (K × V))) := by
      have hcommon := hw.of_comparable (hbelow x hx).1.symm
      rw [compareAt_pos, hcommon, Nat.zero_max, hflat, row_append, common_comm]
      exact (Nat.max_zero _).symm.trans (by rw [widest, show row values [x] = [values x.1] from rfl, List.getLast?_concat]; rfl)
    obtain ⟨t', hcount, ht'⟩ := h.inserted hw hparts (append_nil _).symm hb hce he hbelow (forall_mem_nil _) hposition
    refine ⟨t', ?_, ht'⟩
    simp [h.enabled, hindex, hon.getEntry, hins, hcount]

omit hparts in
/-- An entry that goes is counted where it has most in common with a neighbour. -/
theorem Counted.position (hroot : t.map.root = some ⟨n, node⟩) {path : List Nat} {index : Nat} (hon : Node.On n node path index pre x post) (hv : values x.1 = values key) :
    t.getCardinalityPosition compare key ⟨path, index⟩ = widest common (row values pre) (values x.1) (row values post) := by
  have hordered := h.ordered
  rw [TreeMap.entries_of_root hroot, hon.flat, row_mid, hv] at hordered
  obtain ⟨-, hcons, hcross⟩ := pairwise_append.mp hordered
  have hside {e : K × V} (hcmp : Comparable (values key) (values e.1)) :
      (compareAt compare key e.1 0).2 = common (values key) (values e.1) := by
    rw [compareAt_pos, hw.of_comparable hcmp, Nat.zero_max]
  have hnext : ((t.map.nextEntry ⟨path, index⟩).elim 0 fun ne => (compareAt compare key ne.1.1 0).2) =
      (row values post).head?.elim 0 (common (values key)) := by
    rw [nextEntry_elim h.built hroot hon fun e => (compareAt compare key e.1 0).2, row, List.head?_map]
    cases he : post.head? with
    | none => rfl
    | some e => exact hside ((pairwise_cons.mp hcons).1 _ (mem_map_of_mem (mem_of_mem_head? he))).1
  have hprevious : ((t.map.previousEntry ⟨path, index⟩).elim 0 fun pe => (compareAt compare key pe.1.1 0).2) =
      (row values pre).getLast?.elim 0 fun p => common p (values key) := by
    rw [previousEntry_elim h.built hroot hon fun e => (compareAt compare key e.1 0).2, row, List.getLast?_map]
    cases he : pre.getLast? with
    | none => rfl
    | some e =>
      have hcmp := (hcross _ (mem_map_of_mem (mem_of_getLast? he)) _ mem_cons_self).1
      exact (hside hcmp.symm).trans (common_comm ..)
  unfold CountedMap.getCardinalityPosition widest
  rw [hnext, hprevious, hv]
  dsimp only
  split_ifs with hlt
  · exact (Nat.max_eq_left (Nat.le_of_lt hlt)).symm
  · exact (Nat.max_eq_right (Nat.le_of_not_lt hlt)).symm

omit hw hparts in
theorem clear_counted : Counted values parts t.clear := by
  obtain ⟨hb, he⟩ := TreeMap.clear_built h.built
  have hce : t.map.clear.cardinalityEnabled = t.map.cardinalityEnabled := by
    unfold TreeMap.clear
    cases t.map.root <;> rfl
  refine ⟨hb, hce.trans h.enabled, h.keyParts, ?_, ?_⟩
  · show (row values t.map.clear.entries).Pairwise _
    rw [he]
    exact List.Pairwise.nil
  · show (if t.map.cardinalityEnabled then _ else _) = some (tally parts (gaps common (row values t.map.clear.entries)))
    rw [if_pos h.enabled, h.cardinality, map_some, h.keyParts, he]
    exact congrArg some tally_nil.symm

theorem remove_counted (key : K) : ∃ t' x, t.remove compare key = some (t', x) ∧ Counted values parts t' := by
  rcases hroot : t.map.root with _ | ⟨n, node⟩
  · exact ⟨t, none, by simp [CountedMap.remove, hroot], h⟩
  · cases hx : (findAt compare key n node).1.entry with
    | none => exact ⟨t, none, by simp [CountedMap.remove, hroot, hx], h⟩
    | some x =>
      obtain ⟨pre, post, hent, hv, hon⟩ := find_hit hw hroot hx
      obtain ⟨cardinality, hcount, hremoved⟩ := h.removed hw hparts hent (h.position hw hroot hon hv)
      obtain ⟨node', notify, hrem, hb, he⟩ := TreeMap.remove_built h.built hroot hon
      have hleft := hremoved hb rfl he
      generalize ht' : (⟨_, t.keyParts, cardinality⟩ : CountedMap K V) = t' at hleft
      have hremove : t.remove compare key = some (if t'.map.size = 0 then t'.clear else t', some x) := by
        simp only [CountedMap.remove, hroot, hx, hcount, hrem, ← ht', Option.bind_eq_bind, bind_some]
        rfl
      refine ⟨_, some x, hremove, ?_⟩
      split_ifs
      · exact clear_counted hleft
      · exact hleft

end Steps

end Counted

/-! ## What is recalculated -/

section Recalculated

variable {compare : K → K → Int × Nat} {parts : Nat}

/-- The loop has counted the keys that are behind it, and counts those still to come. -/
theorem recalculateFrom_eq {turns : Nat} {it : EntrySetIterator K V} {done : List K} {rest : List (K × V)} (hb : it.map.Built)
    (h : Ahead it.map it.range rest) (hturns : rest.length < turns)
    (hg : ∀ g ∈ gaps (fun a b => (compare a b).2) (done ++ rest.map fst), g < parts) :
    CountedMap.recalculateFrom compare turns it done.getLast? (tally parts (gaps (fun a b => (compare a b).2) done)) =
      some (tally parts (gaps (fun a b => (compare a b).2) (done ++ rest.map fst))) := by
  induction rest generalizing turns it done with
  | nil =>
    obtain ⟨turns, rfl⟩ : ∃ n, turns = n + 1 := ⟨turns - 1, by simp at hturns; omega⟩
    rw [CountedMap.recalculateFrom, hasNext_nil hb h, map_nil, append_nil]
    rfl
  | cons x rest ih =>
    obtain ⟨turns, rfl⟩ : ∃ n, turns = n + 1 := ⟨turns - 1, by simp at hturns; omega⟩
    obtain ⟨hnext, range, hx, hahead⟩ := next_spec hb h
    obtain ⟨pos, hpos⟩ : ∃ pos, pos = done.getLast?.elim 0 fun p => (compare p x.1).2 := ⟨_, rfl⟩
    have hlast : (done.getLast?.elim 0 fun lastKey => (compareAt compare lastKey x.1 0).2) = pos := by
      rw [hpos]
      cases done.getLast? with
      | none => rfl
      | some p => exact (compareAt_pos ..).trans (Nat.zero_max _)
    have hsnoc := gaps_snoc (d := fun a b => (compare a b).2) done x.1
    rw [← hpos] at hsnoc
    have hsplit : done ++ (x :: rest).map fst = (done ++ [x.1]) ++ rest.map fst := by
      rw [append_assoc, map_cons, singleton_append]
    have hlt : pos < parts := by
      refine hg pos ?_
      rw [map_cons, gaps_concat, hsnoc]
      exact mem_append_left _ (mem_append_right _ (mem_singleton.mpr rfl))
    have hbump : bump 1 (tally parts (gaps (fun a b => (compare a b).2) done)) pos =
        some (tally parts (gaps (fun a b => (compare a b).2) (done ++ [x.1]))) := by
      rw [bump_up hlt, hsnoc]
      exact congrArg some (tally_perm (@perm_append_comm _ [pos] _))
    rw [hsplit] at hg ⊢
    have hrest := @ih turns ⟨some x, it.map, range⟩ (done ++ [x.1]) hb hahead (by simpa using hturns) hg
    rw [List.getLast?_concat] at hrest
    rw [CountedMap.recalculateFrom, if_pos hnext, hx]
    dsimp only
    rw [hlast, hbump, bind_some, hrest]

variable {α : Type} [LinearOrder α] {values : K → List (WithBot α)} {t : CountedMap K V} (hw : Weighs compare values parts)
  (h : Counted values parts t)

include hw h

theorem Counted.gaps_eq : gaps (fun a b => (compare a b).2) (t.map.entries.map fst) = gaps common (row values t.map.entries) := by
  have hordered := h.ordered
  have hrow : row values t.map.entries = (t.map.entries.map fst).map values := (map_map ..).symm
  rw [hrow] at hordered ⊢
  exact gaps_map (r := fun a b => Comparable (values a) (values b)) (fun hcmp => congrArg snd (hw.of_comparable hcmp))
    ((pairwise_map.mp hordered).imp And.left)

theorem Counted.gaps_lt (hparts : 0 < parts) : ∀ g ∈ gaps common (row values t.map.entries), g < parts := by
  intro g hg
  have hs : (row values t.map.entries).Pairwise fun a b => a.length = parts ∧ b.length = parts ∧ a ≠ b := by
    refine h.ordered.imp_of_mem fun {a b} ha hb hab => ⟨?_, ?_, ne_of_lt hab.2⟩
    · obtain ⟨e, -, rfl⟩ := mem_map.mp ha
      exact hw.length _
    · obtain ⟨e, -, rfl⟩ := mem_map.mp hb
      exact hw.length _
  rcases mem_gaps hs hg with rfl | ⟨a, b, ⟨ha, hb, hne⟩, rfl⟩
  · exact hparts
  · exact ha ▸ common_lt (ha.trans hb.symm) hne

theorem recalculate_eq (hparts : 0 < parts) : t.recalculateCardinality compare = some t := by
  have hgaps := h.gaps_eq hw
  have hlt := h.gaps_lt hw hparts
  have hcard := h.cardinality
  rw [← hgaps] at hlt hcard
  have hturns : t.map.entries.length < t.map.size + 1 := by rw [TreeMap.size, h.built.size]; exact Nat.lt_succ_self _
  have hloop := @recalculateFrom_eq K V compare parts _ (iterator t.map) [] _ h.built (iterator_ahead t.map) hturns hlt
  have hzero : List.replicate t.keyParts.toInt.toNat 0 = tally parts [] := by rw [h.keyParts, tally_nil, Int.toNat_natCast]
  unfold CountedMap.recalculateCardinality
  rw [hcard, hzero]
  dsimp only
  rw [show gaps (fun a b => (compare a b).2) ([] : List K) = [] from rfl, nil_append] at hloop
  rw [show (none : Option K) = ([] : List K).getLast? from rfl, hloop, map_some, ← hcard]

end Recalculated

/-! ## After any run -/

section Run

variable {α : Type} [LinearOrder α]

/-- No `NaN` decides between the key and a stored one, and one that is added without a search is above all. -/
def Orderly (compare : K → K → Int × Nat) (values : K → List (WithBot α)) (t : CountedMap K V) : Op K V → Prop
  | .put key _ | .add key _ _ => ∀ e ∈ t.map.entries, Comparable (values e.1) (values key)
  | .append key _ => ∀ e ∈ t.map.entries, (compare e.1 key).1 < 0
  | .remove _ | .clear => True

instance (compare : K → K → Int × Nat) (values : K → List (WithBot α)) (t : CountedMap K V) (op : Op K V) :
    Decidable (Orderly compare values t op) :=
  match op with
  | .put key _ | .add key _ _ => inferInstanceAs (Decidable (∀ e ∈ t.map.entries, Comparable (values e.1) (values key)))
  | .append key _ => inferInstanceAs (Decidable (∀ e ∈ t.map.entries, (compare e.1 key).1 < 0))
  | .remove _ | .clear => inferInstanceAs (Decidable True)

variable {compare : K → K → Int × Nat} {values : K → List (WithBot α)} {parts : Nat}

theorem init_counted (order keyParts : Int8) (hkey : keyParts.toInt = parts) (hn : 2 ≤ parts) :
    Counted values parts (CountedMap.init order true keyParts : CountedMap K V) := by
  have hcard : (if keyParts.toInt < 2 then none else some (List.replicate keyParts.toInt.toNat 0)) = some (tally parts []) := by
    rw [if_neg (by omega), hkey, tally_nil, Int.toNat_natCast]
  exact ⟨TreeMap.init_built order true, rfl, hkey, List.Pairwise.nil, hcard⟩

theorem step_counted (hw : Weighs compare values parts) (hparts : 0 < parts) {t : CountedMap K V} (h : Counted values parts t) {op : Op K V}
    (hok : Orderly compare values t op) : ∃ t', t.step compare op = some t' ∧ Counted values parts t' := by
  cases op with
  | put key val =>
    obtain ⟨t', x, hput, ht'⟩ := put_counted hw hparts h val hok
    exact ⟨t', by rw [CountedMap.step, hput]; rfl, ht'⟩
  | remove key =>
    obtain ⟨t', x, hrem, ht'⟩ := remove_counted hw hparts h key
    exact ⟨t', by rw [CountedMap.step, hrem]; rfl, ht'⟩
  | clear => exact ⟨t.clear, rfl, clear_counted h⟩
  | add key val replace =>
    obtain ⟨t', r, hadd, ht'⟩ := add_counted hw hparts h val replace hok
    exact ⟨t', by rw [CountedMap.step, hadd]; rfl, ht'⟩
  | append key val => exact append_counted hw hparts h val hok

theorem run_counted (hw : Weighs compare values parts) (hn : 2 ≤ parts) {order keyParts : Int8} (hkey : keyParts.toInt = parts) {ops : List (Op K V)}
    (hok : Meets (CountedMap.step compare) (Orderly compare values) (CountedMap.init order true keyParts) ops) :
    ∃ t, exec (CountedMap.step compare) (CountedMap.init order true keyParts) ops = some t ∧ Counted values parts t :=
  @exec_of_meets _ _ _ _ Unit (fun r _ => r) (fun t _ => Counted values parts t) (fun h hok => step_counted hw (by omega) h hok) _ ()
    (init_counted order keyParts hkey hn) ops hok

end Run

open CompositeKey

theorem compare_weighs (parts : List KeyPart) : Weighs (compare parts) (values parts) parts.length where
  eq := compare_eq parts
  length := length_values parts

/-- Whatever the parts, and whatever was put, added and removed, the counts are what they would be recalculated as: the number of keys
that differ from the one before them first at each part, the first key counting at 0. So none is negative and together they are the size. -/
theorem cardinality_recalculated (parts : List KeyPart) (hn : 2 ≤ parts.length) (order keyParts : Int8) (hkey : keyParts.toInt = parts.length)
    (ops : List (Op Buffer V))
    (hok : Meets (CountedMap.step (compare parts)) (Orderly (compare parts) (values parts)) (CountedMap.init order true keyParts) ops) :
    ∃ t cardinality, exec (CountedMap.step (compare parts)) (CountedMap.init order true keyParts) ops = some t ∧
      t.cardinality = some cardinality ∧ t.recalculateCardinality (compare parts) = some t ∧ cardinality.length = parts.length ∧
      (∀ i < parts.length, cardinality[i]? =
        some ((gaps (fun last key => (compare parts last key).2) (t.map.entries.map fst)).count i : Int)) ∧
      (∀ c ∈ cardinality, 0 ≤ c) ∧ cardinality.sum = t.map.size := by
  have hw := compare_weighs parts
  have hparts : 0 < parts.length := by omega
  obtain ⟨t, hrun, h⟩ := run_counted hw hn hkey hok
  refine ⟨t, _, hrun, h.cardinality, recalculate_eq hw h hparts, ?_, ?_, tally_nonneg, ?_⟩
  · rw [tally, length_map, length_range]
  · intro i hi
    rw [h.gaps_eq hw, getElem?_tally hi]
  · rw [sum_tally (h.gaps_lt hw hparts), length_gaps, row, length_map, TreeMap.size, h.built.size]

/-- The image of a key. -/
def image (bytes : List UInt8) : Buffer := fun i => bytes.getD i 0

/-- A number and a short text, in a tree of order 3. -/
theorem recalculated_after_ten :
    let parts : List KeyPart := [⟨.short, 2⟩, ⟨.string, 2⟩]
    let ops : List (Op Buffer Nat) :=
      [.put (image [1, 0, 97, 97]) 0, .put (image [2, 0, 97, 97]) 0, .add (image [1, 0, 98, 97]) 0 false, .put (image [0, 0, 97, 98]) 0,
        .append (image [2, 0, 98, 0]) 0, .append (image [2, 0, 99, 0]) 0, .put (image [1, 0, 97, 98]) 0, .put (image [0, 128, 97, 97]) 0,
        .remove (image [2, 0, 98, 0]), .put (image [1, 0, 98, 97]) 1]
    ∃ t cardinality, exec (CountedMap.step (compare parts)) (CountedMap.init 3 true 2) ops = some t ∧
      t.cardinality = some cardinality ∧ t.recalculateCardinality (compare parts) = some t ∧ cardinality.sum = t.map.size := by
  intro parts ops
  obtain ⟨t, cardinality, hrun, hcard, hrec, -, -, -, hsum⟩ := cardinality_recalculated parts (by decide) 3 2 rfl ops (by decide +kernel)
  exact ⟨t, cardinality, hrun, hcard, hrec, hsum⟩

/-- `NaN` and 2, 1.0 and 2, `NaN` and 2 again, and 1.0 and 1: the last is counted behind its number, for the search meets the other 1.0,
but between the two stands a `NaN`, and every key differs from the one before it at the number. -/
theorem nan_miscounted :
    let parts : List KeyPart := [⟨.float, 4⟩, ⟨.integer, 4⟩]
    let ops : List (Op Buffer Nat) :=
      [.put (image [0, 0, 0xc0, 0x7f, 2, 0, 0, 0]) 0, .put (image [0, 0, 0x80, 0x3f, 2, 0, 0, 0]) 0,
        .put (image [0, 0, 0xc0, 0x7f, 2, 0, 0, 0]) 0, .put (image [0, 0, 0x80, 0x3f, 1, 0, 0, 0]) 0]
    ((exec (CountedMap.step (compare parts)) (CountedMap.init 3 true 2) ops).map fun t =>
        (t.cardinality, (t.recalculateCardinality (compare parts)).map CountedMap.cardinality)) =
      some (some [3, 1], some (some [4, 0])) := by
  decide +kernel

end DeepFabric.Platform.Cardinality
