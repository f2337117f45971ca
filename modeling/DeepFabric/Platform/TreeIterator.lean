/-
  DeepFabric.Platform.TreeIterator — iterating over a `TreeMap` and taking entries out on the way
  (cxx/util/TreeMap.h, `EntrySetIterator` and `KeySetIterator`).

  A removal may move entries between nodes, merge nodes and take the root away, so the iterator
  does not keep its place: it goes to the entry below the removed one, or starts anew if there
  is none.
-/
import DeepFabric.Platform.TreeRange
import DeepFabric.Platform.TreeSet

namespace DeepFabric.Platform.TreeIteration

open Lib Lib.Run TreeSet List Option
open List (length range)
open TreeMap (hasNext init nextEntry reset)

variable {K V : Type}

/-- `m_startNode`, `m_startIndex`, `m_endNode` and `m_endIndex` are `range`. -/
structure EntrySetIterator (K V : Type) where
  entry : Option (K × V)
  map : TreeMap K V
  range : Range

namespace EntrySetIterator

variable (it : EntrySetIterator K V)

def hasNext : Bool := it.map.hasNext it.range

def next : Option (K × V) × EntrySetIterator K V :=
  if it.range.atEnd then (none, it)
  else
    let (entry, range) := it.map.next it.range
    (entry, ⟨entry, it.map, range⟩)

def remove [LinearOrder K] : Option (EntrySetIterator K V) := do
  let entry ← it.entry
  let lowerEntry := it.map.lowerEntry entry.1
  let (map, _) ← it.map.remove entry.1
  match lowerEntry with
  | none => some ⟨none, map, map.reset ⟨none, it.range.finish⟩⟩
  | some lower => (map.findPlace lower.1).map fun place => ⟨it.entry, map, { it.range with start := some place }⟩

end EntrySetIterator

def iterator (t : TreeMap K V) : EntrySetIterator K V := ⟨none, t, t.iterator (t.entrySet ⟨none, none⟩)⟩

/-! ## A pass -/

/-- What a pass has returned, and the keys it has removed. -/
structure Pass (K V R : Type) where
  iter : EntrySetIterator K V
  returned : List R
  removed : List K

section Pass

variable [LinearOrder K] {R : Type} (returns : K × V → R) (chosen : List R → Bool)

/-- `next`, and `remove` if it is chosen, by all that was returned so far. An `EntrySetIterator`
returns the entry and a `KeySetIterator` its key, and that is all they differ in. -/
def turn (p : Pass K V R) : Option (Pass K V R) :=
  match p.iter.next with
  | (some e, it) =>
    let returned := p.returned ++ [returns e]
    if chosen returned then it.remove.map fun it => ⟨it, returned, p.removed ++ [e.1]⟩ else some ⟨it, returned, p.removed⟩
  | (none, _) => none

/-- `while (iter->hasNext())`, up to a number of turns. -/
def pass : Nat → Pass K V R → Option (Pass K V R)
  | 0, _ => none
  | turns + 1, p => if p.iter.hasNext then (turn returns chosen p).bind (pass turns) else some p

end Pass

/-! ## The entries still to come -/

/-- `rest` is what the iterator has still to return. -/
inductive Ahead (t : TreeMap K V) : Range → List (K × V) → Prop
  | empty : t.root = none → Ahead t ⟨none, none⟩ []
  | place {n : Nat} {node : Node K V n} {c : Cursor} {rest : List (K × V)} :
      t.root = some ⟨n, node⟩ → Node.Rest n node c.path c.index rest → Ahead t ⟨some c, none⟩ rest

theorem reset_ahead (t : TreeMap K V) : Ahead t (t.reset ⟨none, none⟩) t.entries := by
  rcases hroot : t.root with _ | ⟨n, node⟩
  · rw [reset, hroot, TreeMap.entries_nil hroot]
    exact .empty hroot
  · rw [reset, hroot, TreeMap.entries_of_root hroot]
    exact .place hroot Node.start_rest

theorem iterator_ahead (t : TreeMap K V) : Ahead t (iterator t).range t.entries := by
  have hreset : (iterator t).range = t.reset ⟨none, none⟩ := by
    rcases hroot : t.root with _ | r <;> simp [iterator, TreeMap.iterator, TreeMap.entrySet, reset, hroot]
  rw [hreset]
  exact reset_ahead t

section Calls

variable [LinearOrder K] {it : EntrySetIterator K V} {x : K × V} {rest : List (K × V)}

omit [LinearOrder K] in
theorem hasNext_nil (hmap : it.map.Built) (h : Ahead it.map it.range []) : it.hasNext = false := by
  obtain ⟨entry, t, range⟩ := it
  cases h with
  | empty hroot => rfl
  | @place n node c _ hroot hrest =>
    have hnone : t.nextEntry c = none := by
      rw [nextEntry, hroot, bind_some, Node.nextEntry_nil hmap.order (hmap.root hroot).1 hrest]
    simp [EntrySetIterator.hasNext, hasNext, TreeMap.hasNextEntry, hnone]

omit [LinearOrder K] in
theorem next_spec (hmap : it.map.Built) (h : Ahead it.map it.range (x :: rest)) :
    it.hasNext = true ∧ ∃ range, it.next = (some x, ⟨some x, it.map, range⟩) ∧ Ahead it.map range rest := by
  obtain ⟨entry, t, range⟩ := it
  cases h with
  | @place n node c _ hroot hrest =>
    obtain ⟨path, index, pre, hnext, hon⟩ := Node.nextEntry_cons hmap.order (hmap.root hroot).1 hrest
    have hsome : t.nextEntry c = some (x, ⟨path, index⟩) := by rw [nextEntry, hroot, bind_some, hnext]
    refine ⟨?_, ⟨some ⟨path, index⟩, none⟩, ?_, .place hroot hon.rest⟩
    · simp [EntrySetIterator.hasNext, hasNext, TreeMap.hasNextEntry, Range.atEnd, hsome]
    · simp [EntrySetIterator.next, TreeMap.next, Range.atEnd, hsome]

/-- A removal leaves the iterator ahead of what was still to come. -/
theorem remove_spec {pre : List (K × V)} (hmap : it.map.Valid) (hx : it.entry = some x) (hent : it.map.entries = pre ++ x :: rest)
    (hfinish : it.range.finish = none) :
    ∃ it', it.remove = some it' ∧ (∃ e, it.map.remove x.1 = some (it'.map, e)) ∧ it'.map.Valid ∧ it'.map.entries = pre ++ rest ∧
      Ahead it'.map it'.range rest := by
  have hs := hmap.sorted
  rw [hent] at hs
  obtain ⟨-, hcons, hcross⟩ := pairwise_append.mp hs
  have hbelow : ∀ e ∈ pre, e.1 < x.1 := fun e he => hcross e he x mem_cons_self
  have habove : ∀ e ∈ rest, x.1 < e.1 := (pairwise_cons.mp hcons).1
  have hlower : it.map.lowerEntry x.1 = pre.getLast? := by
    rw [TreeMap.lowerEntry_eq hmap, hent, Partition.lowerEntry_append, Partition.lowerEntry_below hbelow, Partition.lowerEntry_above,
      none_or]
    intro e he
    rcases mem_cons.mp he with rfl | he
    · exact le_refl _
    · exact le_of_lt (habove e he)
  obtain ⟨t, hrem, hv, he⟩ := TreeMap.remove_spec hmap x.1
  have hleft : t.entries = pre ++ rest := by
    have h1 : pre.filter (fun e => e.1 ≠ x.1) = pre := filter_eq_self.mpr fun e he => by simpa using ne_of_lt (hbelow e he)
    have h2 : rest.filter (fun e => e.1 ≠ x.1) = rest := filter_eq_self.mpr fun e he => by simpa using ne_of_gt (habove e he)
    rw [he, hent, filter_append, filter_cons_of_neg (by simp), h1, h2]
  rcases eq_nil_or_concat pre with rfl | ⟨pre', y, rfl⟩
  · refine ⟨⟨none, t, t.reset ⟨none, none⟩⟩, ?_, ⟨_, hrem⟩, hv, hleft, ?_⟩
    · simp [EntrySetIterator.remove, hx, hlower, hrem, hfinish]
    · have hreset := reset_ahead t
      rwa [hleft] at hreset
  · rw [concat_eq_append] at hlower hleft
    have hy : t.entries = pre' ++ y :: rest := by rw [hleft, append_assoc]; rfl
    obtain ⟨n, node, path, index, hroot, hplace, hon⟩ := TreeMap.findPlace_on hv hy
    refine ⟨⟨it.entry, t, ⟨some ⟨path, index⟩, none⟩⟩, ?_, ⟨_, hrem⟩, hv, by rw [concat_eq_append]; exact hleft, .place hroot hon.rest⟩
    simp [EntrySetIterator.remove, hx, hlower, hrem, hplace, hfinish]

end Calls

/-! ## How full the nodes are after a removal -/

section Fills

variable {order : Nat}

/-- Every node below this one is between the bounds `isLow` and `isFull` ask for. -/
def Tight (order : Nat) : (n : Nat) → Node K V n → Prop
  | 0, _ => True
  | n + 1, b => ∀ m ∈ Branch.nodes b, (Node.kind order n).Fits (Tight order n) (Node.kind (K := K) (V := V) order n).lowEntries m

theorem least_le_low (ho : 3 ≤ order) (n : Nat) : Node.least order n ≤ (Node.kind (K := K) (V := V) order n).lowEntries :=
  (Node.lawful ho n).lo_le_low

theorem inner_of_tight (ho : 3 ≤ order) : ∀ {n : Nat} {node : Node K V n}, Tight order n node → Node.Inner order n node
  | 0, _, _ => trivial
  | n + 1, b, h => fun m hm => by
    obtain ⟨hleast, hroom, hinner⟩ := h m hm
    exact ⟨Nat.le_trans (least_le_low ho n) hleast, hroom, inner_of_tight ho hinner⟩

theorem balances (ho : 3 ≤ order) : (n : Nat) →
    (Node.kind (K := K) (V := V) order n).Balances (Node.flat n) (Tight order n) (Node.kind (K := K) (V := V) order n).lowEntries
  | 0 => by
    have hlow : (Node.kind (K := K) (V := V) order 0).lowEntries = order := by
      show (2 * (order + 1) - 1) / 2 = order
      omega
    rw [hlow]
    exact Leaf.balances order ho
  | n + 1 => Branch.balances order ho (show 1 ≤ (order - 1) / 2 by omega) (Nat.le_refl _)

theorem bounded_iff : ∀ {n : Nat} {node : Node K V n},
    Bounded order n node ↔ (Node.kind order n).Fits (Tight order n) (Node.kind (K := K) (V := V) order n).lowEntries node
  | 0, os => by
    rw [Bounded, leafLowWater, leafMaxIndex]
    constructor
    · intro h
      exact ⟨show (2 * (order + 1) - 1) / 2 ≤ length os by omega, show length os < 2 * (order + 1) by omega, trivial⟩
    · intro h
      have hleast : (2 * (order + 1) - 1) / 2 ≤ length os := h.least
      have hroom : length os < 2 * (order + 1) := h.room
      omega
  | n + 1, b => by
    rw [Bounded, branchLowWater, branchMaxIndex]
    constructor
    · intro h
      refine ⟨show (order - 1) / 2 ≤ Branch.lastIndex b by omega, show Branch.lastIndex b < order by omega, fun m hm => ?_⟩
      exact bounded_iff.mp (h.2.2 m hm)
    · intro h
      have hleast : (order - 1) / 2 ≤ Branch.lastIndex b := h.least
      have hroom : Branch.lastIndex b < order := h.room
      exact ⟨by omega, by omega, fun m hm => bounded_iff.mpr (h.inner m hm)⟩

theorem rootBounded_iff : ∀ {n : Nat} {node : Node K V n}, TreeMap.Rooted order n node → (RootBounded order n node ↔ Tight order n node)
  | 0, os, hR => by
    obtain ⟨-, hpos, hroom⟩ := hR
    have hpos : 0 < length os := hpos
    have hroom : length os < 2 * (order + 1) := hroom
    rw [RootBounded, leafMaxIndex]
    exact iff_of_true (by omega) trivial
  | n + 1, b, hR => by
    obtain ⟨-, hpos, hroom⟩ := hR
    have hpos : 0 < Branch.lastIndex b := hpos
    have hroom : Branch.lastIndex b < order := hroom
    rw [RootBounded, branchMaxIndex]
    constructor
    · intro h m hm
      exact bounded_iff.mp (h.2.2 m hm)
    · intro h
      exact ⟨by omega, by omega, fun m hm => bounded_iff.mpr (h m hm)⟩

theorem tight_of_node (ho : 3 ≤ order) {n : Nat} {b b' b'' : Branch (K × V) (Node K V n)} {i : Nat} {m m' : Node K V n}
    {a c : List (K × V)} {notify notify' : Bool} (hb : Tight order (n + 1) b) (hpos : 0 < b.lastIndex) (hm : b.getNode i = some m)
    (hR : Node.Removed order n m a c m' notify) (hm' : Tight order n m') (hs : Branch.Sets b i m' b')
    (h : (if notify then Branch.isLow (Node.kind order n) order b' i else some (b', false)) = some (b'', notify')) :
    Tight order (n + 1) b'' := by
  have hlast : Branch.lastIndex b' = Branch.lastIndex b := hs.lastIndex
  obtain ⟨hleast, hroom, -⟩ := hb m (Branch.mem_nodes.mpr ⟨i, hm⟩)
  have hle := hR.le
  have hsucc := hR.le_succ
  cases hn : notify with
  | true =>
    have hlow : (Node.kind order n).physicalEntries m' < (Node.kind (K := K) (V := V) order n).lowEntries := of_decide_eq_true (hR.low hn)
    obtain ⟨out, _, hout, hmend, -⟩ := Branch.isLow_spec (balances ho n) order hs.here hm' (by omega) hlow
      (fun {j x} hj hx => hs.exchange hb hj hx) (by omega)
    rw [hn, if_pos rfl, hout] at h
    cases h
    exact hmend.fits
  | false =>
    rw [hn, if_neg Bool.false_ne_true] at h
    cases h
    refine hs.forall_nodes hb ⟨?_, by omega, hm'⟩
    rcases hR.kept hn with hkept | hkept
    · omega
    · exact Nat.le_of_not_lt (of_decide_eq_false hkept)

theorem remove_tight (ho : 3 ≤ order) : ∀ {n : Nat} {node node' : Node K V n} {path : List Nat} {index : Nat} {pre post : List (K × V)} {x : K × V}
    {notify : Bool}, Node.On n node path index pre x post → Tight order n node → (0 < n → 0 < (Node.kind order n).physicalEntries node) →
    Node.remove order n node path index = some (node', notify) → Tight order n node'
  | 0, _, _, _, _, _, _, _, _, _, _, _, _ => trivial
  | n + 1, b, b'', [], index, pre, post, x, _, ⟨i, m, hidx, hi, hpre, _⟩, hb, hpos, h => by
    subst hidx
    have hm : Branch.getNode b (i + 1) = some m := by rw [Branch.getNode_succ, hi, map_some]
    have hFm := hb m (Branch.mem_nodes.mpr ⟨i + 1, hm⟩)
    have hin := inner_of_tight ho hFm.inner
    have hmpos : 0 < n → 0 < (Node.kind order n).physicalEntries m := fun _ => Nat.lt_of_lt_of_le (balances ho n).pos hFm.least
    obtain ⟨obj, rest, hobj, hon⟩ := Node.firstLeaf_on ho ⟨Nat.le_trans (least_le_low ho n) hFm.least, hFm.room, hin⟩
    obtain ⟨-, -, hm'⟩ := Node.setObject_spec obj hi hpre
    obtain ⟨m', notify, hrem, hR⟩ := Node.remove_spec ho hon hin hmpos
    obtain ⟨b', hb', hs⟩ := Branch.onNode_sets (f := fun m => Node.remove order n m (List.replicate n 0) 0) hm' hrem
    have hset : Tight order (n + 1) (Branch.setObject b (i + 1) obj) := fun x hx => hb x (by rwa [Branch.setObject_nodes] at hx)
    have hlast : Branch.lastIndex (Branch.setObject b (i + 1) obj) = Branch.lastIndex b := length_modify _ _ _
    simp only [Node.remove, hm, bind_eq_bind, bind_some, hobj, hb'] at h
    exact tight_of_node ho hset (hlast ▸ hpos (Nat.succ_pos n)) hm' hR (remove_tight ho hon hFm.inner hmpos hrem) hs h
  | n + 1, b, b'', i :: path, index, pre, post, x, _, ⟨m, a, c, hm, hon, _, _⟩, hb, hpos, h => by
    have hFm := hb m (Branch.mem_nodes.mpr ⟨i, hm⟩)
    have hmpos : 0 < n → 0 < (Node.kind order n).physicalEntries m := fun _ => Nat.lt_of_lt_of_le (balances ho n).pos hFm.least
    obtain ⟨m', notify, hrem, hR⟩ := Node.remove_spec ho hon (inner_of_tight ho hFm.inner) hmpos
    obtain ⟨b', hb', hs⟩ := Branch.onNode_sets (f := fun m => Node.remove order n m path index) hm hrem
    simp only [Node.remove, bind_eq_bind, hb', bind_some] at h
    exact tight_of_node ho hb (hpos (Nat.succ_pos n)) hm hR (remove_tight ho hon hFm.inner hmpos hrem) hs h

/-- The bounds of every node but the root, and those of the root. -/
def NodesBounded (t : TreeMap K V) : Prop := ∀ (n : Nat) (node : Node K V n), t.root = some ⟨n, node⟩ → RootBounded t.order n node

theorem clear_bounded (t : TreeMap K V) : NodesBounded t.clear := by
  intro n node h
  rw [TreeMap.clear] at h
  split at h
  · cases h
  · rename_i hroot
    rw [hroot] at h
    cases h

theorem remove_bounded [LinearOrder K] {t t' : TreeMap K V} (ht : t.Valid) (hb : NodesBounded t) {key : K} {e : Option (K × V)}
    (h : t.remove key = some (t', e)) : NodesBounded t' := by
  rcases hroot : t.root with _ | ⟨n, node⟩
  · simp only [TreeMap.remove, hroot, Option.some.injEq, Prod.mk.injEq] at h
    exact h.1 ▸ hb
  · obtain ⟨-, hloc⟩ := TreeMap.located_of_root ht hroot key
    cases hloc with
    | miss hentry _ _ _ _ =>
      simp only [TreeMap.remove, hroot, hentry, Option.some.injEq, Prod.mk.injEq] at h
      exact h.1 ▸ hb
    | @hit x pre post hentry hx hon _ =>
      subst hx
      obtain ⟨node', notify, hrem, hv, -⟩ := TreeMap.remove_valid ht hroot hon
      have hR := ht.root hroot
      have htight := remove_tight ht.order hon ((rootBounded_iff hR).mp (hb n node hroot)) (fun _ => hR.2.1) hrem
      obtain ⟨t1, ht1⟩ : ∃ t1 : TreeMap K V, t1 =
          { t with
            root := if notify && (Node.kind t.order n).physicalEntries node' == 0 then TreeMap.notifyRootEmpty n node' else some ⟨n, node'⟩
            pEntries := t.pEntries - 1 } := ⟨_, rfl⟩
      rw [← ht1] at hv
      have hb1 : NodesBounded t1 := by
        intro m r hr
        refine (rootBounded_iff (hv.root hr)).mpr ?_
        subst ht1
        dsimp only at hr
        split_ifs at hr with hempty
        · cases n with
          | zero => cases hr
          | succ n =>
            cases hr
            exact (htight (Branch.first node') mem_cons_self).inner
        · cases hr
          exact htight
      have hremove : t.remove x.1 = some (if t1.size = 0 then t1.clear else t1, some x) := by
        simp only [TreeMap.remove, hroot, hentry, hrem, ht1]
        rfl
      rw [hremove, Option.some.injEq, Prod.mk.injEq] at h
      obtain ⟨rfl, -⟩ := h
      by_cases hsize : t1.size = 0
      · rw [if_pos hsize]
        exact clear_bounded t1
      · rw [if_neg hsize]
        exact hb1

end Fills

/-! ## A whole pass -/

section Passes

variable [LinearOrder K] {R : Type} {returns : K × V → R} {chosen : List R → Bool} {t : TreeMap K V}

/-- A pass that has returned the entries `done` and has the entries `rest` ahead. -/
structure Midway (returns : K × V → R) (chosen : List R → Bool) (t : TreeMap K V) (p : Pass K V R) (done rest : List (K × V)) : Prop where
  entries : t.entries = done ++ rest
  returned : p.returned = done.map returns
  removed : ∀ {pre post x}, done = pre ++ x :: post → (x.1 ∈ p.removed ↔ chosen ((pre ++ [x]).map returns) = true)
  passed : ∀ k ∈ p.removed, ∃ e ∈ done, e.1 = k
  left : p.iter.map.entries = done.filter (fun e => e.1 ∉ p.removed) ++ rest
  valid : p.iter.map.Valid
  bounded : NodesBounded t → NodesBounded p.iter.map
  ahead : Ahead p.iter.map p.iter.range rest

theorem midway_start (ht : t.Valid) : Midway returns chosen t ⟨iterator t, [], []⟩ [] t.entries where
  entries := rfl
  returned := rfl
  removed := fun {pre} _ _ h => by cases pre <;> cases h
  passed := fun k hk => absurd hk not_mem_nil
  left := rfl
  valid := ht
  bounded := fun h => h
  ahead := iterator_ahead t

theorem turn_midway (ht : t.Valid) {p : Pass K V R} {done rest : List (K × V)} {x : K × V} (h : Midway returns chosen t p done (x :: rest)) :
    p.iter.hasNext = true ∧ ∃ p', turn returns chosen p = some p' ∧ Midway returns chosen t p' (done ++ [x]) rest := by
  obtain ⟨hnext, range, hx, hahead⟩ := next_spec h.valid.built h.ahead
  have hs := ht.sorted
  rw [h.entries] at hs
  have hbelow : ∀ e ∈ done, e.1 < x.1 := fun e he => (pairwise_append.mp hs).2.2 e he x mem_cons_self
  have hreturned : p.returned ++ [returns x] = (done ++ [x]).map returns := by rw [h.returned, map_append]; rfl
  have hentries : t.entries = (done ++ [x]) ++ rest := by rw [h.entries, append_assoc]; rfl
  have hnew : x.1 ∉ p.removed := fun hmem => by
    obtain ⟨e, he, hk⟩ := h.passed x.1 hmem
    exact absurd hk (ne_of_lt (hbelow e he))
  -- an entry returned is the new one, or was returned before
  have hold {removed : List K} (hr : ∀ k, k ≠ x.1 → (k ∈ removed ↔ k ∈ p.removed))
      (hx : x.1 ∈ removed ↔ chosen ((done ++ [x]).map returns) = true) {pre post : List (K × V)} {y : K × V}
      (hdone : done ++ [x] = pre ++ y :: post) : y.1 ∈ removed ↔ chosen ((pre ++ [y]).map returns) = true := by
    rcases eq_nil_or_concat post with rfl | ⟨post', z, rfl⟩
    · obtain ⟨rfl, hxy⟩ := List.append_inj' hdone rfl
      cases hxy
      exact hx
    · have hsplit : done ++ [x] = (pre ++ y :: post') ++ [z] := by rw [hdone]; simp
      obtain ⟨hdone', -⟩ := List.append_inj' hsplit rfl
      have hy : y ∈ done := by
        rw [hdone']
        exact mem_append_right _ mem_cons_self
      rw [hr y.1 (ne_of_lt (hbelow y hy))]
      exact h.removed hdone'
  refine ⟨hnext, ?_⟩
  rw [turn, hx]
  dsimp only
  rw [hreturned]
  by_cases hchosen : chosen ((done ++ [x]).map returns) = true
  · have hleft : p.iter.map.entries = done.filter (fun e => e.1 ∉ p.removed) ++ x :: rest := h.left
    have hfinish : range.finish = none := by cases hahead <;> rfl
    obtain ⟨it, hrem, ⟨e, hmap⟩, hv, hent, hahead'⟩ := @remove_spec _ _ _ ⟨some x, p.iter.map, range⟩ _ _ _ h.valid rfl hleft hfinish
    rw [if_pos hchosen, hrem]
    refine ⟨_, rfl, hentries, rfl, hold (fun k hk => ?_) ?_, ?_, ?_, hv, fun hb => remove_bounded h.valid (h.bounded hb) hmap, hahead'⟩
    · simp [hk]
    · exact iff_of_true (by simp) hchosen
    · intro k hk
      rcases mem_append.mp hk with hk | hk
      · obtain ⟨e, he, rfl⟩ := h.passed k hk
        exact ⟨e, mem_append_left _ he, rfl⟩
      · exact ⟨x, by simp, (mem_singleton.mp hk).symm⟩
    · have hfilter : done.filter (fun e => e.1 ∉ p.removed ++ [x.1]) = done.filter fun e => e.1 ∉ p.removed :=
        filter_congr fun e he => by simp [ne_of_lt (hbelow e he)]
      rw [hent, filter_append, hfilter]
      simp
  · rw [if_neg hchosen]
    refine ⟨_, rfl, hentries, rfl, hold (fun k _ => Iff.rfl) (iff_of_false hnew hchosen), ?_, ?_, h.valid, h.bounded, hahead⟩
    · intro k hk
      obtain ⟨e, he, rfl⟩ := h.passed k hk
      exact ⟨e, mem_append_left _ he, rfl⟩
    · rw [h.left, filter_append, append_assoc]
      simp [hnew]

theorem pass_midway (ht : t.Valid) {p : Pass K V R} {done rest : List (K × V)} (h : Midway returns chosen t p done rest) :
    ∃ p', pass returns chosen (rest.length + 1) p = some p' ∧ Midway returns chosen t p' (done ++ rest) [] := by
  induction rest generalizing p done with
  | nil =>
    refine ⟨p, ?_, by rw [append_nil]; exact h⟩
    rw [pass, hasNext_nil h.valid.built h.ahead]
    rfl
  | cons x rest ih =>
    obtain ⟨hnext, p1, hturn, h1⟩ := turn_midway ht h
    obtain ⟨p', hp', h'⟩ := ih h1
    refine ⟨p', ?_, by rw [append_assoc] at h'; exact h'⟩
    rw [length_cons, pass, if_pos hnext, hturn]
    exact hp'

end Passes

/-- A pass over any tree, whichever of the returned entries it removes on the way: every entry is
returned once and in order, and those removed are gone. -/
theorem pass_removes [LinearOrder K] {R : Type} {t : TreeMap K V} (ht : t.Valid) (returns : K × V → R) (chosen : List R → Bool) :
    ∃ turns p, pass returns chosen turns ⟨iterator t, [], []⟩ = some p ∧ p.returned = t.entries.map returns ∧
      (∀ {pre post x}, t.entries = pre ++ x :: post → (x.1 ∈ p.removed ↔ chosen ((pre ++ [x]).map returns) = true)) ∧
      p.iter.map.entries = t.entries.filter (fun e => e.1 ∉ p.removed) ∧ p.iter.map.Valid ∧
      (NodesBounded t → NodesBounded p.iter.map) := by
  have hstart : Midway returns chosen t ⟨iterator t, [], []⟩ [] t.entries := midway_start ht
  obtain ⟨p, hp, h⟩ := pass_midway ht hstart
  rw [nil_append] at h
  have hleft := h.left
  rw [append_nil] at hleft
  exact ⟨_, p, hp, h.returned, h.removed, hleft, h.valid, h.bounded⟩

/-- A key iterator takes the even keys out of a tree with branches. -/
theorem even_keys_removed :
    ∃ s, exec Session.step ⟨init 3 false, []⟩ (Op.append 1 10 :: (range 20).map fun k => .put (k + 2) 20) = some s ∧
      s.map.rootIsLeaf = false ∧
      ∃ turns p, pass Prod.fst (fun seen => seen.getLast?.any (· % 2 = 0)) turns ⟨iterator s.map, [], []⟩ = some p ∧
        p.returned = (range 21).map (· + 1) ∧ 2 ∈ p.removed ∧ 3 ∉ p.removed ∧ NodesBounded p.iter.map := by
  obtain ⟨s, hs, hent, horder, hleaf⟩ : ∃ s, exec Session.step ⟨init 3 false, []⟩
      (Op.append 1 10 :: (range 20).map fun k => .put (k + 2) 20) = some s ∧
      s.map.entries = (1, 10) :: (range 20).map (fun k => (k + 2, 20)) ∧ s.map.order = 3 ∧ s.map.rootIsLeaf = false := by
    exact exec_ends (by decide +kernel)
  have hvalid : s.map.Valid := by
    obtain ⟨s', hs', h⟩ := run_refines (K := Nat) (V := Nat) 3 false
      (show exec Reference.step ⟨.empty, []⟩ (Op.append 1 10 :: (range 20).map fun k => .put (k + 2) 20) = some _ from rfl)
    cases hs.symm.trans hs'
    exact h.valid
  obtain ⟨turns, p, hp, hreturned, hremoved, -, -, hbounded⟩ := pass_removes hvalid Prod.fst fun seen => seen.getLast?.any (· % 2 = 0)
  refine ⟨s, hs, hleaf, turns, p, hp, by rw [hreturned, hent]; decide, ?_, ?_, hbounded fun n node hroot => ?_⟩
  · exact (@hremoved [(1, 10)] _ (2, 20) hent).mpr (by decide)
  · exact fun h => absurd ((@hremoved [(1, 10), (2, 20)] _ (3, 20) hent).mp h) (by decide)
  · exact bounded_of_valid hvalid (by rw [horder]; decide) hroot

end DeepFabric.Platform.TreeIteration
