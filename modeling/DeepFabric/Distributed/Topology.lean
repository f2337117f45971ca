/-
  DeepFabric.Distributed.Topology — how the servers of a fabric learn who is connected to whom
  (fabric/RealtimeFabricMatrix.cxx).

  A server has a matrix of rows, one for each server it has heard of: the peers of that server
  and a sequence number. addAdj and delAdj change its own row and count the sequence up. It
  renders its matrix as JSON, and processes the matrices of others: a row that is unknown or has
  a higher sequence takes the place of its own. bChangeApplied tells the caller to send the
  matrix on.

  Rows are spread from server to server. A matrix that was rendered may be delivered at any time,
  any number of times or never, to any server; the JSON library gives back what it was given, and
  `keySet` gives the keys in some order. The sequence of a server is 32 bits wide. `history` is
  what a server's peers were at each of its sequences.

  - `step_inv` / `inv`: a row that is stored or under way lists the peers its server had at that
    sequence, if no server adds a peer that it has.
-/
import Mathlib.Algebra.Group.Nat.Defs
import DeepFabric.Platform.TreeSet
import Mathlib.Data.Finset.Basic
import Mathlib.Data.Finset.Dedup

namespace DeepFabric.Distributed.Topology

open DeepFabric.Lib DeepFabric.Lib.Run DeepFabric.Platform List Function
open Function (update)

/-! ## Rows -/

structure SparseAdj where
  sequence : Nat
  peers : TreeSet Nat Unit

namespace SparseAdj

def new : SparseAdj := ⟨0, TreeSet.init 3⟩

def addPeer (a : SparseAdj) (serverId : Nat) : Option SparseAdj :=
  (TreeSet.add a.peers (serverId, ())).map fun p => { a with peers := p.1 }

def delPeer (a : SparseAdj) (serverId : Nat) : Option SparseAdj :=
  (TreeSet.remove a.peers (serverId, ())).map fun p => { a with peers := p.1 }

/-- The peers as the iterator gives them. -/
def list (a : SparseAdj) : List Nat := a.peers.entries.map Prod.fst

/-- `m_iSequence++`. -/
def count (a : SparseAdj) : SparseAdj := { a with sequence := (a.sequence + 1) % 2 ^ 32 }

end SparseAdj

/-! ## Matrices -/

structure AdjMatrix where
  serverId : Nat
  peersAdjs : List (Nat × SparseAdj)

/-- An adjacency in JSON, and its members where they exist. -/
structure Adj where
  serverId : Option Nat
  sequence : Option Nat
  adj : Option (List Nat)
  deriving DecidableEq, Repr

/-- The member "matrix" where it exists, with its elements where they are objects. -/
abbrev Json := Option (List (Option Adj))

namespace AdjMatrix

def get (m : AdjMatrix) (id : Nat) : Option SparseAdj := m.peersAdjs.lookup id

def put (m : AdjMatrix) (id : Nat) (a : SparseAdj) : AdjMatrix :=
  { m with peersAdjs := (id, a) :: m.peersAdjs.filter fun p => p.1 ≠ id }

def keySet (m : AdjMatrix) : List Nat := m.peersAdjs.map Prod.fst

def addAdj (m : AdjMatrix) (peerId : Nat) : Option AdjMatrix := do
  let this ← ((m.get m.serverId).getD .new).addPeer peerId
  return m.put m.serverId this.count

/-- The status, and the matrix. -/
def delAdj (m : AdjMatrix) (peerId : Nat) : Option (Int × AdjMatrix) :=
  match m.get m.serverId with
  | none => some (-1, m)
  | some this => do
    let this ← this.delPeer peerId
    return (0, m.put m.serverId this.count)

/-- `keys` is the set of the keys in the order that the iterator gives. -/
def renderAsJSON (m : AdjMatrix) (keys : List Nat) : Json :=
  some (keys.filterMap fun id => (m.get id).map fun sparse => some ⟨some id, some sparse.sequence, some sparse.list⟩)

/-- One turn of the loop of processJSON. -/
def processAdj (m : AdjMatrix) (changeApplied : Bool) (server sequence : Nat) (adj : List Nat) : Option (AdjMatrix × Bool) :=
  if server = m.serverId then
    let own := (m.get server).getD .new
    let m := if (m.get server).isNone then m.put server own else m
    if own.sequence < sequence then some (m.put server { own with sequence := (sequence + 1) % 2 ^ 32 }, true)
    else if sequence < own.sequence then some (m, true)
    else some (m, changeApplied)
  else if (m.get server).all fun sparse => sparse.sequence < sequence then do
    let newer ← adj.foldlM SparseAdj.addPeer { SparseAdj.new with sequence := sequence }
    return (m.put server newer, changeApplied)
  else if (m.get server).any fun sparse => sequence < sparse.sequence then some (m, true)
  else some (m, changeApplied)

def processRows (m : AdjMatrix) (changeApplied : Bool) : List (Option Adj) → Option (Int × AdjMatrix × Bool)
  | [] => some (0, m, changeApplied)
  | none :: _ => some (-2, m, changeApplied)
  | some ⟨none, _, _⟩ :: _ => some (-3, m, changeApplied)
  | some ⟨some _, none, _⟩ :: _ => some (-4, m, changeApplied)
  | some ⟨some _, some _, none⟩ :: _ => some (-5, m, changeApplied)
  | some ⟨some server, some sequence, some adj⟩ :: rows => do
    let (m, changeApplied) ← processAdj m changeApplied server sequence adj
    processRows m changeApplied rows

/-- The status, the matrix and bChangeApplied. -/
def processJSON (m : AdjMatrix) (json : Json) (changeApplied : Bool) : Option (Int × AdjMatrix × Bool) :=
  match json with
  | none => some (-1, m, changeApplied)
  | some rows => processRows m changeApplied rows

end AdjMatrix

/-! ## A fabric -/

structure St where
  matrix : Nat → AdjMatrix
  /-- All matrices rendered so far. -/
  sent : List Json
  history : Nat → List (Finset Nat)

def init : St := ⟨fun s => ⟨s, []⟩, [], fun _ => [∅]⟩

inductive Ev where
  | addAdj (server peer : Nat)
  | delAdj (server peer : Nat)
  | render (server : Nat) (keys : List Nat)
  | deliver (server : Nat) (i : Nat)
  deriving Repr

def St.current (s : St) (server : Nat) : Finset Nat := (s.history server).getLastD ∅

def step (s : St) : Ev → Option St
  | .addAdj server peer => do
    let m ← (s.matrix server).addAdj peer
    return { s with matrix := update s.matrix server m,
                    history := update s.history server (s.history server ++ [insert peer (s.current server)]) }
  | .delAdj server peer => do
    let (status, m) ← (s.matrix server).delAdj peer
    return { s with matrix := update s.matrix server m,
                    history := if status = 0 then
                      update s.history server (s.history server ++ [(s.current server).erase peer]) else s.history }
  | .render server keys =>
    if keys.Perm (s.matrix server).keySet then some { s with sent := s.sent ++ [(s.matrix server).renderAsJSON keys] } else none
  | .deliver server i => do
    let json ← s.sent[i]?
    let (_, m, _) ← (s.matrix server).processJSON json false
    return { s with matrix := update s.matrix server m }

/-- A server adds no peer that it has, and its sequence does not wrap around. -/
def Allowed (s : St) : Ev → Prop
  | .addAdj server peer =>
    (s.history server).length < 2 ^ 32 ∧ ∀ a ∈ (s.matrix server).get server, (TreeSet.contains a.peers (peer, ())).1 = false
  | .delAdj server _ => (s.history server).length < 2 ^ 32
  | _ => True

/-! ## Peers -/

namespace SparseAdj

variable {a : SparseAdj}

/-- A row whose peers are in order. -/
def Valid (a : SparseAdj) : Prop := TreeMap.Valid a.peers

theorem list_sorted (h : a.Valid) : a.list.Pairwise (· < ·) := pairwise_map.mpr h.sorted

theorem mem_list {peer : Nat} : peer ∈ a.list ↔ (peer, ()) ∈ a.peers.entries := by
  rw [list, mem_map]
  exact ⟨fun ⟨⟨_, _⟩, h, heq⟩ => heq ▸ h, fun h => ⟨_, h, rfl⟩⟩

theorem contains_eq_false (h : a.Valid) {peer : Nat} : (TreeSet.contains a.peers (peer, ())).1 = false ↔ peer ∉ a.list := by
  rw [mem_list]
  show (TreeMap.find a.peers peer).isSome = false ↔ _
  rw [Option.isSome_eq_false_iff, Option.isNone_iff_eq_none]
  constructor
  · exact fun hnone hmem => TreeSet.not_mem_of_find_none h hnone _ hmem rfl
  · exact fun hnot => TreeSet.find_none_of_not_mem h fun x hx heq => hnot (heq ▸ hx)

theorem new_valid (sequence : Nat) : ({ new with sequence := sequence } : SparseAdj).Valid := TreeMap.init_valid 3 false

theorem addPeer_spec (h : a.Valid) {peer : Nat} (hnew : peer ∉ a.list) :
    ∃ a', a.addPeer peer = some a' ∧ a'.Valid ∧ a'.sequence = a.sequence ∧ ∀ p, p ∈ a'.list ↔ p = peer ∨ p ∈ a.list := by
  have hfresh : TreeSet.Fresh a.peers (peer, ()) := by
    intro old hold
    have hnone := (contains_eq_false h).mpr hnew
    have hsome : (TreeMap.find a.peers peer).isSome = true := Option.isSome_iff_exists.mpr ⟨old, hold⟩
    rw [show (TreeMap.find a.peers peer).isSome = false from hnone] at hsome
    cases hsome
  obtain ⟨t, hadd, hv, he, -⟩ := TreeSet.add_spec h hfresh
  refine ⟨{ a with peers := t }, by rw [addPeer, hadd]; rfl, hv, rfl, fun p => ?_⟩
  rw [mem_list, mem_list]
  show (p, ()) ∈ t.entries ↔ _
  rw [he, SortedMap.mem_of_insertEntry h.sorted]
  by_cases hp : p = peer
  · simp [hp]
  · simp [hp]

theorem delPeer_spec (h : a.Valid) (peer : Nat) :
    ∃ a', a.delPeer peer = some a' ∧ a'.Valid ∧ a'.sequence = a.sequence ∧ ∀ p, p ∈ a'.list ↔ p ≠ peer ∧ p ∈ a.list := by
  obtain ⟨t, hremove, hv, he, -⟩ := TreeSet.remove_spec h (peer, ())
  refine ⟨{ a with peers := t }, by rw [delPeer, hremove]; rfl, hv, rfl, fun p => ?_⟩
  rw [mem_list, mem_list]
  show (p, ()) ∈ t.entries ↔ _
  rw [he, mem_filter]
  simp [and_comm]

theorem addPeers_spec {adj : List Nat} (h : a.Valid) (hnew : ∀ p ∈ adj, p ∉ a.list) (hadj : adj.Nodup) :
    ∃ a', adj.foldlM addPeer a = some a' ∧ a'.Valid ∧ a'.sequence = a.sequence ∧ ∀ p, p ∈ a'.list ↔ p ∈ adj ∨ p ∈ a.list := by
  induction adj generalizing a with
  | nil => exact ⟨a, rfl, h, rfl, fun p => by simp⟩
  | cons peer adj ih =>
    obtain ⟨hpeer, hadj⟩ := nodup_cons.mp hadj
    obtain ⟨a1, hadd, h1, hseq1, hmem1⟩ := addPeer_spec h (hnew peer mem_cons_self)
    obtain ⟨a', hall, h', hseq', hmem'⟩ := ih h1 (fun p hp hin => by
      rcases (hmem1 p).mp hin with rfl | hin
      · exact hpeer hp
      · exact hnew p (mem_cons_of_mem _ hp) hin) hadj
    refine ⟨a', ?_, h', hseq'.trans hseq1, fun p => ?_⟩
    · rw [foldlM_cons, hadd]
      exact hall
    · rw [hmem', hmem1, mem_cons]
      exact ⟨fun hp => by rcases hp with hp | hp | hp <;> simp [hp], fun hp => by rcases hp with (hp | hp) | hp <;> simp [hp]⟩

end SparseAdj

namespace AdjMatrix

variable {m : AdjMatrix}

theorem get_put (id : Nat) (a : SparseAdj) (j : Nat) : (m.put id a).get j = if j = id then some a else m.get j := by
  rw [get, put]
  show ((id, a) :: m.peersAdjs.filter fun p => p.1 ≠ id).lookup j = _
  rw [lookup_cons]
  by_cases hj : j = id
  · rw [if_pos hj, hj, beq_self_eq_true]
  · rw [if_neg hj, beq_false_of_ne hj, get]
    show (m.peersAdjs.filter fun p => p.1 ≠ id).lookup j = m.peersAdjs.lookup j
    induction m.peersAdjs with
    | nil => rfl
    | cons p ps ih =>
      rw [filter_cons]
      split_ifs with hp
      · rw [lookup_cons, lookup_cons, ih]
      · have hpid : p.1 = id := by simpa using hp
        rw [ih, lookup_cons, hpid, beq_false_of_ne hj]

theorem keySet_put (id : Nat) (a : SparseAdj) (h : m.keySet.Nodup) : (m.put id a).keySet.Nodup := by
  show (id :: (m.peersAdjs.filter fun p => p.1 ≠ id).map Prod.fst).Nodup
  refine nodup_cons.mpr ⟨fun hin => ?_, h.sublist (filter_sublist.map _)⟩
  obtain ⟨p, hp, rfl⟩ := mem_map.mp hin
  exact absurd rfl (of_decide_eq_true (mem_filter.mp hp).2)

end AdjMatrix

/-! ## A matrix -/

/-- What is told of a server at a sequence: its peers then, each once. -/
structure Told (history : List (Finset Nat)) (sequence : Nat) (adj : List Nat) : Prop where
  pos : 1 ≤ sequence
  once : adj.Nodup
  peers : history[sequence]? = some adj.toFinset

theorem Told.lt {history : List (Finset Nat)} {sequence : Nat} {adj : List Nat} (h : Told history sequence adj) :
    sequence < history.length := (List.getElem?_eq_some_iff.mp h.peers).1

theorem Told.append {history : List (Finset Nat)} {sequence : Nat} {adj : List Nat} (h : Told history sequence adj)
    (l : List (Finset Nat)) : Told (history ++ l) sequence adj :=
  ⟨h.pos, h.once, by rw [List.getElem?_append_left h.lt]; exact h.peers⟩

namespace AdjMatrix

def own (m : AdjMatrix) : SparseAdj := (m.get m.serverId).getD .new

/-- The row is one that the matrix does not have. -/
def newer (m : AdjMatrix) (server sequence : Nat) : Bool :=
  server ≠ m.serverId && (m.get server).all fun a => a.sequence < sequence

/-- The matrix has a newer row. -/
def older (m : AdjMatrix) (server sequence : Nat) : Bool := (m.get server).any fun a => sequence < a.sequence

structure Inv (history : Nat → List (Finset Nat)) (m : AdjMatrix) : Prop where
  keys : m.keySet.Nodup
  own : m.own.sequence + 1 = (history m.serverId).length
  latest : (history m.serverId).getLastD ∅ = m.own.list.toFinset
  valid : ∀ {q a}, m.get q = some a → a.Valid
  told : ∀ {q a}, m.get q = some a → Told (history q) a.sequence a.list

variable {history : Nat → List (Finset Nat)} {m : AdjMatrix}

theorem Inv.own_valid (h : m.Inv history) : m.own.Valid := by
  rw [AdjMatrix.own]
  cases hget : m.get m.serverId with
  | none => exact SparseAdj.new_valid 0
  | some a => exact h.valid hget

theorem Inv.mono (h : m.Inv history) {history' : Nat → List (Finset Nat)} (hgrow : ∀ q, ∃ l, history' q = history q ++ l)
    (hown : history' m.serverId = history m.serverId) : m.Inv history' where
  keys := h.keys
  own := hown ▸ h.own
  latest := hown ▸ h.latest
  valid := h.valid
  told := fun {q a} ha => by
    obtain ⟨l, hl⟩ := hgrow q
    exact hl ▸ (h.told ha).append l

theorem Inv.count (h : m.Inv history) (hlt : (history m.serverId).length < 2 ^ 32) {a : SparseAdj} (hv : a.Valid)
    (hseq : a.sequence = m.own.sequence) :
    (m.put m.serverId a.count).Inv (update history m.serverId (history m.serverId ++ [a.list.toFinset])) := by
  have hown := h.own
  have hcount : a.count.sequence = (history m.serverId).length := by
    show (a.sequence + 1) % 2 ^ 32 = _
    rw [hseq, hown, Nat.mod_eq_of_lt hlt]
  have hself : (m.put m.serverId a.count).get m.serverId = some a.count := by rw [get_put, if_pos rfl]
  have hown' : (m.put m.serverId a.count).own = a.count := by
    show ((m.put m.serverId a.count).get m.serverId).getD .new = _
    rw [hself]
    rfl
  refine ⟨keySet_put _ _ h.keys, ?_, ?_, fun {q b} hb => ?_, fun {q b} hb => ?_⟩
  · show _ = (update history m.serverId _ m.serverId).length
    rw [hown', hcount, update_self, length_append]
    rfl
  · show (update history m.serverId _ m.serverId).getLastD ∅ = _
    rw [hown', update_self, getLastD_concat]
    rfl
  · rw [get_put] at hb
    split_ifs at hb with hq
    · cases hb
      exact hv
    · exact h.valid hb
  · rw [get_put] at hb
    split_ifs at hb with hq
    · cases hb
      subst hq
      rw [update_self]
      refine ⟨by omega, (SparseAdj.list_sorted hv).imp fun hlt => Nat.ne_of_lt hlt, ?_⟩
      rw [hcount, List.getElem?_append_right (Nat.le_refl _), Nat.sub_self]
      rfl
    · rw [update_of_ne hq]
      exact h.told hb

theorem processAdj_spec (h : m.Inv history) {server sequence : Nat} {adj : List Nat} (hrow : Told (history server) sequence adj)
    (changeApplied : Bool) :
    ∃ m', m.processAdj changeApplied server sequence adj = some (m', changeApplied || m.older server sequence) ∧ m'.Inv history ∧
      m'.serverId = m.serverId ∧ (∀ j ≠ server, m'.get j = m.get j) ∧
      (m.newer server sequence = true → (m'.get server).map (·.sequence) = some sequence) ∧
      (m.newer server sequence = false → m' = m) := by
  rw [processAdj]
  by_cases hown : server = m.serverId
  · -- of the own row no more is told than there is
    subst hown
    have hlt := hrow.lt
    have hseq := h.own
    have hpos := hrow.pos
    rw [if_pos rfl]
    have hnewer : m.newer m.serverId sequence = false := by rw [newer, decide_eq_false (not_not_intro rfl), Bool.false_and]
    cases hget : m.get m.serverId with
    | none =>
      rw [AdjMatrix.own, hget] at hseq
      have : SparseAdj.new.sequence = 0 := rfl
      rw [Option.getD_none] at hseq
      omega
    | some a =>
      rw [AdjMatrix.own, hget, Option.getD_some] at hseq
      have holder : m.older m.serverId sequence = decide (sequence < a.sequence) := by rw [older, hget, Option.any_some]
      rw [holder]
      refine ⟨m, ?_, h, rfl, fun _ _ => rfl, fun hn => absurd hn (by rw [hnewer]; exact Bool.false_ne_true), fun _ => rfl⟩
      simp only [Option.getD_some, Option.isNone_some, Bool.false_eq_true, if_false]
      rw [if_neg (by omega)]
      by_cases hlt : sequence < a.sequence
      · rw [if_pos hlt, decide_eq_true hlt, Bool.or_true]
      · rw [if_neg hlt, decide_eq_false hlt, Bool.or_false]
  · rw [if_neg hown]
    have hnewer : m.newer server sequence = (m.get server).all fun a => a.sequence < sequence := by
      rw [newer, decide_eq_true hown, Bool.true_and]
    rw [hnewer]
    by_cases hall : ((m.get server).all fun a => decide (a.sequence < sequence)) = true
    · have holder : m.older server sequence = false := by
        rw [older]
        cases hget : m.get server with
        | none => rfl
        | some a =>
          rw [hget, Option.all_some] at hall
          have := of_decide_eq_true hall
          rw [Option.any_some, decide_eq_false (by omega)]
      obtain ⟨a, hadd, hv, hseq, hmem⟩ := @SparseAdj.addPeers_spec _ adj (SparseAdj.new_valid sequence)
        (fun p _ hp => by cases hp) hrow.once
      have hlist : a.list.toFinset = adj.toFinset := by
        refine Finset.ext fun p => ?_
        rw [mem_toFinset, mem_toFinset, hmem]
        exact ⟨fun hp => hp.resolve_right fun hp => (by cases hp), .inl⟩
      rw [if_pos hall, holder, Bool.or_false]
      refine ⟨m.put server a, by rw [hadd]; rfl, ?_, rfl, fun j hj => by rw [get_put, if_neg hj], fun _ => ?_,
        fun hn => absurd (hall.symm.trans hn) (Ne.symm Bool.false_ne_true)⟩
      · have hsame : (m.put server a).own = m.own := by
          show ((m.put server a).get m.serverId).getD .new = _
          rw [get_put, if_neg (Ne.symm hown)]
          rfl
        refine ⟨keySet_put _ _ h.keys, hsame ▸ h.own, hsame ▸ h.latest, fun {q b} hb => ?_, fun {q b} hb => ?_⟩
        · rw [get_put] at hb
          split_ifs at hb
          · cases hb
            exact hv
          · exact h.valid hb
        · rw [get_put] at hb
          split_ifs at hb with hq
          · cases hb
            subst hq
            refine ⟨hseq ▸ hrow.pos, (SparseAdj.list_sorted hv).imp fun hlt => Nat.ne_of_lt hlt, ?_⟩
            rw [hseq, hlist]
            exact hrow.peers
          · exact h.told hb
      · rw [get_put, if_pos rfl, Option.map_some, hseq]
    · rw [if_neg hall]
      refine ⟨m, ?_, h, rfl, fun _ _ => rfl, fun hn => absurd hn hall, fun _ => rfl⟩
      show (if m.older server sequence = true then some (m, true) else some (m, changeApplied)) = _
      cases m.older server sequence with
      | true => rw [if_pos rfl, Bool.or_true]
      | false => rw [if_neg Bool.false_ne_true, Bool.or_false]

/-- A row as it is rendered. -/
def toAdj (row : Nat × Nat × List Nat) : Option Adj := some ⟨some row.1, some row.2.1, some row.2.2⟩

theorem processRows_spec {rows : List (Nat × Nat × List Nat)} (hnodup : (rows.map Prod.fst).Nodup)
    (hrows : ∀ row ∈ rows, Told (history row.1) row.2.1 row.2.2) (h : m.Inv history) (changeApplied : Bool) :
    ∃ m', m.processRows changeApplied (rows.map toAdj) = some (0, m', changeApplied || rows.any fun row => m.older row.1 row.2.1) ∧
      m'.Inv history ∧ m'.serverId = m.serverId ∧
      (∀ row ∈ rows, m.newer row.1 row.2.1 = true → (m'.get row.1).map (·.sequence) = some row.2.1) ∧
      ∀ j, (∀ row ∈ rows, row.1 = j → m.newer j row.2.1 = false) → m'.get j = m.get j := by
  induction rows generalizing m changeApplied with
  | nil => exact ⟨m, by rw [any_nil, Bool.or_false]; rfl, h, rfl, fun row hrow => absurd hrow not_mem_nil, fun _ _ => rfl⟩
  | cons row rows ih =>
    obtain ⟨server, sequence, adj⟩ := row
    obtain ⟨hfirst, hnodup⟩ := nodup_cons.mp hnodup
    obtain ⟨m1, hproc, h1, hid, hother, hnew, hkeep⟩ := processAdj_spec h (hrows _ mem_cons_self) changeApplied
    have hne {row : Nat × Nat × List Nat} (hrow : row ∈ rows) : row.1 ≠ server := fun heq =>
      hfirst (mem_map.mpr ⟨row, hrow, heq⟩)
    have hget {row : Nat × Nat × List Nat} (hrow : row ∈ rows) : m1.get row.1 = m.get row.1 := hother _ (hne hrow)
    obtain ⟨m', hrest, h', hid', hnew', hkeep'⟩ := ih hnodup (forall_mem_cons.mp hrows).2 h1
      (changeApplied || m.older server sequence)
    refine ⟨m', ?_, h', hid'.trans hid, fun row hrow hnewer => ?_, fun j hj => ?_⟩
    · show ((m.processAdj changeApplied server sequence adj).bind fun p => processRows p.1 p.2 (rows.map toAdj)) = _
      rw [hproc, Option.bind_some, hrest, any_cons, Bool.or_assoc]
      have hany : (rows.any fun row => m1.older row.1 row.2.1) = rows.any fun row => m.older row.1 row.2.1 := by
        rw [Bool.eq_iff_iff, any_eq_true, any_eq_true]
        refine exists_congr fun row => and_congr_right fun hrow => ?_
        rw [older, older, hget hrow]
      rw [hany]
    · rcases mem_cons.mp hrow with rfl | hrow
      · rw [hkeep' server fun row hrow heq => absurd heq (hne hrow)]
        exact hnew hnewer
      · refine hnew' row hrow ?_
        rw [newer, hid, hget hrow]
        exact hnewer
    · rw [hkeep' j fun row hrow heq => ?_]
      · by_cases hjs : j = server
        · subst hjs
          rw [hkeep (hj (j, sequence, adj) mem_cons_self rfl)]
        · exact hother j hjs
      · subst heq
        rw [newer, hid, hget hrow]
        exact hj row (mem_cons_of_mem _ hrow) rfl

/-- The servers and sequences that a matrix tells of. -/
def rowsOf (json : Json) : List (Nat × Nat) :=
  (json.getD []).filterMap fun adj => adj.bind fun adj => adj.serverId.bind fun server => adj.sequence.map fun sequence => (server, sequence)

/-- The matrix has a row that the receiver does not have. -/
def brings (m : AdjMatrix) (json : Json) : Bool := (rowsOf json).any fun row => m.newer row.1 row.2

/-- The receiver has a newer row than the sender. -/
def isAhead (m : AdjMatrix) (json : Json) : Bool := (rowsOf json).any fun row => m.older row.1 row.2

/-- A matrix that some server had. -/
def Rendered (history : Nat → List (Finset Nat)) (json : Json) : Prop :=
  ∃ rows : List (Nat × Nat × List Nat), json = some (rows.map toAdj) ∧ (rows.map Prod.fst).Nodup ∧
    ∀ row ∈ rows, Told (history row.1) row.2.1 row.2.2

theorem rowsOf_rendered (rows : List (Nat × Nat × List Nat)) :
    rowsOf (some (rows.map toAdj)) = rows.map fun row => (row.1, row.2.1) := by
  show (rows.map toAdj).filterMap _ = _
  rw [filterMap_map, ← filterMap_eq_map]
  rfl

theorem processJSON_spec {json : Json} (hjson : Rendered history json) (h : m.Inv history) :
    ∃ m', m.processJSON json false = some (0, m', m.isAhead json) ∧ m'.Inv history ∧ m'.serverId = m.serverId ∧
      (m.brings json = true ↔ ∃ q, m'.get q ≠ m.get q) ∧
      ∀ {q a}, m.get q = some a → ∃ a', m'.get q = some a' ∧ a.sequence ≤ a'.sequence := by
  obtain ⟨rows, rfl, hnodup, hrows⟩ := hjson
  obtain ⟨m', hproc, h', hid, hnew, hkeep⟩ := processRows_spec hnodup hrows h false
  have hbrings : m.brings (some (rows.map toAdj)) = true ↔ ∃ row ∈ rows, m.newer row.1 row.2.1 = true := by
    rw [brings, rowsOf_rendered, any_map, any_eq_true]
    rfl
  have hsequence {row : Nat × Nat × List Nat} (hnewer : m.newer row.1 row.2.1 = true) {a : SparseAdj} (ha : m.get row.1 = some a) :
      a.sequence < row.2.1 := by
    rw [newer, ha] at hnewer
    exact of_decide_eq_true (Bool.and_eq_true_iff.mp hnewer).2
  refine ⟨m', ?_, h', hid, hbrings.trans ⟨?_, ?_⟩, fun {q a} ha => ?_⟩
  · show m.processRows false (rows.map toAdj) = _
    rw [hproc, isAhead, rowsOf_rendered, any_map, Bool.false_or]
    rfl
  · intro ⟨row, hrow, hnewer⟩
    refine ⟨row.1, fun heq => ?_⟩
    have hget := hnew row hrow hnewer
    rw [heq] at hget
    obtain ⟨a, ha, hseq⟩ := Option.map_eq_some_iff.mp hget
    exact Nat.ne_of_lt (hsequence hnewer ha) hseq
  · intro ⟨q, hq⟩
    by_contra hnone
    refine hq (hkeep q fun row hrow heq => ?_)
    subst heq
    exact Bool.eq_false_iff.mpr fun hnewer => hnone ⟨row, hrow, hnewer⟩
  · by_cases hrow : ∃ row ∈ rows, row.1 = q ∧ m.newer q row.2.1 = true
    · obtain ⟨row, hrow, rfl, hnewer⟩ := hrow
      obtain ⟨a', ha', hseq⟩ := Option.map_eq_some_iff.mp (hnew row hrow hnewer)
      exact ⟨a', ha', by have := hsequence hnewer ha; omega⟩
    · refine ⟨a, (hkeep q fun row hin heq => ?_).trans ha, Nat.le_refl _⟩
      exact Bool.eq_false_iff.mpr fun hnewer => hrow ⟨row, hin, heq, hnewer⟩

theorem keys_sublist (f : Nat → Option (Nat × List Nat)) (keys : List Nat) :
    ((keys.filterMap fun id => (f id).map fun x => (id, x)).map Prod.fst).Sublist keys := by
  induction keys with
  | nil => exact List.Sublist.refl _
  | cons id keys ih =>
    rw [filterMap_cons]
    cases f id with
    | none => exact ih.cons id
    | some x => exact ih.cons_cons id

theorem renderAsJSON_spec (h : m.Inv history) {keys : List Nat} (hkeys : keys.Perm m.keySet) : Rendered history (m.renderAsJSON keys) := by
  refine ⟨keys.filterMap fun id => ((m.get id).map fun a => (a.sequence, a.list)).map fun x => (id, x), ?_, ?_, fun row hrow => ?_⟩
  · rw [renderAsJSON, map_filterMap]
    refine congrArg some (congrArg (List.filterMap · keys) (funext fun id => ?_))
    cases m.get id <;> rfl
  · exact (hkeys.nodup_iff.mpr h.keys).sublist (keys_sublist _ keys)
  · obtain ⟨id, -, hid⟩ := mem_filterMap.mp hrow
    obtain ⟨x, hx, rfl⟩ := Option.map_eq_some_iff.mp hid
    obtain ⟨a, ha, rfl⟩ := Option.map_eq_some_iff.mp hx
    exact h.told ha

theorem addAdj_spec (h : m.Inv history) (hlt : (history m.serverId).length < 2 ^ 32) {peer : Nat}
    (hnew : ∀ a ∈ m.get m.serverId, (TreeSet.contains a.peers (peer, ())).1 = false) :
    ∃ a : SparseAdj, m.addAdj peer = some (m.put m.serverId a) ∧
      (m.put m.serverId a).Inv (update history m.serverId
        (history m.serverId ++ [insert peer ((history m.serverId).getLastD ∅)])) := by
  have hnot : peer ∉ m.own.list := by
    rw [own]
    cases hget : m.get m.serverId with
    | none =>
      intro hp
      cases hp
    | some a => exact (SparseAdj.contains_eq_false (h.valid hget)).mp (hnew a hget)
  obtain ⟨a, hadd, hv, hseq, hmem⟩ := SparseAdj.addPeer_spec h.own_valid hnot
  refine ⟨a.count, ?_, ?_⟩
  · show ((m.own.addPeer peer).bind fun this => some (m.put m.serverId this.count)) = _
    rw [hadd]
    rfl
  · have hlist : a.list.toFinset = insert peer ((history m.serverId).getLastD ∅) := by
      refine Finset.ext fun p => ?_
      rw [h.latest, Finset.mem_insert, mem_toFinset, mem_toFinset, hmem]
    rw [← hlist]
    exact h.count hlt hv hseq

theorem delAdj_spec (h : m.Inv history) (hlt : (history m.serverId).length < 2 ^ 32) (peer : Nat) :
    m.delAdj peer = some (-1, m) ∨ ∃ a : SparseAdj, m.delAdj peer = some (0, m.put m.serverId a) ∧
      (m.put m.serverId a).Inv (update history m.serverId
        (history m.serverId ++ [((history m.serverId).getLastD ∅).erase peer])) := by
  cases hget : m.get m.serverId with
  | none => exact .inl (by rw [delAdj, hget])
  | some this =>
    have hown : m.own = this := by rw [own, hget, Option.getD_some]
    obtain ⟨a, hdel, hv, hseq, hmem⟩ := SparseAdj.delPeer_spec (h.valid hget) peer
    refine .inr ⟨a.count, ?_, ?_⟩
    · rw [delAdj, hget]
      show ((this.delPeer peer).bind fun this => some (0, m.put m.serverId this.count)) = _
      rw [hdel]
      rfl
    · have hlist : a.list.toFinset = ((history m.serverId).getLastD ∅).erase peer := by
        refine Finset.ext fun p => ?_
        rw [h.latest, Finset.mem_erase, mem_toFinset, mem_toFinset, hmem, hown]
      rw [← hlist]
      exact h.count hlt hv (hseq.trans (congrArg SparseAdj.sequence hown.symm))

end AdjMatrix

/-! ## Runs -/

structure Inv (s : St) : Prop where
  id : ∀ r, (s.matrix r).serverId = r
  rows : ∀ r, (s.matrix r).Inv s.history
  sent : ∀ json ∈ s.sent, AdjMatrix.Rendered s.history json

theorem AdjMatrix.Rendered.mono {history history' : Nat → List (Finset Nat)} {json : Json} (h : AdjMatrix.Rendered history json)
    (hgrow : ∀ q, ∃ l, history' q = history q ++ l) : AdjMatrix.Rendered history' json := by
  obtain ⟨rows, hjson, hnodup, hrows⟩ := h
  refine ⟨rows, hjson, hnodup, fun row hrow => ?_⟩
  obtain ⟨l, hl⟩ := hgrow row.1
  exact hl ▸ (hrows row hrow).append l

theorem init_inv : Inv init := by
  refine ⟨fun r => rfl, fun r => ⟨nodup_nil, rfl, ?_, fun {q a} ha => ?_, fun {q a} ha => ?_⟩, fun json hjson => ?_⟩
  · rfl
  · cases ha
  · cases ha
  · cases hjson

theorem Inv.own_step {s : St} (hi : Inv s) {server : Nat} {m : AdjMatrix} {set : Finset Nat} (hid : m.serverId = server)
    (hm : m.Inv (update s.history server (s.history server ++ [set]))) :
    Inv { s with matrix := update s.matrix server m, history := update s.history server (s.history server ++ [set]) } := by
  have hgrow : ∀ q, ∃ l, update s.history server (s.history server ++ [set]) q = s.history q ++ l := by
    intro q
    by_cases hq : q = server
    · subst hq
      exact ⟨[set], update_self _ _ _⟩
    · exact ⟨[], by rw [update_of_ne hq, append_nil]⟩
  refine ⟨fun r => ?_, fun r => ?_, fun json hjson => (hi.sent json hjson).mono hgrow⟩
  · show (update s.matrix server m r).serverId = r
    by_cases hr : r = server
    · subst hr
      rw [update_self, hid]
    · rw [update_of_ne hr, hi.id]
  · show (update s.matrix server m r).Inv _
    by_cases hr : r = server
    · subst hr
      rw [update_self]
      exact hm
    · rw [update_of_ne hr]
      exact (hi.rows r).mono hgrow (by rw [hi.id]; exact update_of_ne hr _ _)

theorem step_inv {s s' : St} {e : Ev} (hi : Inv s) (he : Allowed s e) (hs : step s e = some s') : Inv s' := by
  cases e with
  | addAdj server peer =>
    obtain ⟨hlt, hnew⟩ := he
    have hid := hi.id server
    obtain ⟨a, hadd, hm⟩ := AdjMatrix.addAdj_spec (hi.rows server) (by rw [hid]; exact hlt) (by rw [hid]; exact hnew)
    rw [hid] at hadd hm
    rw [step, hadd] at hs
    cases hs
    exact hi.own_step hid hm
  | delAdj server peer =>
    have hid := hi.id server
    rcases AdjMatrix.delAdj_spec (hi.rows server) (by rw [hid]; exact he) peer with hdel | ⟨a, hdel, hm⟩
    · rw [step, hdel] at hs
      have hsame : s' = s := by
        have hs : some { s with matrix := update s.matrix server (s.matrix server) } = some s' := hs
        rw [update_eq_self] at hs
        exact (Option.some.inj hs).symm
      exact hsame ▸ hi
    · rw [hid] at hdel hm
      rw [step, hdel] at hs
      cases hs
      exact hi.own_step hid hm
  | render server keys =>
    rw [step] at hs
    split_ifs at hs with hperm
    cases hs
    refine ⟨hi.id, hi.rows, fun json hjson => ?_⟩
    rcases mem_append.mp hjson with hold | hnew
    · exact hi.sent json hold
    · rw [mem_singleton.mp hnew]
      exact AdjMatrix.renderAsJSON_spec (hi.rows server) hperm
  | deliver server i =>
    rw [step] at hs
    obtain ⟨json, hjson, hs⟩ := Option.bind_eq_some_iff.mp hs
    obtain ⟨m', hproc, hm', hid, -, -⟩ := AdjMatrix.processJSON_spec (hi.sent json (mem_of_getElem? hjson)) (hi.rows server)
    rw [hproc] at hs
    cases hs
    refine ⟨fun r => ?_, fun r => ?_, hi.sent⟩
    · show (update s.matrix server m' r).serverId = r
      by_cases hr : r = server
      · subst hr
        rw [update_self, hid, hi.id]
      · rw [update_of_ne hr, hi.id]
    · show (update s.matrix server m' r).Inv _
      by_cases hr : r = server
      · subst hr
        rw [update_self]
        exact hm'
      · rw [update_of_ne hr]
        exact hi.rows r

theorem inv {s : St} (h : Reach step Allowed init s) : Inv s := h.inv init_inv step_inv

/-- No step lets the sequence of a row of another server fall. -/
theorem step_rises {s s' : St} {e : Ev} (hi : Inv s) (he : Allowed s e) (hs : step s e = some s') {r q : Nat} (hrq : q ≠ r) {a : SparseAdj}
    (ha : (s.matrix r).get q = some a) : ∃ a', (s'.matrix r).get q = some a' ∧ a.sequence ≤ a'.sequence := by
  -- the step changes one matrix at most
  have hone {server : Nat} {m : AdjMatrix}
      (hm : server = r → ∃ a', m.get q = some a' ∧ a.sequence ≤ a'.sequence) :
      ∃ a', (update s.matrix server m r).get q = some a' ∧ a.sequence ≤ a'.sequence := by
    by_cases hr : server = r
    · subst hr
      rw [update_self]
      exact hm rfl
    · rw [update_of_ne (Ne.symm hr)]
      exact ⟨a, ha, Nat.le_refl _⟩
  have hput {server : Nat} (b : SparseAdj) (hr : server = r) :
      ∃ a', ((s.matrix server).put server b).get q = some a' ∧ a.sequence ≤ a'.sequence := by
    subst hr
    exact ⟨a, by rw [AdjMatrix.get_put, if_neg hrq]; exact ha, Nat.le_refl _⟩
  cases e with
  | addAdj server peer =>
    obtain ⟨hlt, hnew⟩ := he
    have hid := hi.id server
    obtain ⟨b, hadd, -⟩ := AdjMatrix.addAdj_spec (hi.rows server) (by rw [hid]; exact hlt) (by rw [hid]; exact hnew)
    rw [hid] at hadd
    rw [step, hadd] at hs
    cases hs
    exact hone (hput b)
  | delAdj server peer =>
    have hid := hi.id server
    rcases AdjMatrix.delAdj_spec (hi.rows server) (by rw [hid]; exact he) peer with hdel | ⟨b, hdel, -⟩
    · rw [step, hdel] at hs
      cases hs
      refine hone fun hr => ⟨a, ?_, Nat.le_refl _⟩
      rw [hr]
      exact ha
    · rw [hid] at hdel
      rw [step, hdel] at hs
      cases hs
      exact hone (hput b)
  | render server keys =>
    rw [step] at hs
    split_ifs at hs
    cases hs
    exact ⟨a, ha, Nat.le_refl _⟩
  | deliver server i =>
    rw [step] at hs
    obtain ⟨json, hjson, hs⟩ := Option.bind_eq_some_iff.mp hs
    obtain ⟨m', hproc, -, -, -, hrise⟩ := AdjMatrix.processJSON_spec (hi.sent json (mem_of_getElem? hjson)) (hi.rows server)
    rw [hproc] at hs
    cases hs
    refine hone fun hr => hrise ?_
    rw [hr]
    exact ha

/-- A matrix is passed on as it should be. -/
def PassedOn (m : AdjMatrix) (json : Json) : Prop :=
  ∃ m' changeApplied, m.processJSON json false = some (0, m', changeApplied) ∧
    ((∃ q, m'.get q ≠ m.get q) ∨ m.isAhead json = true → changeApplied = true)

theorem passedOn_iff {history : Nat → List (Finset Nat)} {m : AdjMatrix} {json : Json} (hjson : AdjMatrix.Rendered history json)
    (h : m.Inv history) : PassedOn m json ↔ (m.brings json = true → m.isAhead json = true) := by
  obtain ⟨m', hproc, -, -, hbrings, -⟩ := AdjMatrix.processJSON_spec hjson h
  constructor
  · intro ⟨m1, changeApplied, hproc1, himp⟩ hb
    rw [hproc] at hproc1
    cases hproc1
    exact himp (.inl (hbrings.mp hb))
  · exact fun himp => ⟨m', _, hproc, fun hor => hor.elim (fun hq => himp (hbrings.mpr hq)) id⟩

/-- If no server adds a peer that it has: at its sequence n a server had the peers that a row with n tells of it, each once; no
sequence that is stored for another server falls; and a matrix is passed on as it should be exactly if it brings no row that the
receiver does not have, or the receiver has a newer one too. -/
theorem topology_spreads {s : St} (h : Reach step Allowed init s) :
    (∀ r, (s.matrix r).own.sequence + 1 = (s.history r).length ∧ (s.matrix r).own.list.toFinset = s.current r) ∧
    (∀ {r q : Nat} {a : SparseAdj}, (s.matrix r).get q = some a →
      a.list.Nodup ∧ (s.history q)[a.sequence]? = some a.list.toFinset) ∧
    (∀ {e : Ev} {s' : St}, Allowed s e → step s e = some s' → ∀ {r q : Nat} {a : SparseAdj}, q ≠ r → (s.matrix r).get q = some a →
      ∃ a', (s'.matrix r).get q = some a' ∧ a.sequence ≤ a'.sequence) ∧
    ∀ r, ∀ json ∈ s.sent, PassedOn (s.matrix r) json ↔ ((s.matrix r).brings json = true → (s.matrix r).isAhead json = true) := by
  have hi := inv h
  refine ⟨fun r => ?_, fun {r q a} ha => ?_, fun {e s'} he hs {r q a} hrq ha => step_rises hi he hs hrq ha,
    fun r json hjson => passedOn_iff (hi.sent json hjson) (hi.rows r)⟩
  · have hown := (hi.rows r).own
    have hlatest := (hi.rows r).latest
    rw [hi.id] at hown hlatest
    exact ⟨hown, hlatest.symm⟩
  · have ht := (hi.rows r).told ha
    exact ⟨ht.once, ht.peers⟩

instance (s : St) (e : Ev) : Decidable (Allowed s e) := by
  cases e <;> unfold Allowed <;> infer_instance

theorem second_hand_row : ∃ s, exec (guarded step Allowed) init [.addAdj 1 2, .addAdj 1 3, .addAdj 2 1, .render 1 [1], .delAdj 1 2,
      .render 1 [1], .deliver 2 0, .render 2 [2, 1], .deliver 3 2, .deliver 3 0] = some s ∧
    ((s.matrix 3).get 1).map (fun a => (a.sequence, a.list)) = some (2, [2, 3]) ∧
    ∀ a, (s.matrix 3).get 1 = some a → a.list.Nodup ∧ (s.history 1)[a.sequence]? = some a.list.toFinset := by
  obtain ⟨s, hs, hp⟩ : ∃ s, exec (guarded step Allowed) init [.addAdj 1 2, .addAdj 1 3, .addAdj 2 1, .render 1 [1], .delAdj 1 2,
      .render 1 [1], .deliver 2 0, .render 2 [2, 1], .deliver 3 2, .deliver 3 0] = some s ∧
      ((s.matrix 3).get 1).map (fun a => (a.sequence, a.list)) = some (2, [2, 3]) := exec_ends (by decide +kernel)
  exact ⟨s, hs, hp, fun a ha => (topology_spreads (reach_of_exec_guarded _ hs)).2.1 ha⟩

/-- Server 2 learns of the peers of server 1, and is not told to pass that on; and a peer that was added twice and deleted once
is still in the row. -/
theorem newer_row_is_no_change :
    ((exec step init [.addAdj 1 2, .render 1 [1]]).bind fun s => (s.matrix 2).processJSON (s.sent.getD 0 none) false).map
      (fun p => (p.1, p.2.1.keySet, p.2.2)) = some (0, [1], false) ∧
    (exec step init [.addAdj 1 2, .addAdj 1 2, .delAdj 1 2]).map (fun s => ((s.matrix 1).own.list, s.current 1)) = some ([2], ∅) := by
  decide +kernel

end DeepFabric.Distributed.Topology
