/-
  DeepFabric.Distributed.PeerTables — the outgoing connections of a fabric (fabric/RealtimeFabric.cxx).

  A connection stands in three tables, by the address and by the UUID it was added with and by the server id its
  join reply named, and its server id is in the row of the topology. The tables hold pointers to one object each;
  deleting a peer frees its object.

  - `step_inv`, `tables_agree`: in every run whose steps meet the condition the tables and the row have the peers
    that were added and not deleted, each with what it joined with last.

  As built `delPeer` of an address leaves the entry by UUID, since the UUID of the object is never set
  (`entry_left_behind`). And a peer takes another's entry with its UUID or its server id, and one that joins again
  leaves the entry of the id it had.

  Left out: the sockets and what is sent, and the status that a call returns.
-/
import DeepFabric.Distributed.Topology

namespace DeepFabric.Distributed.PeerTables

open DeepFabric.Lib.Run Option Function
open DeepFabric.Distributed.Topology (AdjMatrix SparseAdj)
open Function (update)

structure OutBound (A U : Type) where
  serverAddr : A
  serverId : Nat
  uuid : Option U
  deriving DecidableEq

/-- The tables hold pointers; `allocated` of them have been given out. -/
structure RealtimeFabric (A U : Type) where
  heap : Nat → Option (OutBound A U)
  allocated : Nat
  outBoundPeersByName : A → Option Nat
  outBoundPeersByUUID : U → Option Nat
  outBoundPeers : Nat → Option Nat
  topology : AdjMatrix

inductive Ev (A U : Type) where
  | addPeer (actual : A) (uuid : U)
  | delPeer (address : A)
  | delPeerByUUID (uuid : U)
  | joinRep (name : A) (serverId : Nat)
  | disconnect (address : A)

section

variable {A U : Type} [DecidableEq A] [DecidableEq U]

namespace RealtimeFabric

open Function (update)

def new (serverId : Nat) : RealtimeFabric A U := ⟨fun _ => none, 0, fun _ => none, fun _ => none, fun _ => none, ⟨serverId, []⟩⟩

/-- The peers in the server's own row. -/
def row (s : RealtimeFabric A U) : List Nat := ((s.topology.get s.topology.serverId).map SparseAdj.list).getD []

def addAdj (s : RealtimeFabric A U) (peerId : Nat) : Option (RealtimeFabric A U) :=
  (s.topology.addAdj peerId).map fun m => { s with topology := m }

def delAdj (s : RealtimeFabric A U) (peerId : Nat) : Option (RealtimeFabric A U) :=
  (s.topology.delAdj peerId).map fun r => { s with topology := r.2 }

def addPeer (s : RealtimeFabric A U) (actual : A) (uuid : U) : Option (RealtimeFabric A U) :=
  if (s.outBoundPeersByName actual).isSome then some s
  else some { s with
    heap := update s.heap s.allocated (some ⟨actual, 0, none⟩)
    allocated := s.allocated + 1
    outBoundPeersByName := update s.outBoundPeersByName actual (some s.allocated)
    outBoundPeersByUUID := update s.outBoundPeersByUUID uuid (some s.allocated) }

def delPeer (s : RealtimeFabric A U) (address : A) : Option (RealtimeFabric A U) :=
  match s.outBoundPeersByName address with
  | none => some s
  | some x => do
    let out ← s.heap x
    let s := { s with outBoundPeersByName := update s.outBoundPeersByName address none }
    let s := if out.serverId ≠ 0 then { s with outBoundPeers := update s.outBoundPeers out.serverId none } else s
    let s := match out.uuid with
      | some uuid => { s with outBoundPeersByUUID := update s.outBoundPeersByUUID uuid none }
      | none => s
    let s ← s.delAdj out.serverId
    some { s with heap := update s.heap x none }

def delPeerByUUID (s : RealtimeFabric A U) (uuid : U) : Option (RealtimeFabric A U) :=
  match s.outBoundPeersByUUID uuid with
  | none => some s
  | some x => do
    let out ← s.heap x
    let s := { s with outBoundPeersByUUID := update s.outBoundPeersByUUID uuid none }
    let s := if out.serverId ≠ 0 then { s with outBoundPeers := update s.outBoundPeers out.serverId none } else s
    let s := { s with outBoundPeersByName := update s.outBoundPeersByName out.serverAddr none }
    let s ← s.delAdj out.serverId
    some { s with heap := update s.heap x none }

def processJoinRep (s : RealtimeFabric A U) (name : A) (serverId : Nat) : Option (RealtimeFabric A U) :=
  match s.outBoundPeersByName name with
  | none => some s
  | some x => do
    let out ← s.heap x
    let s := { s with heap := update s.heap x (some { out with serverId := serverId }) }
    if serverId = 0 then some s
    else
      let s := { s with outBoundPeers := update s.outBoundPeers serverId (some x) }
      s.addAdj serverId

def disconnect (s : RealtimeFabric A U) (address : A) : Option (RealtimeFabric A U) :=
  match s.outBoundPeersByName address with
  | none => some s
  | some x => do
    let out ← s.heap x
    let s ← s.delAdj out.serverId
    some { s with
      outBoundPeers := update s.outBoundPeers out.serverId none
      heap := update s.heap x (some { out with serverId := 0 }) }

end RealtimeFabric

/-- The fabric after an event; nothing if it follows a pointer to an object that was deleted. -/
def step (s : RealtimeFabric A U) : Ev A U → Option (RealtimeFabric A U)
  | .addPeer actual uuid => s.addPeer actual uuid
  | .delPeer address => s.delPeer address
  | .delPeerByUUID uuid => s.delPeerByUUID uuid
  | .joinRep name serverId => s.processJoinRep name serverId
  | .disconnect address => s.disconnect address

/-- A peer that is there, and the server id it joined with last and has not disconnected from since, or 0. -/
structure Peer (A U : Type) where
  addr : A
  uuid : U
  id : Nat

/-- What the tables are for: the peers, numbered as they came. -/
structure Peers (A U : Type) where
  peers : List (Nat × Peer A U)
  added : Nat

def next (r : Peers A U) : Ev A U → Peers A U
  | .addPeer actual uuid =>
    if r.peers.any (fun e => e.2.addr = actual) then r else ⟨(r.added, ⟨actual, uuid, 0⟩) :: r.peers, r.added + 1⟩
  | .delPeer address => { r with peers := r.peers.filter fun e => e.2.addr ≠ address }
  | .delPeerByUUID uuid => { r with peers := r.peers.filter fun e => e.2.uuid ≠ uuid }
  | .joinRep name serverId => { r with peers := r.peers.map fun e => if e.2.addr = name then (e.1, { e.2 with id := serverId }) else e }
  | .disconnect address => { r with peers := r.peers.map fun e => if e.2.addr = address then (e.1, { e.2 with id := 0 }) else e }

/-- The condition on an event. -/
def Ok (s : RealtimeFabric A U) : Ev A U → Prop
  | .addPeer actual uuid => (s.outBoundPeersByName actual).isSome ∨ s.outBoundPeersByUUID uuid = none
  | .delPeer address => s.outBoundPeersByName address = none
  | .joinRep name serverId => serverId ≠ 0 ∧ ∀ x ∈ s.outBoundPeersByName name, (∀ out ∈ s.heap x, out.serverId = 0) ∧ s.outBoundPeers serverId = none
  | _ => True

instance (s : RealtimeFabric A U) : DecidablePred (Ok s)
  | .addPeer _ _ => inferInstanceAs (Decidable (_ ∨ _))
  | .delPeer _ => inferInstanceAs (Decidable (_ = _))
  | .delPeerByUUID _ => inferInstanceAs (Decidable True)
  | .joinRep _ _ => inferInstanceAs (Decidable (_ ∧ _))
  | .disconnect _ => inferInstanceAs (Decidable True)

/-- A peer that is deleted by its address is still found by its UUID. -/
theorem entry_left_behind : (exec step (.new 9) [.addPeer 1 5, .joinRep 1 3, .delPeer 1]).map (fun s : RealtimeFabric Nat Nat =>
      (s.outBoundPeersByName 1, s.outBoundPeersByUUID 5, s.heap 0)) = some (none, some 0, none) ∧
    (exec step (.new 9) [.addPeer 1 5, .delPeer 1, .delPeerByUUID 5] : Option (RealtimeFabric Nat Nat)).isNone := by decide +kernel

/-- The tables and the row have the peers, and a pointer leads to an object that is there. -/
structure Agree (s : RealtimeFabric A U) (r : Peers A U) : Prop where
  heap : ∀ x out, s.heap x = some out ↔ ∃ p, (x, p) ∈ r.peers ∧ out = ⟨p.addr, p.id, none⟩
  name : ∀ a x, s.outBoundPeersByName a = some x ↔ ∃ p, (x, p) ∈ r.peers ∧ p.addr = a
  uuid : ∀ u x, s.outBoundPeersByUUID u = some x ↔ ∃ p, (x, p) ∈ r.peers ∧ p.uuid = u
  id : ∀ i x, s.outBoundPeers i = some x ↔ i ≠ 0 ∧ ∃ p, (x, p) ∈ r.peers ∧ p.id = i
  row : ∀ i, i ∈ s.row ↔ (s.outBoundPeers i).isSome = true
  once : s.row.Nodup

structure Inv (s : RealtimeFabric A U) (r : Peers A U) : Prop extends Agree s r where
  allocated : s.allocated = r.added
  numbered : ∀ e ∈ r.peers, e.1 < r.added
  unique : ∀ x p q, (x, p) ∈ r.peers → (x, q) ∈ r.peers → p = q
  valid : ∀ a ∈ s.topology.get s.topology.serverId, a.Valid

end

/-! ## The row -/

section Row

variable {A U : Type} {s : RealtimeFabric A U} (hvalid : ∀ a ∈ s.topology.get s.topology.serverId, a.Valid)

include hvalid

/-- What a change of the row leaves alone, and that the row stays one. -/
structure Rowed (s s' : RealtimeFabric A U) (p : Nat → Prop) : Prop where
  rest : s' = { s with topology := s'.topology }
  row : ∀ i, i ∈ s'.row ↔ p i
  once : s'.row.Nodup
  valid : ∀ a ∈ s'.topology.get s'.topology.serverId, a.Valid

omit hvalid in
theorem rowed_put {a : SparseAdj} {p : Nat → Prop} (ha : a.Valid) (hp : ∀ i, i ∈ a.list ↔ p i) :
    Rowed s { s with topology := s.topology.put s.topology.serverId a.count } p := by
  have hget : (s.topology.put s.topology.serverId a.count).get s.topology.serverId = some a.count := by
    rw [AdjMatrix.get_put, if_pos rfl]
  have hrow : RealtimeFabric.row { s with topology := s.topology.put s.topology.serverId a.count } = a.list := by
    show ((AdjMatrix.get _ s.topology.serverId).map SparseAdj.list).getD [] = _
    rw [hget]
    rfl
  refine ⟨rfl, fun i => by rw [hrow, hp], ?_, fun b hb => ?_⟩
  · rw [hrow]
    exact (SparseAdj.list_sorted ha).imp ne_of_lt
  · cases hget.symm.trans hb
    exact ha

theorem addAdj_spec (peer : Nat) (hnew : peer ∉ s.row) :
    ∃ s', s.addAdj peer = some s' ∧ Rowed s s' fun i => i = peer ∨ i ∈ s.row := by
  obtain ⟨this, hthis, ha, hlist⟩ : ∃ this, (s.topology.get s.topology.serverId).getD .new = this ∧ this.Valid ∧ this.list = s.row := by
    rw [RealtimeFabric.row]
    cases hget : s.topology.get s.topology.serverId with
    | none => exact ⟨_, rfl, SparseAdj.new_valid 0, rfl⟩
    | some a => exact ⟨a, rfl, hvalid a hget, rfl⟩
  obtain ⟨a, hadd, hv, -, hmem⟩ := SparseAdj.addPeer_spec ha (hlist ▸ hnew)
  refine ⟨_, ?_, rowed_put hv fun i => by rw [hmem, hlist]⟩
  rw [RealtimeFabric.addAdj, AdjMatrix.addAdj, hthis, hadd]
  rfl

theorem delAdj_spec (honce : s.row.Nodup) (peer : Nat) :
    ∃ s', s.delAdj peer = some s' ∧ Rowed s s' fun i => i ≠ peer ∧ i ∈ s.row := by
  cases hget : s.topology.get s.topology.serverId with
  | none =>
    refine ⟨s, by rw [RealtimeFabric.delAdj, AdjMatrix.delAdj, hget]; rfl, rfl, fun i => ?_, honce, hvalid⟩
    rw [RealtimeFabric.row, hget]
    simp
  | some this =>
    obtain ⟨a, hdel, hv, -, hmem⟩ := SparseAdj.delPeer_spec (hvalid this hget) peer
    refine ⟨_, ?_, rowed_put hv fun i => by rw [hmem, RealtimeFabric.row, hget]; rfl⟩
    rw [RealtimeFabric.delAdj, AdjMatrix.delAdj, hget]
    simp only [hdel]
    rfl

end Row

/-! ## The invariant -/

section Entries

variable {A U κ : Type} [DecidableEq κ] {f : Peer A U → κ} {table : κ → Option Nat} {c : κ → Prop} {m : Nat → Peer A U → Prop}
  (htable : ∀ k y, table k = some y ↔ c k ∧ ∃ q, m y q ∧ f q = k) {x : Nat} {p : Peer A U}

include htable

theorem entry_added (hc : c (f p)) (hnew : ∀ y q, m y q → f q ≠ f p) (k : κ) (y : Nat) :
    update table (f p) (some x) k = some y ↔ c k ∧ ∃ q, (y = x ∧ q = p ∨ m y q) ∧ f q = k := by
  by_cases hk : k = f p
  · subst hk
    rw [update_self, Option.some.injEq]
    refine ⟨fun hxy => ⟨hc, p, .inl ⟨hxy.symm, rfl⟩, rfl⟩, fun ⟨_, q, hq, heq⟩ => ?_⟩
    rcases hq with ⟨hyx, -⟩ | hq
    · exact hyx.symm
    · exact absurd heq (hnew y q hq)
  · rw [update_of_ne hk, htable]
    refine and_congr_right fun _ => exists_congr fun q => and_congr_left fun heq => (or_iff_right ?_).symm
    rintro ⟨-, rfl⟩
    exact hk heq.symm

variable (hunique : ∀ x p q, m x p → m x q → p = q) (hp : m x p)

include hunique hp

theorem entry_dropped (k : κ) (y : Nat) : update table (f p) none k = some y ↔ c k ∧ ∃ q, (y ≠ x ∧ m y q) ∧ f q = k := by
  by_cases hk : k = f p
  · rw [hk, update_self]
    refine ⟨nofun, fun ⟨hc, q, ⟨hne, hq⟩, heq⟩ => absurd ?_ hne⟩
    exact Option.some.inj (((htable _ y).mpr ⟨hc, q, hq, heq⟩).symm.trans ((htable _ x).mpr ⟨hc, p, hp, rfl⟩))
  · rw [update_of_ne hk, htable]
    refine and_congr_right fun _ => exists_congr fun q => and_congr_left fun heq => (and_iff_right_of_imp fun hq hyx => hk ?_).symm
    rw [← heq, hunique x p q hp (hyx ▸ hq)]

omit [DecidableEq κ] in
theorem entry_kept (p' : Peer A U) (hf : f p' = f p) (k : κ) (y : Nat) :
    table k = some y ↔ c k ∧ ∃ q, (y = x ∧ q = p' ∨ y ≠ x ∧ m y q) ∧ f q = k := by
  rw [htable]
  refine and_congr_right fun _ => ?_
  by_cases hyx : y = x
  · subst hyx
    constructor
    · rintro ⟨q, hq, rfl⟩
      exact ⟨p', .inl ⟨rfl, rfl⟩, by rw [hf, hunique y p q hp hq]⟩
    · rintro ⟨q, hq, rfl⟩
      obtain ⟨-, rfl⟩ := hq.resolve_right fun hne => hne.1 rfl
      exact ⟨p, hp, hf.symm⟩
  · exact exists_congr fun q => and_congr_left fun _ => by simp [hyx]

end Entries

section Step

variable {A U : Type} {s : RealtimeFabric A U} {r : Peers A U}

variable {x : Nat} {p : Peer A U} {y : Nat} {q : Peer A U}

/-- Where a table leads to one peer only, what is the same for two peers makes them one. -/
theorem Inv.same_iff (h : Inv s r) {κ : Type} {f : Peer A U → κ} {table : κ → Option Nat} (hp : (x, p) ∈ r.peers)
    (htable : ∀ y q, (y, q) ∈ r.peers → f q = f p → table (f p) = some y) (hq : (y, q) ∈ r.peers) :
    f q = f p ↔ y = x := by
  constructor
  · exact fun heq => Option.some.inj ((htable y q hq heq).symm.trans (htable x p hp rfl))
  · rintro rfl
    rw [h.unique y p q hp hq]

variable (h : Inv s r)

include h

theorem Inv.addr_iff (hp : (x, p) ∈ r.peers) (hq : (y, q) ∈ r.peers) :
    q.addr = p.addr ↔ y = x :=
  h.same_iff hp (fun y q hq heq => (h.name p.addr y).mpr ⟨q, hq, heq⟩) hq

theorem Inv.uuid_iff (hp : (x, p) ∈ r.peers) (hq : (y, q) ∈ r.peers) :
    q.uuid = p.uuid ↔ y = x :=
  h.same_iff hp (fun y q hq heq => (h.uuid p.uuid y).mpr ⟨q, hq, heq⟩) hq

variable {a : A}

theorem Inv.found (hx : s.outBoundPeersByName a = some x) :
    ∃ p, (x, p) ∈ r.peers ∧ p.addr = a ∧ s.heap x = some ⟨a, p.id, none⟩ := by
  obtain ⟨p, hp, rfl⟩ := (h.name a x).mp hx
  exact ⟨p, hp, rfl, (h.heap x _).mpr ⟨p, hp, rfl⟩⟩

theorem Inv.unknown (hnone : s.outBoundPeersByName a = none) : ∀ e ∈ r.peers, e.2.addr ≠ a := by
  intro e he heq
  have hsome := (h.name a e.1).mpr ⟨e.2, he, heq⟩
  rw [hnone] at hsome
  cases hsome

variable [DecidableEq A] [DecidableEq U]

theorem addPeer_inv {actual : A} {uuid : U} (hok : Ok s (.addPeer actual uuid)) :
    ∃ s', s.addPeer actual uuid = some s' ∧ Inv s' (next r (.addPeer actual uuid)) := by
  cases hname : s.outBoundPeersByName actual with
  | some x =>
    obtain ⟨p, hp, hpa, -⟩ := h.found hname
    refine ⟨s, by rw [RealtimeFabric.addPeer, if_pos (by rw [hname]; rfl)], ?_⟩
    rw [next, if_pos (List.any_eq_true.mpr ⟨(x, p), hp, decide_eq_true hpa⟩)]
    exact h
  | none =>
    have hnew := h.unknown hname
    have huuid : s.outBoundPeersByUUID uuid = none := hok.resolve_left (by rw [hname]; exact Bool.false_ne_true)
    have hother : ∀ e ∈ r.peers, e.2.uuid ≠ uuid := fun e he heq => by
      have hsome := (h.uuid uuid e.1).mpr ⟨e.2, he, heq⟩
      rw [huuid] at hsome
      cases hsome
    have hfresh : ∀ e ∈ r.peers, e.1 ≠ s.allocated := fun e he heq => by
      have := h.numbered e he
      have := h.allocated
      omega
    refine ⟨_, if_neg (by rw [hname]; exact Bool.false_ne_true), ?_⟩
    have hany : r.peers.any (fun e => e.2.addr = actual) = false := List.any_eq_false.mpr fun e he => by simpa using hnew e he
    rw [next, if_neg (by rw [hany]; exact Bool.false_ne_true), ← h.allocated]
    have hmem (y : Nat) (q : Peer A U) : (y, q) ∈ (s.allocated, ⟨actual, uuid, 0⟩) :: r.peers ↔
        y = s.allocated ∧ q = ⟨actual, uuid, 0⟩ ∨ (y, q) ∈ r.peers := by
      rw [List.mem_cons, Prod.mk.injEq]
    have hname' := entry_added (f := Peer.addr) (c := fun _ => True) (m := fun y q => (y, q) ∈ r.peers) (p := ⟨actual, uuid, 0⟩)
      (x := s.allocated) (fun k y => by rw [h.name, true_and]) trivial fun y q hq => hnew (y, q) hq
    have huuid' := entry_added (f := Peer.uuid) (c := fun _ => True) (m := fun y q => (y, q) ∈ r.peers) (p := ⟨actual, uuid, 0⟩)
      (x := s.allocated) (fun k y => by rw [h.uuid, true_and]) trivial fun y q hq => hother (y, q) hq
    refine { heap := fun y out => ?_, name := fun k y => ?_, uuid := fun k y => ?_, id := fun i y => ?_, row := h.row, once := h.once,
             allocated := rfl, numbered := fun e he => ?_, unique := fun y p q hp hq => ?_, valid := h.valid }
    · simp only [hmem]
      by_cases hy : y = s.allocated
      · subst hy
        rw [update_self, Option.some.injEq]
        constructor
        · rintro rfl
          exact ⟨_, .inl ⟨rfl, rfl⟩, rfl⟩
        · rintro ⟨q, hq, rfl⟩
          obtain ⟨-, rfl⟩ := hq.resolve_right fun hq => hfresh _ hq rfl
          rfl
      · rw [update_of_ne hy, h.heap]
        simp [hy]
    · simp only [hmem]
      exact (hname' k y).trans (and_iff_right trivial)
    · simp only [hmem]
      exact (huuid' k y).trans (and_iff_right trivial)
    · simp only [hmem]
      rw [h.id]
      refine and_congr_right fun hi => exists_congr fun q => and_congr_left fun heq => (or_iff_right ?_).symm
      rintro ⟨-, rfl⟩
      exact hi heq.symm
    · rcases List.mem_cons.mp he with rfl | he
      · exact Nat.lt_succ_self _
      · exact Nat.lt_succ_of_lt (h.allocated ▸ h.numbered e he)
    · rcases (hmem y p).mp hp with ⟨rfl, rfl⟩ | hp' <;> rcases (hmem _ q).mp hq with ⟨h1, h2⟩ | hq'
      · exact h2.symm
      · exact absurd rfl (hfresh _ hq')
      · exact absurd h1 (hfresh _ hp')
      · exact h.unique y p q hp' hq'

theorem drop_inv (hp : (x, p) ∈ r.peers) (r' : Peers A U) (hadded : r'.added = r.added)
    (hr' : ∀ y q, (y, q) ∈ r'.peers ↔ y ≠ x ∧ (y, q) ∈ r.peers) :
    ∃ s1, RealtimeFabric.delAdj { s with
        outBoundPeersByName := update s.outBoundPeersByName p.addr none
        outBoundPeersByUUID := update s.outBoundPeersByUUID p.uuid none
        outBoundPeers := update s.outBoundPeers p.id none } p.id = some s1 ∧
      Inv { s1 with heap := update s1.heap x none } r' := by
  obtain ⟨s1, hdel, hrow⟩ := delAdj_spec (s := { s with
    outBoundPeersByName := update s.outBoundPeersByName p.addr none
    outBoundPeersByUUID := update s.outBoundPeersByUUID p.uuid none
    outBoundPeers := update s.outBoundPeers p.id none }) h.valid h.once p.id
  refine ⟨s1, hdel, ?_⟩
  have hname := entry_dropped (f := Peer.addr) (c := fun _ => True) (m := fun y q => (y, q) ∈ r.peers) (fun k y => by rw [h.name, true_and])
    h.unique hp
  have huuid := entry_dropped (f := Peer.uuid) (c := fun _ => True) (m := fun y q => (y, q) ∈ r.peers) (fun k y => by rw [h.uuid, true_and])
    h.unique hp
  have hid := entry_dropped (f := Peer.id) (c := (· ≠ 0)) (m := fun y q => (y, q) ∈ r.peers) h.id h.unique hp
  have hrest := hrow.rest
  refine { heap := fun y out => ?_, name := fun k y => ?_, uuid := fun k y => ?_, id := fun i y => ?_, row := fun i => ?_, once := hrow.once,
           allocated := ?_, numbered := fun e he => ?_, unique := fun y q q' hq hq' => ?_, valid := hrow.valid }
  · simp only [hr']
    rw [hrest]
    show update s.heap x none y = some out ↔ _
    by_cases hy : y = x
    · rw [hy, update_self]
      simp
    · rw [update_of_ne hy, h.heap]
      simp [hy]
  · simp only [hr']
    rw [hrest]
    exact (hname k y).trans (and_iff_right trivial)
  · simp only [hr']
    rw [hrest]
    exact (huuid k y).trans (and_iff_right trivial)
  · simp only [hr']
    rw [hrest]
    exact hid i y
  · refine (hrow.row i).trans ?_
    rw [hrest]
    show i ≠ p.id ∧ i ∈ s.row ↔ (update s.outBoundPeers p.id none i).isSome = true
    by_cases hi : i = p.id
    · simp [hi]
    · rw [update_of_ne hi, h.row, and_iff_right hi]
  · rw [hrest, hadded]
    exact h.allocated
  · rw [hadded]
    exact h.numbered e ((hr' e.1 e.2).mp he).2
  · exact h.unique y q q' ((hr' y q).mp hq).2 ((hr' y q').mp hq').2

theorem delPeerByUUID_inv (uuid : U) : ∃ s', s.delPeerByUUID uuid = some s' ∧ Inv s' (next r (.delPeerByUUID uuid)) := by
  cases huuid : s.outBoundPeersByUUID uuid with
  | none =>
    refine ⟨s, by rw [RealtimeFabric.delPeerByUUID, huuid], ?_⟩
    have hsame : r.peers.filter (fun e => e.2.uuid ≠ uuid) = r.peers := List.filter_eq_self.mpr fun e he => decide_eq_true fun heq => by
      have hsome := (h.uuid uuid e.1).mpr ⟨e.2, he, heq⟩
      rw [huuid] at hsome
      cases hsome
    rw [next, hsame]
    exact h
  | some x =>
    obtain ⟨p, hp, rfl⟩ := (h.uuid uuid x).mp huuid
    have hleft (y : Nat) (q : Peer A U) : (y, q) ∈ (next r (.delPeerByUUID p.uuid)).peers ↔ y ≠ x ∧ (y, q) ∈ r.peers := by
      rw [next, List.mem_filter, decide_eq_true_iff, and_comm]
      exact and_congr_left fun hq => not_congr (h.uuid_iff hp hq)
    obtain ⟨s1, hdel, hinv⟩ := drop_inv h hp (next r (.delPeerByUUID p.uuid)) rfl hleft
    refine ⟨_, ?_, hinv⟩
    rw [RealtimeFabric.delPeerByUUID, huuid]
    simp only [(h.heap x _).mpr ⟨p, hp, rfl⟩, bind_eq_bind, bind_some]
    split_ifs with hid
    · rw [hdel]
      rfl
    · have hnone : s.outBoundPeers p.id = none := eq_none_iff_forall_ne_some.mpr fun y hy => hid ((h.id p.id y).mp hy).1
      have hsame : update s.outBoundPeers p.id none = s.outBoundPeers := update_eq_self_iff.mpr hnone.symm
      rw [hsame] at hdel
      rw [hdel]
      rfl

omit [DecidableEq U] in
theorem mem_relabel (hp : (x, p) ∈ r.peers) (i y : Nat) (q : Peer A U) :
    (y, q) ∈ r.peers.map (fun e => if e.2.addr = p.addr then (e.1, { e.2 with id := i }) else e) ↔
      y = x ∧ q = { p with id := i } ∨ y ≠ x ∧ (y, q) ∈ r.peers := by
  rw [List.mem_map]
  constructor
  · rintro ⟨⟨z, q0⟩, he, heq⟩
    split_ifs at heq with haddr
    · obtain ⟨rfl, rfl⟩ := Prod.mk.inj heq
      obtain rfl := (h.addr_iff hp he).mp haddr
      exact .inl ⟨rfl, by rw [h.unique z q0 p he hp]⟩
    · obtain ⟨rfl, rfl⟩ := Prod.mk.inj heq
      exact .inr ⟨mt (h.addr_iff hp he).mpr haddr, he⟩
  · rintro (⟨rfl, rfl⟩ | ⟨hne, hq⟩)
    · exact ⟨(y, p), hp, if_pos rfl⟩
    · exact ⟨(y, q), hq, if_neg (mt (h.addr_iff hp hq).mp hne)⟩

omit [DecidableEq U] in
/-- A peer gets another server id, and the tables and the row go with it. -/
theorem relabel_inv (hp : (x, p) ∈ r.peers) {i : Nat} {s1 : RealtimeFabric A U} {row : Nat → Prop}
    {byId : Nat → Option Nat} (hrow : Rowed s s1 row)
    (hid : ∀ k y, byId k = some y ↔ k ≠ 0 ∧ ∃ q, (y = x ∧ q = { p with id := i } ∨ y ≠ x ∧ (y, q) ∈ r.peers) ∧ q.id = k)
    (hsame : ∀ k, row k ↔ (byId k).isSome = true) :
    Inv { s1 with outBoundPeers := byId, heap := update s.heap x (some ⟨p.addr, i, none⟩) }
      { r with peers := r.peers.map fun e => if e.2.addr = p.addr then (e.1, { e.2 with id := i }) else e } := by
  have hmem := mem_relabel h hp i
  have hname (k : A) (y : Nat) : s.outBoundPeersByName k = some y ↔ True ∧ ∃ q, (y = x ∧ q = { p with id := i } ∨ y ≠ x ∧ (y, q) ∈ r.peers) ∧ q.addr = k :=
    entry_kept (fun k y => by rw [h.name, true_and]) h.unique hp { p with id := i } rfl k y
  have huuid (k : U) (y : Nat) : s.outBoundPeersByUUID k = some y ↔ True ∧ ∃ q, (y = x ∧ q = { p with id := i } ∨ y ≠ x ∧ (y, q) ∈ r.peers) ∧ q.uuid = k :=
    entry_kept (fun k y => by rw [h.uuid, true_and]) h.unique hp { p with id := i } rfl k y
  have hrest := hrow.rest
  refine { heap := fun y out => ?_, name := fun k y => ?_, uuid := fun k y => ?_, id := fun k y => ?_, row := fun k => ?_, once := hrow.once,
           allocated := ?_, numbered := fun e he => ?_, unique := fun y q q' hq hq' => ?_, valid := hrow.valid }
  · simp only [hmem]
    show update s.heap x (some ⟨p.addr, i, none⟩) y = some out ↔ _
    by_cases hy : y = x
    · rw [hy, update_self, Option.some.injEq]
      constructor
      · rintro rfl
        exact ⟨_, .inl ⟨rfl, rfl⟩, rfl⟩
      · rintro ⟨q, hq, rfl⟩
        obtain ⟨-, rfl⟩ := hq.resolve_right fun hne => hne.1 rfl
        rfl
    · rw [update_of_ne hy, h.heap]
      simp [hy]
  · simp only [hmem]
    rw [hrest]
    exact (hname k y).trans (and_iff_right trivial)
  · simp only [hmem]
    rw [hrest]
    exact (huuid k y).trans (and_iff_right trivial)
  · simp only [hmem]
    exact hid k y
  · exact (hrow.row k).trans (hsame k)
  · rw [hrest]
    exact h.allocated
  · rcases (hmem e.1 e.2).mp he with ⟨hx, -⟩ | ⟨-, he⟩
    · rw [hx]
      exact h.numbered (x, p) hp
    · exact h.numbered e he
  · rcases (hmem y q).mp hq with ⟨hy, rfl⟩ | ⟨hy, hq⟩ <;> rcases (hmem y q').mp hq' with ⟨hy', rfl⟩ | ⟨hy', hq'⟩
    · rfl
    · exact absurd hy hy'
    · exact absurd hy' hy
    · exact h.unique y q q' hq hq'

omit [DecidableEq U] in
theorem map_unknown (hnone : s.outBoundPeersByName a = none) (i : Nat) :
    r.peers.map (fun e => if e.2.addr = a then (e.1, { e.2 with id := i }) else e) = r.peers :=
  (List.map_congr_left fun e he => if_neg (h.unknown hnone e he)).trans (List.map_id' _)

theorem joinRep_inv {name : A} {serverId : Nat} (hok : Ok s (.joinRep name serverId)) :
    ∃ s', s.processJoinRep name serverId = some s' ∧ Inv s' (next r (.joinRep name serverId)) := by
  obtain ⟨hpos, hfree⟩ := hok
  cases hname : s.outBoundPeersByName name with
  | none =>
    refine ⟨s, by rw [RealtimeFabric.processJoinRep, hname], ?_⟩
    rw [next, map_unknown h hname]
    exact h
  | some x =>
    obtain ⟨p, hp, rfl, hheap⟩ := h.found hname
    obtain ⟨hzero, hnone⟩ := hfree x hname
    have hid : p.id = 0 := hzero _ hheap
    obtain ⟨s1, hadd, hrow⟩ := addAdj_spec h.valid serverId (by rw [h.row, hnone]; exact Bool.false_ne_true)
    obtain ⟨m, hm, rfl⟩ := map_eq_some_iff.mp hadd
    have hothers (k y : Nat) : s.outBoundPeers k = some y ↔ k ≠ 0 ∧ ∃ q, (y ≠ x ∧ (y, q) ∈ r.peers) ∧ q.id = k := by
      rw [h.id]
      refine and_congr_right fun hk => exists_congr fun q => and_congr_left fun heq => (and_iff_right_of_imp fun hq hyx => hk ?_).symm
      rw [← heq, h.unique x q p (hyx ▸ hq) hp, hid]
    have hbyId := entry_added (f := Peer.id) (p := { p with id := serverId }) (x := x) hothers hpos fun y q hq heq => by
      have hsome := (hothers serverId y).mpr ⟨hpos, q, hq, heq⟩
      rw [hnone] at hsome
      cases hsome
    refine ⟨_, ?_, relabel_inv h hp hrow hbyId fun k => ?_⟩
    · rw [RealtimeFabric.processJoinRep, hname]
      simp only [hheap, bind_eq_bind, bind_some, if_neg hpos]
      rw [RealtimeFabric.addAdj, hm]
      rfl
    · by_cases hk : k = serverId
      · rw [hk, update_self]
        simp
      · rw [update_of_ne hk, ← h.row, or_iff_right hk]

theorem disconnect_inv (address : A) : ∃ s', s.disconnect address = some s' ∧ Inv s' (next r (.disconnect address)) := by
  cases hname : s.outBoundPeersByName address with
  | none =>
    refine ⟨s, by rw [RealtimeFabric.disconnect, hname], ?_⟩
    rw [next, map_unknown h hname]
    exact h
  | some x =>
    obtain ⟨p, hp, rfl, hheap⟩ := h.found hname
    obtain ⟨s1, hdel, hrow⟩ := delAdj_spec h.valid h.once p.id
    have hrest := hrow.rest
    have hid := entry_dropped (f := Peer.id) (c := (· ≠ 0)) (m := fun y q => (y, q) ∈ r.peers) h.id h.unique hp
    have hbyId (k y : Nat) : update s.outBoundPeers p.id none k = some y ↔
        k ≠ 0 ∧ ∃ q, (y = x ∧ q = { p with id := 0 } ∨ y ≠ x ∧ (y, q) ∈ r.peers) ∧ q.id = k := by
      refine (hid k y).trans (and_congr_right fun hk => exists_congr fun q => and_congr_left fun heq => (or_iff_right ?_).symm)
      rintro ⟨-, rfl⟩
      exact hk heq.symm
    refine ⟨_, ?_, relabel_inv h hp hrow hbyId fun k => ?_⟩
    · rw [RealtimeFabric.disconnect, hname]
      simp only [hheap, bind_eq_bind, bind_some, hdel]
      rw [hrest]
    · by_cases hk : k = p.id
      · simp [hk]
      · rw [update_of_ne hk, ← h.row, and_iff_right hk]

theorem step_inv {e : Ev A U} (hok : Ok s e) : ∃ s', step s e = some s' ∧ Inv s' (next r e) := by
  cases e with
  | addPeer actual uuid => exact addPeer_inv h hok
  | delPeer address =>
    have hnone : s.outBoundPeersByName address = none := hok
    refine ⟨s, by rw [step, RealtimeFabric.delPeer, hnone], ?_⟩
    rw [next, List.filter_eq_self.mpr fun e he => decide_eq_true (h.unknown hnone e he)]
    exact h
  | delPeerByUUID uuid => exact delPeerByUUID_inv h uuid
  | joinRep name serverId => exact joinRep_inv h hok
  | disconnect address => exact disconnect_inv h address

end Step

section

variable {A U : Type}

theorem new_inv (serverId : Nat) : Inv (.new serverId : RealtimeFabric A U) ⟨[], 0⟩ where
  heap := fun x out => by simp [RealtimeFabric.new]
  name := fun a x => by simp [RealtimeFabric.new]
  uuid := fun u x => by simp [RealtimeFabric.new]
  id := fun i x => by simp [RealtimeFabric.new]
  row := fun i => by simp [RealtimeFabric.new, RealtimeFabric.row, AdjMatrix.get]
  once := List.nodup_nil
  allocated := rfl
  numbered := nofun
  unique := nofun
  valid := nofun

variable [DecidableEq A] [DecidableEq U]

/-- Where no peer is added with a UUID that is taken, none is deleted by its address, and none joins again before it has
disconnected or with a server id that is taken, every step ends, and the tables and the row have the peers. -/
theorem tables_agree (serverId : Nat) {es : List (Ev A U)} (h : Meets step Ok (.new serverId) es) :
    ∃ s, exec step (.new serverId) es = some s ∧ Agree s (es.foldl next ⟨[], 0⟩) := by
  obtain ⟨s, hs, hinv⟩ := @exec_of_meets _ _ step Ok _ next Inv (fun h hok => step_inv h hok) _ _ (new_inv serverId) _ h
  exact ⟨s, hs, hinv.toAgree⟩

theorem tables_agree_two : ∃ s : RealtimeFabric Nat Nat, exec step (.new 9) [.addPeer 1 5, .addPeer 2 6, .joinRep 1 3, .joinRep 2 4, .disconnect 1,
      .joinRep 1 7, .delPeerByUUID 6] = some s ∧ Agree s ⟨[(0, ⟨1, 5, 7⟩)], 2⟩ :=
  @tables_agree Nat Nat _ _ 9 [.addPeer 1 5, .addPeer 2 6, .joinRep 1 3, .joinRep 2 4, .disconnect 1, .joinRep 1 7, .delPeerByUUID 6]
    (by decide +kernel)

end

end DeepFabric.Distributed.PeerTables
