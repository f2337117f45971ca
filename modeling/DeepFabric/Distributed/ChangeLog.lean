/-
  DeepFabric.Distributed.ChangeLog — the log of changes a subscriber is sent with the data it asks for
  (DataLogManager.cxx; MapFacilitator.cxx: processDataRequest; MapFacilitator.h: commitLog).

  Commits append their change sets to the log, in the order they come. A data request gets clones of the first entries,
  up to the first one beyond its virtual viewpoint, and behind them what its segment has for it; if there is anything in
  the log for it, the log is cleared afterwards. A change set is made with its first entry. The log is a linked list in
  memory (Distributed.QuickList); the size that clearing leaves behind is never read here. What the requester does with
  a list, and that it deletes it, is left out.
-/
import DeepFabric.Distributed.QuickList
import DeepFabric.Distributed.VirtualKeySpace

namespace DeepFabric.Distributed.ChangeLog

open DeepFabric.Lib.Run List
open QuickLists
open VirtualKeySpace (LogEntryAction)

variable {K : Type}

/-- An entry has a copy of its data, and none of no bytes. -/
structure DataLogEntry (K : Type) where
  action : LogEntryAction
  key : K
  viewpoint : Nat
  size : UInt32
  data : Option (List UInt8)
  made : size = 0 → data = none

def newEntry (action : LogEntryAction) (key : K) (viewpoint : Nat) (size : UInt32) (data : Option (List UInt8)) : DataLogEntry K :=
  ⟨action, key, viewpoint, size, if size ≠ 0 then data else none, fun h => by simp [h]⟩

def DataLogEntry.clone (e : DataLogEntry K) : DataLogEntry K := newEntry e.action e.key e.viewpoint e.size e.data

theorem DataLogEntry.clone_eq (e : DataLogEntry K) : e.clone = e := by
  obtain ⟨action, key, viewpoint, size, data, made⟩ := e
  by_cases h : size = 0
  · simp [DataLogEntry.clone, newEntry, h, made h]
  · simp [DataLogEntry.clone, newEntry, h]

/-! ## The log -/

structure St (K : Type) where
  memory : Memory (DataLogEntry K)
  log : QuickList
  /-- What the requester has been handed, a request each; none is null. -/
  received : List (Option (List (DataLogEntry K)))

def init : St K := ⟨⟨fun _ => none, 0⟩, empty, []⟩

/-- A list made of these entries. -/
def build (m : Memory (DataLogEntry K)) (entries : List (DataLogEntry K)) : Option (Memory (DataLogEntry K) × QuickList) :=
  entries.foldlM (fun p e => addEntry p.1 p.2 e) (m, empty)

/-- The entries from the head on. -/
def read (m : Memory (DataLogEntry K)) (l : QuickList) : List (DataLogEntry K) :=
  (walk m m.fresh l.head).filterMap fun a => (m.node a).map (·.entry)

/-- commitLog: the workspace's change set, which it disowns then. -/
def logChangeSet (s : St K) (first : DataLogEntry K) (rest : List (DataLogEntry K)) : Option (St K) := do
  let (m, changeSet) ← build s.memory (first :: rest)
  let (m, log) ← append m s.log changeSet
  some { s with memory := m, log := log }

def logDelete (s : St K) (key : K) (viewpoint : Nat) (size : UInt32) (data : Option (List UInt8)) : Option (St K) := do
  let (m, log) ← addEntry s.memory s.log (newEntry .remove key viewpoint size data)
  some { s with memory := m, log := log }

/-- The viewpoint of the log's last entry, 0 for an empty log. -/
def getMaxViewpoint (m : Memory (DataLogEntry K)) (log : QuickList) : Option Nat :=
  match log.tail with
  | none => some 0
  | some a => (m.node a).map (·.entry.viewpoint)

/-- The loop of getChangeSet: a node is visited once, so the nodes ever allocated bound the turns. -/
def copyLoop (maxViewpoint : Nat) : Nat → Memory (DataLogEntry K) → Option Nat → Option QuickList →
    Option (Memory (DataLogEntry K) × Option QuickList)
  | _, m, none, changeSet => some (m, changeSet)
  | 0, _, some _, _ => none
  | fuel + 1, m, some a, changeSet => do
    let node ← m.node a
    if node.entry.viewpoint ≤ maxViewpoint then
      let (m, l) ← addEntry m (changeSet.getD empty) node.entry.clone
      copyLoop maxViewpoint fuel m (← m.getNext (some a)) (some l)
    else some (m, changeSet)

def getChangeSet (m : Memory (DataLogEntry K)) (log : QuickList) (minViewpoint maxViewpoint : Nat) :
    Option (Memory (DataLogEntry K) × Option QuickList) := do
  if (← getMaxViewpoint m log) < minViewpoint then some (m, none) else copyLoop maxViewpoint m.fresh m log.head none

/-- What processRequest of the segment returns: null, or a list of its own. -/
def segmentPart (m : Memory (DataLogEntry K)) : Option (List (DataLogEntry K)) →
    Option (Memory (DataLogEntry K) × Option QuickList)
  | none => some (m, none)
  | some entries => (build m entries).map fun (m, l) => (m, some l)

def processDataRequest (s : St K) (maxReal maxVirtual : Nat) (segment : Option (List (DataLogEntry K))) : Option (St K) := do
  let (m, logData) ← getChangeSet s.memory s.log maxReal maxVirtual
  let (m, segmentData) ← segmentPart m segment
  match logData with
  | none => some { s with memory := m, received := s.received ++ [segmentData.map (read m)] }
  | some logData =>
    -- append reads the head of the segment part
    let segmentData ← segmentData
    let (m, logData) ← append m logData segmentData
    let (m, log) ← clear m s.log
    some ⟨m, log, s.received ++ [some (read m logData)]⟩

inductive Ev (K : Type) where
  | logChangeSet (first : DataLogEntry K) (rest : List (DataLogEntry K))
  | logDelete (key : K) (viewpoint : Nat) (size : UInt32) (data : Option (List UInt8))
  | request (maxReal maxVirtual : Nat) (segment : Option (List (DataLogEntry K)))

def step (s : St K) : Ev K → Option (St K)
  | .logChangeSet first rest => logChangeSet s first rest
  | .logDelete key viewpoint size data => logDelete s key viewpoint size data
  | .request maxReal maxVirtual segment => processDataRequest s maxReal maxVirtual segment

/-! ## The hand-out as it should be -/

/-- What waits to be handed out, in the order it was logged, and what has been received. -/
structure HandOut (K : Type) where
  waiting : List (DataLogEntry K)
  received : List (Option (List (DataLogEntry K)))

/-- What a request is due: the first of what waits, as long as it is not beyond the virtual viewpoint. -/
def due (waiting : List (DataLogEntry K)) (maxVirtual : Nat) : List (DataLogEntry K) :=
  waiting.takeWhile fun e => e.viewpoint ≤ maxVirtual

/-- The due part before the segment part; null if there is neither. -/
def response (due : List (DataLogEntry K)) (segment : Option (List (DataLogEntry K))) : Option (List (DataLogEntry K)) :=
  if due = [] then segment else some (due ++ segment.getD [])

def next (r : HandOut K) : Ev K → HandOut K
  | .logChangeSet first rest => { r with waiting := r.waiting ++ first :: rest }
  | .logDelete key viewpoint size data => { r with waiting := r.waiting ++ [newEntry .remove key viewpoint size data] }
  | .request _ maxVirtual segment =>
    ⟨r.waiting.drop (due r.waiting maxVirtual).length, r.received ++ [response (due r.waiting maxVirtual) segment]⟩

/-- The log has what waits, and what was received is what should have been. -/
def Agrees (s : St K) (r : HandOut K) : Prop := (∃ nodes, Visits s.memory s.log.head nodes r.waiting) ∧ s.received = r.received

/-- All along the calls. -/
def Delivers (calls : List (Ev K)) : Prop :=
  ∀ l, l <+: calls → ∃ s, exec step init l = some s ∧ Agrees s (l.foldl next ⟨[], []⟩)

/-- A request that is due anything is due the whole log, has a segment part, and has not seen more than the log's last
    viewpoint. -/
def Ok (s : St K) : Ev K → Prop
  | .request maxReal maxVirtual segment =>
    due (read s.memory s.log) maxVirtual = [] ∨
      (due (read s.memory s.log) maxVirtual = read s.memory s.log ∧ segment ≠ none ∧
        ∀ e ∈ (read s.memory s.log).getLast?, maxReal ≤ e.viewpoint)
  | _ => True

/-! ## Runs as built -/

def change (viewpoint : Nat) : DataLogEntry Nat := newEntry .update 1 viewpoint 0 none

/-- The change at viewpoint 10 is lost. -/
theorem as_built_rest_is_lost : ¬Delivers [.logChangeSet (change 5) [change 10], .request 0 7 (some [])] := by
  intro h
  obtain ⟨s, hs, ⟨nodes, hv⟩, -⟩ := h _ (prefix_refl _)
  cases hs
  cases nodes with
  | nil => cases hv.2
  | cons a nodes => cases hv.1

/-! ## The lists in memory -/

section Chains

variable {T : Type} {m m' : Memory T} {l l2 : QuickList} {nodes nodes2 : List Nat} {entries entries2 : List T} {p : Option Nat}

/-- A list of these nodes with these entries, whatever its size. -/
structure Chain (m : Memory T) (l : QuickList) (nodes : List Nat) (entries : List T) : Prop where
  visits : Visits m l.head nodes entries
  tail : l.tail = nodes.getLast?

/-- Nothing is allocated at the addresses still to be handed out. -/
def Bounded (m : Memory T) : Prop := ∀ a, m.fresh ≤ a → m.node a = none

theorem Bounded.lt (hb : Bounded m) (h : Visits m p nodes entries) {a : Nat} (ha : a ∈ nodes) : a < m.fresh := by
  obtain ⟨e, he⟩ := h.node ha
  by_contra hle
  rw [hb a (Nat.le_of_not_lt hle)] at he
  cases he

theorem Bounded.length_le (hb : Bounded m) (h : Visits m p nodes entries) : nodes.length ≤ m.fresh := by
  have hsub : nodes ⊆ List.range m.fresh := fun a ha => mem_range.mpr (hb.lt h ha)
  simpa using (subperm_of_subset h.nodup hsub).length_le

theorem chain_empty (m : Memory T) : Chain m empty [] [] := ⟨⟨rfl, rfl⟩, rfl⟩

theorem Chain.head_none (h : Chain m l nodes entries) (hh : l.head = none) : nodes = [] ∧ entries = [] := by
  obtain ⟨hv, -⟩ := h
  cases nodes with
  | nil => exact ⟨rfl, hv.2⟩
  | cons a nodes => cases hh.symm.trans hv.1

theorem Chain.last (h : Chain m l nodes entries) (hh : l.head ≠ none) : ∃ front a, nodes = front ++ [a] ∧ l.tail = some a := by
  obtain ⟨hv, ht⟩ := h
  rcases eq_nil_or_concat nodes with rfl | ⟨front, a, rfl⟩
  · exact absurd hv.1 hh
  · rw [concat_eq_append] at ht ⊢
    exact ⟨front, a, rfl, ht.trans List.getLast?_concat⟩

theorem addEntry_chain (h : Chain m l nodes entries) (hb : Bounded m) (x : T) : ∃ m' l', addEntry m l x = some (m', l') ∧
    Chain m' l' (nodes ++ [m.fresh]) (entries ++ [x]) ∧ Bounded m' ∧ m'.fresh = m.fresh + 1 ∧
      ∀ b, b ∉ nodes → b < m.fresh → m'.node b = m.node b := by
  have hkept : ∀ b, b ≠ m.fresh → (m.new x).node b = m.node b := fun b hb => Function.update_of_ne hb _ _
  have hnew : Visits (m.new x) (some m.fresh) [m.fresh] [x] := ⟨rfl, ⟨x, none⟩, [], by simp [Memory.new], rfl, rfl, rfl⟩
  have hbounded : Bounded (m.new x) := by
    intro a ha
    have hlt : m.fresh < a := ha
    rw [hkept a (by omega)]
    exact hb a (by omega)
  by_cases hh : l.head = none
  · obtain ⟨rfl, rfl⟩ := h.head_none hh
    refine ⟨m.new x, ⟨some m.fresh, some m.fresh, l.size + 1⟩, ?_, ⟨hnew, rfl⟩, hbounded, rfl, ?_⟩
    · simp [addEntry, hh]
    · intro b _ hlt
      exact hkept b (Nat.ne_of_lt hlt)
  · obtain ⟨front, a, rfl, ht⟩ := h.last hh
    have ha : a < m.fresh := hb.lt h.visits (by simp)
    have hv : Visits (m.new x) l.head (front ++ [a]) entries := by
      apply h.visits.congr
      intro b hmem
      exact hkept b (Nat.ne_of_lt (hb.lt h.visits hmem))
    obtain ⟨m', hset, hkeep, hfresh, hlinked⟩ := hv.link hnew (by simpa using Nat.ne_of_lt ha)
    refine ⟨m', ⟨l.head, some m.fresh, l.size + 1⟩, ?_, ⟨hlinked, List.getLast?_concat.symm⟩, ?_, hfresh, ?_⟩
    · simp [addEntry, hh, ht, Nat.ne_of_lt ha, hset]
    · intro b hle
      rw [hfresh] at hle
      have hlt : m.fresh < b := hle
      rw [hkeep b (by omega)]
      exact hbounded b hle
    · intro b hmem hlt
      have hne : b ≠ a := by
        rintro rfl
        simp at hmem
      rw [hkeep b hne]
      exact hkept b (Nat.ne_of_lt hlt)

theorem append_chain (h : Chain m l nodes entries) (h2 : Chain m l2 nodes2 entries2) (hb : Bounded m)
    (hdisjoint : ∀ a ∈ nodes, a ∉ nodes2) : ∃ m' l', append m l l2 = some (m', l') ∧
      Visits m' l'.head (nodes ++ nodes2) (entries ++ entries2) ∧ (nodes2 ≠ [] → l'.tail = (nodes ++ nodes2).getLast?) ∧
      Bounded m' ∧ m'.fresh = m.fresh ∧ ∀ b, b ∉ nodes → m'.node b = m.node b := by
  by_cases hh : l.head = none
  · obtain ⟨rfl, rfl⟩ := h.head_none hh
    exact ⟨m, l2, if_pos hh, h2.visits, fun _ => h2.tail, hb, rfl, fun _ _ => rfl⟩
  · obtain ⟨front, a, rfl, ht⟩ := h.last hh
    obtain ⟨m', hset, hkeep, hfresh, hlinked⟩ := h.visits.link h2.visits (hdisjoint a (by simp))
    refine ⟨m', ⟨l.head, l2.tail, l.size + l2.size⟩, ?_, hlinked, ?_, ?_, hfresh, ?_⟩
    · simp [append, hh, ht, hset]
    · intro hne
      obtain ⟨front2, b, rfl⟩ := eq_nil_or_concat nodes2 |>.resolve_left hne
      rw [h2.tail, concat_eq_append, ← append_assoc, List.getLast?_concat, List.getLast?_concat]
    · intro b hle
      rw [hfresh] at hle
      have ha : a < m.fresh := hb.lt h.visits (by simp)
      rw [hkeep b (by omega)]
      exact hb b hle
    · intro b hmem
      apply hkeep
      rintro rfl
      simp at hmem

theorem clear_chain (h : Visits m l.head nodes entries) (hb : Bounded m) : ∃ m',
    clear m l = some (m', { l with head := none, tail := none }) ∧ Bounded m' ∧ m'.fresh = m.fresh ∧
      ∀ b, b ∉ nodes → m'.node b = m.node b := by
  have hloop : ∀ (nodes : List Nat) (m : Memory T) (p : Option Nat) (entries : List T) (fuel : Nat), Visits m p nodes entries →
      Bounded m → nodes.length ≤ fuel → ∃ m', clearLoop m fuel p = some m' ∧ Bounded m' ∧ m'.fresh = m.fresh ∧
        ∀ b, b ∉ nodes → m'.node b = m.node b := by
    intro nodes
    induction nodes with
    | nil =>
      intro m p entries fuel hv hb _
      rw [hv.1]
      refine ⟨m, ?_, hb, rfl, fun _ _ => rfl⟩
      cases fuel <;> rfl
    | cons a nodes ih =>
      intro m p entries fuel hv hb hle
      obtain ⟨fuel, rfl⟩ : ∃ k, fuel = k + 1 := Nat.exists_eq_add_one.mpr (Nat.lt_of_lt_of_le (Nat.succ_pos _) hle)
      have hnodup := nodup_cons.mp hv.nodup
      obtain ⟨rfl, e, rest, he, -, hrest⟩ := hv
      have hkept : ∀ b, b ≠ a → (m.delete a).node b = m.node b := fun b hb => Function.update_of_ne hb _ _
      have hrest' : Visits (m.delete a) e.next nodes rest := by
        apply hrest.congr
        intro b hmem
        apply hkept
        rintro rfl
        exact hnodup.1 hmem
      have hb' : Bounded (m.delete a) := by
        intro b hle
        by_cases hba : b = a
        · subst hba
          simp [Memory.delete]
        · rw [hkept b hba]
          exact hb b hle
      obtain ⟨m', hm', hbounded, hfresh, hkeep⟩ := ih (m.delete a) e.next rest fuel hrest' hb' (Nat.le_of_succ_le_succ hle)
      refine ⟨m', ?_, hbounded, hfresh, ?_⟩
      · simp [clearLoop, Memory.getNext, he, hm']
      · intro b hmem
        rw [hkeep b fun h => hmem (mem_cons_of_mem _ h)]
        apply hkept
        rintro rfl
        exact hmem mem_cons_self
  obtain ⟨m', hm', hrest⟩ := hloop nodes m l.head entries m.fresh h hb (hb.length_le h)
  exact ⟨m', by simp [clear, hm'], hrest⟩

/-- A list made since the address `base`: the nodes before it are as they were. -/
structure Made (base : Nat) (m m' : Memory T) (l : QuickList) (nodes : List Nat) (entries : List T) : Prop
    extends Chain m' l nodes entries where
  bounded : Bounded m'
  since : ∀ a ∈ nodes, base ≤ a
  fresh : base ≤ m'.fresh
  kept : ∀ b, b < base → m'.node b = m.node b

theorem Made.add {base : Nat} {m0 : Memory T} (h : Made base m0 m l nodes entries) (x : T) : ∃ m' l',
    addEntry m l x = some (m', l') ∧ Made base m0 m' l' (nodes ++ [m.fresh]) (entries ++ [x]) := by
  obtain ⟨m', l', hadd, hchain, hbounded, hfresh, hkeep⟩ := addEntry_chain h.toChain h.bounded x
  have hbase := h.fresh
  refine ⟨m', l', hadd, hchain, hbounded, ?_, by omega, ?_⟩
  · intro a ha
    rcases mem_append.mp ha with ha | ha
    · exact h.since a ha
    · rw [mem_singleton.mp ha]
      exact hbase
  · intro b hb
    have hnot : b ∉ nodes := fun hmem => absurd (h.since b hmem) (by omega)
    rw [hkeep b hnot (by omega)]
    exact h.kept b hb

theorem made_empty (hb : Bounded m) : Made m.fresh m m empty [] [] :=
  ⟨chain_empty m, hb, by simp, Nat.le_refl _, fun _ _ => rfl⟩

end Chains

/-! ## Building, copying and reading -/

section Lists

variable {m m0 : Memory (DataLogEntry K)} {l : QuickList} {nodes : List Nat} {entries : List (DataLogEntry K)} {base : Nat}

theorem build_made (hb : Bounded m) (entries : List (DataLogEntry K)) :
    ∃ m' l nodes, build m entries = some (m', l) ∧ Made m.fresh m m' l nodes entries := by
  have hfold : ∀ (entries done : List (DataLogEntry K)) (m1 : Memory (DataLogEntry K)) (l : QuickList) (nodes : List Nat),
      Made m.fresh m m1 l nodes done → ∃ m' l' nodes',
        entries.foldlM (fun p e => addEntry p.1 p.2 e) (m1, l) = some (m', l') ∧ Made m.fresh m m' l' nodes' (done ++ entries) := by
    intro entries
    induction entries with
    | nil =>
      intro done m1 l nodes h
      refine ⟨m1, l, nodes, rfl, ?_⟩
      rw [append_nil]
      exact h
    | cons e entries ih =>
      intro done m1 l nodes h
      obtain ⟨m2, l2, hadd, h2⟩ := h.add e
      obtain ⟨m', l', nodes', hrest, h'⟩ := ih _ m2 l2 _ h2
      refine ⟨m', l', nodes', ?_, ?_⟩
      · rw [foldlM_cons, hadd]
        exact hrest
      · rw [append_assoc] at h'
        exact h'
  exact hfold entries [] m empty [] (made_empty hb)

theorem read_chain (hb : Bounded m) (h : Visits m l.head nodes entries) : read m l = entries := by
  rw [read, h.walk (hb.length_le h)]
  generalize l.head = p at h
  induction nodes generalizing p entries with
  | nil => exact h.2.symm
  | cons a nodes ih =>
    obtain ⟨-, e, rest, he, rfl, hrest⟩ := h
    rw [filterMap_cons_some (b := e.entry) (by simp [he]), ih _ hrest]

theorem copy_chain {maxViewpoint : Nat} {p : Option Nat} {fuel : Nat} {done : List (DataLogEntry K)} {copies : List Nat}
    {changeSet : Option QuickList} (h : Made base m0 m (changeSet.getD empty) copies done) (hnone : changeSet = none ↔ done = [])
    (hv : Visits m0 p nodes entries) (hold : ∀ a ∈ nodes, a < base) (hle : nodes.length ≤ fuel) :
    ∃ m' changeSet' copies', copyLoop maxViewpoint fuel m p changeSet = some (m', changeSet') ∧
      Made base m0 m' (changeSet'.getD empty) copies' (done ++ due entries maxViewpoint) ∧
      (changeSet' = none ↔ done ++ due entries maxViewpoint = []) := by
  induction nodes generalizing m p entries fuel done copies changeSet with
  | nil =>
    obtain ⟨rfl, rfl⟩ := hv
    refine ⟨m, changeSet, copies, ?_, by simpa [due] using h, by simpa [due] using hnone⟩
    cases fuel <;> rfl
  | cons a nodes ih =>
    obtain ⟨fuel, rfl⟩ : ∃ k, fuel = k + 1 := Nat.exists_eq_add_one.mpr (Nat.lt_of_lt_of_le (Nat.succ_pos _) hle)
    obtain ⟨rfl, e, rest, he, rfl, hrest⟩ := hv
    have hnode : m.node a = some e := by
      rw [h.kept a (hold a mem_cons_self)]
      exact he
    by_cases hdue : e.entry.viewpoint ≤ maxViewpoint
    · obtain ⟨m1, l1, hadd, h1⟩ := h.add e.entry.clone
      rw [DataLogEntry.clone_eq] at h1
      have hnode1 : m1.node a = some e := by
        rw [h1.kept a (hold a mem_cons_self)]
        exact he
      have hsome : some l1 = none ↔ done ++ [e.entry] = [] := by simp
      obtain ⟨m', changeSet', copies', hloop, hmade, hiff⟩ :=
        ih (show Made base m0 m1 ((some l1).getD empty) (copies ++ [m.fresh]) (done ++ [e.entry]) from h1) hsome hrest
          (forall_mem_cons.mp hold).2 (Nat.le_of_succ_le_succ hle)
      have hdues : done ++ due (e.entry :: rest) maxViewpoint = done ++ [e.entry] ++ due rest maxViewpoint := by
        simp [due, hdue]
      refine ⟨m', changeSet', copies', ?_, ?_, ?_⟩
      · simp [copyLoop, hnode, hdue, hadd, Memory.getNext, hnode1, hloop]
      · rw [hdues]
        exact hmade
      · rw [hdues]
        exact hiff
    · have hdues : due (e.entry :: rest) maxViewpoint = [] := by simp [due, hdue]
      refine ⟨m, changeSet, copies, ?_, by simpa [hdues] using h, by simpa [hdues] using hnone⟩
      simp [copyLoop, hnode, hdue]

theorem visits_last {a : Nat} {p : Option Nat} (h : Visits m p (nodes ++ [a]) entries) :
    ∃ e, m.node a = some e ∧ entries.getLast? = some e.entry := by
  induction nodes generalizing p entries with
  | nil =>
    obtain ⟨-, e, rest, he, rfl, -, rfl⟩ := h
    exact ⟨e, he, rfl⟩
  | cons b nodes ih =>
    obtain ⟨-, e, rest, -, rfl, hrest⟩ := h
    obtain ⟨e', he', hlast⟩ := ih hrest
    refine ⟨e', he', ?_⟩
    rw [List.getLast?_cons, hlast]
    rfl

theorem getMaxViewpoint_chain (h : Chain m l nodes entries) :
    getMaxViewpoint m l = some ((entries.getLast?.map (·.viewpoint)).getD 0) := by
  obtain ⟨hv, ht⟩ := h
  rcases eq_nil_or_concat nodes with rfl | ⟨front, a, rfl⟩
  · rw [hv.2]
    simp [getMaxViewpoint, ht]
  · rw [concat_eq_append] at hv ht
    obtain ⟨e, he, hlast⟩ := visits_last hv
    simp [getMaxViewpoint, ht, he, hlast]

end Lists

/-! ## One call -/

section Call

variable {s s' : St K} {r : HandOut K} {maxReal maxVirtual : Nat} {segment : Option (List (DataLogEntry K))}

/-- The log is a list of what waits. -/
structure Inv (s : St K) (r : HandOut K) : Prop where
  chain : ∃ nodes, Chain s.memory s.log nodes r.waiting
  bounded : Bounded s.memory
  received : s.received = r.received

theorem Inv.agrees (h : Inv s r) : Agrees s r := by
  obtain ⟨nodes, hc⟩ := h.chain
  exact ⟨⟨nodes, hc.visits⟩, h.received⟩

theorem init_inv : Inv (init : St K) ⟨[], []⟩ := ⟨⟨[], chain_empty _⟩, fun _ _ => rfl, rfl⟩

theorem Inv.read (h : Inv s r) : ChangeLog.read s.memory s.log = r.waiting := by
  obtain ⟨nodes, hc⟩ := h.chain
  exact read_chain h.bounded hc.visits

theorem logDelete_inv (h : Inv s r) (key : K) (viewpoint : Nat) (size : UInt32) (data : Option (List UInt8)) :
    ∃ s', logDelete s key viewpoint size data = some s' ∧ Inv s' (next r (.logDelete key viewpoint size data)) := by
  obtain ⟨nodes, hc⟩ := h.chain
  obtain ⟨m', l', hadd, hchain, hbounded, -⟩ := addEntry_chain hc h.bounded (newEntry .remove key viewpoint size data)
  refine ⟨{ s with memory := m', log := l' }, ?_, ⟨_, hchain⟩, hbounded, h.received⟩
  simp [logDelete, hadd]

theorem logChangeSet_inv (h : Inv s r) (first : DataLogEntry K) (rest : List (DataLogEntry K)) :
    ∃ s', logChangeSet s first rest = some s' ∧ Inv s' (next r (.logChangeSet first rest)) := by
  obtain ⟨nodes, hc⟩ := h.chain
  obtain ⟨m1, l1, copies, hbuild, hmade⟩ := build_made h.bounded (first :: rest)
  have hold : ∀ a ∈ nodes, a < s.memory.fresh := fun a ha => h.bounded.lt hc.visits ha
  have hlog : Chain m1 s.log nodes r.waiting := ⟨hc.visits.congr fun a ha => hmade.kept a (hold a ha), hc.tail⟩
  have hdisjoint : ∀ a ∈ nodes, a ∉ copies := by
    intro a ha hmem
    exact absurd (hmade.since a hmem) (by have := hold a ha; omega)
  have hne : copies ≠ [] := by
    intro hnil
    have hlength := hmade.visits.length
    rw [hnil] at hlength
    simp at hlength
  obtain ⟨m', l', happend, hvisits, htail, hbounded, -⟩ := append_chain hlog hmade.toChain hmade.bounded hdisjoint
  refine ⟨{ s with memory := m', log := l' }, ?_, ⟨_, hvisits, htail hne⟩, hbounded, h.received⟩
  simp [logChangeSet, hbuild, happend]

/-- What getChangeSet finds due. -/
def handed (waiting : List (DataLogEntry K)) (maxReal maxVirtual : Nat) : List (DataLogEntry K) :=
  if (waiting.getLast?.map (·.viewpoint)).getD 0 < maxReal then [] else due waiting maxVirtual

theorem getChangeSet_made {nodes : List Nat} (hc : Chain s.memory s.log nodes r.waiting) (hb : Bounded s.memory)
    (maxReal maxVirtual : Nat) : ∃ m changeSet copies, getChangeSet s.memory s.log maxReal maxVirtual = some (m, changeSet) ∧
      Made s.memory.fresh s.memory m (changeSet.getD empty) copies (handed r.waiting maxReal maxVirtual) ∧
      (changeSet = none ↔ handed r.waiting maxReal maxVirtual = []) := by
  simp only [getChangeSet, getMaxViewpoint_chain hc, handed, Option.bind_eq_bind, Option.bind_some]
  split
  · exact ⟨s.memory, none, [], rfl, made_empty hb, by simp⟩
  · have hnone : (none : Option QuickList) = none ↔ ([] : List (DataLogEntry K)) = [] := by simp
    exact copy_chain (K := K) (made_empty hb) hnone hc.visits (fun a ha => hb.lt hc.visits ha) (hb.length_le hc.visits)

theorem segmentPart_made {m : Memory (DataLogEntry K)} (hb : Bounded m) (entries : List (DataLogEntry K)) :
    ∃ m' l nodes, segmentPart m (some entries) = some (m', some l) ∧ Made m.fresh m m' l nodes entries := by
  obtain ⟨m', l, nodes, hbuild, hmade⟩ := build_made hb entries
  exact ⟨m', l, nodes, by simp [segmentPart, hbuild], hmade⟩

/-- A request for which nothing is found gets the segment part, and the log stays. -/
theorem request_none (h : Inv s r) (hnone : handed r.waiting maxReal maxVirtual = []) :
    ∃ s', processDataRequest s maxReal maxVirtual segment = some s' ∧ Inv s' ⟨r.waiting, r.received ++ [segment]⟩ := by
  obtain ⟨nodes, hc⟩ := h.chain
  have hold : ∀ a ∈ nodes, a < s.memory.fresh := fun a ha => h.bounded.lt hc.visits ha
  obtain ⟨m1, changeSet, copies, hget, hmade, hiff⟩ := getChangeSet_made hc h.bounded maxReal maxVirtual
  obtain rfl := hiff.mpr hnone
  have hlog : Chain m1 s.log nodes r.waiting := ⟨hc.visits.congr fun a ha => hmade.kept a (hold a ha), hc.tail⟩
  cases segment with
  | none =>
    refine ⟨⟨m1, s.log, s.received ++ [none]⟩, ?_, ⟨nodes, hlog⟩, hmade.bounded, congrArg (· ++ [none]) h.received⟩
    simp [processDataRequest, hget, segmentPart]
  | some entries =>
    obtain ⟨m2, l2, nodes2, hsegment, hmade2⟩ := segmentPart_made hmade.bounded entries
    have hfresh := hmade.fresh
    have hlog2 : Chain m2 s.log nodes r.waiting := by
      refine ⟨hlog.visits.congr fun a ha => hmade2.kept a ?_, hlog.tail⟩
      have := hold a ha
      omega
    refine ⟨⟨m2, s.log, s.received ++ [some entries]⟩, ?_, ⟨nodes, hlog2⟩, hmade2.bounded,
      congrArg (· ++ [some entries]) h.received⟩
    simp [processDataRequest, hget, hsegment, read_chain hmade2.bounded hmade2.visits]

theorem request_null (h : Inv s r) (hsome : handed r.waiting maxReal maxVirtual ≠ []) :
    processDataRequest s maxReal maxVirtual none = none := by
  obtain ⟨nodes, hc⟩ := h.chain
  obtain ⟨m1, changeSet, copies, hget, hmade, hiff⟩ := getChangeSet_made hc h.bounded maxReal maxVirtual
  cases changeSet with
  | none => exact absurd (hiff.mp rfl) hsome
  | some logData => simp [processDataRequest, hget, segmentPart]

/-- A request for which something is found gets it, with the segment part behind it, and the log is empty then. -/
theorem request_some (h : Inv s r) (hsome : handed r.waiting maxReal maxVirtual ≠ []) (entries : List (DataLogEntry K)) :
    ∃ s', processDataRequest s maxReal maxVirtual (some entries) = some s' ∧
      Inv s' ⟨[], r.received ++ [some (handed r.waiting maxReal maxVirtual ++ entries)]⟩ := by
  obtain ⟨nodes, hc⟩ := h.chain
  have hold : ∀ a ∈ nodes, a < s.memory.fresh := fun a ha => h.bounded.lt hc.visits ha
  obtain ⟨m1, changeSet, copies, hget, hmade, hiff⟩ := getChangeSet_made hc h.bounded maxReal maxVirtual
  cases changeSet with
  | none => exact absurd (hiff.mp rfl) hsome
  | some logData =>
    obtain ⟨m2, l2, nodes2, hsegment, hmade2⟩ := segmentPart_made hmade.bounded entries
    have hfresh := hmade.fresh
    have hcopies : ∀ a ∈ copies, a < m1.fresh := fun a ha => hmade.bounded.lt hmade.visits ha
    -- the log's nodes are older than the copies, and these older than the segment part's
    have hlog2 : Visits m2 s.log.head nodes r.waiting := by
      refine hc.visits.congr fun a ha => ?_
      have hlt := hold a ha
      rw [hmade2.kept a (by omega)]
      exact hmade.kept a hlt
    have hdata2 : Chain m2 logData copies (handed r.waiting maxReal maxVirtual) :=
      ⟨hmade.visits.congr fun a ha => hmade2.kept a (hcopies a ha), hmade.tail⟩
    have hdisjoint : ∀ a ∈ copies, a ∉ nodes2 := by
      intro a ha hmem
      have hlt := hcopies a ha
      have hle := hmade2.since a hmem
      omega
    obtain ⟨m3, l3, happend, hvisits, -, hbounded, -, hkeep⟩ := append_chain hdata2 hmade2.toChain hmade2.bounded hdisjoint
    have hlog3 : Visits m3 s.log.head nodes r.waiting := by
      refine hlog2.congr fun a ha => hkeep a fun hmem => ?_
      have hlt := hold a ha
      have hle := hmade.since a hmem
      omega
    obtain ⟨m4, hclear, hbounded4, -, hkeep4⟩ := clear_chain hlog3 hbounded
    have hvisits4 : Visits m4 l3.head (copies ++ nodes2) (handed r.waiting maxReal maxVirtual ++ entries) := by
      refine hvisits.congr fun a ha => hkeep4 a fun hmem => ?_
      have hlt := hold a hmem
      rcases mem_append.mp ha with ha | ha
      · have hle := hmade.since a ha
        omega
      · have hle := hmade2.since a ha
        omega
    refine ⟨⟨m4, { s.log with head := none, tail := none }, s.received ++ [some (handed r.waiting maxReal maxVirtual ++ entries)]⟩,
      ?_, ⟨[], ⟨rfl, rfl⟩, rfl⟩, hbounded4, congrArg (· ++ [some (handed r.waiting maxReal maxVirtual ++ entries)]) h.received⟩
    simp [processDataRequest, hget, hsegment, happend, hclear, read_chain hbounded4 hvisits4]

theorem ok_request (h : Inv s r) : Ok s (.request maxReal maxVirtual segment) ↔ due r.waiting maxVirtual = [] ∨
    (due r.waiting maxVirtual = r.waiting ∧ segment ≠ none ∧ ∀ e ∈ r.waiting.getLast?, maxReal ≤ e.viewpoint) := by
  rw [Ok, h.read]

theorem handed_of_due (hlast : ∀ e ∈ r.waiting.getLast?, maxReal ≤ e.viewpoint) (hdue : due r.waiting maxVirtual ≠ []) :
    handed r.waiting maxReal maxVirtual = due r.waiting maxVirtual := by
  have hne : r.waiting ≠ [] := by
    intro hnil
    rw [hnil] at hdue
    exact hdue rfl
  have hmem := List.getLast?_eq_some_getLast hne
  have hle := Nat.not_lt.mpr (hlast _ hmem)
  rw [handed, hmem]
  exact if_neg hle

theorem handed_nil (hdue : due r.waiting maxVirtual = []) : handed r.waiting maxReal maxVirtual = [] := by
  unfold handed
  split
  · rfl
  · exact hdue

theorem request_ok (h : Inv s r) (hok : Ok s (.request maxReal maxVirtual segment)) :
    ∃ s', processDataRequest s maxReal maxVirtual segment = some s' ∧ Inv s' (next r (.request maxReal maxVirtual segment)) := by
  by_cases hdue : due r.waiting maxVirtual = []
  · obtain ⟨s', hs', hinv⟩ := request_none h (handed_nil hdue)
    refine ⟨s', hs', ?_⟩
    simpa [next, hdue, response] using hinv
  · obtain ⟨hwhole, hsegment, hlast⟩ := ((ok_request h).mp hok).resolve_left hdue
    obtain ⟨entries, rfl⟩ := Option.ne_none_iff_exists'.mp hsegment
    have hhanded := handed_of_due hlast hdue
    obtain ⟨s', hs', hinv⟩ := request_some h (by rw [hhanded]; exact hdue) entries
    refine ⟨s', hs', ?_⟩
    rw [hhanded] at hinv
    have hrest : r.waiting.drop (due r.waiting maxVirtual).length = [] := by
      rw [hwhole]
      exact drop_length
    have hresponse : response (due r.waiting maxVirtual) (some entries) = some (due r.waiting maxVirtual ++ entries) := if_neg hdue
    rw [next, hrest, hresponse]
    exact hinv

theorem ok_of_request (h : Inv s r) (hs : processDataRequest s maxReal maxVirtual segment = some s')
    (ha : Agrees s' (next r (.request maxReal maxVirtual segment))) : Ok s (.request maxReal maxVirtual segment) := by
  rw [ok_request h]
  by_cases hdue : due r.waiting maxVirtual = []
  · exact .inl hdue
  have hresponse : response (due r.waiting maxVirtual) segment = some (due r.waiting maxVirtual ++ segment.getD []) := if_neg hdue
  by_cases hhanded : handed r.waiting maxReal maxVirtual = []
  · -- something is due, and the segment part is all there is
    obtain ⟨s1, hs1, hinv⟩ : ∃ s1, processDataRequest s maxReal maxVirtual segment = some s1 ∧
        Inv s1 ⟨r.waiting, r.received ++ [segment]⟩ := request_none h hhanded
    cases hs1.symm.trans hs
    have hreceived : r.received ++ [segment] = r.received ++ [response (due r.waiting maxVirtual) segment] :=
      hinv.received.symm.trans ha.2
    rw [hresponse, append_cancel_left_eq, List.cons.injEq] at hreceived
    exfalso
    cases segment with
    | none => cases hreceived.1
    | some entries =>
      have hlength := congrArg List.length (Option.some.inj hreceived.1)
      rw [length_append, Option.getD_some] at hlength
      exact hdue (eq_nil_of_length_eq_zero (by omega))
  · cases segment with
    | none =>
      rw [request_null h hhanded] at hs
      cases hs
    | some entries =>
      obtain ⟨s1, hs1, hinv⟩ := request_some h hhanded entries
      cases hs1.symm.trans hs
      obtain ⟨nodes, hchain⟩ := hinv.chain
      obtain ⟨⟨nodes', hvisits⟩, -⟩ := ha
      have hlast : ¬(r.waiting.getLast?.map (·.viewpoint)).getD 0 < maxReal := by
        intro hlt
        exact hhanded (if_pos hlt)
      refine .inr ⟨?_, nofun, ?_⟩
      · -- what was not due is still in the log, which is empty
        have hnil : r.waiting.drop (due r.waiting maxVirtual).length = [] := by
          have hnodes := hchain.visits.unique hvisits
          subst hnodes
          have hlength := hchain.visits.length.symm.trans hvisits.length
          exact eq_nil_of_length_eq_zero hlength.symm
        have hprefix : due r.waiting maxVirtual <+: r.waiting := takeWhile_prefix _
        exact hprefix.eq_of_length_le (drop_eq_nil_iff.mp hnil)
      · intro e he
        rw [show r.waiting.getLast? = some e from he] at hlast
        exact Nat.not_lt.mp hlast

end Call

/-! ## Runs -/

theorem step_inv {s : St K} {r : HandOut K} {ev : Ev K} (h : Inv s r) (hok : Ok s ev) :
    ∃ s', step s ev = some s' ∧ Inv s' (next r ev) := by
  cases ev with
  | logChangeSet first rest => exact logChangeSet_inv h first rest
  | logDelete key viewpoint size data => exact logDelete_inv h key viewpoint size data
  | request maxReal maxVirtual segment => exact request_ok h hok

theorem ok_of_step {s s' : St K} {r : HandOut K} {ev : Ev K} (h : Inv s r) (hs : step s ev = some s') (ha : Agrees s' (next r ev)) :
    Ok s ev := by
  cases ev with
  | logChangeSet first rest => trivial
  | logDelete key viewpoint size data => trivial
  | request maxReal maxVirtual segment => exact ok_of_request h hs ha

/-- All along the calls every entry is handed out as it should be, exactly if every call meets the condition. -/
theorem delivers_iff (calls : List (Ev K)) : Delivers calls ↔ Meets step Ok init calls :=
  @meets_iff _ _ step Ok _ next Inv Agrees (fun h => h.agrees) (fun h hok => step_inv h hok)
    (fun h hs ha => ok_of_step h hs ha) init ⟨[], []⟩ init_inv calls

end DeepFabric.Distributed.ChangeLog
