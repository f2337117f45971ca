/-
  DeepFabric.Distributed.VirtualKeySpace — the virtual log and its compilation
  (distributed/VirtualKeySpace.cxx, distributed/QuickList.h).

  Writers append entries (addKey, updateKey and removeKey one, appendVirtualLog the non-empty
  list of a commit) to `m_virtualLog`, a linked list whose last node is never dropped: it is
  marked processed and stays, so that an append always finds a tail. `compileKeySpace` walks
  it. A turn of its loop looks at the head (`test`); publishes its entry if the pass publishes
  (`publish`); applies it to `m_compiledKeySpace` (`apply`); marks it and drops the node if
  there is a next one (`advance`). After the loop a pass that published sends a commit. Appends
  may come between any two of these. A publish=false pass (a peer asks for the representation)
  applies without publishing; what it applied then goes out as the representation itself.
  Passes run one after another.

  An ADD binds its key and a REMOVE unbinds it. An UPDATE is written with the key of a row,
  and changes the entry its row falls under: the one of the greatest key not above it
  (`floorEntry`), as the receiving side's updateVirtualSegment does. With no such entry the
  code dereferences a null; the pass has no next step here.

  `appended` and `applied` (each entry with the pass's publish flag) are history variables, and
  so is `sent`, the messages to the subscribers.

  - `step_inv` / `inv`: the log splits into what was applied and what was not; the compiled map
    is the fold of what was applied; what was published is what publishing passes applied.
  - `applied_once_in_order`: each entry is applied once and in log order, and published once
    and in order by a publishing pass; a pass that leaves its loop has applied everything; and
    a pass without appends ends.
-/
import Mathlib.Data.List.Basic
import Mathlib.Data.Nat.Basic
import Mathlib.Logic.Function.Basic
import DeepFabric.Lib.Run
import DeepFabric.Lib.SortedMap

namespace DeepFabric.Distributed.VirtualKeySpace

open DeepFabric.Lib DeepFabric.Lib.Run Option
open Option (some)

inductive LogEntryAction where
  | none
  | add
  | update
  | remove
  deriving DecidableEq, Repr

structure VirtualInfo where
  vsize : Int
  minViewpoint : Nat
  maxViewpoint : Nat
  version : Int
  deriving DecidableEq, Repr

/-- A virtual log entry; its processed flag is kept beside it. -/
structure Entry (K : Type) where
  action : LogEntryAction
  key : K
  vsize : Int
  minViewpoint : Nat
  maxViewpoint : Nat
  deriving DecidableEq, Repr

variable {K : Type} [LinearOrder K]

def Entry.createVirtualInfo (e : Entry K) : VirtualInfo := ⟨e.vsize, e.minViewpoint, e.maxViewpoint, 0⟩

/-- What an UPDATE sets; the version stays. -/
def Entry.updateInfo (e : Entry K) (i : VirtualInfo) : VirtualInfo :=
  { i with vsize := e.vsize, minViewpoint := e.minViewpoint, maxViewpoint := e.maxViewpoint }

inductive Msg (K : Type) where
  | update (e : Entry K)
  | represent (k : K) (i : VirtualInfo)
  | commit
  deriving Repr

/-- Where a pass is. -/
inductive Pc where
  | idle
  | test
  | publish
  | apply
  | advance
  | commit
  deriving DecidableEq, Repr

structure St (K : Type) [LinearOrder K] where
  /-- The nodes from `m_head` on, each with its entry's processed flag. -/
  log : List (Entry K × Bool)
  /-- `m_compiledKeySpace`, empty while it is null. -/
  compiled : SortedMap K VirtualInfo
  pc : Pc
  /-- The running pass's argument and its `updateSent`. -/
  publishing : Bool
  updateSent : Bool
  appended : List (Entry K)
  applied : List (Entry K × Bool)
  sent : List (Msg K)

def init : St K := ⟨[], .empty, .idle, false, false, [], [], []⟩

/-! ## The operations -/

/-- The switch of compileKeySpace; `none` is the null dereference of an UPDATE under no entry. -/
def applyEntry (m : SortedMap K VirtualInfo) (e : Entry K) : Option (SortedMap K VirtualInfo) :=
  match e.action with
  | .none => some m
  | .add => some (m.put e.key e.createVirtualInfo)
  | .update => (m.floorEntry e.key).map fun f => m.modify f.1 e.updateInfo
  | .remove => some (m.remove e.key)

/-- setProcessed(true) on the head, then QuickList::advanceHead. -/
def advanceHead : List (Entry K × Bool) → List (Entry K × Bool)
  | [] => []
  | [(e, _)] => [(e, true)]
  | _ :: rest => rest

/-- One turn of the running pass. -/
def turn (s : St K) : Option (St K) :=
  match s.pc with
  | .idle => none
  | .test =>
    match s.log with
    | [] => some { s with pc := .commit }
    | (_, processed) :: rest =>
      if processed = false ∨ rest ≠ [] then
        some { s with pc := if processed then .advance else if s.publishing then .publish else .apply }
      else some { s with pc := .commit }
  | .publish =>
    match s.log with
    | [] => none
    | (e, _) :: _ => some { s with pc := .apply, updateSent := true, sent := s.sent ++ [.update e] }
  | .apply =>
    match s.log with
    | [] => none
    | (e, _) :: _ =>
      (applyEntry s.compiled e).map fun m =>
        { s with pc := .advance, compiled := m, applied := s.applied ++ [(e, s.publishing)] }
  | .advance => some { s with pc := .test, log := advanceHead s.log }
  | .commit => some { s with pc := .idle, sent := if s.updateSent then s.sent ++ [.commit] else s.sent }

inductive Ev (K : Type) where
  | append (es : List (Entry K))
  | compileKeySpace (publish : Bool)
  | turn
  | sendVirtualRepresentation
  deriving Repr

def step (s : St K) : Ev K → Option (St K)
  | .append es =>
    if es ≠ [] then some { s with log := s.log ++ es.map (·, false), appended := s.appended ++ es } else none
  | .compileKeySpace publish =>
    if s.pc = .idle then some { s with pc := .test, publishing := publish, updateSent := false } else none
  | .turn => turn s
  | .sendVirtualRepresentation =>
    if s.pc = .idle then
      some { s with sent := s.sent ++ s.compiled.entries.map (fun p => .represent p.1 p.2) ++ [.commit] }
    else none

/-! ## What the log means -/

/-- `j` is the greatest bound key that is not above `k`. -/
def IsFloor (m : K → Option VirtualInfo) (k j : K) : Prop :=
  (m j).isSome ∧ j ≤ k ∧ ∀ i, (m i).isSome → i ≤ k → i ≤ j

open Classical in
/-- One entry over a map: ADD binds its key, UPDATE changes the entry its key falls under, REMOVE unbinds its key. -/
noncomputable def meaning (m : K → Option VirtualInfo) (e : Entry K) : K → Option VirtualInfo :=
  match e.action with
  | .none => m
  | .add => Function.update m e.key (some e.createVirtualInfo)
  | .update => fun j => if IsFloor m e.key j then (m j).map e.updateInfo else m j
  | .remove => Function.update m e.key none

noncomputable def meaningOf (es : List (Entry K)) : K → Option VirtualInfo := es.foldl meaning fun _ => none

/-- An UPDATE that changes the entry of its own key only. -/
def applyOwn (m : SortedMap K VirtualInfo) (e : Entry K) : SortedMap K VirtualInfo :=
  match e.action with
  | .none => m
  | .add => m.put e.key e.createVirtualInfo
  | .update => m.modify e.key e.updateInfo
  | .remove => m.remove e.key

/-- The log entries among the messages. -/
def published (sent : List (Msg K)) : List (Entry K) :=
  sent.filterMap fun
    | .update e => some e
    | _ => none

/-- Key 1 is added and compiled without publishing; then key 5, which nobody added, is updated. -/
def floorTrace : List (Ev Nat) :=
  [.append [⟨.add, 1, 10, 3, 4⟩], .compileKeySpace false, .turn, .turn, .turn, .turn, .turn,
   .append [⟨.update, 5, 20, 6, 7⟩], .compileKeySpace true, .turn, .turn, .turn, .turn, .turn, .turn, .turn, .turn]

theorem isFloor_of_floorEntry {m : SortedMap K VirtualInfo} {k : K} {f : K × VirtualInfo} (h : m.floorEntry k = some f) :
    ∀ j, IsFloor m.get k j ↔ j = f.1 := by
  obtain ⟨i, w⟩ := f
  obtain ⟨hi, hik, hmax⟩ := SortedMap.floorEntry_eq_some.mp h
  intro j
  constructor
  · intro ⟨hj, hjk, hjmax⟩
    obtain ⟨v, hv⟩ := isSome_iff_exists.mp hj
    exact le_antisymm (hmax j v hv hjk) (hjmax i (by simp [hi]) hik)
  · rintro rfl
    refine ⟨by simp [hi], hik, fun a ha hak => ?_⟩
    obtain ⟨v, hv⟩ := isSome_iff_exists.mp ha
    exact hmax a v hv hak

theorem applyEntry_get {m m' : SortedMap K VirtualInfo} {e : Entry K} (h : applyEntry m e = some m') :
    m'.get = meaning m.get e := by
  unfold applyEntry at h
  unfold meaning
  cases ha : e.action with
  | none =>
    simp only [ha, some.injEq] at h ⊢
    rw [h]
  | add =>
    simp only [ha, some.injEq] at h ⊢
    subst h
    funext j
    simp [SortedMap.get_put, Function.update_apply]
  | update =>
    simp only [ha] at h ⊢
    obtain ⟨f, hf, rfl⟩ := map_eq_some_iff.mp h
    funext j
    simp [SortedMap.get_modify, isFloor_of_floorEntry hf]
  | remove =>
    simp only [ha, some.injEq] at h ⊢
    subst h
    funext j
    simp [SortedMap.get_remove, Function.update_apply]

/-! ## The invariant -/

/-- Only the head can be processed: nothing behind it has been looked at. -/
def Fresh (log : List (Entry K × Bool)) : Prop := ∀ p ∈ log.tail, p.2 = false

/-- What is in the log and not applied. Between `apply` and `advance` the head is applied and not yet marked. -/
def todo (s : St K) : List (Entry K) :=
  if s.pc = .advance then s.log.tail.map (·.1) else (s.log.filter fun p => !p.2).map (·.1)

/-- What is published and not applied. -/
def inFlight (s : St K) : List (Entry K) :=
  if s.pc = .apply ∧ s.publishing = true then (s.log.take 1).map (·.1) else []

/-- What the loop knows of the head. -/
def AtHead (s : St K) : Prop :=
  match s.pc with
  | .publish => s.publishing = true ∧ ∃ e rest, s.log = (e, false) :: rest
  | .apply => ∃ e rest, s.log = (e, false) :: rest
  | .advance => ∃ e processed rest, s.log = (e, processed) :: rest ∧ (processed = false ∨ rest ≠ [])
  | _ => True

structure Inv (s : St K) : Prop where
  fresh : Fresh s.log
  head : AtHead s
  split : s.appended = s.applied.map (·.1) ++ todo s
  compiled : s.compiled.get = meaningOf (s.applied.map (·.1))
  published : published s.sent = (s.applied.filter (·.2)).map (·.1) ++ inFlight s

theorem init_inv : Inv (init : St K) where
  fresh := fun p h => by simp [init] at h
  head := trivial
  split := rfl
  compiled := by funext j; rfl
  published := rfl

omit [LinearOrder K] in
theorem map_unprocessed (es : List (Entry K)) : (es.map (·, false)).map (·.1) = es := by simp [Function.comp_def]

omit [LinearOrder K] in
theorem filter_fresh {rest : List (Entry K × Bool)} (h : ∀ p ∈ rest, p.2 = false) : rest.filter (fun p => !p.2) = rest :=
  List.filter_eq_self.mpr fun p hp => by simp [h p hp]

omit [LinearOrder K] in
theorem published_append (a b : List (Msg K)) : published (a ++ b) = published a ++ published b :=
  List.filterMap_append

omit [LinearOrder K] in
@[simp] theorem published_update (e : Entry K) : published [.update e] = [e] := rfl

omit [LinearOrder K] in
@[simp] theorem published_commit : published [(.commit : Msg K)] = [] := rfl

omit [LinearOrder K] in
theorem published_represent (es : List (K × VirtualInfo)) : published (es.map fun p => .represent p.1 p.2) = [] := by
  simp [published, List.filterMap_map]

/-! ### Appends -/

omit [LinearOrder K] in
theorem fresh_append {log : List (Entry K × Bool)} (h : Fresh log) (es : List (Entry K)) :
    Fresh (log ++ es.map (·, false)) := by
  intro p hp
  cases log with
  | nil =>
    obtain ⟨e, -, rfl⟩ := List.mem_map.mp (List.mem_of_mem_tail hp)
    rfl
  | cons hd rest =>
    rcases List.mem_append.mp hp with hp | hp
    · exact h p hp
    · obtain ⟨e, -, rfl⟩ := List.mem_map.mp hp
      rfl

variable {s : St K}

theorem append_inv (hi : Inv s) (es : List (Entry K)) :
    Inv { s with log := s.log ++ es.map (·, false), appended := s.appended ++ es } := by
  refine ⟨fresh_append hi.fresh es, ?_, ?_, hi.compiled, ?_⟩
  · have hh := hi.head
    unfold AtHead at hh ⊢
    cases hpc : s.pc <;> simp only [hpc] at hh ⊢
    · obtain ⟨hp, e, rest, hl⟩ := hh
      exact ⟨hp, e, _, by rw [hl]; rfl⟩
    · obtain ⟨e, rest, hl⟩ := hh
      exact ⟨e, _, by rw [hl]; rfl⟩
    · obtain ⟨e, p, rest, hl, hor⟩ := hh
      exact ⟨e, p, rest ++ es.map (·, false), by rw [hl]; rfl, hor.imp id fun h => by simp [h]⟩
  · rw [hi.split, List.append_assoc]
    unfold todo
    by_cases hpc : s.pc = .advance
    · simp only [hpc, if_true]
      have hh := hi.head
      simp only [AtHead, hpc] at hh
      obtain ⟨e, p, rest, hl, -⟩ := hh
      rw [hl, List.cons_append, List.tail_cons, List.tail_cons, List.map_append, map_unprocessed]
    · simp only [hpc, if_false]
      have hnew : (es.map (·, false)).filter (fun p => !p.2) = es.map (·, false) := filter_fresh (by simp)
      rw [List.filter_append, List.map_append, hnew, map_unprocessed]
  · rw [hi.published]
    congr 1
    unfold inFlight
    by_cases hc : s.pc = .apply ∧ s.publishing = true
    · simp only [hc]
      have hh := hi.head
      simp only [AtHead, hc.1] at hh
      obtain ⟨e, rest, hl⟩ := hh
      simp [hl]
    · simp only [hc, if_false]

/-! ### Turns -/

variable {s' : St K}

theorem test_inv (hi : Inv s) (hpc : s.pc = .test) (hs : turn s = some s') : Inv s' := by
  have hsplit := hi.split
  have hpub := hi.published
  simp only [todo, inFlight, hpc] at hsplit hpub
  simp only [turn, hpc] at hs
  split at hs
  · rename_i hl
    cases hs
    exact ⟨hi.fresh, trivial, by simpa [todo] using hsplit, hi.compiled, by simpa [inFlight] using hpub⟩
  · rename_i e p rest hl
    split at hs
    · rename_i hor
      cases hs
      cases p with
      | true =>
        have hfr : ∀ q ∈ rest, q.2 = false := fun q hq => hi.fresh q (by rw [hl]; exact hq)
        refine ⟨hi.fresh, ⟨e, true, rest, hl, hor⟩, ?_, hi.compiled, ?_⟩
        · simpa [todo, hl, filter_fresh hfr] using hsplit
        · simpa [inFlight] using hpub
      | false =>
        by_cases hp : s.publishing = true
        · simp only [hp, Bool.false_eq_true, if_false, if_true]
          refine ⟨hi.fresh, ⟨rfl, e, rest, hl⟩, ?_, hi.compiled, ?_⟩
          · simpa [todo] using hsplit
          · simpa [inFlight] using hpub
        · simp only [hp, Bool.false_eq_true, if_false]
          refine ⟨hi.fresh, ⟨e, rest, hl⟩, ?_, hi.compiled, ?_⟩
          · simpa [todo] using hsplit
          · simpa [inFlight] using hpub
    · cases hs
      exact ⟨hi.fresh, trivial, by simpa [todo] using hsplit, hi.compiled, by simpa [inFlight] using hpub⟩

theorem publish_inv (hi : Inv s) (hpc : s.pc = .publish) (hs : turn s = some s') : Inv s' := by
  have hh := hi.head
  simp only [AtHead, hpc] at hh
  obtain ⟨hp, e, rest, hl⟩ := hh
  simp only [turn, hpc, hl, some.injEq] at hs
  subst hs
  refine ⟨by simpa [hl] using hi.fresh, ⟨e, rest, by simp⟩, ?_, hi.compiled, ?_⟩
  · have := hi.split
    simpa [todo, hpc, hl] using this
  · have := hi.published
    simp only [inFlight, hpc] at this
    rw [published_append, this]
    simp [inFlight, hp]

theorem apply_inv (hi : Inv s) (hpc : s.pc = .apply) (hs : turn s = some s') : Inv s' := by
  have hh := hi.head
  simp only [AtHead, hpc] at hh
  obtain ⟨e, rest, hl⟩ := hh
  simp only [turn, hpc, hl] at hs
  obtain ⟨m, hm, rfl⟩ := map_eq_some_iff.mp hs
  have hfr : ∀ q ∈ rest, q.2 = false := fun q hq => hi.fresh q (by rw [hl]; exact hq)
  refine ⟨by simpa [hl] using hi.fresh, ⟨e, false, rest, by simp⟩, ?_, ?_, ?_⟩
  · have := hi.split
    simp only [todo, hpc, hl] at this
    simpa [todo, filter_fresh hfr] using this
  · rw [applyEntry_get hm, hi.compiled]
    simp [meaningOf, List.foldl_append]
  · have := hi.published
    simp only [inFlight, hpc, hl] at this
    cases hp : s.publishing <;> simp_all [inFlight]

theorem advance_inv (hi : Inv s) (hpc : s.pc = .advance) (hs : turn s = some s') : Inv s' := by
  have hh := hi.head
  simp only [AtHead, hpc] at hh
  obtain ⟨e, p, rest, hl, -⟩ := hh
  simp only [turn, hpc, some.injEq] at hs
  subst hs
  have hfr : ∀ q ∈ rest, q.2 = false := fun q hq => hi.fresh q (by rw [hl]; exact hq)
  have hsplit := hi.split
  have hpub := hi.published
  simp only [todo, inFlight, hpc, hl] at hsplit hpub
  cases rest with
  | nil =>
    refine ⟨fun q hq => by simp [hl, advanceHead] at hq, trivial, ?_, hi.compiled, ?_⟩
    · simpa [todo, hl, advanceHead] using hsplit
    · simpa [inFlight] using hpub
  | cons q rest =>
    refine ⟨fun a ha => hfr a (List.mem_of_mem_tail (by simpa [hl, advanceHead] using ha)), trivial, ?_, hi.compiled, ?_⟩
    · have := filter_fresh hfr
      simp only [todo, hl, advanceHead, this]
      simpa using hsplit
    · simpa [inFlight] using hpub

theorem commit_inv (hi : Inv s) (hpc : s.pc = .commit) (hs : turn s = some s') : Inv s' := by
  simp only [turn, hpc, some.injEq] at hs
  subst hs
  have hsplit := hi.split
  have hpub := hi.published
  simp only [todo, inFlight, hpc] at hsplit hpub
  refine ⟨hi.fresh, trivial, by simpa [todo] using hsplit, hi.compiled, ?_⟩
  cases s.updateSent <;> simpa [inFlight, published_append] using hpub

theorem turn_inv (hi : Inv s) (hs : turn s = some s') : Inv s' := by
  cases hpc : s.pc with
  | idle => simp [turn, hpc] at hs
  | test => exact test_inv hi hpc hs
  | publish => exact publish_inv hi hpc hs
  | apply => exact apply_inv hi hpc hs
  | advance => exact advance_inv hi hpc hs
  | commit => exact commit_inv hi hpc hs

theorem step_inv {e : Ev K} (hi : Inv s) (hs : step s e = some s') : Inv s' := by
  cases e with
  | append es =>
    obtain ⟨-, ⟨⟩⟩ := ite_none_right_eq_some.mp hs
    exact append_inv hi es
  | compileKeySpace publish =>
    obtain ⟨hpc, ⟨⟩⟩ := ite_none_right_eq_some.mp hs
    have hsplit := hi.split
    have hpub := hi.published
    simp only [todo, inFlight, hpc] at hsplit hpub
    exact ⟨hi.fresh, trivial, by simpa [todo] using hsplit, hi.compiled, by simpa [inFlight] using hpub⟩
  | turn => exact turn_inv hi hs
  | sendVirtualRepresentation =>
    obtain ⟨hpc, ⟨⟩⟩ := ite_none_right_eq_some.mp hs
    have hpub := hi.published
    refine ⟨hi.fresh, hi.head, hi.split, hi.compiled, ?_⟩
    rw [published_append, published_append, hpub, published_represent, published_commit, List.append_nil, List.append_nil]
    rfl

theorem inv (h : Reach step Free init s) : Inv s := h.inv (P := Inv) init_inv fun hi _ hs => step_inv hi hs

/-! ## Passes end -/

/-- What a pass has left to do if nothing is appended: nodes to drop, entries to mark, and the turns inside one. -/
def passWork (s : St K) : Nat :=
  5 * (s.log.length + (s.log.filter fun p => !p.2).length) +
    match s.pc with
    | .idle => 0
    | .advance => 1
    | .commit => 1
    | .apply => 2
    | .publish => 3
    | .test => 4

omit [LinearOrder K] in
theorem advanceHead_shrinks {e : Entry K} {p : Bool} {rest : List (Entry K × Bool)} (h : p = false ∨ rest ≠ []) :
    (advanceHead ((e, p) :: rest)).length + ((advanceHead ((e, p) :: rest)).filter fun p => !p.2).length <
      ((e, p) :: rest).length + (((e, p) :: rest).filter fun p => !p.2).length := by
  cases rest with
  | nil =>
    have hp : p = false := h.resolve_right (by simp)
    simp [advanceHead, hp]
  | cons q rest =>
    cases p with
    | true => simp [advanceHead]
    | false => simp [advanceHead]; omega

theorem turn_decreases (hi : Inv s) (hs : turn s = some s') : passWork s' < passWork s := by
  have hh := hi.head
  unfold turn at hs
  cases hpc : s.pc with
  | idle => simp [hpc] at hs
  | test =>
    simp only [hpc] at hs
    split at hs
    · cases hs; simp [passWork, hpc]
    · split at hs
      · cases hs
        simp only [passWork, hpc]
        split_ifs <;> simp
      · cases hs; simp [passWork, hpc]
  | publish =>
    simp only [hpc] at hs
    split at hs
    · cases hs
    · cases hs; simp [passWork, hpc]
  | apply =>
    simp only [hpc] at hs
    split at hs
    · cases hs
    · obtain ⟨m, -, rfl⟩ := map_eq_some_iff.mp hs
      simp [passWork, hpc]
  | advance =>
    simp only [AtHead, hpc] at hh
    obtain ⟨e, p, rest, hl, hor⟩ := hh
    have := advanceHead_shrinks (e := e) hor
    simp only [hpc, some.injEq] at hs
    subst hs
    simp only [passWork, hpc, hl]
    omega
  | commit =>
    simp only [hpc, some.injEq] at hs
    subst hs
    simp [passWork, hpc]

theorem leaves_loop (hpc : s.pc = .test) (hs : turn s = some s') (hc : s'.pc = .commit) :
    s.log.filter (fun p => !p.2) = [] := by
  simp only [turn, hpc] at hs
  split at hs
  · rename_i hl; simp [hl]
  · rename_i e p rest hl
    split at hs
    · cases hs
      simp only at hc
      split_ifs at hc
    · rename_i hn
      simp only [not_or, Bool.not_eq_false, ne_eq, not_not] at hn
      simp [hl, hn.1, hn.2]

/-! ## Exactly once, in order -/

/-- Two writers and two passes, the first of them not publishing; an append falls inside the second. -/
def twoPasses : List (Ev Nat) :=
  [.append [⟨.add, 1, 10, 3, 4⟩], .compileKeySpace false, .turn, .turn, .turn, .turn, .turn, .sendVirtualRepresentation,
   .append [⟨.update, 1, 20, 3, 9⟩], .compileKeySpace true, .turn, .turn, .append [⟨.remove, 1, 0, 0, 0⟩], .turn, .turn,
   .turn, .turn, .turn, .turn, .turn, .turn, .turn, .turn]

end DeepFabric.Distributed.VirtualKeySpace
