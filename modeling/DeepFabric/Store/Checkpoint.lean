/-
  DeepFabric.Store.Checkpoint — where a checkpoint cuts the log
  (core/RealTimeMap.h: commit; core/RealTimeMap.cxx: selectCheckpointLocality, commitCacheMemory,
  isolateCheckpoint), for a primary map.

  A commit takes the request lock for reading, counts itself as pending, writes its log group and
  lets the lock go. Then it stamps its versions in memory, key by key, and takes itself off the
  count. A checkpoint takes the request lock for writing, waits until nothing is pending (or gives
  up), draws a viewpoint and takes the end of the log. The viewpoint sequence belongs to all maps:
  others draw from it too.

  A version that is written over gets the current viewpoint as its limit, one that is put the next
  viewpoint. A key is written by one transaction at a time. Where a transaction inserts a key and
  writes it again behind a savepoint, the inserted version becomes a committed one that is deleted,
  and its viewpoint and limit are zero. What is written behind a savepoint that is undone is left out.

  `Cell` adds to a version the place of its writer in the log and that of the transaction that
  ended it; the log has for every transaction what it does to a key.

  - `inserted_twice`: such an insert after a checkpoint is selected by it.
  - `step_inv` / `inv`, `checkpoint_cut`: in every run without one, a checkpoint's viewpoint
    separates the versions as its place in the log does, and isolateCheckpoint gives the effect of
    the log up to there.
-/
import Mathlib.Data.List.Basic
import DeepFabric.Lib.Run
import DeepFabric.Store.Information

namespace DeepFabric.Store.Checkpoint

open DeepFabric.Lib.Run Information List Option Function
open Function (update)

variable {K V : Type} [DecidableEq K]

structure Cell (V : Type) where
  info : Information V
  /-- The length of the log with its writer, 0 if it was loaded. -/
  writer : Nat
  ended : Option Nat
  deriving DecidableEq, Repr

/-- What a transaction is about to do to a key: a put or a delete, over a version of its own if `root` is one. -/
structure Pending (V : Type) where
  op : Option V
  root : Option V
  /-- The version it writes over has been dealt with. -/
  terminated : Bool
  deriving DecidableEq, Repr

inductive Phase where
  | idle
  | active
  /-- With the request lock for reading. -/
  | entered
  | counted
  | logged
  /-- Without it, in commitCacheMemory. -/
  | stamping
  | done
  deriving DecidableEq, Repr

/-- Who has the request lock for writing, if not none. -/
inductive Request where
  | none
  | waiting
  /-- Nothing was pending. -/
  | clear
  | drawn (viewpoint : Nat)
  deriving DecidableEq, Repr

structure Tx (K : Type) where
  phase : Phase
  keys : List K
  /-- The length of the log with it. -/
  place : Nat
  deriving Repr

structure St (K V : Type) where
  cells : K → List (Cell V)
  pending : K → Option (Nat × Pending V)
  tx : Nat → Tx K
  log : List (K → Option (Option V))
  readers : Nat
  request : Request
  pendingCommits : Nat
  viewpointSequence : Nat
  /-- The length of the log and the viewpoint. -/
  checkpoints : List (Nat × Nat)

def init (loaded : K → Option V) : St K V where
  cells k := ((loaded k).map fun v => ⟨⟨v, levelCommit, false, false, false, 0, 0⟩, 0, none⟩).toList
  pending _ := none
  tx _ := ⟨.idle, [], 0⟩
  log := []
  readers := 0
  request := .none
  pendingCommits := 0
  viewpointSequence := 0
  checkpoints := []

inductive Ev (K V : Type) where
  | begin (t : Nat)
  /-- Somebody else draws a viewpoint. -/
  | draw
  /-- A put or a delete; `deeper`: behind a savepoint opened since the transaction last wrote the key. -/
  | write (t : Nat) (k : K) (op : Option V) (deeper : Bool)
  | rollback (t : Nat)
  | enter (t : Nat)
  | count (t : Nat)
  | append (t : Nat)
  | leave (t : Nat)
  | terminate (t : Nat) (k : K)
  | stamp (t : Nat) (k : K)
  | finish (t : Nat)
  | request
  | giveUp
  | clear
  | nextViewpoint
  | sample
  deriving Repr

/-- The value of a key that is not deleted. -/
def view (cells : List (Cell V)) : Option V :=
  cells.getLast?.bind fun c => if c.ended.isSome then none else some c.info.data

/-- The first write of a key by a transaction, or one over its own. There is nothing to delete where the key is not, and an
    insert and a delete on one level leave nothing to stamp. -/
def pend (cells : List (Cell V)) (op : Option V) (deeper : Bool) : Option (Pending V) → Option (Pending V)
  | none => if op.isNone ∧ (view cells).isNone then none else some ⟨op, none, false⟩
  | some p =>
    if op.isNone ∧ p.op.isNone then some p
    else if op.isNone ∧ cells = [] ∧ p.root.isNone ∧ deeper = false then none
    else some { p with op := op, root := if cells = [] ∧ p.root.isNone ∧ deeper then p.op else p.root }

/-- The version that is written over, in the delete and the update branch of commitCacheMemory. -/
def endVersion (current place : Nat) (c : Cell V) : Cell V :=
  if c.info.deleting then c
  else { c with info := { c.info.reset c.info.viewpoint current true with deleting := true }, ended := some place }

def setTx (s : St K V) (t : Nat) (phase : Phase) : St K V :=
  { s with tx := update s.tx t { s.tx t with phase := phase } }

def setKey (s : St K V) (k : K) (cells : List (Cell V)) (p : Option (Nat × Pending V)) : St K V :=
  { s with cells := update s.cells k cells, pending := update s.pending k p }

def endLast (current place : Nat) (cells : List (Cell V)) : List (Cell V) :=
  cells.dropLast ++ (cells.getLast?.map (endVersion current place)).toList

/-- The version that is put. -/
def stamped (current place : Nat) (v : V) : Cell V :=
  ⟨⟨v, levelCommit, false, false, false, current + 1, 0⟩, place, none⟩

def step (s : St K V) : Ev K V → Option (St K V)
  | .begin t =>
    if (s.tx t).phase = .idle then some (setTx { s with viewpointSequence := s.viewpointSequence + 1 } t .active) else none
  | .draw => some { s with viewpointSequence := s.viewpointSequence + 1 }
  | .write t k op deeper =>
    if (s.tx t).phase = .active ∧ (s.pending k).all (fun e => e.1 = t) then
      some { s with
        pending := update s.pending k ((pend (s.cells k) op deeper ((s.pending k).map (·.2))).map (t, ·))
        tx := update s.tx t { s.tx t with keys := k :: (s.tx t).keys } }
    else none
  | .rollback t =>
    if (s.tx t).phase = .active then
      some (setTx { s with pending := fun k => if (s.pending k).any (fun e => e.1 = t) then none else s.pending k } t .done)
    else none
  | .enter t =>
    if (s.tx t).phase = .active ∧ s.request = .none then some (setTx { s with readers := s.readers + 1 } t .entered) else none
  | .count t =>
    if (s.tx t).phase = .entered then some (setTx { s with pendingCommits := s.pendingCommits + 1 } t .counted) else none
  | .append t =>
    if (s.tx t).phase = .counted then
      some { s with
        log := s.log ++ [fun k => (s.pending k).bind fun e => if e.1 = t then some e.2.op else none]
        tx := update s.tx t { s.tx t with phase := .logged, place := s.log.length + 1 } }
    else none
  | .leave t =>
    if (s.tx t).phase = .logged then some (setTx { s with readers := s.readers - 1 } t .stamping) else none
  | .terminate t k =>
    match s.pending k with
    | some (owner, p) =>
      if owner = t ∧ (s.tx t).phase = .stamping ∧ p.terminated = false ∧ (s.cells k ≠ [] ∨ p.root.isSome) then
        let cells :=
          if s.cells k ≠ [] then endLast s.viewpointSequence (s.tx t).place (s.cells k)
          -- a version of the transaction itself: reset without commit
          else (p.root.map fun v => ⟨⟨v, levelCommit, false, false, true, 0, 0⟩, (s.tx t).place, some (s.tx t).place⟩).toList
        some (setKey s k cells (if p.op.isNone then none else some (owner, { p with terminated := true })))
      else none
    | none => none
  | .stamp t k =>
    match s.pending k with
    | some (owner, ⟨some v, root, terminated⟩) =>
      if owner = t ∧ (s.tx t).phase = .stamping ∧ (terminated ∨ s.cells k = [] ∧ root.isNone) then
        some (setKey s k (s.cells k ++ [stamped s.viewpointSequence (s.tx t).place v]) none)
      else none
    | _ => none
  | .finish t =>
    if (s.tx t).phase = .stamping ∧ ∀ k ∈ (s.tx t).keys, (s.pending k).all (fun e => e.1 ≠ t) then
      some (setTx { s with pendingCommits := s.pendingCommits - 1 } t .done)
    else none
  | .request => if s.request = .none ∧ s.readers = 0 then some { s with request := .waiting } else none
  | .giveUp => if s.request = .waiting then some { s with request := .none } else none
  | .clear => if s.request = .waiting ∧ s.pendingCommits = 0 then some { s with request := .clear } else none
  | .nextViewpoint =>
    if s.request = .clear then
      some { s with request := .drawn (s.viewpointSequence + 1), viewpointSequence := s.viewpointSequence + 1 }
    else none
  | .sample =>
    match s.request with
    | .drawn viewpoint =>
      some { s with checkpoints := (s.log.length, viewpoint) :: s.checkpoints, request := .none }
    | _ => none

/-! ## What a checkpoint selects -/

/-- The newest version that is not above the viewpoint. -/
def walkCheckpoint (viewpoint : Nat) (cur : List (Information V)) : List (Information V) → List (Information V)
  | [] => cur
  | next :: rest =>
    if next.level ≠ levelCommit then cur
    else if next.viewpoint ≤ viewpoint ∧ cur.head?.all (fun c => next.viewpoint ≥ c.viewpoint) then
      walkCheckpoint viewpoint (next :: rest) rest
    else walkCheckpoint viewpoint cur rest

def isolateCheckpoint (topinfo : List (Information V)) (viewpoint : Nat) : Option (Information V) :=
  match walkCheckpoint viewpoint [] topinfo with
  | [] => none
  | curinfo :: rest =>
    if curinfo.deleting ∧ rest.head?.all (fun next => next.level ≠ levelCommit) ∧ curinfo.limit = 0 then none
    else if curinfo.limit > 0 ∧ viewpoint > curinfo.limit then none
    else some curinfo

/-- What the log leaves of a key. -/
def effect (loaded : K → Option V) (log : List (K → Option (Option V))) (k : K) : Option V :=
  log.foldl (fun v e => (e k).getD v) (loaded k)

/-- The viewpoint of a checkpoint separates the versions as its place does, and selects what the log up to there leaves. -/
def Consistent (loaded : K → Option V) (s : St K V) : Prop :=
  ∀ cp ∈ s.checkpoints, ∀ k,
    (∀ c ∈ s.cells k, c.writer ≤ cp.1 ↔ c.info.viewpoint ≤ cp.2)
      ∧ (isolateCheckpoint ((s.cells k).map (·.info)) cp.2).map (·.data) = effect loaded (s.log.take cp.1) k

/-- 1 puts key 7, opens a savepoint and puts it again, all after a checkpoint. -/
def twiceTrace : List (Ev Nat Nat) :=
  [.request, .clear, .nextViewpoint, .sample, .begin 1, .write 1 7 (some 3) false, .write 1 7 (some 4) true, .enter 1, .count 1, .append 1, .leave 1,
   .terminate 1 7, .stamp 1 7, .finish 1]

/-- A transaction does not write a key that it has inserted behind a savepoint. -/
def StampSafe (s : St K V) : Ev K V → Prop
  | .write _ k _ deeper => (s.pending k).isSome → s.cells k = [] → deeper = false
  | _ => True

/-- The value of a key at a place in the log. -/
def viewAt (n : Nat) (cells : List (Cell V)) : Option V :=
  (cells.filter (·.writer ≤ n)).getLast?.bind fun c => if c.ended.any (· ≤ n) then none else some c.info.data

structure CellsOk (place current : Nat) (cells : List (Cell V)) : Prop where
  committed : ∀ c ∈ cells, c.info.level = levelCommit
  sorted : cells.Pairwise fun a b => a.writer < b.writer ∧ a.info.viewpoint ≤ b.info.viewpoint
  bounds : ∀ c ∈ cells, c.writer ≤ place ∧ c.info.viewpoint ≤ current + 1
  live : ∀ c ∈ cells, c.ended = none → c.info.deleting = false ∧ c.info.limit = 0
  ended : ∀ c ∈ cells, ∀ d, c.ended = some d → c.info.deleting = true ∧ 0 < c.info.limit ∧ c.info.limit ≤ current ∧ d ≤ place

/-- A place in the log and a viewpoint separate the versions, and their ends, in one way. -/
structure Cut (n viewpoint : Nat) (cells : List (Cell V)) : Prop where
  versions : ∀ c ∈ cells, c.writer ≤ n ↔ c.info.viewpoint ≤ viewpoint
  ends : ∀ c ∈ cells, ∀ d, c.ended = some d → (d ≤ n ↔ c.info.limit < viewpoint)

theorem head?_walkCheckpoint {n viewpoint : Nat} {cells : List (Cell V)} (hc : ∀ c ∈ cells, c.info.level = levelCommit)
    (hs : cells.Pairwise fun a b => a.info.viewpoint ≤ b.info.viewpoint)
    (hcut : ∀ c ∈ cells, c.writer ≤ n ↔ c.info.viewpoint ≤ viewpoint) (cur : List (Information V))
    (hcur : ∀ i, cur.head? = some i → ∀ c ∈ cells, i.viewpoint ≤ c.info.viewpoint) :
    (walkCheckpoint viewpoint cur (cells.map (·.info))).head?
      = ((cells.filter (·.writer ≤ n)).getLast?.map (·.info)).or cur.head? := by
  induction cells generalizing cur with
  | nil => rfl
  | cons c cells ih =>
    obtain ⟨hsc, hs⟩ := pairwise_cons.mp hs
    have hrest : ∀ x ∈ cells, x.info.level = levelCommit := (forall_mem_cons.mp hc).2
    have hcutr : ∀ x ∈ cells, x.writer ≤ n ↔ x.info.viewpoint ≤ viewpoint := (forall_mem_cons.mp hcut).2
    have hcommit : ¬c.info.level ≠ levelCommit := fun h => h (hc c mem_cons_self)
    have hge : cur.head?.all (fun i => c.info.viewpoint ≥ i.viewpoint) = true := by
      cases h : cur.head? with
      | none => rfl
      | some i => simpa using hcur i h c mem_cons_self
    rw [map_cons, walkCheckpoint, if_neg hcommit]
    by_cases hn : c.writer ≤ n
    · rw [if_pos ⟨(hcut c mem_cons_self).mp hn, hge⟩, filter_cons_of_pos (by simpa using hn), List.getLast?_cons]
      rw [ih hrest hs hcutr (c.info :: cells.map (·.info))]
      · cases (cells.filter (·.writer ≤ n)).getLast? <;> rfl
      · intro i hi x hx
        cases hi
        exact hsc x hx
    · rw [if_neg fun h => hn ((hcut c mem_cons_self).mpr h.1), filter_cons_of_neg (by simpa using hn)]
      exact ih hrest hs hcutr cur fun i hi x hx => hcur i hi x (mem_cons_of_mem _ hx)

theorem isolateCheckpoint_eq {n viewpoint place current : Nat} {cells : List (Cell V)} (hok : CellsOk place current cells)
    (hcut : Cut n viewpoint cells) :
    (isolateCheckpoint (cells.map (·.info)) viewpoint).map (·.data) = viewAt n cells := by
  have hhead := head?_walkCheckpoint (n := n) hok.committed (hok.sorted.imp fun h => h.2) hcut.versions []
    fun i h => by cases h
  unfold isolateCheckpoint viewAt
  cases hlast : (cells.filter (·.writer ≤ n)).getLast? with
  | none =>
    rw [hlast] at hhead
    rw [List.head?_eq_none_iff.mp hhead]
    rfl
  | some c =>
    rw [hlast] at hhead
    obtain ⟨rest, hw⟩ := List.head?_eq_some_iff.mp hhead
    rw [hw]
    have hmem : c ∈ cells := (mem_filter.mp (mem_of_getLast? hlast)).1
    cases hend : c.ended with
    | none =>
      obtain ⟨hd, hl⟩ := hok.live c hmem hend
      simp [hd, hl, hend]
    | some d =>
      obtain ⟨hd, hpos, -, -⟩ := hok.ended c hmem d hend
      have hiff := hcut.ends c hmem d hend
      simp only [hd, show c.info.limit ≠ 0 from Nat.pos_iff_ne_zero.mp hpos, and_false, if_false, hend,
        bind_some, any_some, decide_eq_true_eq]
      by_cases hdn : d ≤ n
      · rw [if_pos ⟨hpos, hiff.mp hdn⟩, if_pos hdn]
        rfl
      · rw [if_neg fun h => hdn (hiff.mpr h.2), if_neg hdn]
        rfl

section Cells
variable {place current p n viewpoint : Nat} {cells : List (Cell V)}

theorem CellsOk.mono (h : CellsOk place current cells) {place' current' : Nat} (hp : place ≤ place') (hc : current ≤ current') :
    CellsOk place' current' cells where
  committed := h.committed
  sorted := h.sorted
  bounds c hm := by
    have := h.bounds c hm
    omega
  live := h.live
  ended c hm d hd := by
    obtain ⟨h1, h2, h3, h4⟩ := h.ended c hm d hd
    exact ⟨h1, h2, by omega, by omega⟩

theorem endLast_concat (init : List (Cell V)) (c : Cell V) : endLast current p (init ++ [c]) = init ++ [endVersion current p c] := by
  simp [endLast]

/-- The version at the end of the storyline is ended, unless it is deleted. -/
theorem CellsOk.endVersion {c : Cell V} (h : CellsOk place current [c]) :
    endVersion current p c = c ∧ c.ended.isSome = true
      ∨ c.ended = none ∧ endVersion current p c
        = { c with info := { c.info with limit := current, deleting := true }, ended := some p } := by
  unfold Checkpoint.endVersion
  cases hend : c.ended with
  | none =>
    rw [(h.live c mem_cons_self hend).1, if_neg Bool.false_ne_true]
    exact .inr ⟨rfl, rfl⟩
  | some d =>
    rw [(h.ended c mem_cons_self d hend).1, if_pos rfl]
    exact .inl ⟨rfl, rfl⟩

theorem CellsOk.of_mem (h : CellsOk place current cells) {c : Cell V} (hc : c ∈ cells) : CellsOk place current [c] where
  committed x hx := h.committed x (by rwa [mem_singleton.mp hx])
  sorted := pairwise_singleton _ _
  bounds x hx := h.bounds x (by rwa [mem_singleton.mp hx])
  live x hx := h.live x (by rwa [mem_singleton.mp hx])
  ended x hx := h.ended x (by rwa [mem_singleton.mp hx])

/-- What holds of the versions and of the ended one holds behind the end. -/
theorem forall_endLast {P : Cell V → Prop} (hall : ∀ c ∈ cells, P c)
    (hlast : ∀ c ∈ cells, P (endVersion current p c)) : ∀ c ∈ endLast current p cells, P c := by
  rcases eq_nil_or_concat cells with rfl | ⟨init, c, rfl⟩
  · exact fun c hc => absurd hc not_mem_nil
  · rw [concat_eq_append, endLast_concat]
    rw [concat_eq_append] at hall hlast
    intro x hx
    rcases mem_append.mp hx with hx | hx
    · exact hall x (mem_append_left _ hx)
    · rw [mem_singleton.mp hx]
      exact hlast c (mem_append_right _ (mem_singleton_self c))

theorem endLast_ok (h : CellsOk place current cells) (hp : p ≤ place) (h0 : 0 < current) :
    CellsOk place current (endLast current p cells) := by
  have hcase : ∀ c ∈ cells, endVersion current p c = c ∧ c.ended.isSome = true
      ∨ c.ended = none ∧ endVersion current p c
        = { c with info := { c.info with limit := current, deleting := true }, ended := some p } :=
    fun c hc => (h.of_mem hc).endVersion
  refine ⟨forall_endLast h.committed ?_, ?_, forall_endLast h.bounds ?_, forall_endLast h.live ?_, forall_endLast h.ended ?_⟩
  · intro c hc
    rcases hcase c hc with ⟨heq, -⟩ | ⟨-, heq⟩ <;> rw [heq] <;> exact h.committed c hc
  · rcases eq_nil_or_concat cells with rfl | ⟨init, c, rfl⟩
    · exact List.Pairwise.nil
    · rw [concat_eq_append] at h hcase ⊢
      rw [endLast_concat]
      obtain ⟨h1, -, h3⟩ := pairwise_append.mp h.sorted
      refine pairwise_append.mpr ⟨h1, pairwise_singleton _ _, fun a ha b hb => ?_⟩
      have := h3 a ha c (mem_singleton_self c)
      rw [mem_singleton.mp hb]
      rcases hcase c (mem_append_right _ (mem_singleton_self c)) with ⟨heq, -⟩ | ⟨-, heq⟩ <;> rw [heq] <;> exact this
  · intro c hc
    rcases hcase c hc with ⟨heq, -⟩ | ⟨-, heq⟩ <;> rw [heq] <;> exact h.bounds c hc
  · intro c hc hnone
    rcases hcase c hc with ⟨heq, hsome⟩ | ⟨-, heq⟩
    · rw [heq] at hnone
      rw [hnone] at hsome
      cases hsome
    · rw [heq] at hnone
      cases hnone
  · intro c hc d hd
    rcases hcase c hc with ⟨heq, -⟩ | ⟨-, heq⟩
    · rw [heq] at hd ⊢
      exact h.ended c hc d hd
    · rw [heq] at hd ⊢
      cases hd
      exact ⟨rfl, h0, Nat.le_refl _, hp⟩

theorem endLast_cut (h : CellsOk place current cells) (hc : Cut n viewpoint cells) (hn : n < p) (hv : viewpoint ≤ current) :
    Cut n viewpoint (endLast current p cells) := by
  refine ⟨forall_endLast hc.versions ?_, forall_endLast hc.ends ?_⟩
  · intro c hm
    rcases (h.of_mem hm).endVersion (p := p) with ⟨heq, -⟩ | ⟨-, heq⟩ <;> rw [heq] <;> exact hc.versions c hm
  · intro c hm d hd
    rcases (h.of_mem hm).endVersion (p := p) with ⟨heq, -⟩ | ⟨-, heq⟩
    · rw [heq] at hd ⊢
      exact hc.ends c hm d hd
    · rw [heq] at hd ⊢
      cases hd
      show p ≤ n ↔ current < viewpoint
      omega

/-- An end behind a place in the log does not show there. -/
theorem viewAt_endLast (h : CellsOk place current cells) (hn : n < p) : viewAt n (endLast current p cells) = viewAt n cells := by
  rcases eq_nil_or_concat cells with rfl | ⟨init, c, rfl⟩
  · rfl
  · rw [concat_eq_append] at h ⊢
    rw [endLast_concat]
    rcases (h.of_mem (mem_append_right _ (mem_singleton_self c))).endVersion (p := p) with ⟨heq, -⟩ | ⟨hnone, heq⟩
    · rw [heq]
    · rw [heq]
      unfold viewAt
      rw [filter_append, filter_append]
      by_cases hw : c.writer ≤ n
      · simp [hw, hnone, hn]
      · simp [hw]

theorem view_endLast (h : CellsOk place current cells) (hne : cells ≠ []) : view (endLast current p cells) = none := by
  rcases eq_nil_or_concat cells with rfl | ⟨init, c, rfl⟩
  · exact absurd rfl hne
  · rw [concat_eq_append] at h ⊢
    rw [endLast_concat]
    unfold view
    rw [List.getLast?_concat, bind_some]
    rcases (h.of_mem (mem_append_right _ (mem_singleton_self c))).endVersion (p := p) with ⟨heq, hsome⟩ | ⟨-, heq⟩
    · rw [heq, if_pos hsome]
    · rw [heq]
      rfl

theorem concat_ok (h : CellsOk place current cells) (hw : ∀ c ∈ cells, c.writer < p) (hp : p ≤ place) (v : V) :
    CellsOk place current (cells ++ [stamped current p v]) := by
  refine ⟨?_, ?_, ?_, ?_, ?_⟩
  · exact forall_mem_append.mpr ⟨h.committed, forall_mem_singleton.mpr rfl⟩
  · refine pairwise_append.mpr ⟨h.sorted, pairwise_singleton _ _, fun a ha b hb => ?_⟩
    rw [mem_singleton.mp hb]
    exact ⟨hw a ha, (h.bounds a ha).2⟩
  · exact forall_mem_append.mpr ⟨h.bounds, forall_mem_singleton.mpr ⟨hp, Nat.le_refl _⟩⟩
  · exact forall_mem_append.mpr ⟨h.live, forall_mem_singleton.mpr fun _ => ⟨rfl, rfl⟩⟩
  · exact forall_mem_append.mpr ⟨h.ended, forall_mem_singleton.mpr fun d hd => by cases hd⟩

theorem concat_cut (hc : Cut n viewpoint cells) (hn : n < p) (hv : viewpoint ≤ current) (v : V) :
    Cut n viewpoint (cells ++ [stamped current p v]) := by
  refine ⟨forall_mem_append.mpr ⟨hc.versions, forall_mem_singleton.mpr ?_⟩,
    forall_mem_append.mpr ⟨hc.ends, forall_mem_singleton.mpr fun d hd => by cases hd⟩⟩
  show p ≤ n ↔ current + 1 ≤ viewpoint
  omega

theorem viewAt_concat (hn : n < p) (v : V) : viewAt n (cells ++ [stamped current p v]) = viewAt n cells := by
  have hnil : [stamped current p v].filter (·.writer ≤ n) = [] :=
    filter_eq_nil_iff.mpr (forall_mem_singleton.mpr fun h => Nat.not_le.mpr hn (of_decide_eq_true h))
  unfold viewAt
  rw [filter_append, hnil, append_nil]

theorem view_concat (v : V) : view (cells ++ [stamped current p v]) = some v := by
  unfold view
  rw [List.getLast?_concat]
  rfl

theorem viewAt_length (h : CellsOk place current cells) : viewAt place cells = view cells := by
  unfold viewAt view
  rw [filter_eq_self.mpr fun c hc => decide_eq_true (h.bounds c hc).1]
  cases hlast : cells.getLast? with
  | none => rfl
  | some c =>
    show (if c.ended.any (· ≤ place) then none else some c.info.data) = if c.ended.isSome then none else some c.info.data
    cases hend : c.ended with
    | none => rfl
    | some d =>
      have := (h.ended c (mem_of_getLast? hlast) d hend).2.2.2
      simp [this]

/-- Nothing is behind the end of the log, or behind a viewpoint above all. -/
theorem cut_length (h : CellsOk place current cells)
    (hv : ∀ c ∈ cells, c.info.viewpoint ≤ viewpoint ∧ c.info.limit < viewpoint) : Cut place viewpoint cells where
  versions c hc := iff_of_true (h.bounds c hc).1 (hv c hc).1
  ends c hc d hd := iff_of_true (h.ended c hc d hd).2.2.2 (hv c hc).2

end Cells

/-! ## The locks -/

def Phase.inFlight : Phase → Bool
  | .counted | .logged | .stamping => true
  | _ => false

def Phase.reading : Phase → Bool
  | .entered | .counted | .logged => true
  | _ => false

def Phase.isLogged : Phase → Bool
  | .logged | .stamping => true
  | _ => false

def Phase.isOpen : Phase → Bool
  | .idle | .done => false
  | _ => true

theorem inFlight_of_isLogged {p : Phase} (h : p.isLogged = true) : p.inFlight = true := by
  cases p <;> first | rfl | cases h

structure Locks (s : St K V) : Prop where
  pending : Counts (fun t => (s.tx t).phase.inFlight = true) s.pendingCommits
  readers : Counts (fun t => (s.tx t).phase.reading = true) s.readers
  exclusive : s.request ≠ .none → s.readers = 0
  /-- From the moment the checkpoint has seen it. -/
  quiet : s.request ≠ .none → s.request ≠ .waiting → s.pendingCommits = 0

section Phases
omit [DecidableEq K]
variable {f : Phase → Bool} {tx : Nat → Tx K} {t n : Nat} {x : Tx K}

theorem counts_same (h : Counts (fun u => f (tx u).phase = true) n) (hx : f x.phase = f (tx t).phase) :
    Counts (fun u => f (update tx t x u).phase = true) n := by
  refine h.congr fun u => ?_
  by_cases hu : u = t
  · subst hu
    rw [update_self, hx]
  · rw [update_of_ne hu]

theorem counts_up (h : Counts (fun u => f (tx u).phase = true) n) (ht : f (tx t).phase = false) (hx : f x.phase = true) :
    Counts (fun u => f (update tx t x u).phase = true) (n + 1) := by
  refine h.up (a := t) (by simp [ht]) fun u => ?_
  by_cases hu : u = t
  · subst hu
    simp [hx]
  · simp [hu]

theorem counts_down (h : Counts (fun u => f (tx u).phase = true) n) (ht : f (tx t).phase = true) (hx : f x.phase = false) :
    Counts (fun u => f (update tx t x u).phase = true) (n - 1) := by
  refine h.down (a := t) ht fun u => ?_
  by_cases hu : u = t
  · subst hu
    simp [hx]
  · simp [hu]

end Phases

omit [DecidableEq K] in
theorem init_locks (loaded : K → Option V) : Locks (init loaded) where
  pending := ⟨[], nodup_nil, rfl, fun t => by simp [init, Phase.inFlight]⟩
  readers := ⟨[], nodup_nil, rfl, fun t => by simp [init, Phase.reading]⟩
  exclusive h := absurd rfl h
  quiet h := absurd rfl h

section Steps
variable {loaded : K → Option V} {s s' : St K V}

omit [DecidableEq K] in
theorem move_locks (h : Locks s) {t : Nat} {x : Tx K} (htx : s'.tx = update s.tx t x)
    (hp : x.phase.inFlight = (s.tx t).phase.inFlight) (hr : x.phase.reading = (s.tx t).phase.reading)
    (hpend : s'.pendingCommits = s.pendingCommits) (hread : s'.readers = s.readers) (hreq : s'.request = s.request) :
    Locks s' where
  pending := by
    rw [htx, hpend]
    exact counts_same h.pending hp
  readers := by
    rw [htx, hread]
    exact counts_same h.readers hr
  exclusive := by
    rw [hreq, hread]
    exact h.exclusive
  quiet := by
    rw [hreq, hpend]
    exact h.quiet

omit [DecidableEq K] in
theorem still_locks (h : Locks s) (htx : s'.tx = s.tx)
    (hpend : s'.pendingCommits = s.pendingCommits) (hread : s'.readers = s.readers) (hreq : s'.request = s.request) :
    Locks s' :=
  move_locks h (t := 0) (by rw [htx, update_eq_self]) rfl rfl hpend hread hreq

omit [DecidableEq K] in
theorem Locks.none_of_reading (h : Locks s) {t : Nat} (ht : (s.tx t).phase.reading = true) : s.request = .none := by
  by_contra hne
  have hzero := h.readers
  rw [h.exclusive hne] at hzero
  exact hzero.zero t ht

omit [DecidableEq K] in
theorem Locks.not_inFlight (h : Locks s) (hz : s.pendingCommits = 0) (t : Nat) : ¬(s.tx t).phase.inFlight = true := by
  have hzero := h.pending
  rw [hz] at hzero
  exact hzero.zero t

theorem step_locks {e : Ev K V} (h : Locks s) (hstep : step s e = some s') : Locks s' := by
  cases e with
  | begin t =>
    obtain ⟨hph, ⟨⟩⟩ := ite_none_right_eq_some.mp hstep
    exact move_locks h rfl (by rw [hph]; rfl) (by rw [hph]; rfl) rfl rfl rfl
  | draw =>
    cases hstep
    exact still_locks h rfl rfl rfl rfl
  | write t k op deeper =>
    obtain ⟨-, ⟨⟩⟩ := ite_none_right_eq_some.mp hstep
    exact move_locks h rfl rfl rfl rfl rfl rfl
  | rollback t =>
    obtain ⟨hph, ⟨⟩⟩ := ite_none_right_eq_some.mp hstep
    exact move_locks h rfl (by rw [hph]; rfl) (by rw [hph]; rfl) rfl rfl rfl
  | enter t =>
    obtain ⟨⟨hph, hreq⟩, ⟨⟩⟩ := ite_none_right_eq_some.mp hstep
    exact ⟨counts_same h.pending (by rw [hph]; rfl), counts_up h.readers (by rw [hph]; rfl) rfl,
      fun hne => absurd hreq hne, fun hne => absurd hreq hne⟩
  | count t =>
    obtain ⟨hph, ⟨⟩⟩ := ite_none_right_eq_some.mp hstep
    have hnone := h.none_of_reading (t := t) (by rw [hph]; rfl)
    exact ⟨counts_up h.pending (by rw [hph]; rfl) rfl, counts_same h.readers (by rw [hph]; rfl), h.exclusive,
      fun hne => absurd hnone hne⟩
  | append t =>
    obtain ⟨hph, ⟨⟩⟩ := ite_none_right_eq_some.mp hstep
    exact move_locks h rfl (by rw [hph]; rfl) (by rw [hph]; rfl) rfl rfl rfl
  | leave t =>
    obtain ⟨hph, ⟨⟩⟩ := ite_none_right_eq_some.mp hstep
    have hnone := h.none_of_reading (t := t) (by rw [hph]; rfl)
    exact ⟨counts_same h.pending (by rw [hph]; rfl), counts_down h.readers (by rw [hph]; rfl) rfl,
      fun hne => absurd hnone hne, h.quiet⟩
  | terminate t k =>
    simp only [step] at hstep
    split at hstep
    · obtain ⟨-, ⟨⟩⟩ := ite_none_right_eq_some.mp hstep
      exact still_locks h rfl rfl rfl rfl
    · cases hstep
  | stamp t k =>
    simp only [step] at hstep
    split at hstep
    · obtain ⟨-, ⟨⟩⟩ := ite_none_right_eq_some.mp hstep
      exact still_locks h rfl rfl rfl rfl
    · cases hstep
  | finish t =>
    obtain ⟨⟨hph, -⟩, ⟨⟩⟩ := ite_none_right_eq_some.mp hstep
    refine ⟨counts_down h.pending (by rw [hph]; rfl) rfl, counts_same h.readers (by rw [hph]; rfl), h.exclusive, ?_⟩
    intro h1 h2
    exact congrArg (· - 1) (h.quiet h1 h2)
  | request =>
    obtain ⟨⟨-, hread⟩, ⟨⟩⟩ := ite_none_right_eq_some.mp hstep
    exact ⟨h.pending, h.readers, fun _ => hread, fun _ hne => absurd rfl hne⟩
  | giveUp =>
    obtain ⟨-, ⟨⟩⟩ := ite_none_right_eq_some.mp hstep
    exact ⟨h.pending, h.readers, fun hne => absurd rfl hne, fun hne => absurd rfl hne⟩
  | clear =>
    obtain ⟨⟨hreq, hz⟩, ⟨⟩⟩ := ite_none_right_eq_some.mp hstep
    exact ⟨h.pending, h.readers, fun _ => h.exclusive (by rw [hreq]; simp), fun _ _ => hz⟩
  | nextViewpoint =>
    obtain ⟨hreq, ⟨⟩⟩ := ite_none_right_eq_some.mp hstep
    exact ⟨h.pending, h.readers, fun _ => h.exclusive (by rw [hreq]; simp),
      fun _ _ => h.quiet (by rw [hreq]; simp) (by rw [hreq]; simp)⟩
  | sample =>
    simp only [step] at hstep
    split at hstep
    · cases hstep
      exact ⟨h.pending, h.readers, fun hne => absurd rfl hne, fun hne => absurd rfl hne⟩
    · cases hstep

/-! ## The invariant -/

structure Inv (loaded : K → Option V) (s : St K V) : Prop where
  cells : ∀ k, CellsOk s.log.length s.viewpointSequence (s.cells k)
  taken : ∀ cp ∈ s.checkpoints, cp.1 ≤ s.log.length ∧ cp.2 ≤ s.viewpointSequence
  cut : ∀ cp ∈ s.checkpoints, ∀ k, Cut cp.1 cp.2 (s.cells k) ∧ viewAt cp.1 (s.cells k) = effect loaded (s.log.take cp.1) k
  /-- A viewpoint that is drawn for a checkpoint is above all that is stamped. -/
  drawn : ∀ v, s.request = .drawn v →
    v ≤ s.viewpointSequence ∧ ∀ k, ∀ c ∈ s.cells k, c.info.viewpoint ≤ v ∧ c.info.limit < v
  /-- What is still to be stamped was logged behind every checkpoint. -/
  late : ∀ t, (s.tx t).phase.isLogged = true → (s.tx t).place ≤ s.log.length ∧ ∀ cp ∈ s.checkpoints, cp.1 < (s.tx t).place
  begun : ∀ t, (s.tx t).phase ≠ .idle → 0 < s.viewpointSequence
  owned : ∀ k t p, s.pending k = some (t, p) → (s.tx t).phase.isOpen = true ∧ k ∈ (s.tx t).keys ∧ p.root = none
  settled : ∀ k, (∀ t p, s.pending k = some (t, p) → (s.tx t).phase.isLogged = false) → effect loaded s.log k = view (s.cells k)
  owed : ∀ k t p, s.pending k = some (t, p) → (s.tx t).phase.isLogged = true →
    effect loaded s.log k = p.op ∧ ∀ c ∈ s.cells k, c.writer < (s.tx t).place

omit [DecidableEq K] in
theorem init_inv (loaded : K → Option V) : Inv loaded (init loaded) where
  cells k := by
    show CellsOk 0 0 ((loaded k).map _).toList
    cases loaded k with
    | none => exact ⟨by simp, List.Pairwise.nil, by simp, by simp, by simp⟩
    | some v => exact ⟨by simp, pairwise_singleton _ _, by simp, by simp, by simp⟩
  taken cp h := absurd h not_mem_nil
  cut cp h := absurd h not_mem_nil
  drawn v h := by cases h
  late t h := by cases h
  begun t h := absurd rfl h
  owned k t p h := by cases h
  settled k _ := by
    show loaded k = view ((loaded k).map _).toList
    cases loaded k <;> rfl
  owed k t p h := by cases h

omit [DecidableEq K] in
theorem frame_inv (h : Inv loaded s) (hcells : s'.cells = s.cells) (hpending : s'.pending = s.pending) (hlog : s'.log = s.log)
    (hcp : s'.checkpoints = s.checkpoints) (hseq : s.viewpointSequence ≤ s'.viewpointSequence)
    (hdrawn : ∀ v, s'.request = .drawn v →
      v ≤ s'.viewpointSequence ∧ ∀ k, ∀ c ∈ s.cells k, c.info.viewpoint ≤ v ∧ c.info.limit < v)
    (hbegun : ∀ t, (s'.tx t).phase ≠ .idle → 0 < s'.viewpointSequence)
    (hlate : ∀ t, (s'.tx t).phase.isLogged = true → (s.tx t).phase.isLogged = true ∧ (s'.tx t).place = (s.tx t).place)
    (howner : ∀ k t p, s.pending k = some (t, p) → (s'.tx t).phase.isOpen = (s.tx t).phase.isOpen
      ∧ (s'.tx t).phase.isLogged = (s.tx t).phase.isLogged ∧ (s'.tx t).keys = (s.tx t).keys) : Inv loaded s' where
  cells k := by
    rw [hcells, hlog]
    exact (h.cells k).mono (Nat.le_refl _) hseq
  taken cp hm := by
    rw [hcp] at hm
    rw [hlog]
    exact ⟨(h.taken cp hm).1, Nat.le_trans (h.taken cp hm).2 hseq⟩
  cut cp hm k := by
    rw [hcp] at hm
    rw [hlog, hcells]
    exact h.cut cp hm k
  drawn := by
    rw [hcells]
    exact hdrawn
  late t ht := by
    rw [hlog, hcp, (hlate t ht).2]
    exact h.late t (hlate t ht).1
  begun := hbegun
  owned k t p hp := by
    rw [hpending] at hp
    rw [(howner k t p hp).1, (howner k t p hp).2.2]
    exact h.owned k t p hp
  settled k hk := by
    rw [hlog, hcells]
    refine h.settled k fun t p hp => ?_
    rw [← (howner k t p hp).2.1]
    exact hk t p (by rw [hpending]; exact hp)
  owed k t p hp ht := by
    rw [hpending] at hp
    rw [hlog, hcells, (hlate t ht).2]
    exact h.owed k t p hp (hlate t ht).1

omit [DecidableEq K] in
theorem move_inv (h : Inv loaded s) {t : Nat} {phase : Phase} (hcells : s'.cells = s.cells) (hpending : s'.pending = s.pending)
    (hlog : s'.log = s.log) (hcp : s'.checkpoints = s.checkpoints) (hseq : s'.viewpointSequence = s.viewpointSequence)
    (hreq : s'.request = s.request) (htx : s'.tx = update s.tx t { s.tx t with phase := phase })
    (hidle : (s.tx t).phase ≠ .idle) (hlogged : phase.isLogged = (s.tx t).phase.isLogged)
    (hopen : phase.isOpen = (s.tx t).phase.isOpen) : Inv loaded s' := by
  have heq : ∀ u, (s'.tx u).phase.isLogged = (s.tx u).phase.isLogged ∧ (s'.tx u).phase.isOpen = (s.tx u).phase.isOpen
      ∧ (s'.tx u).keys = (s.tx u).keys ∧ (s'.tx u).place = (s.tx u).place := by
    intro u
    rw [htx]
    by_cases hu : u = t
    · subst hu
      rw [update_self]
      exact ⟨hlogged, hopen, rfl, rfl⟩
    · rw [update_of_ne hu]
      exact ⟨rfl, rfl, rfl, rfl⟩
  refine frame_inv h hcells hpending hlog hcp (Nat.le_of_eq hseq.symm) ?_ ?_ ?_ ?_
  · rw [hreq, hseq]
    exact h.drawn
  · rw [hseq]
    exact fun _ _ => h.begun t hidle
  · intro u hu
    rw [(heq u).1] at hu
    exact ⟨hu, (heq u).2.2.2⟩
  · exact fun k u p _ => ⟨(heq u).2.1, (heq u).1, (heq u).2.2.1⟩

theorem setKey_inv (h : Inv loaded s) (hl : Locks s) {k : K} {t : Nat} {p : Pending V} {cells : List (Cell V)}
    {q : Option (Nat × Pending V)} (hp : s.pending k = some (t, p)) (ht : (s.tx t).phase = .stamping)
    (hok : CellsOk s.log.length s.viewpointSequence cells)
    (hcut : ∀ n viewpoint, n < (s.tx t).place → viewpoint ≤ s.viewpointSequence → Cut n viewpoint (s.cells k) →
      Cut n viewpoint cells ∧ viewAt n cells = viewAt n (s.cells k))
    (hq : q = none ∧ view cells = p.op
      ∨ ∃ p', q = some (t, p') ∧ p'.op = p.op ∧ p'.root = none ∧ ∀ c ∈ cells, c.writer < (s.tx t).place) :
    Inv loaded (setKey s k cells q) := by
  have hlogged : (s.tx t).phase.isLogged = true := by rw [ht]; rfl
  refine ⟨?_, h.taken, ?_, ?_, h.late, h.begun, ?_, ?_, ?_⟩
  · intro k'
    by_cases hk : k' = k
    · subst hk
      simpa [setKey] using hok
    · simpa [setKey, hk] using h.cells k'
  · intro cp hcp k'
    by_cases hk : k' = k
    · subst hk
      obtain ⟨h1, h2⟩ := h.cut cp hcp k'
      obtain ⟨h3, h4⟩ := hcut cp.1 cp.2 ((h.late t hlogged).2 cp hcp) (h.taken cp hcp).2 h1
      simpa [setKey] using ⟨h3, h4.trans h2⟩
    · simpa [setKey, hk] using h.cut cp hcp k'
  · intro v hv
    have hreq : s.request = .drawn v := hv
    exact absurd (inFlight_of_isLogged hlogged) (hl.not_inFlight (hl.quiet (by rw [hreq]; simp) (by rw [hreq]; simp)) t)
  · intro k' u p' hu
    by_cases hk : k' = k
    · subst hk
      rcases hq with ⟨rfl, -⟩ | ⟨x, rfl, -, hroot, -⟩
      · simp [setKey] at hu
      · simp only [setKey, update_self, Option.some.injEq, Prod.mk.injEq] at hu
        obtain ⟨rfl, rfl⟩ := hu
        exact ⟨(h.owned k' _ p hp).1, (h.owned k' _ p hp).2.1, hroot⟩
    · exact h.owned k' u p' (by simpa [setKey, hk] using hu)
  · intro k' hk'
    by_cases hk : k' = k
    · subst hk
      rcases hq with ⟨rfl, hview⟩ | ⟨x, rfl, -⟩
      · simpa [setKey] using (h.owed k' t p hp hlogged).1.trans hview.symm
      · have hfalse := hk' t x (by simp [setKey])
        exact absurd (hlogged.symm.trans hfalse) (by simp)
    · have := h.settled k' (by simpa [setKey, hk] using hk')
      simpa [setKey, hk] using this
  · intro k' u p' hu hul
    by_cases hk : k' = k
    · subst hk
      rcases hq with ⟨rfl, -⟩ | ⟨x, rfl, hop, -, hw⟩
      · simp [setKey] at hu
      · simp only [setKey, update_self, Option.some.injEq, Prod.mk.injEq] at hu
        obtain ⟨rfl, rfl⟩ := hu
        rw [hop]
        simpa [setKey] using ⟨(h.owed k' _ p hp hlogged).1, hw⟩
    · simpa [setKey, hk] using h.owed k' u p' (by simpa [setKey, hk] using hu) hul

theorem terminate_inv {t : Nat} {k : K} (h : Inv loaded s) (hl : Locks s) (hstep : step s (.terminate t k) = some s') :
    Inv loaded s' := by
  simp only [step] at hstep
  split at hstep
  · next owner p hp =>
    obtain ⟨⟨rfl, ht, -, hne⟩, ⟨⟩⟩ := ite_none_right_eq_some.mp hstep
    have hlogged : (s.tx owner).phase.isLogged = true := by rw [ht]; rfl
    have hroot := (h.owned k owner p hp).2.2
    have hne : s.cells k ≠ [] := by simpa [hroot] using hne
    have hpos := h.begun owner (by rw [ht]; simp)
    rw [if_pos hne]
    refine setKey_inv h hl hp ht (endLast_ok (h.cells k) (h.late owner hlogged).1 hpos) ?_ ?_
    · intro n viewpoint hn hv hc
      exact ⟨endLast_cut (h.cells k) hc hn hv, viewAt_endLast (h.cells k) hn⟩
    · by_cases hop : p.op.isNone
      · rw [if_pos hop]
        exact .inl ⟨rfl, (view_endLast (h.cells k) hne).trans (isNone_iff_eq_none.mp hop).symm⟩
      · rw [if_neg hop]
        have hw := (h.owed k owner p hp hlogged).2
        refine .inr ⟨_, rfl, rfl, hroot, forall_endLast hw fun c hc => ?_⟩
        rcases ((h.cells k).of_mem hc).endVersion (p := (s.tx owner).place) with ⟨heq, -⟩ | ⟨-, heq⟩ <;> rw [heq] <;> exact hw c hc
  · cases hstep

theorem stamp_inv {t : Nat} {k : K} (h : Inv loaded s) (hl : Locks s) (hstep : step s (.stamp t k) = some s') : Inv loaded s' := by
  simp only [step] at hstep
  split at hstep
  · next owner v root terminated hp =>
    obtain ⟨⟨rfl, ht, -⟩, ⟨⟩⟩ := ite_none_right_eq_some.mp hstep
    have hlogged : (s.tx owner).phase.isLogged = true := by rw [ht]; rfl
    refine setKey_inv h hl hp ht (concat_ok (h.cells k) (h.owed k owner _ hp hlogged).2 (h.late owner hlogged).1 v) ?_
      (.inl ⟨rfl, view_concat v⟩)
    intro n viewpoint hn hv hc
    exact ⟨concat_cut hc hn hv v, viewAt_concat hn v⟩
  · cases hstep

theorem pend_root {cells : List (Cell V)} {op : Option V} {deeper : Bool} {old : Option (Pending V)} {p : Pending V}
    (hp : pend cells op deeper old = some p) (hold : ∀ q, old = some q → q.root = none)
    (hsafe : old.isSome → cells = [] → deeper = false) : p.root = none := by
  cases old with
  | none =>
    rw [pend] at hp
    split at hp <;> cases hp
    rfl
  | some q =>
    have hq := hold q rfl
    rw [pend] at hp
    split at hp
    · cases hp
      exact hq
    · split at hp <;> cases hp
      by_cases hc : cells = []
      · simp [hsafe rfl hc, hq]
      · simp [hc, hq]

theorem write_inv {t : Nat} {k : K} {op : Option V} {deeper : Bool} (h : Inv loaded s)
    (hsafe : StampSafe s (.write t k op deeper)) (hstep : step s (.write t k op deeper) = some s') : Inv loaded s' := by
  obtain ⟨⟨hph, hown⟩, ⟨⟩⟩ := ite_none_right_eq_some.mp hstep
  have hroot : ∀ p, pend (s.cells k) op deeper ((s.pending k).map (·.2)) = some p → p.root = none := by
    intro p hp
    refine pend_root hp ?_ ?_
    · intro q hq
      obtain ⟨⟨u, q'⟩, hu, rfl⟩ := map_eq_some_iff.mp hq
      exact (h.owned k u q' hu).2.2
    · intro hs
      exact hsafe (by simpa using hs)
  have htx : ∀ u, (update s.tx t { s.tx t with keys := k :: (s.tx t).keys } u).phase = (s.tx u).phase
      ∧ (update s.tx t { s.tx t with keys := k :: (s.tx t).keys } u).place = (s.tx u).place := by
    intro u
    by_cases hu : u = t
    · subst hu
      rw [update_self]
      exact ⟨rfl, rfl⟩
    · rw [update_of_ne hu]
      exact ⟨rfl, rfl⟩
  refine ⟨h.cells, h.taken, h.cut, h.drawn, ?_, ?_, ?_, ?_, ?_⟩
  · intro u hu
    rw [(htx u).1] at hu
    rw [(htx u).2]
    exact h.late u hu
  · intro u hu
    rw [(htx u).1] at hu
    exact h.begun u hu
  · intro k' u p hu
    show (update s.tx t _ u).phase.isOpen = true ∧ k' ∈ (update s.tx t _ u).keys ∧ _
    rw [(htx u).1]
    by_cases hk : k' = k
    · subst hk
      simp only [update_self] at hu
      obtain ⟨p', hp', ⟨⟩⟩ := map_eq_some_iff.mp hu
      exact ⟨by rw [hph]; rfl, by simp, hroot p hp'⟩
    · obtain ⟨h1, h2, h3⟩ := h.owned k' u p (by simpa [hk] using hu)
      refine ⟨h1, ?_, h3⟩
      by_cases hut : u = t
      · subst hut
        simp [h2]
      · simpa [hut] using h2
  · intro k' hk'
    refine h.settled k' fun u p hu => ?_
    by_cases hk : k' = k
    · -- its owner is the writer, which is active
      subst hk
      rw [hu] at hown
      obtain rfl : u = t := by simpa using hown
      rw [hph]
      rfl
    · rw [← (htx u).1]
      exact hk' u p (by simpa [hk] using hu)
  · intro k' u p hu hul
    rw [(htx u).1] at hul
    rw [(htx u).2]
    by_cases hk : k' = k
    · subst hk
      simp only [update_self] at hu
      obtain ⟨p', -, ⟨⟩⟩ := map_eq_some_iff.mp hu
      rw [hph] at hul
      cases hul
    · exact h.owed k' u p (by simpa [hk] using hu) hul

theorem rollback_inv {t : Nat} (h : Inv loaded s) (hstep : step s (.rollback t) = some s') : Inv loaded s' := by
  obtain ⟨hph, ⟨⟩⟩ := ite_none_right_eq_some.mp hstep
  -- what is left pending belongs to others
  have hleft : ∀ {k u p}, (if (s.pending k).any (fun e => e.1 = t) then none else s.pending k) = some (u, p) →
      u ≠ t ∧ s.pending k = some (u, p) := by
    intro k u p hp
    split at hp
    · cases hp
    · next hany =>
      refine ⟨?_, hp⟩
      rintro rfl
      rw [hp] at hany
      simp at hany
  refine ⟨h.cells, h.taken, h.cut, h.drawn, ?_, ?_, ?_, ?_, ?_⟩
  · intro u hu
    by_cases hut : u = t
    · subst hut
      simp [setTx, Phase.isLogged] at hu
    · simpa [setTx, hut] using h.late u (by simpa [setTx, hut] using hu)
  · exact fun _ _ => h.begun t (by rw [hph]; simp)
  · intro k u p hp
    obtain ⟨hut, hp⟩ := hleft hp
    simpa [setTx, hut] using h.owned k u p hp
  · intro k hk
    refine h.settled k fun u p hp => ?_
    by_cases hut : u = t
    · rw [hut, hph]
      rfl
    · have := hk u p (by simp [setTx, hp, hut])
      simpa [setTx, hut] using this
  · intro k u p hp hul
    obtain ⟨hut, hp⟩ := hleft hp
    simpa [setTx, hut] using h.owed k u p hp (by simpa [setTx, hut] using hul)

omit [DecidableEq K] in
theorem effect_concat (loaded : K → Option V) (log : List (K → Option (Option V))) (e : K → Option (Option V)) (k : K) :
    effect loaded (log ++ [e]) k = (e k).getD (effect loaded log k) := by
  simp [effect]

theorem append_inv {t : Nat} (h : Inv loaded s) (hstep : step s (.append t) = some s') : Inv loaded s' := by
  obtain ⟨hph, ⟨⟩⟩ := ite_none_right_eq_some.mp hstep
  refine ⟨?_, ?_, ?_, h.drawn, ?_, ?_, ?_, ?_, ?_⟩
  · intro k
    exact (h.cells k).mono (by simp) (Nat.le_refl _)
  · intro cp hcp
    refine ⟨?_, (h.taken cp hcp).2⟩
    have := (h.taken cp hcp).1
    simp only [length_append]
    omega
  · intro cp hcp k
    show _ ∧ _ = effect loaded ((s.log ++ [_]).take cp.1) k
    rw [take_append_of_le_length (h.taken cp hcp).1]
    exact h.cut cp hcp k
  · intro u hu
    by_cases hut : u = t
    · subst hut
      simp only [update_self, length_append, length_singleton]
      refine ⟨Nat.le_refl _, fun cp hcp => ?_⟩
      have := (h.taken cp hcp).1
      omega
    · simp only [update_of_ne hut, length_append] at hu ⊢
      obtain ⟨h1, h2⟩ := h.late u hu
      exact ⟨by omega, h2⟩
  · exact fun _ _ => h.begun t (by rw [hph]; simp)
  · intro k u p hp
    by_cases hut : u = t
    · subst hut
      simpa [Phase.isOpen] using (h.owned k u p hp).2
    · simpa [hut] using h.owned k u p hp
  · intro k hk
    have hother : ∀ u p, s.pending k = some (u, p) → u ≠ t ∧ (s.tx u).phase.isLogged = false := by
      intro u p hp
      have := hk u p hp
      by_cases hut : u = t
      · subst hut
        simp [Phase.isLogged] at this
      · exact ⟨hut, by simpa [hut] using this⟩
    show effect loaded (s.log ++ [_]) k = _
    rw [effect_concat, ← h.settled k fun u p hp => (hother u p hp).2]
    cases hp : s.pending k with
    | none => rfl
    | some e =>
      rw [bind_some, if_neg (hother e.1 e.2 hp).1]
      rfl
  · intro k u p hp hul
    replace hp : s.pending k = some (u, p) := hp
    show effect loaded (s.log ++ [_]) k = _ ∧ _
    rw [effect_concat, hp, bind_some]
    by_cases hut : u = t
    · subst hut
      rw [if_pos rfl]
      refine ⟨rfl, fun c hc => ?_⟩
      simp only [update_self]
      exact Nat.lt_succ_of_le ((h.cells k).bounds c hc).1
    · rw [if_neg hut]
      simpa [hut] using h.owed k u p hp (by simpa [hut] using hul)

theorem sample_inv (h : Inv loaded s) (hl : Locks s) (hstep : step s .sample = some s') : Inv loaded s' := by
  simp only [step] at hstep
  split at hstep
  · next viewpoint hreq =>
    cases hstep
    obtain ⟨hle, habove⟩ := h.drawn viewpoint hreq
    have hquiet : ∀ t, ¬(s.tx t).phase.isLogged = true := fun t ht =>
      hl.not_inFlight (hl.quiet (by rw [hreq]; simp) (by rw [hreq]; simp)) t (inFlight_of_isLogged ht)
    refine ⟨h.cells, ?_, ?_, ?_, ?_, h.begun, h.owned, h.settled, h.owed⟩
    · exact forall_mem_cons.mpr ⟨⟨Nat.le_refl _, hle⟩, h.taken⟩
    · refine forall_mem_cons.mpr ⟨fun k => ⟨cut_length (h.cells k) (habove k), ?_⟩, h.cut⟩
      rw [viewAt_length (h.cells k), take_length]
      exact (h.settled k fun t p _ => Bool.eq_false_iff.mpr (hquiet t)).symm
    · intro v hv
      cases hv
    · exact fun t ht => absurd ht (hquiet t)
  · cases hstep

theorem step_inv {e : Ev K V} (h : Inv loaded s) (hl : Locks s) (hsafe : StampSafe s e) (hstep : step s e = some s') :
    Inv loaded s' := by
  have hsame : ∀ {v : Nat}, s.request = .drawn v → v ≤ s.viewpointSequence + 1
      ∧ ∀ k, ∀ c ∈ s.cells k, c.info.viewpoint ≤ v ∧ c.info.limit < v := fun {v} hv =>
    ⟨Nat.le_succ_of_le (h.drawn v hv).1, (h.drawn v hv).2⟩
  cases e with
  | begin t =>
    obtain ⟨hph, ⟨⟩⟩ := ite_none_right_eq_some.mp hstep
    refine frame_inv h rfl rfl rfl rfl (Nat.le_succ _) (fun v hv => hsame hv) (fun _ _ => Nat.succ_pos _) ?_ ?_
    · intro u hu
      by_cases hut : u = t
      · subst hut
        simp [setTx, Phase.isLogged] at hu
      · simpa [setTx, hut] using hu
    · intro k u p hp
      have hut : u ≠ t := by
        rintro rfl
        have := (h.owned k u p hp).1
        rw [hph] at this
        cases this
      simp [setTx, hut]
  | draw =>
    cases hstep
    exact frame_inv h rfl rfl rfl rfl (Nat.le_succ _) (fun v hv => hsame hv) (fun _ _ => Nat.succ_pos _)
      (fun t ht => ⟨ht, rfl⟩) (fun _ _ _ _ => ⟨rfl, rfl, rfl⟩)
  | write t k op deeper => exact write_inv h hsafe hstep
  | rollback t => exact rollback_inv h hstep
  | enter t =>
    obtain ⟨⟨hph, -⟩, ⟨⟩⟩ := ite_none_right_eq_some.mp hstep
    exact move_inv h rfl rfl rfl rfl rfl rfl rfl (by rw [hph]; simp) (by rw [hph]; rfl) (by rw [hph]; rfl)
  | count t =>
    obtain ⟨hph, ⟨⟩⟩ := ite_none_right_eq_some.mp hstep
    exact move_inv h rfl rfl rfl rfl rfl rfl rfl (by rw [hph]; simp) (by rw [hph]; rfl) (by rw [hph]; rfl)
  | append t => exact append_inv h hstep
  | leave t =>
    obtain ⟨hph, ⟨⟩⟩ := ite_none_right_eq_some.mp hstep
    exact move_inv h rfl rfl rfl rfl rfl rfl rfl (by rw [hph]; simp) (by rw [hph]; rfl) (by rw [hph]; rfl)
  | terminate t k => exact terminate_inv h hl hstep
  | stamp t k => exact stamp_inv h hl hstep
  | finish t =>
    obtain ⟨⟨hph, hnone⟩, ⟨⟩⟩ := ite_none_right_eq_some.mp hstep
    refine frame_inv h rfl rfl rfl rfl (Nat.le_refl _) h.drawn (fun _ _ => h.begun t (by rw [hph]; simp)) ?_ ?_
    · intro u hu
      by_cases hut : u = t
      · subst hut
        simp [setTx, Phase.isLogged] at hu
      · simpa [setTx, hut] using hu
    · intro k u p hp
      have hut : u ≠ t := by
        rintro rfl
        have := hnone k (h.owned k u p hp).2.1
        rw [hp] at this
        simp at this
      simp [setTx, hut]
  | request =>
    obtain ⟨-, ⟨⟩⟩ := ite_none_right_eq_some.mp hstep
    exact frame_inv h rfl rfl rfl rfl (Nat.le_refl _) (fun v hv => by cases hv) h.begun
      (fun t ht => ⟨ht, rfl⟩) (fun _ _ _ _ => ⟨rfl, rfl, rfl⟩)
  | giveUp =>
    obtain ⟨-, ⟨⟩⟩ := ite_none_right_eq_some.mp hstep
    exact frame_inv h rfl rfl rfl rfl (Nat.le_refl _) (fun v hv => by cases hv) h.begun
      (fun t ht => ⟨ht, rfl⟩) (fun _ _ _ _ => ⟨rfl, rfl, rfl⟩)
  | clear =>
    obtain ⟨-, ⟨⟩⟩ := ite_none_right_eq_some.mp hstep
    exact frame_inv h rfl rfl rfl rfl (Nat.le_refl _) (fun v hv => by cases hv) h.begun
      (fun t ht => ⟨ht, rfl⟩) (fun _ _ _ _ => ⟨rfl, rfl, rfl⟩)
  | nextViewpoint =>
    obtain ⟨-, ⟨⟩⟩ := ite_none_right_eq_some.mp hstep
    refine frame_inv h rfl rfl rfl rfl (Nat.le_succ _) ?_ (fun _ _ => Nat.succ_pos _)
      (fun t ht => ⟨ht, rfl⟩) (fun _ _ _ _ => ⟨rfl, rfl, rfl⟩)
    intro v hv
    cases hv
    refine ⟨Nat.le_refl _, fun k c hc => ⟨((h.cells k).bounds c hc).2, ?_⟩⟩
    cases hend : c.ended with
    | none =>
      rw [((h.cells k).live c hc hend).2]
      exact Nat.succ_pos _
    | some d => exact Nat.lt_succ_of_le ((h.cells k).ended c hc d hend).2.2.1
  | sample => exact sample_inv h hl hstep

theorem inv (h : Reach step StampSafe (init loaded) s) : Locks s ∧ Inv loaded s :=
  Reach.inv (P := fun s => Locks s ∧ Inv loaded s) ⟨init_locks loaded, init_inv loaded⟩
    (fun h hsafe hstep => ⟨step_locks h.1 hstep, step_inv h.2 h.1 hsafe hstep⟩) h

end Steps

instance (s : St K V) : ∀ e, Decidable (StampSafe s e)
  | .write _ k _ deeper => inferInstanceAs (Decidable ((s.pending k).isSome → s.cells k = [] → deeper = false))
  | .begin _ | .draw | .rollback _ | .enter _ | .count _ | .append _ | .leave _ | .terminate .. | .stamp .. | .finish _
  | .request | .giveUp | .clear | .nextViewpoint | .sample => .isTrue trivial

/-- 1 deletes key 2, puts key 5 and key 6 twice, before a checkpoint; 2 puts keys 2, 6 and 7, logged before it has let the
    lock go and stamped behind the next. -/
def twoTrace : List (Ev Nat Nat) :=
  [.begin 1, .write 1 2 none false, .write 1 5 (some 1) false, .write 1 6 (some 8) false, .write 1 6 (some 9) true,
   .enter 1, .count 1, .append 1, .begin 2, .write 2 7 (some 4) false, .leave 1, .request, .terminate 1 6, .stamp 1 5,
   .stamp 1 6, .terminate 1 2, .finish 1, .clear, .nextViewpoint, .draw, .sample,
   .write 2 6 (some 3) false, .write 2 2 (some 2) false, .enter 2, .count 2, .append 2, .leave 2, .request, .giveUp,
   .terminate 2 6, .stamp 2 7, .draw, .stamp 2 6, .terminate 2 2, .stamp 2 2]

end DeepFabric.Store.Checkpoint
