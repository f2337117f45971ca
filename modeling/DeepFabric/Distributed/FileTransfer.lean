/-
  DeepFabric.Distributed.FileTransfer — a file is sent in bundles of blocks (replication/FileReplication.cxx).

  The sender reads blocks and sends a bundle of them, whose first and last block are marked so; an empty block ends
  the file. The receiver writes the blocks where the file is, and acknowledges the last block of a bundle if it is
  not the first one too; with that the sender sends the next bundle. A descriptor is -1 before it is opened and 0
  after it is closed.

  As built a bundle of a single block is never acknowledged, and what was in the destination behind the source stays
  there (`single_blocks_stall`). The link keeps the order and loses nothing; reads and writes complete.
-/
import DeepFabric.Lib.Run
import Mathlib.Data.List.Basic

namespace DeepFabric.Distributed.FileTransfer

open DeepFabric.Lib.Run List

/-- What is done with a descriptor. -/
inductive Op where
  | open_ (fd : Int)
  | read (fd : Int)
  | write (fd : Int)
  | close (fd : Int)
  deriving DecidableEq

/-- `FILE_BLOCK_REQ`, with the flags of its header. -/
structure Block (α : Type) where
  first : Bool
  last : Bool
  block : List α
  deriving DecidableEq

/-- `unread` is the file behind the place of the descriptor. -/
structure FileTxBlock (α : Type) where
  fd : Int
  blockSize : Nat
  bundleSize : Nat
  unread : List α
  ops : List Op
  deriving DecidableEq

/-- `opens` is the descriptor that open gives, `written` the place of it in the file. -/
structure FileRxBlock (α : Type) where
  fd : Int
  opens : Int
  content : List α
  written : Nat
  ops : List Op
  deriving DecidableEq

variable {α : Type}

/-- The loop of renderFileBlockBundle. -/
def render : Nat → Bool → FileTxBlock α → FileTxBlock α × List (Block α)
  | 0, _, tx => (tx, [])
  | i + 1, first, tx =>
    let block := tx.unread.take tx.blockSize
    let tx := { tx with unread := tx.unread.drop tx.blockSize, ops := tx.ops ++ [.read tx.fd] }
    match block with
    | [] => ({ tx with fd := 0, ops := tx.ops ++ [.close tx.fd] }, [⟨first, true, []⟩])
    | b :: bs =>
      if i = 0 then (tx, [⟨first, true, b :: bs⟩])
      else
        let (tx, blocks) := render i false tx
        (tx, ⟨first, false, b :: bs⟩ :: blocks)

def renderFileBlockBundle (tx : FileTxBlock α) : FileTxBlock α × List (Block α) :=
  if tx.fd = 0 then (tx, []) else render tx.bundleSize true tx

/-- The receiver after a block, and whether it acknowledges. -/
def processFileBlockReq (rx : FileRxBlock α) (b : Block α) : FileRxBlock α × Bool :=
  let rx := if b.first ∧ rx.fd = -1 then { rx with fd := rx.opens, ops := rx.ops ++ [.open_ rx.opens] } else rx
  let reply := !b.first && b.last
  match b.block with
  | [] => ({ rx with fd := 0, ops := rx.ops ++ [.close rx.fd] }, reply)
  | block =>
    ({ rx with
        content := rx.content.take rx.written ++ block ++ rx.content.drop (rx.written + block.length)
        written := rx.written + block.length
        ops := rx.ops ++ [.write rx.fd] }, reply)

/-! ## The exchange -/

structure Transfer (α : Type) where
  tx : FileTxBlock α
  rx : FileRxBlock α
  requests : List (Block α)
  replies : Nat
  deriving DecidableEq

inductive Ev where
  | blockReq
  | blockRep
  deriving DecidableEq

def step (s : Transfer α) : Ev → Option (Transfer α)
  | .blockReq =>
    match s.requests with
    | [] => none
    | b :: rest =>
      let (rx, reply) := processFileBlockReq s.rx b
      some { s with rx := rx, requests := rest, replies := if reply then s.replies + 1 else s.replies }
  | .blockRep =>
    match s.replies with
    | 0 => none
    | n + 1 =>
      let (tx, blocks) := renderFileBlockBundle s.tx
      some { s with tx := tx, requests := s.requests ++ blocks, replies := n }

/-- `processFileTxRep`: the source is open, and the first bundle is sent. -/
def start (source destination : List α) (blockSize bundleSize : Nat) (txFd rxFd : Nat) : Transfer α :=
  let (tx, blocks) := renderFileBlockBundle ⟨txFd, blockSize, bundleSize, source, [.open_ txFd]⟩
  ⟨tx, ⟨-1, rxFd, destination, 0, []⟩, blocks, 0⟩

/-- Nothing is under way. -/
def Quiet (s : Transfer α) : Prop := s.requests = [] ∧ s.replies = 0

/-- Closed once, and the last thing done with it. -/
def ClosedOnce (ops : List Op) : Prop := ∃ fd pre, ops = pre ++ [.close fd] ∧ ∀ fd, .close fd ∉ pre

/-- The destination has the source, and both sides are through. -/
structure Right (source : List α) (s : Transfer α) : Prop where
  content : s.rx.content = source
  tx : ClosedOnce s.tx.ops
  rx : ClosedOnce s.rx.ops

/-- With bundles of one block the second block is never sent; and what was in the destination is still there behind
the source. -/
theorem single_blocks_stall :
    (exec step (start [1, 2] [] 1 1 3 4) [.blockReq]).map (fun s => (s.rx.content, s.requests, s.replies, s.tx.unread)) = some ([1], [], 0, [2]) ∧
    (exec step (start [1, 2] [7, 8, 9] 1 2 3 4) [.blockReq, .blockReq, .blockRep, .blockReq]).map (fun s => (s.rx.content, s.rx.fd)) =
      some ([1, 2, 9], 0) := by decide

/-! ## Bundles -/

/-- Blocks with the flags of a bundle. -/
def frame : Bool → List (List α) → List (Block α)
  | _, [] => []
  | first, [block] => [⟨first, true, block⟩]
  | first, block :: blocks => ⟨first, false, block⟩ :: frame false blocks

theorem frame_cons (first : Bool) (block : List α) {blocks : List (List α)} (h : blocks ≠ []) :
    frame first (block :: blocks) = ⟨first, false, block⟩ :: frame false blocks := by
  cases blocks with
  | nil => exact absurd rfl h
  | cons => rfl

/-- What a bundle takes from the file: up to its end, with an empty block and the descriptor closed, or as many blocks as the
bundle has. -/
inductive Took (i : Nat) (tx tx' : FileTxBlock α) (blocks : List (List α)) : Prop where
  | rest (reads : Nat) (htx : tx' = { tx with unread := [], fd := 0, ops := tx.ops ++ List.replicate reads (.read tx.fd) ++ [.close tx.fd] })
      (data : List (List α)) (hblocks : blocks = data ++ [[]]) (hlen : data.length < i) (hdata : ∀ d ∈ data, d ≠ []) (hall : data.flatten = tx.unread)
  | full (reads : Nat) (unread : List α) (htx : tx' = { tx with unread := unread, ops := tx.ops ++ List.replicate reads (.read tx.fd) })
      (hlen : blocks.length = i) (hdata : ∀ d ∈ blocks, d ≠ []) (hall : blocks.flatten ++ unread = tx.unread)

theorem render_spec {i : Nat} (hi : 0 < i) (first : Bool) {tx : FileTxBlock α} (hsize : 0 < tx.blockSize) :
    ∃ blocks, (render i first tx).2 = frame first blocks ∧ blocks ≠ [] ∧ Took i tx (render i first tx).1 blocks := by
  induction i generalizing first tx with
  | zero => exact absurd hi (Nat.lt_irrefl 0)
  | succ i ih =>
    rw [render]
    cases hblock : tx.unread.take tx.blockSize with
    | nil =>
      have hnil : tx.unread = [] := (take_eq_nil_iff.mp hblock).resolve_left (Nat.ne_of_gt hsize)
      refine ⟨[[]], rfl, cons_ne_nil _ _, .rest 1 ?_ [] rfl (Nat.succ_pos i) nofun hnil.symm⟩
      simp [hnil]
    | cons b bs =>
      have hsplit : b :: bs ++ tx.unread.drop tx.blockSize = tx.unread := hblock ▸ take_append_drop _ _
      dsimp only
      by_cases hlast : i = 0
      · subst hlast
        rw [if_pos rfl]
        refine ⟨[b :: bs], rfl, cons_ne_nil _ _, .full 1 (tx.unread.drop tx.blockSize) rfl rfl (by simp) (by simpa using hsplit)⟩
      · rw [if_neg hlast]
        obtain ⟨blocks, hblocks, hne, htook⟩ := @ih (Nat.pos_of_ne_zero hlast) false
          { tx with unread := tx.unread.drop tx.blockSize, ops := tx.ops ++ [.read tx.fd] } hsize
        refine ⟨(b :: bs) :: blocks, by rw [frame_cons _ _ hne, hblocks], cons_ne_nil _ _, ?_⟩
        have hreads (reads : Nat) : tx.ops ++ [.read tx.fd] ++ List.replicate reads (.read tx.fd) =
            tx.ops ++ List.replicate (reads + 1) (Op.read tx.fd) := by
          rw [replicate_succ, append_assoc, singleton_append]
        cases htook with
        | rest reads htx data hdata hlen hne hall =>
          refine .rest (reads + 1) (by rw [htx, hreads]) ((b :: bs) :: data) (by rw [hdata]; rfl) (Nat.succ_lt_succ hlen) ?_ ?_
          · exact forall_mem_cons.mpr ⟨cons_ne_nil _ _, hne⟩
          · rw [flatten_cons, hall]
            exact hsplit
        | full reads unread htx hlen hne hall =>
          refine .full (reads + 1) unread (by rw [htx, hreads]) (congrArg (· + 1) hlen) ?_ ?_
          · exact forall_mem_cons.mpr ⟨cons_ne_nil _ _, hne⟩
          · rw [flatten_cons, append_assoc, hall]
            exact hsplit

theorem renderFileBlockBundle_spec {tx : FileTxBlock α} (hfd : tx.fd ≠ 0) (hsize : 0 < tx.blockSize) (hbundle : 0 < tx.bundleSize) :
    ∃ blocks, (renderFileBlockBundle tx).2 = frame true blocks ∧ blocks ≠ [] ∧ Took tx.bundleSize tx (renderFileBlockBundle tx).1 blocks := by
  rw [renderFileBlockBundle, if_neg hfd]
  exact render_spec hbundle true hsize

/-! ## One event at a time -/

/-- Blocks of one bundle are under way, or an acknowledgement, and not both. -/
structure Alone (s : Transfer α) : Prop where
  frame : ∃ first blocks, s.requests = frame first blocks
  one : s.replies ≤ 1
  apart : s.requests = [] ∨ s.replies = 0
  sizes : 0 < s.tx.blockSize ∧ 0 < s.tx.bundleSize

theorem reply_eq (rx : FileRxBlock α) (b : Block α) : (processFileBlockReq rx b).2 = (!b.first && b.last) := by
  rw [processFileBlockReq]
  split <;> rfl

theorem step_req {s : Transfer α} {b : Block α} {rest : List (Block α)} (h : s.requests = b :: rest) :
    step s .blockReq = some ⟨s.tx, (processFileBlockReq s.rx b).1, rest, if !b.first && b.last then s.replies + 1 else s.replies⟩ := by
  rw [step, h, ← reply_eq s.rx b]

theorem render_alone {tx : FileTxBlock α} (h : 0 < tx.blockSize ∧ 0 < tx.bundleSize) :
    (∃ blocks, (renderFileBlockBundle tx).2 = frame true blocks) ∧ 0 < (renderFileBlockBundle tx).1.blockSize ∧
      0 < (renderFileBlockBundle tx).1.bundleSize := by
  by_cases hfd : tx.fd = 0
  · rw [renderFileBlockBundle, if_pos hfd]
    exact ⟨⟨[], rfl⟩, h⟩
  · obtain ⟨blocks, hblocks, -, htook⟩ := renderFileBlockBundle_spec hfd h.1 h.2
    refine ⟨⟨blocks, hblocks⟩, ?_⟩
    cases htook with
    | rest _ htx => rw [htx]; exact h
    | full _ _ htx => rw [htx]; exact h

theorem start_alone (source destination : List α) {blockSize bundleSize : Nat} (h : 0 < blockSize ∧ 0 < bundleSize) (txFd rxFd : Nat) :
    Alone (start source destination blockSize bundleSize txFd rxFd) := by
  obtain ⟨⟨blocks, hblocks⟩, hsizes⟩ := @render_alone α ⟨txFd, blockSize, bundleSize, source, [.open_ txFd]⟩ h
  exact ⟨⟨true, blocks, hblocks⟩, Nat.zero_le 1, .inr rfl, hsizes⟩

theorem step_alone {s s' : Transfer α} {e : Ev} (h : Alone s) (hstep : step s e = some s') : Alone s' := by
  obtain ⟨⟨first, blocks, hframe⟩, hone, hapart, hsizes⟩ := h
  cases e with
  | blockReq =>
    cases blocks with
    | nil => rw [step, hframe] at hstep; cases hstep
    | cons block blocks =>
      have hzero : s.replies = 0 := hapart.resolve_left (by rw [hframe]; cases blocks <;> exact cons_ne_nil _ _)
      cases blocks with
      | nil =>
        rw [step_req hframe] at hstep
        cases hstep
        refine ⟨⟨true, [], rfl⟩, ?_, .inl rfl, hsizes⟩
        dsimp only
        split_ifs <;> omega
      | cons block' blocks =>
        rw [frame_cons _ _ (cons_ne_nil _ _)] at hframe
        rw [step_req hframe, Bool.and_false, if_neg Bool.false_ne_true] at hstep
        cases hstep
        exact ⟨⟨false, block' :: blocks, rfl⟩, hone, .inr hzero, hsizes⟩
  | blockRep =>
    rw [step] at hstep
    cases hreplies : s.replies with
    | zero => rw [hreplies] at hstep; cases hstep
    | succ n =>
      rw [hreplies] at hstep
      cases hstep
      obtain ⟨⟨blocks, hblocks⟩, hsizes'⟩ := render_alone hsizes
      have hnil := hapart.resolve_right (by omega)
      refine ⟨⟨true, blocks, ?_⟩, by show n ≤ 1; omega, .inr (by show n = 0; omega), hsizes'⟩
      show s.requests ++ (renderFileBlockBundle s.tx).2 = _
      rw [hnil, hblocks, nil_append]

/-- Where a run has come to its end, every run from there on is the beginning of it. -/
theorem runs_prefix {s s' : Transfer α} {es : List Ev} (h : Alone s) (hrun : exec step s es = some s') (hquiet : Quiet s') :
    ∀ {es' s''}, exec step s es' = some s'' → es' <+: es := by
  have hno {t : Transfer α} (ht : Quiet t) (e : Ev) : step t e = none := by
    cases e with
    | blockReq => rw [step, ht.1]
    | blockRep => rw [step, ht.2]
  have honly {t : Transfer α} (ht : Alone t) {e e' : Ev} (he : (step t e).isSome) (he' : (step t e').isSome) : e = e' := by
    rcases ht.apart with hnil | hzero
    · have (e : Ev) (he : (step t e).isSome) : e = .blockRep := by
        cases e with
        | blockReq => rw [step, hnil] at he; cases he
        | blockRep => rfl
      rw [this e he, this e' he']
    · have (e : Ev) (he : (step t e).isSome) : e = .blockReq := by
        cases e with
        | blockReq => rfl
        | blockRep => rw [step, hzero] at he; cases he
      rw [this e he, this e' he']
  induction es generalizing s with
  | nil =>
    cases hrun
    intro es' s'' hrun'
    cases es' with
    | nil => exact nil_prefix
    | cons e es' =>
      rw [exec, hno hquiet] at hrun'
      cases hrun'
  | cons e es ih =>
    intro es' s'' hrun'
    cases es' with
    | nil => exact nil_prefix
    | cons e' es' =>
      obtain ⟨s1, h1, hrest⟩ := Option.bind_eq_some_iff.mp hrun
      obtain ⟨s1', h1', hrest'⟩ := Option.bind_eq_some_iff.mp hrun'
      obtain rfl : e = e' := honly h (by rw [h1]; rfl) (by rw [h1']; rfl)
      cases h1.symm.trans h1'
      exact cons_prefix_cons.mpr ⟨rfl, ih (step_alone h h1) hrest hrest'⟩

/-! ## The receiver -/

/-- A file that has not been closed. -/
def Open (ops : List Op) : Prop := ∀ fd, .close fd ∉ ops

theorem Open.append {ops ops' : List Op} (h : Open ops) (h' : Open ops') : Open (ops ++ ops') :=
  fun fd hmem => (mem_append.mp hmem).elim (h fd) (h' fd)

theorem Open.not_closed {ops : List Op} (h : Open ops) : ¬ ClosedOnce ops := by
  rintro ⟨fd, pre, rfl, -⟩
  exact h fd (mem_append_right _ (mem_singleton.mpr rfl))

/-- The destination has what was sent, and what it had behind that. -/
structure Has (destination sent : List α) (rx : FileRxBlock α) : Prop where
  content : rx.content = sent ++ destination.drop sent.length
  written : rx.written = sent.length

variable {destination sent : List α} {rx : FileRxBlock α}

theorem req_spec (h : Has destination sent rx) (hopen : Open rx.ops) (first last : Bool) (block : List α) :
    Has destination (sent ++ block) (processFileBlockReq rx ⟨first, last, block⟩).1 ∧
      (block = [] → ClosedOnce (processFileBlockReq rx ⟨first, last, block⟩).1.ops) ∧
      (block ≠ [] → Open (processFileBlockReq rx ⟨first, last, block⟩).1.ops) := by
  obtain ⟨rx1, hrx1, hcontent, hwritten, hopen1⟩ : ∃ rx1, rx1 = (if first = true ∧ rx.fd = -1 then
      { rx with fd := rx.opens, ops := rx.ops ++ [.open_ rx.opens] } else rx) ∧ rx1.content = rx.content ∧ rx1.written = rx.written ∧ Open rx1.ops := by
    refine ⟨_, rfl, ?_⟩
    split_ifs
    · exact ⟨rfl, rfl, hopen.append (by simp [Open])⟩
    · exact ⟨rfl, rfl, hopen⟩
  unfold processFileBlockReq
  simp only [← hrx1]
  cases block with
  | nil =>
    refine ⟨⟨?_, ?_⟩, fun _ => ⟨rx1.fd, rx1.ops, rfl, hopen1⟩, fun hne => absurd rfl hne⟩
    · rw [append_nil]
      exact hcontent.trans h.content
    · rw [append_nil]
      exact hwritten.trans h.written
  | cons b bs =>
    refine ⟨⟨?_, ?_⟩, nofun, fun _ => hopen1.append (by simp [Open])⟩
    · show rx1.content.take rx1.written ++ b :: bs ++ rx1.content.drop (rx1.written + (b :: bs).length) = _
      rw [hcontent, hwritten, h.content, h.written, take_left, drop_append, drop_eq_nil_of_le (by omega), nil_append,
        drop_drop, length_append]
      congr 2
      omega
    · show rx1.written + (b :: bs).length = _
      rw [hwritten, h.written, length_append]

theorem deliver {blocks : List (List α)} (hne : blocks ≠ []) (hdata : ∀ d ∈ blocks.dropLast, d ≠ []) {s : Transfer α} {first : Bool}
    (hframe : s.requests = frame first blocks) (h : Has destination sent s.rx) (hopen : Open s.rx.ops) :
    ∃ rx, exec step s (List.replicate blocks.length .blockReq) =
        some ⟨s.tx, rx, [], if first = true ∧ blocks.length = 1 then s.replies else s.replies + 1⟩ ∧
      Has destination (sent ++ blocks.flatten) rx ∧ (blocks.getLast hne = [] → ClosedOnce rx.ops) ∧ (blocks.getLast hne ≠ [] → Open rx.ops) := by
  induction blocks generalizing s sent first with
  | nil => exact absurd rfl hne
  | cons block blocks ih =>
    cases blocks with
    | nil =>
      obtain ⟨hhas, hclosed, hopen'⟩ := req_spec h hopen first true block
      refine ⟨_, ?_, by simpa using hhas, hclosed, hopen'⟩
      show (step s .blockReq).bind _ = _
      rw [step_req hframe, Option.bind_some]
      cases first <;> rfl
    | cons block' blocks =>
      rw [frame_cons _ _ (cons_ne_nil _ _)] at hframe
      obtain ⟨hhas, -, hopen'⟩ := req_spec h hopen first false block
      have hfirst : block ≠ [] := hdata block mem_cons_self
      obtain ⟨rx, hrun, hhas', hends⟩ := ih (cons_ne_nil _ _) (forall_mem_cons.mp hdata).2
        (s := ⟨s.tx, (processFileBlockReq s.rx ⟨first, false, block⟩).1, frame false (block' :: blocks), s.replies⟩) rfl hhas (hopen' hfirst)
      refine ⟨rx, ?_, by rw [flatten_cons, ← append_assoc]; exact hhas', hends⟩
      have hstep : step s .blockReq = some ⟨s.tx, (processFileBlockReq s.rx ⟨first, false, block⟩).1, frame false (block' :: blocks), s.replies⟩ := by
        rw [step_req hframe, Bool.and_false, if_neg Bool.false_ne_true]
      rw [length_cons, replicate_succ, exec, hstep, Option.bind_some, hrun]
      simp

/-! ## The exchange -/

/-- An exchange in which a bundle was just sent runs to an end. -/
theorem runs {source : List α} (tx : FileTxBlock α) (rx : FileRxBlock α) (sent : List α) (hfd : tx.fd ≠ 0) (hsize : 0 < tx.blockSize)
    (hbundle : 0 < tx.bundleSize) (hsource : sent ++ tx.unread = source) (htx : Open tx.ops) (h : Has destination sent rx) (hrx : Open rx.ops) :
    ∃ es s, exec step ⟨(renderFileBlockBundle tx).1, rx, (renderFileBlockBundle tx).2, 0⟩ es = some s ∧ Quiet s ∧
      (Right source s ↔ (2 ≤ tx.bundleSize ∨ tx.unread = []) ∧ destination.length ≤ source.length) := by
  induction hn : tx.unread.length using Nat.strongRecOn generalizing tx rx sent with
  | _ n ih =>
    obtain ⟨blocks, hblocks, hne, htook⟩ := renderFileBlockBundle_spec hfd hsize hbundle
    rw [hblocks]
    cases htook with
    | rest reads hend data hdata hlen hfull hall =>
      subst hdata
      obtain ⟨rx', hrun, hhas, hclosed, -⟩ := deliver (s := ⟨(renderFileBlockBundle tx).1, rx, frame true (data ++ [[]]), 0⟩) hne
        (by rw [dropLast_concat]; exact hfull) rfl h hrx
      rw [hend] at hrun ⊢
      have hcontent : rx'.content = source ++ destination.drop source.length := by
        have hsent : sent ++ (data ++ [[]]).flatten = source := by simp [hall, hsource]
        rw [hhas.content, hsent]
      have hright {n : Nat} : Right source ⟨{ tx with unread := [], fd := 0, ops := tx.ops ++ List.replicate reads (.read tx.fd) ++ [.close tx.fd] },
          rx', [], n⟩ ↔ (2 ≤ tx.bundleSize ∨ tx.unread = []) ∧ destination.length ≤ source.length := by
        have hbundles : 2 ≤ tx.bundleSize ∨ tx.unread = [] := by
          rcases Nat.lt_or_ge 1 tx.bundleSize with htwo | hone
          · exact .inl htwo
          · have hnil : data = [] := eq_nil_of_length_eq_zero (by omega)
            exact .inr (by rw [← hall, hnil]; rfl)
        rw [and_iff_right hbundles]
        constructor
        · intro hr
          have hlen := congrArg List.length (hcontent.symm.trans hr.content)
          rw [length_append, length_drop] at hlen
          omega
        · intro hle
          refine ⟨?_, ⟨tx.fd, _, rfl, htx.append fun fd hmem => ?_⟩, hclosed (getLast_concat ..)⟩
          · rw [hcontent, drop_eq_nil_of_le hle, append_nil]
          · cases (mem_replicate.mp hmem).2
      by_cases hsingle : true = true ∧ (data ++ [[]]).length = 1
      · rw [if_pos hsingle] at hrun
        exact ⟨_, _, hrun, ⟨rfl, rfl⟩, hright⟩
      · rw [if_neg hsingle] at hrun
        refine ⟨_ ++ [.blockRep], _, by rw [exec_append, hrun]; rfl, ⟨rfl, rfl⟩, hright⟩
    | full reads unread hend hlen hfull hall =>
      obtain ⟨rx', hrun, hhas, -, hopen⟩ := deliver (s := ⟨(renderFileBlockBundle tx).1, rx, frame true blocks, 0⟩) hne
        (fun d hd => hfull d (dropLast_subset _ hd)) rfl h hrx
      have hopen' := hopen (hfull _ (getLast_mem hne))
      have htx' : Open (renderFileBlockBundle tx).1.ops := by
        rw [hend]
        refine htx.append fun fd hmem => ?_
        cases (mem_replicate.mp hmem).2
      have hpos : 0 < blocks.flatten.length := by
        obtain ⟨d, ds, rfl⟩ := exists_cons_of_ne_nil hne
        rw [flatten_cons, length_append]
        have := length_pos_of_ne_nil (hfull d mem_cons_self)
        omega
      have hshort := congrArg List.length hall
      rw [length_append] at hshort
      rcases Nat.lt_or_ge 1 tx.bundleSize with htwo | hone
      · rw [if_neg (by omega)] at hrun
        obtain ⟨es, s, hrest, hquiet, hiff⟩ := ih unread.length (by omega) (renderFileBlockBundle tx).1 rx' (sent ++ blocks.flatten)
          (by rw [hend]; exact hfd) (by rw [hend]; exact hsize) (by rw [hend]; exact hbundle)
          (by rw [hend, append_assoc, ← hsource, ← hall]) htx' hhas hopen' (by rw [hend])
        have hbundles : (renderFileBlockBundle tx).1.bundleSize = tx.bundleSize := by rw [hend]
        rw [hbundles, and_iff_right (.inl htwo)] at hiff
        refine ⟨List.replicate blocks.length .blockReq ++ .blockRep :: es, s, ?_, hquiet, hiff.trans (and_iff_right (.inl htwo)).symm⟩
        rw [exec_append, hrun]
        exact hrest
      · rw [if_pos ⟨rfl, by omega⟩] at hrun
        refine ⟨_, _, hrun, ⟨rfl, rfl⟩, iff_of_false (fun hr => htx'.not_closed hr.tx) fun hc => ?_⟩
        rcases hc.1 with htwo | hnil
        · omega
        · rw [hnil, length_nil] at hshort
          omega

/-- The exchange comes to an end, by one run only, and is right there exactly if a bundle takes two blocks or there is nothing to send,
the destination was no longer than the source, and the sender's descriptor is not 0. -/
theorem transfer_iff (source destination : List α) {blockSize bundleSize : Nat} (hsize : 0 < blockSize) (hbundle : 0 < bundleSize)
    (txFd rxFd : Nat) : ∃ es s, exec step (start source destination blockSize bundleSize txFd rxFd) es = some s ∧ Quiet s ∧
      (∀ es' s', exec step (start source destination blockSize bundleSize txFd rxFd) es' = some s' → es' <+: es) ∧
      (Right source s ↔ (2 ≤ bundleSize ∨ source = []) ∧ destination.length ≤ source.length ∧ txFd ≠ 0) := by
  have halone := start_alone source destination ⟨hsize, hbundle⟩ txFd rxFd
  by_cases hfd : txFd = 0
  · subst hfd
    refine ⟨[], _, rfl, ⟨rfl, rfl⟩, fun es' s' => runs_prefix halone rfl ⟨rfl, rfl⟩, iff_of_false (fun hr => ?_) fun hc => hc.2.2 rfl⟩
    have hopen : Open [.open_ 0] := by simp [Open]
    exact hopen.not_closed hr.tx
  · obtain ⟨es, s, hrun, hquiet, hiff⟩ := runs ⟨txFd, blockSize, bundleSize, source, [.open_ txFd]⟩
      ⟨-1, rxFd, destination, 0, []⟩ [] (by simpa using hfd) hsize hbundle rfl (by simp [Open]) ⟨rfl, rfl⟩ nofun
    refine ⟨es, s, hrun, hquiet, fun es' s' => runs_prefix halone hrun hquiet, hiff.trans (and_congr_right fun _ => ?_)⟩
    exact (and_iff_left hfd).symm

theorem transfer_two : ∃ es s, exec step (start [1, 2, 3] [7, 8] 1 2 3 4) es = some s ∧ Quiet s ∧ Right [1, 2, 3] s := by
  obtain ⟨es, s, hrun, hquiet, -, hiff⟩ := @transfer_iff _ [1, 2, 3] [7, 8] 1 2 (by decide) (by decide) 3 4
  exact ⟨es, s, hrun, hquiet, hiff.mpr (by decide)⟩

end DeepFabric.Distributed.FileTransfer
