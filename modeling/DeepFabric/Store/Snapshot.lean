/-
  DeepFabric.Store.Snapshot — what repeatable readers see of concurrent commits
  (core/RealTimeMap.cxx: commitCacheMemory, checkIsolateLock, putTransaction and removeTransaction
  at level 0; core/Transaction.h: getCurrentViewpoint, getNextViewpoint).

  Every begin draws the next number of the global 32-bit sequence as its viewpoint. A writer owns a
  key from its write to the key's commit or rollback, and has one uncommitted version in it. A
  commit goes from key to key: it gives the old version the current number as its limit (`limit`;
  that is all for a delete), gives the new version the current number plus one (`stamp`), and makes
  it a committed one (`publish`). Begins and reads come in between any two of these steps. What the
  server had before it started is a transaction too, number 0, that has committed.

  The number is read anew at every step. A begin between two steps of a commit gets a viewpoint that
  stands between their stamps: it sees one key of the transaction and not the other, or neither the
  old version nor the new one. `BeginSafe` says, of the state before a begin, that no commit is
  between its first stamp and its last publication, and that the sequence is not at its end.

  - `half_a_commit_seen`, `key_vanishes`: two runs in which it is.
  - `step_inv` / `inv`: on the other runs a viewpoint separates the transactions that had committed
    when it was drawn from all others, on every key.
-/
import Mathlib.Algebra.Group.Nat.Defs
import Mathlib.Data.List.TakeWhile
import DeepFabric.Lib.Run
import DeepFabric.Store.Information

namespace DeepFabric.Store.Snapshot

open DeepFabric.Lib.Run Information List Option Function

inductive Phase where
  | fresh
  | active
  | committing
  | aborting
  deriving DecidableEq, Repr

structure Tx where
  phase : Phase
  viewpoint : Nat
  /-- The keys of the conductor that are not committed yet. -/
  todo : List Nat
  /-- A key of it has been stamped. -/
  started : Bool
  /-- Who had committed as a whole when the viewpoint was drawn. -/
  snapshot : List Nat

/-- How far the owner of a key is with its commit. -/
inductive Stage where
  | untouched
  | limited
  | stamped
  deriving DecidableEq, Repr

/-- A commit of a key. -/
structure Write where
  writer : Nat
  deleted : Bool
  /-- The first viewpoint that is not ahead of it. -/
  point : Nat
  deriving DecidableEq, Repr

structure Line where
  versions : List (Information Nat)
  /-- The version its owner, whose number is in it, has not committed. -/
  uncommitted : Option (Information Nat)
  stage : Stage
  /-- The commits of the key, oldest first. -/
  history : List Write

/-- A read by a transaction that does not own the key, with the writer of the version it found. -/
structure Read where
  reader : Nat
  key : Nat
  result : Option Nat
  deriving DecidableEq, Repr

structure St where
  viewpointSequence : Nat
  begun : List Nat
  tx : Nat → Tx
  line : Nat → Line
  reads : List Read

def loadedVersion : Information Nat := ⟨0, levelCommit, false, false, false, 0, 0⟩

def init (loaded : Nat → Bool) : St where
  viewpointSequence := 0
  begun := [0]
  tx := fun t => if t = 0 then ⟨.committing, 0, [], true, [0]⟩ else ⟨.fresh, 0, [], false, []⟩
  line := fun k => if loaded k then ⟨[loadedVersion], none, .untouched, [⟨0, false, 0⟩]⟩ else ⟨[], none, .untouched, []⟩
  reads := []

/-! ## The operations -/

def St.setTx (s : St) (t : Nat) (x : Tx) : St := { s with tx := Function.update s.tx t x }

def St.setLine (s : St) (k : Nat) (l : Line) : St := { s with line := Function.update s.line k l }

def Line.chain (l : Line) : List (Information Nat) := l.versions ++ l.uncommitted.toList

def Line.owner (l : Line) : Option Nat := l.uncommitted.map (·.data)

/-- The transactions that have published all they wrote. -/
def committed (s : St) : List Nat := s.begun.filter fun u => (s.tx u).started && (s.tx u).todo.isEmpty

/-- begin, with getNextViewpoint. -/
def begin (s : St) (t : Nat) : St :=
  let viewpoint := (s.viewpointSequence + 1) % 2 ^ 32
  { s with viewpointSequence := viewpoint, begun := t :: s.begun }.setTx t ⟨.active, viewpoint, [], false, committed s⟩

/-- The version a put adds to the chain: a key that is not there, or whose last version is deleted, is created. -/
def putVersion (t : Nat) (topinfo : Option (Information Nat)) : Information Nat :=
  match topinfo with
  | none => ⟨t, levelActive, true, false, false, 0, 0⟩
  | some topinfo => ⟨t, levelActive, topinfo.deleting, true, false, 0, 0⟩

def removeVersion (t : Nat) : Information Nat := ⟨t, levelActive, false, true, true, 0, 0⟩

def own (s : St) (t k : Nat) (info : Information Nat) : St :=
  (s.setLine k { s.line k with uncommitted := some info }).setTx t { s.tx t with todo := k :: (s.tx t).todo }

def readKey (s : St) (t k : Nat) : Option Nat :=
  (checkIsolateLock (s.line k).chain (s.tx t).viewpoint .repeatable false).version.map (·.data)

def release (s : St) (t k : Nat) (l : Line) : St :=
  (s.setLine k l).setTx t { s.tx t with todo := (s.tx t).todo.erase k, started := true }

/-- The old version gets its limit; behind a delete the storyline ends there. -/
def limit (s : St) (t k : Nat) (topinfo endinfo : Information Nat) : St :=
  let l := s.line k
  let old := { topinfo.reset topinfo.viewpoint s.viewpointSequence (topinfo.level = levelCommit) with deleting := true }
  let versions := l.versions.dropLast ++ [old]
  if endinfo.deleting then
    release s t k ⟨versions, none, .untouched, l.history ++ [⟨t, true, s.viewpointSequence + 1⟩]⟩
  else (s.setLine k { l with versions := versions, stage := .limited }).setTx t { s.tx t with started := true }

def stamp (s : St) (t k : Nat) (endinfo : Information Nat) : St :=
  (s.setLine k { s.line k with
    uncommitted := some (endinfo.reset ((s.viewpointSequence + 1) % 2 ^ 32) 0 true), stage := .stamped }).setTx t
    { s.tx t with started := true }

def publish (s : St) (t k : Nat) (endinfo : Information Nat) : St :=
  let l := s.line k
  release s t k ⟨l.versions ++ [{ endinfo with level := levelCommit, creating := false, updating := false }], none, .untouched,
    l.history ++ [⟨t, false, endinfo.viewpoint⟩]⟩

inductive Ev where
  | begin (t : Nat)
  | put (t k : Nat)
  | remove (t k : Nat)
  | read (t k : Nat)
  | commit (t : Nat)
  | limit (t k : Nat)
  | stamp (t k : Nat)
  | publish (t k : Nat)
  | rollback (t : Nat)
  | undo (t k : Nat)
  deriving Repr

/-- The key is committed, or undone, by its owner. -/
def atKey (s : St) (t k : Nat) (phase : Phase) : Option (Information Nat) :=
  match (s.line k).uncommitted with
  | some endinfo => if endinfo.data = t ∧ (s.tx t).phase = phase then some endinfo else none
  | none => none

def step (s : St) : Ev → Option St
  | .begin t => if (s.tx t).phase = .fresh then some (begin s t) else none
  | .put t k =>
    if (s.tx t).phase = .active ∧ (s.line k).uncommitted = none then
      some (own s t k (putVersion t (isolateLevel (s.line k).chain levelCommit).head?))
    else none
  | .remove t k =>
    if (s.tx t).phase = .active ∧ (s.line k).uncommitted = none ∧
        (isolateLevel (s.line k).chain levelCommit).head?.any (fun topinfo => !topinfo.deleting) then
      some (own s t k (removeVersion t))
    else none
  | .read t k =>
    if (s.tx t).phase = .active ∧ (s.line k).owner ≠ some t then
      some { s with reads := ⟨t, k, readKey s t k⟩ :: s.reads }
    else none
  | .commit t => if (s.tx t).phase = .active then some (s.setTx t { s.tx t with phase := .committing }) else none
  | .limit t k =>
    match atKey s t k .committing, (isolateLevel (s.line k).chain levelCommit).head? with
    | some endinfo, some topinfo =>
      if (s.line k).stage = .untouched ∧ endinfo.updating = true ∧ topinfo.deleting = false then
        some (limit s t k topinfo endinfo)
      else none
    | _, _ => none
  | .stamp t k =>
    match atKey s t k .committing with
    | some endinfo =>
      -- a fresh key has no old version, and that of a deleted one has its limit
      if endinfo.deleting = false ∧ ((s.line k).stage = .limited
          ∨ (s.line k).stage = .untouched ∧ (endinfo.updating = true →
            (isolateLevel (s.line k).chain levelCommit).head?.all (·.deleting))) then some (stamp s t k endinfo)
      else none
    | none => none
  | .publish t k =>
    match atKey s t k .committing with
    | some endinfo => if (s.line k).stage = .stamped then some (publish s t k endinfo) else none
    | none => none
  | .rollback t => if (s.tx t).phase = .active then some (s.setTx t { s.tx t with phase := .aborting }) else none
  | .undo t k =>
    match atKey s t k .aborting with
    | some _ => some ((s.setLine k { s.line k with uncommitted := none }).setTx t
        { s.tx t with todo := (s.tx t).todo.erase k })
    | none => none

/-! ## What a reader should see -/

/-- What the commits of a set of transactions have left in a key. -/
def view (seen : Write → Bool) (history : List Write) : Option Nat :=
  match (history.filter seen).getLast? with
  | none => none
  | some w => if w.deleted then none else some w.writer

/-- The condition on a step, in the state before it: no begin while a commit is between its first stamp and its last
    publication, or at the end of the sequence. -/
def BeginSafe (s : St) : Ev → Prop
  | .begin _ => s.viewpointSequence + 2 < 2 ^ 32 ∧ ∀ u ∈ s.begun, (s.tx u).started = true → (s.tx u).todo = []
  | _ => True

instance (s : St) : (e : Ev) → Decidable (BeginSafe s e)
  | .begin _ => inferInstanceAs (Decidable (_ ∧ _))
  | .put .. | .remove .. | .read .. | .commit _ | .limit .. | .stamp .. | .publish .. | .rollback _ | .undo .. => .isTrue trivial

/-- 1 updates keys 7 and 8. 2 begins when 7 is published and 8 is not. -/
def halfTrace : List Ev :=
  [.begin 1, .put 1 7, .put 1 8, .commit 1, .limit 1 7, .stamp 1 7, .publish 1 7, .begin 2,
   .limit 1 8, .stamp 1 8, .publish 1 8, .read 2 7, .read 2 8]

/-- No set of transactions has left what 2 reads. -/
theorem half_a_commit_seen : ∃ s, Reach step Free (init fun _ => true) s
    ∧ s.reads = [⟨2, 8, some 0⟩, ⟨2, 7, some 1⟩]
    ∧ ¬∃ S : Nat → Bool, ∀ rd ∈ s.reads, rd.result = view (fun w => S w.writer) (s.line rd.key).history := by
  obtain ⟨s, hs, hr, h7, h8⟩ : ∃ s, exec step (init fun _ => true) halfTrace = some s
      ∧ s.reads = [⟨2, 8, some 0⟩, ⟨2, 7, some 1⟩] ∧ (s.line 7).history = [⟨0, false, 0⟩, ⟨1, false, 2⟩]
      ∧ (s.line 8).history = [⟨0, false, 0⟩, ⟨1, false, 3⟩] := exec_ends (by decide +kernel)
  refine ⟨s, reach_of_exec _ hs, hr, ?_⟩
  intro ⟨S, h⟩
  rw [hr] at h
  have h₈ := h _ mem_cons_self
  have h₇ := h _ (mem_cons_of_mem _ mem_cons_self)
  rw [h7] at h₇
  rw [h8] at h₈
  cases h1 : S 1 <;> cases h0 : S 0 <;> simp [view, h0, h1] at h₇ h₈

/-- 1 updates key 7. 2 begins between the stamps of the old and the new version. -/
def vanishTrace : List Ev :=
  [.begin 1, .put 1 7, .commit 1, .limit 1 7, .begin 2, .stamp 1 7, .publish 1 7, .read 2 7]

theorem key_vanishes : ∃ s, Reach step Free (init fun _ => true) s
    ∧ (s.line 7).history = [⟨0, false, 0⟩, ⟨1, false, 3⟩] ∧ s.reads = [⟨2, 7, none⟩] := by
  obtain ⟨s, hs, h⟩ : ∃ s, exec step (init fun _ => true) vanishTrace = some s
      ∧ (s.line 7).history = [⟨0, false, 0⟩, ⟨1, false, 3⟩] ∧ s.reads = [⟨2, 7, none⟩] := exec_ends (by decide +kernel)
  exact ⟨s, reach_of_exec _ hs, h⟩

/-! ## Reading a key -/

/-- The version with the last viewpoint that is not above the reader's, unless its limit is below it. -/
def seen (v : Nat) (versions : List (Information Nat)) : Option Nat :=
  match (versions.takeWhile fun i => i.viewpoint ≤ v).getLast? with
  | none => none
  | some i => if i.deleting = true ∧ i.limit < v then none else some i.data

structure LineInv (sequence : Nat) (l : Line) : Prop where
  committed : ∀ i ∈ l.versions, i.level = levelCommit ∧ i.updating = false ∧ i.creating = false
  level : ∀ e ∈ l.uncommitted, e.level = levelActive
  created : ∀ e ∈ l.uncommitted, l.versions = [] → e.creating = true ∧ e.updating = false ∧ e.deleting = false
  updated : ∀ e ∈ l.uncommitted, l.versions ≠ [] → e.updating = true
  free : l.uncommitted = none → l.stage = .untouched
  sorted : l.versions.Pairwise fun a b => a.viewpoint ≤ b.viewpoint ∧ a.deleting = true ∧ a.limit < b.viewpoint
  bounds : ∀ i ∈ l.versions, i.viewpoint ≤ sequence + 1 ∧ (i.deleting = true → i.limit ≤ sequence)
  points : ∀ w ∈ l.history, w.point ≤ sequence + 1
  limited : l.stage ≠ .untouched → ∀ i ∈ l.versions, i.deleting = true
  stamped : l.stage = .stamped → ∀ e ∈ l.uncommitted, e.viewpoint = sequence + 1 ∧ e.deleting = false
  agrees : ∀ v, v ≤ sequence ∨ l.stage = .untouched → seen v l.versions = view (fun w => w.point ≤ v) l.history

theorem view_append (p : Write → Bool) (h : List Write) (w : Write) :
    view p (h ++ [w]) = if p w then (if w.deleted then none else some w.writer) else view p h := by
  unfold view
  rw [filter_append]
  by_cases hp : p w = true
  · simp [hp]
  · simp [hp]

theorem seen_append {v : Nat} {l : List (Information Nat)} {i : Information Nat}
    (h : ∀ a ∈ l, a.viewpoint ≤ i.viewpoint) :
    seen v (l ++ [i]) =
      if i.viewpoint ≤ v then (if i.deleting = true ∧ i.limit < v then none else some i.data) else seen v l := by
  unfold seen
  by_cases hv : i.viewpoint ≤ v
  · have hall : ∀ a ∈ l, decide (a.viewpoint ≤ v) = true := by
      intro a ha
      have := h a ha
      simp only [decide_eq_true_eq]
      omega
    rw [takeWhile_append_of_pos hall]
    simp [hv]
  · have htail : (l ++ [i]).takeWhile (fun i => i.viewpoint ≤ v) = l.takeWhile fun i => i.viewpoint ≤ v := by
      rw [takeWhile_append]
      split
      · rename_i hlen
        rw [(takeWhile_sublist _).eq_of_length hlen]
        simp [hv]
      · rfl
    rw [htail, if_neg hv]

section Reader
variable {sequence : Nat} {l : Line} (hl : LineInv sequence l)
include hl

theorem versions_committed : Committed l.versions where
  level i hi := (hl.committed i hi).1
  updating i hi := (hl.committed i hi).2.1
  creating i hi := (hl.committed i hi).2.2

theorem uncommitted_level : ∀ i ∈ l.uncommitted.toList, i.level ≠ levelCommit := by
  intro i hi
  rw [hl.level i (mem_toList.mp hi)]
  decide

theorem head?_isolateLevel : (isolateLevel l.chain levelCommit).head? = l.versions.getLast?.or l.uncommitted := by
  unfold isolateLevel Line.chain
  rw [walk_committed (uncommitted_level hl) (fun i hi => by simp [hl.committed i hi]) fun i hi => by simp [hi]]
  cases hv : l.versions.getLast? with
  | some i => rfl
  | none =>
    rw [List.getLast?_eq_none_iff.mp hv]
    cases l.uncommitted <;> rfl

theorem version_read (v : Nat) :
    (checkIsolateLock l.chain v .repeatable false).version.map (·.data) = seen v l.versions := by
  unfold Line.chain
  rw [version_stranger (versions_committed hl) (uncommitted_level hl) hl.sorted, viewed, if_pos rfl, seen]
  cases (l.versions.takeWhile fun i => i.viewpoint ≤ v).getLast? with
  | none => rfl
  | some i =>
    rw [filter_some]
    by_cases hd : i.deleting = true ∧ i.limit < v
    · simp [hd]
    · have hp : (!(i.deleting && decide (i.limit < v))) = true := by
        cases h : i.deleting <;> simp_all
      simp [hp, hd]

end Reader

/-- The last version gets the current viewpoint as its limit. -/
def limitVersion (sequence : Nat) (topinfo : Information Nat) : Information Nat :=
  { topinfo with limit := sequence, deleting := true }

section Limit
variable {sequence : Nat} {l : Line} (hl : LineInv sequence l) {front : List (Information Nat)} {topinfo : Information Nat}
  (hv : l.versions = front ++ [topinfo])
include hl hv

theorem limit_versions : (∀ i ∈ front ++ [limitVersion sequence topinfo],
      i.level = levelCommit ∧ i.updating = false ∧ i.creating = false)
    ∧ (front ++ [limitVersion sequence topinfo]).Pairwise
      (fun a b => a.viewpoint ≤ b.viewpoint ∧ a.deleting = true ∧ a.limit < b.viewpoint)
    ∧ (∀ i ∈ front ++ [limitVersion sequence topinfo],
      i.viewpoint ≤ sequence + 1 ∧ (i.deleting = true → i.limit ≤ sequence))
    ∧ ∀ i ∈ front ++ [limitVersion sequence topinfo], i.deleting = true := by
  have hc := hl.committed
  have hs := hl.sorted
  have hb := hl.bounds
  rw [hv] at hc hs hb
  obtain ⟨hfront, -, hlast⟩ := pairwise_append.mp hs
  refine ⟨?_, pairwise_append.mpr ⟨hfront, pairwise_singleton _ _, ?_⟩, ?_, ?_⟩
  · intro i hi
    rcases mem_append.mp hi with hi | hi
    · exact hc i (mem_append_left _ hi)
    · obtain rfl := mem_singleton.mp hi
      exact hc topinfo (by simp)
  · intro a ha b hb
    obtain rfl := mem_singleton.mp hb
    exact hlast a ha topinfo (by simp)
  · intro i hi
    rcases mem_append.mp hi with hi | hi
    · exact hb i (mem_append_left _ hi)
    · obtain rfl := mem_singleton.mp hi
      exact ⟨(hb topinfo (by simp)).1, fun _ => Nat.le_refl _⟩
  · intro i hi
    rcases mem_append.mp hi with hi | hi
    · exact (hlast i hi topinfo (by simp)).2.1
    · obtain rfl := mem_singleton.mp hi
      rfl

/-- It stays where it was for the viewpoints drawn so far, and is out of sight for the others. -/
theorem seen_limit (hd : topinfo.deleting = false) (v : Nat) : seen v (front ++ [limitVersion sequence topinfo])
    = if sequence < v then none else seen v l.versions := by
  have hs := hl.sorted
  have hb := (hl.bounds topinfo (by rw [hv]; simp)).1
  rw [hv] at hs
  have hle : ∀ a ∈ front, a.viewpoint ≤ topinfo.viewpoint :=
    fun a ha => ((pairwise_append.mp hs).2.2 a ha topinfo (by simp)).1
  rw [hv, seen_append hle, seen_append (i := limitVersion sequence topinfo) hle]
  simp only [limitVersion, hd, true_and, Bool.false_eq_true, false_and, if_false]
  by_cases hlt : sequence < v
  · rw [if_pos hlt, if_pos (by omega), if_pos hlt]
  · rw [if_neg hlt, if_neg hlt]

end Limit

/-! ## The invariant -/

structure Inv (s : St) : Prop where
  sequence : s.viewpointSequence + 1 < 2 ^ 32
  lines : ∀ k, LineInv s.viewpointSequence (s.line k)
  owned : ∀ k, ∀ e ∈ (s.line k).uncommitted, k ∈ (s.tx e.data).todo ∧ (s.tx e.data).phase ≠ .fresh
  inCommit : ∀ k, ∀ e ∈ (s.line k).uncommitted, (s.line k).stage ≠ .untouched → (s.tx e.data).started = true
  begun : ∀ t, t ∈ s.begun ↔ (s.tx t).phase ≠ .fresh
  started : ∀ t, (s.tx t).started = true → (s.tx t).phase = .committing
  writers : ∀ k, ∀ w ∈ (s.line k).history, (s.tx w.writer).started = true
  drawn : ∀ t, (s.tx t).phase ≠ .fresh → (s.tx t).viewpoint ≤ s.viewpointSequence
  /-- A viewpoint is ahead of the commits of those who had not committed when it was drawn, and of no others. -/
  separates : ∀ t, (s.tx t).phase ≠ .fresh → ∀ k, ∀ w ∈ (s.line k).history,
    w.point ≤ (s.tx t).viewpoint ↔ w.writer ∈ (s.tx t).snapshot
  closed : ∀ t, ∀ u ∈ (s.tx t).snapshot, (s.tx u).started = true ∧ (s.tx u).todo = []
  reads : ∀ rd ∈ s.reads, (s.tx rd.reader).phase ≠ .fresh
    ∧ rd.result = view (fun w => w.point ≤ (s.tx rd.reader).viewpoint) (s.line rd.key).history

theorem loaded_inv : LineInv 0 ⟨[loadedVersion], none, .untouched, [⟨0, false, 0⟩]⟩ where
  committed := by simp [loadedVersion]
  level := by simp
  created := by simp
  updated := by simp
  free _ := rfl
  sorted := pairwise_singleton _ _
  bounds := by simp [loadedVersion]
  points := by simp
  limited h := absurd rfl h
  stamped h := by cases h
  agrees := by simp [seen, view, loadedVersion]

theorem empty_inv (sequence : Nat) : LineInv sequence ⟨[], none, .untouched, []⟩ where
  committed := by simp
  level := by simp
  created := by simp
  updated := by simp
  free _ := rfl
  sorted := List.Pairwise.nil
  bounds := by simp
  points := by simp
  limited h := absurd rfl h
  stamped h := by cases h
  agrees := by simp [seen, view]

theorem init_inv (loaded : Nat → Bool) : Inv (init loaded) where
  sequence := by simp [init]
  lines k := by
    unfold init
    dsimp only
    split
    · exact loaded_inv
    · exact empty_inv 0
  owned k e he := by
    simp only [init] at he
    split at he <;> cases he
  inCommit k e he := by
    simp only [init] at he
    split at he <;> cases he
  begun t := by
    by_cases h : t = 0 <;> simp [init, h]
  started t h := by
    by_cases h0 : t = 0 <;> simp_all [init]
  writers k w hw := by
    simp only [init] at hw ⊢
    split at hw
    · obtain rfl := mem_singleton.mp hw
      rfl
    · exact absurd hw not_mem_nil
  drawn t h := by
    by_cases h0 : t = 0 <;> simp_all [init]
  separates t h k w hw := by
    by_cases h0 : t = 0
    · simp only [init] at hw
      split at hw
      · obtain rfl := mem_singleton.mp hw
        simp [init, h0]
      · exact absurd hw not_mem_nil
    · simp [init, h0] at h
  closed t u hu := by
    by_cases h0 : t = 0
    · simp_all [init]
    · simp [init, h0] at hu
  reads rd h := absurd h not_mem_nil

section Steps
variable {s : St} (hi : Inv s) {t k : Nat}
include hi

/-- A transaction with a key to commit is in no snapshot. -/
theorem open_not_seen (h : k ∈ (s.tx t).todo) (u : Nat) : t ∉ (s.tx u).snapshot := by
  intro hu
  rw [(hi.closed u t hu).2] at h
  exact absurd h not_mem_nil

theorem active_not_seen (h : (s.tx t).phase ≠ .committing) (u : Nat) : t ∉ (s.tx u).snapshot := by
  intro hu
  exact h (hi.started t (hi.closed u t hu).1)

/-- A transaction moves on at one of its keys: it keeps its viewpoint, and what it adds to the history of the key comes
    behind every viewpoint. -/
theorem setKey_inv {l : Line} {x : Tx} (hseen : ∀ u, t ∉ (s.tx u).snapshot) (hphase : (s.tx t).phase ≠ .fresh)
    (hx : x.phase = (s.tx t).phase ∧ x.viewpoint = (s.tx t).viewpoint ∧ x.snapshot = (s.tx t).snapshot)
    (hl : LineInv s.viewpointSequence l) (howner : ∀ e ∈ l.uncommitted, e.data = t ∧ k ∈ x.todo)
    (htodo : ∀ j, j ≠ k → j ∈ (s.tx t).todo → j ∈ x.todo) (hstage : l.stage ≠ .untouched → x.started = true)
    (hkeep : (s.tx t).started = true → x.started = true) (hstart : x.started = true → x.phase = .committing)
    (hhist : l.history = (s.line k).history
      ∨ ∃ d, l.history = (s.line k).history ++ [⟨t, d, s.viewpointSequence + 1⟩] ∧ x.started = true) :
    Inv ((s.setLine k l).setTx t x) := by
  have hself : ((s.setLine k l).setTx t x).tx t = x := update_self ..
  have hother {u : Nat} (hu : u ≠ t) : ((s.setLine k l).setTx t x).tx u = s.tx u := update_of_ne hu ..
  have hline : ((s.setLine k l).setTx t x).line k = l := update_self ..
  have hlines {j : Nat} (hj : j ≠ k) : ((s.setLine k l).setTx t x).line j = s.line j := update_of_ne hj ..
  have hsame (u : Nat) : (((s.setLine k l).setTx t x).tx u).phase = (s.tx u).phase
      ∧ (((s.setLine k l).setTx t x).tx u).viewpoint = (s.tx u).viewpoint
      ∧ (((s.setLine k l).setTx t x).tx u).snapshot = (s.tx u).snapshot := by
    rcases eq_or_ne u t with rfl | hu
    · rw [hself]
      exact hx
    · rw [hother hu]
      exact ⟨rfl, rfl, rfl⟩
  have hstarted {u : Nat} (hu : (s.tx u).started = true) : (((s.setLine k l).setTx t x).tx u).started = true := by
    rcases eq_or_ne u t with rfl | hut
    · rw [hself]
      exact hkeep hu
    · rwa [hother hut]
  -- the commits of a key are those it had, and at most one more of this transaction
  have hnew (j : Nat) (w : Write) (hw : w ∈ (((s.setLine k l).setTx t x).line j).history) :
      w ∈ (s.line j).history ∨ w.writer = t ∧ w.point = s.viewpointSequence + 1 ∧ x.started = true := by
    rcases eq_or_ne j k with rfl | hj
    · rw [hline] at hw
      rcases hhist with h | ⟨d, h, hs⟩
      · exact .inl (h ▸ hw)
      · rw [h, mem_append, mem_singleton] at hw
        rcases hw with hw | rfl
        · exact .inl hw
        · exact .inr ⟨rfl, rfl, hs⟩
    · rw [hlines hj] at hw
      exact .inl hw
  refine ⟨hi.sequence, ?_, ?_, ?_, ?_, ?_, ?_, ?_, ?_, ?_, ?_⟩
  · intro j
    rcases eq_or_ne j k with rfl | hj
    · rw [hline]
      exact hl
    · rw [hlines hj]
      exact hi.lines j
  · intro j e he
    rcases eq_or_ne j k with rfl | hj
    · rw [hline] at he
      obtain ⟨rfl, hmem⟩ := howner e he
      rw [hself]
      exact ⟨hmem, hx.1 ▸ hphase⟩
    · rw [hlines hj] at he
      obtain ⟨hmem, hne⟩ := hi.owned j e he
      rw [(hsame e.data).1]
      refine ⟨?_, hne⟩
      rcases eq_or_ne e.data t with heq | hu
      · rw [heq, hself]
        exact htodo j hj (heq ▸ hmem)
      · rwa [hother hu]
  · intro j e he hst
    rcases eq_or_ne j k with rfl | hj
    · rw [hline] at he hst
      rw [(howner e he).1, hself]
      exact hstage hst
    · rw [hlines hj] at he hst
      exact hstarted (hi.inCommit j e he hst)
  · intro u
    rw [(hsame u).1]
    exact hi.begun u
  · intro u hu
    rw [(hsame u).1]
    rcases eq_or_ne u t with rfl | hut
    · rw [hself] at hu
      exact hx.1 ▸ hstart hu
    · rw [hother hut] at hu
      exact hi.started u hu
  · intro j w hw
    rcases hnew j w hw with hw | ⟨hwt, -, hs⟩
    · exact hstarted (hi.writers j w hw)
    · rw [hwt, hself]
      exact hs
  · intro u hu
    rw [(hsame u).1] at hu
    rw [(hsame u).2.1]
    exact hi.drawn u hu
  · intro u hu j w hw
    rw [(hsame u).1] at hu
    rw [(hsame u).2.1, (hsame u).2.2]
    rcases hnew j w hw with hw | ⟨hwt, hp, -⟩
    · exact hi.separates u hu j w hw
    · have := hi.drawn u hu
      rw [hwt, hp]
      exact iff_of_false (by omega) (hseen u)
  · intro u v hv
    rw [(hsame u).2.2] at hv
    have hvt : v ≠ t := fun h => hseen u (h ▸ hv)
    rw [hother hvt]
    exact hi.closed u v hv
  · intro rd hrd
    obtain ⟨hne, hres⟩ := hi.reads rd hrd
    rw [(hsame rd.reader).1, (hsame rd.reader).2.1]
    refine ⟨hne, ?_⟩
    rcases eq_or_ne rd.key k with hk | hk
    · rw [hk] at hres
      rw [hk, hline]
      rcases hhist with h | ⟨d, h, -⟩
      · rwa [h]
      · have := hi.drawn rd.reader hne
        rw [h, view_append, if_neg (by simp; omega)]
        exact hres
    · rwa [hlines hk]

theorem own_inv {info : Information Nat} (ht : (s.tx t).phase = .active) (hfree : (s.line k).uncommitted = none)
    (hdata : info.data = t) (hlevel : info.level = levelActive)
    (hnil : (s.line k).versions = [] → info.creating = true ∧ info.updating = false ∧ info.deleting = false)
    (hcons : (s.line k).versions ≠ [] → info.updating = true) : Inv (own s t k info) := by
  have hl := hi.lines k
  have hst := hl.free hfree
  have hseen := active_not_seen hi (t := t) (by simp [ht])
  refine setKey_inv hi hseen (by simp [ht]) ⟨rfl, rfl, rfl⟩ { hl with
    level := ?_
    created := ?_
    updated := ?_
    free := fun h => by cases h
    stamped := fun h => by simp [hst] at h } ?_ ?_ ?_ id (hi.started t) (.inl rfl)
  · rintro e ⟨⟩
    exact hlevel
  · rintro e ⟨⟩ hv
    exact hnil hv
  · rintro e ⟨⟩ hv
    exact hcons hv
  · rintro e ⟨⟩
    exact ⟨hdata, mem_cons_self⟩
  · intro j _ hj
    exact mem_cons_of_mem _ hj
  · intro h
    exact absurd hst h

theorem put_inv (ht : (s.tx t).phase = .active) (hfree : (s.line k).uncommitted = none) :
    Inv (own s t k (putVersion t (isolateLevel (s.line k).chain levelCommit).head?)) := by
  rw [head?_isolateLevel (hi.lines k), hfree, or_none]
  refine own_inv hi ht hfree ?_ ?_ ?_ ?_
  · cases (s.line k).versions.getLast? <;> rfl
  · cases (s.line k).versions.getLast? <;> rfl
  · intro h
    rw [h]
    exact ⟨rfl, rfl, rfl⟩
  · intro h
    rw [List.getLast?_eq_some_getLast h]
    rfl

theorem remove_inv (ht : (s.tx t).phase = .active) (hfree : (s.line k).uncommitted = none)
    (htop : (isolateLevel (s.line k).chain levelCommit).head?.any (fun topinfo => !topinfo.deleting) = true) :
    Inv (own s t k (removeVersion t)) := by
  rw [head?_isolateLevel (hi.lines k), hfree, or_none] at htop
  refine own_inv hi ht hfree rfl rfl (fun h => ?_) fun _ => rfl
  simp [h] at htop

theorem begin_inv (ht : (s.tx t).phase = .fresh) (hok : BeginSafe s (.begin t)) : Inv (begin s t) := by
  obtain ⟨hroom, hquiet⟩ := hok
  have hseq : (s.viewpointSequence + 1) % 2 ^ 32 = s.viewpointSequence + 1 := Nat.mod_eq_of_lt (by omega)
  unfold begin
  dsimp only
  rw [hseq]
  set s' := { s with viewpointSequence := s.viewpointSequence + 1, begun := t :: s.begun }.setTx t
    ⟨.active, s.viewpointSequence + 1, [], false, committed s⟩ with hs'
  have hself : s'.tx t = ⟨.active, s.viewpointSequence + 1, [], false, committed s⟩ := update_self ..
  have hother {u : Nat} (hu : u ≠ t) : s'.tx u = s.tx u := update_of_ne hu ..
  have hne {u : Nat} (hu : (s.tx u).phase ≠ .fresh) : u ≠ t := fun h => hu (h ▸ ht)
  have hrun {u : Nat} (hu : (s.tx u).started = true) : (s.tx u).phase ≠ .fresh := by
    rw [hi.started u hu]
    decide
  have hdone {u : Nat} (hu : (s.tx u).started = true) : (s.tx u).todo = [] := hquiet u ((hi.begun u).mpr (hrun hu)) hu
  -- nobody is halfway through a key
  have hstage (k : Nat) : (s.line k).stage = .untouched := by
    cases he : (s.line k).uncommitted with
    | none => exact (hi.lines k).free he
    | some e =>
      by_contra hst
      have hmem := (hi.owned k e he).1
      rw [hdone (hi.inCommit k e he hst)] at hmem
      exact absurd hmem not_mem_nil
  refine ⟨by show s.viewpointSequence + 1 + 1 < 2 ^ 32; omega, ?_, ?_, ?_, ?_, ?_, ?_, ?_, ?_, ?_, ?_⟩
  · intro k
    have hl := hi.lines k
    exact { hl with
      bounds := fun i hi => ⟨Nat.le_succ_of_le (hl.bounds i hi).1, fun hd => Nat.le_succ_of_le ((hl.bounds i hi).2 hd)⟩
      points := fun w hw => Nat.le_succ_of_le (hl.points w hw)
      stamped := fun h => by cases (hstage k).symm.trans h
      agrees := fun v _ => hl.agrees v (.inr (hstage k)) }
  · intro k e he
    obtain ⟨hmem, hf⟩ := hi.owned k e he
    rw [hother (hne hf)]
    exact ⟨hmem, hf⟩
  · intro k e he hst
    exact absurd (hstage k) hst
  · intro u
    rcases eq_or_ne u t with rfl | hu
    · rw [hself]
      exact iff_of_true mem_cons_self (by simp)
    · rw [hother hu, ← hi.begun u]
      exact ⟨fun h => (mem_cons.mp h).resolve_left hu, mem_cons_of_mem _⟩
  · intro u hu
    rcases eq_or_ne u t with rfl | hut
    · rw [hself] at hu
      cases hu
    · rw [hother hut] at hu ⊢
      exact hi.started u hu
  · intro k w hw
    have hw := hi.writers k w hw
    rwa [hother (hne (hrun hw))]
  · intro u hu
    rcases eq_or_ne u t with rfl | hut
    · rw [hself]
      exact Nat.le_refl _
    · rw [hother hut] at hu ⊢
      exact Nat.le_succ_of_le (hi.drawn u hu)
  · intro u hu k w hw
    rcases eq_or_ne u t with rfl | hut
    · rw [hself]
      have hst := hi.writers k w hw
      refine iff_of_true ((hi.lines k).points w hw) (mem_filter.mpr ⟨(hi.begun _).mpr (hrun hst), ?_⟩)
      simp [hst, hdone hst]
    · rw [hother hut] at hu ⊢
      exact hi.separates u hu k w hw
  · intro u v hv
    have hv : (s.tx v).started = true ∧ (s.tx v).todo = [] := by
      rcases eq_or_ne u t with rfl | hut
      · rw [hself] at hv
        simpa using (mem_filter.mp hv).2
      · rw [hother hut] at hv
        exact hi.closed u v hv
    rwa [hother (hne (hrun hv.1))]
  · intro rd hrd
    obtain ⟨hf, hres⟩ := hi.reads rd hrd
    rw [hother (hne hf)]
    exact ⟨hf, hres⟩

theorem read_inv (ht : (s.tx t).phase = .active) : Inv { s with reads := ⟨t, k, readKey s t k⟩ :: s.reads } := by
  refine { hi with reads := fun rd hrd => ?_ }
  rcases mem_cons.mp hrd with rfl | hrd
  · have hf : (s.tx t).phase ≠ .fresh := by simp [ht]
    refine ⟨hf, ?_⟩
    show readKey s t k = _
    unfold readKey
    rw [version_read (hi.lines k)]
    exact (hi.lines k).agrees _ (.inl (hi.drawn t hf))
  · exact hi.reads rd hrd

/-- A transaction that has not stamped a key goes over to its commit or its rollback. -/
theorem setPhase_inv {phase : Phase} (ht : (s.tx t).phase = .active) (hp : phase ≠ .fresh) :
    Inv (s.setTx t { s.tx t with phase := phase }) := by
  have hself : (s.setTx t { s.tx t with phase := phase }).tx t = { s.tx t with phase := phase } := update_self ..
  have hother {u : Nat} (hu : u ≠ t) : (s.setTx t { s.tx t with phase := phase }).tx u = s.tx u := update_of_ne hu ..
  have hstopped : (s.tx t).started = false := by
    by_contra h
    have := hi.started t (by simpa using h)
    rw [ht] at this
    cases this
  have hsame (u : Nat) : (s.setTx t { s.tx t with phase := phase }).tx u
      = { s.tx u with phase := ((s.setTx t { s.tx t with phase := phase }).tx u).phase } := by
    rcases eq_or_ne u t with rfl | hu
    · rw [hself]
    · rw [hother hu]
  have hfresh (u : Nat) : ((s.setTx t { s.tx t with phase := phase }).tx u).phase ≠ .fresh ↔ (s.tx u).phase ≠ .fresh := by
    rcases eq_or_ne u t with rfl | hu
    · rw [hself, ht]
      exact iff_of_true hp (by decide)
    · rw [hother hu]
  refine { hi with owned := ?_, inCommit := ?_, begun := ?_, started := ?_, writers := ?_, drawn := ?_, separates := ?_,
                   closed := ?_, reads := ?_ }
  · intro k e he
    rw [hfresh, hsame]
    exact hi.owned k e he
  · intro k e he hst
    rw [hsame]
    exact hi.inCommit k e he hst
  · intro u
    rw [hfresh]
    exact hi.begun u
  · intro u hu
    rcases eq_or_ne u t with rfl | hut
    · rw [hself, hstopped] at hu
      cases hu
    · rw [hother hut] at hu ⊢
      exact hi.started u hu
  · intro k w hw
    rw [hsame]
    exact hi.writers k w hw
  · intro u hu
    rw [hsame]
    exact hi.drawn u ((hfresh u).mp hu)
  · intro u hu
    rw [hsame]
    exact hi.separates u ((hfresh u).mp hu)
  · intro u v hv
    rw [hsame] at hv ⊢
    exact hi.closed u v hv
  · intro rd hrd
    rw [hfresh, hsame]
    exact hi.reads rd hrd

theorem limit_inv {topinfo endinfo : Information Nat} (he : (s.line k).uncommitted = some endinfo) (hdata : endinfo.data = t)
    (ht : (s.tx t).phase = .committing) (hst : (s.line k).stage = .untouched) (hup : endinfo.updating = true)
    (htop : (isolateLevel (s.line k).chain levelCommit).head? = some topinfo) (hd : topinfo.deleting = false) :
    Inv (limit s t k topinfo endinfo) := by
  have hl := hi.lines k
  have hown := (hi.owned k endinfo he).1
  rw [hdata] at hown
  have hne : (s.line k).versions ≠ [] := by
    intro h
    rw [(hl.created endinfo he h).2.1] at hup
    cases hup
  rw [head?_isolateLevel hl, List.getLast?_eq_some_getLast hne, some_or, some_inj] at htop
  have hv : (s.line k).versions = (s.line k).versions.dropLast ++ [topinfo] := by
    rw [← htop, dropLast_concat_getLast]
  have hcommit : topinfo.level = levelCommit := (hl.committed topinfo (by rw [hv]; simp)).1
  obtain ⟨hc, hs, hb, hall⟩ := limit_versions hl hv
  have hseen := seen_limit hl hv hd
  have hold : { topinfo.reset topinfo.viewpoint s.viewpointSequence (decide (topinfo.level = levelCommit)) with deleting := true }
      = limitVersion s.viewpointSequence topinfo := by
    simp [Information.reset, hcommit, limitVersion]
  unfold limit
  dsimp only
  rw [hold]
  split
  · refine setKey_inv hi (open_not_seen hi hown) (by simp [ht]) ⟨rfl, rfl, rfl⟩ {
      committed := hc
      level := fun e h => by cases h
      created := fun e h => by cases h
      updated := fun e h => by cases h
      free := fun _ => rfl
      sorted := hs
      bounds := hb
      points := ?_
      limited := fun h => absurd rfl h
      stamped := fun h => by cases h
      agrees := ?_ } (fun e h => by cases h) ?_ (fun h => absurd rfl h) (fun _ => rfl) (fun _ => ht) (.inr ⟨true, rfl, rfl⟩)
    · intro w hw
      rcases mem_append.mp hw with hw | hw
      · exact hl.points w hw
      · obtain rfl := mem_singleton.mp hw
        exact Nat.le_refl _
    · intro v _
      rw [hseen, view_append]
      by_cases hlt : s.viewpointSequence < v
      · rw [if_pos hlt, if_pos (by simp only [decide_eq_true_eq]; omega)]
        rfl
      · rw [if_neg hlt, if_neg (by simp only [decide_eq_true_eq]; omega)]
        exact hl.agrees v (.inr hst)
    · intro j hj hmem
      exact (mem_erase_of_ne hj).mpr hmem
  · refine setKey_inv hi (open_not_seen hi hown) (by simp [ht]) ⟨rfl, rfl, rfl⟩ { hl with
      committed := hc
      created := fun e _ h => by simp at h
      updated := fun e h _ => hl.updated e h hne
      free := fun h => by simp [he] at h
      sorted := hs
      bounds := hb
      limited := fun _ => hall
      stamped := fun h => by cases h
      agrees := ?_ } ?_ (fun j _ hj => hj) (fun _ => rfl) (fun _ => rfl) (fun _ => ht) (.inl rfl)
    · intro v hor
      rcases hor with hle | h
      · rw [hseen, if_neg (by omega)]
        exact hl.agrees v (.inl hle)
      · cases h
    · intro e h
      obtain rfl := Option.some.inj (he.symm.trans h)
      exact ⟨hdata, hown⟩

theorem stamp_inv {endinfo : Information Nat} (he : (s.line k).uncommitted = some endinfo) (hdata : endinfo.data = t)
    (ht : (s.tx t).phase = .committing) (hd : endinfo.deleting = false)
    (hst : (s.line k).stage = .limited ∨ (s.line k).stage = .untouched ∧ (endinfo.updating = true →
      (isolateLevel (s.line k).chain levelCommit).head?.all (·.deleting) = true)) : Inv (stamp s t k endinfo) := by
  have hl := hi.lines k
  have hseq : (s.viewpointSequence + 1) % 2 ^ 32 = s.viewpointSequence + 1 := Nat.mod_eq_of_lt hi.sequence
  have hown := (hi.owned k endinfo he).1
  rw [hdata] at hown
  have hall : ∀ i ∈ (s.line k).versions, i.deleting = true := by
    rcases hst with h | ⟨-, h⟩
    · exact hl.limited (by simp [h])
    · intro i hi
      have hne : (s.line k).versions ≠ [] := ne_nil_of_mem hi
      have hlast := h (hl.updated endinfo he hne)
      rw [head?_isolateLevel hl, List.getLast?_eq_some_getLast hne] at hlast
      rw [← dropLast_concat_getLast hne] at hi
      have hs := hl.sorted
      rw [← dropLast_concat_getLast hne] at hs
      rcases mem_append.mp hi with hi | hi
      · exact ((pairwise_append.mp hs).2.2 i hi _ (mem_singleton_self _)).2.1
      · rw [mem_singleton.mp hi]
        simpa using hlast
  unfold stamp
  rw [hseq]
  refine setKey_inv hi (open_not_seen hi hown) (by simp [ht]) ⟨rfl, rfl, rfl⟩ { hl with
    level := ?_
    created := ?_
    updated := ?_
    free := fun h => by cases h
    limited := fun _ => hall
    stamped := ?_
    agrees := ?_ } ?_ (fun j _ hj => hj) (fun _ => rfl) (fun _ => rfl) (fun _ => ht) (.inl rfl)
  · rintro e ⟨⟩
    exact hl.level endinfo he
  · rintro e ⟨⟩
    exact hl.created endinfo he
  · rintro e ⟨⟩
    exact hl.updated endinfo he
  · rintro - e ⟨⟩
    exact ⟨rfl, hd⟩
  · intro v hor
    rcases hor with hle | h
    · exact hl.agrees v (.inl hle)
    · cases h
  · rintro e ⟨⟩
    exact ⟨hdata, hown⟩

theorem publish_inv {endinfo : Information Nat} (he : (s.line k).uncommitted = some endinfo) (hdata : endinfo.data = t)
    (ht : (s.tx t).phase = .committing) (hst : (s.line k).stage = .stamped) : Inv (publish s t k endinfo) := by
  have hl := hi.lines k
  have hown := (hi.owned k endinfo he).1
  rw [hdata] at hown
  obtain ⟨hvp, hd⟩ := hl.stamped hst endinfo he
  have hall := hl.limited (by simp [hst])
  have hle : ∀ a ∈ (s.line k).versions, a.viewpoint ≤ endinfo.viewpoint := by
    intro a ha
    rw [hvp]
    exact (hl.bounds a ha).1
  unfold publish
  dsimp only
  refine setKey_inv hi (open_not_seen hi hown) (by simp [ht]) ⟨rfl, rfl, rfl⟩ {
    committed := ?_
    level := fun e h => by cases h
    created := fun e h => by cases h
    updated := fun e h => by cases h
    free := fun _ => rfl
    sorted := pairwise_append.mpr ⟨hl.sorted, pairwise_singleton _ _, ?_⟩
    bounds := ?_
    points := ?_
    limited := fun h => absurd rfl h
    stamped := fun h => by cases h
    agrees := ?_ } (fun e h => by cases h) ?_ (fun h => absurd rfl h) (fun _ => rfl) (fun _ => ht)
    (.inr ⟨false, by rw [hvp], rfl⟩)
  · intro i hi
    rcases mem_append.mp hi with hi | hi
    · exact hl.committed i hi
    · obtain rfl := mem_singleton.mp hi
      exact ⟨rfl, rfl, rfl⟩
  · intro a ha b hb
    obtain rfl := mem_singleton.mp hb
    refine ⟨hle a ha, hall a ha, ?_⟩
    have := (hl.bounds a ha).2 (hall a ha)
    show a.limit < endinfo.viewpoint
    omega
  · intro i hi
    rcases mem_append.mp hi with hi | hi
    · exact hl.bounds i hi
    · obtain rfl := mem_singleton.mp hi
      refine ⟨Nat.le_of_eq hvp, fun h => ?_⟩
      change endinfo.deleting = true at h
      rw [hd] at h
      cases h
  · intro w hw
    rcases mem_append.mp hw with hw | hw
    · exact hl.points w hw
    · obtain rfl := mem_singleton.mp hw
      exact Nat.le_of_eq hvp
  · intro v _
    rw [seen_append (i := { endinfo with level := levelCommit, creating := false, updating := false }) hle, view_append]
    simp only [decide_eq_true_eq, hd, Bool.false_eq_true, false_and, if_false, hdata]
    by_cases hv : endinfo.viewpoint ≤ v
    · rw [if_pos hv, if_pos hv]
    · rw [if_neg hv, if_neg hv]
      exact hl.agrees v (.inl (by omega))
  · intro j hj hmem
    exact (mem_erase_of_ne hj).mpr hmem

theorem undo_inv {endinfo : Information Nat} (he : (s.line k).uncommitted = some endinfo) (hdata : endinfo.data = t)
    (ht : (s.tx t).phase = .aborting) :
    Inv ((s.setLine k { s.line k with uncommitted := none }).setTx t { s.tx t with todo := (s.tx t).todo.erase k }) := by
  have hl := hi.lines k
  have hst : (s.line k).stage = .untouched := by
    by_contra h
    have := hi.started _ (hi.inCommit k endinfo he h)
    rw [hdata, ht] at this
    cases this
  refine setKey_inv hi (active_not_seen hi (by simp [ht])) (by simp [ht]) ⟨rfl, rfl, rfl⟩ { hl with
    level := fun e h => by cases h
    created := fun e h => by cases h
    updated := fun e h => by cases h
    free := fun _ => hst
    stamped := fun h => by simp [hst] at h } (fun e h => by cases h) ?_ (fun h => absurd hst h) id (hi.started t) (.inl rfl)
  intro j hj hmem
  exact (mem_erase_of_ne hj).mpr hmem

end Steps

theorem atKey_eq_some {s : St} {t k : Nat} {phase : Phase} {endinfo : Information Nat} (h : atKey s t k phase = some endinfo) :
    (s.line k).uncommitted = some endinfo ∧ endinfo.data = t ∧ (s.tx t).phase = phase := by
  unfold atKey at h
  split at h
  · rename_i e he
    obtain ⟨⟨hd, hp⟩, ⟨⟩⟩ := ite_none_right_eq_some.mp h
    exact ⟨he, hd, hp⟩
  · cases h

theorem step_inv {s s' : St} {e : Ev} (hi : Inv s) (hok : BeginSafe s e) (h : step s e = some s') : Inv s' := by
  cases e with
  | begin t =>
    obtain ⟨ht, ⟨⟩⟩ := ite_none_right_eq_some.mp h
    exact begin_inv hi ht hok
  | put t k =>
    obtain ⟨⟨ht, hfree⟩, ⟨⟩⟩ := ite_none_right_eq_some.mp h
    exact put_inv hi ht hfree
  | remove t k =>
    obtain ⟨⟨ht, hfree, htop⟩, ⟨⟩⟩ := ite_none_right_eq_some.mp h
    exact remove_inv hi ht hfree htop
  | read t k =>
    obtain ⟨⟨ht, -⟩, ⟨⟩⟩ := ite_none_right_eq_some.mp h
    exact read_inv hi ht
  | commit t =>
    obtain ⟨ht, ⟨⟩⟩ := ite_none_right_eq_some.mp h
    exact setPhase_inv hi ht (by decide)
  | limit t k =>
    simp only [step] at h
    split at h
    · rename_i hat htop
      obtain ⟨he, hdata, ht⟩ := atKey_eq_some hat
      obtain ⟨⟨hst, hup, hd⟩, ⟨⟩⟩ := ite_none_right_eq_some.mp h
      exact limit_inv hi he hdata ht hst hup htop hd
    · cases h
  | stamp t k =>
    simp only [step] at h
    split at h
    · rename_i hat
      obtain ⟨he, hdata, ht⟩ := atKey_eq_some hat
      obtain ⟨⟨hd, hst⟩, ⟨⟩⟩ := ite_none_right_eq_some.mp h
      exact stamp_inv hi he hdata ht hd hst
    · cases h
  | publish t k =>
    simp only [step] at h
    split at h
    · rename_i hat
      obtain ⟨he, hdata, ht⟩ := atKey_eq_some hat
      obtain ⟨hst, ⟨⟩⟩ := ite_none_right_eq_some.mp h
      exact publish_inv hi he hdata ht hst
    · cases h
  | rollback t =>
    obtain ⟨ht, ⟨⟩⟩ := ite_none_right_eq_some.mp h
    exact setPhase_inv hi ht (by decide)
  | undo t k =>
    simp only [step] at h
    split at h
    · rename_i hat
      obtain ⟨he, hdata, ht⟩ := atKey_eq_some hat
      cases h
      exact undo_inv hi he hdata ht
    · cases h

theorem inv {loaded : Nat → Bool} {s : St} (h : Reach step BeginSafe (init loaded) s) : Inv s :=
  h.inv (P := Inv) (init_inv loaded) step_inv

/-! ## Snapshot isolation -/

/-- The commits ahead of a viewpoint are those of the transactions that had committed when it was drawn. -/
theorem view_snapshot {s : St} (hi : Inv s) {t : Nat} (ht : (s.tx t).phase ≠ .fresh) (k : Nat) :
    view (fun w => w.point ≤ (s.tx t).viewpoint) (s.line k).history
      = view (fun w => (s.tx t).snapshot.contains w.writer) (s.line k).history := by
  unfold view
  rw [filter_congr fun w hw => ?_]
  rw [Bool.eq_iff_iff]
  simpa using hi.separates t ht k w hw

/-- A key has had a value since before the reader began. -/
def PresentThroughout (s : St) (t k : Nat) : Prop :=
  ∃ pre w post, (s.line k).history = pre ++ w :: post ∧ w.writer ∈ (s.tx t).snapshot ∧ ∀ x ∈ w :: post, x.deleted = false

theorem view_present {p : Write → Bool} {pre post : List Write} {w : Write} (hw : p w = true)
    (h : ∀ x ∈ w :: post, x.deleted = false) : (view p (pre ++ w :: post)).isSome = true := by
  have hlast : ∃ x ∈ w :: post, ((pre ++ w :: post).filter p).getLast? = some x := by
    rw [filter_append, filter_cons_of_pos hw, List.getLast?_append, List.getLast?_cons]
    refine ⟨(post.filter p).getLast?.getD w, ?_, rfl⟩
    cases hl : (post.filter p).getLast? with
    | none => exact mem_cons_self
    | some x => exact mem_cons_of_mem _ (mem_filter.mp (mem_of_getLast? hl)).1
  obtain ⟨x, hx, hlast⟩ := hlast
  unfold view
  rw [hlast]
  simp [h x hx]

/-- On every run whose begins are safe, each transaction's reads get what the transactions of its snapshot have left in
    the key, and nothing of any other: the same version at every read, and one at all if the key had a value
    throughout. -/
theorem snapshot_isolation (loaded : Nat → Bool) {s : St} (h : Reach step BeginSafe (init loaded) s) :
    (∀ rd ∈ s.reads, rd.result =
      view (fun w => (s.tx rd.reader).snapshot.contains w.writer) (s.line rd.key).history)
    ∧ (∀ rd ∈ s.reads, ∀ rd' ∈ s.reads, rd.reader = rd'.reader → rd.key = rd'.key → rd.result = rd'.result)
    ∧ ∀ rd ∈ s.reads, PresentThroughout s rd.reader rd.key → rd.result.isSome = true := by
  have hi := inv h
  have hview : ∀ rd ∈ s.reads, rd.result =
      view (fun w => (s.tx rd.reader).snapshot.contains w.writer) (s.line rd.key).history := by
    intro rd hrd
    obtain ⟨hf, hres⟩ := hi.reads rd hrd
    rw [hres, view_snapshot hi hf]
  refine ⟨hview, ?_, ?_⟩
  · intro rd hrd rd' hrd' hr hk
    rw [hview rd hrd, hview rd' hrd', hr, hk]
  · intro rd hrd ⟨pre, w, post, hhist, hw, hall⟩
    rw [hview rd hrd, hhist]
    exact view_present (by simpa using hw) hall

/-- 2 begins ahead of the commit of 1 and reads in its middle, 3 begins behind it. -/
def aroundTrace : List Ev :=
  [.begin 1, .put 1 7, .put 1 8, .begin 2, .commit 1, .limit 1 7, .stamp 1 7, .publish 1 7, .read 2 7, .read 2 8,
   .limit 1 8, .stamp 1 8, .publish 1 8, .begin 3, .read 2 8, .read 3 7, .read 3 8]

theorem around_isolated : ∃ s, Reach step BeginSafe (init fun _ => true) s
    ∧ s.reads = [⟨3, 8, some 1⟩, ⟨3, 7, some 1⟩, ⟨2, 8, some 0⟩, ⟨2, 8, some 0⟩, ⟨2, 7, some 0⟩]
    ∧ ∀ rd ∈ s.reads, rd.result =
      view (fun w => (s.tx rd.reader).snapshot.contains w.writer) (s.line rd.key).history := by
  obtain ⟨s, hs, hr⟩ : ∃ s, exec (guarded step BeginSafe) (init fun _ => true) aroundTrace = some s
      ∧ s.reads = [⟨3, 8, some 1⟩, ⟨3, 7, some 1⟩, ⟨2, 8, some 0⟩, ⟨2, 8, some 0⟩, ⟨2, 7, some 0⟩] :=
    exec_ends (by decide +kernel)
  have h := reach_of_exec_guarded _ hs
  exact ⟨s, h, hr, (snapshot_isolation _ h).1⟩

end DeepFabric.Store.Snapshot
