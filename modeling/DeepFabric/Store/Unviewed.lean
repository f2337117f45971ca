/-
  DeepFabric.Store.Unviewed — old versions of a key that nobody needs are let go
  (core/RealTimeAdaptive.h: deleteUnviewed; core/RealTimeMap.cxx: isolateInformation of a viewpoint,
  isolateCheckpoint; core/Transaction.h: viewing), for a primary map.

  The entry of a key points to its oldest version. The versions that are not committed are behind the
  others, and the last of them points back to the oldest one. From the oldest version on, what has
  been deleted or written over is let go, up to the first version that an open snapshot may view, that
  the checkpoint needs, or that has a successor of its own. The storyline is rooted at the version
  behind. One version that is not committed does not make a ring of its own: the old root stays.

  Whether a snapshot views a version is asked only if the version has a viewpoint. One that was read
  from disk has none. It gets a limit when it is written over, snapshots up to the limit read it, and
  it is let go.
-/
import DeepFabric.Lib.LinkedCells
import DeepFabric.Store.Snapshot

namespace DeepFabric.Store.Unviewed

open DeepFabric.Lib LinkedCells Run Information List Option
open List (getLast head)

variable {V : Type}

/-- A map entry with its storyline. -/
structure SegMapEntry where
  value : Option Nat
  sharing : Bool
  storyLock : Bool
  storyDepth : Nat
  deriving DecidableEq, Repr

structure St (V : Type) where
  heap : Heap Nat (Information V)
  infoEntry : SegMapEntry

/-- The map is running, what getActiveCheckpoint says, or 0 if checkpoints are off, and s_viewpointMinimum. -/
structure Environment where
  running : Bool
  activeCheckpoint : Nat
  viewpointMinimum : Nat

def viewing (viewpointMinimum viewlimit : Nat) : Bool :=
  viewlimit ≠ 0 && viewpointMinimum ≠ 0 && viewlimit ≥ viewpointMinimum

/-! ## Walks

None where a walk comes to what is not allocated, or goes on for longer than it is given. -/

section Walks
variable (heap : Heap Nat (Information V))

def isolateInformation (viewpoint : Nat) : Nat → (curinfo next : Option Nat) → Option (Option Nat)
  | 0, _, _ => none
  | _ + 1, curinfo, none => some curinfo
  | fuel + 1, curinfo, some a => do
    let next ← heap a
    if next.info.level ≠ levelCommit then return curinfo
    let curinfo := if next.info.hasViewpoint viewpoint then some a else curinfo
    if next.info.updating then return curinfo
    isolateInformation viewpoint fuel curinfo next.next

/-- There is no version in hand, or none of a later viewpoint. -/
def isLater (next : Information V) : Option Nat → Option Bool
  | none => some true
  | some curinfo => (heap curinfo).map fun cur => next.viewpoint ≥ cur.info.viewpoint

/-- The loop of isolateCheckpoint. -/
def walkCheckpoint (viewpoint : Nat) : Nat → (curinfo next : Option Nat) → Option (Option Nat)
  | 0, _, _ => none
  | _ + 1, curinfo, none => some curinfo
  | fuel + 1, curinfo, some a => do
    let next ← heap a
    if next.info.level ≠ levelCommit then return curinfo
    let later ← isLater heap next.info curinfo
    walkCheckpoint viewpoint fuel (if next.info.viewpoint ≤ viewpoint && later then some a else curinfo) next.next

/-- No committed version is behind this one. -/
def endsCommitted (cur : Cell Nat (Information V)) : Option Bool :=
  match cur.next with
  | none => some true
  | some n => (heap n).map fun next => next.info.level ≠ levelCommit

def isolateCheckpoint (fuel : Nat) (topinfo : Option Nat) (viewpoint : Nat) (viewlimit : Bool) : Option (Option Nat) := do
  match ← walkCheckpoint heap viewpoint fuel none topinfo with
  | none => return none
  | some curinfo =>
    let cur ← heap curinfo
    let ends ← if cur.info.deleting then endsCommitted heap cur else some false
    if viewlimit && ends && cur.info.limit = 0 then return none
    if viewlimit && cur.info.limit > 0 && viewpoint > cur.info.limit then return none
    return some curinfo

end Walks

/-! ## Letting go -/

section

variable (env : Environment) (sharing : Bool) (chkinfo : Option Nat) (root : Nat)

/-- A running map holds on to a version. -/
def holds (a : Nat) (orginfo : Information V) : Bool :=
  env.running && (orginfo.viewpoint ≠ 0 && viewing env.viewpointMinimum orginfo.limit || sharing || decide (chkinfo = some a))

/-- The first loop: the heap, where it stops, and whether it has set `*dirty`. The root is let go later. -/
def purge : Nat → Heap Nat (Information V) → Nat → Option (Heap Nat (Information V) × Option Nat × Bool)
  | 0, _, _ => none
  | fuel + 1, heap, a => do
    let orginfo ← heap a
    if holds env sharing chkinfo a orginfo.info then return (heap, some a, true)
    let heap := setNext heap a none
    let heap := if a ≠ root then free heap a else heap
    match orginfo.next with
    | none => return (heap, none, false)
    | some n =>
      let next ← heap n
      if next.info.level = levelCommit ∧ next.info.deleting then purge fuel heap n else return (heap, some n, false)

/-- The second loop: what pointed to the root points to `orginfo`. Also the depth of the storyline. -/
def reroot (orginfo : Nat) : Nat → Heap Nat (Information V) → Option Nat → Nat → Option (Heap Nat (Information V) × Nat)
  | 0, _, _, _ => none
  | _ + 1, heap, none, depth => some (heap, depth)
  | fuel + 1, heap, some a, depth =>
    if a = orginfo then some (heap, depth)
    else do
      let next ← heap a
      let heap := if next.next = some root then setNext heap a (some orginfo) else heap
      let next ← heap a
      reroot orginfo fuel heap next.next (depth + 1)

end

/-- chkinfo. -/
def findCheckpoint (env : Environment) (fuel : Nat) (s : St V) : Option (Option Nat) :=
  if env.activeCheckpoint > 0 then isolateCheckpoint s.heap fuel s.infoEntry.value env.activeCheckpoint false else some none

/-- What deleteUnviewed does behind the first loop. -/
def settle (fuel : Nat) (infoEntry : SegMapEntry) (root : Nat) (heap : Heap Nat (Information V)) :
    Option Nat → Option (St V × Bool)
  | none => some (⟨free heap root, { infoEntry with value := none }⟩, true)
  | some a => do
    let orginfo ← heap a
    if orginfo.next = some root then return (⟨setNext heap root (some a), infoEntry⟩, false)
    let (heap, depth) ← reroot root a fuel heap orginfo.next 1
    let entry := if orginfo.info.deleting && infoEntry.storyLock then { infoEntry with storyDepth := depth } else infoEntry
    if a ≠ root then return (⟨free heap root, { entry with value := some a }⟩, false)
    return (⟨heap, entry⟩, false)

/-- The state after it, what it returns, and whether it has set `*dirty`. -/
def deleteUnviewed (env : Environment) (fuel : Nat) (s : St V) : Option ((St V × Bool) × Bool) := do
  let root ← s.infoEntry.value
  let first ← s.heap root
  if first.info.level = levelCommit ∧ first.info.deleting then
    let chkinfo ← findCheckpoint env fuel s
    let (heap, orginfo, dirty) ← purge env s.infoEntry.sharing chkinfo root fuel s.heap root
    return (← settle fuel s.infoEntry root heap orginfo, dirty)
  else return ((s, false), false)

/-! ## Storylines -/

/-- A storyline in the heap: the committed versions, oldest first, and the others; `ring` says that the last one points back to the
    oldest. A version that has just been inserted does not. -/
structure Storyline (s : St V) (versions writing : List (Nat × Information V)) (ring : Bool) : Prop where
  laid : Laid s.heap s.infoEntry.value (versions ++ writing) (if ring then s.infoEntry.value else none)
  nodup : ((versions ++ writing).map (·.1)).Nodup
  committed : Committed (versions.map (·.2))
  uncommitted : ∀ c ∈ writing, c.2.level ≠ levelCommit
  closing : ring = true → writing ≠ []
  closed : versions ≠ [] → writing ≠ [] → ring = true

/-- The version that a snapshot sees. -/
def seen (v : Nat) (versions : List (Nat × Information V)) : Option (Nat × Information V) :=
  (versions.filter fun c => c.2.hasViewpoint v).getLast?

/-- A turn of the walk for a checkpoint. -/
def pick (viewpoint : Nat) (cur : Option (Nat × Information V)) (next : Nat × Information V) : Option (Nat × Information V) :=
  if next.2.viewpoint ≤ viewpoint && cur.all (fun cur => next.2.viewpoint ≥ cur.2.viewpoint) then some next else cur

def selected (viewpoint : Nat) (versions : List (Nat × Information V)) : Option (Nat × Information V) :=
  versions.foldl (pick viewpoint) none

/-- What isolateCheckpoint makes of it. -/
def checkpointed (viewpoint : Nat) (viewlimit : Bool) (versions : List (Nat × Information V)) : Option (Nat × Information V) :=
  (selected viewpoint versions).filter fun c => !(viewlimit &&
    (c.2.deleting && decide (versions.getLast?.map (·.1) = some c.1) && decide (c.2.limit = 0) ||
      decide (0 < c.2.limit) && decide (c.2.limit < viewpoint)))

variable {heap : Heap Nat (Information V)} {p q : Option Nat} {versions writing : List (Nat × Information V)} {fuel v : Nat}

variable {c : Nat × Information V}

theorem committed_tail (h : Committed ((c :: versions).map (·.2))) : Committed (versions.map (·.2)) where
  level i hi := h.level i (mem_cons_of_mem _ hi)
  updating i hi := h.updating i (mem_cons_of_mem _ hi)
  creating i hi := h.creating i (mem_cons_of_mem _ hi)

theorem seen_cons (c : Nat × Information V) : seen v (c :: versions)
    = (seen v versions).or (if c.2.hasViewpoint v then some c else none) := by
  unfold seen
  by_cases hv : c.2.hasViewpoint v = true
  · rw [filter_cons, if_pos hv, getLast?_cons, if_pos hv]
    cases (versions.filter fun c => c.2.hasViewpoint v).getLast? <;> rfl
  · rw [filter_cons, if_neg hv, if_neg hv, or_none]

theorem isolate_end (hl : Laid heap p writing q) (hw : ∀ c ∈ writing, c.2.level ≠ levelCommit) (hend : writing = [] → q = none)
    (cur : Option Nat) : isolateInformation heap v (fuel + 1) cur p = some cur := by
  cases writing with
  | nil =>
    rw [laid_nil.mp hl, hend rfl, isolateInformation]
  | cons c writing =>
    obtain ⟨rfl, next, hcell, -⟩ := hl
    have hlevel := hw c mem_cons_self
    simp [isolateInformation, hcell, hlevel]

theorem isolate_spec (hl : Laid heap p (versions ++ writing) q) (hc : Committed (versions.map (·.2)))
    (hw : ∀ c ∈ writing, c.2.level ≠ levelCommit) (hend : writing = [] → q = none) (hf : versions.length < fuel) (cur : Option Nat) :
    isolateInformation heap v fuel cur p = some (((seen v versions).map (·.1)).or cur) := by
  induction versions generalizing p fuel cur with
  | nil =>
    obtain ⟨n, rfl⟩ := Nat.exists_eq_add_of_lt hf
    exact isolate_end hl hw hend cur
  | cons c versions ih =>
    obtain ⟨n, rfl⟩ := Nat.exists_eq_add_of_lt hf
    obtain ⟨rfl, next, hcell, hrest⟩ := hl
    have hlevel := hc.level c.2 mem_cons_self
    have hupdating := hc.updating c.2 mem_cons_self
    have hnext := ih hrest (committed_tail hc) (show versions.length < (c :: versions).length + n by rw [length_cons]; omega)
      (if c.2.hasViewpoint v then some c.1 else cur)
    rw [isolateInformation, hcell, seen_cons]
    simp only [bind_eq_bind, bind_some, hlevel, ne_eq, not_true, if_false, hupdating, Bool.false_eq_true]
    rw [hnext]
    cases seen v versions with
    | some x => rfl
    | none => by_cases hv : c.2.hasViewpoint v = true <;> simp [hv]

theorem walkCheckpoint_end (hl : Laid heap p writing q) (hw : ∀ c ∈ writing, c.2.level ≠ levelCommit) (hend : writing = [] → q = none)
    (cur : Option Nat) : walkCheckpoint heap v (fuel + 1) cur p = some cur := by
  cases writing with
  | nil =>
    rw [laid_nil.mp hl, hend rfl, walkCheckpoint]
  | cons c writing =>
    obtain ⟨rfl, next, hcell, -⟩ := hl
    have hlevel := hw c mem_cons_self
    simp [walkCheckpoint, hcell, hlevel]

theorem walkCheckpoint_spec (hl : Laid heap p (versions ++ writing) q) (hc : Committed (versions.map (·.2)))
    (hw : ∀ c ∈ writing, c.2.level ≠ levelCommit) (hend : writing = [] → q = none) (hf : versions.length < fuel)
    {cur : Option (Nat × Information V)} (hcur : ∀ c ∈ cur, ∃ next, heap c.1 = some ⟨c.2, next⟩) :
    walkCheckpoint heap v fuel (cur.map (·.1)) p = some ((versions.foldl (pick v) cur).map (·.1)) := by
  induction versions generalizing p fuel cur with
  | nil =>
    obtain ⟨n, rfl⟩ := Nat.exists_eq_add_of_lt hf
    exact walkCheckpoint_end hl hw hend _
  | cons c versions ih =>
    obtain ⟨n, rfl⟩ := Nat.exists_eq_add_of_lt hf
    obtain ⟨rfl, next, hcell, hrest⟩ := hl
    have hlevel := hc.level c.2 mem_cons_self
    have hpick : ∀ d ∈ pick v cur c, ∃ next, heap d.1 = some ⟨d.2, next⟩ := by
      intro d hd
      unfold pick at hd
      split_ifs at hd
      · cases hd
        exact ⟨next, hcell⟩
      · exact hcur d hd
    have hnext := ih hrest (committed_tail hc) (show versions.length < (c :: versions).length + n by rw [length_cons]; omega) hpick
    have hlater : isLater heap c.2 (cur.map (·.1)) = some (cur.all fun cur => decide (c.2.viewpoint ≥ cur.2.viewpoint)) := by
      cases cur with
      | none => rfl
      | some d =>
        obtain ⟨next, hd⟩ := hcur d rfl
        simp [isLater, hd]
    rw [walkCheckpoint, hcell]
    simp only [bind_eq_bind, bind_some, hlevel, ne_eq, not_true, if_false]
    rw [hlater, bind_some, foldl_cons, ← hnext]
    congr 1
    unfold pick
    split_ifs <;> rfl

variable (hl : Laid heap p (versions ++ writing) q) (hnd : ((versions ++ writing).map (·.1)).Nodup) (hc : Committed (versions.map (·.2)))
  (hw : ∀ c ∈ writing, c.2.level ≠ levelCommit) (hend : writing = [] → q = none)

include hl hnd hc hw hend in
/-- A committed version in the heap, and whether it is the last one. -/
theorem endsCommitted_spec (hmem : c ∈ versions) : ∃ next, heap c.1 = some ⟨c.2, next⟩ ∧
      endsCommitted heap ⟨c.2, next⟩ = some (decide (versions.getLast?.map (·.1) = some c.1)) := by
  obtain ⟨l, r, rfl⟩ := append_of_mem hmem
  rw [append_assoc, cons_append] at hl
  obtain ⟨m, -, -, next, hcell, hrest⟩ := laid_append.mp hl
  refine ⟨next, hcell, ?_⟩
  cases r with
  | nil =>
    rw [getLast?_concat, map_some, decide_eq_true rfl]
    cases writing with
    | nil => rw [endsCommitted, laid_nil.mp hrest, hend rfl]
    | cons d writing =>
      obtain ⟨rfl, next', hd, -⟩ := hrest
      have hlevel := hw d mem_cons_self
      simp [endsCommitted, hd, hlevel]
  | cons d r =>
    obtain ⟨rfl, next', hd, -⟩ := hrest
    have hlevel := hc.level d.2 (mem_map.mpr ⟨d, by simp, rfl⟩)
    have hlast : (l ++ c :: d :: r).getLast?.map (·.1) ≠ some c.1 := by
      rw [getLast?_append_of_ne_nil _ (cons_ne_nil _ _), getLast?_cons_cons]
      intro heq
      obtain ⟨e, he, hadr⟩ := map_eq_some_iff.mp heq
      have hemem := mem_of_getLast? he
      rw [append_assoc, map_append, nodup_append] at hnd
      have hnot := (nodup_cons.mp hnd.2.1).1
      exact hnot (mem_map.mpr ⟨e, mem_append_left _ hemem, hadr⟩)
    rw [decide_eq_false hlast]
    simp [endsCommitted, hd, hlevel]

theorem pick_mem {cur : Option (Nat × Information V)} (h : c ∈ versions.foldl (pick v) cur) :
    c ∈ versions ∨ c ∈ cur := by
  induction versions generalizing cur with
  | nil => exact .inr h
  | cons d versions ih =>
    rcases ih h with hmem | hmem
    · exact .inl (mem_cons_of_mem _ hmem)
    · unfold pick at hmem
      split_ifs at hmem
      · cases hmem
        exact .inl mem_cons_self
      · exact .inr hmem

theorem selected_mem (h : selected v versions = some c) : c ∈ versions :=
  (pick_mem h).resolve_right (fun h => by cases h)

include hl hnd hc hw hend in
theorem isolateCheckpoint_spec
    (hf : versions.length < fuel) (viewlimit : Bool) :
    isolateCheckpoint heap fuel p v viewlimit = some ((checkpointed v viewlimit versions).map (·.1)) := by
  have hnone : ∀ c ∈ (none : Option (Nat × Information V)), ∃ next, heap c.1 = some ⟨c.2, next⟩ := fun c hc => by cases hc
  have hwalk : walkCheckpoint heap v fuel none p = some ((versions.foldl (pick v) none).map (·.1)) :=
    walkCheckpoint_spec hl hc hw hend hf hnone
  unfold isolateCheckpoint checkpointed
  rw [hwalk]
  cases hsel : selected v versions with
  | none => 
    rw [show versions.foldl (pick v) none = none from hsel]
    rfl
  | some c =>
    obtain ⟨next, hcell, hends⟩ := endsCommitted_spec hl hnd hc hw hend (selected_mem hsel)
    rw [show versions.foldl (pick v) none = some c from hsel]
    simp only [bind_eq_bind, bind_some, map_some, hcell, hends]
    rw [filter_some]
    generalize decide (versions.getLast?.map (·.1) = some c.1) = last
    have hzero : decide (c.2.limit > 0) = !decide (c.2.limit = 0) := by
      rw [Bool.eq_iff_iff]
      simp [Nat.pos_iff_ne_zero]
    rw [hzero]
    generalize decide (c.2.limit = 0) = zero
    generalize decide (v > c.2.limit) = below
    generalize c.2.deleting = deleting
    cases viewlimit <;> cases deleting <;> cases last <;> cases zero <;> cases below <;> rfl

/-! ## What is selected behind a part that is let go -/

/-- The version in hand, or one that was selected behind it. -/
def prefer (cur : Option (Nat × Information V)) : Option (Nat × Information V) → Option (Nat × Information V)
  | none => cur
  | some next => if cur.all (fun cur => next.2.viewpoint ≥ cur.2.viewpoint) then some next else cur

theorem prefer_pick (cur next : Option (Nat × Information V)) (c : Nat × Information V) :
    prefer (pick v cur c) next = prefer cur (prefer (pick v none c) next) := by
  unfold pick
  by_cases hv : c.2.viewpoint ≤ v
  · cases next with
    | none => cases cur <;> simp [prefer, hv]
    | some d =>
      cases cur with
      | none => by_cases hdc : c.2.viewpoint ≤ d.2.viewpoint <;> simp [prefer, hv, hdc]
      | some b =>
        by_cases hcb : b.2.viewpoint ≤ c.2.viewpoint <;> by_cases hdc : c.2.viewpoint ≤ d.2.viewpoint <;>
          by_cases hdb : b.2.viewpoint ≤ d.2.viewpoint <;> simp [prefer, hv, hcb, hdc, hdb]
        all_goals omega
  · cases next <;> simp [prefer, hv]

theorem foldl_pick (cur : Option (Nat × Information V)) : versions.foldl (pick v) cur = prefer cur (selected v versions) := by
  induction versions generalizing cur with
  | nil => rfl
  | cons c versions ih =>
    have hcons : selected v (c :: versions) = prefer (pick v none c) (selected v versions) := ih _
    rw [foldl_cons, ih, hcons, prefer_pick]

variable {l r : List (Nat × Information V)}

theorem selected_append : selected v (l ++ r) = prefer (selected v l) (selected v r) := by
  rw [selected, foldl_append, foldl_pick]
  rfl

/-- What is behind the part is selected if what is selected is not in the part. -/
theorem selected_behind (h : ∀ c ∈ selected v (l ++ r), c ∉ l) :
    selected v (l ++ r) = selected v r := by
  rw [selected_append] at h ⊢
  cases hr : selected v r with
  | none =>
    rw [hr] at h
    cases hl : selected v l with
    | none => rfl
    | some c => exact absurd (selected_mem hl) (h c (by rw [hl]; rfl))
  | some d =>
    rw [hr] at h
    cases hl : selected v l with
    | none => rfl
    | some c =>
      rw [hl] at h
      by_cases hlater : c.2.viewpoint ≤ d.2.viewpoint
      · simp [prefer, hlater]
      · exact absurd (selected_mem hl) (h c (by simp [prefer, hlater]))

/-- Nothing is selected of a part of what nothing is selected of. -/
theorem selected_front (h : selected v (l ++ r) = none) : selected v l = none := by
  rw [selected_append] at h
  cases hr : selected v r with
  | none => rwa [hr] at h
  | some d =>
    cases hl : selected v l with
    | none => rfl
    | some c =>
      rw [hr, hl] at h
      by_cases hlater : c.2.viewpoint ≤ d.2.viewpoint <;> simp [prefer, hlater] at h

/-! ## The first loop -/

/-- The heap without the versions that are let go, but with the root, which then has no link. -/
def swept (root : Nat) (heap : Heap Nat (Information V)) (gone : List Nat) : Heap Nat (Information V) := fun a =>
  if a ∈ gone then if a = root then (heap a).map fun cell => { cell with next := none } else none else heap a

theorem swept_nil (root : Nat) (heap : Heap Nat (Information V)) : swept root heap [] = heap := by
  funext a
  rw [swept, if_neg not_mem_nil]

variable {root a : Nat} {gone : List Nat}

theorem swept_of_not_mem (h : a ∉ gone) : swept root heap gone a = heap a := if_neg h

theorem swept_root (h : root ∈ gone) :
    swept root heap gone root = (heap root).map fun cell => { cell with next := none } := by
  rw [swept, if_pos h, if_pos rfl]

theorem swept_one (root a : Nat) (heap : Heap Nat (Information V)) :
    (if a ≠ root then free (setNext heap a none) a else setNext heap a none) = swept root heap [a] := by
  funext b
  by_cases hb : b = a
  · subst hb
    by_cases hr : b = root
    · simp [swept, hr]
    · simp [swept, hr]
  · by_cases hr : a = root
    · rw [if_neg (not_not.mpr hr), setNext_of_ne none hb, swept_of_not_mem (by simp [hb])]
    · rw [if_pos hr, free_of_ne hb, setNext_of_ne none hb, swept_of_not_mem (by simp [hb])]

theorem swept_cons (h : a ∉ gone) :
    swept root (swept root heap [a]) gone = swept root heap (a :: gone) := by
  funext b
  by_cases hb : b ∈ gone
  · have hne : b ≠ a := fun heq => h (heq ▸ hb)
    simp [swept, hb, hne]
  · simp [swept, hb]

section Purge
variable (env : Environment) (sharing : Bool) (chkinfo : Option Nat) (root : Nat)

/-- The first loop goes past it. -/
def passed (c : Nat × Information V) : Bool := c.2.deleting && !holds env sharing chkinfo c.1 c.2

variable {env sharing chkinfo root}

variable {c : Nat × Information V}

theorem passed_of_held (hh : holds env sharing chkinfo c.1 c.2 = true) : ¬passed env sharing chkinfo c = true := by
  rw [passed, hh, Bool.not_true, Bool.and_false]
  exact Bool.false_ne_true

theorem passed_of_alive (hd : ¬c.2.deleting = true) : ¬passed env sharing chkinfo c = true := by
  rw [passed, Bool.eq_false_iff.mpr hd, Bool.false_and]
  exact Bool.false_ne_true

theorem passed_of (hd : c.2.deleting = true) (hh : ¬holds env sharing chkinfo c.1 c.2 = true) :
    passed env sharing chkinfo c = true := by
  rw [passed, hd, Bool.eq_false_iff.mpr hh]
  rfl

variable {a : Nat}

theorem purge_held {cell : Cell Nat (Information V)} (hcell : heap a = some cell)
    (hh : holds env sharing chkinfo a cell.info = true) : purge env sharing chkinfo root (fuel + 1) heap a = some (heap, some a, true) := by
  simp [purge, hcell, hh]

theorem purge_last {info : Information V} (hcell : heap a = some ⟨info, none⟩)
    (hh : ¬holds env sharing chkinfo a info = true) :
    purge env sharing chkinfo root (fuel + 1) heap a = some (swept root heap [a], none, false) := by
  rw [← swept_one]
  simp [purge, hcell, hh]

theorem purge_next {m : Nat} {info : Information V} {next : Cell Nat (Information V)} (hcell : heap a = some ⟨info, some m⟩)
    (hh : ¬holds env sharing chkinfo a info = true) (hnext : swept root heap [a] m = some next) :
    purge env sharing chkinfo root (fuel + 1) heap a =
      if next.info.level = levelCommit ∧ next.info.deleting then purge env sharing chkinfo root fuel (swept root heap [a]) m
      else some (swept root heap [a], some m, false) := by
  rw [purge, hcell]
  simp only [bind_eq_bind, bind_some, hh, Bool.false_eq_true, if_false, swept_one, hnext]
  rfl

variable (env sharing chkinfo root) in
theorem purge_eq (hl : Laid heap (some c.1) (c :: versions ++ writing) q)
    (hnd : ((c :: versions ++ writing).map (·.1)).Nodup) (hc : Committed ((c :: versions).map (·.2)))
    (hw : ∀ c ∈ writing, c.2.level ≠ levelCommit) (hend : writing = [] → q = none) (hd : c.2.deleting = true)
    (hf : versions.length < fuel) : ∃ dirty, purge env sharing chkinfo root fuel heap c.1 = some
      (swept root heap (((c :: versions).takeWhile (passed env sharing chkinfo)).map (·.1)),
        ((c :: versions).dropWhile (passed env sharing chkinfo) ++ writing).head?.map (·.1), dirty) := by
  induction versions generalizing c heap fuel with
  | nil =>
    obtain ⟨n, rfl⟩ := Nat.exists_eq_add_of_lt hf
    obtain ⟨-, next, hcell, hrest⟩ := hl
    by_cases hh : holds env sharing chkinfo c.1 c.2 = true
    · refine ⟨true, ?_⟩
      rw [purge_held hcell hh, takeWhile_cons_of_neg (passed_of_held hh), dropWhile_cons_of_neg (passed_of_held hh), map_nil,
        swept_nil]
      rfl
    · refine ⟨false, ?_⟩
      rw [takeWhile_cons_of_pos (passed_of hd hh), dropWhile_cons_of_pos (passed_of hd hh)]
      cases writing with
      | nil =>
        rw [laid_nil.mp hrest, hend rfl] at hcell
        exact purge_last hcell hh
      | cons d writing =>
        obtain ⟨rfl, m, hdcell, -⟩ := hrest
        have hne : d.1 ≠ c.1 := by
          intro heq
          simp [heq] at hnd
        have hlevel := hw d mem_cons_self
        rw [purge_next hcell hh ((swept_of_not_mem (by simp [hne])).trans hdcell), if_neg fun h => hlevel h.1]
        rfl
  | cons d versions ih =>
    obtain ⟨n, rfl⟩ := Nat.exists_eq_add_of_lt hf
    obtain ⟨-, next, hcell, hrest⟩ := hl
    by_cases hh : holds env sharing chkinfo c.1 c.2 = true
    · refine ⟨true, ?_⟩
      rw [purge_held hcell hh, takeWhile_cons_of_neg (passed_of_held hh), dropWhile_cons_of_neg (passed_of_held hh), map_nil,
        swept_nil]
      rfl
    · obtain ⟨rfl, m, hdcell, hbehind⟩ := hrest
      have hlaid : Laid heap (some d.1) (d :: versions ++ writing) q := ⟨rfl, m, hdcell, hbehind⟩
      have hnotin : c.1 ∉ (d :: versions ++ writing).map (·.1) := (nodup_cons.mp hnd).1
      have hsame : ∀ e ∈ d :: versions ++ writing, swept root heap [c.1] e.1 = heap e.1 := by
        intro e he
        refine swept_of_not_mem fun hmem => hnotin ?_
        rw [← mem_singleton.mp hmem]
        exact mem_map.mpr ⟨e, he, rfl⟩
      have hnext : purge env sharing chkinfo root ((d :: versions).length + n + 1) heap c.1 = _ :=
        purge_next hcell hh ((hsame d mem_cons_self).trans hdcell)
      have hlevel := hc.level d.2 (by simp)
      rw [takeWhile_cons_of_pos (passed_of hd hh), dropWhile_cons_of_pos (passed_of hd hh), hnext]
      by_cases hdd : d.2.deleting = true
      · obtain ⟨dirty, hpurge⟩ := ih (hlaid.congr hsame) (nodup_cons.mp hnd).2 (committed_tail hc) hdd
          (show versions.length < (d :: versions).length + n by rw [length_cons]; omega)
        refine ⟨dirty, ?_⟩
        rw [if_pos ⟨hlevel, hdd⟩, hpurge, swept_cons]
        · rfl
        · intro hmem
          obtain ⟨e, he, heq⟩ := mem_map.mp hmem
          exact hnotin (mem_map.mpr ⟨e, mem_append_left _ ((takeWhile_sublist _).mem he), heq⟩)
      · refine ⟨false, ?_⟩
        rw [if_neg fun h => hdd h.2, takeWhile_cons_of_neg (passed_of_alive hdd),
          dropWhile_cons_of_neg (passed_of_alive hdd)]
        rfl

end Purge


/-! ## The second loop -/

section Reroot
variable {root orginfo a : Nat} {info : Information V} {next : Option Nat}

theorem reroot_end (depth : Nat) (h : next = none ∨ next = some orginfo) : reroot root orginfo (fuel + 1) heap next depth = some (heap, depth) := by
  rcases h with rfl | rfl
  · rfl
  · rw [reroot, if_pos rfl]

theorem reroot_turn (hcell : heap a = some ⟨info, next⟩) (ho : a ≠ orginfo) (hr : next ≠ some root) (depth : Nat) :
    reroot root orginfo (fuel + 1) heap (some a) depth = reroot root orginfo fuel heap next (depth + 1) := by
  rw [reroot, if_neg ho, hcell]
  simp only [bind_eq_bind, bind_some, hr, if_false, hcell]

theorem reroot_turn_root (hcell : heap a = some ⟨info, some root⟩) (ho : a ≠ orginfo) (depth : Nat) :
    reroot root orginfo (fuel + 1) heap (some a) depth =
      reroot root orginfo fuel (setNext heap a (some orginfo)) (some orginfo) (depth + 1) := by
  rw [reroot, if_neg ho, hcell]
  simp only [bind_eq_bind, bind_some, if_true, setNext_self, hcell, map_some]

/-- A storyline in the loop: behind `orginfo`, with nothing but its end at the old root. -/
theorem reroot_spec {cells : List (Nat × Information V)} {ring : Bool} (hne : cells ≠ [])
    (hl : Laid heap p cells (if ring then some root else none)) (hnd : (cells.map (·.1)).Nodup) (hroot : root ∉ cells.map (·.1))
    (ho : orginfo ∉ cells.map (·.1)) (hf : cells.length < fuel) (depth : Nat) :
    ∃ heap' depth', reroot root orginfo fuel heap p depth = some (heap', depth') ∧
      Laid heap' p cells (if ring then some orginfo else none) ∧ ∀ a, a ∉ cells.map (·.1) → heap' a = heap a := by
  induction cells generalizing heap p fuel depth with
  | nil => exact absurd rfl hne
  | cons c cells ih =>
    obtain ⟨n, rfl⟩ := Nat.exists_eq_add_of_lt hf
    have hlaid := hl
    obtain ⟨rfl, next, hcell, hrest⟩ := hl
    have hco : c.1 ≠ orginfo := fun heq => ho (by rw [← heq]; exact mem_cons_self)
    cases cells with
    | nil =>
      obtain rfl := laid_nil.mp hrest
      have hfuel : [c].length + n + 1 = n + 1 + 1 := by rw [length_singleton]; omega
      rw [hfuel]
      cases ring with
      | true =>
        refine ⟨setNext heap c.1 (some orginfo), depth + 1, ?_, ?_, fun a ha => ?_⟩
        · rw [reroot_turn_root hcell hco, reroot_end _ (.inr rfl)]
        · exact Laid.setNext (l := []) hlaid not_mem_nil _
        · exact setNext_of_ne _ fun heq => ha (by rw [heq]; exact mem_cons_self)
      | false =>
        refine ⟨heap, depth + 1, ?_, hlaid, fun _ _ => rfl⟩
        rw [reroot_turn hcell hco (by rintro ⟨⟩)]
        exact reroot_end _ (.inl rfl)
    | cons d cells =>
      have hnext : next = some d.1 := hrest.first
      have hnr : next ≠ some root := by
        rw [hnext]
        intro heq
        exact hroot (by rw [← Option.some.inj heq]; simp)
      rw [map_cons, nodup_cons] at hnd
      rw [map_cons, mem_cons, not_or] at hroot ho
      obtain ⟨heap', depth', heq, hl', hframe⟩ := ih (cons_ne_nil _ _) hrest hnd.2 hroot.2 ho.2
        (by omega : (d :: cells).length < (d :: cells).length + 1 + n) (depth + 1)
      refine ⟨heap', depth', ?_, ⟨rfl, next, ?_, hl'⟩, fun a ha => ?_⟩
      · have hfuel : (c :: d :: cells).length + n + 1 = (d :: cells).length + 1 + n + 1 := by simp only [length_cons]
        rw [hfuel, reroot_turn hcell hco hnr, heq]
      · rw [hframe c.1 hnd.1, hcell]
      · rw [map_cons, mem_cons, not_or] at ha
        exact hframe a ha.2

theorem reroot_behind {o : Nat × Information V} {more : List (Nat × Information V)} {ring : Bool}
    (hl : Laid heap (some o.1) (o :: more) (if ring then some root else none)) (hnd : ((o :: more).map (·.1)).Nodup)
    (hroot : root ∉ more.map (·.1)) (hcell : heap o.1 = some ⟨o.2, next⟩) (hnext : next ≠ some root) (hf : more.length < fuel) :
    ∃ heap' depth, reroot root o.1 fuel heap next 1 = some (heap', depth) ∧
      Laid heap' (some o.1) (o :: more) (if ring then some o.1 else none) := by
  obtain ⟨-, next', hcell', hrest⟩ := hl
  rw [hcell] at hcell'
  obtain rfl : next = next' := by cases hcell'; rfl
  rw [map_cons, nodup_cons] at hnd
  cases more with
  | nil =>
    obtain ⟨n, rfl⟩ := Nat.exists_eq_add_of_lt hf
    have hlink := laid_nil.mp hrest
    cases ring with
    | true => exact absurd hlink hnext
    | false => exact ⟨heap, 1, reroot_end _ (.inl hlink), rfl, next, hcell, hrest⟩
  | cons d more =>
    obtain ⟨heap', depth, heq, hl', hframe⟩ := reroot_spec (cons_ne_nil _ _) hrest hnd.2 hroot hnd.1 hf 1
    exact ⟨heap', depth, heq, rfl, next, (hframe o.1 hnd.1).trans hcell, hl'⟩

end Reroot

/-! ## What is left -/

section Left
variable (env : Environment) (s : St V) (versions writing : List (Nat × Information V))

/-- The version the checkpoint needs. -/
def checkpointOf : Option (Nat × Information V) :=
  if 0 < env.activeCheckpoint then selected env.activeCheckpoint versions else none

/-- The loop goes past it in this storyline. -/
def ended : Nat × Information V → Bool := passed env s.infoEntry.sharing ((checkpointOf env versions).map (·.1))

/-- The committed versions that stay: those behind the ones that are let go, or the root alone. -/
def kept : List (Nat × Information V) :=
  let rest := versions.dropWhile (ended env s versions)
  if rest = [] ∧ writing.length = 1 then versions.take 1 else rest

end Left

variable {env : Environment} {s : St V} {ring : Bool}

theorem checkpointed_false : checkpointed v false versions = selected v versions := by
  unfold checkpointed
  cases selected v versions <;> rfl

variable (h : Storyline s versions writing ring)

include h in
theorem Storyline.open_end (hw : writing = []) :
    (if ring then s.infoEntry.value else none) = none := by
  cases hr : ring with
  | false => rfl
  | true => exact absurd hw (h.closing hr)

include h in
variable (env) in
theorem Storyline.findCheckpoint (hf : versions.length < fuel) :
    Unviewed.findCheckpoint env fuel s = some ((checkpointOf env versions).map (·.1)) := by
  unfold Unviewed.findCheckpoint checkpointOf
  split_ifs with hc
  · rw [isolateCheckpoint_spec h.laid h.nodup h.committed h.uncommitted h.open_end hf, checkpointed_false]
  · rfl

include h in
variable (env) in
theorem Storyline.parts
    (hroot : s.infoEntry.value = some root) :
    let gone := (versions.takeWhile (ended env s versions)).map (·.1)
    let rest := versions.dropWhile (ended env s versions) ++ writing
    Laid (swept root s.heap gone) (rest.head?.map (·.1)) rest (if ring then some root else none) ∧ (rest.map (·.1)).Nodup ∧
      (∀ c ∈ rest, c.1 ∉ gone) ∧ (root ∈ gone ∨ rest.head?.map (·.1) = some root) := by
  intro gone rest
  have hsplit : versions ++ writing = versions.takeWhile (ended env s versions) ++ rest := by
    rw [← append_assoc, takeWhile_append_dropWhile]
  have hlaid := h.laid
  have hnd := h.nodup
  have hopen := h.open_end
  rw [hsplit] at hlaid hnd
  rw [map_append, nodup_append] at hnd
  obtain ⟨m, hgone, hrest⟩ := laid_append.mp hlaid
  have hout : ∀ c ∈ rest, c.1 ∉ gone := fun c hc hmem => hnd.2.2 _ hmem _ (mem_map.mpr ⟨c, hc, rfl⟩) rfl
  have hfirst : m = rest.head?.map (·.1) := by
    have hm := hrest.first
    cases hr : rest with
    | nil =>
      rw [hr] at hm
      have hw : writing = [] := (append_eq_nil_iff.mp hr).2
      rw [hopen hw] at hm
      exact hm
    | cons c l =>
      rw [hr] at hm
      exact hm
  rw [hfirst] at hrest hgone
  rw [hroot] at hrest
  refine ⟨hrest.congr fun c hc => swept_of_not_mem (hout c hc), hnd.2.1, hout, ?_⟩
  have hstart := hgone.first
  rw [hroot] at hstart
  cases hg : versions.takeWhile (ended env s versions) with
  | nil =>
    rw [hg] at hstart
    exact .inr hstart.symm
  | cons c l =>
    rw [hg] at hstart
    refine .inl ?_
    rw [Option.some.inj hstart]
    show c.1 ∈ (versions.takeWhile (ended env s versions)).map (·.1)
    rw [hg]
    exact mem_cons_self

include h in
theorem Storyline.sub (hv : versions ≠ []) {s' : St V}
    (hsub : l.Sublist versions) (hlaid : Laid s'.heap s'.infoEntry.value (l ++ writing) (if ring then s'.infoEntry.value else none)) :
    Storyline s' l writing ring where
  laid := hlaid
  nodup := h.nodup.sublist ((hsub.append_right writing).map _)
  committed :=
    have hmem : ∀ i ∈ l.map (·.2), i ∈ versions.map (·.2) := fun _ hi => (hsub.map _).mem hi
    ⟨fun i hi => h.committed.level i (hmem i hi), fun i hi => h.committed.updating i (hmem i hi),
      fun i hi => h.committed.creating i (hmem i hi)⟩
  uncommitted := h.uncommitted
  closing := h.closing
  closed _ := h.closed hv

/-- A version that points to the root itself: the root stays. -/
theorem settle_pending {info : Information V} {infoEntry : SegMapEntry} (hcell : heap a = some ⟨info, some root⟩) :
    settle fuel infoEntry root heap (some a) = some (⟨setNext heap root (some a), infoEntry⟩, false) := by
  rw [settle, hcell]
  simp only [bind_eq_bind, bind_some, if_true]
  rfl

theorem settle_spec {o : Nat × Information V} {more : List (Nat × Information V)} {cell : Cell Nat (Information V)}
    (hl : Laid heap (some o.1) (o :: more) (if ring then some root else none)) (hnd : ((o :: more).map (·.1)).Nodup)
    (hroot : root ∉ more.map (·.1)) (hcell : heap o.1 = some cell) (hnext : cell.next ≠ some root) (hf : more.length < fuel)
    {infoEntry : SegMapEntry} (hvalue : infoEntry.value = some root) :
    ∃ s', settle fuel infoEntry root heap (some o.1) = some (s', false) ∧ s'.infoEntry.value = some o.1 ∧
      Laid s'.heap s'.infoEntry.value (o :: more) (if ring then s'.infoEntry.value else none) := by
  have hinfo : heap o.1 = some ⟨o.2, cell.next⟩ := by
    obtain ⟨next, hcell'⟩ := hl.cell mem_cons_self
    rw [hcell] at hcell'
    obtain rfl := Option.some.inj hcell'
    exact hcell
  obtain ⟨heap', depth, hreroot, hl'⟩ := reroot_behind hl hnd hroot hinfo hnext hf
  unfold settle
  simp only [hcell, bind_eq_bind, bind_some, hnext, if_false, hreroot]
  by_cases ho : o.1 = root
  · rw [if_neg (not_not.mpr ho)]
    have hentry : (if cell.info.deleting && infoEntry.storyLock then { infoEntry with storyDepth := depth } else infoEntry).value = some o.1 := by
      rw [ho]
      split_ifs <;> exact hvalue
    refine ⟨_, rfl, hentry, ?_⟩
    dsimp only
    rw [hentry]
    exact hl'
  · rw [if_pos ho]
    refine ⟨_, rfl, rfl, hl'.congr fun c hc => free_of_ne ?_⟩
    rintro heq
    rcases mem_cons.mp hc with rfl | hc
    · exact ho heq
    · exact hroot (mem_map.mpr ⟨c, hc, heq⟩)

include h in
variable (env) in
theorem deleteUnviewed_spec (hne : versions ++ writing ≠ [])
    (hf : versions.length + writing.length < fuel) : ∃ s' r dirty, deleteUnviewed env fuel s = some ((s', r), dirty) ∧
      Storyline s' (kept env s versions writing) writing ring ∧ (r = true ↔ s'.infoEntry.value = none) := by
  obtain ⟨first, tail, hcells⟩ := exists_cons_of_ne_nil hne
  have hlaid := h.laid
  rw [hcells] at hlaid
  obtain ⟨hroot, next, hcell, hbehind⟩ := hlaid
  have hunfold : deleteUnviewed env fuel s =
      if first.2.level = levelCommit ∧ first.2.deleting then do
        let chkinfo ← findCheckpoint env fuel s
        let (heap, orginfo, dirty) ← purge env s.infoEntry.sharing chkinfo first.1 fuel s.heap first.1
        return (← settle fuel s.infoEntry first.1 heap orginfo, dirty)
      else some ((s, false), false) := by
    rw [deleteUnviewed, hroot]
    simp only [bind_eq_bind, bind_some, hcell]
    rfl
  -- a root that is not committed, or neither deleted nor written over
  have hstay (hkept : kept env s versions writing = versions) (hif : ¬(first.2.level = levelCommit ∧ first.2.deleting = true)) :
      ∃ s' r dirty, deleteUnviewed env fuel s = some ((s', r), dirty) ∧
        Storyline s' (kept env s versions writing) writing ring ∧ (r = true ↔ s'.infoEntry.value = none) := by
    refine ⟨s, false, false, ?_, ?_, ?_⟩
    · rw [hunfold, if_neg hif]
    · rw [hkept]
      exact h
    · rw [hroot]
      exact iff_of_false Bool.false_ne_true (by rintro ⟨⟩)
  by_cases hv : versions = []
  · subst hv
    rw [nil_append] at hcells
    refine hstay (by simp [kept]) fun hif => h.uncommitted first ?_ hif.1
    rw [hcells]
    exact mem_cons_self
  · obtain ⟨c, rest, rfl⟩ := exists_cons_of_ne_nil hv
    obtain rfl : c = first := by cases hcells; rfl
    have hlevel : c.2.level = levelCommit := h.committed.level _ (mem_map.mpr ⟨c, mem_cons_self, rfl⟩)
    by_cases hd : c.2.deleting = true
    · have hwhole := h.laid
      have hopen := h.open_end
      rw [hroot] at hwhole hopen
      obtain ⟨dirty, hpurge⟩ := purge_eq env s.infoEntry.sharing ((checkpointOf env (c :: rest)).map (·.1)) c.1 hwhole h.nodup h.committed
        h.uncommitted hopen hd (show rest.length < fuel by rw [length_cons] at hf; omega)
      have hchk := h.findCheckpoint env (show (c :: rest).length < fuel by omega)
      rw [if_pos ⟨hlevel, hd⟩, hchk] at hunfold
      simp only [bind_eq_bind, bind_some, hpurge] at hunfold
      obtain ⟨hlaid, hnd, hout, hwhere⟩ := h.parts env hroot
      have hsplit := takeWhile_append_dropWhile (p := ended env s (c :: rest)) (l := c :: rest)
      change deleteUnviewed env fuel s = (settle fuel s.infoEntry c.1
        (swept c.1 s.heap (((c :: rest).takeWhile (ended env s (c :: rest))).map (·.1)))
        (((c :: rest).dropWhile (ended env s (c :: rest)) ++ writing).head?.map (·.1))).bind fun r => some (r, dirty) at hunfold
      have hsub := dropWhile_sublist (ended env s (c :: rest)) (l := c :: rest)
      rw [hunfold]
      unfold kept
      generalize (c :: rest).takeWhile (ended env s (c :: rest)) = gone at *
      generalize (c :: rest).dropWhile (ended env s (c :: rest)) = left at *
      dsimp only
      have hlen : (left ++ writing).length ≤ (c :: rest).length + writing.length := by
        rw [length_append]
        exact Nat.add_le_add_right hsub.length_le _
      cases hlw : left ++ writing with
      | nil =>
        obtain ⟨rfl, rfl⟩ := append_eq_nil_iff.mp hlw
        refine ⟨_, true, dirty, rfl, h.sub hv hsub ?_, by simp⟩
        cases ring <;> rfl
      | cons o more =>
        rw [hlw] at hlaid hnd hout hwhere hlen
        have hfew : more.length < fuel := by
          rw [length_cons] at hlen
          omega
        have hnotmore : c.1 ∉ more.map (·.1) := by
          intro hmem
          rcases hwhere with hgone | hfirst
          · obtain ⟨d, hd, heq⟩ := mem_map.mp hmem
            exact hout d (mem_cons_of_mem _ hd) (heq ▸ hgone)
          · rw [map_cons, nodup_cons] at hnd
            rw [← Option.some.inj hfirst] at hmem
            exact hnd.1 hmem
        obtain ⟨hstart, link, hcello, hmore⟩ := hlaid
        by_cases hlink : link = some c.1
        · -- one version that is not committed
          have hnil : more = [] := by
            cases more with
            | nil => rfl
            | cons d more =>
              rw [hlink] at hmore
              exact absurd (by rw [Option.some.inj hmore.1]; exact mem_cons_self) hnotmore
          subst hnil hlink
          have hring : ring = true := by
            cases hr : ring with
            | true => rfl
            | false =>
              rw [hr] at hmore
              cases hmore
          obtain ⟨rfl, rfl⟩ : left = [] ∧ writing = [o] := by
            rcases append_eq_singleton_iff.mp hlw with hcase | ⟨-, hnone⟩
            · exact hcase
            · exact absurd hnone (h.closing hring)
          rw [append_nil] at hsplit
          subst hsplit
          have hco : o.1 ≠ c.1 := by
            intro heq
            have hnd' := h.nodup
            simp [heq] at hnd'
          have hswept : swept c.1 s.heap ((c :: rest).map (·.1)) c.1 = some ⟨c.2, none⟩ := by
            rw [swept_root (mem_map.mpr ⟨c, mem_cons_self, rfl⟩), hcell, map_some]
          rw [head?_cons, map_some, settle_pending hcello, if_pos ⟨rfl, rfl⟩]
          refine ⟨_, false, dirty, rfl, h.sub hv (take_sublist 1 _) ?_, ?_⟩
          · dsimp only
            rw [hroot, hring]
            refine ⟨rfl, some o.1, ?_, rfl, some c.1, ?_, rfl⟩
            · rw [setNext_self, hswept, map_some]
            · rw [setNext_of_ne _ hco, hcello]
          · rw [hroot]
            exact iff_of_false Bool.false_ne_true (by rintro ⟨⟩)
        · have hkept : ¬(left = [] ∧ writing.length = 1) := by
            rintro ⟨rfl, hone⟩
            obtain ⟨x, rfl⟩ := length_eq_one_iff.mp hone
            obtain ⟨rfl, rfl⟩ : x = o ∧ [] = more := by simpa using hlw
            have hring : ring = true := h.closed hv (cons_ne_nil _ _)
            rw [hring] at hmore
            exact hlink hmore
          obtain ⟨s', hsettle, hvalue, hlaid'⟩ := settle_spec ⟨rfl, link, hcello, hmore⟩ hnd hnotmore hcello hlink hfew hroot
          rw [head?_cons, map_some, hsettle, if_neg hkept]
          refine ⟨s', false, dirty, rfl, h.sub hv hsub (by rw [hlw]; exact hlaid'), ?_⟩
          rw [hvalue]
          exact iff_of_false Bool.false_ne_true (by rintro ⟨⟩)
    · refine hstay ?_ fun hif => hd hif.2
      have hpass : ¬ended env s (c :: rest) c = true := passed_of_alive hd
      rw [kept, dropWhile_cons_of_neg hpass]
      exact if_neg fun hif => absurd hif.1 (cons_ne_nil _ _)


/-! ## What is to be left -/

section Collects
variable (env : Environment) (snapshots : List Nat) (fuel : Nat) (s : St V) (versions writing : List (Nat × Information V)) (ring : Bool)

/-- Every open snapshot sees what it saw, the checkpoint selects what it did, and what is not committed is where it was, behind committed
    versions that have stayed. -/
structure Intact (s' : St V) (deleted : Bool) : Prop where
  visible : ∀ v ∈ snapshots, ∃ a, isolateInformation s.heap v fuel none s.infoEntry.value = some a ∧
    isolateInformation s'.heap v fuel none s'.infoEntry.value = some a
  checkpoint : 0 < env.activeCheckpoint → ∀ viewlimit, ∃ a,
    isolateCheckpoint s.heap fuel s.infoEntry.value env.activeCheckpoint viewlimit = some a ∧
      isolateCheckpoint s'.heap fuel s'.infoEntry.value env.activeCheckpoint viewlimit = some a
  uncommitted : ∃ left, left.Sublist versions ∧ Storyline s' left writing ring
  deleted : deleted = true ↔ s'.infoEntry.value = none

def Collects : Prop :=
  ∃ s' deleted dirty, deleteUnviewed env fuel s = some ((s', deleted), dirty) ∧ Intact env snapshots fuel s versions writing ring s' deleted

/-- A version that an open snapshot sees, and that has no viewpoint, is let go only if it stays as the root. -/
def Safe : Prop :=
  ∀ v ∈ snapshots, ∀ before c after, versions = before ++ c :: after → c.2.hasViewpoint v = true →
    (∀ x ∈ after, x.2.hasViewpoint v = false) → c.2.viewpoint = 0 ∨ env.viewpointMinimum = 0 →
    (∀ x ∈ before ++ [c], ended env s versions x = true) →
    before = [] ∧ (∀ x ∈ after, ended env s versions x = true) ∧ writing.length = 1

end Collects

/-- Key 7 was loaded, and 2 has written over it since 1 began. -/
def overwrittenTrace : List Snapshot.Ev := [.begin 1, .begin 2, .put 2 7, .commit 2, .limit 2 7, .stamp 2 7, .publish 2 7]

def overwrittenVersions : List (Nat × Information Nat) :=
  [(0, ⟨0, levelCommit, false, false, true, 0, 2⟩), (1, ⟨2, levelCommit, false, false, false, 3, 0⟩)]

def overwritten : St Nat where
  heap a := if a = 0 then some ⟨⟨0, levelCommit, false, false, true, 0, 2⟩, some 1⟩
    else if a = 1 then some ⟨⟨2, levelCommit, false, false, false, 3, 0⟩, none⟩ else none
  infoEntry := ⟨some 0, false, false, 1⟩

theorem overwritten_storyline : Storyline overwritten overwrittenVersions [] false where
  laid := ⟨rfl, _, rfl, rfl, _, rfl, rfl⟩
  nodup := by decide
  committed := by
    refine ⟨?_, ?_, ?_⟩ <;> decide
  uncommitted := by decide
  closing := by decide
  closed := by decide

/-- 1 has viewpoint 1 and sees the loaded version, which is let go. -/
theorem as_built_loaded_version_vanishes :
    (∃ t, Reach Snapshot.step Free (Snapshot.init fun _ => true) t ∧ (t.tx 1).phase = .active ∧ (t.tx 1).viewpoint = 1 ∧
      (t.line 7).versions = overwrittenVersions.map (·.2)) ∧
    Storyline overwritten overwrittenVersions [] false ∧ ¬Collects ⟨true, 0, 1⟩ [1] 3 overwritten overwrittenVersions [] false := by
  refine ⟨?_, overwritten_storyline, ?_⟩
  · obtain ⟨t, ht, hphase, hview, hline⟩ : ∃ t, exec Snapshot.step (Snapshot.init fun _ => true) overwrittenTrace = some t ∧
        (t.tx 1).phase = .active ∧ (t.tx 1).viewpoint = 1 ∧ (t.line 7).versions = overwrittenVersions.map (·.2) :=
      exec_ends (by decide +kernel)
    exact ⟨t, reach_of_exec _ ht, hphase, hview, hline⟩
  · rintro ⟨s', deleted, dirty, hresult, hintact⟩
    obtain ⟨a, ha, ha'⟩ := hintact.visible 1 mem_cons_self
    have hbefore : isolateInformation overwritten.heap 1 3 none overwritten.infoEntry.value = some (some 0) := by decide
    have hafter : (deleteUnviewed ⟨true, 0, 1⟩ 3 overwritten).bind
        (fun r => isolateInformation r.1.1.heap 1 3 none r.1.1.infoEntry.value) = some none := by decide
    rw [hresult] at hafter
    rw [hbefore] at ha
    cases ha
    exact absurd (ha'.symm.trans hafter) (by decide)

/-! ## What snapshots see -/

theorem seen_of_split {before after : List (Nat × Information V)} (hc : c.2.hasViewpoint v = true)
    (hafter : ∀ x ∈ after, x.2.hasViewpoint v = false) : seen v (before ++ c :: after) = some c := by
  have hnone : after.filter (fun x => x.2.hasViewpoint v) = [] :=
    filter_eq_nil_iff.mpr fun x hx => by rw [hafter x hx]; exact Bool.false_ne_true
  rw [seen, filter_append, filter_cons, if_pos hc, hnone, getLast?_concat]

theorem split_of_seen (h : seen v versions = some c) :
    ∃ before after, versions = before ++ c :: after ∧ c.2.hasViewpoint v = true ∧ ∀ x ∈ after, x.2.hasViewpoint v = false := by
  induction versions with
  | nil => cases h
  | cons d versions ih =>
    rw [seen_cons] at h
    cases hs : seen v versions with
    | some e =>
      rw [hs, some_or] at h
      obtain ⟨before, after, rfl, hrest⟩ := ih (hs.trans h)
      exact ⟨d :: before, after, rfl, hrest⟩
    | none =>
      rw [hs, none_or] at h
      split_ifs at h with hd
      cases h
      refine ⟨[], versions, rfl, hd, fun x hx => ?_⟩
      have hnil := getLast?_eq_none_iff.mp hs
      exact Bool.eq_false_iff.mpr (filter_eq_nil_iff.mp hnil x hx)

/-- A version that a running map lets go and an open snapshot sees has no viewpoint. -/
theorem overlooked (hrun : env.running = true) (hv : env.viewpointMinimum ≤ v) (hc : c.2.hasViewpoint v = true)
    (hend : ended env s versions c = true) : c.2.viewpoint = 0 ∨ env.viewpointMinimum = 0 := by
  by_contra hnot
  rw [not_or] at hnot
  simp only [hasViewpoint, Bool.and_eq_true, decide_eq_true_eq] at hc
  have hviewing : viewing env.viewpointMinimum c.2.limit = true := by
    simp [viewing, hnot.2]
    omega
  simp [ended, passed, holds, hrun, hnot.1, hviewing] at hend

theorem kept_root (h : versions.dropWhile (ended env s versions) = [] ∧ writing.length = 1) :
    kept env s versions writing = versions.take 1 := if_pos h

theorem kept_rest (h : ¬(versions.dropWhile (ended env s versions) = [] ∧ writing.length = 1)) :
    kept env s versions writing = versions.dropWhile (ended env s versions) := if_neg h

theorem kept_sublist : (kept env s versions writing).Sublist versions := by
  by_cases h : versions.dropWhile (ended env s versions) = [] ∧ writing.length = 1
  · rw [kept_root h]
    exact take_sublist 1 versions
  · rw [kept_rest h]
    exact dropWhile_sublist _

theorem dropWhile_stopped {f : Nat × Information V → Bool} {before : List (Nat × Information V)}
    (after : List (Nat × Information V)) (h : ¬∀ x ∈ before ++ [c], f x = true) : ∃ l, (before ++ c :: after).dropWhile f = l ++ c :: after := by
  induction before with
  | nil =>
    have hc : ¬f c = true := fun hc => h fun x hx => by rw [mem_singleton.mp hx]; exact hc
    exact ⟨[], dropWhile_cons_of_neg hc⟩
  | cons d before ih =>
    rw [cons_append]
    by_cases hd : f d = true
    · rw [dropWhile_cons_of_pos hd]
      refine ih fun hall => h fun x hx => ?_
      rcases mem_cons.mp hx with rfl | hx
      · exact hd
      · exact hall x hx
    · exact ⟨d :: before, dropWhile_cons_of_neg hd⟩

include h in
/-- A snapshot sees what it saw unless the loop goes past it. -/
theorem seen_kept_iff :
    (seen v (kept env s versions writing)).map (·.1) = (seen v versions).map (·.1) ↔
      ∀ before c after, versions = before ++ c :: after → c.2.hasViewpoint v = true → (∀ x ∈ after, x.2.hasViewpoint v = false) →
        (∀ x ∈ before ++ [c], ended env s versions x = true) →
        before = [] ∧ (∀ x ∈ after, ended env s versions x = true) ∧ writing.length = 1 := by
  have hnd : (versions.map (·.1)).Nodup := by
    have hall := h.nodup
    rw [map_append, nodup_append] at hall
    exact hall.1
  constructor
  · intro hsame before c after hsplit hc hafter hend
    have happend : before ++ c :: after = before ++ [c] ++ after := by rw [append_assoc, singleton_append]
    have hdrop : versions.dropWhile (ended env s versions) = after.dropWhile (ended env s versions) := by
      nth_rewrite 2 [hsplit]
      rw [happend, dropWhile_append_of_pos hend]
    have hseen : seen v versions = some c := by rw [hsplit, seen_of_split hc hafter]
    rw [hseen, map_some] at hsame
    obtain ⟨d, hd, hadr⟩ := map_eq_some_iff.mp hsame
    have hmem : d ∈ kept env s versions writing := mem_of_mem_filter (mem_of_getLast? hd)
    rw [hsplit, map_append, map_cons, nodup_append, nodup_cons] at hnd
    by_cases hroot : versions.dropWhile (ended env s versions) = [] ∧ writing.length = 1
    · rw [kept_root hroot] at hmem
      obtain ⟨hnil, hone⟩ := hroot
      rw [hdrop] at hnil
      refine ⟨?_, dropWhile_eq_nil_iff.mp hnil, hone⟩
      cases before with
      | nil => rfl
      | cons b before =>
        rw [hsplit, cons_append, take_succ_cons, take_zero, mem_singleton] at hmem
        rw [hmem] at hadr
        exact absurd hadr.symm (hnd.2.2 b.1 mem_cons_self c.1 mem_cons_self).symm
    · rw [kept_rest hroot, hdrop] at hmem
      exact absurd (mem_map.mpr ⟨d, (dropWhile_sublist _).mem hmem, hadr⟩) hnd.2.1.1
  · intro hsafe
    cases hs : seen v versions with
    | none =>
      have hnone : ∀ c ∈ versions, ¬c.2.hasViewpoint v = true := filter_eq_nil_iff.mp (getLast?_eq_none_iff.mp hs)
      have hkept : seen v (kept env s versions writing) = none :=
        getLast?_eq_none_iff.mpr (filter_eq_nil_iff.mpr fun c hc => hnone c (kept_sublist.mem hc))
      rw [hkept]
    | some c =>
      obtain ⟨before, after, hsplit, hc, hafter⟩ := split_of_seen hs
      by_cases hend : ∀ x ∈ before ++ [c], ended env s versions x = true
      · obtain ⟨rfl, hall, hone⟩ := hsafe before c after hsplit hc hafter hend
        have hnil : versions.dropWhile (ended env s versions) = [] := by
          refine dropWhile_eq_nil_iff.mpr fun x hx => ?_
          rw [hsplit, nil_append] at hx
          rcases mem_cons.mp hx with rfl | hx
          · exact hend x (by simp)
          · exact hall x hx
        have hkept : kept env s versions writing = [c] := by
          rw [kept_root ⟨hnil, hone⟩, hsplit]
          rfl
        rw [hkept]
        simp [seen, hc]
      · obtain ⟨l, hl⟩ := dropWhile_stopped after hend
        rw [← hsplit] at hl
        have hkept : kept env s versions writing = l ++ c :: after := by
          rw [kept_rest fun h => by simp [hl] at h, hl]
        rw [hkept, seen_of_split hc hafter]

/-! ## What the checkpoint selects -/

/-- A running map does not let go the version that the checkpoint needs. -/
theorem checkpoint_stays (hrun : env.running = true) (h : checkpointOf env versions = some c) :
    ¬ended env s versions c = true := by
  simp [ended, passed, holds, hrun, h]

theorem checkpointed_kept (hrun : env.running = true) (hcheck : 0 < env.activeCheckpoint) (viewlimit : Bool) :
    checkpointed env.activeCheckpoint viewlimit (kept env s versions writing) = checkpointed env.activeCheckpoint viewlimit versions := by
  have hof : checkpointOf env versions = selected env.activeCheckpoint versions := if_pos hcheck
  have hsplit := takeWhile_append_dropWhile (p := ended env s versions) (l := versions)
  have hselected : selected env.activeCheckpoint versions =
      selected env.activeCheckpoint (versions.dropWhile (ended env s versions)) := by
    nth_rewrite 1 [← hsplit]
    refine selected_behind fun c hc hmem => ?_
    rw [hsplit, ← hof] at hc
    exact checkpoint_stays hrun hc (mem_takeWhile_imp hmem)
  by_cases hroot : versions.dropWhile (ended env s versions) = [] ∧ writing.length = 1
  · rw [hroot.1] at hselected
    have hfront : selected env.activeCheckpoint (versions.take 1) = none := by
      refine selected_front (r := versions.drop 1) ?_
      rw [take_append_drop]
      exact hselected
    have hnone : selected env.activeCheckpoint versions = none := hselected
    rw [kept_root hroot, checkpointed, checkpointed, hfront, hnone]
    rfl
  · rw [kept_rest hroot, checkpointed, checkpointed, hselected]
    cases hs : selected env.activeCheckpoint (versions.dropWhile (ended env s versions)) with
    | none => rfl
    | some c =>
      have hne : versions.dropWhile (ended env s versions) ≠ [] := ne_nil_of_mem (selected_mem hs)
      have hlast : (versions.dropWhile (ended env s versions)).getLast? = versions.getLast? := by
        nth_rewrite 3 [← hsplit]
        rw [getLast?_append_of_ne_nil _ hne]
      rw [hlast]

/-- Enough fuel makes deleteUnviewed come to an end, and all is as it should be exactly if no open snapshot sees a version without a
    viewpoint that is let go. -/
theorem unviewed_iff (hrun : env.running = true) {snapshots : List Nat} (hmin : ∀ v ∈ snapshots, env.viewpointMinimum ≤ v)
    (h : Storyline s versions writing ring) (hne : versions ++ writing ≠ []) (hf : versions.length + writing.length < fuel) :
    Collects env snapshots fuel s versions writing ring ↔ Safe env snapshots s versions writing := by
  obtain ⟨s', deleted, dirty, hresult, hleft, hdeleted⟩ := deleteUnviewed_spec env h hne hf
  have hlen : versions.length < fuel := Nat.lt_of_le_of_lt (Nat.le_add_right _ _) hf
  have hlen' : (kept env s versions writing).length < fuel := Nat.lt_of_le_of_lt kept_sublist.length_le hlen
  have hbefore (v : Nat) := isolate_spec (v := v) h.laid h.committed h.uncommitted h.open_end hlen none
  have hafter (v : Nat) := isolate_spec (v := v) hleft.laid hleft.committed hleft.uncommitted hleft.open_end hlen' none
  simp only [or_none] at hbefore hafter
  constructor
  · rintro ⟨s'', deleted', dirty', hresult', hintact⟩ v hv before c after hsplit hc hnone - hend
    rw [hresult] at hresult'
    cases hresult'
    obtain ⟨a, ha, ha'⟩ := hintact.visible v hv
    rw [hbefore v] at ha
    rw [hafter v] at ha'
    exact (seen_kept_iff h).mp (Option.some.inj (ha'.trans ha.symm)) before c after hsplit hc hnone hend
  · intro hsafe
    refine ⟨s', deleted, dirty, hresult, ⟨fun v hv => ⟨_, hbefore v, ?_⟩, fun hcheck viewlimit => ?_,
      ⟨_, kept_sublist, hleft⟩, hdeleted⟩⟩
    · rw [hafter v, (seen_kept_iff h).mpr fun before c after hsplit hc hnone hend => ?_]
      exact hsafe v hv before c after hsplit hc hnone (overlooked hrun (hmin v hv) hc (hend c (by simp))) hend
    · refine ⟨_, isolateCheckpoint_spec h.laid h.nodup h.committed h.uncommitted h.open_end hlen viewlimit, ?_⟩
      rw [isolateCheckpoint_spec hleft.laid hleft.nodup hleft.committed hleft.uncommitted hleft.open_end hlen' viewlimit,
        checkpointed_kept hrun hcheck]

/-- Two versions that nobody views, one that a snapshot does, and two that are not committed. -/
def pendingVersions : List (Nat × Information Nat) :=
  [(0, ⟨1, levelCommit, false, false, true, 1, 2⟩), (1, ⟨2, levelCommit, false, false, true, 3, 4⟩),
   (2, ⟨3, levelCommit, false, false, true, 5, 8⟩)]

def pendingWriting : List (Nat × Information Nat) :=
  [(3, ⟨4, 0, false, false, false, 0, 0⟩), (4, ⟨4, 1, false, true, false, 0, 0⟩)]

def pending : St Nat where
  heap a := ((pendingVersions ++ pendingWriting).find? fun c => c.1 = a).map fun c => ⟨c.2, some (if c.1 = 4 then 0 else c.1 + 1)⟩
  infoEntry := ⟨some 0, false, true, 3⟩

theorem pending_collects : Collects ⟨true, 6, 7⟩ [7, 9] 6 pending pendingVersions pendingWriting true := by
  have hstory : Storyline pending pendingVersions pendingWriting true :=
    ⟨⟨rfl, _, rfl, rfl, _, rfl, rfl, _, rfl, rfl, _, rfl, rfl, _, rfl, rfl⟩, by decide, ⟨by decide, by decide, by decide⟩, by decide,
      by decide, by decide⟩
  refine (unviewed_iff rfl (by decide) hstory (by decide) (by decide)).mpr ?_
  intro v _ before c after hsplit _ _ hzero _
  have hmem : c ∈ pendingVersions := by
    rw [hsplit]
    exact mem_append_right _ mem_cons_self
  have hall : ∀ c ∈ pendingVersions, ¬(c.2.viewpoint = 0 ∨ 7 = 0) := by decide
  exact absurd hzero (hall c hmem)

end DeepFabric.Store.Unviewed
