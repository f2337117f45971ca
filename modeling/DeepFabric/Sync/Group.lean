/-
  DeepFabric.Sync.Group — the global group sync of MeasuredRandomAccessFile
  (util/MeasuredRandomAccessFile.h).

  All committers share one counter of planned syncs (`s_syncCount`), one list of files to
  sync (`s_syncFiles`, where a destroyed file leaves a null) and one event (`s_syncEvent`).
  A committer plans, writes and registers its files, and performs:
  - `planSynchronizeGlobally` counts it, outside the event's lock;
  - `prepareSynchronizeGlobally` marks a file syncable and lists it, unless it is marked
    already; the pair form looks at both files and lists both, value file first;
  - `performSynchronizeGlobally(true)` takes it off the count. The one that brings the count
    to zero fdsyncs every listed file that is still syncable, empties the list and wakes
    everybody; the others wait. `performSynchronizeGlobally(false)` runs the pass whatever
    the count is, and never waits;
  - `syncAndCloseFiles` and the destructor fdsync files outside a pass.
  `fdsync` clears the file's syncable flag. The critical sections are atomic here, and a wait
  ends only after a notifyAll. A destroyed file's address may be used again: the next file
  there starts unsyncable and unlisted.

  `log` is a history variable, newest first: what was registered by whom, what was fdsynced,
  which perform call returned.

  Proved, over every interleaving:
  - `step_inv` / `inv`: a syncable file is listed, a file that is not syncable has been
    fdsynced since its last registration, the count is the number of committers that have
    planned and not performed, and nobody waits at count zero.
-/
import Mathlib.Data.Finset.Card
import Mathlib.Data.Fintype.Basic
import DeepFabric.Lib.Run

namespace DeepFabric.Sync.Group

open DeepFabric.Lib.Run Option Function
open Function (update)

inductive Phase where
  | idle
  /-- Counted in `s_syncCount`; may register files. -/
  | planned
  /-- Inside `s_syncEvent.wait()`. -/
  | waiting
  /-- A notifyAll came; the wait has not returned yet. -/
  | notified
  deriving DecidableEq, Repr

inductive Act where
  | registered (t f : Nat)
  | fdsync (f : Nat)
  | returned (t : Nat)
  deriving DecidableEq, Repr

structure St where
  syncCount : Int
  syncFiles : List (Option Nat)
  syncable : Nat → Bool
  phase : Nat → Phase
  log : List Act

def init : St := ⟨0, [], fun _ => false, fun _ => .idle, []⟩

/-! ## The operations -/

/-- RandomAccessFile::fdsync, which also ends `syncPerform`. -/
def fdsync (s : St) (f : Nat) : St :=
  { s with syncable := update s.syncable f false, log := .fdsync f :: s.log }

/-- Sync a file that is still marked: one turn of the pass, and the destructor's and setOnline's check. -/
def syncPrepared (s : St) (f : Nat) : St := if s.syncable f then fdsync s f else s

def planSynchronizeGlobally (s : St) (t : Nat) : St :=
  { s with syncCount := s.syncCount + 1, phase := update s.phase t .planned }

def list (s : St) (f : Nat) : St :=
  { s with syncable := update s.syncable f true, syncFiles := s.syncFiles ++ [some f] }

def prepareSynchronizeGlobally (s : St) (t wfile : Nat) : St :=
  let s1 := if s.syncable wfile = false then list s wfile else s
  { s1 with log := .registered t wfile :: s1.log }

def preparePairGlobally (s : St) (t lwfile vwfile : Nat) : St :=
  let s1 := if s.syncable lwfile = false ∨ s.syncable vwfile = false then list (list s vwfile) lwfile else s
  { s1 with log := .registered t lwfile :: .registered t vwfile :: s1.log }

/-- The loop over `s_syncFiles`. -/
def syncLoop (s : St) : List (Option Nat) → St
  | [] => s
  | none :: fs => syncLoop s fs
  | some f :: fs => syncLoop (syncPrepared s f) fs

def notifyAll (s : St) : St :=
  { s with phase := fun t => if s.phase t = .waiting then .notified else s.phase t }

def syncPass (s : St) : St := notifyAll { syncLoop s s.syncFiles with syncFiles := [] }

def performSynchronizeGlobally (s : St) (t : Nat) (decrement : Bool) : St :=
  let s1 := if decrement then { s with syncCount := s.syncCount - 1, phase := update s.phase t .idle } else s
  if decrement = false ∨ s1.syncCount = 0 then { syncPass s1 with log := .returned t :: (syncPass s1).log }
  else { s1 with phase := update s1.phase t .waiting }

/-- Both files are fdsynced whatever their flag says; setOnline(false) then looks at the flag again. -/
def syncAndCloseFiles (s : St) (vwfile lwfile : Nat) : St :=
  syncPrepared (syncPrepared (fdsync (fdsync s vwfile) lwfile) vwfile) lwfile

/-- ~MeasuredRandomAccessFile: sync if marked, then null every entry of the list. -/
def destroy (s : St) (f : Nat) : St :=
  let s1 := syncPrepared s f
  { s1 with syncFiles := s1.syncFiles.map fun e => if e = some f then none else e }

inductive Ev where
  | plan (t : Nat)
  | prepare (t wfile : Nat)
  | preparePair (t lwfile vwfile : Nat)
  | perform (t : Nat)
  | performExternal (t : Nat)
  | wake (t : Nat)
  | syncAndClose (vwfile lwfile : Nat)
  | destroy (f : Nat)
  deriving Repr

def step (s : St) : Ev → Option St
  | .plan t => if s.phase t = .idle then some (planSynchronizeGlobally s t) else none
  | .prepare t w => if s.phase t = .planned then some (prepareSynchronizeGlobally s t w) else none
  | .preparePair t l v => if s.phase t = .planned then some (preparePairGlobally s t l v) else none
  | .perform t => if s.phase t = .planned then some (performSynchronizeGlobally s t true) else none
  | .performExternal t =>
    if s.phase t = .idle ∨ s.phase t = .planned then some (performSynchronizeGlobally s t false) else none
  | .wake t =>
    if s.phase t = .notified then
      some { s with phase := update s.phase t .idle, log := .returned t :: s.log }
    else none
  | .syncAndClose v l => some (syncAndCloseFiles s v l)
  | .destroy f => some (destroy s f)

/-! ## The invariant -/

/-- Every registration of `f` has a later fdsync of it. -/
def Synced (f : Nat) (log : List Act) : Prop := ∀ t, Follows (.registered t f) (.fdsync f) log

/-- Every file `t` registered has been fdsynced since. -/
def SyncedBy (t : Nat) (log : List Act) : Prop := ∀ f, Follows (.registered t f) (.fdsync f) log

/-- What the flags, the list and the log say together. The phases play no part in it. -/
structure Marks (s : St) : Prop where
  listed : ∀ f, s.syncable f = true → some f ∈ s.syncFiles
  synced : ∀ f, s.syncable f = false → Synced f s.log

structure Inv (s : St) : Prop where
  marks : Marks s
  returned : ∀ t, AtEach (.returned t) (SyncedBy t) s.log
  notified : ∀ t, s.phase t = .notified → SyncedBy t s.log
  /-- The count is the number of committers that planned and have not performed. -/
  counted : ∃ P : Finset Nat, (∀ t, t ∈ P ↔ s.phase t = .planned) ∧ s.syncCount = P.card
  waits : ∀ t, s.phase t = .waiting → 0 < s.syncCount

variable {t : Nat} {log : List Act}

theorem syncedBy_cons {x : Act} (hx : ∀ f, x ≠ .registered t f) (h : SyncedBy t log) :
    SyncedBy t (x :: log) := fun f => follows_cons (hx f) (h f)

variable {f : Nat}

theorem synced_cons {x : Act} (hx : ∀ t, x ≠ .registered t f) (h : Synced f log) :
    Synced f (x :: log) := fun t => follows_cons (hx t) (h t)

theorem synced_fdsync : Synced f (.fdsync f :: log) :=
  fun _ => follows_cons_self (by simp)

theorem init_inv : Inv init where
  marks := ⟨fun f h => by simp [init] at h, fun f _ t => follows_nil⟩
  returned t := atEach_nil
  notified t h := by simp [init] at h
  counted := ⟨∅, fun t => by simp [init], rfl⟩
  waits t h := by simp [init] at h

/-! ### fdsyncs -/

/-- What an operation that only fdsyncs leaves alone: the phases, the count and every promise about the log. -/
structure Quiet (s s' : St) : Prop where
  phase : s'.phase = s.phase
  syncCount : s'.syncCount = s.syncCount
  returned : ∀ t, AtEach (.returned t) (SyncedBy t) s.log → AtEach (.returned t) (SyncedBy t) s'.log
  syncedBy : ∀ t, SyncedBy t s.log → SyncedBy t s'.log

theorem Quiet.refl (s : St) : Quiet s s := ⟨rfl, rfl, fun _ h => h, fun _ h => h⟩

variable {s : St}

theorem Quiet.trans {s1 s2 : St} (h1 : Quiet s s1) (h2 : Quiet s1 s2) : Quiet s s2 where
  phase := h2.phase.trans h1.phase
  syncCount := h2.syncCount.trans h1.syncCount
  returned t h := h2.returned t (h1.returned t h)
  syncedBy t h := h2.syncedBy t (h1.syncedBy t h)

theorem fdsync_quiet (s : St) (f : Nat) : Quiet s (fdsync s f) where
  phase := rfl
  syncCount := rfl
  returned _ h := atEach_cons (fun he => by cases he) h
  syncedBy _ h := syncedBy_cons (by simp) h

theorem fdsync_marks (h : Marks s) (f : Nat) : Marks (fdsync s f) where
  listed g hg := by
    by_cases e : g = f
    · subst e; simp [fdsync] at hg
    · exact h.listed g (by simpa [fdsync, update_of_ne e] using hg)
  synced g hg := by
    by_cases e : g = f
    · subst e; exact synced_fdsync
    · exact synced_cons (by simp) (h.synced g (by simpa [fdsync, update_of_ne e] using hg))

theorem syncPrepared_quiet (s : St) (f : Nat) : Quiet s (syncPrepared s f) := by
  unfold syncPrepared
  split
  · exact fdsync_quiet s f
  · exact Quiet.refl s

theorem syncPrepared_marks (h : Marks s) (f : Nat) : Marks (syncPrepared s f) := by
  unfold syncPrepared
  split
  · exact fdsync_marks h f
  · exact h

theorem syncPrepared_syncable (s : St) (f g : Nat) :
    (syncPrepared s f).syncable g = true ↔ s.syncable g = true ∧ g ≠ f := by
  unfold syncPrepared
  by_cases e : g = f
  · subst e; split <;> simp_all [fdsync]
  · split <;> simp [fdsync, e]

theorem syncLoop_quiet (s : St) (fs : List (Option Nat)) : Quiet s (syncLoop s fs) := by
  induction fs generalizing s with
  | nil => exact Quiet.refl s
  | cons e fs ih =>
    cases e with
    | none => exact ih s
    | some f => exact (syncPrepared_quiet s f).trans (ih _)

theorem syncLoop_marks (h : Marks s) (fs : List (Option Nat)) : Marks (syncLoop s fs) := by
  induction fs generalizing s with
  | nil => exact h
  | cons e fs ih =>
    cases e with
    | none => exact ih h
    | some f => exact ih (syncPrepared_marks h f)

theorem syncLoop_syncable (s : St) (fs : List (Option Nat)) (g : Nat) :
    (syncLoop s fs).syncable g = true ↔ s.syncable g = true ∧ some g ∉ fs := by
  induction fs generalizing s with
  | nil => simp [syncLoop]
  | cons e fs ih =>
    cases e with
    | none => simp [syncLoop, ih]
    | some f => simp [syncLoop, ih, syncPrepared_syncable, and_assoc]

/-- After the loop no file is marked: every marked file was listed. -/
theorem syncLoop_clears (h : Marks s) (g : Nat) : (syncLoop s s.syncFiles).syncable g = false := by
  by_contra hc
  obtain ⟨h1, h2⟩ := (syncLoop_syncable s s.syncFiles g).mp (by simpa using hc)
  exact h2 (h.listed g h1)

/-! ### The pass -/

/-- A pass settles every registration so far and leaves nobody waiting. -/
theorem syncPass_synced (h : Marks s) (f : Nat) : Synced f (syncPass s).log :=
  (syncLoop_marks h s.syncFiles).synced f (syncLoop_clears h f)

theorem syncPass_marks (h : Marks s) : Marks (syncPass s) where
  listed f hf := by
    have := syncLoop_clears h f
    simp only [syncPass, notifyAll] at hf
    simp [this] at hf
  synced f _ := syncPass_synced h f

theorem syncPass_waiting (s : St) (t : Nat) : (syncPass s).phase t ≠ .waiting := by
  simp only [syncPass, notifyAll]
  split <;> simp_all

theorem syncPass_planned (s : St) (t : Nat) : (syncPass s).phase t = .planned ↔ s.phase t = .planned := by
  have hq := (syncLoop_quiet s s.syncFiles).phase
  simp only [syncPass, notifyAll, hq]
  split <;> simp_all

theorem syncPass_syncCount (s : St) : (syncPass s).syncCount = s.syncCount := (syncLoop_quiet s s.syncFiles).syncCount

/-- The pass returns to `t`: everything is settled, and the waiters are released with the same promise. -/
theorem syncPass_inv (hm : Marks s) (hr : ∀ t, AtEach (.returned t) (SyncedBy t) s.log)
    (hc : ∃ P : Finset Nat, (∀ t, t ∈ P ↔ s.phase t = .planned) ∧ s.syncCount = P.card) (t : Nat) :
    Inv { syncPass s with log := .returned t :: (syncPass s).log } := by
  have hall : ∀ u, SyncedBy u (syncPass s).log := fun u f => syncPass_synced hm f u
  refine ⟨⟨(syncPass_marks hm).listed, fun f _ => synced_cons (by simp) (syncPass_synced hm f)⟩, fun u => ?_,
    fun u _ => syncedBy_cons (by simp) (hall u), ?_, fun u hu => absurd hu (syncPass_waiting s u)⟩
  · refine atEach_cons (fun he => ?_) ((syncLoop_quiet s s.syncFiles).returned u (hr u))
    cases he
    exact hall t
  · obtain ⟨P, hP, hn⟩ := hc
    exact ⟨P, fun u => (hP u).trans (syncPass_planned s u).symm, (syncPass_syncCount s).trans hn⟩

/-! ### Registration -/

theorem list_marks (h : Marks s) (f : Nat) : Marks (list s f) where
  listed g hg := by
    by_cases e : g = f
    · subst e; simp [list]
    · exact List.mem_append_left _ (h.listed g (by simpa [list, update_of_ne e] using hg))
  synced g hg := by
    by_cases e : g = f
    · subst e; simp [list] at hg
    · exact h.synced g (by simpa [list, update_of_ne e] using hg)

@[simp] theorem list_syncable_self (s : St) (f : Nat) : (list s f).syncable f = true := by simp [list]

theorem list_syncable {g : Nat} (h : s.syncable g = true) : (list s f).syncable g = true := by
  by_cases e : g = f
  · subst e; simp
  · simpa [list, update_of_ne e] using h

/-- Registering a marked file keeps the marks: what is unsettled is marked. -/
theorem registered_marks (h : Marks s) (hf : s.syncable f = true) (t : Nat) :
    Marks { s with log := .registered t f :: s.log } where
  listed := h.listed
  synced g hg := synced_cons (fun u he => by cases he; simp [hf] at hg) (h.synced g hg)

theorem prepare_marks (h : Marks s) (t w : Nat) : Marks (prepareSynchronizeGlobally s t w) := by
  unfold prepareSynchronizeGlobally
  by_cases e : s.syncable w = false
  · simp only [e, if_true]
    exact registered_marks (list_marks h w) (by simp) t
  · simp only [e]
    exact registered_marks h (by simpa using e) t

theorem preparePair_marks (h : Marks s) (t l v : Nat) : Marks (preparePairGlobally s t l v) := by
  unfold preparePairGlobally
  by_cases e : s.syncable l = false ∨ s.syncable v = false
  · simp only [e, if_true]
    have hv : Marks { list (list s v) l with log := .registered t v :: (list (list s v) l).log } :=
      registered_marks (list_marks (list_marks h v) l) (list_syncable (by simp)) t
    exact registered_marks hv (by simp) t
  · simp only [e, if_false]
    obtain ⟨hl, hv⟩ := not_or.mp e
    have h1 : Marks { s with log := .registered t v :: s.log } := registered_marks h (by simpa using hv) t
    exact registered_marks h1 (by simpa using hl) t

variable {s' : St}

/-- What a registration by `t` does besides the marks: it adds `t`'s registrations to the log. -/
theorem register_inv (h : Inv s) (ht : s.phase t = .planned) (hm : Marks s')
    (hp : s'.phase = s.phase) (hc : s'.syncCount = s.syncCount)
    (hl : ∃ fs : List Nat, s'.log = fs.map (.registered t) ++ s.log) : Inv s' := by
  obtain ⟨fs, hl⟩ := hl
  refine ⟨hm, fun u => ?_, fun u hu => ?_, by rw [hp, hc]; exact h.counted, by rw [hp, hc]; exact h.waits⟩
  · rw [hl]
    clear hl
    induction fs with
    | nil => exact h.returned u
    | cons f fs ih => exact atEach_cons (fun he => by cases he) ih
  · have hne : u ≠ t := fun e => by subst e; rw [hp, ht] at hu; cases hu
    rw [hl]
    clear hl
    induction fs with
    | nil => exact h.notified u (by rw [← hp]; exact hu)
    | cons f fs ih => exact syncedBy_cons (fun g he => by cases he; exact hne rfl) ih

/-! ### Counting -/

theorem plan_inv (h : Inv s) (ht : s.phase t = .idle) : Inv (planSynchronizeGlobally s t) where
  marks := ⟨h.marks.listed, h.marks.synced⟩
  returned := h.returned
  notified u hu := by
    by_cases e : u = t
    · subst e; simp [planSynchronizeGlobally] at hu
    · exact h.notified u (by simpa [planSynchronizeGlobally, update_of_ne e] using hu)
  counted := by
    obtain ⟨P, hP, hn⟩ := h.counted
    have hnot : t ∉ P := fun hm => by rw [hP, ht] at hm; cases hm
    refine ⟨insert t P, fun u => ?_, ?_⟩
    · by_cases e : u = t
      · subst e; simp [planSynchronizeGlobally]
      · simp [planSynchronizeGlobally, e, hP]
    · simp [planSynchronizeGlobally, Finset.card_insert_of_notMem hnot, hn]
  waits u hu := by
    by_cases e : u = t
    · subst e; simp [planSynchronizeGlobally] at hu
    · have := h.waits u (by simpa [planSynchronizeGlobally, update_of_ne e] using hu)
      simp only [planSynchronizeGlobally]
      omega

theorem counted_decrement (h : Inv s) (ht : s.phase t = .planned) :
    ∃ P : Finset Nat, (∀ u, u ∈ P ↔ update s.phase t .idle u = .planned) ∧ s.syncCount - 1 = P.card := by
  obtain ⟨P, hP, hn⟩ := h.counted
  have hmem : t ∈ P := (hP t).mpr ht
  refine ⟨P.erase t, fun u => ?_, ?_⟩
  · by_cases e : u = t
    · subst e; simp
    · simp [e, hP]
  · have := Finset.card_erase_add_one hmem
    omega

theorem perform_inv (h : Inv s) (ht : s.phase t = .planned) :
    Inv (performSynchronizeGlobally s t true) := by
  have hc := counted_decrement h ht
  unfold performSynchronizeGlobally
  simp only [if_true, Bool.true_eq_false, false_or]
  split
  · refine syncPass_inv ?_ ?_ ?_ t
    · exact ⟨h.marks.listed, h.marks.synced⟩
    · exact h.returned
    · exact hc
  · rename_i hz
    refine ⟨⟨h.marks.listed, h.marks.synced⟩, h.returned, fun u hu => ?_, ?_, fun u _ => ?_⟩
    · by_cases e : u = t
      · subst e; simp at hu
      · exact h.notified u (by simpa [update_of_ne e] using hu)
    · obtain ⟨P, hP, hn⟩ := hc
      refine ⟨P, fun u => ?_, hn⟩
      by_cases e : u = t
      · subst e; simp [hP]
      · simp [hP, update_of_ne e]
    · -- the count is a cardinality, and it is not zero
      obtain ⟨P, -, hn⟩ := hc
      simp only at hz ⊢
      omega

/-- The wait returns: a notified thread was settled by the pass that notified it. -/
theorem wake_inv (h : Inv s) (ht : s.phase t = .notified) :
    Inv { s with phase := update s.phase t .idle, log := .returned t :: s.log } where
  marks := ⟨h.marks.listed, fun f hf => synced_cons (by simp) (h.marks.synced f hf)⟩
  returned u := atEach_cons (fun he => by cases he; exact h.notified t ht) (h.returned u)
  notified u hu := by
    by_cases e : u = t
    · subst e; simp at hu
    · exact syncedBy_cons (by simp) (h.notified u (by simpa [update_of_ne e] using hu))
  counted := by
    obtain ⟨P, hP, hn⟩ := h.counted
    refine ⟨P, fun u => ?_, hn⟩
    by_cases e : u = t
    · subst e; simp [hP, ht]
    · simp [hP, update_of_ne e]
  waits u hu := by
    by_cases e : u = t
    · subst e; simp at hu
    · exact h.waits u (by simpa [update_of_ne e] using hu)

theorem quiet_inv (h : Inv s) (hq : Quiet s s') (hm : Marks s') : Inv s' where
  marks := hm
  returned t := hq.returned t (h.returned t)
  notified t ht := hq.syncedBy t (h.notified t (by rw [← hq.phase]; exact ht))
  counted := by rw [hq.phase, hq.syncCount]; exact h.counted
  waits := by rw [hq.phase, hq.syncCount]; exact h.waits

/-- Nulling a file's entries is safe once its flag is down. -/
theorem destroy_marks (h : Marks s) (f : Nat) : Marks (destroy s f) where
  listed g hg := by
    obtain ⟨-, hne⟩ := (syncPrepared_syncable s f g).mp hg
    have hin := (syncPrepared_marks h f).listed g hg
    exact List.mem_map.mpr ⟨some g, hin, by simp [hne]⟩
  synced := (syncPrepared_marks h f).synced

theorem step_inv {e : Ev} (h : Inv s) (hs : step s e = some s') : Inv s' := by
  cases e with
  | plan t =>
    obtain ⟨ht, ⟨⟩⟩ := ite_none_right_eq_some.mp hs
    exact plan_inv h ht
  | prepare t w =>
    obtain ⟨ht, ⟨⟩⟩ := ite_none_right_eq_some.mp hs
    refine register_inv h ht (prepare_marks h.marks t w) ?_ ?_ ⟨[w], ?_⟩ <;>
      (unfold prepareSynchronizeGlobally; split <;> rfl)
  | preparePair t l v =>
    obtain ⟨ht, ⟨⟩⟩ := ite_none_right_eq_some.mp hs
    refine register_inv h ht (preparePair_marks h.marks t l v) ?_ ?_ ⟨[l, v], ?_⟩ <;>
      (unfold preparePairGlobally; split <;> rfl)
  | perform t =>
    obtain ⟨ht, ⟨⟩⟩ := ite_none_right_eq_some.mp hs
    exact perform_inv h ht
  | performExternal t =>
    obtain ⟨-, ⟨⟩⟩ := ite_none_right_eq_some.mp hs
    simp only [performSynchronizeGlobally, Bool.false_eq_true, if_false, true_or, if_true]
    exact syncPass_inv h.marks h.returned h.counted t
  | wake t =>
    obtain ⟨ht, ⟨⟩⟩ := ite_none_right_eq_some.mp hs
    exact wake_inv h ht
  | syncAndClose v l =>
    cases hs
    refine quiet_inv h ?_ (syncPrepared_marks (syncPrepared_marks (fdsync_marks (fdsync_marks h.marks v) l) v) l)
    exact (((fdsync_quiet s v).trans (fdsync_quiet _ l)).trans (syncPrepared_quiet _ v)).trans (syncPrepared_quiet _ l)
  | destroy f =>
    cases hs
    have hq := syncPrepared_quiet s f
    exact quiet_inv h ⟨hq.phase, hq.syncCount, hq.returned, hq.syncedBy⟩ (destroy_marks h.marks f)

theorem inv (h : Reach step Free init s) : Inv s :=
  h.inv (P := Inv) init_inv fun hi _ hs => step_inv hi hs

/-! ## The guarantee -/

/-- A perform call returns only after every file its thread registered was fdsynced since; a file that is not
    listed has no unsynced registration; nobody waits at count zero. -/
theorem perform_returns_synced {s : St} (h : Reach step Free init s) :
    (∀ t a b, s.log = a ++ .returned t :: b → ∀ f, Follows (.registered t f) (.fdsync f) b) ∧
    (∀ f, some f ∉ s.syncFiles → ∀ t, Follows (.registered t f) (.fdsync f) s.log) ∧
    (s.syncCount = 0 → ∀ t, s.phase t ≠ .waiting) := by
  have hi := inv h
  refine ⟨fun t a b he => hi.returned t a b he, fun f hf => ?_, fun hz t ht => ?_⟩
  · have hn : s.syncable f = false := by
      by_contra hc
      exact hf (hi.marks.listed f (by simpa using hc))
    exact hi.marks.synced f hn
  · have := hi.waits t ht
    omega

/-- Two committers share value and log file 7 and 8; the first waits, the second syncs for both. -/
def twoCommitters : List Ev :=
  [.plan 1, .plan 2, .preparePair 1 8 7, .perform 1, .preparePair 2 8 7, .prepare 2 9, .perform 2, .wake 1]

theorem twoCommitters_synced : ∃ s, exec step init twoCommitters = some s ∧ s.log.head? = some (.returned 1) ∧
    Follows (.registered 1 8) (.fdsync 8) s.log.tail := by
  refine ⟨_, rfl, rfl, ?_⟩
  exact (perform_returns_synced (reach_of_exec twoCommitters rfl)).1 1 [] _ rfl 8

end DeepFabric.Sync.Group
