/-
  DeepFabric.Store.FileLimit — the limit on open files (core/RealTimeShare.h: queue, dequeue, acquire,
  release, destroy, deferredDestroy).

  A file is online while it is in s_fileLimitQueue. acquire brings it online: below the limit at the end
  of the queue, else in the place of a file that nobody uses, which is searched for from where the last
  search ended. A file whose lock another caller holds is passed over.

  - `ok_of_kept`: a step that keeps all that meets the condition.

  As built the file that no place is found for is marked online (`thrown_online`).

  A call happens at once, with the locks that other callers hold (`held`); a caller that would wait for a lock
  makes no step. Opening and closing a file succeeds. The list of files that await deletion is left out.
-/
import DeepFabric.Lib.Run
import Mathlib.Data.List.Nodup

namespace DeepFabric.Store.FileLimit

open DeepFabric.Lib.Run

structure RandomAccessFile where
  active : Bool
  online : Bool
  deriving DecidableEq

def RandomAccessFile.setOnline (file : RandomAccessFile) (flag : Bool) : RandomAccessFile :=
  if flag = false ∧ file.online = true then ⟨false, false⟩
  else if flag = true ∧ file.online = false then { file with online := true }
  else file

structure RealTimeShare (F : Type) where
  files : F → RandomAccessFile
  fileLimitQueue : List F
  fileLimitIndex : Nat

namespace RealTimeShare

variable {F : Type} [DecidableEq F]

def setFile (s : RealTimeShare F) (file : F) (value : RandomAccessFile) : RealTimeShare F :=
  { s with files := fun f => if f = file then value else s.files f }

def setActive (s : RealTimeShare F) (file : F) (active : Bool) : RealTimeShare F := s.setFile file { s.files file with active := active }

def setOnline (s : RealTimeShare F) (file : F) (flag : Bool) : RealTimeShare F := s.setFile file ((s.files file).setOnline flag)

/-- Nobody uses the file, and nobody holds its lock. -/
def Free (held : List F) (s : RealTimeShare F) (item : F) : Prop := item ∉ held ∧ (s.files item).active = false

instance (held : List F) (s : RealTimeShare F) : DecidablePred (s.Free held) := fun _ => inferInstanceAs (Decidable (_ ∧ _))

/-- The loop of queue, and `limit` behind it. -/
def replace (held : List F) (file : F) : Nat → RealTimeShare F → RealTimeShare F × Bool
  | 0, s => (s, true)
  | turns + 1, s =>
    let index := if s.fileLimitIndex ≥ s.fileLimitQueue.length then 0 else s.fileLimitIndex
    match s.fileLimitQueue[index]? with
    | none => (s, true)
    | some item =>
      if s.Free held item then
        ({ s.setOnline item false with fileLimitQueue := s.fileLimitQueue.set index file, fileLimitIndex := index }, false)
      else replace held file turns { s with fileLimitIndex := index + 1 }

/-- The state behind the call, and whether it throws. -/
def queue (fileLimit : Nat) (held : List F) (s : RealTimeShare F) (file : F) : RealTimeShare F × Bool :=
  if (s.files file).online = false then
    let s := { s with fileLimitQueue := s.fileLimitQueue.erase file }
    let (s, limit) :=
      if s.fileLimitQueue.length < fileLimit then ({ s with fileLimitQueue := s.fileLimitQueue ++ [file] }, false)
      else replace held file (s.fileLimitQueue.length * 2) s
    (s.setOnline file true, limit)
  else (s, false)

def dequeue (s : RealTimeShare F) (file : F) : RealTimeShare F :=
  let s := s.setActive file false
  { s with fileLimitQueue := s.fileLimitQueue.erase file }.setOnline file false

/-- The state behind the call, and whether it throws. -/
def acquire (fileLimit : Nat) (held : List F) (s : RealTimeShare F) (file : F) : RealTimeShare F × Bool :=
  let s := s.setActive file true
  if (s.files file).online = false then queue fileLimit held s file else (s, false)

def release (s : RealTimeShare F) (file : F) : RealTimeShare F := s.setActive file false

def deferredDestroy (s : RealTimeShare F) (file : F) : RealTimeShare F := s.dequeue file

def destroy (s : RealTimeShare F) (file : F) : RealTimeShare F := s.dequeue file

end RealTimeShare

open RealTimeShare

inductive Ev (F : Type) where
  /-- Other callers hold the locks of the files `held`. -/
  | acquire (file : F) (held : List F)
  | release (file : F)
  | destroy (file : F)
  | deferredDestroy (file : F)

section

variable {F : Type} [DecidableEq F] (fileLimit : Nat)

def step (s : RealTimeShare F) : Ev F → Option (RealTimeShare F)
  | .acquire file held => if file ∈ held then none else some (acquire fileLimit held s file).1
  | .release file => some (s.release file)
  | .destroy file => some (s.destroy file)
  | .deferredDestroy file => some (s.deferredDestroy file)

def throws (s : RealTimeShare F) : Ev F → Bool
  | .acquire file held => (acquire fileLimit held s file).2
  | _ => false

def init : RealTimeShare F := ⟨fun _ => ⟨false, false⟩, [], 0⟩

/-- A file that is brought online finds room or a file nobody uses, and only files nobody uses are destroyed (the debug build
asks for that). -/
def Ok (s : RealTimeShare F) : Ev F → Prop
  | .acquire file held =>
    (s.files file).online = false → s.fileLimitQueue.length < fileLimit ∨ ∃ item ∈ s.fileLimitQueue, s.Free held item
  | .release _ => True
  | .destroy file => (s.files file).active = false
  | .deferredDestroy file => (s.files file).active = false

instance (s : RealTimeShare F) : DecidablePred (Ok fileLimit s)
  | .acquire _ held => inferInstanceAs (Decidable (_ → _ ∨ ∃ item ∈ s.fileLimitQueue, s.Free held item))
  | .release _ => inferInstanceAs (Decidable True)
  | .destroy file => inferInstanceAs (Decidable ((s.files file).active = false))
  | .deferredDestroy file => inferInstanceAs (Decidable ((s.files file).active = false))

structure Inv (s : RealTimeShare F) : Prop where
  online : ∀ file, (s.files file).online = true ↔ file ∈ s.fileLimitQueue
  active : ∀ file, (s.files file).active = true → (s.files file).online = true
  nodup : s.fileLimitQueue.Nodup
  limit : s.fileLimitQueue.length ≤ fileLimit

/-- Nobody loses a file in use. -/
def Kept (s s' : RealTimeShare F) : Prop :=
  ∀ file, (s.files file).active = true → (s.files file).online = true → (s'.files file).online = true

/-! ## As built -/

/-- One file at most, 0 is in use: the file 1 is online, in use and not in the queue. -/
theorem thrown_online : ∃ s : RealTimeShare Nat, exec (step 1) init [.acquire 0 []] = some s ∧ throws 1 s (.acquire 1 [0]) = true ∧
    ((acquire 1 [0] s 1).1.files 1 = ⟨true, true⟩) ∧ 1 ∉ (acquire 1 [0] s 1).1.fileLimitQueue :=
  ⟨_, rfl, by decide⟩

variable {fileLimit}

/-! ## Flags -/

@[simp] theorem setFile_self (s : RealTimeShare F) (file : F) (value : RandomAccessFile) : (s.setFile file value).files file = value :=
  if_pos rfl

theorem setFile_ne (s : RealTimeShare F) {file f : F} (value : RandomAccessFile) (h : f ≠ file) : (s.setFile file value).files f = s.files f :=
  if_neg h

@[simp] theorem setOffline_online (file : RandomAccessFile) : (file.setOnline false).online = false := by
  cases file with
  | mk active online => cases online <;> rfl

@[simp] theorem setOffline_active (file : RandomAccessFile) (h : file.active = false) : (file.setOnline false).active = false := by
  cases file with
  | mk active online => cases online <;> first | rfl | exact h

/-! ## The search -/

variable {s s' : RealTimeShare F} {held : List F} {file : F}

/-- Where the search begins. -/
def place (s : RealTimeShare F) : Nat := if s.fileLimitIndex ≥ s.fileLimitQueue.length then 0 else s.fileLimitIndex

omit [DecidableEq F] in
theorem place_lt (h : s.fileLimitQueue ≠ []) : place s < s.fileLimitQueue.length := by
  have := List.length_pos_iff.mpr h
  unfold place
  split_ifs <;> omega

/-- What the search does to the queue: nothing, or one place is given to the file. -/
theorem replace_spec (held : List F) (file : F) (turns : Nat) (s : RealTimeShare F) :
    (∃ index, replace held file turns s = ({ s with fileLimitIndex := index }, true)) ∨
      ∃ front item back index, s.fileLimitQueue = front ++ item :: back ∧ s.Free held item ∧
        replace held file turns s = ({ s.setOnline item false with fileLimitQueue := front ++ file :: back, fileLimitIndex := index }, false) := by
  induction turns generalizing s with
  | zero => exact .inl ⟨s.fileLimitIndex, rfl⟩
  | succ turns ih =>
    rw [replace]
    cases hitem : s.fileLimitQueue[place s]? with
    | none => exact .inl ⟨s.fileLimitIndex, by simp only [place] at hitem; simp only [hitem]⟩
    | some item =>
      have hlt := (List.getElem?_eq_some_iff.mp hitem).1
      simp only [place] at hitem
      simp only [hitem]
      by_cases hfree : s.Free held item
      · refine .inr ⟨s.fileLimitQueue.take (place s), item, s.fileLimitQueue.drop (place s + 1), place s, ?_, hfree, ?_⟩
        · have hget : s.fileLimitQueue[place s] = item := (List.getElem?_eq_some_iff.mp hitem).2
          rw [← hget, List.getElem_cons_drop hlt, List.take_append_drop]
        · rw [if_pos hfree, ← place, List.set_eq_take_append_cons_drop, if_pos hlt]
      · rw [if_neg hfree]
        exact ih { s with fileLimitIndex := place s + 1 }

theorem busy_of_failed {turns : Nat} (h : (replace held file turns s).2 = true) {k : Nat} (hk : k < turns) {item : F}
    (hitem : s.fileLimitQueue[(place s + k) % s.fileLimitQueue.length]? = some item) : ¬s.Free held item := by
  have hne : s.fileLimitQueue ≠ [] := by
    intro hnil
    rw [hnil] at hitem
    cases hitem
  have hplace := place_lt hne
  induction turns generalizing s k with
  | zero => omega
  | succ turns ih =>
    have hat := List.getElem?_eq_getElem hplace
    have hat' := hat
    simp only [place] at hat'
    rw [replace] at h
    simp only [hat'] at h
    by_cases hfree : s.Free held s.fileLimitQueue[place s]
    · simp only [place] at hfree
      rw [if_pos hfree] at h
      cases h
    · cases k with
      | zero =>
        rw [Nat.add_zero, Nat.mod_eq_of_lt hplace, hat] at hitem
        exact Option.some.inj hitem ▸ hfree
      | succ k =>
        have hbusy := hfree
        simp only [place] at hbusy
        rw [if_neg hbusy, ← place] at h
        -- the search goes on one place further, from the front behind the last one
        have hnext : place { s with fileLimitIndex := place s + 1 } = (place s + 1) % s.fileLimitQueue.length := by
          show (if s.fileLimitQueue.length ≤ place s + 1 then 0 else place s + 1) = _
          split_ifs with hend
          · rw [Nat.le_antisymm hend hplace, Nat.mod_self]
          · rw [Nat.mod_eq_of_lt (by omega)]
        refine ih (s := { s with fileLimitIndex := place s + 1 }) (k := k) h (by omega) ?_ hne (place_lt hne)
        rw [hnext, Nat.mod_add_mod, ← hitem]
        congr 2
        omega

/-- The search fails exactly if all files of the queue are in use. -/
theorem replace_fails_iff : (replace held file (s.fileLimitQueue.length * 2) s).2 = true ↔ ∀ item ∈ s.fileLimitQueue, ¬s.Free held item := by
  constructor
  · intro h item hitem
    obtain ⟨i, hi⟩ := List.mem_iff_getElem?.mp hitem
    have hlt := (List.getElem?_eq_some_iff.mp hi).1
    have hplace := place_lt (List.ne_nil_of_mem hitem)
    -- the place is so far ahead
    have hround : (place s + (i + (s.fileLimitQueue.length - place s))) % s.fileLimitQueue.length = i := by
      have hsum : place s + (i + (s.fileLimitQueue.length - place s)) = i + s.fileLimitQueue.length := by omega
      rw [hsum, Nat.add_mod_right, Nat.mod_eq_of_lt hlt]
    refine busy_of_failed h (k := i + (s.fileLimitQueue.length - place s)) (by omega) ?_
    rw [hround, hi]
  · intro h
    rcases replace_spec held file (s.fileLimitQueue.length * 2) s with ⟨index, heq⟩ | ⟨front, item, back, index, hqueue, hfree, -⟩
    · rw [heq]
    · exact absurd hfree (h item (by rw [hqueue]; exact List.mem_append_right _ List.mem_cons_self))

/-! ## Calls -/

theorem queue_eq (hoff : (s.files file).online = false) (hnew : file ∉ s.fileLimitQueue) : queue fileLimit held s file =
    if s.fileLimitQueue.length < fileLimit then ({ s with fileLimitQueue := s.fileLimitQueue ++ [file] }.setOnline file true, false)
    else ((replace held file (s.fileLimitQueue.length * 2) s).1.setOnline file true, (replace held file (s.fileLimitQueue.length * 2) s).2) := by
  rw [queue, if_pos hoff, List.erase_of_not_mem hnew]
  by_cases hroom : s.fileLimitQueue.length < fileLimit
  · simp only [if_pos hroom]
  · simp only [if_neg hroom]

/-- What acquire does: the file was online, there is room, it takes the place of another one, or there is none. -/
theorem acquire_cases (h : Inv fileLimit s) (held : List F) (file : F) :
    ((s.files file).online = true ∧ acquire fileLimit held s file = (s.setActive file true, false)) ∨
      ((s.files file).online = false ∧ s.fileLimitQueue.length < fileLimit ∧ ∃ s', acquire fileLimit held s file = (s', false) ∧
        s'.fileLimitQueue = s.fileLimitQueue ++ [file] ∧ s'.files file = ⟨true, true⟩ ∧ ∀ f ≠ file, s'.files f = s.files f) ∨
      ((s.files file).online = false ∧ ∃ front item back s', s.fileLimitQueue = front ++ item :: back ∧ s.Free held item ∧
        acquire fileLimit held s file = (s', false) ∧ s'.fileLimitQueue = front ++ file :: back ∧ s'.files file = ⟨true, true⟩ ∧
        s'.files item = (s.files item).setOnline false ∧ ∀ f, f ≠ file → f ≠ item → s'.files f = s.files f) ∨
      ((s.files file).online = false ∧ fileLimit ≤ s.fileLimitQueue.length ∧ (∀ item ∈ s.fileLimitQueue, ¬s.Free held item) ∧
        ∃ s', acquire fileLimit held s file = (s', true) ∧ s'.fileLimitQueue = s.fileLimitQueue ∧ s'.files file = ⟨true, true⟩) := by
  have hflag : ((s.setActive file true).files file).online = (s.files file).online := by simp [setActive]
  cases honline : (s.files file).online with
  | true =>
    refine .inl ⟨rfl, ?_⟩
    rw [acquire, hflag, honline, if_neg (by decide)]
  | false =>
    have hnew : file ∉ s.fileLimitQueue := fun hmem => by rw [(h.online file).mpr hmem] at honline; cases honline
    have hother : ∀ f ≠ file, (s.setActive file true).files f = s.files f := fun f hf => setFile_ne s _ hf
    have hused : ((s.setActive file true).files file).setOnline true = ⟨true, true⟩ := by
      simp [setActive, RandomAccessFile.setOnline, honline]
    rw [acquire, hflag, honline, if_pos rfl, queue_eq (hflag.trans honline) hnew]
    by_cases hroom : s.fileLimitQueue.length < fileLimit
    · refine .inr (.inl ⟨rfl, hroom, _, if_pos hroom, rfl, ?_, fun f hf => ?_⟩)
      · rw [setOnline, setFile_self]
        exact hused
      · exact (setFile_ne _ _ hf).trans (hother f hf)
    · rw [if_neg (show ¬(s.setActive file true).fileLimitQueue.length < fileLimit from hroom)]
      rcases replace_spec held file (s.fileLimitQueue.length * 2) (s.setActive file true) with
        ⟨index, heq⟩ | ⟨front, item, back, index, hqueue, hfree, heq⟩
      · have hfail : (replace held file (s.fileLimitQueue.length * 2) (s.setActive file true)).2 = true := by rw [heq]
        refine .inr (.inr (.inr ⟨rfl, Nat.le_of_not_lt hroom, fun item hitem hfree => ?_,
          (replace held file (s.fileLimitQueue.length * 2) (s.setActive file true)).1.setOnline file true, Prod.ext rfl hfail,
          by rw [heq]; rfl, ?_⟩))
        · refine replace_fails_iff (s := s.setActive file true) |>.mp hfail item hitem ⟨hfree.1, ?_⟩
          rw [← hfree.2, ← hother item (fun hsame => hnew (hsame ▸ hitem))]
        · rw [heq, setOnline, setFile_self]
          exact hused
      · have hitem : item ≠ file := by
          rintro rfl
          exact hnew (hqueue ▸ List.mem_append_right _ List.mem_cons_self)
        refine .inr (.inr (.inl ⟨rfl, front, item, back, _, hqueue, ⟨hfree.1, ?_⟩, congrArg (fun r => (r.1.setOnline file true, r.2)) heq,
          rfl, ?_, ?_, fun f hf hf' => ?_⟩))
        · rw [← hfree.2, hother item hitem]
        · rw [setOnline, setFile_self, ← hused]
          exact congrArg (RandomAccessFile.setOnline · true) (setFile_ne _ _ (Ne.symm hitem))
        · rw [setOnline, setFile_ne _ _ hitem]
          exact (setFile_self _ item _).trans (congrArg (RandomAccessFile.setOnline · false) (hother item hitem))
        · rw [setOnline, setFile_ne _ _ hf]
          exact (setFile_ne _ _ hf').trans (hother f hf)

theorem acquire_inv (h : Inv fileLimit s) (hok : Ok fileLimit s (.acquire file held)) :
    Inv fileLimit (acquire fileLimit held s file).1 ∧ Kept s (acquire fileLimit held s file).1 ∧ (acquire fileLimit held s file).2 = false := by
  rcases acquire_cases h held file with ⟨honline, heq⟩ | ⟨honline, hroom, s', heq, hqueue, hfile, hother⟩ |
    ⟨honline, front, item, back, s', hsplit, hfree, heq, hqueue, hfile, hitem, hother⟩ | ⟨honline, hfull, hbusy, -⟩
  · have hflag : ∀ f, ((s.setActive file true).files f).online = (s.files f).online := by
      intro f
      by_cases hf : f = file
      · simp [hf, setActive]
      · rw [setActive, setFile_ne s _ hf]
    rw [heq]
    refine ⟨⟨fun f => (hflag f).symm ▸ h.online f, fun f hf => ?_, h.nodup, h.limit⟩, fun f _ hf => (hflag f).trans hf, rfl⟩
    rw [hflag]
    by_cases hsame : f = file
    · exact hsame ▸ honline
    · rw [setActive, setFile_ne s _ hsame] at hf
      exact h.active f hf
  · have hnew : file ∉ s.fileLimitQueue := fun hmem => by rw [(h.online file).mpr hmem] at honline; cases honline
    rw [heq]
    refine ⟨⟨fun f => ?_, fun f hf => ?_, ?_, ?_⟩, fun f _ hf => ?_, rfl⟩
    · rw [hqueue, List.mem_append, List.mem_singleton]
      by_cases hsame : f = file
      · simp [hsame, hfile]
      · rw [hother f hsame, h.online f]
        simp [hsame]
    · by_cases hsame : f = file
      · rw [hsame, hfile]
      · rw [hother f hsame] at hf ⊢
        exact h.active f hf
    · rw [hqueue]
      exact List.nodup_append.mpr ⟨h.nodup, List.nodup_singleton file, by
        rintro a ha b hb rfl
        exact hnew (List.mem_singleton.mp hb ▸ ha)⟩
    · rw [hqueue, List.length_append]
      exact hroom
    · by_cases hsame : f = file
      · rw [hsame, hfile]
      · rwa [hother f hsame]
  · have hnew : file ∉ s.fileLimitQueue := fun hmem => by rw [(h.online file).mpr hmem] at honline; cases honline
    have hnodup := h.nodup
    rw [hsplit] at hnodup hnew
    have hmid : item ∉ front ∧ item ∉ back := by
      have := List.nodup_middle.mp hnodup
      rw [List.nodup_cons, List.mem_append, not_or] at this
      exact this.1
    have hne : item ≠ file := fun hsame => hnew (hsame ▸ List.mem_append_right _ List.mem_cons_self)
    rw [heq]
    refine ⟨⟨fun f => ?_, fun f hf => ?_, ?_, ?_⟩, fun f hf hf' => ?_, rfl⟩
    · have hold := h.online f
      rw [hsplit] at hold
      rw [hqueue]
      by_cases hsame : f = file
      · simp [hsame, hfile]
      · by_cases hout : f = item
        · rw [hout, hitem, setOffline_online]
          simp [hmid, hne]
        · rw [hother f hsame hout, hold]
          simp [hsame, hout]
    · by_cases hsame : f = file
      · rw [hsame, hfile]
      · by_cases hout : f = item
        · rw [hout, hitem, setOffline_active _ hfree.2] at hf
          cases hf
        · rw [hother f hsame hout] at hf ⊢
          exact h.active f hf
    · rw [hqueue]
      refine List.nodup_middle.mpr (List.nodup_cons.mpr ⟨fun hmem => hnew ?_, (List.nodup_cons.mp (List.nodup_middle.mp hnodup)).2⟩)
      rcases List.mem_append.mp hmem with hmem | hmem
      · exact List.mem_append_left _ hmem
      · exact List.mem_append_right _ (List.mem_cons_of_mem _ hmem)
    · have := h.limit
      rw [hsplit] at this
      rw [hqueue]
      simpa using this
    · by_cases hsame : f = file
      · rw [hsame, hfile]
      · by_cases hout : f = item
        · rw [hout, hfree.2] at hf
          cases hf
        · rwa [hother f hsame hout]
  · rcases hok honline with hroom | ⟨item, hitem, hfree⟩
    · omega
    · exact absurd hfree (hbusy item hitem)

theorem dequeue_inv (h : Inv fileLimit s) (hidle : (s.files file).active = false) :
    Inv fileLimit (s.dequeue file) ∧ Kept s (s.dequeue file) := by
  have hfile : (s.dequeue file).files file = ((s.setActive file false).files file).setOnline false := setFile_self _ file _
  have hother : ∀ f ≠ file, (s.dequeue file).files f = s.files f := fun f hf => (setFile_ne _ _ hf).trans (setFile_ne _ _ hf)
  have hqueue : (s.dequeue file).fileLimitQueue = s.fileLimitQueue.erase file := rfl
  refine ⟨⟨fun f => ?_, fun f hf => ?_, ?_, ?_⟩, fun f hf hf' => ?_⟩
  · rw [hqueue, h.nodup.mem_erase_iff]
    by_cases hsame : f = file
    · rw [hsame, hfile, setOffline_online]
      simp
    · rw [hother f hsame, h.online f]
      simp [hsame]
  · by_cases hsame : f = file
    · rw [hsame, hfile, setOffline_active _ (by simp [setActive])] at hf
      cases hf
    · rw [hother f hsame] at hf ⊢
      exact h.active f hf
  · rw [hqueue]
    exact h.nodup.erase file
  · rw [hqueue]
    exact Nat.le_trans (List.length_erase_le) h.limit
  · by_cases hsame : f = file
    · rw [hsame, hidle] at hf
      cases hf
    · rwa [hother f hsame]

theorem release_inv (h : Inv fileLimit s) (file : F) : Inv fileLimit (s.release file) ∧ Kept s (s.release file) := by
  have hflag : ∀ f, ((s.release file).files f).online = (s.files f).online := by
    intro f
    by_cases hf : f = file
    · simp [hf, release, setActive]
    · rw [release, setActive, setFile_ne s _ hf]
  refine ⟨⟨fun f => (hflag f).symm ▸ h.online f, fun f hf => ?_, h.nodup, h.limit⟩, fun f _ hf => (hflag f).trans hf⟩
  by_cases hsame : f = file
  · simp [hsame, release, setActive] at hf
  · rw [hflag]
    rw [release, setActive, setFile_ne s _ hsame] at hf
    exact h.active f hf

/-! ## Runs -/

omit [DecidableEq F] in
theorem init_inv : Inv fileLimit (init : RealTimeShare F) where
  online _ := by simp [init]
  active _ h := by cases h
  nodup := List.nodup_nil
  limit := Nat.zero_le _

theorem step_inv {e : Ev F} (h : Inv fileLimit s) (hok : Ok fileLimit s e) (hstep : step fileLimit s e = some s') :
    Inv fileLimit s' ∧ Kept s s' ∧ throws fileLimit s e = false := by
  cases e with
  | acquire file held =>
    obtain ⟨-, rfl⟩ := Option.ite_none_left_eq_some.mp hstep |>.imp_right Option.some.inj
    exact acquire_inv h hok
  | release file =>
    cases hstep
    exact ⟨(release_inv h file).1, (release_inv h file).2, rfl⟩
  | destroy file =>
    cases hstep
    exact ⟨(dequeue_inv h hok).1, (dequeue_inv h hok).2, rfl⟩
  | deferredDestroy file =>
    cases hstep
    exact ⟨(dequeue_inv h hok).1, (dequeue_inv h hok).2, rfl⟩

/-- Where every acquire finds room or a file nobody uses, and nobody uses what is destroyed, the queue has the online files,
each once and at most the limit of them, and from there no step takes a file in use offline or throws. -/
theorem limit_kept {s : RealTimeShare F} (h : Reach (step fileLimit) (Ok fileLimit) init s) :
    Inv fileLimit s ∧ ∀ (e : Ev F) (s' : RealTimeShare F), Ok fileLimit s e → step fileLimit s e = some s' → Kept s s' ∧ throws fileLimit s e = false := by
  have hinv : Inv fileLimit s := h.inv init_inv fun hs hok hstep => (step_inv hs hok hstep).1
  exact ⟨hinv, fun e s' hok hstep => (step_inv hinv hok hstep).2⟩

/-- A limit of two: 0 is in use, 1 is given back and makes room for 2. -/
theorem limit_kept_of_two : ∃ s, exec (guarded (step 2) (Ok 2)) (init : RealTimeShare Nat)
      [.acquire 0 [], .acquire 1 [0], .release 1, .acquire 2 [0]] = some s ∧ s.fileLimitQueue = [0, 2] ∧ Inv 2 s := by
  obtain ⟨s, hs, hqueue⟩ := @exec_ends _ _ (guarded (step 2) (Ok 2)) (init : RealTimeShare Nat)
    [.acquire 0 [], .acquire 1 [0], .release 1, .acquire 2 [0]] (fun s => s.fileLimitQueue = [0, 2]) _ (by decide)
  exact ⟨s, hs, hqueue, (limit_kept (reach_of_exec_guarded _ hs)).1⟩

end

end DeepFabric.Store.FileLimit
