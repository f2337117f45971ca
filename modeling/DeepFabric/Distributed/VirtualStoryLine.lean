/-
  DeepFabric.Distributed.VirtualStoryLine — the versioned bounds of a segment
  (distributed/VirtualKeySpace.cxx: `versionKeySpace` and the three `isolate` look-ups;
  distributed/VirtualInfo.h).

  A segment keeps one VirtualInfo for each version of the key space it was told of: its size and
  its least and greatest viewpoint there. `versionKeySpace` walks to the entry of its version and
  merges its arguments into it, or appends a new entry. It answers whether anything changed,
  which its callers take to mean that an update has to be published. The look-ups walk the list
  from the head and keep what they saw last while the version is not above the one asked for.

  A minimum of 0 means that none is set. `versionKeySpace` therefore takes any minimum over a 0,
  also another 0 (and answers that it changed something), and it takes a 0 for a minimum below
  the stored one.

  - `bounds_iff`: for calls with non-decreasing versions everything the bounds promise holds
    exactly if no call repeats the 0, the size and a maximum of an entry, and no version is
    given a minimum, then 0, then a minimum again.
-/
import Mathlib.Data.List.Pairwise
import Mathlib.Data.List.Sublists
import DeepFabric.Distributed.VirtualKeySpace

namespace DeepFabric.Distributed.VirtualStoryLine

open VirtualKeySpace List

/-- The part of a Segment that is versioned; the list is null until the first call. -/
structure Segment where
  remoteOwner : Bool
  virtualStoryLine : Option (List VirtualInfo)
  deriving DecidableEq, Repr

def Segment.entries (s : Segment) : List VirtualInfo := s.virtualStoryLine.getD []

/-- The arguments of versionKeySpace. -/
structure Call where
  version : Int
  vsize : Int
  minViewpoint : Nat
  maxVirtualViewpoint : Nat
  deriving DecidableEq, Repr

def Call.create (c : Call) : VirtualInfo := ⟨c.vsize, c.minViewpoint, c.maxVirtualViewpoint, c.version⟩

/-- The three tests of versionKeySpace on the entry of its version, each over the entry so far and `changed`. -/
def mergeMinViewpoint (c : Call) (r : VirtualInfo × Bool) : VirtualInfo × Bool :=
  if r.1.minViewpoint = 0 ∨ c.minViewpoint < r.1.minViewpoint then ({ r.1 with minViewpoint := c.minViewpoint }, true) else r

def mergeMaxViewpoint (c : Call) (r : VirtualInfo × Bool) : VirtualInfo × Bool :=
  if c.maxVirtualViewpoint > r.1.maxViewpoint then ({ r.1 with maxViewpoint := c.maxVirtualViewpoint }, true) else r

def mergeVirtualSize (c : Call) (r : VirtualInfo × Bool) : VirtualInfo × Bool :=
  if r.1.vsize ≠ c.vsize then ({ r.1 with vsize := c.vsize }, true) else r

def merge (c : Call) (entry : VirtualInfo) : VirtualInfo × Bool :=
  mergeVirtualSize c (mergeMaxViewpoint c (mergeMinViewpoint c (entry, false)))

/-- The walk to the entry of the version, and what is done there or at the end. -/
def record (c : Call) : List VirtualInfo → List VirtualInfo × Bool
  | [] => ([c.create], true)
  | entry :: rest =>
    if entry.version ≠ c.version then (entry :: (record c rest).1, (record c rest).2)
    else ((merge c entry).1 :: rest, (merge c entry).2)

def invalid (symbol : String) : String := "Invalid VirtualKeySpace<K>::" ++ symbol ++ ": remote owned with no version"

def versionKeySpace (s : Segment) (c : Call) : Except String (Segment × Bool) :=
  if c.version = 0 ∧ s.remoteOwner = true then .error (invalid "versionKeySpace")
  else
    let r := record c s.entries
    .ok ({ s with virtualStoryLine := some r.1 }, r.2)

/-- The loop of a look-up: what the field was in the last entry seen. -/
def isolateLoop {α : Type} (field : VirtualInfo → α) (version : Int) : α → List VirtualInfo → α
  | found, [] => found
  | found, entry :: rest => if entry.version ≤ version then isolateLoop field version (field entry) rest else found

def isolate {α : Type} (symbol : String) (field : VirtualInfo → α) (zero : α) (s : Segment) (version : Int) :
    Except String α :=
  if version = 0 ∧ s.remoteOwner = true then .error (invalid symbol)
  else
    match s.virtualStoryLine with
    | none => .ok zero
    | some storyLine => .ok (isolateLoop field version zero storyLine)

def isolateMinViewpoint (s : Segment) (version : Int) : Except String Nat :=
  isolate "isolateMinViewpoint" (·.minViewpoint) 0 s version

def isolateMaxVirtualViewpoint (s : Segment) (version : Int) : Except String Nat :=
  isolate "isolateMaxVirtualViewpoint" (·.maxViewpoint) 0 s version

def isolateVirtualSize (s : Segment) (version : Int) : Except String Int :=
  isolate "isolateVirtualSize" (·.vsize) 0 s version

/-- A call that throws leaves the segment as it is. -/
def step (s : Segment) (c : Call) : Segment :=
  match versionKeySpace s c with
  | .ok r => r.1
  | .error _ => s

def run (remoteOwner : Bool) (calls : List Call) : Segment := calls.foldl step ⟨remoteOwner, none⟩

/-! ## What the bounds promise -/

/-- The entry of the greatest recorded version not above `v`; `none`: there is no such version. -/
def Greatest (entries : List VirtualInfo) (v : Int) : Option VirtualInfo → Prop
  | none => ∀ e ∈ entries, v < e.version
  | some e => e ∈ entries ∧ e.version ≤ v ∧ ∀ e' ∈ entries, e'.version ≤ v → e'.version ≤ e.version

/-- The look-ups for `v` throw for the version 0 of a remotely owned segment, and else read one entry. -/
def Isolates (s : Segment) (v : Int) : Prop :=
  if v = 0 ∧ s.remoteOwner = true then
    isolateMinViewpoint s v = .error (invalid "isolateMinViewpoint") ∧
    isolateMaxVirtualViewpoint s v = .error (invalid "isolateMaxVirtualViewpoint") ∧
    isolateVirtualSize s v = .error (invalid "isolateVirtualSize")
  else
    ∃ o, Greatest s.entries v o ∧
      isolateMinViewpoint s v = .ok ((o.map (·.minViewpoint)).getD 0) ∧
      isolateMaxVirtualViewpoint s v = .ok ((o.map (·.maxViewpoint)).getD 0) ∧
      isolateVirtualSize s v = .ok ((o.map (·.vsize)).getD 0)

structure Bounds (remoteOwner : Bool) (calls : List Call) : Prop where
  /-- The list is strictly increasing. -/
  increasing : ∀ l, l <+: calls → (run remoteOwner l).entries.Pairwise (·.version < ·.version)
  /-- A call returns true exactly when it changed what is stored. -/
  returns : ∀ l c, l ++ [c] <+: calls → ∀ s' b, versionKeySpace (run remoteOwner l) c = .ok (s', b) →
    (b = true ↔ s'.entries ≠ (run remoteOwner l).entries)
  /-- Once a version's minimum is not 0, it never rises. -/
  minimum : ∀ l₁ l₂ l₃, l₁ <+: l₂ → l₂ <+: l₃ → l₃ <+: calls → ∀ e₁ ∈ (run remoteOwner l₁).entries,
    ∀ e₂ ∈ (run remoteOwner l₂).entries, ∀ e₃ ∈ (run remoteOwner l₃).entries, e₁.version = e₂.version →
    e₂.version = e₃.version → e₁.minViewpoint ≠ 0 → e₃.minViewpoint ≤ e₂.minViewpoint
  /-- A recorded version stays, and its maximum never falls. -/
  maximum : ∀ l₁ l₂, l₁ <+: l₂ → l₂ <+: calls → ∀ e₁ ∈ (run remoteOwner l₁).entries,
    ∃ e₂ ∈ (run remoteOwner l₂).entries, e₁.version = e₂.version ∧ e₁.maxViewpoint ≤ e₂.maxViewpoint
  isolates : ∀ l, l <+: calls → ∀ v, Isolates (run remoteOwner l) v

/-- The call is not thrown back. -/
def Call.Taken (remoteOwner : Bool) (c : Call) : Prop := ¬(c.version = 0 ∧ remoteOwner = true)

instance (remoteOwner : Bool) (c : Call) : Decidable (c.Taken remoteOwner) := inferInstanceAs (Decidable ¬_)

/-- The call finds its version with no minimum set, sets none, and has nothing else that is new. -/
def Repeats (s : Segment) (c : Call) : Prop :=
  ∃ e ∈ s.entries, e.version = c.version ∧ e.minViewpoint = 0 ∧ c.minViewpoint = 0 ∧
    c.maxVirtualViewpoint ≤ e.maxViewpoint ∧ c.vsize = e.vsize

/-- A version is given a minimum, then 0, then a minimum again. -/
def Resets (remoteOwner : Bool) (calls : List Call) : Prop :=
  ∃ a b c, [a, b, c].Sublist calls ∧ a.Taken remoteOwner ∧ a.version = b.version ∧ b.version = c.version ∧
    a.minViewpoint ≠ 0 ∧ b.minViewpoint = 0 ∧ c.minViewpoint ≠ 0

/-- Two indexing passes over a segment no commit has touched: the second changes nothing and says that it did. -/
theorem as_built_publishes_no_change : ¬Bounds false [⟨0, 10, 0, 0⟩, ⟨0, 10, 0, 0⟩] := by
  intro h
  have hret := h.returns [⟨0, 10, 0, 0⟩] ⟨0, 10, 0, 0⟩ (by decide) (run false [⟨0, 10, 0, 0⟩]) true (by decide)
  exact hret.mp rfl rfl

/-- The minimum of a version goes from 5 to 0, and from there up to 7. -/
theorem as_built_raises_minimum : ¬Bounds false [⟨1, 10, 5, 5⟩, ⟨1, 10, 0, 5⟩, ⟨1, 10, 7, 7⟩] := by
  intro h
  have hle := h.minimum [⟨1, 10, 5, 5⟩] [⟨1, 10, 5, 5⟩, ⟨1, 10, 0, 5⟩] _ (by decide) (by decide) (prefix_refl _)
    ⟨10, 5, 5, 1⟩ (by decide) ⟨10, 0, 5, 1⟩ (by decide) ⟨10, 7, 7, 1⟩ (by decide) rfl rfl (by decide)
  exact absurd hle (by decide)

/-! ## One entry -/

section Merge

variable (c : Call) (entry : VirtualInfo)

@[simp] theorem merge_minViewpoint : (merge c entry).1.minViewpoint =
    if entry.minViewpoint = 0 ∨ c.minViewpoint < entry.minViewpoint then c.minViewpoint else entry.minViewpoint := by
  simp only [merge, mergeVirtualSize, mergeMaxViewpoint, mergeMinViewpoint]
  split_ifs <;> rfl

@[simp] theorem merge_maxViewpoint : (merge c entry).1.maxViewpoint = max entry.maxViewpoint c.maxVirtualViewpoint := by
  simp only [merge, mergeVirtualSize, mergeMaxViewpoint, mergeMinViewpoint]
  split_ifs <;> simp_all <;> omega

@[simp] theorem merge_version : (merge c entry).1.version = entry.version := by
  simp only [merge, mergeVirtualSize, mergeMaxViewpoint, mergeMinViewpoint]
  split_ifs <;> rfl

/-- `changed` says that the entry is another one, but for a 0 put over a 0. -/
theorem merge_changed : (merge c entry).2 = true ↔ (merge c entry).1 ≠ entry ∨
    (entry.minViewpoint = 0 ∧ c.minViewpoint = 0 ∧ c.maxVirtualViewpoint ≤ entry.maxViewpoint ∧ c.vsize = entry.vsize) := by
  obtain ⟨vsize, min, max, version⟩ := entry
  simp only [merge, mergeVirtualSize, mergeMaxViewpoint, mergeMinViewpoint]
  split_ifs <;> simp_all <;> omega

theorem merge_eq_self_of_repeats (hmin : entry.minViewpoint = 0) (hc : c.minViewpoint = 0)
    (hmax : c.maxVirtualViewpoint ≤ entry.maxViewpoint) (hsize : c.vsize = entry.vsize) : (merge c entry).1 = entry := by
  obtain ⟨vsize, min, max, version⟩ := entry
  simp only at hmin hmax hsize
  simp [merge, mergeVirtualSize, mergeMaxViewpoint, mergeMinViewpoint, hmin, hc, hsize, Nat.not_lt.mpr hmax]

end Merge

/-! ## One call -/

theorem record_versions (c : Call) (entries : List VirtualInfo) : (record c entries).1.map (·.version) =
    if c.version ∈ entries.map (·.version) then entries.map (·.version) else entries.map (·.version) ++ [c.version] := by
  induction entries with
  | nil => simp [record, Call.create]
  | cons entry rest ih =>
    by_cases h : entry.version = c.version
    · simp [record, h]
    · have hne : c.version ≠ entry.version := fun he => h he.symm
      simp only [record, h, ne_eq, not_false_iff, if_true, map_cons, ih, mem_cons, hne, false_or]
      split_ifs <;> rfl

/-- What is stored for a version. -/
def stored (entries : List VirtualInfo) (v : Int) : Option VirtualInfo := entries.find? (·.version = v)

/-- What a call stores over what it finds. -/
def Call.over (c : Call) : Option VirtualInfo → VirtualInfo
  | none => c.create
  | some entry => (merge c entry).1

theorem find_record (c : Call) (entries : List VirtualInfo) (v : Int) : stored (record c entries).1 v =
    if c.version = v then some (c.over (stored entries v)) else stored entries v := by
  induction entries with
  | nil =>
    by_cases hv : c.version = v <;> simp [stored, record, Call.over, Call.create, hv]
  | cons entry rest ih =>
    by_cases h : entry.version = c.version
    · by_cases hv : c.version = v
      · simp [stored, record, h, hv, Call.over]
      · simp [stored, record, h, hv]
    · by_cases hv : entry.version = v
      · have hcv : c.version ≠ v := fun he => h (hv.trans he.symm)
        have hvc : v ≠ c.version := fun he => hcv he.symm
        simp [stored, record, hv, hcv, hvc]
      · simpa [stored, record, h, hv] using ih

/-- The answer of a call that finds no entry, and of one that finds `entry`. -/
theorem record_changed (c : Call) (entries : List VirtualInfo) :
    (record c entries).2 = true ↔ (record c entries).1 ≠ entries ∨
      ∃ entry ∈ stored entries c.version, entry.minViewpoint = 0 ∧ c.minViewpoint = 0 ∧
        c.maxVirtualViewpoint ≤ entry.maxViewpoint ∧ c.vsize = entry.vsize := by
  induction entries with
  | nil => simp [record]
  | cons entry rest ih =>
    by_cases h : entry.version = c.version
    · simpa [record, h, stored] using merge_changed c entry
    · simpa [record, h, stored] using ih

variable {entries : List VirtualInfo}

/-- A call that repeats an entry leaves the list as it is, and says that it changed. -/
theorem record_repeats {c : Call} {entry : VirtualInfo} (h : entry ∈ stored entries c.version)
    (hmin : entry.minViewpoint = 0) (hc : c.minViewpoint = 0) (hmax : c.maxVirtualViewpoint ≤ entry.maxViewpoint)
    (hsize : c.vsize = entry.vsize) : (record c entries).1 = entries := by
  induction entries with
  | nil => simp [stored] at h
  | cons e rest ih =>
    by_cases he : e.version = c.version
    · have hee : e = entry := by simpa [stored, he] using h
      subst hee
      simp [record, he, merge_eq_self_of_repeats c e hmin hc hmax hsize]
    · have := ih (by simpa [stored, he] using h)
      simp [record, he, this]

/-! ## Runs -/

variable {remoteOwner : Bool} {l calls : List Call} {c : Call} {v : Int}

theorem run_concat (remoteOwner : Bool) (l : List Call) (c : Call) :
    run remoteOwner (l ++ [c]) = step (run remoteOwner l) c := by
  rw [run, foldl_append]
  rfl

variable {s : Segment}

theorem versionKeySpace_taken (h : c.Taken s.remoteOwner) :
    versionKeySpace s c = .ok ({ s with virtualStoryLine := some (record c s.entries).1 }, (record c s.entries).2) :=
  if_neg h

theorem step_taken (h : c.Taken s.remoteOwner) :
    step s c = { s with virtualStoryLine := some (record c s.entries).1 } := by
  rw [step, versionKeySpace_taken h]

theorem step_thrown (h : ¬c.Taken s.remoteOwner) : step s c = s := by
  rw [step, versionKeySpace, if_pos (not_not.mp h)]

@[simp] theorem remoteOwner_run (remoteOwner : Bool) (l : List Call) : (run remoteOwner l).remoteOwner = remoteOwner := by
  induction l using List.reverseRecOn with
  | nil => rfl
  | append_singleton l c ih =>
    rw [run_concat]
    by_cases h : c.Taken (run remoteOwner l).remoteOwner
    · rw [step_taken h]
      exact ih
    · rw [step_thrown h]
      exact ih

theorem entries_run_concat (remoteOwner : Bool) (l : List Call) (c : Call) : (run remoteOwner (l ++ [c])).entries =
    if c.Taken remoteOwner then (record c (run remoteOwner l).entries).1 else (run remoteOwner l).entries := by
  rw [run_concat]
  split_ifs with h
  · rw [step_taken (by simpa using h)]
    rfl
  · rw [step_thrown (by simpa using h)]

theorem stored_run_concat (remoteOwner : Bool) (l : List Call) (c : Call) (v : Int) :
    stored (run remoteOwner (l ++ [c])).entries v =
      if c.Taken remoteOwner ∧ c.version = v then some (c.over (stored (run remoteOwner l).entries v))
      else stored (run remoteOwner l).entries v := by
  rw [entries_run_concat]
  by_cases ht : c.Taken remoteOwner
  · simp only [ht, if_true, true_and, find_record]
  · simp only [ht, if_false, false_and]

theorem version_of_call (remoteOwner : Bool) (l : List Call) :
    ∀ v ∈ (run remoteOwner l).entries.map (·.version), ∃ c ∈ l, c.version = v := by
  induction l using List.reverseRecOn with
  | nil => simp [run, Segment.entries]
  | append_singleton l c ih =>
    intro v hv
    rw [entries_run_concat] at hv
    have hold : v ∈ (run remoteOwner l).entries.map (·.version) → ∃ c' ∈ l ++ [c], c'.version = v := by
      intro h
      obtain ⟨c', hc', he⟩ := ih v h
      exact ⟨c', mem_append_left _ hc', he⟩
    split_ifs at hv with ht
    · rw [record_versions] at hv
      split_ifs at hv with hm
      · exact hold hv
      · rcases mem_append.mp hv with hv | hv
        · exact hold hv
        · exact ⟨c, by simp, (mem_singleton.mp hv).symm⟩
    · exact hold hv

theorem run_increasing (remoteOwner : Bool) (h : l.Pairwise (·.version ≤ ·.version)) :
    (run remoteOwner l).entries.Pairwise (·.version < ·.version) := by
  suffices hmap : ((run remoteOwner l).entries.map (·.version)).Pairwise (· < ·) from pairwise_map.mp hmap
  induction l using List.reverseRecOn with
  | nil => simp [run, Segment.entries]
  | append_singleton l c ih =>
    obtain ⟨hl, -, hc⟩ := pairwise_append.mp h
    rw [entries_run_concat]
    split_ifs with ht
    · rw [record_versions]
      split_ifs with hm
      · exact ih hl
      · refine pairwise_append.mpr ⟨ih hl, pairwise_singleton _ _, fun v hv w hw => ?_⟩
        obtain rfl := mem_singleton.mp hw
        obtain ⟨c', hc', rfl⟩ := version_of_call remoteOwner l v hv
        have hle := hc c' hc' c (by simp)
        have hne : c'.version ≠ c.version := fun he => hm (he ▸ hv)
        omega
    · exact ih hl

variable {e : VirtualInfo}

/-- In an increasing list the entry of a version is the one that is found. -/
theorem stored_eq_some (h : entries.Pairwise (·.version < ·.version)) :
    stored entries v = some e ↔ e ∈ entries ∧ e.version = v := by
  constructor
  · intro he
    exact ⟨mem_of_find?_eq_some he, by simpa using List.find?_some he⟩
  · rintro ⟨hm, rfl⟩
    induction entries with
    | nil => cases hm
    | cons d rest ih =>
      obtain ⟨hd, hrest⟩ := pairwise_cons.mp h
      rcases mem_cons.mp hm with rfl | hm
      · simp [stored]
      · have hne : d.version ≠ e.version := Int.ne_of_lt (hd e hm)
        have := ih hrest hm
        simpa [stored, hne] using this

/-! ### The look-ups -/

/-- A look-up ends with the entry of the greatest version not above its own, whatever it reads there. -/
theorem isolate_greatest (h : entries.Pairwise (·.version < ·.version)) (v : Int) :
    ∃ o, Greatest entries v o ∧ ∀ {α : Type} (field : VirtualInfo → α) (found : α),
      isolateLoop field v found entries = (o.map field).getD found := by
  induction entries with
  | nil => exact ⟨none, by simp [Greatest], fun _ _ => rfl⟩
  | cons e rest ih =>
    obtain ⟨he, hrest⟩ := pairwise_cons.mp h
    by_cases hv : e.version ≤ v
    · obtain ⟨o, ho, hloop⟩ := ih hrest
      cases o with
      | none =>
        refine ⟨some e, ⟨by simp, hv, fun e' he' hle => ?_⟩, fun field found => by simp [isolateLoop, hv, hloop]⟩
        rcases mem_cons.mp he' with rfl | he'
        · exact Int.le_refl _
        · exact absurd hle (Int.not_le.mpr (ho e' he'))
      | some d =>
        obtain ⟨hd, hdv, hmax⟩ := ho
        refine ⟨some d, ⟨by simp [hd], hdv, fun e' he' hle => ?_⟩, fun field found => by simp [isolateLoop, hv, hloop]⟩
        rcases mem_cons.mp he' with rfl | he'
        · exact Int.le_of_lt (he d hd)
        · exact hmax e' he' hle
    · refine ⟨none, fun e' he' => ?_, fun field found => by simp [isolateLoop, hv]⟩
      rcases mem_cons.mp he' with rfl | he'
      · exact Int.not_le.mp hv
      · have := he e' he'
        omega

theorem run_isolates (h : s.entries.Pairwise (·.version < ·.version)) (v : Int) : Isolates s v := by
  unfold Isolates
  split_ifs with ht
  · simp [isolateMinViewpoint, isolateMaxVirtualViewpoint, isolateVirtualSize, isolate, ht]
  · obtain ⟨o, ho, hloop⟩ := isolate_greatest h v
    refine ⟨o, ho, ?_⟩
    unfold isolateMinViewpoint isolateMaxVirtualViewpoint isolateVirtualSize isolate
    simp only [ht, if_false]
    cases hs : s.virtualStoryLine with
    | none =>
      have hnil : s.entries = [] := by rw [Segment.entries, hs, Option.getD_none]
      rw [hnil] at hloop
      simp only [isolateLoop] at hloop
      exact ⟨congrArg _ (hloop _ 0), congrArg _ (hloop _ 0), congrArg _ (hloop _ 0)⟩
    | some storyLine =>
      have hsome : s.entries = storyLine := by rw [Segment.entries, hs, Option.getD_some]
      rw [hsome] at hloop
      exact ⟨congrArg _ (hloop _ 0), congrArg _ (hloop _ 0), congrArg _ (hloop _ 0)⟩

/-! ### What a version is given -/

/-- The calls a version's entry is made of. -/
def Given (remoteOwner : Bool) (v : Int) (l : List Call) (c : Call) : Prop :=
  c ∈ l ∧ c.Taken remoteOwner ∧ c.version = v

theorem stored_mono (remoteOwner : Bool) (l m : List Call)
    (he : stored (run remoteOwner l).entries v = some e) :
    ∃ e', stored (run remoteOwner (l ++ m)).entries v = some e' ∧ e.maxViewpoint ≤ e'.maxViewpoint := by
  induction m using List.reverseRecOn with
  | nil => exact ⟨e, by simpa using he, le_refl _⟩
  | append_singleton m c ih =>
    obtain ⟨e', he', hle⟩ := ih
    rw [← append_assoc, stored_run_concat]
    split_ifs with h
    · refine ⟨_, rfl, ?_⟩
      rw [he', Call.over, merge_maxViewpoint]
      omega
    · exact ⟨e', he', hle⟩

theorem given_of_minimum (remoteOwner : Bool) (l : List Call)
    (he : stored (run remoteOwner l).entries v = some e) (hmin : e.minViewpoint ≠ 0) :
    ∃ a, Given remoteOwner v l a ∧ a.minViewpoint ≠ 0 := by
  induction l using List.reverseRecOn generalizing e with
  | nil => simp [stored, run, Segment.entries] at he
  | append_singleton l c ih =>
    have hold : ∀ {e' : VirtualInfo}, stored (run remoteOwner l).entries v = some e' → e'.minViewpoint ≠ 0 →
        ∃ a, Given remoteOwner v (l ++ [c]) a ∧ a.minViewpoint ≠ 0 := by
      intro e' he' hmin'
      obtain ⟨a, ⟨ha, hat, hav⟩, hmin⟩ := ih he' hmin'
      exact ⟨a, ⟨mem_append_left _ ha, hat, hav⟩, hmin⟩
    rw [stored_run_concat] at he
    split_ifs at he with h
    · obtain rfl := Option.some.inj he
      by_cases hc : c.minViewpoint = 0
      · cases hs : stored (run remoteOwner l).entries v with
        | none => rw [hs] at hmin; exact absurd hc hmin
        | some e' =>
          rw [hs, Call.over, merge_minViewpoint, hc] at hmin
          split_ifs at hmin with hor
          · exact absurd rfl hmin
          · exact hold hs hmin
      · exact ⟨c, ⟨by simp, h.1, h.2⟩, hc⟩
    · exact hold he hmin

theorem given_of_reset (remoteOwner : Bool) (l m : List Call) {e' : VirtualInfo}
    (he : stored (run remoteOwner l).entries v = some e) (hmin : e.minViewpoint ≠ 0)
    (he' : stored (run remoteOwner (l ++ m)).entries v = some e') (hmin' : e'.minViewpoint = 0) :
    ∃ b, Given remoteOwner v m b ∧ b.minViewpoint = 0 := by
  induction m using List.reverseRecOn generalizing e' with
  | nil =>
    rw [append_nil, he] at he'
    exact absurd (Option.some.inj he' ▸ hmin') hmin
  | append_singleton m c ih =>
    have hold : ∀ {d : VirtualInfo}, stored (run remoteOwner (l ++ m)).entries v = some d → d.minViewpoint = 0 →
        ∃ b, Given remoteOwner v (m ++ [c]) b ∧ b.minViewpoint = 0 := by
      intro d hd hdmin
      obtain ⟨b, ⟨hb, hbt, hbv⟩, hbmin⟩ := ih hd hdmin
      exact ⟨b, ⟨mem_append_left _ hb, hbt, hbv⟩, hbmin⟩
    rw [← append_assoc, stored_run_concat] at he'
    split_ifs at he' with h
    · obtain rfl := Option.some.inj he'
      obtain ⟨d, hd, -⟩ := stored_mono remoteOwner l m he
      by_cases hdmin : d.minViewpoint = 0
      · exact hold hd hdmin
      · refine ⟨c, ⟨by simp, h.1, h.2⟩, ?_⟩
        rw [hd, Call.over, merge_minViewpoint] at hmin'
        split_ifs at hmin' with hor
        · exact hmin'
        · exact absurd hmin' hdmin
    · exact hold he' hmin'

theorem run_minimum (hr : ¬Resets remoteOwner calls) {l₁ l₂ l₃ : List Call}
    (h₁₂ : l₁ <+: l₂) (h₂₃ : l₂ <+: l₃) (h₃ : l₃ <+: calls) {e₁ e₂ e₃ : VirtualInfo}
    (he₁ : stored (run remoteOwner l₁).entries v = some e₁) (he₂ : stored (run remoteOwner l₂).entries v = some e₂)
    (he₃ : stored (run remoteOwner l₃).entries v = some e₃) (hmin : e₁.minViewpoint ≠ 0) :
    e₃.minViewpoint ≤ e₂.minViewpoint := by
  obtain ⟨m, rfl⟩ := h₂₃
  -- what came before the call `c` already set the minimum once, so `c` can only lower it
  induction m using List.reverseRecOn generalizing e₃ with
  | nil =>
    rw [append_nil, he₂] at he₃
    rw [Option.some.inj he₃]
  | append_singleton m c ih =>
    obtain ⟨d, hd, -⟩ := stored_mono remoteOwner l₂ m he₂
    rw [← append_assoc] at he₃ h₃
    have hle := ih ((prefix_append _ _).trans h₃) hd
    rw [stored_run_concat, hd] at he₃
    split_ifs at he₃ with hc
    · obtain rfl := Option.some.inj he₃
      rw [Call.over, merge_minViewpoint]
      split_ifs with hor
      · by_cases hdmin : d.minViewpoint = 0
        · obtain ⟨k, rfl⟩ := h₁₂
          obtain ⟨a, ⟨ha, hat, hav⟩, hamin⟩ := given_of_minimum remoteOwner l₁ he₁ hmin
          rw [append_assoc] at hd
          obtain ⟨b, ⟨hb, -, hbv⟩, hbmin⟩ := given_of_reset remoteOwner l₁ (k ++ m) he₁ hmin hd hdmin
          by_contra hlt
          refine hr ⟨a, b, c, ?_, hat, hav.trans hbv.symm, hbv.trans hc.2.symm, hamin, hbmin, by omega⟩
          have habc : [a, b, c].Sublist (l₁ ++ (k ++ m) ++ [c]) :=
            ((singleton_sublist.mpr ha).append (singleton_sublist.mpr hb)).append (List.Sublist.refl [c])
          rw [← append_assoc] at habc
          exact habc.trans h₃.sublist
        · have := hor.resolve_left hdmin
          omega
      · exact hle
    · cases he₃
      exact hle

theorem over_minViewpoint_ne (hc : c.minViewpoint ≠ 0) (o : Option VirtualInfo) : (c.over o).minViewpoint ≠ 0 := by
  cases o with
  | none => exact hc
  | some e =>
    rw [Call.over, merge_minViewpoint]
    split_ifs with h
    · exact hc
    · exact fun he => h (.inl he)

theorem over_minViewpoint_eq (hc : c.minViewpoint = 0) (o : Option VirtualInfo) : (c.over o).minViewpoint = 0 := by
  cases o with
  | none => exact hc
  | some e =>
    rw [Call.over, merge_minViewpoint, hc]
    split_ifs with h
    · rfl
    · omega

theorem prefix_of_sublist {a b : Call} (h : [a, b, c].Sublist calls) :
    ∃ l₁ m n, l₁ ++ [a] ++ m ++ [b] ++ n ++ [c] <+: calls := by
  obtain ⟨r₁, r₂, rfl, ha, hbc⟩ := cons_sublist_iff.mp h
  obtain ⟨r₃, r₄, rfl, hb, hc⟩ := cons_sublist_iff.mp hbc
  obtain ⟨x, x', rfl⟩ := append_of_mem ha
  obtain ⟨y, y', rfl⟩ := append_of_mem hb
  obtain ⟨z, z', rfl⟩ := append_of_mem (singleton_sublist.mp hc)
  exact ⟨x, x' ++ y, y' ++ z, z', by simp⟩

theorem not_resets (h : calls.Pairwise (·.version ≤ ·.version)) (hb : Bounds remoteOwner calls) :
    ¬Resets remoteOwner calls := by
  rintro ⟨a, b, c, habc, hat, hab, hbc, hamin, hbmin, hcmin⟩
  obtain ⟨l, m, n, hp⟩ := prefix_of_sublist habc
  have hpb : l ++ [a] ++ m ++ [b] <+: calls := ((prefix_append _ n).trans (prefix_append _ _)).trans hp
  have hpa : l ++ [a] <+: calls := ((prefix_append _ m).trans (prefix_append _ _)).trans hpb
  have hbt : b.Taken remoteOwner := by rwa [Call.Taken, ← hab]
  have hct : c.Taken remoteOwner := by rwa [Call.Taken, ← hbc]
  -- what is stored after a call that is taken is what it stores
  have hafter : ∀ {k : List Call} {d : Call}, k ++ [d] <+: calls → d.Taken remoteOwner →
      d.over (stored (run remoteOwner k).entries d.version) ∈ (run remoteOwner (k ++ [d])).entries ∧
        (d.over (stored (run remoteOwner k).entries d.version)).version = d.version := by
    intro k d hk hd
    refine (stored_eq_some (run_increasing remoteOwner (h.sublist hk.sublist))).mp ?_
    rw [stored_run_concat, if_pos ⟨hd, rfl⟩]
  obtain ⟨hma, hva⟩ := hafter hpa hat
  obtain ⟨hmb, hvb⟩ := hafter hpb hbt
  obtain ⟨hmc, hvc⟩ := hafter hp hct
  have hle := hb.minimum _ _ _ ((prefix_append _ m).trans (prefix_append _ _))
    ((prefix_append _ n).trans (prefix_append _ _)) hp _ hma _ hmb _ hmc (by rw [hva, hvb, hab])
    (by rw [hvb, hvc, hbc]) (over_minViewpoint_ne hamin _)
  rw [over_minViewpoint_eq hbmin] at hle
  exact over_minViewpoint_ne hcmin _ (Nat.le_zero.mp hle)

/-- The answer says what the call does, unless the call repeats what it finds. -/
theorem answer_iff (hs : s.entries.Pairwise (·.version < ·.version)) :
    ((record c s.entries).2 = true ↔ (record c s.entries).1 ≠ s.entries) ↔ ¬Repeats s c := by
  rw [record_changed]
  constructor
  · rintro h ⟨e, he, hev, hmin, hc, hmax, hsize⟩
    have hst := (stored_eq_some hs).mpr ⟨he, hev⟩
    exact h.mp (.inr ⟨e, hst, hmin, hc, hmax, hsize⟩) (record_repeats hst hmin hc hmax hsize)
  · intro h
    refine ⟨fun hor => hor.resolve_right ?_, Or.inl⟩
    rintro ⟨e, he, hmin, hc, hmax, hsize⟩
    obtain ⟨hem, hev⟩ := (stored_eq_some hs).mp he
    exact h ⟨e, hem, hev, hmin, hc, hmax, hsize⟩

/-! ## The bounds hold exactly if -/

theorem bounds_iff (h : calls.Pairwise (·.version ≤ ·.version)) : Bounds remoteOwner calls ↔
    (∀ l c, l ++ [c] <+: calls → c.Taken remoteOwner → ¬Repeats (run remoteOwner l) c) ∧ ¬Resets remoteOwner calls := by
  have hinc : ∀ l, l <+: calls → (run remoteOwner l).entries.Pairwise (·.version < ·.version) :=
    fun l hl => run_increasing remoteOwner (h.sublist hl.sublist)
  constructor
  · intro hb
    refine ⟨fun l c hl ht => ?_, not_resets h hb⟩
    have ht' : c.Taken (run remoteOwner l).remoteOwner := by simpa using ht
    refine (answer_iff (hinc l ((prefix_append _ _).trans hl))).mp ?_
    exact hb.returns l c hl _ _ (versionKeySpace_taken ht')
  · rintro ⟨hrep, hres⟩
    refine ⟨hinc, fun l c hl s' b hs' => ?_, fun l₁ l₂ l₃ h₁₂ h₂₃ h₃ e₁ he₁ e₂ he₂ e₃ he₃ hv₁ hv₂ hmin => ?_,
      fun l₁ l₂ h₁₂ h₂ e₁ he₁ => ?_, fun l hl v => run_isolates (hinc l hl) v⟩
    · by_cases ht : c.Taken remoteOwner
      · have ht' : c.Taken (run remoteOwner l).remoteOwner := by simpa using ht
        rw [versionKeySpace_taken ht'] at hs'
        cases hs'
        exact (answer_iff (hinc l ((prefix_append _ _).trans hl))).mpr (hrep l c hl ht)
      · have hthrow : c.version = 0 ∧ (run remoteOwner l).remoteOwner = true := by simpa [Call.Taken] using ht
        rw [versionKeySpace, if_pos hthrow] at hs'
        cases hs'
    · have h₂ := h₂₃.trans h₃
      exact run_minimum hres h₁₂ h₂₃ h₃ ((stored_eq_some (hinc _ (h₁₂.trans h₂))).mpr ⟨he₁, hv₁⟩)
        ((stored_eq_some (hinc _ h₂)).mpr ⟨he₂, rfl⟩) ((stored_eq_some (hinc _ h₃)).mpr ⟨he₃, hv₂.symm⟩) hmin
    · obtain ⟨m, rfl⟩ := h₁₂
      obtain ⟨e₂, he₂, hle⟩ := stored_mono remoteOwner l₁ m
        ((stored_eq_some (hinc _ ((prefix_append _ _).trans h₂))).mpr ⟨he₁, rfl⟩)
      obtain ⟨hm, hv⟩ := (stored_eq_some (hinc _ h₂)).mp he₂
      exact ⟨e₂, hm, hv.symm, hle⟩

/-- Two commits and one of a later version, none of them repeating an entry. -/
theorem bounds_of_commits : Bounds false [⟨1, 10, 5, 5⟩, ⟨1, 11, 3, 6⟩, ⟨4, 12, 7, 7⟩] := by
  refine (bounds_iff (by decide)).mpr ⟨fun l c hl _ => ?_, ?_⟩
  · rintro ⟨e, -, -, -, hc, -⟩
    have hmem := hl.subset (mem_append_right l (mem_singleton_self c))
    simp only [mem_cons, not_mem_nil, or_false] at hmem
    rcases hmem with rfl | rfl | rfl <;> cases hc
  · rintro ⟨a, b, c, habc, -, -, -, -, hb, -⟩
    have hmem := habc.subset (show b ∈ [a, b, c] by simp)
    simp only [mem_cons, not_mem_nil, or_false] at hmem
    rcases hmem with rfl | rfl | rfl <;> cases hb

end DeepFabric.Distributed.VirtualStoryLine
