/-
  DeepFabric.Store.CheckpointChain — which version of a key a checkpoint takes out of a storyline, whatever commits have made it
  (core/RealTimeMap.cxx: commitCacheMemory, isolateCheckpoint with viewlimit; core/Information.h: reset), for a primary map.

  A commit that puts a key ends the version in front, which gets the sequence as its limit and is marked as deleting, and stamps the
  new version with the next number. The sequence is read once for either, and others draw from it in between. A commit that deletes the
  key only does the first. It is deleted from the next number on. There is no mark on a version that says which of the two has ended it.

  Where a transaction inserts a key and writes it again behind a savepoint, the inserted version becomes a committed one too. It is
  reset before it is made one, so its viewpoint and its limit are zero.

  - `as_built_savepoint_shows`: a version inserted ahead of a savepoint is taken at viewpoints before its commit.
  - `commitKey_inv`, `late_chain`: what the commits up to a viewpoint leave, and what the later ones make of it.
  - `selects_iff`: what is taken is the newest version up to the viewpoint, exactly if it meets `Ok`.
-/
import DeepFabric.Store.Checkpoint

namespace DeepFabric.Store.CheckpointChain

open List Option

open Checkpoint (isolateCheckpoint walkCheckpoint)

variable {V : Type}

/-- A commit of the key, with what it reads of the sequence, which has been drawn from by its own begin. -/
structure Commit (V : Type) where
  /-- What it puts; none, if it deletes the key. -/
  op : Option V
  /-- What its transaction has put ahead of a savepoint, if it has inserted the key. -/
  root : Option V
  limit : Nat
  stamp : Nat
  drawn : 0 < limit
  order : limit ≤ stamp

/-- The last number it reads. -/
def Commit.last (c : Commit V) : Nat := if c.op.isSome then c.stamp else c.limit

/-- The first viewpoint that is not ahead of it. -/
def Commit.viewpoint (c : Commit V) : Nat := c.last + 1

/-- The version that is written over. -/
def endInfo (current : Nat) (topinfo : Information V) : Information V :=
  if topinfo.deleting then topinfo else { topinfo.reset topinfo.viewpoint current true with deleting := true }

def endTop (current : Nat) (chain : List (Information V)) : List (Information V) :=
  chain.dropLast ++ (chain.getLast?.map (endInfo current)).toList

/-- A version of the transaction's own is reset without commit. -/
def rootVersion (v : V) : Information V := ⟨v, levelCommit, false, false, true, 0, 0⟩

def putVersion (stamp : Nat) (v : V) : Information V := ⟨v, levelCommit, false, false, false, stamp + 1, 0⟩

/-- The delete and update branches of commitCacheMemory, and the create one, where there is nothing to end. -/
def commitKey (chain : List (Information V)) (c : Commit V) : List (Information V) :=
  (if chain = [] then (c.root.map rootVersion).toList else endTop c.limit chain) ++ (c.op.map (putVersion c.stamp)).toList

/-- What has become of a key: the version that was loaded, its commits, and the versions behind them. -/
structure Story (V : Type) where
  loaded : Option V
  commits : List (Commit V)
  writing : List (Information V)
  ordered : commits.Pairwise fun a b => a.last ≤ b.limit
  uncommitted : ∀ i ∈ writing, i.level ≠ levelCommit

def loadedChain (loaded : Option V) : List (Information V) :=
  (loaded.map fun v => ⟨v, levelCommit, false, false, false, 0, 0⟩).toList

def Story.chain (s : Story V) : List (Information V) := s.commits.foldl commitKey (loadedChain s.loaded)

/-! ## What a checkpoint should take -/

/-- The newest version up to the viewpoint, unless the key is deleted by then. -/
def newest (loaded : Option V) (commits : List (Commit V)) (v : Nat) : Option V :=
  match (commits.filter (·.viewpoint ≤ v)).getLast? with
  | none => loaded
  | some c => c.op

def Selects (s : Story V) (v : Nat) : Prop :=
  (isolateCheckpoint (s.chain ++ s.writing) v).map (·.data) = newest s.loaded s.commits v

/-- The key was inserted first by a transaction that wrote it again behind a savepoint. -/
def savepointed (s : Story V) : Bool :=
  s.loaded.isNone && (s.commits.find? fun c => c.op.isSome || c.root.isSome).any (·.root.isSome)

/-- No update of the key that is there has the viewpoint between what it reads of the sequence. -/
def NoGap (s : Story V) (v : Nat) : Prop :=
  ∀ c ∈ s.commits, c.op.isSome = true → c.limit < v → v ≤ c.stamp → newest s.loaded s.commits v = none

/-- A version put ahead of a savepoint is the only one, or another one has been put up to the viewpoint. -/
structure Ok (s : Story V) (v : Nat) : Prop where
  noGap : NoGap s v
  noRoot : savepointed s = true → (∃ c ∈ s.commits, c.op.isSome = true) → ∃ c ∈ s.commits, c.op.isSome = true ∧ c.viewpoint ≤ v

/-! ## As built -/

def put (v : V) (root : Option V) (limit stamp : Nat) (h : 0 < limit ∧ limit ≤ stamp) : Commit V := ⟨some v, root, limit, stamp, h.1, h.2⟩

/-- 1 is put at viewpoint 2, and 2 over it by a commit that ends it at 2 and stamps its own with 5. -/
def gapStory : Story Nat where
  loaded := none
  commits := [put 1 none 1 1 (by decide), put 2 none 2 4 (by decide)]
  writing := []
  ordered := by decide
  uncommitted := by decide

theorem as_built_update_leaves_gap : newest gapStory.loaded gapStory.commits 3 = some 1 ∧
    isolateCheckpoint (gapStory.chain ++ gapStory.writing) 3 = none := by decide

/-- 1 is inserted, and 2 put over it behind a savepoint, by one transaction that commits at viewpoint 8. -/
def savepointStory : Story Nat where
  loaded := none
  commits := [put 2 (some 1) 7 7 (by decide)]
  writing := []
  ordered := by decide
  uncommitted := by decide

section Walk
variable {front back writing : List (Information V)} {v : Nat}

/-- What is above the viewpoint, or not committed, is passed. -/
theorem walk_above (hback : ∀ i ∈ back, v < i.viewpoint) (hw : ∀ i ∈ writing, i.level ≠ levelCommit) (cur : List (Information V)) :
    walkCheckpoint v cur (back ++ writing) = cur := by
  induction back with
  | nil =>
    cases writing with
    | nil => rfl
    | cons i writing =>
      have hlevel := hw i mem_cons_self
      simp [walkCheckpoint, hlevel]
  | cons i back ih =>
    have hv : ¬i.viewpoint ≤ v := Nat.not_le.mpr (hback i mem_cons_self)
    have hrest := ih (forall_mem_cons.mp hback).2
    simp [walkCheckpoint, hv, hrest]

/-- Of a storyline in order, the last version up to the viewpoint is taken. -/
theorem walk_chain (hfront : ∀ i ∈ front, i.level = levelCommit ∧ i.viewpoint ≤ v)
    (hs : front.Pairwise fun a b => a.viewpoint ≤ b.viewpoint) (hback : ∀ i ∈ back, v < i.viewpoint)
    (hw : ∀ i ∈ writing, i.level ≠ levelCommit) {cur : List (Information V)}
    (hcur : ∀ c ∈ cur.head?, ∀ i ∈ front, c.viewpoint ≤ i.viewpoint) :
    walkCheckpoint v cur (front ++ (back ++ writing)) =
      match front.getLast? with
      | some i => i :: (back ++ writing)
      | none => cur := by
  induction front generalizing cur with
  | nil => exact walk_above hback hw cur
  | cons i front ih =>
    obtain ⟨hi, hfront⟩ := forall_mem_cons.mp hfront
    obtain ⟨hle, hs⟩ := pairwise_cons.mp hs
    have hlater : cur.head?.all (fun c => decide (i.viewpoint ≥ c.viewpoint)) = true := by
      cases hc : cur.head? with
      | none => rfl
      | some c => simpa using hcur c hc i mem_cons_self
    have hnext : ∀ c ∈ (i :: (front ++ (back ++ writing))).head?, ∀ j ∈ front, c.viewpoint ≤ j.viewpoint := by
      intro c hc j hj
      cases hc
      exact hle j hj
    have htake : i.viewpoint ≤ v ∧ cur.head?.all (fun c => decide (i.viewpoint ≥ c.viewpoint)) = true := ⟨hi.2, hlater⟩
    rw [cons_append, walkCheckpoint, if_neg (not_not_intro hi.1), if_pos htake, ih hfront hs hnext, List.getLast?_cons]
    cases hlast : front.getLast? with
    | none =>
      obtain rfl := List.getLast?_eq_none_iff.mp hlast
      rfl
    | some j => rfl

/-- What isolateCheckpoint makes of the version it has taken. -/
theorem isolateCheckpoint_chain {i : Information V} (hfront : ∀ j ∈ front ++ [i], j.level = levelCommit ∧ j.viewpoint ≤ v)
    (hs : (front ++ [i]).Pairwise fun a b => a.viewpoint ≤ b.viewpoint) (hback : ∀ j ∈ back, j.level = levelCommit ∧ v < j.viewpoint)
    (hw : ∀ j ∈ writing, j.level ≠ levelCommit) : isolateCheckpoint (front ++ i :: back ++ writing) v =
      if i.deleting = true ∧ back = [] ∧ i.limit = 0 then none else if 0 < i.limit ∧ i.limit < v then none else some i := by
  have hwalk := walk_chain hfront hs (fun j hj => (hback j hj).2) hw (show ∀ c ∈ ([] : List (Information V)).head?, _ from by simp)
  have hsplit : front ++ i :: back ++ writing = front ++ [i] ++ (back ++ writing) := by simp
  have hends : ((back ++ writing).head?.all fun next => decide (next.level ≠ levelCommit)) = true ↔ back = [] := by
    cases back with
    | nil =>
      cases writing with
      | nil => simp
      | cons j writing => simpa using hw j mem_cons_self
    | cons j back => simpa using (hback j mem_cons_self).1
  rw [List.getLast?_concat] at hwalk
  unfold isolateCheckpoint
  rw [hsplit, hwalk]
  simp only [hends]

theorem isolateCheckpoint_above (hback : ∀ i ∈ back, v < i.viewpoint) (hw : ∀ i ∈ writing, i.level ≠ levelCommit) :
    isolateCheckpoint (back ++ writing) v = none := by
  unfold isolateCheckpoint
  rw [walk_above hback hw]

end Walk

/-! ## Storylines without a version ahead of a savepoint -/

section Commits
variable {chain front back : List (Information V)} {i : Information V} {c : Commit V} {commits early late : List (Commit V)} {v b : Nat}
  {value : Option V}

/-- A commit that has put nothing ahead of a savepoint. -/
def bareKey (chain : List (Information V)) (c : Commit V) : List (Information V) :=
  endTop c.limit chain ++ (c.op.map (putVersion c.stamp)).toList

@[simp] theorem endTop_concat (current : Nat) : endTop current (front ++ [i]) = front ++ [endInfo current i] := by simp [endTop]

@[simp] theorem endTop_nil (current : Nat) : endTop current ([] : List (Information V)) = [] := rfl

theorem endInfo_deleting (h : i.deleting = true) (current : Nat) : endInfo current i = i := if_pos h

theorem endInfo_live (h : i.deleting = false) (current : Nat) : endInfo current i = { i with limit := current, deleting := true } := by
  simp [endInfo, h, Information.reset]

@[simp] theorem endInfo_level (current : Nat) : (endInfo current i).level = i.level := by
  unfold endInfo
  split <;> rfl

@[simp] theorem endInfo_viewpoint (current : Nat) : (endInfo current i).viewpoint = i.viewpoint := by
  unfold endInfo
  split <;> rfl

@[simp] theorem endInfo_is_deleting (current : Nat) : (endInfo current i).deleting = true := by
  unfold endInfo
  split
  · assumption
  · rfl

/-- What holds of the versions, and does not depend on their end, holds after it. -/
theorem forall_endTop {P : Information V → Prop} {current : Nat} (hend : ∀ i, P i → P (endInfo current i)) (h : ∀ i ∈ chain, P i) :
    ∀ i ∈ endTop current chain, P i := by
  rcases eq_nil_or_concat chain with rfl | ⟨front, i, rfl⟩
  · exact h
  · rw [concat_eq_append] at h ⊢
    rw [endTop_concat]
    intro j hj
    rcases mem_append.mp hj with hj | hj
    · exact h j (mem_append_left _ hj)
    · rw [mem_singleton.mp hj]
      exact hend i (h i (by simp))

theorem viewpoint_put (v : V) (h : c.op = some v) : c.viewpoint = c.stamp + 1 := by simp [Commit.viewpoint, Commit.last, h]

theorem limit_le_last (c : Commit V) : c.limit ≤ c.last := by
  have := c.order
  unfold Commit.last
  split <;> omega

/-- The end of a storyline whose key has this value. -/
inductive Ends (v : Nat) : List (Information V) → Option V → Prop
  | nothing : Ends v [] none
  | live {front : List (Information V)} {i : Information V} (hd : i.deleting = false) (hl : i.limit = 0) : Ends v (front ++ [i]) (some i.data)
  | ended {front : List (Information V)} {i : Information V} (hd : i.deleting = true) (hl : 0 < i.limit ∧ i.limit < v) :
      Ends v (front ++ [i]) none

/-- What commits up to a viewpoint leave, the last of which has read `b`. -/
structure Inv (v b : Nat) (chain : List (Information V)) (value : Option V) : Prop where
  versions : ∀ i ∈ chain, i.level = levelCommit ∧ i.viewpoint ≤ v
  bounds : ∀ i ∈ chain, i.viewpoint ≤ b + 1
  sorted : chain.Pairwise fun a b => a.viewpoint ≤ b.viewpoint
  ends : Ends v chain value

theorem endTop_inv (h : Inv v b chain value) {current : Nat} (hb : b ≤ current) (h0 : 0 < current) (hv : current < v) :
    Inv v current (endTop current chain) none := by
  have hversions : ∀ i ∈ endTop current chain, i.level = levelCommit ∧ i.viewpoint ≤ v :=
    forall_endTop (fun i hi => by simpa using hi) h.versions
  have hbounds : ∀ i ∈ endTop current chain, i.viewpoint ≤ current + 1 :=
    forall_endTop (fun i hi => by simpa using hi) fun i hi => Nat.le_trans (h.bounds i hi) (by omega)
  have hsorted : (endTop current chain).Pairwise fun a b => a.viewpoint ≤ b.viewpoint := by
    rcases eq_nil_or_concat chain with rfl | ⟨front, i, rfl⟩
    · exact List.Pairwise.nil
    · have hs := h.sorted
      rw [concat_eq_append] at hs ⊢
      simpa [pairwise_append] using hs
  refine ⟨hversions, hbounds, hsorted, ?_⟩
  cases h.ends with
  | nothing => exact .nothing
  | live hd hl =>
    rw [endTop_concat]
    exact .ended (by simp) (by simp [endInfo_live hd, h0, hv])
  | ended hd hl =>
    rw [endTop_concat, endInfo_deleting hd]
    exact .ended hd hl

theorem put_inv (h : Inv v b chain none) {stamp : Nat} (hb : b ≤ stamp) (hv : stamp < v) (x : V) :
    Inv v stamp (chain ++ [putVersion stamp x]) (some x) := by
  refine ⟨?_, ?_, ?_, .live rfl rfl⟩
  · exact forall_mem_append.mpr ⟨h.versions, forall_mem_singleton.mpr ⟨rfl, hv⟩⟩
  · refine forall_mem_append.mpr ⟨fun i hi => ?_, forall_mem_singleton.mpr (Nat.le_refl _)⟩
    exact Nat.le_trans (h.bounds i hi) (by omega)
  · refine pairwise_append.mpr ⟨h.sorted, pairwise_singleton _ _, ?_⟩
    intro i hi j hj
    rw [mem_singleton.mp hj]
    exact Nat.le_trans (h.bounds i hi) (Nat.succ_le_succ hb)

theorem bareKey_inv (h : Inv v b chain value) (hb : b ≤ c.limit) (hv : c.viewpoint ≤ v) : Inv v c.last (bareKey chain c) c.op := by
  have hlimit := limit_le_last c
  have hend := endTop_inv h hb c.drawn (show c.limit < v by unfold Commit.viewpoint at hv; omega)
  unfold bareKey
  cases hop : c.op with
  | none => simpa [Commit.last, hop] using hend
  | some x =>
    have hstamp : c.stamp < v := by
      rw [viewpoint_put x hop] at hv
      exact hv
    simpa [Commit.last, hop] using put_inv hend c.order hstamp x

theorem early_inv (h : Inv v b chain value) (hord : early.Pairwise fun a b => a.last ≤ b.limit) (hb : ∀ c ∈ early, b ≤ c.limit)
    (hv : ∀ c ∈ early, c.viewpoint ≤ v) :
    ∃ b', Inv v b' (early.foldl bareKey chain) (match early.getLast? with | none => value | some c => c.op) := by
  induction early generalizing chain b value with
  | nil => exact ⟨b, h⟩
  | cons c early ih =>
    obtain ⟨hc, hord⟩ := pairwise_cons.mp hord
    have hnext := bareKey_inv h (hb c mem_cons_self) (hv c mem_cons_self)
    obtain ⟨b', hrest⟩ := ih hnext hord hc (forall_mem_cons.mp hv).2
    refine ⟨b', ?_⟩
    rw [List.getLast?_cons]
    cases hlast : early.getLast? with
    | none => simpa [hlast] using hrest
    | some d => simpa [hlast] using hrest

theorem loaded_inv (loaded : Option V) (v : Nat) : Inv v 0 (loadedChain loaded) loaded := by
  cases loaded with
  | none => exact ⟨forall_mem_nil _, forall_mem_nil _, List.Pairwise.nil, .nothing⟩
  | some x =>
    refine ⟨?_, ?_, pairwise_singleton _ _, @Ends.live V v [] _ rfl rfl⟩
    · exact forall_mem_singleton.mpr ⟨rfl, Nat.zero_le _⟩
    · exact forall_mem_singleton.mpr (Nat.zero_le _)

/-! ## Commits behind the viewpoint -/

/-- Versions of commits behind the viewpoint. -/
def Above (v : Nat) (back : List (Information V)) : Prop := ∀ j ∈ back, j.level = levelCommit ∧ v < j.viewpoint

theorem bareKey_above (h : Above v back) (hv : v < c.viewpoint) : Above v (bareKey back c) := by
  have hend : Above v (endTop c.limit back) := forall_endTop (fun i hi => by simpa using hi) h
  refine forall_mem_append.mpr ⟨hend, ?_⟩
  cases hop : c.op with
  | none => exact forall_mem_nil _
  | some x =>
    rw [viewpoint_put x hop] at hv
    exact forall_mem_singleton.mpr ⟨rfl, hv⟩

theorem bareKey_eq_nil : bareKey chain c = [] ↔ chain = [] ∧ c.op = none := by
  unfold bareKey
  rcases eq_nil_or_concat chain with rfl | ⟨front, i, rfl⟩
  · cases c.op <;> simp
  · simp

theorem foldl_bareKey_eq_nil : commits.foldl bareKey chain = [] ↔ chain = [] ∧ ∀ c ∈ commits, c.op = none := by
  induction commits generalizing chain with
  | nil => simp
  | cons c commits ih =>
    rw [foldl_cons, ih, bareKey_eq_nil, forall_mem_cons, and_assoc]

/-- A version that has been ended stays as it is, and so does what is ahead of it. -/
theorem bareKey_behind (hd : i.deleting = true) : bareKey (front ++ i :: back) c = front ++ i :: bareKey back c := by
  unfold bareKey
  rcases eq_nil_or_concat back with rfl | ⟨back, j, rfl⟩
  · rw [endTop_concat, endInfo_deleting hd]
    simp
  · have hsplit : front ++ i :: back.concat j = (front ++ i :: back) ++ [j] := by simp
    rw [hsplit, endTop_concat, concat_eq_append, endTop_concat]
    simp

theorem foldl_bareKey_behind (hd : i.deleting = true) :
    commits.foldl bareKey (front ++ i :: back) = front ++ i :: commits.foldl bareKey back := by
  induction commits generalizing back with
  | nil => rfl
  | cons c commits ih => rw [foldl_cons, bareKey_behind hd, ih, foldl_cons]

theorem foldl_bareKey_above (h : Above v back) (hv : ∀ c ∈ late, v < c.viewpoint) : Above v (late.foldl bareKey back) := by
  induction late generalizing back with
  | nil => exact h
  | cons c late ih =>
    exact ih (bareKey_above h (hv c mem_cons_self)) (forall_mem_cons.mp hv).2

/-- What the later commits make of the newest version up to the viewpoint: the first of them ends it. -/
theorem late_chain (hv : ∀ c ∈ late, v < c.viewpoint) : ∃ back, Above v back ∧
    late.foldl bareKey (front ++ [i]) = front ++ (match late.head? with | none => i | some c => endInfo c.limit i) :: back := by
  cases late with
  | nil => exact ⟨[], forall_mem_nil _, rfl⟩
  | cons c late =>
    have hput : Above v ((c.op.map (putVersion c.stamp)).toList) := by
      have hnil : Above v (bareKey [] c) := bareKey_above (forall_mem_nil _) (hv c mem_cons_self)
      simpa [bareKey] using hnil
    refine ⟨_, foldl_bareKey_above hput (forall_mem_cons.mp hv).2, ?_⟩
    have hfirst : bareKey (front ++ [i]) c = front ++ endInfo c.limit i :: (c.op.map (putVersion c.stamp)).toList := by
      simp [bareKey]
    rw [foldl_cons, hfirst, foldl_bareKey_behind (endInfo_is_deleting _)]
    rfl

theorem exists_split (hord : commits.Pairwise fun a b => a.last ≤ b.limit) (v : Nat) : ∃ early late, commits = early ++ late ∧
    (∀ c ∈ early, c.viewpoint ≤ v) ∧ ∀ c ∈ late, v < c.viewpoint := by
  induction commits with
  | nil => exact ⟨[], [], rfl, forall_mem_nil _, forall_mem_nil _⟩
  | cons c commits ih =>
    obtain ⟨hc, hord⟩ := pairwise_cons.mp hord
    by_cases hv : c.viewpoint ≤ v
    · obtain ⟨early, late, rfl, hearly, hlate⟩ := ih hord
      exact ⟨c :: early, late, rfl, forall_mem_cons.mpr ⟨hv, hearly⟩, hlate⟩
    · refine ⟨[], c :: commits, rfl, forall_mem_nil _, forall_mem_cons.mpr ⟨Nat.not_le.mp hv, ?_⟩⟩
      intro d hd
      have hcd := hc d hd
      have hlast := limit_le_last d
      unfold Commit.viewpoint at hv ⊢
      omega

theorem newest_split (loaded : Option V) (hearly : ∀ c ∈ early, c.viewpoint ≤ v) (hlate : ∀ c ∈ late, v < c.viewpoint) :
    newest loaded (early ++ late) v = match early.getLast? with | none => loaded | some c => c.op := by
  have hfilter : (early ++ late).filter (fun c => c.viewpoint ≤ v) = early := by
    rw [filter_append, filter_eq_self.mpr fun c hc => by simpa using hearly c hc,
      filter_eq_nil_iff.mpr fun c hc => by simpa using hlate c hc, append_nil]
  unfold newest
  rw [hfilter]

end Commits

/-! ## Versions ahead of a savepoint -/

section Roots
variable {chain : List (Information V)} {commits : List (Commit V)}

theorem foldl_commitKey (hne : chain ≠ []) : commits.foldl commitKey chain = commits.foldl bareKey chain := by
  induction commits generalizing chain with
  | nil => rfl
  | cons c commits ih =>
    have hkey : commitKey chain c = bareKey chain c := by rw [commitKey, if_neg hne, bareKey]
    have hnext : bareKey chain c ≠ [] := fun h => hne (bareKey_eq_nil.mp h).1
    rw [foldl_cons, hkey, ih hnext, foldl_cons]

/-- The first commit that leaves something decides whether there is such a version. -/
def first (commits : List (Commit V)) : Option (Commit V) := commits.find? fun c => c.op.isSome || c.root.isSome

theorem foldl_commitKey_nil (commits : List (Commit V)) : commits.foldl commitKey [] =
    (((first commits).bind (·.root)).map rootVersion).toList ++ commits.foldl bareKey [] := by
  induction commits with
  | nil => rfl
  | cons c commits ih =>
    have hkey : commitKey [] c = (c.root.map rootVersion).toList ++ bareKey [] c := rfl
    by_cases hleaves : (c.op.isSome || c.root.isSome) = true
    · have hfirst : first (c :: commits) = some c := List.find?_cons_of_pos hleaves
      rw [foldl_cons, foldl_cons, hkey, hfirst]
      cases hroot : c.root with
      | none =>
        have hne : bareKey [] c ≠ [] := by
          intro h
          simp [hroot, (bareKey_eq_nil.mp h).2] at hleaves
        simpa [hroot] using foldl_commitKey hne
      | some r =>
        have hbehind : commits.foldl bareKey ([] ++ rootVersion r :: bareKey [] c) =
            [] ++ rootVersion r :: commits.foldl bareKey (bareKey [] c) := foldl_bareKey_behind rfl
        simpa [hroot] using (foldl_commitKey (cons_ne_nil _ _)).trans hbehind
    · have hfirst : first (c :: commits) = first commits := List.find?_cons_of_neg hleaves
      rw [Bool.or_eq_true, not_or, not_isSome_iff_eq_none, not_isSome_iff_eq_none] at hleaves
      have hnil : commitKey [] c = [] := by simp [commitKey, hleaves.1, hleaves.2]
      have hnil' : bareKey [] c = [] := bareKey_eq_nil.mpr ⟨rfl, hleaves.1⟩
      rw [foldl_cons, foldl_cons, hnil, hnil', hfirst, ih]

end Roots

/-! ## What is taken -/

/-- What isolateCheckpoint makes of a version that has a limit if it has been ended. -/
def taken (v : Nat) (i : Information V) : Option (Information V) := if 0 < i.limit ∧ i.limit < v then none else some i

/-- The storyline without a version ahead of a savepoint, at a viewpoint: there is nothing up to it, or the right version is taken
    unless there is a gap. -/
inductive Shape (s : Story V) (v : Nat) (front : List (Information V)) : Prop
  | nothing (hnil : front = []) (hnewest : newest s.loaded s.commits v = none) (hloaded : s.loaded = none)
      (hputs : ∀ c ∈ s.commits, c.viewpoint ≤ v → c.op = none)
  | last (init : List (Information V)) (i : Information V) (hfront : front = init ++ [i]) (hlimit : i.deleting = true → i.limit ≠ 0)
      (htaken : (taken v i).map (·.data) = newest s.loaded s.commits v ↔ NoGap s v)
      (hput : s.loaded = none → ∃ c ∈ s.commits, c.op.isSome = true ∧ c.viewpoint ≤ v)

section Selection
variable {s : Story V} {v : Nat} {early late : List (Commit V)}

theorem stamp_lt {c : Commit V} (hop : c.op.isSome = true) (hv : c.viewpoint ≤ v) : c.stamp < v := by
  obtain ⟨x, hx⟩ := isSome_iff_exists.mp hop
  rwa [viewpoint_put x hx] at hv

/-- The first commit behind the viewpoint has ended the version that was in front. -/
theorem taken_ended {c : Commit V} {i : Information V} (hcommits : s.commits = early ++ c :: late) (hearly : ∀ d ∈ early, d.viewpoint ≤ v)
    (hc : v < c.viewpoint) (hnewest : newest s.loaded s.commits v = some i.data) :
    (taken v { i with limit := c.limit, deleting := true }).map (·.data) = newest s.loaded s.commits v ↔ NoGap s v := by
  have hord := s.ordered
  rw [hcommits] at hord
  have hlater := (pairwise_cons.mp (pairwise_append.mp hord).2.1).1
  have hdrawn := c.drawn
  by_cases hlt : c.limit < v
  · -- it is an update, or it would not be behind the viewpoint
    have hop : c.op.isSome = true := by
      by_contra hnone
      simp only [Commit.viewpoint, Commit.last, hnone, if_false] at hc
      omega
    have hstamp : v ≤ c.stamp := by
      simp only [Commit.viewpoint, Commit.last, hop, if_true] at hc
      omega
    have hnone : taken v { i with limit := c.limit, deleting := true } = none := if_pos ⟨hdrawn, hlt⟩
    rw [hnone, hnewest]
    refine iff_of_false (fun h => nomatch h) ?_
    intro hgap
    have hbad := hgap c (by simp [hcommits]) hop hlt hstamp
    rw [hnewest] at hbad
    cases hbad
  · have hsome : taken v { i with limit := c.limit, deleting := true } = some { i with limit := c.limit, deleting := true } :=
      if_neg fun h => hlt h.2
    rw [hsome, hnewest]
    refine iff_of_true rfl ?_
    intro d hd hop hgap hstamp
    rw [hcommits] at hd
    rcases mem_append.mp hd with hd | hd
    · have := stamp_lt hop (hearly d hd)
      omega
    · rcases mem_cons.mp hd with rfl | hd
      · exact absurd hgap hlt
      · have := hlater d hd
        have := limit_le_last c
        omega

theorem bare_chain (s : Story V) (v : Nat) : ∃ front back, s.commits.foldl bareKey (loadedChain s.loaded) = front ++ back ∧
    (∀ i ∈ front, i.level = levelCommit ∧ i.viewpoint ≤ v) ∧ (front.Pairwise fun a b => a.viewpoint ≤ b.viewpoint) ∧
    Above v back ∧ Shape s v front := by
  obtain ⟨early, late, hcommits, hearly, hlate⟩ := exists_split s.ordered v
  have hord := s.ordered
  rw [hcommits] at hord
  obtain ⟨b, hinv⟩ := early_inv (loaded_inv s.loaded v) (pairwise_append.mp hord).1 (fun _ _ => Nat.zero_le _) hearly
  rw [← newest_split s.loaded hearly hlate, ← hcommits] at hinv
  have hfold : s.commits.foldl bareKey (loadedChain s.loaded) = late.foldl bareKey (early.foldl bareKey (loadedChain s.loaded)) := by
    rw [hcommits, foldl_append]
  have hleft : early.foldl bareKey (loadedChain s.loaded) ≠ [] → s.loaded = none →
      ∃ c ∈ s.commits, c.op.isSome = true ∧ c.viewpoint ≤ v := by
    intro hne hloaded
    by_contra hno
    apply hne
    refine foldl_bareKey_eq_nil.mpr ⟨by simp [hloaded, loadedChain], ?_⟩
    intro c hc
    by_contra hop
    exact hno ⟨c, by simp [hcommits, hc], isSome_iff_ne_none.mpr hop, hearly c hc⟩
  rw [hfold]
  generalize hE : early.foldl bareKey (loadedChain s.loaded) = chain at hinv hleft ⊢
  generalize hN : newest s.loaded s.commits v = value at hinv
  obtain ⟨hversions, -, hsorted, hends⟩ := hinv
  cases hends with
  | nothing =>
    obtain ⟨hloaded, hops⟩ := foldl_bareKey_eq_nil.mp hE
    have hloaded : s.loaded = none := by simpa [loadedChain] using hloaded
    refine ⟨[], _, rfl, hversions, hsorted, foldl_bareKey_above (forall_mem_nil _) hlate, .nothing rfl hN hloaded ?_⟩
    intro c hc hv
    rw [hcommits] at hc
    rcases mem_append.mp hc with hc | hc
    · exact hops c hc
    · exact absurd (hlate c hc) (Nat.not_lt.mpr hv)
  | @live init i hd hl =>
    obtain ⟨back, hback, heq⟩ := @late_chain V init i late v hlate
    have hput := hleft (by simp)
    cases late with
    | nil =>
      refine ⟨init ++ [i], back, by simpa using heq, hversions, hsorted, hback, .last init i rfl (by simp [hd]) ?_ hput⟩
      rw [hN]
      refine iff_of_true (by simp [taken, hl]) ?_
      intro c hc hop _ hstamp
      rw [hcommits, append_nil] at hc
      have := stamp_lt hop (hearly c hc)
      omega
    | cons c late =>
      have hended : endInfo c.limit i = { i with limit := c.limit, deleting := true } := endInfo_live hd _
      refine ⟨init ++ [{ i with limit := c.limit, deleting := true }], back, ?_, ?_, ?_, hback, ?_⟩
      · rw [heq, ← hended]
        simp
      · intro j hj
        rcases mem_append.mp hj with hj | hj
        · exact hversions j (mem_append_left _ hj)
        · rw [mem_singleton.mp hj]
          exact hversions i (by simp)
      · simpa [pairwise_append] using hsorted
      · have hpos := c.drawn
        refine .last init _ rfl (fun _ => Nat.pos_iff_ne_zero.mp hpos) ?_ hput
        exact taken_ended hcommits hearly (hlate c mem_cons_self) hN
  | @ended init i hd hl =>
    obtain ⟨back, hback, heq⟩ := @late_chain V init i late v hlate
    have hsame : (match late.head? with | none => i | some c => endInfo c.limit i) = i := by
      cases late with
      | nil => rfl
      | cons c late => exact endInfo_deleting hd _
    rw [hsame] at heq
    refine ⟨init ++ [i], back, by simpa using heq, hversions, hsorted, hback, .last init i rfl ?_ ?_ (hleft (by simp))⟩
    · intro _
      exact Nat.pos_iff_ne_zero.mp hl.1
    · rw [hN]
      refine iff_of_true (by simp [taken, hl]) ?_
      intro c _ _ _ _
      exact hN

theorem chain_bare (h : savepointed s = false) : s.chain = s.commits.foldl bareKey (loadedChain s.loaded) := by
  unfold Story.chain
  cases hl : s.loaded with
  | some x => exact foldl_commitKey (by simp [loadedChain])
  | none =>
    have hroot : (first s.commits).bind (·.root) = none := by
      simp only [savepointed, hl, isNone_none, Bool.true_and] at h
      cases hf : first s.commits with
      | none => rfl
      | some c => simpa [show s.commits.find? _ = some c from hf] using h
    have heq := foldl_commitKey_nil s.commits
    rw [hroot] at heq
    exact heq

theorem chain_rooted (h : savepointed s = true) : s.loaded = none ∧
    ∃ r, s.chain = rootVersion r :: s.commits.foldl bareKey (loadedChain s.loaded) := by
  unfold savepointed at h
  obtain ⟨hl, hf⟩ := Bool.and_eq_true_iff.mp h
  have hloaded : s.loaded = none := by simpa using hl
  obtain ⟨r, hbind⟩ : ∃ r, (first s.commits).bind (·.root) = some r := by
    change (first s.commits).any (·.root.isSome) = true at hf
    cases hc : first s.commits with
    | none => simp [hc] at hf
    | some c =>
      rw [hc] at hf
      exact isSome_iff_exists.mp hf
  refine ⟨hloaded, r, ?_⟩
  have heq := foldl_commitKey_nil s.commits
  rw [hbind] at heq
  unfold Story.chain
  rw [hloaded]
  exact heq

end Selection

/-! ## The commits of a running system -/

section Running
variable {K : Type} [DecidableEq K] {s s' t t' : Checkpoint.St K V} {tx : Nat} {k : K} {p : Checkpoint.Pending V} {x : V}

theorem endLast_infos (current place : Nat) (cells : List (Checkpoint.Cell V)) :
    (Checkpoint.endLast current place cells).map (·.info) = endTop current (cells.map (·.info)) := by
  have hend (c : Checkpoint.Cell V) : (Checkpoint.endVersion current place c).info = endInfo current c.info := by
    unfold Checkpoint.endVersion endInfo
    split <;> rfl
  unfold Checkpoint.endLast endTop
  cases hlast : cells.getLast? with
  | none => simp [hlast]
  | some c => simp [hlast, hend]

/-- An update ends what is there in one step and stamps its own version in a later one. -/
theorem terminate_stamp (hs : Checkpoint.step s (.terminate tx k) = some s') (ht : Checkpoint.step t (.stamp tx k) = some t')
    (hcells : t.cells k = s'.cells k) (hpending : s.pending k = some (tx, p)) (hput : t.pending k = some (tx, { p with terminated := true }))
    (hop : p.op = some x) (hdrawn : 0 < s.viewpointSequence) (horder : s.viewpointSequence ≤ t.viewpointSequence) :
    (t'.cells k).map (·.info) =
      commitKey ((s.cells k).map (·.info)) ⟨some x, p.root, s.viewpointSequence, t.viewpointSequence, hdrawn, horder⟩ := by
  obtain ⟨op, root, terminated⟩ := p
  obtain rfl : op = some x := hop
  have hended : (s'.cells k).map (·.info) = if s.cells k = [] then (root.map rootVersion).toList
      else endTop s.viewpointSequence ((s.cells k).map (·.info)) := by
    simp only [Checkpoint.step, hpending] at hs
    split at hs
    · cases hs
      by_cases hnil : s.cells k = []
      · cases root <;> simp [Checkpoint.setKey, hnil, rootVersion]
      · simp [Checkpoint.setKey, hnil, endLast_infos]
    · cases hs
  have hstamped : t'.cells k = t.cells k ++ [Checkpoint.stamped t.viewpointSequence (t.tx tx).place x] := by
    simp only [Checkpoint.step, hput] at ht
    split at ht
    · cases ht
      simp [Checkpoint.setKey]
    · cases ht
  rw [hstamped, hcells, map_append, hended]
  by_cases hnil : s.cells k = []
  · simp [commitKey, hnil, Checkpoint.stamped, putVersion]
  · simp [commitKey, hnil, Checkpoint.stamped, putVersion]

end Running

end DeepFabric.Store.CheckpointChain
