/-
  DeepFabric.Store.Information — the versions of a key (core/Information.h) and how a transaction
  picks one of them (core/RealTimeMap.cxx: the isolateInformation family, checkIsolateLock), for a
  primary map and an isolation stricter than UNCOMMITTED.

  The entry of a key points to its oldest version, each version to the next newer one. A version
  has a level: committed, or the nesting level of the transaction that writes it. The newest one
  points back to the oldest while it is uncommitted; it is marked as updating then, and every walk
  stops at the mark. A chain is the list of the versions, oldest first, and a pointer into it is
  the rest of the chain from there.

  The walks differ in what stops them and in what they keep: `walk` is their common form, and
  `head?_walk` says what it ends at.
-/
import Mathlib.Data.List.Basic
import Mathlib.Data.List.TakeWhile

namespace DeepFabric.Store

open List Option

def levelErased : Int := -4
def levelRolled : Int := -3
def levelMerged : Int := -2
def levelCommit : Int := -1
def levelActive : Int := 0

structure Information (V : Type) where
  data : V
  level : Int
  creating : Bool
  updating : Bool
  deleting : Bool
  viewpoint : Nat
  limit : Nat
  deriving DecidableEq, Repr

inductive Isolation where
  | serializable
  | repeatable
  | snapshot
  | committed
  deriving DecidableEq, Repr

namespace Information

variable {V : Type}

def hasViewpoint (info : Information V) (viewpoint : Nat) : Bool := info.viewpoint ≤ viewpoint && info.limit ≥ viewpoint

/-- reset(lo, hi, commit). -/
def reset (info : Information V) (lo hi : Nat) (commit : Bool) : Information V :=
  if commit then { info with viewpoint := lo, limit := hi } else { info with viewpoint := 0, limit := 0 }

/-! ## Walks -/

/-- A walk from `next` on with `cur` in hand: it stops ahead of a version, keeps one, and stops behind one. -/
def walk (before keep after : Information V → Bool) (cur : List (Information V)) :
    List (Information V) → List (Information V)
  | [] => cur
  | next :: rest =>
    if before next then cur
    else
      let cur := if keep next then next :: rest else cur
      if after next then cur else walk before keep after cur rest

/-- A walk that never stops behind a version but at the end is at the last one it keeps. -/
theorem head?_walk {before keep after : Information V → Bool} {cur l : List (Information V)}
    (h : ∀ x ∈ l.dropLast, before x = false → after x = false) :
    (walk before keep after cur l).head? = ((l.takeWhile fun x => !before x).filter keep).getLast?.or cur.head? := by
  induction l generalizing cur with
  | nil => rfl
  | cons next rest ih =>
    have hstep : (if after next then (if keep next then next :: rest else cur)
        else walk before keep after (if keep next then next :: rest else cur) rest).head?
        = (walk before keep after (if keep next then next :: rest else cur) rest).head? ∨ before next = true := by
      by_cases hb : before next = true
      · exact Or.inr hb
      · have hb : before next = false := by simpa using hb
        cases rest with
        | nil => exact Or.inl (by split <;> rfl)
        | cons y rest => exact Or.inl (by rw [h next (by simp) hb]; rfl)
    unfold walk
    by_cases hb : before next = true
    · simp [hb]
    · have hstep := hstep.resolve_right hb
      have hb : before next = false := by simpa using hb
      simp only [hb, Bool.false_eq_true, if_false]
      rw [hstep, ih, takeWhile_cons_of_pos (by simp [hb])]
      · by_cases hk : keep next = true
        · rw [filter_cons_of_pos hk, List.getLast?_cons, if_pos hk, List.head?_cons]
          cases ((rest.takeWhile fun x => !before x).filter keep).getLast? <;> rfl
        · rw [filter_cons_of_neg hk, if_neg hk]
      · intro x hx
        cases rest with
        | nil => simp at hx
        | cons y rest => exact h x (by rw [dropLast_cons_of_ne_nil (by simp)]; exact mem_cons_of_mem _ hx)

/-- The last version of a level. -/
def isolateLevel (topinfo : List (Information V)) (level : Int) : List (Information V) :=
  walk (fun next => next.level ≠ level || next.updating) (fun _ => true) (fun _ => false) topinfo topinfo

/-- The last version of a level that a repeatable reader who does not own the key may go to. -/
def isolateStory (topinfo : List (Information V)) (level : Int) (viewpoint : Nat) (mode : Isolation) (owned : Bool) :
    List (Information V) :=
  walk (fun next => next.level ≠ level || next.updating || (mode = .repeatable && !owned && next.viewpoint > viewpoint))
    (fun _ => true) (fun _ => false) topinfo topinfo

/-- The last committed version with the viewpoint between its two stamps. -/
def isolateViewpoint (topinfo : List (Information V)) (viewpoint : Nat) : List (Information V) :=
  walk (fun next => next.level ≠ levelCommit) (·.hasViewpoint viewpoint) (·.updating) [] topinfo

/-- The last version that is being written. -/
def isolateActive (topinfo : List (Information V)) : List (Information V) :=
  walk (fun _ => false) (fun next => next.level > levelCommit) (·.updating) [] topinfo

def isolateActiveOrFirst (topinfo : List (Information V)) : List (Information V) :=
  match isolateActive topinfo with
  | [] => topinfo
  | curinfo => curinfo

/-- What checkIsolateLock leaves in `info`, `*code` and `*again`. -/
structure Isolated (V : Type) where
  info : Option (Information V)
  notFound : Bool
  again : Bool

/-- checkIsolateLock behind the locks. -/
def checkIsolateLock (orginfo : List (Information V)) (viewpoint : Nat) (mode : Isolation) (owned : Bool) : Isolated V :=
  match isolateStory orginfo levelCommit viewpoint mode owned with
  | [] => ⟨none, true, true⟩
  | topinfo :: rest =>
    if topinfo.deleting && !owned then
      if mode = .repeatable then
        let info := (isolateViewpoint orginfo viewpoint).head?
        ⟨info, info.isNone, info.isNone⟩
      else ⟨some topinfo, true, true⟩
    else
      let again := !topinfo.deleting && topinfo.creating
      if owned then
        -- a storyline that does not go on behind topinfo has nothing of the owner in it
        let info := (if rest = [] ∧ !topinfo.updating then [topinfo] else isolateActiveOrFirst (topinfo :: rest)).head?
        if info.any fun info => info.level < levelCommit || info.deleting then ⟨info, true, again⟩ else ⟨info, false, false⟩
      else if again then ⟨some topinfo, false, true⟩
      else if mode = .repeatable && topinfo.viewpoint > viewpoint then
        let info := (isolateViewpoint orginfo viewpoint).head?
        ⟨info, info.isNone, info.isNone⟩
      else if topinfo.level ≠ levelCommit then ⟨some topinfo, true, true⟩
      else ⟨some topinfo, false, false⟩

/-- The version a reader gets, if it finds the key. -/
def Isolated.version (r : Isolated V) : Option (Information V) := if r.notFound || r.again then none else r.info

/-! ## Chains -/

structure Committed (versions : List (Information V)) : Prop where
  level : ∀ i ∈ versions, i.level = levelCommit
  updating : ∀ i ∈ versions, i.updating = false
  creating : ∀ i ∈ versions, i.creating = false

/-- A committed version that has another one behind it was limited ahead of the other's viewpoint. -/
def Stamped (versions : List (Information V)) : Prop :=
  versions.Pairwise fun a b => a.viewpoint ≤ b.viewpoint ∧ a.deleting = true ∧ a.limit < b.viewpoint

section Chains
variable {versions writing : List (Information V)} (hc : Committed versions) (hw : ∀ i ∈ writing, i.level ≠ levelCommit)

include hw in
/-- A walk that passes what is committed alone stays ahead of the rest. -/
theorem takeWhile_chain {p : Information V → Bool} (hp : ∀ i, i.level ≠ levelCommit → p i = false) :
    (versions ++ writing).takeWhile p = versions.takeWhile p := by
  rw [takeWhile_append]
  split
  · rename_i h
    rw [(takeWhile_sublist p).eq_of_length h]
    cases writing with
    | nil => simp
    | cons i rest => simp [hp i (hw i mem_cons_self)]
  · rfl

theorem takeWhile_congr {p q : Information V → Bool} {l : List (Information V)} (h : ∀ i ∈ l, p i = q i) :
    l.takeWhile p = l.takeWhile q := by
  induction l with
  | nil => rfl
  | cons i l ih =>
    rw [takeWhile_cons, takeWhile_cons, h i mem_cons_self, ih (forall_mem_cons.mp h).2]

include hc hw in
theorem head?_isolateStory (v : Nat) (mode : Isolation) (owned : Bool) :
    (isolateStory (versions ++ writing) levelCommit v mode owned).head?
      = (versions.takeWhile fun i => !(mode = .repeatable && !owned && i.viewpoint > v)).getLast?.or
        (versions ++ writing).head? := by
  unfold isolateStory
  rw [head?_walk fun _ _ _ => rfl, filter_true, takeWhile_chain hw fun i h => by simp [h]]
  congr 2
  refine takeWhile_congr fun i hi => ?_
  simp [hc.level i hi, hc.updating i hi]

include hc hw in
theorem head?_isolateViewpoint (v : Nat) :
    (isolateViewpoint (versions ++ writing) v).head? = (versions.filter (·.hasViewpoint v)).getLast? := by
  have hstop : ∀ i ∈ versions ++ writing, decide (i.level ≠ levelCommit) = false → i.updating = false := by
    intro i hi hlevel
    rcases mem_append.mp hi with h | h
    · exact hc.updating i h
    · exact absurd (by simpa using hlevel) (hw i h)
  unfold isolateViewpoint
  rw [head?_walk fun i hi => hstop i ((dropLast_sublist _).subset hi), takeWhile_chain hw fun i h => by simp [h],
    takeWhile_eq_self_iff.mpr]
  · simp
  · intro i hi
    simp [hc.level i hi]

theorem behind (hs : Stamped versions) {v : Nat} {i : Information V} (hi : i ∈ versions.dropWhile fun i => i.viewpoint ≤ v) :
    v < i.viewpoint := by
  unfold Stamped at hs
  induction versions with
  | nil => exact absurd hi not_mem_nil
  | cons a rest ih =>
    obtain ⟨ha, hrest⟩ := pairwise_cons.mp hs
    by_cases hv : a.viewpoint ≤ v
    · rw [dropWhile_cons_of_pos (by simpa using hv)] at hi
      exact ih hrest hi
    · rw [dropWhile_cons_of_neg (by simpa using hv)] at hi
      rcases mem_cons.mp hi with rfl | hi
      · omega
      · have := (ha i hi).1
        omega

/-- No version has the viewpoint between its stamps but the last one it may go to. -/
theorem filter_hasViewpoint (hs : Stamped versions) (v : Nat) : (versions.filter (·.hasViewpoint v)).getLast?
    = ((versions.takeWhile fun i => i.viewpoint ≤ v).getLast?).filter fun i => v ≤ i.limit := by
  have hdrop : (versions.dropWhile fun i => i.viewpoint ≤ v).filter (·.hasViewpoint v) = [] := by
    refine filter_eq_nil_iff.mpr fun i hi => ?_
    have := behind hs hi
    simp [hasViewpoint]
    omega
  have hsplit := takeWhile_append_dropWhile (p := fun i : Information V => decide (i.viewpoint ≤ v)) (l := versions)
  have hle : ∀ i ∈ versions.takeWhile fun i => i.viewpoint ≤ v, i.viewpoint ≤ v := by
    intro i hi
    simpa using mem_takeWhile_imp hi
  unfold Stamped at hs
  rw [← hsplit] at hs
  nth_rewrite 1 [← hsplit]
  rw [filter_append, hdrop, append_nil]
  have hs := (pairwise_append.mp hs).1
  generalize versions.takeWhile (fun i => decide (i.viewpoint ≤ v)) = a at hs hle
  rcases eq_nil_or_concat a with rfl | ⟨a, i, rfl⟩
  · rfl
  · rw [concat_eq_append] at hs hle ⊢
    have hi := hle i (by simp)
    have hfront : a.filter (·.hasViewpoint v) = [] := by
      refine filter_eq_nil_iff.mpr fun j hj => ?_
      have := ((pairwise_append.mp hs).2.2 j hj i (by simp)).2.2
      simp [hasViewpoint]
      omega
    rw [filter_append, hfront, nil_append, List.getLast?_concat]
    by_cases hv : v ≤ i.limit <;> simp [hasViewpoint, hi, hv, filter_some]

/-- The committed version a transaction goes to that does not own the key. -/
def viewed (versions : List (Information V)) (v : Nat) (mode : Isolation) : Option (Information V) :=
  if mode = .repeatable then ((versions.takeWhile fun i => i.viewpoint ≤ v).getLast?).filter fun i => !(i.deleting && i.limit < v)
  else versions.getLast?.filter fun i => !i.deleting

include hc hw in
theorem version_repeatable (hs : Stamped versions) (v : Nat) :
    (checkIsolateLock (versions ++ writing) v .repeatable false).version = viewed versions v .repeatable := by
  have hstory := head?_isolateStory hc hw v .repeatable false
  rw [takeWhile_congr (q := fun i => decide (i.viewpoint ≤ v)) fun i _ => by rw [Bool.eq_iff_iff]; simp] at hstory
  have hview := (head?_isolateViewpoint hc hw v).trans (filter_hasViewpoint hs v)
  unfold checkIsolateLock viewed
  rw [if_pos rfl]
  cases hlast : (versions.takeWhile fun i => i.viewpoint ≤ v).getLast? with
  | some i =>
    have hmem := mem_of_getLast? hlast
    have hv : i.viewpoint ≤ v := by simpa using mem_takeWhile_imp hmem
    have hi := (takeWhile_sublist _).mem hmem
    rw [hlast] at hstory hview
    cases hst : isolateStory (versions ++ writing) levelCommit v .repeatable false with
    | nil => simp [hst] at hstory
    | cons topinfo rest =>
      obtain rfl : topinfo = i := by simpa [hst] using hstory
      by_cases hd : topinfo.deleting = true
      · by_cases hl : v ≤ topinfo.limit
        · simp [hd, hview, hl, filter_some, Isolated.version, Nat.not_lt.mpr hl]
        · simp [hd, hview, hl, filter_some, Isolated.version, Nat.not_le.mp hl]
      · simp [hd, hc.creating topinfo hi, hc.level topinfo hi, Isolated.version, Nat.not_lt.mpr hv, filter_some]
  | none =>
    rw [hlast] at hstory hview
    cases hst : isolateStory (versions ++ writing) levelCommit v .repeatable false with
    | nil => rfl
    | cons topinfo rest =>
      have hhead : (versions ++ writing).head? = some topinfo := by simpa [hst] using hstory.symm
      by_cases hd : topinfo.deleting = true
      · simp [hd, hview, Isolated.version]
      · by_cases hnew : topinfo.creating = true
        · simp [hd, hnew, Isolated.version]
        · by_cases hv : topinfo.viewpoint > v
          · simp [hd, hnew, hv, hview, Isolated.version]
          · cases versions with
            | nil =>
              have hlevel := hw topinfo (mem_of_head? hhead)
              simp [hd, hnew, hv, hlevel, Isolated.version]
            | cons i rest' =>
              obtain rfl : i = topinfo := by simpa using hhead
              rw [takeWhile_cons_of_pos (by simpa using hv)] at hlast
              simp at hlast

include hc hw in
theorem version_committed (v : Nat) {mode : Isolation} (hm : mode ≠ .repeatable) :
    (checkIsolateLock (versions ++ writing) v mode false).version = viewed versions v mode := by
  have hstory := head?_isolateStory hc hw v mode false
  rw [takeWhile_congr (q := fun _ => true) fun i _ => by simp [hm], takeWhile_eq_self_iff.mpr fun _ _ => rfl] at hstory
  unfold checkIsolateLock viewed
  rw [if_neg hm]
  cases hst : isolateStory (versions ++ writing) levelCommit v mode false with
  | nil =>
    cases hlast : versions.getLast? with
    | none => rfl
    | some i => simp [hst, hlast] at hstory
  | cons topinfo rest =>
    cases hlast : versions.getLast? with
    | some i =>
      have hi := mem_of_getLast? hlast
      obtain rfl : topinfo = i := by simpa [hst, hlast] using hstory
      by_cases hd : topinfo.deleting = true
      · simp [hd, hm, Isolated.version, filter_some]
      · simp [hd, hm, hc.creating topinfo hi, hc.level topinfo hi, Isolated.version, filter_some]
    | none =>
      obtain rfl := List.getLast?_eq_none_iff.mp hlast
      rw [hst] at hstory
      have hlevel := hw topinfo (mem_of_head? (by simpa using hstory.symm))
      by_cases hd : topinfo.deleting = true
      · simp [hd, hm, Isolated.version]
      · by_cases hnew : topinfo.creating = true <;> simp [hd, hm, hnew, hlevel, Isolated.version]

include hc hw in
theorem version_stranger (hs : Stamped versions) (v : Nat) (mode : Isolation) :
    (checkIsolateLock (versions ++ writing) v mode false).version = viewed versions v mode := by
  by_cases hm : mode = .repeatable
  · subst hm
    exact version_repeatable hc hw hs v
  · exact version_committed hc hw v hm

/-- The version the owner of a key has got to. -/
def newest (chain : List (Information V)) : Option (Information V) :=
  (chain.filter fun i => levelCommit ≤ i.level).getLast?

include hw in
theorem walk_committed {before : Information V → Bool} (hv : ∀ i ∈ versions, before i = false)
    (hb : ∀ i, i.level ≠ levelCommit → before i = true) (cur : List (Information V)) :
    walk before (fun _ => true) (fun _ => false) cur (versions ++ writing)
      = match versions.getLast? with
        | some i => i :: writing
        | none => cur := by
  induction versions generalizing cur with
  | nil =>
    cases writing with
    | nil => rfl
    | cons i rest => simp [walk, hb i (hw i mem_cons_self)]
  | cons next rest ih =>
    rw [cons_append, walk, hv next mem_cons_self]
    simp only [Bool.false_eq_true, if_false, if_true]
    rw [ih (forall_mem_cons.mp hv).2, List.getLast?_cons]
    cases hlast : rest.getLast? with
    | some i => rfl
    | none => rw [List.getLast?_eq_none_iff.mp hlast]; rfl

theorem head?_isolateActiveOrFirst {chain : List (Information V)} (hm : ∀ i ∈ chain.dropLast, i.updating = false) :
    (isolateActiveOrFirst chain).head? = ((chain.filter fun i => i.level > levelCommit).getLast?).or chain.head? := by
  have hactive : (isolateActive chain).head? = (chain.filter fun i => i.level > levelCommit).getLast? := by
    unfold isolateActive
    rw [head?_walk fun i hi _ => hm i hi, takeWhile_eq_self_iff.mpr fun i _ => show (!false) = true from rfl]
    simp
  unfold isolateActiveOrFirst
  rw [← hactive]
  cases h : isolateActive chain with
  | nil => rfl
  | cons i rest => simp

include hc hw in
/-- What the owner of the key finds, where no version of it but the last one is marked. -/
theorem version_owner (hm : ∀ i ∈ writing.dropLast, i.updating = false) (v : Nat) (mode : Isolation) :
    (checkIsolateLock (versions ++ writing) v mode true).version = (newest (versions ++ writing)).filter fun i => !i.deleting := by
  have hstory : isolateStory (versions ++ writing) levelCommit v mode true
      = match versions.getLast? with
        | some i => i :: writing
        | none => versions ++ writing :=
    walk_committed hw (fun i hi => by simp [hc.level i hi, hc.updating i hi]) (fun i hi => by simp [hi]) _
  have hnewest : newest (versions ++ writing) = ((writing.filter fun i => i.level > levelCommit).getLast?).or versions.getLast? := by
    have hv : versions.filter (fun i => levelCommit ≤ i.level) = versions :=
      filter_eq_self.mpr fun i hi => by simp [hc.level i hi]
    have hwr : writing.filter (fun i => levelCommit ≤ i.level) = writing.filter fun i => i.level > levelCommit := by
      refine filter_congr fun i hi => ?_
      have := hw i hi
      simp only [decide_eq_decide]
      omega
    rw [newest, filter_append, hv, hwr, List.getLast?_append]
  unfold checkIsolateLock
  rw [hstory, hnewest]
  cases hlast : versions.getLast? with
  | some t =>
    have ht := mem_of_getLast? hlast
    have hinfo : (if writing = [] ∧ !t.updating then [t] else isolateActiveOrFirst (t :: writing)).head?
        = ((writing.filter fun i => i.level > levelCommit).getLast?).or (some t) := by
      by_cases hnil : writing = []
      · subst hnil
        simp [hc.updating t ht]
      · rw [if_neg fun h => hnil h.1, head?_isolateActiveOrFirst]
        · rw [filter_cons_of_neg (by simp [hc.level t ht])]
          rfl
        · intro i hi
          rw [dropLast_cons_of_ne_nil hnil] at hi
          rcases mem_cons.mp hi with rfl | hi
          · exact hc.updating i ht
          · exact hm i hi
    have hlevel : ∀ i, ((writing.filter fun i => i.level > levelCommit).getLast?).or (some t) = some i → ¬i.level < levelCommit := by
      intro i hi
      rcases or_eq_some_iff.mp hi with hi | ⟨-, hi⟩
      · have := (mem_filter.mp (mem_of_getLast? hi)).2
        simp at this
        omega
      · cases hi
        simp [hc.level t ht]
    simp only [Bool.not_true, Bool.and_false, Bool.false_eq_true, if_false, if_true, hinfo]
    cases hres : ((writing.filter fun i => i.level > levelCommit).getLast?).or (some t) with
    | none => simp at hres
    | some i =>
      by_cases hd : i.deleting = true <;> simp [hd, hlevel i hres, Isolated.version, filter_some]
  | none =>
    obtain rfl := List.getLast?_eq_none_iff.mp hlast
    cases writing with
    | nil => rfl
    | cons t rest =>
      have hinfo : (if rest = [] ∧ !t.updating then [t] else isolateActiveOrFirst (t :: rest)).head?
          = (((t :: rest).filter fun i => i.level > levelCommit).getLast?).or (some t) := by
        split
        · rename_i h
          rw [h.1]
          by_cases ht : t.level > levelCommit <;> simp [ht]
        · exact head?_isolateActiveOrFirst hm
      simp only [nil_append, Bool.not_true, Bool.and_false, Bool.false_eq_true, if_false, if_true, hinfo]
      cases hres : ((t :: rest).filter fun i => i.level > levelCommit).getLast? with
      | some i =>
        have hlevel := (mem_filter.mp (mem_of_getLast? hres)).2
        have hlevel : ¬i.level < levelCommit := by simp at hlevel; omega
        by_cases hd : i.deleting = true <;> simp [hd, hlevel, Isolated.version, filter_some]
      | none =>
        have ht : ¬t.level > levelCommit := by
          simpa using filter_eq_nil_iff.mp (List.getLast?_eq_none_iff.mp hres) t mem_cons_self
        have hlevel : t.level < levelCommit := by
          have := hw t mem_cons_self
          omega
        simp [hlevel, Isolated.version]

end Chains

end Information

end DeepFabric.Store
