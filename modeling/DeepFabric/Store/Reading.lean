/-
  DeepFabric.Store.Reading — how a read finds its key (core/RealTimeMap.cxx: get, get(ctxt),
  getNext, getPrevious, first, last, scanSegment, getNextSegment, getPreviousSegment), for a primary
  map, with LOCK_NONE, no condition and no iterator, on segments that are in memory and not rolling,
  and without NEXT_MATCH.

  A read option is a place to look at: the key itself, the next or the previous one, the first or
  the last. What is there may be invisible to the transaction. The search for a neighbour then
  reports the key it found with `again`, and the read is repeated from that key as NEXT or PREVIOUS.
  The search for the key itself reports nothing if checkIsolateLock did not find a version. But
  checkIsolateLock does not call the insert of another transaction `not found`, it only asks for
  another try. EXACT has become NEXT by then: it returns the next key and its value as those of the
  key that was asked for.

  A segment is filed in the branch tree under its first key, as `Partitioned` says.
-/
import DeepFabric.Lib.Partition
import DeepFabric.Store.Information

namespace DeepFabric.Store.Reading

open DeepFabric.Lib.Partition Information List Option

inductive ReadOption where
  | exact
  | exactOrNext
  | exactOrPrevious
  | next
  | previous
  | first
  | last
  deriving DecidableEq, Repr

/-- The versions of a key, oldest first: those that are committed, and those its owner has not committed. -/
structure Line (V : Type) where
  versions : List (Information V)
  writing : List (Information V)
  owner : Option Nat
  committed : Committed versions
  stamped : Stamped versions
  uncommitted : ∀ i ∈ writing, i.level ≠ levelCommit
  marked : ∀ i ∈ writing.dropLast, i.updating = false
  bound : versions ++ writing ≠ []

def Line.chain {V : Type} (l : Line V) : List (Information V) := l.versions ++ l.writing

structure Branch (K V : Type) [LinearOrder K] where
  segments : List (K × List (K × Line V))
  partitioned : Partitioned segments

structure Reader where
  identifier : Nat
  viewpoint : Nat
  /-- REPEATABLE, or COMMITTED. -/
  repeatable : Bool

def Reader.isolation (r : Reader) : Isolation := if r.repeatable then .repeatable else .committed

variable {K V : Type} [LinearOrder K]

/-! ## Reading -/

def getNextSegment (b : Branch K V) (key : K) : Option (List (K × Line V)) :=
  let entry := floorEntry b.segments key
  if entry.all fun s => s.2.getLast?.all fun e => e.1 ≤ key then
    match higherEntry b.segments ((entry.map (·.1)).getD key) with
    | some index => some index.2
    | none => entry.map (·.2)
  else entry.map (·.2)

def getPreviousSegment (b : Branch K V) (key : K) : Option (List (K × Line V)) :=
  match floorEntry b.segments key with
  | none => none
  | some entry =>
    if entry.2.head?.any fun e => e.1 = key then
      match lowerEntry b.segments entry.1 with
      | some index => some index.2
      | none => some entry.2
    else some entry.2

def scanSegment (b : Branch K V) (key : K) : Option (List (K × Line V)) := (floorEntry b.segments key).map (·.2)

def isolate (r : Reader) (l : Line V) : Isolated V :=
  checkIsolateLock l.chain r.viewpoint r.isolation (l.owner = some r.identifier)

/-- A key that was found, with the value of its version, or without one where `*again` is set. -/
def hit (r : Reader) (e : K × Line V) : K × Option V := (e.1, (isolate r e.2).version.map (·.data))

/-- get(ctxt). -/
def getKey (b : Branch K V) (r : Reader) (key : K) : Option (K × Option V) :=
  match (scanSegment b key).bind fun segment => getEntry segment key with
  | none => none
  | some e => if (isolate r e.2).notFound then none else some (hit r e)

def getNext (b : Branch K V) (r : Reader) (key : K) : Option (K × Option V) :=
  ((getNextSegment b key).bind fun segment => higherEntry segment key).map (hit r)

def getPrevious (b : Branch K V) (r : Reader) (key : K) : Option (K × Option V) :=
  ((getPreviousSegment b key).bind fun segment => lowerEntry segment key).map (hit r)

def first (b : Branch K V) (r : Reader) : Option (K × Option V) :=
  (b.segments.head?.bind fun segment => segment.2.head?).map (hit r)

def last (b : Branch K V) (r : Reader) : Option (K × Option V) :=
  (b.segments.getLast?.bind fun segment => segment.2.getLast?).map (hit r)

/-- One turn of get: the option for the next one, and what was found. -/
def turn (b : Branch K V) (r : Reader) (key : K) : ReadOption → ReadOption × Option (K × Option V)
  | .exact => (.next, getKey b r key)
  | .exactOrNext => (.next, (getKey b r key).or (getNext b r key))
  | .next => (.next, getNext b r key)
  | .exactOrPrevious => (.previous, (getKey b r key).or (getPrevious b r key))
  | .previous => (.previous, getPrevious b r key)
  | .first => (.next, first b r)
  | .last => (.previous, last b r)

/-- The fuel is for the turns: none when it is used up, otherwise the key and the value, if get succeeds. -/
def get (b : Branch K V) (r : Reader) : Nat → ReadOption → K → Option (Option (K × V))
  | 0, _, _ => none
  | fuel + 1, option, getkey =>
    match turn b r getkey option with
    | (_, none) => some none
    | (option, some (setkey, none)) => get b r fuel option setkey
    | (_, some (setkey, some value)) => some (some (setkey, value))

/-- A read with the option, then reads with NEXT from the key of the last one, until one fails. -/
def scan (b : Branch K V) (r : Reader) (fuel : Nat) : Nat → ReadOption → K → Option (List (K × V))
  | 0, _, _ => none
  | n + 1, option, key =>
    match get b r fuel option key with
    | none => none
    | some none => some []
    | some (some e) => (scan b r fuel n .next e.1).map (e :: ·)

/-! ## What a read should return -/

/-- What a transaction sees of a key: its own last version, or what is committed. -/
def Line.sees (l : Line V) (r : Reader) : Option V :=
  (if l.owner = some r.identifier then (newest l.chain).filter fun i => !i.deleting
    else viewed l.versions r.viewpoint r.isolation).map (·.data)

def Branch.sees (b : Branch K V) (r : Reader) (key : K) : Option V :=
  (getEntry (flat b.segments) key).bind fun e => e.2.sees r

/-- The answer to a read of a transaction that sees `p`. -/
def Answers (p : K → Option V) (key : K) : ReadOption → Option (K × V) → Prop
  | .exact, result => result = (p key).map (key, ·)
  | .exactOrNext, result => Least (fun j => if key ≤ j then p j else none) result
  | .next, result => Least (fun j => if key < j then p j else none) result
  | .exactOrPrevious, result => Greatest (fun j => if j ≤ key then p j else none) result
  | .previous, result => Greatest (fun j => if j < key then p j else none) result
  | .first, result => Least p result
  | .last, result => Greatest p result

/-- Another transaction has inserted the key and not committed it. -/
def InsertedByOther (r : Reader) (l : Line V) : Prop :=
  l.owner ≠ some r.identifier ∧ l.versions = [] ∧ ∃ i ∈ l.writing.head?, i.creating = true ∧ i.deleting = false

/-- The key is in the tree by such an insert. -/
def Pending (b : Branch K V) (r : Reader) (key : K) : Prop :=
  ∃ l, getEntry (flat b.segments) key = some (key, l) ∧ InsertedByOther r l

/-- An EXACT read of a key that another transaction has inserted, with a visible key behind it. -/
def Strays (b : Branch K V) (r : Reader) (key : K) (option : ReadOption) : Prop :=
  option = .exact ∧ Pending b r key ∧ ∃ j, key < j ∧ (b.sees r j).isSome

/-- A committed version, and one that 5 has not committed. -/
def loaded (data : Nat) (deleting : Bool) : Information Nat := ⟨data, levelCommit, false, false, deleting, 0, 0⟩

def written (data : Nat) (creating : Bool) : Information Nat := ⟨data, levelActive, creating, !creating, false, 0, 0⟩

/-- A key with at most one version of either kind. -/
def sampleLine (versions writing : Option (Information Nat)) (owner : Option Nat)
    (hv : ∀ i ∈ versions, i.level = levelCommit ∧ i.updating = false ∧ i.creating = false)
    (hw : ∀ i ∈ writing, i.level ≠ levelCommit) (hb : versions.toList ++ writing.toList ≠ []) : Line Nat where
  versions := versions.toList
  writing := writing.toList
  owner := owner
  committed :=
    { level := fun i hi => (hv i (mem_toList.mp hi)).1
      updating := fun i hi => (hv i (mem_toList.mp hi)).2.1
      creating := fun i hi => (hv i (mem_toList.mp hi)).2.2 }
  stamped := by cases versions <;> simp [Stamped]
  uncommitted i hi := hw i (mem_toList.mp hi)
  marked := by cases writing <;> simp
  bound := hb

/-- Two segments: 1, which 5 is updating, and 2, which 5 has inserted; 3, which is deleted, and 4. -/
def sample : Branch Nat Nat where
  segments :=
    [(1, [(1, sampleLine (some (loaded 10 false)) (some (written 11 false)) (some 5) (by decide) (by decide) (by decide)),
          (2, sampleLine none (some (written 20 true)) (some 5) (by decide) (by decide) (by decide))]),
     (3, [(3, sampleLine (some (loaded 30 true)) none none (by decide) (by decide) (by decide)),
          (4, sampleLine (some (loaded 40 false)) none none (by decide) (by decide) (by decide))])]
  partitioned :=
    { filed := by simp
      ascending := by simp [Ascending, flat] }

/-- A COMMITTED reader. -/
def sampleReader : Reader := ⟨7, 100, false⟩

/-- Key 2 is not there for the reader, and an EXACT read of it returns 4 and its value. -/
theorem neighbour_read : sample.sees sampleReader 2 = none
    ∧ get sample sampleReader 5 .exact 2 = some (some (4, 40))
    ∧ ¬∀ option key, ∃ result, get sample sampleReader 5 option key = some result
        ∧ Answers (sample.sees sampleReader) key option result := by
  have hsees : sample.sees sampleReader 2 = none := by decide +kernel
  have hget : get sample sampleReader 5 .exact 2 = some (some (4, 40)) := by decide +kernel
  refine ⟨hsees, hget, fun h => ?_⟩
  obtain ⟨result, hresult, ha⟩ := h .exact 2
  rw [hget] at hresult
  cases hresult
  rw [Answers, hsees] at ha
  cases ha

/-! ## Across the segments -/

section Borders
variable (b : Branch K V)

theorem get_flat (key : K) : ((scanSegment b key).bind fun segment => getEntry segment key) = getEntry (flat b.segments) key := by
  unfold scanSegment
  rcases floor_cases b.partitioned key with ⟨hf, hall⟩ | ⟨pre, s, post, ht, hf, hs, hpre, hpost⟩
  · rw [hf, getEntry_none fun e he => ne_of_gt (hall e he)]
    rfl
  · have hb := b.partitioned
    rw [ht] at hb
    rw [hf, ht, hb.getEntry_mid hs hpost]
    rfl

theorem head_of_partition {t : List (K × List (K × Line V))} (h : Partitioned t) {key : K} (hall : ∀ e ∈ flat t, key < e.1) :
    ((higherEntry t key).bind fun s => higherEntry s.2 key) = (flat t).head? := by
  have hkeys : ∀ s ∈ t, key < s.1 := by
    intro s hs
    obtain ⟨v, hv⟩ := h.key_mem hs
    exact hall (s.1, v) (mem_flat.mpr ⟨s, hs, hv⟩)
  rw [higherEntry_above hkeys]
  cases t with
  | nil => rfl
  | cons s t =>
    obtain ⟨v, hv⟩ := h.filed s mem_cons_self
    rw [List.head?_cons, bind_some, flat_cons, List.head?_append,
      higherEntry_above fun e he => hall e (by rw [flat_cons]; exact mem_append_left _ he), hv]
    rfl

theorem next_flat (key : K) :
    ((getNextSegment b key).bind fun segment => higherEntry segment key) = higherEntry (flat b.segments) key := by
  have hb := b.partitioned
  unfold getNextSegment
  rcases floor_cases hb key with ⟨hf, hall⟩ | ⟨pre, s, post, ht, hf, hs, hpre, hpost⟩
  · have hhead := head_of_partition hb hall
    rw [hf, higherEntry_above hall, ← hhead]
    simp only [all_none, if_true, map_none, getD_none]
    cases higherEntry b.segments key <;> rfl
  · rw [ht] at hb
    have hnone : higherEntry (flat pre) key = none := higherEntry_below fun e he => le_of_lt (lt_of_lt_of_le (hpre e he) hs)
    rw [hf, ht, flat_append, flat_cons, higherEntry_append, higherEntry_append, hnone, none_or,
      higherEntry_above hpost]
    simp only [all_some, map_some, getD_some]
    have hsorted : Ascending s.2 := hb.within (mem_append_right _ mem_cons_self)
    by_cases hlast : s.2.getLast?.all (fun e => e.1 ≤ key) = true
    · -- nothing in the segment is behind the key
      have hbelow : ∀ e ∈ s.2, e.1 ≤ key := by
        intro e he
        cases hl : s.2.getLast? with
        | none => rw [List.getLast?_eq_none_iff.mp hl] at he; cases he
        | some x =>
          have hx : x.1 ≤ key := by simpa [hl] using hlast
          have hmax := (greatest hsorted (p := fun _ => true) (e := x) (by simpa using hl)).2.2 e he rfl
          exact le_trans hmax hx
      have hpost' : Partitioned post := Partitioned.right (t := [s]) hb.right
      have hindex : higherEntry (pre ++ s :: post) s.1 = higherEntry post key := by
        have hpk : ∀ u ∈ pre, u.1 ≤ s.1 := by
          intro u hu
          obtain ⟨v, hv⟩ := hb.left.key_mem hu
          exact le_of_lt (hpre (u.1, v) (mem_flat.mpr ⟨u, hu, hv⟩))
        have hqk : ∀ u ∈ post, key < u.1 := by
          intro u hu
          obtain ⟨v, hv⟩ := hpost'.key_mem hu
          exact hpost (u.1, v) (mem_flat.mpr ⟨u, hu, hv⟩)
        rw [higherEntry_append, higherEntry_below hpk, none_or, higherEntry, List.find?_cons_of_neg (by simp),
          ← higherEntry, higherEntry_above fun u hu => lt_of_le_of_lt hs (hqk u hu), higherEntry_above hqk]
      rw [if_pos hlast, hindex, higherEntry_below hbelow, none_or, ← head_of_partition hpost' hpost]
      cases higherEntry post key with
      | some index => rfl
      | none => simp [higherEntry_below hbelow]
    · rw [if_neg hlast, bind_some]
      cases hh : higherEntry s.2 key with
      | some e => rfl
      | none =>
        refine absurd ?_ hlast
        cases hl : s.2.getLast? with
        | none => rfl
        | some x => simpa using List.find?_eq_none.mp hh x (mem_of_getLast? hl)

theorem previous_flat (key : K) :
    ((getPreviousSegment b key).bind fun segment => lowerEntry segment key) = lowerEntry (flat b.segments) key := by
  have hb := b.partitioned
  unfold getPreviousSegment
  rcases floor_cases hb key with ⟨hf, hall⟩ | ⟨pre, s, post, ht, hf, hs, hpre, hpost⟩
  · rw [hf, lowerEntry_above fun e he => le_of_lt (hall e he)]
    rfl
  · rw [ht] at hb
    have hmem : s ∈ pre ++ s :: post := mem_append_right _ mem_cons_self
    obtain ⟨v, hv⟩ := hb.filed s hmem
    rw [hf, ht, flat_append, flat_cons, lowerEntry_append, lowerEntry_append,
      lowerEntry_above fun e he => le_of_lt (hpost e he), none_or]
    simp only [hv, any_some]
    by_cases hkey : s.1 = key
    · -- nothing in the segment is ahead of the key
      subst hkey
      have hindex : lowerEntry (pre ++ s :: post) s.1 = pre.getLast? := by
        have hpk : ∀ u ∈ pre, u.1 < s.1 := by
          intro u hu
          obtain ⟨w, hw⟩ := hb.left.key_mem hu
          exact hpre (u.1, w) (mem_flat.mpr ⟨u, hu, hw⟩)
        have hqk : ∀ u ∈ s :: post, s.1 ≤ u.1 := by
          intro u hu
          rcases mem_cons.mp hu with rfl | hu
          · exact le_refl _
          · obtain ⟨w, hw⟩ := (Partitioned.right (t := [s]) hb.right).key_mem hu
            exact le_of_lt (hpost (u.1, w) (mem_flat.mpr ⟨u, hu, hw⟩))
        rw [lowerEntry_append, lowerEntry_above hqk, none_or, lowerEntry_below hpk]
      have hself : lowerEntry s.2 s.1 = none := lowerEntry_above fun e he => hb.key_le hmem he
      rw [if_pos (by simp), hindex, hself, none_or, lowerEntry_below hpre]
      rcases eq_nil_or_concat pre with rfl | ⟨pre, u, rfl⟩
      · simp [hself]
      · rw [concat_eq_append] at hb hpre ⊢
        obtain ⟨w, hw⟩ := hb.left.filed u (by simp)
        have hne : u.2 ≠ [] := by
          intro h
          simp [h] at hw
        have hu : ∀ e ∈ u.2, e.1 < s.1 := fun e he => hpre e (by rw [flat_append]; simp [he])
        obtain ⟨x, hx⟩ := Option.ne_none_iff_exists'.mp (mt List.getLast?_eq_none_iff.mp hne)
        simp [lowerEntry_below hu, List.getLast?_append, hx]
    · have hlt : s.1 < key := lt_of_le_of_ne hs hkey
      rw [if_neg (by simpa using hkey), bind_some]
      cases hl : lowerEntry s.2 key with
      | some e => rfl
      | none =>
        have := filter_eq_nil_iff.mp (List.getLast?_eq_none_iff.mp hl) (s.1, v) (mem_of_head? hv)
        exact absurd hlt (by simpa using this)

theorem first_flat : (b.segments.head?.bind fun segment => segment.2.head?) = (flat b.segments).head? := by
  have hb := b.partitioned
  cases hs : b.segments with
  | nil => rfl
  | cons s t =>
    obtain ⟨v, hv⟩ := hb.filed s (hs ▸ mem_cons_self)
    simp [hv, List.head?_append]

theorem last_flat : (b.segments.getLast?.bind fun segment => segment.2.getLast?) = (flat b.segments).getLast? := by
  have hb := b.partitioned
  rcases eq_nil_or_concat b.segments with hs | ⟨t, s, hs⟩
  · rw [hs]
    rfl
  · rw [concat_eq_append] at hs
    rw [hs] at hb ⊢
    obtain ⟨v, hv⟩ := hb.filed s (by simp)
    have hne : s.2 ≠ [] := by
      intro h
      simp [h] at hv
    obtain ⟨x, hx⟩ := Option.ne_none_iff_exists'.mp (mt List.getLast?_eq_none_iff.mp hne)
    simp [List.getLast?_append, hx]

end Borders

/-! ## At a key -/

theorem version_sees (l : Line V) (r : Reader) : (isolate r l).version.map (·.data) = l.sees r := by
  unfold isolate Line.sees Line.chain
  by_cases ho : l.owner = some r.identifier
  · rw [if_pos ho, decide_eq_true ho, version_owner l.committed l.uncommitted l.marked]
  · rw [if_neg ho, decide_eq_false ho, version_stranger l.committed l.uncommitted l.stamped]

theorem owner_told (chain : List (Information V)) (v : Nat) (mode : Isolation) (h : (checkIsolateLock chain v mode true).notFound = false) :
    (checkIsolateLock chain v mode true).version ≠ none := by
  unfold checkIsolateLock at h ⊢
  cases hst : isolateStory chain levelCommit v mode true with
  | nil => simp [hst] at h
  | cons topinfo rest =>
    rw [hst] at h
    simp only [Bool.not_true, Bool.and_false, Bool.false_eq_true, if_false, if_true] at h ⊢
    have hsome : (if rest = [] ∧ !topinfo.updating then [topinfo] else isolateActiveOrFirst (topinfo :: rest)).head? ≠ none := by
      split
      · simp
      · unfold isolateActiveOrFirst
        cases isolateActive (topinfo :: rest) <;> simp
    obtain ⟨info, hinfo⟩ := Option.ne_none_iff_exists'.mp hsome
    rw [hinfo] at h ⊢
    by_cases hany : (some info).any (fun info => info.level < levelCommit || info.deleting) = true
    · rw [if_pos hany] at h
      cases h
    · rw [if_neg hany]
      simp [Isolated.version]

/-- Another transaction is told too, but where the version it stops at is being created. -/
theorem stranger_told (chain : List (Information V)) (v : Nat) (mode : Isolation) :
    (checkIsolateLock chain v mode false).notFound = false ∧ (checkIsolateLock chain v mode false).version = none
      ↔ ∃ topinfo ∈ (isolateStory chain levelCommit v mode false).head?, topinfo.creating = true ∧ topinfo.deleting = false := by
  unfold checkIsolateLock
  cases isolateStory chain levelCommit v mode false with
  | nil => simp
  | cons topinfo rest =>
    have hfound : ∀ info : Option (Information V), ¬((Isolated.mk info info.isNone info.isNone).notFound = false
        ∧ (Isolated.mk info info.isNone info.isNone).version = none) := by
      intro info
      cases info <;> simp [Isolated.version]
    by_cases hd : topinfo.deleting = true
    · by_cases hm : mode = .repeatable
      · simpa [hd, hm] using hfound (isolateViewpoint chain v).head?
      · simp [hd, hm]
    · by_cases hnew : topinfo.creating = true
      · simp [hd, hnew, Isolated.version]
      · by_cases hv : mode = .repeatable ∧ topinfo.viewpoint > v
        · simpa [hd, hnew, hv] using hfound (isolateViewpoint chain v).head?
        · by_cases hl : topinfo.level = levelCommit <;> simp [hd, hnew, hv, hl, Isolated.version]

theorem not_told_iff (l : Line V) (r : Reader) :
    (isolate r l).notFound = false ∧ (isolate r l).version = none ↔ InsertedByOther r l := by
  unfold isolate InsertedByOther
  by_cases ho : l.owner = some r.identifier
  · rw [decide_eq_true ho]
    exact ⟨fun h => absurd h.2 (owner_told _ _ _ h.1), fun h => absurd ho h.1⟩
  · rw [decide_eq_false ho, stranger_told, Line.chain, head?_isolateStory l.committed l.uncommitted]
    constructor
    · intro ⟨topinfo, htop, hnew, hd⟩
      have hnot : topinfo ∉ l.versions := fun h => absurd hnew (by simp [l.committed.creating topinfo h])
      rcases or_eq_some_iff.mp htop with h | ⟨-, h⟩
      · exact absurd ((takeWhile_sublist _).mem (mem_of_getLast? h)) hnot
      · cases hv : l.versions with
        | nil => exact ⟨ho, rfl, topinfo, by simpa [hv] using h, hnew, hd⟩
        | cons i rest =>
          obtain rfl : i = topinfo := by simpa [hv] using h
          exact absurd (hv ▸ mem_cons_self) hnot
    · rintro ⟨-, hv, topinfo, htop, hnew, hd⟩
      exact ⟨topinfo, by simpa [hv] using htop, hnew, hd⟩

/-! ## Turn after turn -/

/-- What a transaction sees in a list of entries. -/
def views (r : Reader) (l : List (K × Line V)) : List (K × V) := l.filterMap fun e => (e.2.sees r).map (e.1, ·)

omit [LinearOrder K] in
theorem hit_sees (r : Reader) (e : K × Line V) : hit r e = (e.1, e.2.sees r) := by
  rw [hit, version_sees]

section Turns
variable (b : Branch K V) (r : Reader)

theorem getNext_hit (key : K) : getNext b r key = (higherEntry (flat b.segments) key).map (hit r) := by
  rw [getNext, next_flat]

theorem getPrevious_hit (key : K) : getPrevious b r key = (lowerEntry (flat b.segments) key).map (hit r) := by
  rw [getPrevious, previous_flat]

theorem get_next (fuel : Nat) (key : K) (h : (above (flat b.segments) key).length < fuel) :
    get b r fuel .next key = some (views r (above (flat b.segments) key)).head? := by
  induction fuel generalizing key with
  | zero => omega
  | succ fuel ih =>
    rw [get, turn, getNext_hit, ← head?_above]
    cases habove : above (flat b.segments) key with
    | nil => rfl
    | cons e rest =>
      have hrest := above_of_cons b.partitioned.ascending habove
      rw [habove] at h
      rw [List.head?_cons, map_some, hit_sees]
      cases hv : e.2.sees r with
      | some v => simp [views, hv]
      | none =>
        have := ih e.1 (by rw [hrest]; simpa using h)
        simpa [views, hv, hrest] using this

theorem get_previous (fuel : Nat) (key : K) (h : (below (flat b.segments) key).length < fuel) :
    get b r fuel .previous key = some (views r (below (flat b.segments) key)).getLast? := by
  induction fuel generalizing key with
  | zero => omega
  | succ fuel ih =>
    rw [get, turn, getPrevious_hit, ← getLast?_below]
    rcases eq_nil_or_concat (below (flat b.segments) key) with hbelow | ⟨rest, e, hbelow⟩
    · rw [hbelow]
      rfl
    · rw [concat_eq_append] at hbelow
      have hrest := below_of_concat b.partitioned.ascending hbelow
      rw [hbelow] at h ⊢
      rw [List.getLast?_concat, map_some, hit_sees]
      cases hv : e.2.sees r with
      | some v => simp [views, hv]
      | none =>
        have := ih e.1 (by rw [hrest]; simpa using h)
        simpa [views, hv, hrest] using this

theorem getKey_cases (key : K) :
    ¬Pending b r key ∧ getKey b r key = (b.sees r key).map (fun v => (key, some v)) ∨
    Pending b r key ∧ b.sees r key = none ∧ getKey b r key = some (key, none) := by
  unfold Pending Branch.sees
  rw [getKey, get_flat]
  cases he : getEntry (flat b.segments) key with
  | none => exact Or.inl ⟨fun ⟨_, h, _⟩ => (by cases h), rfl⟩
  | some e =>
    obtain ⟨k, l⟩ := e
    obtain rfl : k = key := by simpa using List.find?_some he
    have hpending : (∃ l', some (k, l) = some (k, l') ∧ InsertedByOther r l') ↔ InsertedByOther r l :=
      ⟨by rintro ⟨l', h, hi⟩; cases h; exact hi, fun hi => ⟨l, rfl, hi⟩⟩
    rw [hpending, ← not_told_iff, bind_some, ← version_sees]
    simp only [hit]
    cases hn : (isolate r l).notFound with
    | true => exact Or.inl ⟨fun h => (by cases h.1), by simp [Isolated.version, hn]⟩
    | false =>
      cases hv : (isolate r l).version with
      | some info => exact Or.inl ⟨fun h => (by cases h.2), rfl⟩
      | none => exact Or.inr ⟨⟨rfl, rfl⟩, rfl, rfl⟩

/-! ## What a transaction sees -/

theorem mem_views {q : K → Bool} {j : K} {v : V} :
    (j, v) ∈ views r ((flat b.segments).filter fun e => q e.1) ↔ (if q j then b.sees r j else none) = some v := by
  have hb := b.partitioned.ascending
  unfold views Branch.sees
  rw [mem_filterMap]
  constructor
  · intro ⟨⟨k, l⟩, hmem, hv⟩
    obtain ⟨hmem, hq⟩ := mem_filter.mp hmem
    obtain ⟨w, hw, heq⟩ := map_eq_some_iff.mp hv
    obtain ⟨rfl, rfl⟩ := Prod.mk.inj heq
    have hget : getEntry (flat b.segments) k = some (k, l) := getEntry_of_mem hb hmem
    simpa [hq, hget] using hw
  · intro h
    by_cases hq : q j = true
    · rw [if_pos hq] at h
      obtain ⟨⟨k, l⟩, he, hv⟩ := bind_eq_some_iff.mp h
      obtain rfl : k = j := by simpa using List.find?_some he
      exact ⟨(k, l), mem_filter.mpr ⟨mem_of_find?_eq_some he, hq⟩, by simp [hv]⟩
    · rw [if_neg hq] at h
      cases h

theorem views_ascending {l : List (K × Line V)} (h : Ascending l) : Ascending (views r l) := by
  refine pairwise_filterMap.mpr (h.imp fun {a a'} hlt x hx y hy => ?_)
  obtain ⟨v, -, rfl⟩ := map_eq_some_iff.mp hx
  obtain ⟨w, -, rfl⟩ := map_eq_some_iff.mp hy
  exact hlt

theorem least_views (q : K → Bool) :
    Least (fun j => if q j then b.sees r j else none) (views r ((flat b.segments).filter fun e => q e.1)).head? :=
  least_head? (views_ascending r (b.partitioned.ascending.filter _)) fun _ _ => mem_views b r

theorem greatest_views (q : K → Bool) :
    Greatest (fun j => if q j then b.sees r j else none) (views r ((flat b.segments).filter fun e => q e.1)).getLast? :=
  greatest_getLast? (views_ascending r (b.partitioned.ascending.filter _)) fun _ _ => mem_views b r

theorem views_from (key : K) : views r ((flat b.segments).filter fun e => key ≤ e.1)
    = ((b.sees r key).map (key, ·)).toList ++ views r (above (flat b.segments) key) := by
  unfold Branch.sees
  cases he : getEntry (flat b.segments) key with
  | none => rw [(filter_of_getEntry he).1]; rfl
  | some e =>
    obtain rfl : e.1 = key := by simpa using List.find?_some he
    rw [above_of_getEntry b.partitioned.ascending he]
    cases hv : e.2.sees r <;> simp [views, hv]

theorem views_upto (key : K) : views r ((flat b.segments).filter fun e => e.1 ≤ key)
    = views r (below (flat b.segments) key) ++ ((b.sees r key).map (key, ·)).toList := by
  unfold Branch.sees
  cases he : getEntry (flat b.segments) key with
  | none => rw [(filter_of_getEntry he).2]; simp
  | some e =>
    obtain rfl : e.1 = key := by simpa using List.find?_some he
    rw [below_of_getEntry b.partitioned.ascending he]
    cases hv : e.2.sees r <;> simp [views, hv]

/-! ## The reads -/

section Fuel
variable {fuel : Nat} (hfuel : (flat b.segments).length < fuel)
include hfuel

theorem above_length (key : K) : (above (flat b.segments) key).length < fuel :=
  lt_of_le_of_lt (length_filter_le _ _) hfuel

theorem below_length (key : K) : (below (flat b.segments) key).length < fuel :=
  lt_of_le_of_lt (length_filter_le _ _) hfuel

theorem get_first (key : K) : get b r fuel .first key = some (views r (flat b.segments)).head? := by
  cases fuel with
  | zero => omega
  | succ fuel =>
    rw [get, turn, first, first_flat]
    cases hes : flat b.segments with
    | nil => rfl
    | cons e rest =>
      have hrest : above (flat b.segments) e.1 = rest := by
        rw [hes, above, filter_cons_of_neg (by simp), filter_eq_self.mpr]
        intro x hx
        simpa using (pairwise_cons.mp (hes ▸ b.partitioned.ascending)).1 x hx
      rw [List.head?_cons, map_some, hit_sees]
      cases hv : e.2.sees r with
      | some v => simp [views, hv]
      | none =>
        have := get_next b r fuel e.1 (by rw [hrest]; simpa [hes] using hfuel)
        simpa [views, hv, hrest] using this

theorem get_last (key : K) : get b r fuel .last key = some (views r (flat b.segments)).getLast? := by
  cases fuel with
  | zero => omega
  | succ fuel =>
    rw [get, turn, last, last_flat]
    rcases eq_nil_or_concat (flat b.segments) with hes | ⟨rest, e, hes⟩
    · rw [hes]
      rfl
    · rw [concat_eq_append] at hes
      have hrest : below (flat b.segments) e.1 = rest := by
        rw [hes, below, filter_append, filter_cons_of_neg (by simp), filter_nil, append_nil,
          filter_eq_self.mpr]
        intro x hx
        simpa using (pairwise_append.mp (hes ▸ b.partitioned.ascending)).2.2 x hx e (mem_singleton.mpr rfl)
      rw [hes, List.getLast?_concat, map_some, hit_sees]
      cases hv : e.2.sees r with
      | some v => simp [views, hv]
      | none =>
        have := get_previous b r fuel e.1 (by rw [hrest]; simpa [hes] using hfuel)
        simpa [views, hv, hrest] using this

/-- A key that is pending takes a turn and no place among the others. -/
theorem pending_length {key : K} (h : Pending b r key) {fuel' : Nat} (hf : fuel = fuel' + 1) :
    (above (flat b.segments) key).length < fuel' ∧ (below (flat b.segments) key).length < fuel' := by
  obtain ⟨l, hl, -⟩ := h
  have ha := congrArg List.length (above_of_getEntry b.partitioned.ascending hl)
  have hb := congrArg List.length (below_of_getEntry b.partitioned.ascending hl)
  have hale := length_filter_le (fun e : K × Line V => key ≤ e.1) (flat b.segments)
  have hble := length_filter_le (fun e : K × Line V => e.1 ≤ key) (flat b.segments)
  rw [length_cons] at ha
  rw [length_append, length_singleton] at hb
  omega

theorem get_exact (key : K) :
    ¬Pending b r key ∧ get b r fuel .exact key = some ((b.sees r key).map (key, ·)) ∨
    Pending b r key ∧ b.sees r key = none ∧ get b r fuel .exact key = some (views r (above (flat b.segments) key)).head? := by
  cases hf : fuel with
  | zero => omega
  | succ fuel' =>
    rw [get, turn]
    rcases getKey_cases b r key with ⟨hp, hk⟩ | ⟨hp, hs, hk⟩
    · refine Or.inl ⟨hp, ?_⟩
      rw [hk]
      cases b.sees r key <;> rfl
    · refine Or.inr ⟨hp, hs, ?_⟩
      rw [hk]
      exact get_next b r fuel' key (pending_length b r hfuel hp hf).1

theorem get_exactOrNext (key : K) :
    get b r fuel .exactOrNext key = some (views r ((flat b.segments).filter fun e => key ≤ e.1)).head? := by
  have hnext := get_next b r fuel key (above_length b hfuel key)
  rw [views_from]
  cases hf : fuel with
  | zero => omega
  | succ fuel' =>
    rw [hf, get, turn] at hnext
    rw [get, turn]
    rcases getKey_cases b r key with ⟨-, hk⟩ | ⟨hp, hs, hk⟩
    · rw [hk]
      cases hs : b.sees r key with
      | some v => rfl
      | none => exact hnext
    · rw [hk, hs]
      exact get_next b r fuel' key (pending_length b r hfuel hp hf).1

theorem get_exactOrPrevious (key : K) :
    get b r fuel .exactOrPrevious key = some (views r ((flat b.segments).filter fun e => e.1 ≤ key)).getLast? := by
  have hprevious := get_previous b r fuel key (below_length b hfuel key)
  rw [views_upto]
  cases hf : fuel with
  | zero => omega
  | succ fuel' =>
    rw [hf, get, turn] at hprevious
    rw [get, turn]
    rcases getKey_cases b r key with ⟨-, hk⟩ | ⟨hp, hs, hk⟩
    · rw [hk]
      cases hs : b.sees r key with
      | some v => simp
      | none => simpa using hprevious
    · rw [hk, hs]
      simpa using get_previous b r fuel' key (pending_length b r hfuel hp hf).2

theorem exact_answers (key : K) : ∃ result, get b r fuel .exact key = some result
    ∧ (Answers (b.sees r) key .exact result ↔ ¬Strays b r key .exact) := by
  rcases get_exact b r hfuel key with ⟨hp, hg⟩ | ⟨hp, hs, hg⟩
  · exact ⟨_, hg, fun _ h => hp h.2.1, fun _ => rfl⟩
  · have hleast := least_views b r fun j => decide (key < j)
    rw [← above] at hleast
    refine ⟨_, hg, ?_⟩
    unfold Strays Answers
    rw [hs]
    cases hv : (views r (above (flat b.segments) key)).head? with
    | none =>
      rw [hv] at hleast
      refine ⟨?_, fun _ => rfl⟩
      rintro - ⟨-, -, j, hj, hsome⟩
      have hnone : b.sees r j = none := by simpa [hj] using hleast j
      rw [hnone] at hsome
      cases hsome
    | some e =>
      rw [hv] at hleast
      have hbound := hleast.1
      by_cases hlt : key < e.1
      · have hsome : b.sees r e.1 = some e.2 := by simpa [hlt] using hbound
        constructor
        · intro h
          cases h
        · intro h
          exact absurd ⟨rfl, hp, e.1, hlt, by rw [hsome]; rfl⟩ h
      · simp [hlt] at hbound

theorem get_answers (option : ReadOption) (key : K) : ∃ result, get b r fuel option key = some result
    ∧ (Answers (b.sees r) key option result ↔ ¬Strays b r key option) := by
  have hright : ∀ {option : ReadOption} {result : Option (K × V)}, option ≠ .exact → Answers (b.sees r) key option result →
      (Answers (b.sees r) key option result ↔ ¬Strays b r key option) :=
    fun hne ha => ⟨fun _ hs => hne hs.1, fun _ => ha⟩
  have hall : (flat b.segments).filter (fun _ => true) = flat b.segments := filter_true _
  cases option with
  | exact => exact exact_answers b r hfuel key
  | exactOrNext =>
    refine ⟨_, get_exactOrNext b r hfuel key, hright (by simp) ?_⟩
    simpa [Answers] using least_views b r fun j => decide (key ≤ j)
  | exactOrPrevious =>
    refine ⟨_, get_exactOrPrevious b r hfuel key, hright (by simp) ?_⟩
    simpa [Answers] using greatest_views b r fun j => decide (j ≤ key)
  | next =>
    refine ⟨_, get_next b r fuel key (above_length b hfuel key), hright (by simp) ?_⟩
    simpa [Answers, above] using least_views b r fun j => decide (key < j)
  | previous =>
    refine ⟨_, get_previous b r fuel key (below_length b hfuel key), hright (by simp) ?_⟩
    simpa [Answers, below] using greatest_views b r fun j => decide (j < key)
  | first =>
    refine ⟨_, get_first b r hfuel key, hright (by simp) ?_⟩
    simpa [Answers, hall] using least_views b r fun _ => true
  | last =>
    refine ⟨_, get_last b r hfuel key, hright (by simp) ?_⟩
    simpa [Answers, hall] using greatest_views b r fun _ => true

omit hfuel in
theorem views_above (l : List (K × Line V)) (key : K) : views r (above l key) = above (views r l) key := by
  unfold views above
  rw [filter_filterMap, filterMap_filter]
  refine filterMap_congr fun e _ => ?_
  by_cases he : key < e.1 <;> cases e.2.sees r <;> simp [he, filter_some]

theorem scan_next (n : Nat) (key : K) (h : (above (views r (flat b.segments)) key).length < n) :
    scan b r fuel n .next key = some (above (views r (flat b.segments)) key) := by
  induction n generalizing key with
  | zero => omega
  | succ n ih =>
    rw [scan, get_next b r fuel key (above_length b hfuel key), views_above]
    cases habove : above (views r (flat b.segments)) key with
    | nil => rfl
    | cons e rest =>
      have hrest := above_of_cons (views_ascending r b.partitioned.ascending) habove
      rw [habove] at h
      have := ih e.1 (by rw [hrest]; simpa using h)
      simpa [hrest] using this

theorem scan_first (n : Nat) (key : K) (h : (flat b.segments).length < n) :
    scan b r fuel n .first key = some (views r (flat b.segments)) := by
  have hlen : (views r (flat b.segments)).length < n := lt_of_le_of_lt (length_filterMap_le _ _) h
  have hsorted := views_ascending r b.partitioned.ascending
  cases n with
  | zero => omega
  | succ n =>
    rw [scan, get_first b r hfuel key]
    cases hviews : views r (flat b.segments) with
    | nil => rfl
    | cons e rest =>
      have hrest : above (views r (flat b.segments)) e.1 = rest := by
        rw [hviews, above, filter_cons_of_neg (by simp), filter_eq_self.mpr]
        intro x hx
        simpa using (pairwise_cons.mp (hviews ▸ hsorted)).1 x hx
      have := scan_next b r hfuel n e.1 (by rw [hrest]; simpa [hviews] using hlen)
      simpa [hrest] using this

end Fuel

end Turns

/-- Every read returns. It answers as it should, unless it is an EXACT read of a key that another transaction has inserted
    with a visible key behind it. FIRST and then NEXT until a read fails list what is visible, in order. -/
theorem reads_right (b : Branch K V) (r : Reader) {fuel : Nat} (hfuel : (flat b.segments).length < fuel) :
    (∀ option key, ∃ result, get b r fuel option key = some result
      ∧ (Answers (b.sees r) key option result ↔ ¬Strays b r key option))
    ∧ ∀ key, ∃ l, scan b r fuel fuel .first key = some l ∧ Ascending l ∧ ∀ j v, (j, v) ∈ l ↔ b.sees r j = some v := by
  refine ⟨get_answers b r hfuel, fun key => ⟨_, scan_first b r hfuel fuel key hfuel, ?_, fun j v => ?_⟩⟩
  · exact views_ascending r b.partitioned.ascending
  · have := mem_views b r (q := fun _ => true) (j := j) (v := v)
    simpa using this

/-- The reader sees 1, as it was, and 4. -/
theorem sample_reads : (∀ option key, ∃ result, get sample sampleReader 5 option key = some result
      ∧ (Answers (sample.sees sampleReader) key option result ↔ ¬Strays sample sampleReader key option))
    ∧ ∀ key, ∃ l, scan sample sampleReader 5 5 .first key = some l ∧ Ascending l
      ∧ ∀ j v, (j, v) ∈ l ↔ sample.sees sampleReader j = some v :=
  reads_right sample sampleReader (by decide)

example : scan sample sampleReader 5 5 .first 0 = some [(1, 10), (4, 40)] := by decide +kernel

end DeepFabric.Store.Reading
