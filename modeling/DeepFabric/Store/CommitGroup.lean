/-
  DeepFabric.Store.CommitGroup — the group a transaction leaves in the log of a map
  (commitRealTime and nextRealTime in core/RealTimeProtocol_v1_1.h and _v1_0.h, RealTimeConductor
  in core/RealTimeTransaction.h).

  A conductor has the entries of a transaction in one map, and markers. A cursor pass writes what is
  there so far, and the final pass the rest; what was written has a file position, and is passed over
  from then on. Entries below LEVEL_ACTIVE are passed over too, but if the last one is, the final
  pass writes a mark in its place, for the CLOSING flag. Every pass opens a group of its own.

  The passes write to the log alone here; `purge` frees what is written, and the counts of a file's
  entries are left out. `log` has the records of one transaction, in order, over all files.

  - `commit_framed`, `position_of_framed`, `framed_iff`: the final pass leaves a group with all
    active entries, opened and closed once, exactly if none of them was written by a cursor pass.
  - `written_before`: it does not if one of them, or the only one, was.
-/
import DeepFabric.Store.LogEntry

namespace DeepFabric.Store.CommitGroup

open LogEntry List

/-! ## The conductor -/

def LEVEL_ACTIVE : Int := 0

def DEFAULT_FILE_HEADER : Nat := 50

/-- An entry of the conductor and its Information. -/
structure Info where
  key : Option Bytes
  level : Int
  deleting : Bool
  size : BitVec 32
  filePosition : BitVec 32
  deriving DecidableEq, Repr

def Info.Active (info : Info) : Prop := LEVEL_ACTIVE ≤ info.level

instance (info : Info) : Decidable info.Active := inferInstanceAs (Decidable (_ ≤ _))

/-- The next pass writes the entry. -/
def Info.Pending (info : Info) : Prop := info.Active ∧ info.filePosition = 0

instance (info : Info) : Decidable info.Pending := inferInstanceAs (Decidable (_ ∧ _))

/-- What a transaction and its map say of a pass. -/
structure Setting where
  rolling : Bool
  valueCompressMode : Bool
  fileSize : Nat
  transactionId : BitVec 64

def Setting.compressRoll (c : Setting) : Bool := c.rolling && c.valueCompressMode

/-- What was written for one entry of the conductor, or for none: a mark, or the end of a file. -/
structure Record where
  index : Option Nat
  call : Call
  deriving DecidableEq, Repr

variable (map : Map) (c : Setting)

def Record.stateFlags (r : Record) : StateFlags := (r.call.written map).stateFlags

/-! ## The loop of commitRealTime -/

/-- The variables of the loop: `first`, and the file pointer of the value file. -/
structure Stream where
  first : Bool
  position : Nat
  deriving DecidableEq, Repr

/-- Information::nullInfo, with a level that is never looked at. -/
def nullInfo : Info := ⟨none, LEVEL_ACTIVE, false, nullSize map, 0⟩

/-- What a written entry keeps. All values of a compressed pass have the position it began at, where the pointer stays. -/
def Info.placed (info : Info) (position : Nat) : Info :=
  { info with filePosition := BitVec.ofNat 32 position, size := map.valueSize.getD info.size }

/-- The value, its entry and, if the value file is full then and the pass is not rolling, the end of the file. -/
def write (cursor : Bool) (index : Option Nat) (info : Info) (next marking : Bool) (s : Stream) : List Record × Stream :=
  let info := info.placed map s.position
  let call := Call.entry info.key ⟨info.filePosition, info.size, info.deleting⟩ s.first next marking cursor c.rolling c.compressRoll
    c.transactionId
  let position := if c.compressRoll then s.position else s.position + info.size.toNat
  if !c.rolling && c.fileSize < position then
    ([⟨index, call⟩, ⟨none, .terminate (BitVec.ofNat 32 position)⟩], ⟨false, DEFAULT_FILE_HEADER⟩)
  else ([⟨index, call⟩], ⟨false, position⟩)

/-- The markers, of which there are so many yet, before `size` entries. -/
def markerLoop (cursor : Bool) (size : Nat) : Nat → Stream → List Record × Stream
  | 0, s => ([], s)
  | markers + 1, s =>
    let next := decide (0 < size) || decide (0 < markers)
    let (records, s) := write map c cursor none (nullInfo map) next true s
    let (rest, s) := markerLoop cursor size markers s
    (records ++ rest, s)

/-- The entries from index `i` on: as they are then, and what was written. -/
def entryLoop (cursor : Bool) : Nat → List Info → Stream → List Info × List Record
  | _, [], _ => ([], [])
  | i, info :: infos, s =>
    let next := !infos.isEmpty
    if info.level < LEVEL_ACTIVE then
      if !next && !cursor then
        let (records, s) := write map c cursor none (nullInfo map) next true s
        let (infos, rest) := entryLoop cursor (i + 1) infos s
        (info :: infos, records ++ rest)
      else
        let (infos, rest) := entryLoop cursor (i + 1) infos s
        (info :: infos, rest)
    else if info.filePosition ≠ 0 then
      let (infos, rest) := entryLoop cursor (i + 1) infos s
      (info :: infos, rest)
    else
      let (records, s') := write map c cursor (some i) info next false s
      let (infos, rest) := entryLoop cursor (i + 1) infos s'
      (info.placed map s.position :: infos, records ++ rest)

structure State where
  infos : List Info
  markerCount : Nat
  log : List Record
  deriving DecidableEq, Repr

def State.init : State := ⟨[], 0, []⟩

/-- From a file pointer on. -/
def commitRealTime (cursor : Bool) (position : Nat) (s : State) : State :=
  let (marks, stream) := markerLoop map c cursor s.infos.length s.markerCount ⟨true, position⟩
  let (infos, entries) := entryLoop map c cursor 0 s.infos stream
  ⟨infos, 0, s.log ++ (marks ++ entries)⟩

/-! ## Before the final pass -/

inductive Ev where
  /-- The transaction writes, or deletes, a key. -/
  | add (key : Option Bytes) (level : Int) (size : BitVec 32) (deleting : Bool)
  /-- An entry is written again, merged, rolled back or erased. -/
  | set (i : Nat) (level : Int) (size : BitVec 32) (deleting : Bool)
  | addMarker
  | cursorPass (position : Nat)
  deriving DecidableEq, Repr

def step (s : State) : Ev → State
  | .add key level size deleting => { s with infos := s.infos ++ [⟨key, level, deleting, size, 0⟩] }
  | .set i level size deleting =>
    { s with infos := s.infos.modify i fun info => { info with level := level, size := size, deleting := deleting } }
  | .addMarker => { s with markerCount := s.markerCount + 1 }
  | .cursorPass position => commitRealTime map c true position s

def run (es : List Ev) : State := es.foldl (step map c) State.init

/-! ## Groups -/

/-- The entries and marks, without the ends of files between them. -/
def group (log : List Record) : List Record := log.filter fun r => !(r.stateFlags map).closure

structure Framed (infos : List Info) (records : List Record) : Prop where
  opening : ∃ r rest, records = r :: rest ∧ (r.stateFlags map).opening = true ∧ ∀ x ∈ rest, (x.stateFlags map).opening = false
  closing : ∃ rest r, records = rest ++ [r] ∧ (r.stateFlags map).closing = true ∧ ∀ x ∈ rest, (x.stateFlags map).closing = false
  entries : ∀ (i : Nat) (info : Info), infos[i]? = some info → info.Active → records.countP (fun r => r.index = some i) = 1

/-- Somewhere in the log. -/
def HasGroup (infos : List Info) (log : List Record) : Prop := ∃ records, records <:+: group map log ∧ Framed map infos records

/-! ## One entry -/

variable {map c} {cursor : Bool} {i j : Nat} {info info' : Info} {infos : List Info} {s : Stream} {r : Record}

/-- One entry is written, which opens the group if none was open. -/
theorem write_spec (map : Map) (c : Setting) (cursor : Bool) (index : Option Nat) (info : Info) (next marking : Bool) (s : Stream) :
    ∃ r, group map (write map c cursor index info next marking s).1 = [r] ∧ r.index = index ∧ (r.stateFlags map).opening = s.first ∧
      (r.stateFlags map).closing = (!next && !cursor) ∧ (write map c cursor index info next marking s).2.first = false := by
  unfold write
  simp only
  generalize (if c.compressRoll then s.position else s.position + (info.placed map s.position).size.toNat) = position
  split
  · exact ⟨_, rfl, rfl, rfl, rfl, rfl⟩
  · exact ⟨_, rfl, rfl, rfl, rfl, rfl⟩

theorem group_append (a b : List Record) : group map (a ++ b) = group map a ++ group map b := filter_append _ _

/-- An entry is passed over, a mark is written in the place of the last one, or the entry is written. -/
theorem turn_cases (map : Map) (c : Setting) (cursor : Bool) (i : Nat) (info : Info) (infos : List Info) (s : Stream) :
    (¬info.Pending ∧ (infos = [] → cursor = false → info.Active) ∧
      entryLoop map c cursor i (info :: infos) s = (info :: (entryLoop map c cursor (i + 1) infos s).1,
        (entryLoop map c cursor (i + 1) infos s).2)) ∨
    (¬info.Active ∧ infos = [] ∧ cursor = false ∧
      entryLoop map c cursor i (info :: infos) s = ([info], (write map c cursor none (nullInfo map) false true s).1)) ∨
    (info.Pending ∧
      entryLoop map c cursor i (info :: infos) s =
        (info.placed map s.position ::
            (entryLoop map c cursor (i + 1) infos (write map c cursor (some i) info (!infos.isEmpty) false s).2).1,
          (write map c cursor (some i) info (!infos.isEmpty) false s).1 ++
            (entryLoop map c cursor (i + 1) infos (write map c cursor (some i) info (!infos.isEmpty) false s).2).2)) := by
  rw [entryLoop]
  by_cases hactive : info.Active
  · rw [if_neg (Int.not_lt.mpr hactive)]
    by_cases hposition : info.filePosition = 0
    · rw [if_neg (not_not_intro hposition)]
      exact .inr (.inr ⟨⟨hactive, hposition⟩, rfl⟩)
    · rw [if_pos hposition]
      exact .inl ⟨fun h => hposition h.2, fun _ _ => hactive, rfl⟩
  · rw [if_pos (Int.not_le.mp hactive)]
    by_cases hlast : infos = [] ∧ cursor = false
    · obtain ⟨rfl, rfl⟩ := hlast
      refine .inr (.inl ⟨hactive, rfl, rfl, ?_⟩)
      simp [entryLoop]
    · refine .inl ⟨fun h => hactive h.1, fun h1 h2 => absurd ⟨h1, h2⟩ hlast, ?_⟩
      have hnext : ¬(!(!infos.isEmpty) && !cursor) = true := by simpa using hlast
      rw [if_neg hnext]

/-! ## Opened once -/

/-- Records behind which `first` is what it becomes. -/
inductive Opens (map : Map) : Bool → List Record → Bool → Prop
  | nil {first : Bool} : Opens map first [] first
  | cons {first first' : Bool} {r : Record} {rest : List Record} :
      (r.stateFlags map).opening = first → Opens map false rest first' → Opens map first (r :: rest) first'

theorem Opens.append {first first' first'' : Bool} {a b : List Record} (ha : Opens map first a first') (hb : Opens map first' b first'') :
    Opens map first (a ++ b) first'' := by
  induction ha with
  | nil => exact hb
  | cons hr _ ih => exact .cons hr (ih hb)

theorem Opens.opening {first' : Bool} {l : List Record} (h : Opens map false l first') : ∀ x ∈ l, (x.stateFlags map).opening = false := by
  generalize hfirst : false = first at h
  induction h with
  | nil => exact forall_mem_nil _
  | cons hr _ ih =>
    subst hfirst
    exact forall_mem_cons.mpr ⟨hr, ih rfl⟩

theorem opens_write (cursor : Bool) (index : Option Nat) (info : Info) (next marking : Bool) (s : Stream) :
    Opens map s.first (group map (write map c cursor index info next marking s).1)
      (write map c cursor index info next marking s).2.first := by
  obtain ⟨r, hgroup, -, hopening, -, hfirst⟩ := write_spec map c cursor index info next marking s
  rw [hgroup, hfirst]
  exact .cons hopening .nil

theorem opens_markerLoop (cursor : Bool) (size markers : Nat) (s : Stream) :
    Opens map s.first (group map (markerLoop map c cursor size markers s).1) (markerLoop map c cursor size markers s).2.first := by
  induction markers generalizing s with
  | zero => exact .nil
  | succ markers ih =>
    simp only [markerLoop, group_append]
    exact (opens_write ..).append (ih _)

theorem opens_entryLoop (map : Map) (c : Setting) (cursor : Bool) (i : Nat) (infos : List Info) (s : Stream) :
    ∃ first', Opens map s.first (group map (entryLoop map c cursor i infos s).2) first' := by
  induction infos generalizing i s with
  | nil => exact ⟨_, .nil⟩
  | cons info infos ih =>
    rcases turn_cases map c cursor i info infos s with ⟨-, -, h⟩ | ⟨-, -, -, h⟩ | ⟨-, h⟩
    · rw [h]
      exact ih (i + 1) s
    · rw [h]
      exact ⟨_, opens_write ..⟩
    · obtain ⟨first', hrest⟩ := ih (i + 1) (write map c cursor (some i) info (!infos.isEmpty) false s).2
      rw [h, group_append]
      exact ⟨first', (opens_write ..).append hrest⟩

/-! ## Closed once -/

variable {next : Bool}

variable {cursor : Bool}

theorem closing_write (map : Map) (c : Setting) (hnext : next = true ∨ cursor = true) (index : Option Nat) (info : Info)
    (marking : Bool) (s : Stream) :
    ∀ x ∈ group map (write map c cursor index info next marking s).1, (x.stateFlags map).closing = false := by
  obtain ⟨r, hgroup, -, -, hclosing, -⟩ := write_spec map c cursor index info next marking s
  rw [hgroup, forall_mem_singleton, hclosing]
  rcases hnext with rfl | rfl
  · rfl
  · exact Bool.and_false _

variable {size : Nat}

/-- Markers do not close a group before entries, or in a cursor pass. -/
theorem closing_markerLoop (map : Map) (c : Setting) (h : 0 < size ∨ cursor = true) (markers : Nat) (s : Stream) :
    ∀ x ∈ group map (markerLoop map c cursor size markers s).1, (x.stateFlags map).closing = false := by
  induction markers generalizing s with
  | zero => exact forall_mem_nil _
  | succ markers ih =>
    simp only [markerLoop, group_append]
    have hnext : (decide (0 < size) || decide (0 < markers)) = true ∨ cursor = true :=
      h.imp_left fun hsize => by rw [decide_eq_true hsize, Bool.true_or]
    exact forall_mem_append.mpr ⟨closing_write map c hnext none (nullInfo map) true s, ih _⟩

theorem closing_cursor (i : Nat) (infos : List Info) (s : Stream) :
    ∀ x ∈ group map (entryLoop map c true i infos s).2, (x.stateFlags map).closing = false := by
  induction infos generalizing i s with
  | nil => exact forall_mem_nil _
  | cons info infos ih =>
    rcases turn_cases map c true i info infos s with ⟨-, -, h⟩ | ⟨-, -, h, -⟩ | ⟨-, h⟩
    · rw [h]
      exact ih (i + 1) s
    · cases h
    · rw [h, group_append]
      exact forall_mem_append.mpr ⟨closing_write map c (.inr rfl) (some i) info false s, ih (i + 1) _⟩

/-- The last entry closes the group, or the mark in its place, unless it was written before. -/
theorem closing_final (map : Map) (c : Setting) (hinfos : infos ≠ []) (hunwritten : ∀ info ∈ infos, info.Active → info.filePosition = 0)
    (i : Nat) (s : Stream) :
    ∃ rest r, group map (entryLoop map c false i infos s).2 = rest ++ [r] ∧ (r.stateFlags map).closing = true ∧
      ∀ x ∈ rest, (x.stateFlags map).closing = false := by
  induction infos generalizing i s with
  | nil => exact absurd rfl hinfos
  | cons info infos ih =>
    obtain ⟨hinfo, hrest⟩ := forall_mem_cons.mp hunwritten
    rcases turn_cases map c false i info infos s with ⟨hpassed, hlast, h⟩ | ⟨-, -, -, h⟩ | ⟨-, h⟩
    · have hne : infos ≠ [] := fun hnil => hpassed ⟨hlast hnil rfl, hinfo (hlast hnil rfl)⟩
      rw [h]
      exact ih hne hrest (i + 1) s
    · obtain ⟨r, hgroup, -, -, hclosing, -⟩ := write_spec map c false none (nullInfo map) false true s
      rw [h, hgroup]
      exact ⟨[], r, rfl, hclosing, forall_mem_nil _⟩
    · rw [h, group_append]
      cases infos with
      | nil =>
        obtain ⟨r, hgroup, -, -, hclosing, -⟩ := write_spec map c false (some i) info false false s
        exact ⟨[], r, by simpa [entryLoop, group] using hgroup, hclosing, forall_mem_nil _⟩
      | cons next infos =>
        obtain ⟨rest, r, hgroup, hclosing, hopen⟩ := ih (cons_ne_nil _ _) hrest (i + 1)
          (write map c false (some i) info (!(next :: infos).isEmpty) false s).2
        have hfirst := closing_write map c (.inl rfl : true = true ∨ false = true) (some i) info false s
        refine ⟨_, r, ?_, hclosing, forall_mem_append.mpr ⟨hfirst, hopen⟩⟩
        rw [hgroup, append_assoc]
        rfl

/-! ## Every active entry -/

variable {info : Info} {marking : Bool} {s : Stream}

theorem index_write {index : Option Nat}
    (h : r ∈ (write map c cursor index info next marking s).1) : r.index = index ∨ r.index = none := by
  unfold write at h
  simp only at h
  generalize (if c.compressRoll then s.position else s.position + (info.placed map s.position).size.toNat) = position at h
  split at h
  · rcases mem_cons.mp h with rfl | h
    · exact .inl rfl
    · obtain rfl := mem_singleton.mp h
      exact .inr rfl
  · obtain rfl := mem_singleton.mp h
    exact .inl rfl

theorem index_markerLoop {markers : Nat} (h : r ∈ (markerLoop map c cursor size markers s).1) : r.index = none := by
  induction markers generalizing s with
  | zero => cases h
  | succ markers ih =>
    rcases mem_append.mp h with h | h
    · exact (index_write h).elim id id
    · exact ih h

theorem index_entryLoop {k : Nat} (h : r ∈ (entryLoop map c cursor i infos s).2) (hk : r.index = some k) : i ≤ k ∧ k < i + infos.length := by
  induction infos generalizing i s with
  | nil => cases h
  | cons info infos ih =>
    have hbehind : ∀ {s}, r ∈ (entryLoop map c cursor (i + 1) infos s).2 → i ≤ k ∧ k < i + (infos.length + 1) := by
      intro s h
      obtain ⟨hle, hlt⟩ := ih h
      omega
    rcases turn_cases map c cursor i info infos s with ⟨-, -, heq⟩ | ⟨-, -, -, heq⟩ | ⟨-, heq⟩
    · rw [heq] at h
      exact hbehind h
    · rw [heq] at h
      rcases index_write h with hi | hi
      · cases hi.symm.trans hk
      · cases hi.symm.trans hk
    · rw [heq] at h
      rcases mem_append.mp h with h | h
      · rcases index_write h with hi | hi
        · have := Option.some.inj (hi.symm.trans hk)
          rw [length_cons]
          omega
        · cases hi.symm.trans hk
      · exact hbehind h

theorem mem_group {l : List Record} (h : r ∈ group map l) : r ∈ l := (mem_filter.mp h).1

/-- An entry that is to be written is written once, and no other is. -/
theorem count_entryLoop (map : Map) (c : Setting) (cursor : Bool) (h : infos[j]? = some info) (i : Nat) (s : Stream) :
    (group map (entryLoop map c cursor i infos s).2).countP (fun r => r.index = some (i + j)) = if info.Pending then 1 else 0 := by
  induction infos generalizing i j s with
  | nil => cases h
  | cons first infos ih =>
    have hbehind : ∀ s, (group map (entryLoop map c cursor (i + 1) infos s).2).countP (fun r => r.index = some i) = 0 := by
      intro s
      rw [countP_eq_zero]
      intro x hx hi
      exact absurd (index_entryLoop (mem_group hx) (of_decide_eq_true hi)).1 (Nat.not_succ_le_self i)
    rcases turn_cases map c cursor i first infos s with ⟨hpassed, -, heq⟩ | ⟨hnot, rfl, -, heq⟩ | ⟨hpending, heq⟩
    · rw [heq]
      cases j with
      | zero =>
        cases h
        rw [if_neg hpassed]
        exact hbehind s
      | succ j =>
        rw [← ih h (i + 1) s, Nat.add_right_comm, Nat.add_assoc]
    · obtain ⟨r, hgroup, hindex, -⟩ := write_spec map c cursor none (nullInfo map) false true s
      cases j with
      | zero =>
        cases h
        rw [heq, hgroup, if_neg fun hp : info.Pending => hnot hp.1, countP_eq_zero]
        intro x hx hi
        obtain rfl := mem_singleton.mp hx
        cases hindex.symm.trans (of_decide_eq_true hi)
      | succ j => cases h
    · obtain ⟨r, hgroup, hindex, -⟩ := write_spec map c cursor (some i) first (!infos.isEmpty) false s
      rw [heq, group_append, countP_append, hgroup]
      cases j with
      | zero =>
        cases h
        rw [Nat.add_zero, hbehind, if_pos hpending, countP_singleton, hindex, decide_eq_true rfl]
        rfl
      | succ j =>
        have hother : ([r].countP fun r => r.index = some (i + (j + 1))) = 0 := by
          rw [countP_eq_zero]
          intro x hx hi
          obtain rfl := mem_singleton.mp hx
          have := Option.some.inj (hindex.symm.trans (of_decide_eq_true hi))
          omega
        rw [hother, Nat.zero_add, ← ih h (i + 1) _, Nat.add_right_comm, Nat.add_assoc]

/-! ## The final pass -/

section Final

variable {s : State} {position : Nat}

/-- The markers and the entries of a pass, with the ends of files. -/
def passed (map : Map) (c : Setting) (cursor : Bool) (position : Nat) (s : State) : List Record :=
  let (marks, stream) := markerLoop map c cursor s.infos.length s.markerCount ⟨true, position⟩
  marks ++ (entryLoop map c cursor 0 s.infos stream).2

theorem commit_log (cursor : Bool) (position : Nat) (s : State) :
    (commitRealTime map c cursor position s).log = s.log ++ passed map c cursor position s := rfl

theorem opens_passed (map : Map) (c : Setting) (cursor : Bool) (position : Nat) (s : State) :
    ∃ first', Opens map true (group map (passed map c cursor position s)) first' := by
  obtain ⟨first', hentries⟩ := opens_entryLoop map c cursor 0 s.infos
    (markerLoop map c cursor s.infos.length s.markerCount ⟨true, position⟩).2
  refine ⟨first', ?_⟩
  rw [passed, group_append]
  exact (opens_markerLoop cursor s.infos.length s.markerCount ⟨true, position⟩).append hentries

theorem count_passed (map : Map) (c : Setting) (cursor : Bool) (position : Nat) {i : Nat} (h : s.infos[i]? = some info) :
    (group map (passed map c cursor position s)).countP (fun r => r.index = some i) = if info.Pending then 1 else 0 := by
  rw [passed, group_append, countP_append, countP_eq_zero.mpr, Nat.zero_add]
  · have hcount := count_entryLoop map c cursor h 0
      (markerLoop map c cursor s.infos.length s.markerCount ⟨true, position⟩).2
    rwa [Nat.zero_add] at hcount
  · intro x hx hi
    cases (index_markerLoop (mem_group hx)).symm.trans (of_decide_eq_true hi)

theorem closing_passed (s : State) : ∀ x ∈ group map (passed map c true position s), (x.stateFlags map).closing = false := by
  rw [passed, group_append]
  exact forall_mem_append.mpr ⟨closing_markerLoop map c (.inr rfl) s.markerCount _, closing_cursor 0 s.infos _⟩

theorem commit_framed (hactive : ∃ info ∈ s.infos, info.Active) (hunwritten : ∀ info ∈ s.infos, info.Active → info.filePosition = 0) :
    HasGroup map s.infos (commitRealTime map c false position s).log := by
  obtain ⟨info, hinfo, -⟩ := hactive
  have hinfos : s.infos ≠ [] := ne_nil_of_mem hinfo
  refine ⟨group map (passed map c false position s), ?_, ?_, ?_, ?_⟩
  · rw [commit_log, group_append]
    exact (suffix_append _ _).isInfix
  · obtain ⟨first', hopens⟩ := opens_passed map c false position s
    obtain ⟨rest, r, hlast, -⟩ := closing_final map c hinfos hunwritten 0
      (markerLoop map c false s.infos.length s.markerCount ⟨true, position⟩).2
    have hne : group map (passed map c false position s) ≠ [] := by
      rw [passed, group_append, hlast]
      simp
    generalize group map (passed map c false position s) = records at hopens hne
    cases hopens with
    | nil => exact absurd rfl hne
    | cons hr hrest => exact ⟨_, _, rfl, hr, hrest.opening⟩
  · obtain ⟨rest, r, hlast, hclosing, hopen⟩ := closing_final map c hinfos hunwritten 0
      (markerLoop map c false s.infos.length s.markerCount ⟨true, position⟩).2
    have hmarks := closing_markerLoop map c (.inl (length_pos_iff.mpr hinfos) : 0 < s.infos.length ∨ false = true)
      s.markerCount ⟨true, position⟩
    refine ⟨_, r, ?_, hclosing, forall_mem_append.mpr ⟨hmarks, hopen⟩⟩
    rw [passed, group_append, hlast, append_assoc]
  · intro i info hi ha
    rw [count_passed map c false position hi, if_pos ⟨ha, hunwritten info (mem_of_getElem? hi) ha⟩]

/-- What closes a group is in the final pass, and so is the only thing that opens it. -/
theorem records_of_framed {earlier final records : List Record} {infos : List Info} {first' : Bool}
    (hearlier : ∀ x ∈ earlier, (x.stateFlags map).closing = false) (hfinal : Opens map true final first')
    (hpart : records <:+: earlier ++ final) (h : Framed map infos records) : records ⊆ final := by
  obtain ⟨rest, r, hlast, hclosing, -⟩ := h.closing
  have hnot : ¬records ⊆ earlier := by
    intro hsub
    have hr : r ∈ records := by
      rw [hlast]
      exact mem_append_right _ (mem_singleton_self r)
    rw [hearlier r (hsub hr)] at hclosing
    cases hclosing
  obtain ⟨before, behind, heq⟩ := hpart
  rw [append_assoc] at heq
  rcases append_eq_append_iff.mp heq with ⟨inner, rfl, htail⟩ | ⟨inner, -, rfl⟩
  · rcases append_eq_append_iff.mp htail with ⟨outer, rfl, -⟩ | ⟨outer, hrecords, rfl⟩
    · exact absurd (fun x hx => mem_append_right _ (mem_append_left _ hx)) hnot
    · cases inner with
      | nil =>
        rw [hrecords]
        exact subset_append_left outer behind
      | cons x inner =>
        obtain ⟨first, others, hfirst, -, hopening⟩ := h.opening
        cases outer with
        | nil =>
          refine absurd ?_ hnot
          rw [hrecords, append_nil]
          exact subset_append_right before (x :: inner)
        | cons y outer =>
          cases hfinal with
          | cons hy _ =>
            rw [hrecords] at hfirst
            have hothers := (List.cons.inj hfirst).2
            rw [hopening y (hothers ▸ mem_append_right _ mem_cons_self)] at hy
            cases hy
  · exact fun x hx => mem_append_right _ (mem_append_left _ hx)

theorem position_of_framed (hopen : ∀ x ∈ group map s.log, (x.stateFlags map).closing = false)
    (h : HasGroup map s.infos (commitRealTime map c false position s).log) : ∀ info ∈ s.infos, info.Active → info.filePosition = 0 := by
  obtain ⟨records, hpart, hframed⟩ := h
  obtain ⟨first', hfinal⟩ := opens_passed map c false position s
  rw [commit_log, group_append] at hpart
  have hsub := records_of_framed hopen hfinal hpart hframed
  intro info hinfo hactive
  obtain ⟨i, hi⟩ := List.getElem?_of_mem hinfo
  have hcount := count_passed map c false position hi
  have hone := hframed.entries i info hi hactive
  by_contra hposition
  rw [if_neg fun hp : info.Pending => hposition hp.2, countP_eq_zero] at hcount
  obtain ⟨r, hr, hindex⟩ := countP_pos_iff.mp (hone ▸ Nat.one_pos)
  exact hcount r (hsub hr) hindex

end Final

/-! ## What was written -/

/-- The position in a record. -/
def Record.position (map : Map) (r : Record) : BitVec 32 := (r.call.written map).position

theorem position_write
    (h : r ∈ (write map c cursor (some i) info next marking s).1) (hi : r.index = some i) :
    r.position map = (info.placed map s.position).filePosition := by
  unfold write at h
  simp only at h
  generalize (if c.compressRoll then s.position else s.position + (info.placed map s.position).size.toNat) = position at h
  split at h
  · rcases mem_cons.mp h with rfl | h
    · rfl
    · obtain rfl := mem_singleton.mp h
      cases hi
  · obtain rfl := mem_singleton.mp h
    rfl

theorem keys_entryLoop (cursor : Bool) (i : Nat) (infos : List Info) (s : Stream) :
    (entryLoop map c cursor i infos s).1.map Info.key = infos.map Info.key := by
  induction infos generalizing i s with
  | nil => rfl
  | cons info infos ih =>
    rcases turn_cases map c cursor i info infos s with ⟨-, -, heq⟩ | ⟨-, rfl, -, heq⟩ | ⟨-, heq⟩
    · rw [heq, map_cons, ih, map_cons]
    · rw [heq]
    · rw [heq, map_cons, ih, map_cons]
      rfl

/-- An entry has a position behind the loop if it had one, or was written with one. -/
theorem position_entryLoop (h : (entryLoop map c cursor i infos s).1[j]? = some info') : ∃ info, infos[j]? = some info ∧
    (info'.filePosition ≠ 0 ↔
      info.filePosition ≠ 0 ∨ ∃ r ∈ (entryLoop map c cursor i infos s).2, r.index = some (i + j) ∧ r.position map ≠ 0) := by
  induction infos generalizing i j s with
  | nil => cases h
  | cons first infos ih =>
    have hbehind : ∀ {s x}, x ∈ (entryLoop map c cursor (i + 1) infos s).2 → x.index ≠ some i :=
      fun hx hi => absurd (index_entryLoop hx hi).1 (Nat.not_succ_le_self i)
    have hshift : ∀ j, i + (j + 1) = i + 1 + j := fun j => by omega
    rcases turn_cases map c cursor i first infos s with ⟨-, -, heq⟩ | ⟨-, rfl, -, heq⟩ | ⟨hpending, heq⟩
    · rw [heq] at h ⊢
      cases j with
      | zero =>
        cases h
        exact ⟨_, rfl, .inl, fun h => h.elim id fun ⟨x, hx, hi, _⟩ => absurd hi (hbehind hx)⟩
      | succ j =>
        rw [hshift j]
        exact ih h
    · rw [heq] at h ⊢
      cases j with
      | zero =>
        cases h
        refine ⟨_, rfl, .inl, fun h => h.elim id fun ⟨x, hx, hi, _⟩ => ?_⟩
        rcases index_write hx with hnone | hnone
        · cases hnone.symm.trans hi
        · cases hnone.symm.trans hi
      | succ j => cases h
    · rw [heq] at h ⊢
      cases j with
      | zero =>
        obtain ⟨r, hgroup, hindex, -⟩ := write_spec map c cursor (some i) first (!infos.isEmpty) false s
        have hr : r ∈ (write map c cursor (some i) first (!infos.isEmpty) false s).1 :=
          mem_group (hgroup ▸ mem_singleton_self r)
        obtain rfl := Option.some.inj h
        refine ⟨first, rfl, fun h => .inr ⟨r, mem_append_left _ hr, hindex, ?_⟩, fun h => ?_⟩
        · rwa [position_write hr hindex]
        · obtain h | ⟨x, hx, hi, hposition⟩ := h
          · exact absurd hpending.2 h
          · rcases mem_append.mp hx with hx | hx
            · rwa [position_write hx hi] at hposition
            · exact absurd hi (hbehind hx)
      | succ j =>
        obtain ⟨info, hinfo, hiff⟩ := ih h
        refine ⟨info, hinfo, hiff.trans (or_congr_right ⟨?_, ?_⟩)⟩
        · intro ⟨x, hx, hi, hposition⟩
          exact ⟨x, mem_append_right _ hx, hi.trans (by rw [hshift j]), hposition⟩
        · intro ⟨x, hx, hi, hposition⟩
          rcases mem_append.mp hx with hx | hx
          · rcases index_write hx with hindex | hindex
            · have := Option.some.inj (hindex.symm.trans hi)
              omega
            · cases hindex.symm.trans hi
          · exact ⟨x, hx, hi.trans (by rw [hshift j]), hposition⟩

variable {position : Nat}

theorem position_commit {s : State} (h : (commitRealTime map c cursor position s).infos[i]? = some info') :
    ∃ info, s.infos[i]? = some info ∧ (info'.filePosition ≠ 0 ↔
      info.filePosition ≠ 0 ∨ ∃ r ∈ passed map c cursor position s, r.index = some i ∧ r.position map ≠ 0) := by
  obtain ⟨info, hinfo, hiff⟩ := position_entryLoop h
  rw [Nat.zero_add] at hiff
  refine ⟨info, hinfo, hiff.trans (or_congr_right ⟨?_, ?_⟩)⟩
  · intro ⟨r, hr, hi⟩
    exact ⟨r, mem_append_right _ hr, hi⟩
  · intro ⟨r, hr, hi, hposition⟩
    rcases mem_append.mp hr with hr | hr
    · cases (index_markerLoop hr).symm.trans hi
    · exact ⟨r, hr, hi, hposition⟩

theorem index_passed {s : State} (h : r ∈ passed map c cursor position s) (hi : r.index = some i) :
    i < s.infos.length := by
  rcases mem_append.mp h with h | h
  · cases (index_markerLoop h).symm.trans hi
  · have := (index_entryLoop h hi).2
    omega

theorem keys_commit (map : Map) (c : Setting) (cursor : Bool) (position : Nat) (s : State) :
    (commitRealTime map c cursor position s).infos.map Info.key = s.infos.map Info.key := keys_entryLoop ..

/-! ## Runs -/

/-- No group was closed, and an entry has a position exactly if it was written with one. -/
structure Inv (map : Map) (s : State) : Prop where
  closing : ∀ x ∈ group map s.log, (x.stateFlags map).closing = false
  index : ∀ r ∈ s.log, ∀ i, r.index = some i → i < s.infos.length
  position : ∀ (i : Nat) (info : Info), s.infos[i]? = some info →
    (info.filePosition ≠ 0 ↔ ∃ r ∈ s.log, r.index = some i ∧ r.position map ≠ 0)

theorem step_inv {s : State} (h : Inv map s) (e : Ev) : Inv map (step map c s e) := by
  cases e with
  | add key level size deleting =>
    refine ⟨h.closing, fun r hr i hi => ?_, fun i info hi => ?_⟩
    · show i < (s.infos ++ [_]).length
      rw [length_append]
      exact Nat.lt_of_lt_of_le (h.index r hr i hi) (Nat.le_add_right _ _)
    · have hi : (s.infos ++ [⟨key, level, deleting, size, 0⟩])[i]? = some info := hi
      rw [List.getElem?_append] at hi
      split at hi
      · exact h.position i info hi
      · obtain rfl := mem_singleton.mp (mem_of_getElem? hi)
        refine iff_of_false (not_not_intro rfl) fun ⟨r, hr, hindex, _⟩ => ?_
        exact absurd (h.index r hr i hindex) ‹_›
  | set k level size deleting =>
    refine ⟨h.closing, fun r hr i hi => ?_, fun i info hi => ?_⟩
    · show i < (s.infos.modify k _).length
      rw [length_modify]
      exact h.index r hr i hi
    · have hi : (s.infos.modify k fun info => { info with level := level, size := size, deleting := deleting })[i]? = some info := hi
      rw [List.getElem?_modify] at hi
      obtain ⟨info', hinfo', heq⟩ := Option.map_eq_some_iff.mp hi
      have hsame : info.filePosition = info'.filePosition := by
        rw [← heq]
        split <;> rfl
      rw [hsame]
      exact h.position i info' hinfo'
  | addMarker => exact ⟨h.closing, h.index, h.position⟩
  | cursorPass position =>
    show Inv map (commitRealTime map c true position s)
    refine ⟨?_, fun r hr i hi => ?_, fun i info' hi => ?_⟩
    · rw [commit_log, group_append]
      exact forall_mem_append.mpr ⟨h.closing, closing_passed s⟩
    · have hlen := congrArg List.length (keys_commit map c true position s)
      rw [length_map, length_map] at hlen
      rw [hlen]
      rcases mem_append.mp hr with hr | hr
      · exact h.index r hr i hi
      · exact index_passed hr hi
    · obtain ⟨info, hinfo, hiff⟩ := position_commit hi
      rw [hiff, h.position i info hinfo, commit_log]
      simp only [mem_append, or_and_right, exists_or]

theorem run_inv (map : Map) (c : Setting) (es : List Ev) : Inv map (run map c es) := by
  unfold run
  have h : Inv map State.init :=
    ⟨forall_mem_nil _, fun r hr => absurd hr not_mem_nil, fun i info hi => by cases hi⟩
  generalize State.init = s at h
  induction es generalizing s with
  | nil => exact h
  | cons e es ih => exact ih _ (step_inv h e)

/-- The entries with a position are those that a cursor pass wrote. -/
theorem position_iff_written (map : Map) (c : Setting) (es : List Ev) {i : Nat} (h : (run map c es).infos[i]? = some info) :
    info.filePosition ≠ 0 ↔ ∃ r ∈ (run map c es).log, r.index = some i ∧ r.position map ≠ 0 :=
  (run_inv map c es).position i info h

/-- After any cursor passes, the final pass leaves a group of the transaction exactly if none of them wrote what is active still. -/
theorem framed_iff (map : Map) (c : Setting) (es : List Ev) (position : Nat) (hactive : ∃ info ∈ (run map c es).infos, info.Active) :
    HasGroup map (run map c es).infos (commitRealTime map c false position (run map c es)).log ↔
      ∀ info ∈ (run map c es).infos, info.Active → info.filePosition = 0 :=
  ⟨position_of_framed (run_inv map c es).closing, commit_framed hactive⟩

/-- Values are not compressed, and the file does not fill. -/
def plain : Setting := ⟨false, false, 1000, 0⟩

/-- An entry deleted again behind one that is active, with a marker; nothing was there for the cursor pass. -/
def rolledBack : List Ev := [.cursorPass 50, .add (some [1]) 0 3 false, .add (some [2]) 0 1 true, .set 1 (-3) 1 true, .addMarker]

theorem rolled_back_framed : HasGroup variableMap (run variableMap plain rolledBack).infos
    (commitRealTime variableMap plain false 50 (run variableMap plain rolledBack)).log :=
  (framed_iff variableMap plain rolledBack 50 (by decide +kernel)).mpr (by decide +kernel)

/-- Of two entries, the cursor pass wrote the first. -/
def writtenFirst : List Ev := [.add (some [1]) 0 3 false, .cursorPass 50, .add (some [2]) 0 3 false]

theorem position_iff_written_first : ∃ info, (run variableMap plain writtenFirst).infos[0]? = some info ∧
    (info.filePosition ≠ 0 ↔ ∃ r ∈ (run variableMap plain writtenFirst).log, r.index = some 0 ∧ r.position variableMap ≠ 0) :=
  ⟨_, rfl, position_iff_written variableMap plain writtenFirst rfl⟩

/-- The cursor pass wrote all there is. -/
def writtenAll : List Ev := [.add (some [1]) 0 3 false, .cursorPass 50]

/-- For each record: its entry, and whether it opens and closes the group. -/
def flags (map : Map) (log : List Record) : List (Option Nat × Bool × Bool) :=
  (group map log).map fun r => (r.index, (r.stateFlags map).opening, (r.stateFlags map).closing)

theorem written_before :
    ((∃ info ∈ (run variableMap plain writtenFirst).infos, info.Active) ∧
      flags variableMap (commitRealTime variableMap plain false 53 (run variableMap plain writtenFirst)).log =
        [(some 0, true, false), (some 1, true, true)] ∧
      ¬HasGroup variableMap (run variableMap plain writtenFirst).infos
        (commitRealTime variableMap plain false 53 (run variableMap plain writtenFirst)).log) ∧
    ((∃ info ∈ (run variableMap plain writtenAll).infos, info.Active) ∧
      flags variableMap (commitRealTime variableMap plain false 53 (run variableMap plain writtenAll)).log = [(some 0, true, false)] ∧
      ¬HasGroup variableMap (run variableMap plain writtenAll).infos
        (commitRealTime variableMap plain false 53 (run variableMap plain writtenAll)).log) := by
  refine ⟨⟨by decide +kernel, by decide +kernel, fun h => ?_⟩, ⟨by decide +kernel, by decide +kernel, fun h => ?_⟩⟩
  · exact absurd (position_of_framed (run_inv _ _ _).closing h) (by decide +kernel)
  · exact absurd (position_of_framed (run_inv _ _ _).closing h) (by decide +kernel)

/-! ## What can be read back -/

/-- The group behind some calls. -/
def after (map : Map) (g : Group) (calls : List Call) : Group :=
  calls.foldl (fun g c => (g.opened (c.written map)).next (c.written map)) g

variable {g : Group}

theorem grouped_append {a b : List Call} : Grouped map g (a ++ b) ↔ Grouped map g a ∧ Grouped map (after map g a) b := by
  induction a generalizing g with
  | nil => exact ⟨fun h => ⟨trivial, h⟩, And.right⟩
  | cons c a ih => exact (and_congr_right fun _ => ih).trans and_assoc.symm

/-- A group is open, and of this kind. -/
def OfKind (compressing : Bool) : Group → Prop
  | .outside => False
  | .plain => compressing = false
  | .compressed .. => compressing = true

/-- A key of numbers has the bytes of its type. -/
def Typed (map : Map) (key : Option Bytes) : Prop := ∀ null ∈ map.nullKey, ∀ k ∈ key, k.length = null.length

def calls (log : List Record) : List Call := log.map Record.call

theorem ofKind_opened {w : Written} (h : w.stateFlags.opening = true ∨ OfKind w.compressing g) :
    OfKind w.compressing (g.opened w) := by
  unfold Group.opened
  split
  · cases hw : w.compressing with
    | true => exact rfl
    | false => exact rfl
  · exact h.resolve_left ‹_›

variable {compressing : Bool}

theorem ofKind_next {w : Written} (h : OfKind compressing g) :
    if w.stateFlags.closing then g.next w = .outside else OfKind compressing (g.next w) := by
  unfold Group.next
  split
  · rfl
  · cases g with
    | outside => cases h
    | plain => exact h
    | compressed => exact h

/-- The group behind an entry is of its kind, unless the entry closed it. -/
theorem ofKind_entry (map : Map) (transactionId : BitVec 64) {key : Option Bytes} {value : LogEntry.Information}
    {first rolling : Bool} (hkind : first = true ∨ OfKind compressing g) :
    (next = true ∨ cursor = true →
        OfKind compressing (after map g [.entry key value first next marking cursor rolling compressing transactionId])) ∧
      (after map g [.entry key value first next marking cursor rolling compressing transactionId] = .outside ∨
        OfKind compressing (after map g [.entry key value first next marking cursor rolling compressing transactionId])) := by
  have h := ofKind_next (w := (Call.entry key value first next marking cursor rolling compressing transactionId).written map)
    (ofKind_opened (w := (Call.entry key value first next marking cursor rolling compressing transactionId).written map) hkind)
  split at h
  · rename_i hclosing
    refine ⟨fun hnext => ?_, .inl h⟩
    have hclosing : (!next && !cursor) = true := hclosing
    rcases hnext with rfl | rfl
    · cases hclosing
    · rw [Bool.not_true, Bool.and_false] at hclosing
      cases hclosing
  · exact ⟨fun _ => h, .inr h⟩

theorem belongs_entry {key : Option Bytes} {value : LogEntry.Information} {first rolling : Bool}
    {transactionId : BitVec 64} (hkey : Typed map key) (hkind : first = true ∨ OfKind compressing g) :
    (Call.entry key value first next marking cursor rolling compressing transactionId).Belongs map g := by
  refine ⟨hkind.imp_right fun h => ?_, hkey⟩
  cases g with
  | outside => cases h
  | plain => exact h
  | compressed => exact h

/-- The end of a file belongs into no group, or into a plain one, which goes on. -/
theorem grouped_terminate {call : Call} (h : call.Belongs map g)
    (hbehind : after map g [call] = .outside ∨ OfKind false (after map g [call])) (position : BitVec 32) :
    Grouped map g [call, .terminate position] ∧ after map g [call, .terminate position] = after map g [call] := by
  simp only [Grouped, and_true, h, true_and]
  change (g.opened (call.written map)).next (call.written map) = .outside ∨
    OfKind false ((g.opened (call.written map)).next (call.written map)) at hbehind
  show Call.Belongs map ((g.opened (call.written map)).next (call.written map)) _ ∧
    after map ((g.opened (call.written map)).next (call.written map)) [.terminate position] =
      (g.opened (call.written map)).next (call.written map)
  generalize (g.opened (call.written map)).next (call.written map) = behind at hbehind
  cases behind with
  | outside => exact ⟨⟨.inr rfl, fun _ _ _ h => by cases h⟩, rfl⟩
  | plain => exact ⟨⟨.inr rfl, fun _ _ _ h => by cases h⟩, rfl⟩
  | compressed => rcases hbehind with h | h <;> cases h

theorem typed_nullInfo (map : Map) : Typed map (nullInfo map).key := nofun

theorem grouped_write (index : Option Nat) (next marking cursor : Bool) (hkey : Typed map info.key)
    (hkind : s.first = true ∨ OfKind c.compressRoll g) :
    Grouped map g (calls (write map c cursor index info next marking s).1) ∧
      (next = true ∨ cursor = true → OfKind c.compressRoll (after map g (calls (write map c cursor index info next marking s).1))) := by
  unfold write
  simp only
  generalize (if c.compressRoll then s.position else s.position + (info.placed map s.position).size.toNat) = position
  split
  · rename_i hfull
    have hplain : c.compressRoll = false := by
      rw [Bool.and_eq_true, Bool.not_eq_true'] at hfull
      rw [Setting.compressRoll, hfull.1, Bool.false_and]
    rw [hplain] at hkind ⊢
    obtain ⟨hopen, hbehind⟩ := ofKind_entry map c.transactionId hkind
    obtain ⟨hgrouped, hsame⟩ := grouped_terminate (belongs_entry hkey hkind) hbehind (BitVec.ofNat 32 position)
    refine ⟨hgrouped, fun hnext => ?_⟩
    have hafter := hopen hnext
    rw [← hsame] at hafter
    exact hafter
  · exact ⟨⟨belongs_entry hkey hkind, trivial⟩, (ofKind_entry map c.transactionId hkind).1⟩

theorem calls_append (a b : List Record) : calls (a ++ b) = calls a ++ calls b := map_append

theorem after_append (g : Group) (a b : List Call) : after map g (a ++ b) = after map (after map g a) b := foldl_append

theorem grouped_markerLoop (map : Map) (c : Setting) (g : Group) (h : 0 < size ∨ cursor = true) (markers : Nat)
    (hkind : s.first = true ∨ OfKind c.compressRoll g) :
    Grouped map g (calls (markerLoop map c cursor size markers s).1) ∧ ((markerLoop map c cursor size markers s).2.first = true ∨
      OfKind c.compressRoll (after map g (calls (markerLoop map c cursor size markers s).1))) := by
  induction markers generalizing s g with
  | zero => exact ⟨trivial, hkind⟩
  | succ markers ih =>
    have hnext : (decide (0 < size) || decide (0 < markers)) = true ∨ cursor = true :=
      h.imp_left fun hsize => by rw [decide_eq_true hsize, Bool.true_or]
    obtain ⟨hfirst, hopen⟩ := grouped_write none (decide (0 < size) || decide (0 < markers)) true cursor (typed_nullInfo map) hkind
    obtain ⟨hrest, hbehind⟩ := ih _ (.inr (hopen hnext))
    simp only [markerLoop, calls_append, after_append]
    exact ⟨grouped_append.mpr ⟨hfirst, hrest⟩, hbehind⟩

theorem grouped_entryLoop (hkeys : ∀ info ∈ infos, Typed map info.key) (hkind : s.first = true ∨ OfKind c.compressRoll g)
    (i : Nat) : Grouped map g (calls (entryLoop map c cursor i infos s).2) := by
  induction infos generalizing i s g with
  | nil => trivial
  | cons info infos ih =>
    obtain ⟨hkey, hrest⟩ := forall_mem_cons.mp hkeys
    rcases turn_cases map c cursor i info infos s with ⟨-, -, h⟩ | ⟨-, -, -, h⟩ | ⟨-, h⟩
    · rw [h]
      exact ih hrest hkind (i + 1)
    · rw [h]
      exact (grouped_write none false true cursor (typed_nullInfo map) hkind).1
    · obtain ⟨hfirst, hopen⟩ := grouped_write (some i) (!infos.isEmpty) false cursor hkey hkind
      rw [h, calls_append]
      refine grouped_append.mpr ⟨hfirst, ?_⟩
      cases infos with
      | nil => trivial
      | cons => exact ih hrest (.inr (hopen (.inl rfl))) (i + 1)

theorem grouped_passed {s : State} (hkeys : ∀ info ∈ s.infos, Typed map info.key)
    (h : 0 < s.infos.length ∨ cursor = true) : Grouped map g (calls (passed map c cursor position s)) := by
  obtain ⟨hmarks, hkind⟩ := grouped_markerLoop map c g (s := ⟨true, position⟩) h s.markerCount (.inl rfl)
  rw [passed, calls_append]
  exact grouped_append.mpr ⟨hmarks, grouped_entryLoop hkeys hkind 0⟩

/-- Keys are what the log takes, and the log is what is read back. -/
structure WellGrouped (map : Map) (s : State) : Prop where
  keys : ∀ info ∈ s.infos, Typed map info.key
  grouped : Grouped map .outside (calls s.log)

theorem wellGrouped_commit {s : State} (h : WellGrouped map s) (hpass : 0 < s.infos.length ∨ cursor = true) :
    WellGrouped map (commitRealTime map c cursor position s) := by
  refine ⟨fun info' hinfo' => ?_, ?_⟩
  · have hkey : info'.key ∈ s.infos.map Info.key := by
      rw [← keys_commit map c cursor position s]
      exact mem_map_of_mem hinfo'
    obtain ⟨info, hinfo, heq⟩ := mem_map.mp hkey
    exact heq ▸ h.keys info hinfo
  · rw [commit_log, calls_append]
    exact grouped_append.mpr ⟨h.grouped, grouped_passed h.keys hpass⟩

/-- The keys a transaction adds are of the map's type. -/
def Ev.Typed (map : Map) : Ev → Prop
  | .add key .. => CommitGroup.Typed map key
  | _ => True

theorem wellGrouped_step {s : State} (h : WellGrouped map s) {e : Ev} (he : e.Typed map) : WellGrouped map (step map c s e) := by
  cases e with
  | add key level size deleting =>
    refine ⟨forall_mem_append.mpr ⟨h.keys, fun info hinfo => ?_⟩, h.grouped⟩
    obtain rfl := mem_singleton.mp hinfo
    exact he
  | set k level size deleting =>
    refine ⟨fun info' hinfo' => ?_, h.grouped⟩
    obtain ⟨i, hi⟩ := List.getElem?_of_mem hinfo'
    have hi : (s.infos.modify k fun info => { info with level := level, size := size, deleting := deleting })[i]? = some info' := hi
    rw [List.getElem?_modify] at hi
    obtain ⟨info, hinfo, heq⟩ := Option.map_eq_some_iff.mp hi
    have hkey : info'.key = info.key := by
      rw [← heq]
      split <;> rfl
    exact hkey ▸ h.keys info (mem_of_getElem? hinfo)
  | addMarker => exact ⟨h.keys, h.grouped⟩
  | cursorPass position => exact wellGrouped_commit h (.inr rfl)

/-- Whatever a transaction wrote, with its final pass, the log is of groups. -/
theorem log_grouped (map : Map) (c : Setting) (es : List Ev) (htyped : ∀ e ∈ es, e.Typed map) (position : Nat)
    (hinfos : 0 < (run map c es).infos.length) :
    Grouped map .outside (calls (commitRealTime map c false position (run map c es)).log) := by
  suffices h : WellGrouped map (run map c es) from (wellGrouped_commit h (.inl hinfos)).grouped
  clear hinfos
  unfold run
  have h : WellGrouped map State.init := ⟨nofun, trivial⟩
  generalize State.init = s at h
  induction es generalizing s with
  | nil => exact h
  | cons e es ih =>
    obtain ⟨he, hes⟩ := forall_mem_cons.mp htyped
    exact ih hes _ (wellGrouped_step h he)

theorem writeAll_of_readable {completed : BitVec 64 → Bool} {vend : Nat} {cs : List Call}
    (h : ∀ c ∈ cs, Readable map completed vend c) : ∃ bytes, writeAll map cs = some bytes := by
  induction cs with
  | nil => exact ⟨[], rfl⟩
  | cons c cs ih =>
    obtain ⟨hc, hcs⟩ := forall_mem_cons.mp h
    obtain ⟨first, hfirst⟩ := writes_of_readable completed vend hc
    obtain ⟨rest, hrest⟩ := ih hcs
    exact ⟨first ++ rest, by rw [writeAll, hfirst, hrest]; rfl⟩

end DeepFabric.Store.CommitGroup
