/-
  DeepFabric.Platform.HashIterator — iterating over a hash map and taking entries out on the way
  (cxx/util/HashMap.h, `EntrySetIterator`).

  An iterator holds the number of the slot it returned last, and of the one it returns next. A
  removal leaves the slots as they are, but for the one that is emptied, unless it makes the table
  smaller: then the entries move, and the iterator goes on from the same number ("TODO: address
  cursor and resize").

  - `next_spec`, `remove_kept`, `remove_last`: what a call does to the entries still to come.
-/
import DeepFabric.Lib.Run
import DeepFabric.Platform.HashCalls

namespace DeepFabric.Platform.Hash

open Lib.Run List Option
open BitVec (ofNat)

variable {K V : Type} [DecidableEq K]

structure EntrySetIterator (K V : Type) where
  prev : Nat
  next : Nat
  map : HashMap K V

/-- The loop of `moveNext`, for as many turns as there are slots left. -/
def skip (table : List (Slot K V)) : Nat → Nat → Option Nat
  | 0, next => some next
  | turns + 1, next => do
    let p ← table[next]?
    if p.isEntry then some next else skip table turns (next + 1)

namespace EntrySetIterator

variable (it : EntrySetIterator K V)

def moveNext : Option (EntrySetIterator K V) :=
  (skip (it.map.table.getD []) (it.map.size - it.next) it.next).map fun next => { it with next := next }

def hasNext : Bool := it.next < it.map.size

/-- `next`, and the slot it returns. -/
def getNext : Option (EntrySetIterator K V × Slot K V) := do
  let p ← (← it.map.table)[it.next]?
  let it ← moveNext { it with prev := it.next, next := it.next + 1 }
  some (it, p)

def remove (hashCode : K → BitVec 32) : Option (EntrySetIterator K V) := do
  match ← (← it.map.table)[it.prev]? with
  | .entry key _ =>
    let (map, _) ← Hash.remove hashCode it.map key
    moveNext { it with next := it.prev, map := map }
  | _ => none

end EntrySetIterator

def iterator (map : HashMap K V) : Option (EntrySetIterator K V) := EntrySetIterator.moveNext ⟨0, 0, map⟩

/-! ## A pass -/

/-- What a pass has returned, and removed. -/
structure Pass (K V : Type) where
  iter : EntrySetIterator K V
  returned : List (K × V)
  removed : List (K × V)

/-- A turn of `while (iter->hasNext())`: `next`, and `remove` if it is chosen. -/
def turn (hashCode : K → BitVec 32) (p : Pass K V) (chosen : Bool) : Option (Pass K V) :=
  if p.iter.hasNext then
    p.iter.getNext.bind fun
      | (it, .entry k v) =>
        if chosen then (it.remove hashCode).map fun it => ⟨it, p.returned ++ [(k, v)], p.removed ++ [(k, v)]⟩
        else some ⟨it, p.returned ++ [(k, v)], p.removed⟩
      | _ => none
  else some p

/-- A whole pass, with a choice for each entry. -/
def pass (hashCode : K → BitVec 32) (map : HashMap K V) (choices : List Bool) : Option (Pass K V) :=
  (iterator map).bind fun it => exec (turn hashCode) ⟨it, [], []⟩ choices

/-- It returns every entry once, and leaves those that were not removed. -/
def PassRight (hashCode : K → BitVec 32) (map : HashMap K V) (ref : Finmap fun _ : K => V) (choices : List Bool) : Prop :=
  ∃ p left, pass hashCode map choices = some p ∧ p.iter.hasNext = false ∧ p.returned.Nodup ∧
    (∀ k v, (k, v) ∈ p.returned ↔ ref.lookup k = some v) ∧ Refines hashCode p.iter.map left ∧
    ∀ k v, left.lookup k = some v ↔ ref.lookup k = some v ∧ (k, v) ∉ p.removed

/-- As built: the first of three entries is removed, and the pass is at its end. -/
theorem shrunk_under_cursor : ∃ (map : HashMap Nat Nat) (ref : Finmap fun _ : Nat => Nat),
    ((new (ofNat 32) 0 false).bind (callAll (ofNat 32) · [Call.put 1 10, .put 2 20, .put 3 30])).map Prod.fst = some map ∧
    Refines (ofNat 32) map ref ∧ ¬PassRight (ofNat 32) map ref [true, false, false] := by
  obtain ⟨s0, hnew, h0⟩ := @new_spec Nat Nat _ (ofNat 32) 0 (by decide)
  have hroomy : (new (ofNat 32) 0 false).all (roomy (ofNat 32) · [Call.put 1 10, .put 2 20, .put 3 30]) = true := by
    decide +kernel
  rw [hnew] at hroomy
  obtain ⟨map, hcalls, hmap⟩ := callAll_spec h0 hroomy
  refine ⟨map, _, by rw [hnew]; simp [hcalls], hmap, ?_⟩
  have hpass : ((((new (ofNat 32) 0 false).bind (callAll (ofNat 32) · [Call.put 1 10, .put 2 20, .put 3 30])).bind fun x =>
      pass (ofNat 32) x.1 [true, false, false]).map Pass.returned) = some [(3, 30)] := by
    decide +kernel
  rw [hnew] at hpass
  simp only [bind_some, hcalls, map_eq_some_iff] at hpass
  obtain ⟨p, hp, hreturned⟩ := hpass
  rintro ⟨p', left, hp', -, -, hall, -⟩
  cases hp.symm.trans hp'
  have hone := (hall 1 10).mpr (by simp [answerAll, answer])
  rw [hreturned] at hone
  exact absurd hone (by decide)

/-! ## Slots and entries -/

section Slots

variable {slots : List (Slot K V)} {i next : Nat} {e : K × V}

omit [DecidableEq K] in
@[simp] theorem toEntry_eq_some {p : Slot K V} : p.toEntry = some e ↔ p = .entry e.1 e.2 := by
  cases p <;> simp [Slot.toEntry, Prod.ext_iff]

omit [DecidableEq K] in
theorem toEntry_eq_none {p : Slot K V} : p.toEntry = none ↔ p.isEntry = false := by
  cases p <;> simp [Slot.toEntry, Slot.isEntry]

/-- The entries in the slots from a number on. -/
def entriesFrom (slots : List (Slot K V)) (i : Nat) : List (K × V) := (slots.drop i).filterMap Slot.toEntry

omit [DecidableEq K] in
theorem entriesFrom_entry (h : slots[i]? = some (.entry e.1 e.2)) : entriesFrom slots i = e :: entriesFrom slots (i + 1) := by
  obtain ⟨hi, heq⟩ := List.getElem?_eq_some_iff.mp h
  rw [entriesFrom, drop_eq_getElem_cons hi, heq, filterMap_cons_some (toEntry_eq_some.mpr rfl)]
  rfl

omit [DecidableEq K] in
theorem entriesFrom_other {p : Slot K V} (h : slots[i]? = some p) (hp : p.isEntry = false) :
    entriesFrom slots i = entriesFrom slots (i + 1) := by
  obtain ⟨hi, heq⟩ := List.getElem?_eq_some_iff.mp h
  rw [entriesFrom, drop_eq_getElem_cons hi, heq, filterMap_cons_none (toEntry_eq_none.mpr hp)]
  rfl

omit [DecidableEq K] in
theorem entriesFrom_end (h : slots.length ≤ i) : entriesFrom slots i = [] := by
  rw [entriesFrom, drop_eq_nil_of_le h]
  rfl

omit [DecidableEq K] in
theorem entriesFrom_set (slots : List (Slot K V)) (i : Nat) : entriesFrom (slots.set i .reserve) i = entriesFrom slots (i + 1) := by
  by_cases hi : i < slots.length
  · have hat : (slots.set i .reserve)[i]? = some .reserve := List.getElem?_set_self hi
    rw [entriesFrom_other hat rfl, entriesFrom, entriesFrom, drop_set_of_lt (Nat.lt_succ_self i)]
  · rw [entriesFrom_end (by rw [length_set]; omega), entriesFrom_end (by omega)]

omit [DecidableEq K] in
theorem length_entriesFrom_zero (slots : List (Slot K V)) : (entriesFrom slots 0).length = slots.countP Slot.isEntry := by
  rw [entriesFrom, drop_zero, length_filterMap_eq_countP]
  refine countP_congr fun p _ => ?_
  cases p <;> simp [Slot.toEntry, Slot.isEntry]

omit [DecidableEq K] in
theorem mem_entriesFrom_zero : e ∈ entriesFrom slots 0 ↔ .entry e.1 e.2 ∈ slots := by
  simp [entriesFrom]

omit [DecidableEq K] in
theorem nodup_entries (h : Distinct slots) : (entriesFrom slots 0).Nodup := by
  refine pairwise_filterMap.mpr (pairwise_iff_getElem.mpr fun i j hi hj hij e he e' he' heq => ?_)
  rw [getElem_drop, toEntry_eq_some] at he he'
  subst heq
  have := h _ _ _ _ _ (List.getElem?_eq_some_iff.mpr ⟨_, he⟩) (List.getElem?_eq_some_iff.mpr ⟨_, he'⟩)
  omega

omit [DecidableEq K] in
/-- The loop of `moveNext` leaves out no entry, and stops at one or at the end. -/
theorem skip_spec (slots : List (Slot K V)) (turns next : Nat) (hturns : turns = slots.length - next) : ∃ next', skip slots turns next = some next' ∧
    entriesFrom slots next' = entriesFrom slots next ∧ (next' < slots.length → ∃ e : K × V, slots[next']? = some (.entry e.1 e.2)) := by
  induction turns generalizing next with
  | zero => exact ⟨next, rfl, rfl, fun h => absurd h (by omega)⟩
  | succ turns ih =>
    have hlt : next < slots.length := by omega
    have hat : slots[next]? = some slots[next] := List.getElem?_eq_getElem hlt
    rw [skip, hat, bind_eq_bind, bind_some]
    cases hentry : slots[next].toEntry with
    | some e =>
      have heq := toEntry_eq_some.mp hentry
      exact ⟨next, by rw [heq]; rfl, rfl, fun _ => ⟨e, by rw [hat, heq]⟩⟩
    | none =>
      have hno := toEntry_eq_none.mp hentry
      obtain ⟨next', hskip, hsame, hstop⟩ := ih (next + 1) (by omega)
      exact ⟨next', by rw [hno]; exact hskip, hsame.trans (entriesFrom_other hat hno).symm, hstop⟩

end Slots

/-! ## Calls -/

section Calls

variable {hashCode : K → BitVec 32} {it : EntrySetIterator K V} {slots : List (Slot K V)} {rest : List (K × V)}

/-- An iterator between two calls, and the entries it has still to come by. -/
structure Ready (it : EntrySetIterator K V) (slots : List (Slot K V)) (rest : List (K × V)) : Prop where
  table : it.map.table.getD [] = slots
  length : slots.length = it.map.size
  rest : rest = entriesFrom slots it.next
  stop : it.next < slots.length → ∃ e : K × V, slots[it.next]? = some (.entry e.1 e.2)

omit [DecidableEq K] in
theorem moveNext_spec (it : EntrySetIterator K V) (htable : it.map.table.getD [] = slots) (hlength : slots.length = it.map.size) :
    ∃ it', it.moveNext = some it' ∧ it'.map = it.map ∧ it'.prev = it.prev ∧ Ready it' slots (entriesFrom slots it.next) := by
  obtain ⟨next', hskip, hsame, hstop⟩ := skip_spec slots (it.map.size - it.next) it.next (by rw [hlength])
  refine ⟨{ it with next := next' }, ?_, rfl, rfl, htable, hlength, hsame.symm, hstop⟩
  rw [EntrySetIterator.moveNext, htable, hskip]
  rfl

omit [DecidableEq K] in
theorem Ready.hasNext (h : Ready it slots rest) : it.hasNext = !rest.isEmpty := by
  by_cases hlt : it.next < slots.length
  · obtain ⟨e, he⟩ := h.stop hlt
    rw [EntrySetIterator.hasNext, ← h.length, decide_eq_true hlt, h.rest, entriesFrom_entry he]
    rfl
  · rw [EntrySetIterator.hasNext, ← h.length, decide_eq_false hlt, h.rest, entriesFrom_end (Nat.not_lt.mp hlt)]
    rfl

omit [DecidableEq K] in
/-- The next entry is returned, and those behind it are still to come. -/
theorem getNext_spec {e : K × V} (h : Ready it slots (e :: rest)) (htable : it.map.table = some slots) :
    ∃ it', it.getNext = some (it', .entry e.1 e.2) ∧ it'.map = it.map ∧ slots[it'.prev]? = some (.entry e.1 e.2) ∧
      rest = entriesFrom slots (it'.prev + 1) ∧ Ready it' slots rest := by
  have hlt : it.next < slots.length := by
    refine Nat.not_le.mp fun hle => ?_
    have := h.rest
    rw [entriesFrom_end hle] at this
    cases this
  obtain ⟨e', he'⟩ := h.stop hlt
  have hrest := h.rest
  rw [entriesFrom_entry he', List.cons.injEq] at hrest
  obtain ⟨rfl, hrest⟩ := hrest
  obtain ⟨it', hmove, hmap, hprev, hready⟩ := moveNext_spec { it with prev := it.next, next := it.next + 1 } h.table h.length
  refine ⟨it', ?_, hmap, by rw [hprev]; exact he', by rw [hprev]; exact hrest, hrest ▸ hready⟩
  simp [EntrySetIterator.getNext, htable, he', hmove]

theorem remove_eq {e : K × V} (htable : it.map.table = some slots) (hat : slots[it.prev]? = some (.entry e.1 e.2)) {map : HashMap K V}
    {x : Option (K × V)} (hremove : Hash.remove hashCode it.map e.1 = some (map, x)) :
    it.remove hashCode = EntrySetIterator.moveNext { it with next := it.prev, map := map } := by
  simp [EntrySetIterator.remove, htable, hat, hremove]

variable {ref : Finmap fun _ : K => V} {m : Nat} {e : K × V}

theorem Holds.getIndex_entry {s : HashMap K V} {i : Nat} (h : Holds hashCode s ref m slots) (hat : slots[i]? = some (.entry e.1 e.2)) :
    getIndex hashCode s e.1 true = some i := by
  obtain ⟨j, p, hget, hat', hp⟩ := h.search h.null e.1
  have hlookup := (h.contents e.1 e.2).mpr (mem_of_getElem? hat)
  rcases hp with ⟨v, -, rfl⟩ | ⟨hnone, -⟩
  · rw [hget, h.distinct _ _ _ _ _ hat' hat]
  · rw [hlookup] at hnone
    cases hnone

/-- A removal that leaves the table as large as it is takes nothing from the entries still to come. -/
theorem remove_kept (h : Holds hashCode it.map ref m slots) (hfixed : it.map.fixed = false) (hat : slots[it.prev]? = some (.entry e.1 e.2))
    (hkept : it.map.size ≤ (it.map.entries - 1) * resizeLowWater) :
    ∃ it', it.remove hashCode = some it' ∧ Refines hashCode it'.map (ref.erase e.1) ∧
      Ready it' (slots.set it.prev .reserve) (entriesFrom slots (it.prev + 1)) := by
  have hremove := remove_at h.table (h.getIndex_entry hat) hat rfl
  have hfew : ¬(toInt ((emptied it.map slots it.prev).entries * resizeLowWater) < (emptied it.map slots it.prev).size ∧
      (emptied it.map slots it.prev).fixed = false) := by
    have hsize := h.size
    have hbound := h.bound
    have hle : 2 ^ (m + 1) ≤ 2 ^ 27 := two_pow_le h.small
    rw [resizeLowWater] at hkept
    show ¬(toInt ((it.map.entries - 1) * 8) < it.map.size ∧ _)
    rw [toInt_small (by omega)]
    omega
  rw [if_pos (show Slot.isEntry (.entry e.1 e.2) = true from rfl), if_neg hfew, map_some] at hremove
  obtain ⟨it', hmove, hmap, -, hready⟩ := moveNext_spec { it with next := it.prev, map := emptied it.map slots it.prev }
    (show _ = slots.set it.prev .reserve from rfl) (by rw [length_set]; exact h.length)
  rw [entriesFrom_set] at hready
  refine ⟨it', (remove_eq h.table hat hremove).trans hmove, ?_, hready⟩
  rw [hmap]
  exact ⟨hfixed, .inr ⟨m, _, h.emptied hat⟩⟩

omit [DecidableEq K] in
theorem entriesFrom_behind {i : Nat} (hat : slots[i]? = some (.entry e.1 e.2)) (hone : slots.countP Slot.isEntry = 1) :
    entriesFrom slots (i + 1) = [] := by
  have hsplit : entriesFrom slots 0 = (slots.take i).filterMap Slot.toEntry ++ e :: entriesFrom slots (i + 1) := by
    rw [← entriesFrom_entry hat, entriesFrom, entriesFrom, drop_zero, ← filterMap_append, take_append_drop]
  have hlength := congrArg List.length hsplit
  rw [length_entriesFrom_zero, hone, length_append, length_cons] at hlength
  exact length_eq_zero_iff.mp (by omega)

/-- A removal of the only entry leaves none to come, whatever becomes of the table. -/
theorem remove_last (h : Holds hashCode it.map ref m slots) (hfixed : it.map.fixed = false) (hat : slots[it.prev]? = some (.entry e.1 e.2))
    (hone : it.map.entries = 1) :
    ∃ it' slots', it.remove hashCode = some it' ∧ Refines hashCode it'.map (ref.erase e.1) ∧ Ready it' slots' [] := by
  have hrefines : Refines hashCode it.map ref := ⟨hfixed, .inr ⟨m, slots, h⟩⟩
  obtain ⟨map, hremove, hmap⟩ := remove_spec hrefines e.1
  have hslots : ∃ slots', map.table.getD [] = slots' ∧ slots'.length = map.size ∧ entriesFrom slots' it.prev = [] := by
    rcases hmap.2 with ⟨htable, hsize, -, -, -⟩ | ⟨m', slots', h'⟩
    · exact ⟨[], by rw [htable]; rfl, hsize.symm, entriesFrom_end (Nat.zero_le _)⟩
    · refine ⟨slots', by rw [h'.table]; rfl, h'.length, filterMap_eq_nil_iff.mpr fun p hp => toEntry_eq_none.mpr ?_⟩
      have hmem : e.1 ∈ ref.keys := Finmap.mem_keys.mpr (Finmap.mem_iff.mpr ⟨e.2, (h.contents e.1 e.2).mpr (mem_of_getElem? hat)⟩)
      have hzero : slots'.countP Slot.isEntry = 0 := by
        rw [h'.entries, h'.card, Finmap.keys_erase, Finset.card_erase_of_mem hmem, ← h.card, hone]
      exact Bool.eq_false_iff.mpr (countP_eq_zero.mp hzero p (mem_of_mem_drop hp))
  obtain ⟨slots', htable, hlength, hnil⟩ := hslots
  obtain ⟨it', hmove, hmap', -, hready⟩ := moveNext_spec { it with next := it.prev, map := map } htable hlength
  rw [hnil] at hready
  exact ⟨it', slots', (remove_eq h.table hat hremove).trans hmove, hmap' ▸ hmap, hready⟩

end Calls

/-! ## A whole pass -/

section

variable {hashCode : K → BitVec 32} {map : HashMap K V} {ref : Finmap fun _ : K => V}

/-- A removal keeps the table, or is of the only entry. -/
def Kept (p : Pass K V) (chosen : Bool) : Prop :=
  chosen = true → p.iter.map.size ≤ (p.iter.map.entries - 1) * resizeLowWater ∨ p.iter.map.entries ≤ 1

/-- A pass that has come so far, and the entries it has still to come by. -/
structure Standing (hashCode : K → BitVec 32) (ref : Finmap fun _ : K => V) (p : Pass K V) (rest : List (K × V)) : Prop where
  nodup : (p.returned ++ rest).Nodup
  all : ∀ k v, (k, v) ∈ p.returned ++ rest ↔ ref.lookup k = some v
  ready : ∃ slots, Ready p.iter slots rest
  left : ∃ left, Refines hashCode p.iter.map left ∧ ∀ k v, left.lookup k = some v ↔ ref.lookup k = some v ∧ (k, v) ∉ p.removed

theorem holds_of_ready {it : EntrySetIterator K V} {slots : List (Slot K V)} {rest : List (K × V)} {left : Finmap fun _ : K => V}
    (h : Refines hashCode it.map left) (hready : Ready it slots rest) (hne : rest ≠ []) : ∃ m, Holds hashCode it.map left m slots := by
  have htable := hready.table
  rcases h.2 with ⟨hnone, -, -, -, -⟩ | ⟨m, slots', h⟩
  · rw [hnone] at htable
    cases htable
    exact absurd (hready.rest.trans (entriesFrom_end (Nat.zero_le _))) hne
  · rw [h.table] at htable
    exact ⟨m, htable ▸ h⟩

theorem turn_standing {p : Pass K V} {rest : List (K × V)} {chosen : Bool} (h : Standing hashCode ref p rest) (hkept : Kept p chosen) :
    ∃ p', turn hashCode p chosen = some p' ∧ Standing hashCode ref p' rest.tail := by
  obtain ⟨slots, hready⟩ := h.ready
  cases rest with
  | nil => exact ⟨p, by rw [turn, hready.hasNext]; rfl, h⟩
  | cons e rest =>
    obtain ⟨left, hleft, hlookup⟩ := h.left
    obtain ⟨m, hholds⟩ := holds_of_ready hleft hready (cons_ne_nil e rest)
    obtain ⟨it, hnext, hmap, hat, hrest, hready'⟩ := getNext_spec hready hholds.table
    have hassoc : p.returned ++ [e] ++ rest = p.returned ++ e :: rest := by rw [append_assoc, singleton_append]
    have hnodup : (p.returned ++ [e] ++ rest).Nodup := hassoc ▸ h.nodup
    have hall : ∀ k v, (k, v) ∈ p.returned ++ [e] ++ rest ↔ ref.lookup k = some v := hassoc ▸ h.all
    have hturn : turn hashCode p chosen = if chosen = true then (it.remove hashCode).map fun it => ⟨it, p.returned ++ [e], p.removed ++ [e]⟩
        else some ⟨it, p.returned ++ [e], p.removed⟩ := by
      rw [turn, hready.hasNext, if_pos (show (!(e :: rest).isEmpty) = true from rfl), hnext]
      rfl
    rw [hturn]
    cases chosen with
    | false => exact ⟨_, rfl, hnodup, hall, ⟨slots, hready'⟩, left, hmap ▸ hleft, hlookup⟩
    | true =>
      have hremoved : ∃ it' slots', it.remove hashCode = some it' ∧ Refines hashCode it'.map (left.erase e.1) ∧ Ready it' slots' rest := by
        rw [← hmap] at hholds
        have hfixed : it.map.fixed = false := by
          rw [hmap]
          exact hleft.1
        by_cases hfew : p.iter.map.entries ≤ 1
        · have hpos : 0 < it.map.entries := by
            rw [← hholds.entries]
            exact countP_pos_iff.mpr ⟨_, mem_of_getElem? hat, rfl⟩
          have hone : it.map.entries = 1 := by
            rw [← hmap] at hfew
            omega
          rw [hrest, entriesFrom_behind hat (hholds.entries.trans hone)]
          exact remove_last hholds hfixed hat hone
        · have hsize := (hkept rfl).resolve_right hfew
          rw [← hmap] at hsize
          obtain ⟨it', hremove, hrefines, hready''⟩ := remove_kept hholds hfixed hat hsize
          exact ⟨it', _, hremove, hrefines, hrest ▸ hready''⟩
      obtain ⟨it', slots', hremove, hrefines, hready''⟩ := hremoved
      refine ⟨_, by rw [hremove]; rfl, hnodup, hall, ⟨slots', hready''⟩, _, hrefines, fun k v => ?_⟩
      have he : ref.lookup e.1 = some e.2 := (h.all e.1 e.2).mp (mem_append_right _ mem_cons_self)
      simp only [mem_append, mem_singleton, not_or]
      by_cases hk : k = e.1
      · subst hk
        rw [Finmap.lookup_erase, he]
        refine ⟨fun hnone => (by cases hnone), fun ⟨hv, _, hne⟩ => absurd ?_ hne⟩
        rw [Option.some.injEq] at hv
        exact Prod.ext rfl hv.symm
      · rw [Finmap.lookup_erase_ne hk, hlookup]
        refine and_congr_right fun _ => (and_iff_left ?_).symm
        exact fun heq => hk (congrArg Prod.fst heq)

theorem iterator_standing (h : Refines hashCode map ref) : ∃ it rest, iterator map = some it ∧ Standing hashCode ref ⟨it, [], []⟩ rest ∧
    rest.length = map.entries := by
  have hslots : ∃ slots, map.table.getD [] = slots ∧ slots.length = map.size ∧ Distinct slots ∧
      (∀ k v, ref.lookup k = some v ↔ .entry k v ∈ slots) ∧ slots.countP Slot.isEntry = map.entries := by
    rcases h.2 with ⟨htable, hsize, -, hentries, rfl⟩ | ⟨m, slots, h⟩
    · exact ⟨[], by rw [htable]; rfl, hsize.symm, distinct_nil, contents_nil, hentries.symm⟩
    · exact ⟨slots, by rw [h.table]; rfl, h.length, h.distinct, h.contents, h.entries⟩
  obtain ⟨slots, htable, hlength, hdistinct, hcontents, hentries⟩ := hslots
  obtain ⟨it, hmove, hmap, -, hready⟩ := moveNext_spec ⟨0, 0, map⟩ htable hlength
  refine ⟨it, _, hmove, ⟨nodup_entries hdistinct, fun k v => ?_, ⟨slots, hready⟩, ref, hmap ▸ h, fun k v => by simp⟩, ?_⟩
  · exact mem_entriesFrom_zero.trans (hcontents k v).symm
  · exact (length_entriesFrom_zero slots).trans hentries

/-- A pass over a map is right if no removal of it makes the table smaller while there are other entries in it. -/
theorem pass_right (h : Refines hashCode map ref) {choices : List Bool} (hlength : choices.length = map.entries)
    (hkept : ∀ it, iterator map = some it → Meets (turn hashCode) Kept ⟨it, [], []⟩ choices) : PassRight hashCode map ref choices := by
  obtain ⟨it, rest, hit, hstart, hrest⟩ := iterator_standing h
  obtain ⟨p, hp, hend⟩ := @exec_of_meets _ _ (turn hashCode) Kept _ (fun rest _ => List.tail rest) (Standing hashCode ref) turn_standing _ _ hstart _ (hkept it hit)
  have hdone : ∀ (choices : List Bool) (rest : List (K × V)), rest.length ≤ choices.length → choices.foldl (fun rest _ => rest.tail) rest = [] := by
    intro choices
    induction choices with
    | nil => exact fun rest h => length_eq_zero_iff.mp (Nat.le_zero.mp h)
    | cons c choices ih => exact fun rest h => ih rest.tail (by rw [length_tail]; exact Nat.sub_le_of_le_add h)
  rw [hdone choices rest (Nat.le_of_eq (hrest.trans hlength.symm))] at hend
  obtain ⟨slots, hready⟩ := hend.ready
  obtain ⟨left, hleft, hlookup⟩ := hend.left
  have hnil : p.returned ++ [] = p.returned := append_nil _
  refine ⟨p, left, by rw [pass, hit]; exact hp, by rw [hready.hasNext]; rfl, hnil ▸ hend.nodup, fun k v => ?_, hleft, hlookup⟩
  rw [← hend.all, hnil]

instance (p : Pass K V) (chosen : Bool) : Decidable (Kept p chosen) :=
  inferInstanceAs (Decidable (chosen = true → _ ∨ _))

/-- Two entries in a table of four slots. -/
theorem pass_right_of_two : ∃ (map : HashMap Nat Nat) (ref : Finmap fun _ : Nat => Nat),
    ((new (ofNat 32) 1 false).bind (callAll (ofNat 32) · [Call.put 1 10, .put 2 20])).map Prod.fst = some map ∧
    Refines (ofNat 32) map ref ∧ PassRight (ofNat 32) map ref [true, false] := by
  obtain ⟨s0, hnew, h0⟩ := @new_spec Nat Nat _ (ofNat 32) 1 (by decide)
  have hroomy : (new (ofNat 32) 1 false).all (roomy (ofNat 32) · [Call.put 1 10, .put 2 20]) = true := by
    decide +kernel
  rw [hnew] at hroomy
  obtain ⟨map, hcalls, hmap⟩ := callAll_spec h0 hroomy
  have hmeets : (((new (ofNat 32) 1 false).bind (callAll (ofNat 32) · [Call.put 1 10, .put 2 20])).all fun x =>
      x.1.entries = 2 ∧ ∀ it ∈ iterator x.1, Meets (turn (ofNat 32)) Kept ⟨it, [], []⟩ [true, false]) = true := by
    decide +kernel
  rw [hnew] at hmeets
  simp only [bind_some, hcalls, all_some, decide_eq_true_eq] at hmeets
  exact ⟨map, _, by rw [hnew]; simp [hcalls], hmap, pass_right hmap hmeets.1.symm hmeets.2⟩

end

end DeepFabric.Platform.Hash
