/-
  DeepFabric.Platform.HashCalls — a hash map answers like a finite map, as long as its table
  is not too large (cxx/util/HashMap.cxx).
-/
import DeepFabric.Platform.HashRefinement

namespace DeepFabric.Platform.Hash

open Option

section

variable {K V : Type} [DecidableEq K]
variable {hashCode : K → BitVec 32} {s : HashMap K V} {ref : Finmap fun _ : K => V} {m : Nat} {slots : List (Slot K V)} {key : K}

/-! ## Calls -/

/-- A map between two calls. -/
structure Holds (hashCode : K → BitVec 32) (s : HashMap K V) (ref : Finmap fun _ : K => V) (m : Nat) (slots : List (Slot K V)) :
    Prop extends Filled hashCode s ref m slots where
  pos : 1 ≤ m
  small : m ≤ 26
  null : .null ∈ slots
  bound : s.fill + s.entries ≤ 2 * s.size

/-- A map without a table, or with one. -/
def Refines (hashCode : K → BitVec 32) (s : HashMap K V) (ref : Finmap fun _ : K => V) : Prop :=
  s.fixed = false ∧ ((s.table = none ∧ s.size = 0 ∧ s.fill = 0 ∧ s.entries = 0 ∧ ref = ∅) ∨ ∃ m slots, Holds hashCode s ref m slots)

/-- A table is made for twice as many entries as there are, or more. -/
theorem resize_holds (h : Filled hashCode s ref m slots) (hm : s.entries < 2 ^ 26) :
    ∃ s' m slots, resize hashCode s (toInt (s.entries * resizeFactor)) = some s' ∧ Holds hashCode s' ref m slots ∧ s'.fill + 1 < s'.size ∧ s'.fixed = s.fixed ∧
      s'.fill + 1 + (s'.entries + 1) ≤ 2 * s'.size := by
  have hminused : toInt (s.entries * resizeFactor) = (s.entries * 2 : Nat) := toInt_small (by rw [resizeFactor]; omega)
  obtain ⟨s', m', slots', hresize, hs', hm1, hm26, hlt, hfill, hfixed⟩ := @resize_spec K V _ hashCode s ref slots (by rw [h.table]; rfl)
    h.length h.distinct h.contents (toInt (s.entries * resizeFactor)) (by rw [hminused]; omega) (.inr (.inl (by rw [hminused, h.entries]; omega)))
  rw [hminused] at hlt
  have hsize : 4 ≤ s'.size := by
    rw [hs'.size]
    exact Nat.pow_le_pow_right (by decide : 0 < 2) (by omega : 2 ≤ m' + 1)
  have hcard : s'.entries = s.entries := hs'.card.trans h.card.symm
  rw [h.entries] at hfill
  refine ⟨s', m', slots', hresize, ⟨hs', hm1, hm26, null_mem ?_, ?_⟩, ?_, hfixed, ?_⟩
  · rw [hs'.length]
    have := hs'.used
    omega
  all_goals omega

/-- What putIndex does behind its test. -/
def findPlace (hashCode : K → BitVec 32) (s : HashMap K V) (key : K) : Option (HashMap K V × Nat) :=
  (getIndex hashCode s key true).bind fun index => s.table.bind fun table => table[index]?.bind fun x =>
    match x with
    | .entry _ _ => some (s, index)
    | _ => (getIndex hashCode s key false).bind fun index => some (s, index)

/-- Where a put finds its place, if the search for the key is stopped. -/
theorem Filled.find_place (h : Filled hashCode s ref m slots) (hstop : ∃ p ∈ slots, p.stops key true = true) :
    ∃ i p, Place hashCode ref m s.poly slots key i p ∧ findPlace hashCode s key = some (s, i) := by
  obtain ⟨i, p, hget, hat, hp⟩ := h.search_of_stops hstop
  rcases hp with ⟨w, hw, rfl⟩ | ⟨hnone, rfl⟩
  · refine ⟨i, _, ⟨hat, h.near i key w hat, .inl ⟨w, hw, rfl⟩⟩, ?_⟩
    rw [findPlace, hget, bind_some, h.table, bind_some, hat]
    rfl
  · obtain ⟨j, q, hget', hat', hno, hnear⟩ := h.search_free ⟨.null, List.mem_of_getElem? hat, rfl⟩ hnone
    refine ⟨j, q, ⟨hat', hnear, .inr ⟨hnone, hno⟩⟩, ?_⟩
    rw [findPlace, hget, bind_some, h.table, bind_some, hat]
    show ((getIndex hashCode s key false).bind fun index => some (s, index)) = some (s, j)
    rw [hget']
    rfl

/-- The table that a put would make is not too large. -/
def Room (s : HashMap K V) : Prop := 2 * s.size ≤ 3 * s.fill → s.entries < 2 ^ 26

theorem putIndex_spec (h : Holds hashCode s ref m slots) (hfixed : s.fixed = false) (hroom : Room s) (key : K) :
    ∃ s' m' slots' i p, putIndex hashCode s key = some (s', i) ∧ Holds hashCode s' ref m' slots' ∧
      Place hashCode ref m' s'.poly slots' key i p ∧ s'.fill + 1 < s'.size ∧ s'.fixed = false ∧
      s'.fill + 1 + (s'.entries + 1) ≤ 2 * s'.size := by
  have hsize := h.size
  have hbound := h.bound
  have hpos : 2 ^ 2 ≤ 2 ^ (m + 1) := Nat.pow_le_pow_right (by decide) (by have := h.pos; omega)
  have hle : 2 ^ (m + 1) ≤ 2 ^ 27 := two_pow_le h.small
  have hcheck : (toInt (s.fill * resizeHighWater) ≥ toInt (s.size * resizeFactor) ∧ s.fixed = false) ↔ 2 * s.size ≤ 3 * s.fill := by
    rw [resizeHighWater, resizeFactor, toInt_small (by omega), toInt_small (by omega)]
    constructor
    · rintro ⟨hge, -⟩
      omega
    · intro hge
      exact ⟨by omega, hfixed⟩
  -- what is left to do when there is room
  have hrest {s' : HashMap K V} {m' : Nat} {slots' : List (Slot K V)} (hs' : Holds hashCode s' ref m' slots')
      (hindex : putIndex hashCode s key = findPlace hashCode s' key) :
      ∃ i p, putIndex hashCode s key = some (s', i) ∧ Place hashCode ref m' s'.poly slots' key i p := by
    obtain ⟨i, p, hp, hfind⟩ := @Filled.find_place _ _ _ _ _ _ _ _ key hs'.toFilled ⟨.null, hs'.null, rfl⟩
    exact ⟨i, p, hindex.trans hfind, hp⟩
  by_cases hneed : 2 * s.size ≤ 3 * s.fill
  · obtain ⟨s', m', slots', hresize, hs', hfill, hfixed', hsum⟩ := resize_holds h.toFilled (hroom hneed)
    obtain ⟨i, p, hindex, hp⟩ := hrest hs' (by
      rw [putIndex, if_pos (hcheck.mpr hneed), hresize]
      rfl)
    exact ⟨s', m', slots', i, p, hindex, hs', hp, hfill, hfixed'.trans hfixed, hsum⟩
  · have hentries : s.entries ≤ s.fill := h.entries ▸ Nat.le_trans (countP_entries_le slots) h.used
    obtain ⟨i, p, hindex, hp⟩ := hrest h (by
      rw [putIndex, if_neg fun hc => hneed (hcheck.mp hc)]
      rfl)
    exact ⟨s, m, slots, i, p, hindex, h, hp, by omega, hfixed, by omega⟩

/-- The entry that a call finds. -/
def found (ref : Finmap fun _ : K => V) (key : K) : Option (K × V) := (ref.lookup key).map fun v => (key, v)

def Slot.toEntry {K V : Type} : Slot K V → Option (K × V)
  | .entry k v => some (k, v)
  | _ => none

theorem put_at {s1 s2 : HashMap K V} (hmake : (if s.table.isNone then resize hashCode s initialCapacity else some s) = some s1) {i : Nat}
    (hindex : putIndex hashCode s1 key = some (s2, i)) (htable : s2.table = some slots) {p : Slot K V} (hat : slots[i]? = some p) (val : V) :
    put hashCode s key val = some ({ s2 with
      fill := if p.isUsed then s2.fill else s2.fill + 1
      table := some (slots.set i (.entry key val))
      entries := if p.isEntry then s2.entries else s2.entries + 1 }, p.toEntry) := by
  by_cases hnone : s.table.isNone = true
  · rw [if_pos hnone] at hmake
    rw [put, if_pos hnone, hmake]
    show ((putIndex hashCode s1 key).bind fun x => _) = _
    rw [hindex]
    show ((insertObject s2 (.entry key val) i).bind fun x => _) = _
    rw [insertObject_eq htable hat]
    cases p <;> rfl
  · rw [if_neg hnone] at hmake
    cases hmake
    rw [put, if_neg hnone]
    show ((putIndex hashCode s key).bind fun x => _) = _
    rw [hindex]
    show ((insertObject s2 (.entry key val) i).bind fun x => _) = _
    rw [insertObject_eq htable hat]
    cases p <;> rfl

theorem get_at (htable : s.table = some slots) {i : Nat} (hget : getIndex hashCode s key true = some i) {p : Slot K V}
    (hat : slots[i]? = some p) : get hashCode s key = some p.toEntry := by
  rw [get, htable, if_neg (fun hnone => by cases hnone), hget]
  show (slots[i]?.bind fun x => _) = _
  rw [hat]
  cases p <;> rfl

theorem toEntry_of_place {poly i : Nat} {p : Slot K V} (hp : Place hashCode ref m poly slots key i p) : p.toEntry = found ref key := by
  rcases hp.2.2 with ⟨w, hw, rfl⟩ | ⟨hnone, hno⟩
  · rw [found, hw]
    rfl
  · rw [found, hnone]
    cases p with
    | entry => cases hno
    | null => rfl
    | reserve => rfl

theorem put_spec (h : Refines hashCode s ref) (hroom : Room s) (key : K) (val : V) :
    ∃ s', put hashCode s key val = some (s', found ref key) ∧ Refines hashCode s' (ref.insert key val) := by
  obtain ⟨hfixed, h⟩ := h
  -- a table is there, or made first
  have htabled : ∃ s' m slots, (if s.table.isNone then resize hashCode s initialCapacity else some s) = some s' ∧
      Holds hashCode s' ref m slots ∧ s'.fixed = false ∧ Room s' := by
    rcases h with ⟨htable, hsize, hfill, hentries, rfl⟩ | ⟨m, slots, h⟩
    · obtain ⟨s', m, slots, hresize, hs', hm1, hm26, hlt, hfill', hfixed'⟩ := @resize_spec K V _ hashCode s ∅ [] (by rw [htable]; rfl)
        (by rw [hsize]; rfl) distinct_nil contents_nil initialCapacity (by decide)
        (.inl rfl)
      have hfill0 : s'.fill = 0 := Nat.le_zero.mp hfill'
      have hcard : s'.entries = 0 := by rw [hs'.card, Finmap.keys_empty, Finset.card_empty]
      refine ⟨s', m, slots, ?_, ⟨hs', hm1, hm26, null_mem ?_, by omega⟩, hfixed'.trans hfixed, fun _ => by omega⟩
      · rw [htable]
        exact hresize
      · have := hs'.used
        rw [hs'.length]
        omega
    · refine ⟨s, m, slots, ?_, h, hfixed, hroom⟩
      rw [h.table]
      rfl
  obtain ⟨s1, m1, slots1, hmake, hs1, hfixed1, hroom1⟩ := htabled
  obtain ⟨s2, m2, slots2, i, p, hindex, hs2, hp, hfill2, hfixed2, hbound2⟩ := putIndex_spec hs1 hfixed1 hroom1 key
  have hput := put_at hmake hindex hs2.table hp.1 val
  -- a null slot is left, and the bound holds still
  have hholds {s' : HashMap K V} (hs' : Filled hashCode s' (ref.insert key val) m2 (slots2.set i (.entry key val)))
      (hfill' : s'.fill ≤ s2.fill + 1) (hentries' : s'.entries ≤ s2.entries + 1) (hsize' : s'.size = s2.size)
      (hfixed' : s'.fixed = s2.fixed) : Refines hashCode s' (ref.insert key val) := by
    refine ⟨hfixed'.trans hfixed2, .inr ⟨m2, _, hs', hs2.pos, hs2.small, null_mem ?_, by omega⟩⟩
    have := hs'.used
    rw [hs'.length]
    omega
  rw [hput, toEntry_of_place hp]
  refine ⟨_, rfl, hholds (hs2.set_entry hp val rfl rfl rfl rfl rfl) ?_ ?_ rfl rfl⟩
  · show (if p.isUsed then s2.fill else s2.fill + 1) ≤ s2.fill + 1
    split <;> omega
  · show (if p.isEntry then s2.entries else s2.entries + 1) ≤ s2.entries + 1
    split <;> omega

theorem get_spec (h : Refines hashCode s ref) (key : K) : get hashCode s key = some (found ref key) := by
  rcases h.2 with ⟨htable, -, -, -, rfl⟩ | ⟨m, slots, h⟩
  · rw [get, htable, found, Finmap.lookup_empty]
    rfl
  · obtain ⟨i, p, hget, hat, hp⟩ := h.search h.null key
    rw [get_at h.table hget hat, found]
    rcases hp with ⟨w, hw, rfl⟩ | ⟨hnone, rfl⟩
    · rw [hw]
      rfl
    · rw [hnone]
      rfl

theorem containsKey_spec (h : Refines hashCode s ref) (key : K) :
    containsKey hashCode s key = some (ref.lookup key).isSome := by
  rw [containsKey, get_spec h, found, map_some, isSome_map]

theorem clear_spec (h : Refines hashCode s ref) : Refines hashCode (clear s) ∅ := by
  obtain ⟨hfixed, h⟩ := h
  rcases h with ⟨htable, hsize, hfill, hentries, -⟩ | ⟨m, slots, h⟩
  · rw [clear, htable]
    exact ⟨hfixed, .inl ⟨htable, hsize, hfill, hentries, rfl⟩⟩
  · rw [clear, h.table]
    exact ⟨hfixed, .inl ⟨rfl, rfl, rfl, rfl, rfl⟩⟩

theorem shrink_spec (h : Holds hashCode s ref m slots) (hfixed : s.fixed = false) :
    ∃ s' m' slots', (if toInt (s.entries * resizeLowWater) < s.size ∧ s.fixed = false then
        resize hashCode s (toInt (s.entries * resizeFactor)) else some s) = some s' ∧
      Holds hashCode s' ref m' slots' ∧ s'.fixed = false := by
  by_cases hfew : toInt (s.entries * resizeLowWater) < s.size ∧ s.fixed = false
  · have hsize := h.size
    have hbound := h.bound
    have hle : 2 ^ (m + 1) ≤ 2 ^ 27 := two_pow_le h.small
    have hentries : s.entries ≤ s.fill := h.entries ▸ Nat.le_trans (countP_entries_le slots) h.used
    rw [if_pos hfew]
    have hlt := hfew.1
    rw [resizeLowWater, toInt_small (by omega)] at hlt
    obtain ⟨s', m', slots', hresize, hs', -, hfixed', -⟩ := resize_holds h.toFilled (by omega)
    exact ⟨s', m', slots', hresize, hs', hfixed'.trans hfixed⟩
  · rw [if_neg hfew]
    exact ⟨s, m, slots, rfl, h, hfixed⟩

omit [DecidableEq K] in
theorem ite_map_pair (c : Prop) [Decidable c] (x : Option (HashMap K V)) (s : HashMap K V) (p : Slot K V) :
    (if c then x.bind fun s => some (s, p) else some (s, p)) = ((if c then x else some s).map fun s => (s, p)) := by
  split
  · cases x <;> rfl
  · rfl

/-- The map that the entry at an index is taken out of, before it is made smaller. -/
def emptied (s : HashMap K V) (slots : List (Slot K V)) (i : Nat) : HashMap K V :=
  { s with table := some (slots.set i .reserve), entries := s.entries - 1, fill := s.fill + 1 }

theorem Holds.emptied (h : Holds hashCode s ref m slots) {i : Nat} {w : V} (hat : slots[i]? = some (.entry key w)) :
    Holds hashCode (emptied s slots i) (ref.erase key) m (slots.set i .reserve) := by
  refine ⟨h.set_reserve hat rfl rfl rfl rfl (Nat.le_succ _), h.pos, h.small, ?_, ?_⟩
  · obtain ⟨j, hj⟩ := List.mem_iff_getElem?.mp h.null
    refine List.mem_of_getElem? ((getElem?_set_slot hat).mpr (.inr ⟨?_, hj⟩))
    rintro rfl
    rw [hj] at hat
    cases hat
  · have hpos : 0 < s.entries := by
      rw [← h.entries]
      exact List.countP_pos_iff.mpr ⟨_, List.mem_of_getElem? hat, rfl⟩
    have := h.bound
    show s.fill + 1 + (s.entries - 1) ≤ 2 * s.size
    omega

theorem remove_at (htable : s.table = some slots) {i : Nat} (hget : getIndex hashCode s key true = some i) {p : Slot K V}
    (hat : slots[i]? = some p) {s1 : HashMap K V} (hs1 : s1 = if p.isEntry then Hash.emptied s slots i else s) :
    remove hashCode s key = (if toInt (s1.entries * resizeLowWater) < s1.size ∧ s1.fixed = false then
      resize hashCode s1 (toInt (s1.entries * resizeFactor)) else some s1).map fun s => (s, p.toEntry) := by
  have hobject : removeObject hashCode s i = (if toInt (s1.entries * resizeLowWater) < s1.size ∧ s1.fixed = false then
      resize hashCode s1 (toInt (s1.entries * resizeFactor)) else some s1).map fun s => (s, p) := by
    rw [removeObject, htable]
    show (slots[i]?.bind fun p => _) = _
    rw [hat, bind_some, hs1, ← ite_map_pair]
    cases p <;> rfl
  have heq : remove hashCode s key = ((removeObject hashCode s i).bind fun x =>
      match x.2 with
      | .entry k v => some (x.1, some (k, v))
      | _ => some (x.1, none)) := by
    rw [remove, htable, if_neg (fun hnone => by cases hnone), hget]
    rfl
  rw [heq, hobject, bind_map, map_eq_bind]
  cases p <;> rfl

theorem remove_spec (h : Refines hashCode s ref) (key : K) :
    ∃ s', remove hashCode s key = some (s', found ref key) ∧ Refines hashCode s' (ref.erase key) := by
  obtain ⟨hfixed, h⟩ := h
  rcases h with ⟨htable, hsize, hfill, hentries, rfl⟩ | ⟨m, slots, h⟩
  · refine ⟨s, ?_, hfixed, .inl ⟨htable, hsize, hfill, hentries, ?_⟩⟩
    · rw [remove, htable, found, Finmap.lookup_empty]
      rfl
    · exact Finmap.ext_lookup fun k => by
        by_cases hk : k = key
        · rw [hk, Finmap.lookup_erase, Finmap.lookup_empty]
        · rw [Finmap.lookup_erase_ne hk]
  · obtain ⟨i, p, hget, hat, hp⟩ := h.search h.null key
    have hremove := remove_at h.table hget hat rfl
    rcases hp with ⟨w, hw, rfl⟩ | ⟨hnone, rfl⟩
    · obtain ⟨s2, m2, slots2, hshrink, hs2, hfixed2⟩ := shrink_spec (h.emptied hat) hfixed
      refine ⟨s2, ?_, hfixed2, .inr ⟨m2, slots2, hs2⟩⟩
      rw [hremove, found, hw]
      exact congrArg _ hshrink
    · obtain ⟨s2, m2, slots2, hshrink, hs2, hfixed2⟩ := shrink_spec h hfixed
      have herase : ref.erase key = ref := Finmap.ext_lookup fun k => by
        by_cases hk : k = key
        · rw [hk, Finmap.lookup_erase, hnone]
        · rw [Finmap.lookup_erase_ne hk]
      refine ⟨s2, ?_, hfixed2, .inr ⟨m2, slots2, by rwa [herase]⟩⟩
      rw [hremove, found, hnone]
      exact congrArg _ hshrink

/-! ## Runs -/

inductive Call (K V : Type) where
  | put (key : K) (val : V)
  | remove (key : K)
  | get (key : K)
  | containsKey (key : K)
  | clear

inductive Answer (K V : Type) where
  | entry (e : Option (K × V))
  | contained (b : Bool)
  | done
  deriving DecidableEq

def call (hashCode : K → BitVec 32) (s : HashMap K V) : Call K V → Option (HashMap K V × Answer K V)
  | .put key val => (put hashCode s key val).map fun x => (x.1, .entry x.2)
  | .remove key => (remove hashCode s key).map fun x => (x.1, .entry x.2)
  | .get key => (get hashCode s key).map fun e => (s, .entry e)
  | .containsKey key => (containsKey hashCode s key).map fun b => (s, .contained b)
  | .clear => some (clear s, .done)

/-- What a finite map makes of a call. -/
def answer (ref : Finmap fun _ : K => V) : Call K V → (Finmap fun _ : K => V) × Answer K V
  | .put key val => (ref.insert key val, .entry (found ref key))
  | .remove key => (ref.erase key, .entry (found ref key))
  | .get key => (ref, .entry (found ref key))
  | .containsKey key => (ref, .contained (ref.lookup key).isSome)
  | .clear => (∅, .done)

def callAll (hashCode : K → BitVec 32) (s : HashMap K V) : List (Call K V) → Option (HashMap K V × List (Answer K V))
  | [] => some (s, [])
  | c :: cs => do
    let (s, a) ← call hashCode s c
    let (s, as) ← callAll hashCode s cs
    some (s, a :: as)

def answerAll (ref : Finmap fun _ : K => V) : List (Call K V) → (Finmap fun _ : K => V) × List (Answer K V)
  | [] => (ref, [])
  | c :: cs => ((answerAll (answer ref c).1 cs).1, (answer ref c).2 :: (answerAll (answer ref c).1 cs).2)

instance : DecidablePred (@Room K V) := fun s => inferInstanceAs (Decidable (2 * s.size ≤ 3 * s.fill → s.entries < 2 ^ 26))

/-- No put of the run makes too large a table. -/
def roomy (hashCode : K → BitVec 32) (s : HashMap K V) : List (Call K V) → Bool
  | [] => true
  | c :: cs =>
    (match c with
      | .put _ _ => decide (Room s)
      | _ => true) && (call hashCode s c).all fun x => roomy hashCode x.1 cs

theorem call_spec (h : Refines hashCode s ref) (c : Call K V) (hroom : ∀ key val, c = .put key val → Room s) :
    ∃ s', call hashCode s c = some (s', (answer ref c).2) ∧ Refines hashCode s' (answer ref c).1 := by
  cases c with
  | put key val =>
    obtain ⟨s', hput, hs'⟩ := put_spec h (hroom key val rfl) key val
    exact ⟨s', by rw [call, hput]; rfl, hs'⟩
  | remove key =>
    obtain ⟨s', hremove, hs'⟩ := remove_spec h key
    exact ⟨s', by rw [call, hremove]; rfl, hs'⟩
  | get key => exact ⟨s, by rw [call, get_spec h]; rfl, h⟩
  | containsKey key => exact ⟨s, by rw [call, containsKey_spec h]; rfl, h⟩
  | clear => exact ⟨clear s, rfl, clear_spec h⟩

theorem callAll_spec {cs : List (Call K V)} (h : Refines hashCode s ref) (hroom : roomy hashCode s cs = true) :
    ∃ s', callAll hashCode s cs = some (s', (answerAll ref cs).2) ∧ Refines hashCode s' (answerAll ref cs).1 := by
  induction cs generalizing s ref with
  | nil => exact ⟨s, rfl, h⟩
  | cons c cs ih =>
    obtain ⟨hc, hcs⟩ := Bool.and_eq_true_iff.mp hroom
    obtain ⟨s1, hcall, hs1⟩ := call_spec h c (by
      rintro key val rfl
      exact of_decide_eq_true hc)
    rw [hcall] at hcs
    obtain ⟨s', hcalls, hs'⟩ := ih hs1 hcs
    refine ⟨s', ?_, hs'⟩
    rw [callAll, hcall]
    show ((callAll hashCode s1 cs).bind fun x => _) = _
    rw [hcalls]
    rfl

/-- The initial capacity is one that a table can be made for, or one that there is none for at all. -/
theorem new_spec {cap : Int} (hcap : cap < 2 ^ 27 ∨ 2 ^ 30 ≤ cap) : ∃ s : HashMap K V, new hashCode cap false = some s ∧ Refines hashCode s ∅ := by
  by_cases hzero : cap = 0
  · exact ⟨⟨0, 0, 0, 0, 0, false, none⟩, by rw [new, if_neg (not_not_intro hzero)], rfl, .inl ⟨rfl, rfl, rfl, rfl, rfl⟩⟩
  · rcases hcap with hlt | hge
    · obtain ⟨s', m, slots, hresize, hs', hm1, hm26, -, hfill, -⟩ := @resize_spec K V _ hashCode ⟨0, 0, 0, 0, 0, false, none⟩ ∅ [] rfl rfl
        distinct_nil contents_nil cap hlt (.inl rfl)
      have hfill0 : s'.fill = 0 := Nat.le_zero.mp hfill
      have hcard : s'.entries = 0 := by rw [hs'.card, Finmap.keys_empty, Finset.card_empty]
      have hpos : 0 < s'.size := hs'.size ▸ Nat.two_pow_pos _
      refine ⟨{ s' with fixed := false }, by rw [new, if_pos hzero, hresize]; rfl, rfl, .inr ⟨m, slots, ⟨?_, hm1, hm26, null_mem ?_, ?_⟩⟩⟩
      · exact { hs' with }
      · have := hs'.used
        rw [hs'.length]
        omega
      · show s'.fill + s'.entries ≤ 2 * s'.size
        omega
    · have hnone : tableSize cap = none := by
        refine List.find?_eq_none.mpr fun p hp => ?_
        have hle : ∀ p ∈ polys.zipIdx.map fun p => (4 <<< p.2, p.1), p.1 ≤ 2 ^ 30 := by decide
        have := hle p hp
        simp only [decide_eq_true_eq]
        omega
      refine ⟨⟨0, 0, 0, 0, 0, false, none⟩, ?_, rfl, .inl ⟨rfl, rfl, rfl, rfl, rfl⟩⟩
      rw [new, if_pos hzero, resize, hnone]
      rfl

/-- A map that makes no table of more than 2^27 slots answers like a finite map, and has no key twice. -/
theorem answers_like_finite_map (hashCode : K → BitVec 32) {cap : Int} (hcap : cap < 2 ^ 27 ∨ 2 ^ 30 ≤ cap) {calls : List (Call K V)}
    (hroom : (new hashCode cap false).all (roomy hashCode · calls) = true) :
    ∃ s, (new hashCode cap false).bind (callAll hashCode · calls) = some (s, (answerAll ∅ calls).2) ∧
      s.entries = (answerAll ∅ calls).1.keys.card ∧ ∀ slots, s.table = some slots → Distinct slots := by
  obtain ⟨s0, hnew, hs0⟩ := @new_spec K V _ hashCode cap hcap
  rw [hnew] at hroom
  obtain ⟨s, hcalls, hs⟩ := callAll_spec hs0 hroom
  refine ⟨s, by rw [hnew]; exact hcalls, ?_⟩
  rcases hs.2 with ⟨htable, -, -, hentries, href⟩ | ⟨m, slots, h⟩
  · rw [hentries, href, htable]
    exact ⟨rfl, fun slots hslots => by cases hslots⟩
  · refine ⟨h.card, fun slots' hslots => ?_⟩
    rw [h.table] at hslots
    cases hslots
    exact h.distinct

theorem two_keys_are_kept : ∃ s, ((new (BitVec.ofNat 32) 1 false).bind
      (callAll (BitVec.ofNat 32) · [Call.put 1 10, .put 9 20, .put 1 30, .remove 9, .get 1, .containsKey 9]))
      = some (s, [Answer.entry none, .entry none, .entry (some (1, 10)), .entry (some (9, 20)), .entry (some (1, 30)), .contained false]) ∧
    s.entries = 1 ∧ ∀ slots, s.table = some slots → Distinct slots :=
  @answers_like_finite_map Nat Nat _ (BitVec.ofNat 32) 1 (by decide) [.put 1 10, .put 9 20, .put 1 30, .remove 9, .get 1, .containsKey 9]
    (by decide +kernel)

/-- POLYS has a polynomial for 2^29 slots, but their length in bytes is 0 as an int. -/
theorem large_table_has_no_slots : tableSize (2 ^ 28) = some (2 ^ 29, 536870912 + 5) ∧
    (new (BitVec.ofNat 32) (2 ^ 28) false).bind (callAll (BitVec.ofNat 32) · [Call.put 0 0]) = (none : Option (HashMap Nat Nat × _)) := by
  decide +kernel

end

end DeepFabric.Platform.Hash
