/-
  DeepFabric.Platform.HashRefinement — a hash map's table has the entries of a finite map
  (cxx/util/HashMap.cxx).
-/
import DeepFabric.Platform.HashCoverage
import Mathlib.Data.Finmap

namespace DeepFabric.Platform.Hash

open DeepFabric.Lib.ShiftRegister List

section

variable {K V : Type}

def Slot.isEntry : Slot K V → Bool
  | .entry _ _ => true
  | _ => false

def Slot.isUsed : Slot K V → Bool
  | .null => false
  | _ => true

variable {p : Slot K V}

theorem isUsed_of_isEntry (h : p.isEntry = true) : p.isUsed = true := by
  cases p with
  | null => exact h
  | reserve => rfl
  | entry => rfl

theorem null_mem {slots : List (Slot K V)} (h : slots.countP Slot.isUsed < slots.length) : Slot.null ∈ slots := by
  by_contra hnull
  refine Nat.ne_of_lt h (countP_eq_length.mpr fun p hp => ?_)
  cases p with
  | null => exact absurd hp hnull
  | reserve => rfl
  | entry => rfl

theorem countP_entries_le (slots : List (Slot K V)) : slots.countP Slot.isEntry ≤ slots.countP Slot.isUsed :=
  countP_mono_left fun _ _ => isUsed_of_isEntry

/-- No two slots have one key. -/
def Distinct (slots : List (Slot K V)) : Prop :=
  ∀ (i j : Nat) (k : K) (v w : V), slots[i]? = some (.entry k v) → slots[j]? = some (.entry k w) → i = j

theorem distinct_nil : Distinct ([] : List (Slot K V)) := fun _ _ _ _ _ hi => by cases hi

variable [DecidableEq K] (hashCode : K → BitVec 32)

theorem contents_nil (k : K) (v : V) : (∅ : Finmap fun _ : K => V).lookup k = some v ↔ .entry k v ∈ ([] : List (Slot K V)) := by
  rw [Finmap.lookup_empty]
  simp

/-- A search for `k` may come as far as the slot. -/
def Near (m poly : Nat) (slots : List (Slot K V)) (k : K) (i : Nat) : Prop :=
  ∃ a, path hashCode m poly k a = i ∧ ∀ d < a, slots[path hashCode m poly k d]? ≠ some .null

/-- The table of a map that has the entries of `ref`. -/
structure Filled (s : HashMap K V) (ref : Finmap fun _ : K => V) (m : Nat) (slots : List (Slot K V)) : Prop
    extends Tabled s m slots where
  distinct : Distinct slots
  near : ∀ (i : Nat) (k : K) (v : V), slots[i]? = some (.entry k v) → Near hashCode m s.poly slots k i
  contents : ∀ (k : K) (v : V), ref.lookup k = some v ↔ .entry k v ∈ slots
  card : s.entries = ref.keys.card
  entries : slots.countP Slot.isEntry = s.entries
  used : slots.countP Slot.isUsed ≤ s.fill

variable {hashCode} {s : HashMap K V} {ref : Finmap fun _ : K => V} {m : Nat} {slots : List (Slot K V)} {key : K}

/-! ## Searches -/

/-- A search with match that is stopped finds the key's entry, or a null slot. -/
theorem Filled.search_of_stops (h : Filled hashCode s ref m slots) (hstop : ∃ p ∈ slots, p.stops key true = true) :
    ∃ i p, getIndex hashCode s key true = some i ∧ slots[i]? = some p ∧
      ((∃ v, ref.lookup key = some v ∧ p = .entry key v) ∨ (ref.lookup key = none ∧ p = .null)) := by
  obtain ⟨q, hq, hqstop⟩ := hstop
  obtain ⟨a, p, hget, hat, hstop, hbefore⟩ := @getIndex_of_stops K V hashCode _ s m slots h.toTabled q hq key true hqstop
  refine ⟨_, p, hget, hat, ?_⟩
  cases p with
  | reserve => exact absurd hstop Bool.false_ne_true
  | entry k v =>
    obtain rfl : k = key := of_decide_eq_true hstop
    exact .inl ⟨v, (h.contents k v).mpr (mem_of_getElem? hat), rfl⟩
  | null =>
    refine .inr ⟨?_, rfl⟩
    cases hl : ref.lookup key with
    | none => rfl
    | some v =>
      -- the entry stops the search, and it comes before the null slot
      obtain ⟨i, hi⟩ := mem_iff_getElem?.mp ((h.contents key v).mp hl)
      obtain ⟨b, rfl, hb⟩ := h.near i key v hi
      rcases Nat.lt_trichotomy a b with hlt | rfl | hgt
      · exact absurd hat (hb a hlt)
      · rw [hi] at hat
        cases hat
      · have := hbefore b hgt _ hi
        simp [Slot.stops] at this

/-- A search with match finds the key's entry, or a null slot. -/
theorem Filled.search (h : Filled hashCode s ref m slots) (hnull : Slot.null ∈ slots) (key : K) :
    ∃ i p, getIndex hashCode s key true = some i ∧ slots[i]? = some p ∧
      ((∃ v, ref.lookup key = some v ∧ p = .entry key v) ∨ (ref.lookup key = none ∧ p = .null)) :=
  h.search_of_stops ⟨.null, hnull, rfl⟩

/-- A search without match for a new key that is stopped finds a free slot. -/
theorem Filled.search_free (h : Filled hashCode s ref m slots) (hstop : ∃ p ∈ slots, p.stops key false = true) (hnew : ref.lookup key = none) :
    ∃ i p, getIndex hashCode s key false = some i ∧ slots[i]? = some p ∧ p.isEntry = false ∧
      Near hashCode m s.poly slots key i := by
  obtain ⟨q, hq, hqstop⟩ := hstop
  obtain ⟨a, p, hget, hat, hstop, hbefore⟩ := @getIndex_of_stops K V hashCode _ s m slots h.toTabled q hq key false hqstop
  refine ⟨_, p, hget, hat, ?_, a, rfl, fun d hd hd' => Bool.noConfusion (hbefore d hd _ hd')⟩
  cases p with
  | null => rfl
  | reserve => rfl
  | entry k v =>
    obtain rfl : k = key := of_decide_eq_true hstop
    rw [(h.contents k v).mpr (mem_of_getElem? hat)] at hnew
    cases hnew

/-! ## A slot is set -/

variable {i : Nat}

omit [DecidableEq K] in
theorem countP_set_slot (f : Slot K V → Bool) (hat : slots[i]? = some p) (x : Slot K V) :
    (slots.set i x).countP f + (if f p then 1 else 0) = slots.countP f + if f x then 1 else 0 := by
  obtain ⟨hi, rfl⟩ := List.getElem?_eq_some_iff.mp hat
  have hle : (if f slots[i] then 1 else 0) ≤ slots.countP f := by
    split
    · exact countP_pos_iff.mpr ⟨_, getElem_mem hi, ‹_›⟩
    · exact Nat.zero_le _
  rw [countP_set hi]
  omega

omit [DecidableEq K] in
theorem getElem?_set_slot {j : Nat} {q : Slot K V} (hat : slots[i]? = some p) {x : Slot K V} :
    (slots.set i x)[j]? = some q ↔ j = i ∧ q = x ∨ j ≠ i ∧ slots[j]? = some q := by
  obtain ⟨hi, -⟩ := List.getElem?_eq_some_iff.mp hat
  rw [List.getElem?_set]
  by_cases hij : i = j
  · subst hij
    rw [if_pos rfl, if_pos hi]
    exact ⟨fun h => .inl ⟨rfl, (Option.some.inj h).symm⟩, fun h => h.elim (fun h => by rw [h.2]) fun h => absurd rfl h.1⟩
  · rw [if_neg hij]
    exact ⟨fun h => .inr ⟨Ne.symm hij, h⟩, fun h => h.elim (fun h => absurd h.1.symm hij) (·.2)⟩

omit [DecidableEq K] in
theorem Near.set {poly : Nat} {k : K} {j : Nat} (h : Near hashCode m poly slots k j) {x : Slot K V}
    (hat : slots[i]? = some p) (hx : x ≠ .null) : Near hashCode m poly (slots.set i x) k j := by
  obtain ⟨a, rfl, ha⟩ := h
  refine ⟨a, rfl, fun d hd hnull => ?_⟩
  rcases (getElem?_set_slot hat).mp hnull with ⟨-, heq⟩ | ⟨-, hold⟩
  · exact hx heq.symm
  · exact ha d hd hold

variable {s' : HashMap K V}

omit [DecidableEq K] in
theorem Tabled.set (h : Tabled s m slots) (i : Nat) (x : Slot K V) (htable : s'.table = some (slots.set i x))
    (hsize : s'.size = s.size) (hpoly : s'.poly = s.poly) : Tabled s' m (slots.set i x) where
  table := htable
  size := hsize.trans h.size
  length := by rw [length_set, hsize, h.length]
  generates := hpoly ▸ h.generates

theorem keys_insert (ref : Finmap fun _ : K => V) (key : K) (v : V) : (ref.insert key v).keys = insert key ref.keys := by
  refine Finset.ext fun k => ?_
  rw [Finmap.mem_keys, Finmap.mem_insert, Finset.mem_insert, Finmap.mem_keys]

/-- The slot of a key's entry, or a free slot near enough for a new key. -/
def Place (hashCode : K → BitVec 32) (ref : Finmap fun _ : K => V) (m poly : Nat) (slots : List (Slot K V)) (key : K) (i : Nat)
    (p : Slot K V) : Prop :=
  slots[i]? = some p ∧ Near hashCode m poly slots key i ∧
    ((∃ w, ref.lookup key = some w ∧ p = .entry key w) ∨ (ref.lookup key = none ∧ p.isEntry = false))

theorem Filled.set_entry (h : Filled hashCode s ref m slots) (hp : Place hashCode ref m s.poly slots key i p)
    (v : V) (htable : s'.table = some (slots.set i (.entry key v))) (hsize : s'.size = s.size)
    (hpoly : s'.poly = s.poly) (hentries : s'.entries = if p.isEntry then s.entries else s.entries + 1)
    (hfill : s'.fill = if p.isUsed then s.fill else s.fill + 1) :
    Filled hashCode s' (ref.insert key v) m (slots.set i (.entry key v)) := by
  obtain ⟨hat, hnear, hkey⟩ := hp
  -- no other slot has the key
  have hother : ∀ (j : Nat) (w : V), j ≠ i → slots[j]? ≠ some (.entry key w) := by
    intro j w hj hw
    rcases hkey with ⟨u, -, rfl⟩ | ⟨hnone, -⟩
    · exact hj (h.distinct _ _ _ _ _ hw hat)
    · rw [(h.contents key w).mpr (mem_of_getElem? hw)] at hnone
      cases hnone
  refine { toTabled := h.set i _ htable hsize hpoly, distinct := ?_, near := ?_, contents := ?_, card := ?_, entries := ?_, used := ?_ }
  · intro j j' k w w' hj hj'
    rcases (getElem?_set_slot hat).mp hj with ⟨rfl, heq⟩ | ⟨hne, hold⟩ <;>
      rcases (getElem?_set_slot hat).mp hj' with ⟨rfl, heq'⟩ | ⟨hne', hold'⟩
    · rfl
    · cases heq
      exact absurd hold' (hother j' w' hne')
    · cases heq'
      exact absurd hold (hother j w hne)
    · exact h.distinct _ _ _ _ _ hold hold'
  · intro j k w hj
    rw [hpoly]
    refine Near.set ?_ hat (fun hnull => by cases hnull)
    rcases (getElem?_set_slot hat).mp hj with ⟨rfl, heq⟩ | ⟨-, hold⟩
    · cases heq
      exact hnear
    · exact h.near j k w hold
  · intro k w
    rw [mem_iff_getElem?]
    by_cases hk : k = key
    · subst hk
      rw [Finmap.lookup_insert]
      constructor
      · intro hw
        exact ⟨i, (getElem?_set_slot hat).mpr (.inl ⟨rfl, by rw [Option.some.inj hw]⟩)⟩
      · intro ⟨j, hj⟩
        rcases (getElem?_set_slot hat).mp hj with ⟨-, heq⟩ | ⟨hne, hold⟩
        · cases heq
          rfl
        · exact absurd hold (hother j w hne)
    · rw [Finmap.lookup_insert_of_ne _ hk, h.contents k w, mem_iff_getElem?]
      constructor
      · intro ⟨j, hj⟩
        refine ⟨j, (getElem?_set_slot hat).mpr (.inr ⟨?_, hj⟩)⟩
        rintro rfl
        rw [hj] at hat
        cases hat
        rcases hkey with ⟨u, -, heq⟩ | ⟨-, hno⟩
        · cases heq
          exact hk rfl
        · cases hno
      · intro ⟨j, hj⟩
        rcases (getElem?_set_slot hat).mp hj with ⟨-, heq⟩ | ⟨-, hold⟩
        · cases heq
          exact absurd rfl hk
        · exact ⟨j, hold⟩
  · rw [hentries, keys_insert, h.card]
    rcases hkey with ⟨u, hu, rfl⟩ | ⟨hnone, hno⟩
    · rw [Finset.insert_eq_self.mpr (Finmap.mem_keys.mpr (Finmap.mem_iff.mpr ⟨u, hu⟩))]
      rfl
    · rw [Finset.card_insert_of_notMem fun hin => Finmap.lookup_eq_none.mp hnone (Finmap.mem_keys.mp hin), hno]
      rfl
  · have hcount := countP_set_slot Slot.isEntry hat (.entry key v)
    rw [hentries, ← h.entries]
    cases p with
    | entry => exact Nat.add_right_cancel hcount
    | null => exact hcount
    | reserve => exact hcount
  · have hcount := countP_set_slot Slot.isUsed hat (.entry key v)
    have hused := h.used
    rw [hfill]
    cases p with
    | null =>
      have hcount : (slots.set i (.entry key v)).countP Slot.isUsed = slots.countP Slot.isUsed + 1 := hcount
      exact hcount ▸ Nat.succ_le_succ hused
    | entry => exact (Nat.add_right_cancel hcount) ▸ hused
    | reserve => exact (Nat.add_right_cancel hcount) ▸ hused

theorem Filled.set_reserve (h : Filled hashCode s ref m slots) {w : V} (hat : slots[i]? = some (.entry key w))
    (htable : s'.table = some (slots.set i .reserve)) (hsize : s'.size = s.size) (hpoly : s'.poly = s.poly)
    (hentries : s'.entries = s.entries - 1) (hfill : s.fill ≤ s'.fill) :
    Filled hashCode s' (ref.erase key) m (slots.set i .reserve) := by
  have hmem : key ∈ ref.keys := Finmap.mem_keys.mpr (Finmap.mem_iff.mpr ⟨w, (h.contents key w).mpr (mem_of_getElem? hat)⟩)
  have hold : ∀ {j : Nat} {k : K} {v : V}, (slots.set i .reserve)[j]? = some (.entry k v) ↔ j ≠ i ∧ slots[j]? = some (.entry k v) := by
    intro j k v
    rw [getElem?_set_slot hat]
    exact ⟨fun hj => hj.elim (fun hj => by cases hj.2) id, .inr⟩
  refine { toTabled := h.set i _ htable hsize hpoly, distinct := ?_, near := ?_, contents := ?_, card := ?_, entries := ?_, used := ?_ }
  · intro j j' k v v' hj hj'
    exact h.distinct _ _ _ _ _ (hold.mp hj).2 (hold.mp hj').2
  · intro j k v hj
    rw [hpoly]
    exact (h.near j k v (hold.mp hj).2).set hat fun hnull => by cases hnull
  · intro k v
    rw [mem_iff_getElem?]
    by_cases hk : k = key
    · subst hk
      rw [Finmap.lookup_erase]
      refine ⟨fun hnone => (by cases hnone), fun ⟨j, hj⟩ => ?_⟩
      exact absurd (h.distinct _ _ _ _ _ (hold.mp hj).2 hat) (hold.mp hj).1
    · rw [Finmap.lookup_erase_ne hk, h.contents k v, mem_iff_getElem?]
      refine ⟨fun ⟨j, hj⟩ => ⟨j, hold.mpr ⟨?_, hj⟩⟩, fun ⟨j, hj⟩ => ⟨j, (hold.mp hj).2⟩⟩
      rintro rfl
      rw [hj] at hat
      cases hat
      exact hk rfl
  · rw [hentries, Finmap.keys_erase, Finset.card_erase_of_mem hmem, h.card]
  · have hcount := countP_set_slot Slot.isEntry hat .reserve
    have hcount : (slots.set i .reserve).countP Slot.isEntry + 1 = slots.countP Slot.isEntry := hcount
    rw [hentries, ← h.entries]
    omega
  · have hcount := countP_set_slot Slot.isUsed hat .reserve
    exact (Nat.add_right_cancel hcount) ▸ Nat.le_trans h.used hfill

/-! ## A resize -/

theorem toInt_small {n : Nat} (h : n < 2 ^ 31) : toInt n = n := by
  rw [toInt, Nat.mod_eq_of_lt (by omega), if_pos h]
  omega

theorem two_pow_le {m : Nat} (h : m ≤ 26) : 2 ^ (m + 1) ≤ 2 ^ 27 := Nat.pow_le_pow_right (by decide) (Nat.succ_le_succ h)

theorem tableSize_spec {minused : Int} (h : minused < 2 ^ 27) :
    ∃ m poly, tableSize minused = some (2 ^ (m + 1), poly) ∧ Generates m poly ∧ 1 ≤ m ∧ m ≤ 26 ∧ minused < 2 ^ (m + 1) := by
  cases hf : tableSize minused with
  | none =>
    have := tableSize_none hf
    omega
  | some b =>
    obtain ⟨i, -, rfl, hlt, hbefore⟩ := tableSize_some hf
    have hi : i < 26 := by
      by_contra hge
      have := hbefore 25 (by omega)
      omega
    exact ⟨i + 1, _, rfl, polys_generate hi, by omega, by omega, by exact_mod_cast hlt⟩

omit [DecidableEq K] in
theorem malloc_spec {m : Nat} (h : m ≤ 26) : malloc (2 ^ (m + 1)) = some (List.replicate (2 ^ (m + 1)) (.null : Slot K V)) := by
  have hle : 2 ^ (m + 1) ≤ 2 ^ 27 := two_pow_le h
  rw [malloc, toInt_small (by omega), if_neg (by omega)]
  have hdiv : ((2 ^ (m + 1) * 8 : Nat) / 8 : Int).toNat = 2 ^ (m + 1) := by omega
  rw [hdiv]

theorem filled_nulls {s : HashMap K V} {poly : Nat} (hgen : Generates m poly) (htable : s.table = some (List.replicate (2 ^ (m + 1)) .null))
    (hsize : s.size = 2 ^ (m + 1)) (hpoly : s.poly = poly) (hentries : s.entries = 0) :
    Filled hashCode s ∅ m (List.replicate (2 ^ (m + 1)) .null) := by
  have hno (i : Nat) (k : K) (v : V) : (List.replicate (2 ^ (m + 1)) (.null : Slot K V))[i]? ≠ some (.entry k v) := by
    intro hi
    have := eq_of_mem_replicate (mem_of_getElem? hi)
    cases this
  refine { table := htable, size := hsize, length := ?_, generates := hpoly ▸ hgen, distinct := ?_, near := ?_, contents := ?_,
           card := ?_, entries := ?_, used := ?_ }
  · rw [length_replicate, hsize]
  · intro i j k v w hi
    exact absurd hi (hno i k v)
  · intro i k v hi
    exact absurd hi (hno i k v)
  · intro k v
    rw [Finmap.lookup_empty]
    refine ⟨fun h => (by cases h), fun h => ?_⟩
    obtain ⟨i, hi⟩ := mem_iff_getElem?.mp h
    exact absurd hi (hno i k v)
  · rw [hentries, Finmap.keys_empty, Finset.card_empty]
  · rw [hentries, countP_replicate]
    rfl
  · rw [countP_replicate]
    exact Nat.zero_le _

omit [DecidableEq K] in
theorem insertObject_eq (htable : s.table = some slots) (hat : slots[i]? = some p) (x : Slot K V) :
    insertObject s x i
      = some ({ s with fill := if p.isUsed then s.fill else s.fill + 1, table := some (slots.set i x), entries := s.entries + 1 }, p) := by
  rw [insertObject, htable]
  show (slots[i]?.bind fun o => _) = _
  rw [hat]
  cases p <;> rfl

theorem insertObject_spec (h : Filled hashCode s ref m slots) (hp : Place hashCode ref m s.poly slots key i p)
    (hnew : ref.lookup key = none) (v : V) :
    ∃ s', insertObject s (.entry key v) i = some (s', p) ∧ Filled hashCode s' (ref.insert key v) m (slots.set i (.entry key v)) ∧
      s'.fill ≤ s.fill + 1 ∧ s'.size = s.size ∧ s'.fixed = s.fixed := by
  have hno : p.isEntry = false := by
    rcases hp.2.2 with ⟨w, hw, -⟩ | ⟨-, hno⟩
    · rw [hw] at hnew
      cases hnew
    · exact hno
  refine ⟨_, insertObject_eq h.table hp.1 _, h.set_entry hp v rfl rfl rfl ?_ rfl, ?_, rfl, rfl⟩
  · rw [hno]
    rfl
  · show (if p.isUsed then s.fill else s.fill + 1) ≤ s.fill + 1
    split <;> omega

theorem moveObject_spec (h : Filled hashCode s ref m slots) (hstop : ∃ p ∈ slots, p.stops key false = true) (hnew : ref.lookup key = none) (v : V) :
    ∃ s' slots', moveObject hashCode s (.entry key v) = some s' ∧ Filled hashCode s' (ref.insert key v) m slots' ∧
      s'.fill ≤ s.fill + 1 ∧ s'.size = s.size ∧ s'.fixed = s.fixed := by
  obtain ⟨i, p, hget, hat, hno, hnear⟩ := h.search_free hstop hnew
  obtain ⟨s', hinsert, hs', hrest⟩ := insertObject_spec h ⟨hat, hnear, .inr ⟨hnew, hno⟩⟩ hnew v
  refine ⟨s', _, ?_, hs', hrest⟩
  show ((getIndex hashCode s key false).bind fun i => (insertObject s (.entry key v) i).bind fun x => some x.1) = some s'
  rw [hget, Option.bind_some, hinsert, Option.bind_some]

/-- The entries of `old` are moved into a table that has room for them, or all find a place there. -/
theorem moveAll_spec {old : List (Slot K V)} (hold : old.Pairwise fun p q => ∀ k v w, p = .entry k v → q ≠ .entry k w)
    (h : Filled hashCode s ref m slots) (hnew : ∀ k v, .entry k v ∈ old → ref.lookup k = none)
    (hroom : s.fill + old.countP Slot.isEntry < s.size ∨ (old.foldlM (moveObject hashCode) s).isSome) :
    ∃ s' ref' slots', old.foldlM (moveObject hashCode) s = some s' ∧ Filled hashCode s' ref' m slots' ∧
      (∀ k v, ref'.lookup k = some v ↔ ref.lookup k = some v ∨ .entry k v ∈ old) ∧
      s'.fill ≤ s.fill + old.countP Slot.isEntry ∧ s'.size = s.size ∧ s'.fixed = s.fixed := by
  induction old generalizing s ref slots with
  | nil =>
    refine ⟨s, ref, slots, rfl, h, fun k v => ?_, Nat.le_refl _, rfl, rfl⟩
    simp
  | cons p old ih =>
    obtain ⟨hp, hlater⟩ := pairwise_cons.mp hold
    -- nothing is done with a slot that has no entry
    have hskip (hmove : moveObject hashCode s p = some s) (hno : p.isEntry = false) (hnot : ∀ k v, .entry k v ≠ p) :
        ∃ s' ref' slots', (p :: old).foldlM (moveObject hashCode) s = some s' ∧ Filled hashCode s' ref' m slots' ∧
          (∀ k v, ref'.lookup k = some v ↔ ref.lookup k = some v ∨ .entry k v ∈ p :: old) ∧
          s'.fill ≤ s.fill + (p :: old).countP Slot.isEntry ∧ s'.size = s.size ∧ s'.fixed = s.fixed := by
      have hcount : (p :: old).countP Slot.isEntry = old.countP Slot.isEntry := countP_cons_of_neg (by rw [hno]; exact Bool.false_ne_true)
      rw [foldlM_cons, hmove] at hroom
      rw [hcount] at hroom ⊢
      obtain ⟨s', ref', slots', hrun, hs', hl, hrest⟩ := ih hlater h (fun k v hm => hnew k v (mem_cons_of_mem _ hm)) hroom
      refine ⟨s', ref', slots', ?_, hs', fun k v => ?_, hrest⟩
      · rw [foldlM_cons, hmove]
        exact hrun
      · rw [hl, mem_cons]
        exact ⟨fun hm => hm.imp id .inr, fun hm => hm.imp id fun hm => hm.resolve_left (hnot k v)⟩
    cases p with
    | null => exact hskip rfl rfl fun k v heq => by cases heq
    | reserve => exact hskip rfl rfl fun k v heq => by cases heq
    | entry key w =>
      have hcount : (Slot.entry key w :: old).countP Slot.isEntry = old.countP Slot.isEntry + 1 := countP_cons_of_pos rfl
      rw [hcount] at hroom ⊢
      have hstop : ∃ p ∈ slots, p.stops key false = true := by
        rcases hroom with hroom | hsome
        · refine ⟨.null, null_mem ?_, rfl⟩
          have := h.used
          rw [h.length]
          omega
        · obtain ⟨s', hrun⟩ := Option.isSome_iff_exists.mp hsome
          rw [foldlM_cons] at hrun
          obtain ⟨s1, hmove, -⟩ := Option.bind_eq_some_iff.mp hrun
          obtain ⟨i, hget, -⟩ := Option.bind_eq_some_iff.mp hmove
          exact (getIndex_ends_iff h.toTabled key false).mp (by rw [hget]; rfl)
      have hfresh := hnew key w mem_cons_self
      obtain ⟨s1, slots1, hmove, hs1, hfill, hsize, hfixed⟩ := moveObject_spec h hstop hfresh w
      obtain ⟨s', ref', slots', hrun, hs', hl, hfill', hsize', hfixed'⟩ := ih hlater hs1 (fun k v hm => by
        have hne : k ≠ key := by
          rintro rfl
          exact hp _ hm k w v rfl rfl
        rw [Finmap.lookup_insert_of_ne _ hne]
        exact hnew k v (mem_cons_of_mem _ hm)) (hroom.imp (fun hroom => by omega) fun hsome => by rwa [foldlM_cons, hmove] at hsome)
      refine ⟨s', ref', slots', ?_, hs', fun k v => ?_, by omega, hsize'.trans hsize, hfixed'.trans hfixed⟩
      · rw [foldlM_cons, hmove]
        exact hrun
      · rw [hl, mem_cons]
        by_cases hk : k = key
        · subst hk
          rw [Finmap.lookup_insert, hfresh]
          constructor
          · rintro (heq | hm)
            · cases heq
              exact .inr (.inl rfl)
            · exact .inr (.inr hm)
          · rintro (heq | heq | hm)
            · cases heq
            · cases heq
              exact .inl rfl
            · exact .inr hm
        · rw [Finmap.lookup_insert_of_ne _ hk]
          refine or_congr_right ⟨.inr, fun hm => hm.resolve_left fun heq => ?_⟩
          cases heq
          exact hk rfl

/-- A resize keeps the entries, and leaves nothing else behind. -/
theorem resize_spec {old : List (Slot K V)} (htable : s.table.getD [] = old) (hlen : old.length = s.size) (hold : Distinct old)
    (hcontents : ∀ k v, ref.lookup k = some v ↔ .entry k v ∈ old) {minused : Int} (hm : minused < 2 ^ 27)
    (hroom : old.countP Slot.isEntry = 0 ∨ (old.countP Slot.isEntry : Int) ≤ minused ∨ (resize hashCode s minused).isSome) :
    ∃ s' m slots', resize hashCode s minused = some s' ∧ Filled hashCode s' ref m slots' ∧ 1 ≤ m ∧ m ≤ 26 ∧ minused < s'.size ∧
      s'.fill ≤ old.countP Slot.isEntry ∧ s'.fixed = s.fixed := by
  obtain ⟨m, poly, hsize, hgen, hm1, hm26, hlt⟩ := tableSize_spec hm
  let new : HashMap K V := { s with capacity := 2 ^ (m + 1), fill := 0, entries := 0, size := 2 ^ (m + 1), poly := poly,
                                    table := some (List.replicate (2 ^ (m + 1)) .null) }
  have hpair : old.Pairwise fun p q => ∀ k v w, p = .entry k v → q ≠ .entry k w := by
    refine pairwise_iff_getElem.mpr fun i j hi hj hij k v w hp hq => Nat.ne_of_lt hij (hold i j k v w ?_ ?_)
    · rw [List.getElem?_eq_getElem hi, hp]
    · rw [List.getElem?_eq_getElem hj, hq]
  have hpos : 0 < 2 ^ (m + 1) := Nat.two_pow_pos _
  have hrun : resize hashCode s minused = old.foldlM (moveObject hashCode) new := by
    rw [resize, hsize]
    show ((malloc (2 ^ (m + 1))).bind fun table =>
        if (s.table.getD []).length < s.size then none
        else ((s.table.getD []).take s.size).foldlM (moveObject hashCode) { new with table := some table }) = _
    rw [malloc_spec hm26, Option.bind_some, htable, ← hlen, if_neg (Nat.lt_irrefl _), take_length]
  obtain ⟨s', ref', slots', hall, hs', hl, hfill, hsize', hfixed⟩ := moveAll_spec hpair
    (@filled_nulls K V _ hashCode m new poly hgen rfl rfl rfl rfl) (fun k v _ => Finmap.lookup_empty k) (by
      show 0 + old.countP Slot.isEntry < 2 ^ (m + 1) ∨ _
      rcases hroom with hzero | hle | hsome
      · omega
      · have : ((old.countP Slot.isEntry : Nat) : Int) < (2 ^ (m + 1) : Nat) := Int.lt_of_le_of_lt hle (by exact_mod_cast hlt)
        omega
      · exact .inr (hrun ▸ hsome))
  have href : ref' = ref := Finmap.ext_lookup fun k => Option.ext fun v => by
    rw [hl, Finmap.lookup_empty, hcontents]
    exact ⟨fun h => h.resolve_left fun h => (by cases h), .inr⟩
  refine ⟨s', m, slots', hrun.trans hall, href ▸ hs', hm1, hm26, ?_, ?_, hfixed⟩
  · rw [hsize']
    exact_mod_cast hlt
  · exact Nat.le_trans hfill (Nat.le_of_eq (Nat.zero_add _))

end

end DeepFabric.Platform.Hash
