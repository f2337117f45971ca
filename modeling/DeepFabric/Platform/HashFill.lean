/-
  DeepFabric.Platform.HashFill — how many slots of a hash map are used (cxx/util/HashMap.cxx).

  m_fill is to say how many slots are not null, m_entries how many of them have an entry. A put
  makes the table anew if two thirds of the slots are used, by m_fill. The run is one of `put`,
  `remove`, `clear` and `resize`; nothing comes of a call that does not return.

  - `counters_right`: in every run in which an entry is removed only where the table is made anew
    behind it, and no table of 2^30 slots is made, the counters are right and so is the test.

  As built:
  - `removed_twice_counted`: a removal counts the slot that it leaves behind, which was counted when
    the entry was put, and the next put makes the table anew though half of its slots are null.
-/
import DeepFabric.Lib.Run
import DeepFabric.Platform.HashCalls

namespace DeepFabric.Platform.Hash

open DeepFabric.Lib.Run List Option

section

variable {K V : Type} [DecidableEq K]

def HashMap.slots (s : HashMap K V) : List (Slot K V) := s.table.getD []

inductive Event (K V : Type) where
  | put (key : K) (val : V)
  | remove (key : K)
  | clear
  | resize (minused : Int)

def step (hashCode : K → BitVec 32) (s : HashMap K V) : Event K V → Option (HashMap K V)
  | .put key val => (put hashCode s key val).map Prod.fst
  | .remove key => (remove hashCode s key).map Prod.fst
  | .clear => some (clear s)
  | .resize minused => resize hashCode s minused

/-- The test of putIndex. -/
def overloaded (s : HashMap K V) : Prop := toInt (s.fill * resizeHighWater) ≥ toInt (s.size * resizeFactor)

structure Right (s : HashMap K V) : Prop where
  fill : s.fill = s.slots.countP Slot.isUsed
  entries : s.entries = s.slots.countP Slot.isEntry
  test : overloaded s ↔ 2 * s.size ≤ 3 * s.slots.countP Slot.isUsed

def has (s : HashMap K V) (key : K) : Bool := s.slots.any fun p => p.isEntry && p.stops key true

/-- A removal that finds the key makes the table anew, and no table of 2^30 slots is asked for. -/
def Counted (s : HashMap K V) : Event K V → Prop
  | .remove key => has s key = true → toInt ((s.entries - 1) * resizeLowWater) < s.size ∧ s.fixed = false
  | .resize minused => ¬(2 ^ 29 ≤ minused ∧ minused < 2 ^ 30)
  | _ => True

instance (s : HashMap K V) : (e : Event K V) → Decidable (Counted s e)
  | .put _ _ => .isTrue trivial
  | .remove key => inferInstanceAs (Decidable (has s key = true → _ ∧ _))
  | .clear => .isTrue trivial
  | .resize _ => inferInstanceAs (Decidable ¬(_ ∧ _))

/-! ## As built -/

/-- The state of a map of natural numbers after some events. -/
def after (step : HashMap Nat Nat → Event Nat Nat → Option (HashMap Nat Nat)) (events : List (Event Nat Nat)) : Option (HashMap Nat Nat) :=
  (new (BitVec.ofNat 32) 1 false).bind (exec step · events)

theorem removed_twice_counted : ∃ s, after (step (BitVec.ofNat 32)) [.put 1 10, .put 2 20, .remove 1] = some s ∧ overloaded s ∧ ¬Right s := by
  have hrun : (after (step (BitVec.ofNat 32)) [.put 1 10, .put 2 20, .remove 1]).any (fun s => s.fill = 3 ∧ s.size = 4 ∧
    s.slots.countP Slot.isUsed = 2) = true := by decide +kernel
  obtain ⟨s, hs, hcounts⟩ := (any_eq_true _ _).mp hrun
  obtain ⟨hfill, hsize, hused⟩ := of_decide_eq_true hcounts
  refine ⟨s, hs, by rw [overloaded, hfill, hsize]; decide, fun h => ?_⟩
  rw [h.fill, hused] at hfill
  cases hfill

/-! ## Tables -/

variable {hashCode : K → BitVec 32} {s s' : HashMap K V} {ref : Finmap fun _ : K => V} {m : Nat} {slots : List (Slot K V)} {key : K}

/-- A map without a table, with one in which the used slots are counted, or with one for which malloc was asked for no bytes. -/
def Exact (hashCode : K → BitVec 32) (s : HashMap K V) : Prop :=
  (s.table = none ∧ s.size = 0 ∧ s.fill = 0 ∧ s.entries = 0) ∨
    (∃ ref m slots, Filled hashCode s ref m slots ∧ m ≤ 26 ∧ s.fill = slots.countP Slot.isUsed) ∨
    (s.table = some [] ∧ s.size = 2 ^ 29 ∧ s.fill = 0 ∧ s.entries = 0)

theorem Exact.right (h : Exact hashCode s) : Right s := by
  rcases h with ⟨htable, hsize, hfill, hentries⟩ | ⟨ref, m, slots, h, hm, hfill⟩ | ⟨htable, hsize, hfill, hentries⟩
  · have hslots : s.slots = [] := by rw [HashMap.slots, htable]; rfl
    refine ⟨by rw [hfill, hslots]; rfl, by rw [hentries, hslots]; rfl, ?_⟩
    rw [overloaded, hsize, hfill]
    simp
  · have hslots : s.slots = slots := by rw [HashMap.slots, h.table]; rfl
    refine ⟨by rw [hfill, hslots], by rw [hslots, h.entries], ?_⟩
    have hle : 2 ^ (m + 1) ≤ 2 ^ 27 := two_pow_le hm
    have hused : slots.countP Slot.isUsed ≤ slots.length := countP_le_length
    have hlength := h.length
    have hsize := h.size
    rw [overloaded, hslots, resizeHighWater, resizeFactor, toInt_small (by omega), toInt_small (by omega)]
    omega
  · have hslots : s.slots = [] := by rw [HashMap.slots, htable]; rfl
    refine ⟨by rw [hfill, hslots]; rfl, by rw [hentries, hslots]; rfl, ?_⟩
    have hslots0 : s.slots.countP Slot.isUsed = 0 := by rw [hslots]; rfl
    rw [overloaded, hsize, hfill, hslots0]
    decide

/-- Behind 2^27 slots there is no table for a polynomial, or malloc is asked for a negative number of bytes, or for none. -/
theorem tableSize_large {minused : Int} (h : 2 ^ 27 ≤ minused) (hm : ¬(2 ^ 29 ≤ minused ∧ minused < 2 ^ 30)) :
    (2 ^ 30 ≤ minused ∧ tableSize minused = none) ∨ ∃ size poly, tableSize minused = some (size, poly) ∧ (size = 2 ^ 28 ∨ size = 2 ^ 29) := by
  cases hf : tableSize minused with
  | none => exact .inl ⟨tableSize_none hf, rfl⟩
  | some b =>
    obtain ⟨i, hi, rfl, hlt, hbefore⟩ := tableSize_some hf
    refine .inr ⟨_, _, rfl, ?_⟩
    have hge : 26 ≤ i := by
      by_contra hge
      have hle : 2 ^ (i + 2) ≤ 2 ^ 27 := Nat.pow_le_pow_right (by decide) (by omega)
      omega
    obtain rfl | rfl | rfl : i = 26 ∨ i = 27 ∨ i = 28 := by omega
    · exact .inl rfl
    · exact .inr rfl
    · have := hbefore 27 (by decide)
      omega

theorem moveAll_nil {old : List (Slot K V)} (htable : s.table = some []) (hrun : old.foldlM (moveObject hashCode) s = some s') : s' = s := by
  induction old with
  | nil => exact (Option.some.inj hrun).symm
  | cons p old ih =>
    cases p with
    | null => exact ih hrun
    | reserve => exact ih hrun
    | entry key v =>
      have hnone : getIndex hashCode s key false = none := by rw [getIndex, htable]; rfl
      rw [foldlM_cons, moveObject, hnone] at hrun
      cases hrun

theorem resize_exact {old : List (Slot K V)} (htable : s.table.getD [] = old) (hlen : old.length = s.size) (hold : Distinct old)
    (hcontents : ∀ k v, ref.lookup k = some v ↔ .entry k v ∈ old) (hcard : old.countP Slot.isEntry = ref.keys.card) {minused : Int}
    (hm : ¬(2 ^ 29 ≤ minused ∧ minused < 2 ^ 30)) (hresize : resize hashCode s minused = some s') :
    (2 ^ 30 ≤ minused ∧ s' = s) ∨ Exact hashCode s' := by
  by_cases hlt : minused < 2 ^ 27
  · obtain ⟨s₁, m, slots, hrun, hs', -, hm26, -, hfill, -⟩ := resize_spec htable hlen hold hcontents hlt (.inr (.inr (by rw [hresize]; rfl)))
    cases hrun.symm.trans hresize
    have hle := countP_entries_le slots
    rw [hcard, ← hs'.card, ← hs'.entries] at hfill
    exact .inr (.inr (.inl ⟨ref, m, slots, hs', hm26, Nat.le_antisymm (hfill.trans hle) hs'.used⟩))
  · rcases tableSize_large (not_lt.mp hlt) hm with ⟨hge, hnone⟩ | ⟨size, poly, hsize, hbytes⟩
    · rw [resize, hnone] at hresize
      cases hresize
      exact .inl ⟨hge, rfl⟩
    · rw [resize, hsize] at hresize
      obtain ⟨table, htable', hresize⟩ := bind_eq_some_iff.mp hresize
      rcases hbytes with rfl | rfl
      · cases htable'
      · have hnil : table = [] := (Option.some.inj htable').symm
        subst hnil
        dsimp only at hresize
        rw [htable, ← hlen, if_neg (Nat.lt_irrefl _)] at hresize
        obtain rfl := moveAll_nil rfl hresize
        exact .inr (.inr (.inr ⟨rfl, rfl, rfl, rfl⟩))

theorem Filled.resize_exact (h : Filled hashCode s ref m slots) {minused : Int} (hm : ¬(2 ^ 29 ≤ minused ∧ minused < 2 ^ 30))
    (hresize : resize hashCode s minused = some s') : (2 ^ 30 ≤ minused ∧ s' = s) ∨ Exact hashCode s' :=
  Hash.resize_exact (by rw [h.table]; rfl) h.length h.distinct h.contents (h.entries.trans h.card) hm hresize

theorem Filled.rehash_exact (h : Filled hashCode s ref m slots) (hm : m ≤ 26) (hresize : resize hashCode s (toInt (s.entries * resizeFactor)) = some s') :
    Exact hashCode s' := by
  have hle : 2 ^ (m + 1) ≤ 2 ^ 27 := two_pow_le hm
  have hentries : slots.countP Slot.isEntry ≤ slots.length := countP_le_length
  rw [h.entries, h.length, h.size] at hentries
  have hminused : toInt (s.entries * resizeFactor) = (s.entries * 2 : Nat) := toInt_small (by rw [resizeFactor]; omega)
  rw [hminused] at hresize
  exact (h.resize_exact (by omega) hresize).resolve_left fun hlarge => by omega

/-! ## Steps -/

theorem getIndex_none {match_ : Bool} (h : s.table = none ∨ s.table = some []) : getIndex hashCode s key match_ = none := by
  rcases h with h | h <;> rw [getIndex, h] <;> rfl

theorem Exact.resize (h : Exact hashCode s) {minused : Int} (hm : ¬(2 ^ 29 ≤ minused ∧ minused < 2 ^ 30))
    (hresize : resize hashCode s minused = some s') : Exact hashCode s' := by
  have hsame (hend : (2 ^ 30 ≤ minused ∧ s' = s) ∨ Exact hashCode s') : Exact hashCode s' := hend.elim (fun hs => hs.2 ▸ h) id
  rcases h with ⟨htable, hsize, -⟩ | ⟨ref, m, slots, hfilled, -⟩ | ⟨htable, hsize, -⟩
  · refine hsame (@Hash.resize_exact _ _ _ hashCode s s' ∅ [] (by rw [htable]; rfl) hsize.symm distinct_nil contents_nil rfl _ hm hresize)
  · exact hsame (hfilled.resize_exact hm hresize)
  · rw [Hash.resize] at hresize
    split at hresize
    · cases hresize
      exact hsame (.inl ⟨tableSize_none ‹_›, rfl⟩)
    · obtain ⟨table, -, hresize⟩ := bind_eq_some_iff.mp hresize
      have hshort : (([] : List (Slot K V)).length < s.size) := hsize ▸ Nat.two_pow_pos 29
      rw [htable] at hresize
      cases (if_pos hshort).symm.trans hresize

theorem Exact.rehash (h : Exact hashCode s) (hresize : Hash.resize hashCode s (toInt (s.entries * resizeFactor)) = some s') : Exact hashCode s' := by
  have hzero (hentries : s.entries = 0) : ¬(2 ^ 29 ≤ toInt (s.entries * resizeFactor) ∧ toInt (s.entries * resizeFactor) < 2 ^ 30) := by
    rw [hentries]
    decide
  rcases id h with ⟨-, -, -, hentries⟩ | ⟨ref, m, slots, hfilled, hm, -⟩ | ⟨-, -, -, hentries⟩
  · exact h.resize (hzero hentries) hresize
  · exact hfilled.rehash_exact hm hresize
  · exact h.resize (hzero hentries) hresize

theorem new_exact {cap : Int} {fixed : Bool} (hcap : ¬(2 ^ 29 ≤ cap ∧ cap < 2 ^ 30)) (hnew : new hashCode cap fixed = some s) : Exact hashCode s := by
  have hfix {s : HashMap K V} (h : Exact hashCode s) : Exact hashCode { s with fixed := fixed } := by
    rcases h with h | ⟨ref, m, slots, h, hrest⟩ | h
    · exact .inl h
    · exact .inr (.inl ⟨ref, m, slots, { h with }, hrest⟩)
    · exact .inr (.inr h)
  rw [new] at hnew
  split at hnew
  · obtain ⟨s₁, hresize, rfl⟩ := map_eq_some_iff.mp hnew
    exact hfix (Exact.resize (.inl ⟨rfl, rfl, rfl, rfl⟩) hcap hresize)
  · cases hnew
    exact .inl ⟨rfl, rfl, rfl, rfl⟩

/-- A put finds a place in a table in which the used slots are counted. -/
theorem putIndex_exact (h : Exact hashCode s) {i : Nat} (hindex : putIndex hashCode s key = some (s', i)) :
    ∃ ref m slots p, Filled hashCode s' ref m slots ∧ m ≤ 26 ∧ s'.fill = slots.countP Slot.isUsed ∧ Place hashCode ref m s'.poly slots key i p := by
  have hrest {s₁ : HashMap K V} (h : Exact hashCode s₁) (hindex : findPlace hashCode s₁ key = some (s', i)) :
      ∃ ref m slots p, Filled hashCode s' ref m slots ∧ m ≤ 26 ∧ s'.fill = slots.countP Slot.isUsed ∧
        Place hashCode ref m s'.poly slots key i p := by
    obtain ⟨j, hget, -⟩ := bind_eq_some_iff.mp hindex
    rcases h with ⟨htable, -⟩ | ⟨ref, m, slots, h, hm, hfill⟩ | ⟨htable, -⟩
    · rw [getIndex_none (.inl htable)] at hget
      cases hget
    · obtain ⟨i, p, hp, hfind⟩ := h.find_place ((getIndex_ends_iff h.toTabled key true).mp (by rw [hget]; rfl))
      cases hfind.symm.trans hindex
      exact ⟨ref, m, slots, p, h, hm, hfill, hp⟩
    · rw [getIndex_none (.inr htable)] at hget
      cases hget
  rw [putIndex] at hindex
  split at hindex
  · obtain ⟨s₁, hresize, hindex⟩ := bind_eq_some_iff.mp hindex
    exact hrest (h.rehash hresize) hindex
  · exact hrest h hindex

theorem put_exact (h : Exact hashCode s) {val : V} {e : Option (K × V)} (hput : put hashCode s key val = some (s', e)) : Exact hashCode s' := by
  obtain ⟨s₁, s₂, i, hmake, hs₁, hindex⟩ : ∃ s₁ s₂ i, (if s.table.isNone then resize hashCode s initialCapacity else some s) = some s₁ ∧
      Exact hashCode s₁ ∧ putIndex hashCode s₁ key = some (s₂, i) := by
    by_cases hnone : s.table.isNone = true
    · rw [put, if_pos hnone] at hput
      obtain ⟨s₁, hresize, hput⟩ := bind_eq_some_iff.mp hput
      obtain ⟨⟨s₂, i⟩, hindex, -⟩ := bind_eq_some_iff.mp hput
      exact ⟨s₁, s₂, i, by rw [if_pos hnone, hresize], h.resize (by decide) hresize, hindex⟩
    · rw [put, if_neg hnone] at hput
      obtain ⟨s₁, hsame, hput⟩ := bind_eq_some_iff.mp hput
      cases hsame
      obtain ⟨⟨s₂, i⟩, hindex, -⟩ := bind_eq_some_iff.mp hput
      exact ⟨s, s₂, i, if_neg hnone, h, hindex⟩
  obtain ⟨ref, m, slots, p, h₂, hm, hfill, hp⟩ := putIndex_exact hs₁ hindex
  rw [put_at hmake hindex h₂.table hp.1] at hput
  cases hput
  refine .inr (.inl ⟨_, m, _, h₂.set_entry hp val rfl rfl rfl rfl rfl, hm, ?_⟩)
  have hcount := countP_set_slot Slot.isUsed hp.1 (.entry key val)
  show (if p.isUsed then s₂.fill else s₂.fill + 1) = _
  cases p with
  | null => exact hfill ▸ hcount.symm
  | reserve => exact hfill.trans (Nat.add_right_cancel hcount).symm
  | entry => exact hfill.trans (Nat.add_right_cancel hcount).symm

theorem remove_exact (h : Exact hashCode s) (hcounted : has s key = true → toInt ((s.entries - 1) * resizeLowWater) < s.size ∧ s.fixed = false)
    {e : Option (K × V)} (hremove : remove hashCode s key = some (s', e)) : Exact hashCode s' := by
  rcases h with h | ⟨ref, m, slots, h, hm, hfill⟩ | h
  · rw [remove, if_pos (by rw [h.1]; rfl)] at hremove
    cases hremove
    exact .inl h
  · have hends : (getIndex hashCode s key true).isSome := by
      rw [remove, if_neg (by rw [h.table]; exact Bool.false_ne_true)] at hremove
      obtain ⟨i, hget, -⟩ := bind_eq_some_iff.mp hremove
      rw [hget]
      rfl
    obtain ⟨i, p, hget, hat, hp⟩ := h.search_of_stops ((getIndex_ends_iff h.toTabled key true).mp hends)
    rw [remove_at h.table hget hat rfl] at hremove
    obtain ⟨s₁, hshrink, heq⟩ := map_eq_some_iff.mp hremove
    cases heq
    rcases hp with ⟨w, -, rfl⟩ | ⟨-, rfl⟩
    · have hhas : has s key = true := by
        have hslots : s.slots = slots := by rw [HashMap.slots, h.table]; rfl
        rw [has, hslots]
        exact any_eq_true.mpr ⟨_, mem_of_getElem? hat, by simp [Slot.isEntry, Slot.stops]⟩
      have hanew := (if_pos (hcounted hhas)).symm.trans hshrink
      have hemptied : Filled hashCode (emptied s slots i) (ref.erase key) m (slots.set i .reserve) :=
        h.set_reserve hat rfl rfl rfl rfl (Nat.le_succ _)
      exact hemptied.rehash_exact hm hanew
    · change (if toInt (s.entries * resizeLowWater) < s.size ∧ s.fixed = false then _ else some s) = some s' at hshrink
      split at hshrink
      · exact h.rehash_exact hm hshrink
      · cases hshrink
        exact .inr (.inl ⟨ref, m, slots, h, hm, hfill⟩)
  · rw [remove, if_neg (by rw [h.1]; exact Bool.false_ne_true), getIndex_none (.inr h.1)] at hremove
    cases hremove

theorem step_exact {e : Event K V} (h : Exact hashCode s) (hcounted : Counted s e) (hstep : step hashCode s e = some s') : Exact hashCode s' := by
  cases e with
  | put key val =>
    obtain ⟨⟨_, e⟩, hput, rfl⟩ := map_eq_some_iff.mp hstep
    exact put_exact h hput
  | remove key =>
    obtain ⟨⟨_, e⟩, hremove, rfl⟩ := map_eq_some_iff.mp hstep
    exact remove_exact h hcounted hremove
  | clear =>
    cases hstep
    rw [clear]
    split
    · exact h
    · exact .inl ⟨rfl, rfl, rfl, rfl⟩
  | resize minused => exact h.resize hcounted hstep

/-- In every state that is reached, the counters are right. -/
theorem counters_right (hashCode : K → BitVec 32) {cap : Int} {fixed : Bool} (hcap : ¬(2 ^ 29 ≤ cap ∧ cap < 2 ^ 30)) {s₀ s : HashMap K V}
    (hnew : new hashCode cap fixed = some s₀) (h : Reach (step hashCode) Counted s₀ s) : Right s :=
  (h.inv (new_exact hcap hnew) step_exact).right

theorem counters_right_when_emptied :
    ∃ s, after (guarded (step (BitVec.ofNat 32)) Counted) [.put 1 10, .remove 1, .put 2 20] = some s ∧ Right s := by
  have hrun : (after (guarded (step (BitVec.ofNat 32)) Counted) [.put 1 10, .remove 1, .put 2 20]).isSome := by decide +kernel
  obtain ⟨s, hs⟩ := isSome_iff_exists.mp hrun
  obtain ⟨s₀, hnew, hexec⟩ := bind_eq_some_iff.mp hs
  exact ⟨s, hs, counters_right _ (by decide) hnew (reach_of_exec_guarded _ hexec)⟩

end

end DeepFabric.Platform.Hash
