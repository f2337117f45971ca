/-
  DeepFabric.Platform.HashCoverage — a search passes every slot of its table (cxx/util/HashMap.cxx).

  resize takes the size of a table and its polynomial from POLYS, from 4 slots up to 2^30, whether
  the table can be allocated or not.
-/
import DeepFabric.Platform.HashProbe

namespace DeepFabric.Platform.Hash

open DeepFabric.Lib.ShiftRegister

/-! ## All of POLYS -/

/-- The prime factors of 2^28 - 1, 2^29 - 1 and 2^30 - 1. -/
def largeFactors : List (List Nat) := [[3, 5, 29, 43, 113, 127], [233, 1103, 2089], [3, 3, 7, 11, 31, 151, 331]]

theorem largeFactors_prime : ∀ qs ∈ largeFactors, ∀ q ∈ qs, q.Prime := by
  simp only [largeFactors, List.forall_mem_cons]
  norm_num

theorem large_polys_primitive : ∀ i : Fin 3, primitive (i + 27) (polys.getD (i + 26) 0) (largeFactors.getD i []) = true := by
  decide +kernel

theorem polys_generate_all {i : Nat} (h : i < 29) : Generates (i + 1) (polys.getD i 0) := by
  by_cases hsmall : i < 26
  · exact polys_generate hsmall
  · obtain ⟨j, rfl⟩ := Nat.exists_eq_add_of_le' (Nat.le_of_not_lt hsmall)
    have hj : j < 3 := by omega
    refine generates_of_primitive (fun q hq => ?_) (large_polys_primitive ⟨j, hj⟩)
    have hmem : largeFactors.getD j [] ∈ largeFactors := by
      rw [List.getD_eq_getElem _ _ hj]
      exact List.getElem_mem hj
    exact largeFactors_prime _ hmem q hq

theorem tableSize_generates {minused : Int} {size poly : Nat} (h : tableSize minused = some (size, poly)) :
    ∃ m, size = 2 ^ (m + 1) ∧ Generates m poly := by
  obtain ⟨i, hi, heq, -⟩ := tableSize_some h
  cases heq
  exact ⟨i + 1, rfl, polys_generate_all hi⟩

/-! ## Probes -/

section

variable {K V : Type} (hashCode : K → BitVec 32)

/-- The slot of each probe of getIndex: the first slot, then one at a distance from there that is doubled and reduced at
    every turn. -/
def probeSlot (mask poly : Nat) (key : K) : Nat → Nat
  | 0 => firstIndex hashCode mask key
  | a + 1 => (firstIndex hashCode mask key + (nextIncr mask poly)^[a] (firstIncr hashCode mask poly key)) &&& mask

theorem iterate_nextIncr {m poly incr : Nat} (hp : Feedback m poly) (h : incr < 2 ^ (m + 1)) (a : Nat) :
    (nextIncr (2 ^ (m + 1) - 1) poly)^[a] incr = (advance m poly)^[a] incr := by
  induction a with
  | zero => rfl
  | succ a ih => rw [Function.iterate_succ_apply', Function.iterate_succ_apply', ih, nextIncr_eq (iterate_lt hp a h)]

theorem probeSlot_eq {m poly : Nat} (hp : Feedback m poly) (key : K) (a : Nat) :
    probeSlot hashCode (2 ^ (m + 1) - 1) poly key a = path hashCode m poly key a := by
  cases a with
  | zero => rfl
  | succ a =>
    have hlt := (firstIncr_bounds hashCode (Nat.succ_ne_zero m) poly key).2
    rw [probeSlot, iterate_nextIncr hp hlt, Nat.and_two_pow_sub_one_eq_mod]
    rfl

variable {hashCode} [DecidableEq K]

theorem probe_forever {table : List (Slot K V)} {key : K} {match_ : Bool} (h : ∀ p ∈ table, p.stops key match_ = false)
    (mask poly i turns incr : Nat) : probe table mask poly i key match_ turns incr = none := by
  induction turns generalizing incr with
  | zero => rfl
  | succ turns ih =>
    rw [probe]
    cases hp : table[(i + incr) &&& mask]? with
    | none => rfl
    | some p =>
      show (if p.stops key match_ = true then _ else _) = none
      rw [h p (List.mem_of_getElem? hp), if_neg Bool.false_ne_true]
      exact ih _

theorem getIndex_ends_iff {s : HashMap K V} {m : Nat} {slots : List (Slot K V)} (h : Tabled s m slots) (key : K) (match_ : Bool) :
    (getIndex hashCode s key match_).isSome ↔ ∃ p ∈ slots, p.stops key match_ = true := by
  constructor
  · intro hends
    by_contra hnone
    push Not at hnone
    have hstop : ∀ p ∈ slots, p.stops key match_ = false := fun p hp => Bool.eq_false_iff.mpr (hnone p hp)
    obtain ⟨i, hi⟩ := Option.isSome_iff_exists.mp hends
    obtain ⟨table, htable, hi⟩ := Option.bind_eq_some_iff.mp hi
    cases h.table.symm.trans htable
    obtain ⟨p, hp, hi⟩ := Option.bind_eq_some_iff.mp hi
    rw [hstop p (List.mem_of_getElem? hp), if_neg Bool.false_ne_true, probe_forever hstop] at hi
    cases hi
  · rintro ⟨p, hp, hstop⟩
    obtain ⟨a, _, hget, -⟩ := getIndex_of_stops h hp hstop
    rw [hget]
    rfl

/-- The probes of getIndex pass every slot, as many as there are, so that it ends if there is a null one. -/
theorem probes_cover (hashCode : K → BitVec 32) {minused : Int} {size poly : Nat} (h : tableSize minused = some (size, poly)) (key : K) :
    (∀ i < size, ∃ a < size, probeSlot hashCode (size - 1) poly key a = i) ∧
      ∀ (s : HashMap K V) (slots : List (Slot K V)) (match_ : Bool), s.size = size → s.poly = poly → s.table = some slots →
        slots.length = size → Slot.null ∈ slots →
        ∃ a < size, ∃ p, getIndex hashCode s key match_ = some (probeSlot hashCode (size - 1) poly key a) ∧
          slots[probeSlot hashCode (size - 1) poly key a]? = some p ∧ p.stops key match_ = true := by
  obtain ⟨m, rfl, hgen⟩ := tableSize_generates h
  have hslot := probeSlot_eq hashCode hgen.toFeedback key
  have hcover : ∀ i < 2 ^ (m + 1), ∃ a < 2 ^ (m + 1), probeSlot hashCode (2 ^ (m + 1) - 1) poly key a = i := by
    intro i hi
    obtain ⟨a, ha, hpath⟩ := exists_path hashCode hgen key hi
    exact ⟨a, ha, (hslot a).trans hpath⟩
  refine ⟨hcover, fun s slots match_ hsize hpoly htable hlen hnull => ?_⟩
  subst hpoly
  have htabled : Tabled s m slots := ⟨htable, hsize, hlen.trans hsize.symm, hgen⟩
  obtain ⟨a, p, hget, hat, hstop, hbefore⟩ := @getIndex_spec K V hashCode _ s m slots htabled hnull key match_
  -- the null slot is passed in time, so the search has ended by then
  obtain ⟨i, hi⟩ := List.mem_iff_getElem?.mp hnull
  obtain ⟨b, hb, hpath⟩ := exists_path hashCode hgen key (hlen ▸ (List.getElem?_eq_some_iff.mp hi).1)
  have hle : a ≤ b := by
    by_contra hlt
    have := hbefore b (by omega) _ (hpath ▸ hi)
    cases this
  exact ⟨a, by omega, p, by rw [hslot, hget], by rw [hslot, hat], hstop⟩

theorem probes_cover_thirty_two : ∃ a < 32, probeSlot (BitVec.ofNat 32) 31 37 7 a = 25 :=
  (@probes_cover Nat Nat _ (BitVec.ofNat 32) 16 32 37 (by decide) 7).1 25 (by decide)

end

end DeepFabric.Platform.Hash
