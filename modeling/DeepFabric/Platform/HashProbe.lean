/-
  DeepFabric.Platform.HashProbe — searches in a hash map end (cxx/util/HashMap.cxx).
-/
import DeepFabric.Lib.ShiftRegister
import DeepFabric.Platform.HashMap
import Mathlib.Data.List.Prime
import Mathlib.Tactic.NormNum.Prime

namespace DeepFabric.Platform.Hash

open DeepFabric.Lib.ShiftRegister

/-! ## Polynomials -/

/-- The prime factors of 2^n - 1, from n = 2 on. -/
def factors : List (List Nat) := [
  [3], [7], [3, 5], [31], [3, 3, 7], [127], [3, 5, 17], [7, 73], [3, 11, 31], [23, 89], [3, 3, 5, 7, 13], [8191],
  [3, 43, 127], [7, 31, 151], [3, 5, 17, 257], [131071], [3, 3, 3, 7, 19, 73], [524287], [3, 5, 5, 11, 31, 41], [7, 7, 127, 337],
  [3, 23, 89, 683], [47, 178481], [3, 3, 5, 7, 13, 17, 241], [31, 601, 1801], [3, 2731, 8191], [7, 73, 262657]]

theorem factors_prime : ∀ qs ∈ factors, ∀ q ∈ qs, q.Prime := by
  simp only [factors, List.forall_mem_cons]
  norm_num

/-- What is computed of a polynomial. -/
def primitive (m poly : Nat) (qs : List Nat) : Bool :=
  poly < 2 ^ (m + 2) ∧ poly.testBit (m + 1) ∧ poly.testBit 0 ∧ power m poly (m + 1) (2 ^ (m + 1) - 1) = 1 ∧
    qs.prod = 2 ^ (m + 1) - 1 ∧ ∀ q ∈ qs, power m poly (m + 1) ((2 ^ (m + 1) - 1) / q) ≠ 1

theorem generates_of_primitive {m poly : Nat} {qs : List Nat} (hqs : ∀ q ∈ qs, q.Prime) (h : primitive m poly qs = true) :
    Generates m poly := by
  obtain ⟨hlt, hhigh, hlow, hback, hprod, haway⟩ := of_decide_eq_true h
  refine ⟨⟨hlt, hhigh, hlow⟩, hback, fun q hq hdvd => ?_⟩
  rw [← hprod] at hdvd
  obtain ⟨r, hr, hqr⟩ := (Prime.dvd_prod_iff hq.prime).mp hdvd
  obtain rfl : q = r := (Nat.prime_dvd_prime_iff_eq hq (hqs r hr)).mp hqr
  exact haway q hr

theorem polys_primitive : ∀ i : Fin 26, primitive (i + 1) (polys.getD i 0) (factors.getD i []) = true := by decide +kernel

theorem polys_generate {i : Nat} (h : i < 26) : Generates (i + 1) (polys.getD i 0) := by
  refine generates_of_primitive (fun q hq => ?_) (polys_primitive ⟨i, h⟩)
  have hmem : factors.getD i [] ∈ factors := by
    rw [List.getD_eq_getElem _ _ h]
    exact List.getElem_mem h
  exact factors_prime _ hmem q hq

/-! ## Sizes -/

theorem polys_length : polys.length = 29 := rfl

theorem sizes_getElem? {i : Nat} (hi : i < 29) :
    (polys.zipIdx.map fun p => (4 <<< p.2, p.1))[i]? = some (2 ^ (i + 2), polys.getD i 0) := by
  have hpoly : polys[i]? = some (polys.getD i 0) := by
    rw [List.getD_eq_getElem _ _ (polys_length ▸ hi)]
    exact List.getElem?_eq_getElem _
  rw [List.getElem?_map, List.getElem?_zipIdx, hpoly]
  show some ((4 <<< (0 + i), polys.getD i 0) : Nat × Nat) = _
  rw [Nat.zero_add, Nat.shiftLeft_eq, Nat.pow_add, Nat.mul_comm]

theorem tableSize_some {minused : Int} {b : Nat × Nat} (h : tableSize minused = some b) :
    ∃ i < 29, b = (2 ^ (i + 2), polys.getD i 0) ∧ minused < (2 ^ (i + 2) : Nat) ∧ ∀ j < i, ((2 ^ (j + 2) : Nat) : Int) ≤ minused := by
  obtain ⟨hb, i, hi, hbi, hbefore⟩ := List.find?_eq_some_iff_getElem.mp h
  have hlt : i < 29 := hi
  obtain rfl : b = (2 ^ (i + 2), polys.getD i 0) := by rw [← hbi, List.getElem_eq_iff, sizes_getElem? hlt]
  refine ⟨i, hlt, rfl, of_decide_eq_true hb, fun j hj => ?_⟩
  have hsmaller := hbefore j hj
  rw [(List.getElem_eq_iff (hj.trans hi)).mpr (sizes_getElem? (hj.trans hlt))] at hsmaller
  simpa using hsmaller

theorem tableSize_none {minused : Int} (h : tableSize minused = none) : 2 ^ 30 ≤ minused := by
  have hno := List.find?_eq_none.mp h _ (List.mem_of_getElem? (sizes_getElem? (by decide : 28 < 29)))
  simpa using hno

/-! ## Ways -/

section

variable {K V : Type} (hashCode : K → BitVec 32)

theorem nextIncr_eq {m poly incr : Nat} (h : incr < 2 ^ (m + 1)) : nextIncr (2 ^ (m + 1) - 1) poly incr = advance m poly incr := by
  have hshift : incr <<< 1 = 2 * incr := by rw [Nat.shiftLeft_eq, Nat.mul_comm]
  rw [nextIncr, advance, hshift]
  by_cases hb : incr < 2 ^ m
  · rw [Nat.testBit_lt_two_pow hb, if_neg (by rw [Nat.pow_succ]; omega), if_neg Bool.false_ne_true, Nat.xor_zero]
  · have hbit : incr.testBit m = true := by
      rw [Nat.testBit_eq_decide_div_mod_eq]
      have : incr / 2 ^ m = 1 := by
        rw [Nat.pow_succ] at h
        exact Nat.div_eq_of_lt_le (by omega) (by omega)
      rw [this]
      rfl
    rw [hbit, if_pos (by rw [Nat.pow_succ]; omega), if_pos rfl]

theorem firstIndex_lt (n : Nat) (key : K) : firstIndex hashCode (2 ^ n - 1) key < 2 ^ n := by
  rw [firstIndex, Nat.and_two_pow_sub_one_eq_mod]
  exact Nat.mod_lt _ (Nat.two_pow_pos n)

theorem firstIncr_bounds {n : Nat} (hn : n ≠ 0) (poly : Nat) (key : K) :
    firstIncr hashCode (2 ^ n - 1) poly key ≠ 0 ∧ firstIncr hashCode (2 ^ n - 1) poly key < 2 ^ n := by
  have hone : 1 < 2 ^ n := Nat.one_lt_two_pow hn
  rw [firstIncr, Nat.and_two_pow_sub_one_eq_mod]
  have hlt : (hash hashCode key ^^^ (hash hashCode key).sshiftRight 3).toNat % 2 ^ n < 2 ^ n := Nat.mod_lt _ (by omega)
  generalize (hash hashCode key ^^^ (hash hashCode key).sshiftRight 3).toNat % 2 ^ n = incr at *
  split_ifs <;> omega

/-- The slots that a search comes by. -/
def path (m poly : Nat) (key : K) : Nat → Nat
  | 0 => firstIndex hashCode (2 ^ (m + 1) - 1) key
  | a + 1 => (firstIndex hashCode (2 ^ (m + 1) - 1) key + (advance m poly)^[a] (firstIncr hashCode (2 ^ (m + 1) - 1) poly key)) % 2 ^ (m + 1)

theorem path_lt (m poly : Nat) (key : K) (a : Nat) : path hashCode m poly key a < 2 ^ (m + 1) := by
  cases a with
  | zero => exact firstIndex_lt hashCode _ key
  | succ a => exact Nat.mod_lt _ (Nat.two_pow_pos _)

theorem exists_path {m poly : Nat} (h : Generates m poly) (key : K) {i : Nat} (hi : i < 2 ^ (m + 1)) :
    ∃ a < 2 ^ (m + 1), path hashCode m poly key a = i := by
  have hfirst := firstIndex_lt hashCode (m + 1) key
  by_cases heq : firstIndex hashCode (2 ^ (m + 1) - 1) key = i
  · exact ⟨0, Nat.two_pow_pos _, heq⟩
  · -- the distance of the slot is not 0
    have hdist : ∃ d, d ≠ 0 ∧ d < 2 ^ (m + 1) ∧ (firstIndex hashCode (2 ^ (m + 1) - 1) key + d) % 2 ^ (m + 1) = i := by
      rcases Nat.lt_or_gt_of_ne heq with hlt | hgt
      · refine ⟨i - firstIndex hashCode (2 ^ (m + 1) - 1) key, by omega, by omega, ?_⟩
        rw [Nat.add_sub_cancel' (Nat.le_of_lt hlt), Nat.mod_eq_of_lt hi]
      · refine ⟨2 ^ (m + 1) + i - firstIndex hashCode (2 ^ (m + 1) - 1) key, by omega, by omega, ?_⟩
        rw [Nat.add_sub_cancel' (by omega), Nat.add_mod_left, Nat.mod_eq_of_lt hi]
    obtain ⟨d, hd, hdlt, hend⟩ := hdist
    obtain ⟨hne, hlt⟩ := firstIncr_bounds hashCode (Nat.succ_ne_zero m) poly key
    obtain ⟨j, hj, hreach⟩ := h.reaches hne hlt hd hdlt
    refine ⟨j + 1, by omega, ?_⟩
    rw [path, hreach, hend]

/-! ## Searches -/

variable {hashCode} [DecidableEq K]

theorem probe_spec {m poly : Nat} (hp : Feedback m poly) {table : List (Slot K V)} (hlen : table.length = 2 ^ (m + 1)) (key : K)
    (match_ : Bool) {a : Nat} {p : Slot K V} (hat : table[path hashCode m poly key (a + 1)]? = some p) (hstop : p.stops key match_ = true)
    (b turns : Nat) (hb : b ≤ a) (hturns : a < b + turns) :
    ∃ c p, b ≤ c ∧ table[path hashCode m poly key (c + 1)]? = some p ∧ p.stops key match_ = true ∧
      (∀ d, b ≤ d → d < c → ∀ p, table[path hashCode m poly key (d + 1)]? = some p → p.stops key match_ = false) ∧
      probe table (2 ^ (m + 1) - 1) poly (firstIndex hashCode (2 ^ (m + 1) - 1) key) key match_ turns
        ((advance m poly)^[b] (firstIncr hashCode (2 ^ (m + 1) - 1) poly key)) = some (path hashCode m poly key (c + 1)) := by
  induction turns generalizing b with
  | zero => omega
  | succ turns ih =>
    obtain ⟨-, hlt⟩ := firstIncr_bounds hashCode (Nat.succ_ne_zero m) poly key
    have hincr := iterate_lt hp b hlt
    have hin : path hashCode m poly key (b + 1) < table.length := by
      rw [hlen]
      exact path_lt hashCode m poly key (b + 1)
    have hslot : table[path hashCode m poly key (b + 1)]? = some table[path hashCode m poly key (b + 1)] := List.getElem?_eq_getElem hin
    have hturn : probe table (2 ^ (m + 1) - 1) poly (firstIndex hashCode (2 ^ (m + 1) - 1) key) key match_ (turns + 1)
          ((advance m poly)^[b] (firstIncr hashCode (2 ^ (m + 1) - 1) poly key))
        = if table[path hashCode m poly key (b + 1)].stops key match_ then some (path hashCode m poly key (b + 1))
          else probe table (2 ^ (m + 1) - 1) poly (firstIndex hashCode (2 ^ (m + 1) - 1) key) key match_ turns
            ((advance m poly)^[b + 1] (firstIncr hashCode (2 ^ (m + 1) - 1) poly key)) := by
      rw [probe, Nat.and_two_pow_sub_one_eq_mod, nextIncr_eq hincr, Function.iterate_succ_apply']
      have hpath : (firstIndex hashCode (2 ^ (m + 1) - 1) key + (advance m poly)^[b] (firstIncr hashCode (2 ^ (m + 1) - 1) poly key))
          % 2 ^ (m + 1) = path hashCode m poly key (b + 1) := rfl
      rw [hpath, hslot]
      rfl
    rw [hturn]
    by_cases hs : table[path hashCode m poly key (b + 1)].stops key match_ = true
    · rw [if_pos hs]
      exact ⟨b, _, Nat.le_refl b, hslot, hs, fun d h₁ h₂ => absurd h₂ (by omega), rfl⟩
    · have hne : b ≠ a := by
        rintro rfl
        rw [hslot] at hat
        exact hs ((Option.some.inj hat).symm ▸ hstop)
      rw [if_neg hs]
      obtain ⟨c, p', hc, hcat, hcstop, hbefore, hprobe⟩ := ih (b + 1) (by omega) (by omega)
      refine ⟨c, p', by omega, hcat, hcstop, fun d h₁ h₂ q hq => ?_, hprobe⟩
      rcases Nat.eq_or_lt_of_le h₁ with rfl | hgt
      · rw [hslot] at hq
        rw [← Option.some.inj hq]
        exact Bool.eq_false_iff.mpr hs
      · exact hbefore d hgt h₂ q hq

/-- The table of a map. -/
structure Tabled (s : HashMap K V) (m : Nat) (slots : List (Slot K V)) : Prop where
  table : s.table = some slots
  size : s.size = 2 ^ (m + 1)
  length : slots.length = s.size
  generates : Generates m s.poly

/-- With a slot in the table that stops it, a search ends at the first such slot on its way. -/
theorem getIndex_of_stops {s : HashMap K V} {m : Nat} {table : List (Slot K V)} (h : Tabled s m table) {q : Slot K V} (hq : q ∈ table)
    {key : K} {match_ : Bool} (hstop : q.stops key match_ = true) :
    ∃ a p, getIndex hashCode s key match_ = some (path hashCode m s.poly key a) ∧
      table[path hashCode m s.poly key a]? = some p ∧ p.stops key match_ = true ∧
      ∀ d < a, ∀ p, table[path hashCode m s.poly key d]? = some p → p.stops key match_ = false := by
  have hlen : table.length = 2 ^ (m + 1) := h.length.trans h.size
  obtain ⟨i, hi, hqi⟩ := List.mem_iff_getElem.mp hq
  obtain ⟨a, ha, hpath⟩ := exists_path hashCode h.generates key (hlen ▸ hi)
  have hat : table[path hashCode m s.poly key a]? = some q := by
    rw [hpath, List.getElem?_eq_getElem hi, hqi]
  have hfirst : path hashCode m s.poly key 0 < table.length := by
    rw [hlen]
    exact path_lt hashCode m s.poly key 0
  have hslot : table[path hashCode m s.poly key 0]? = some table[path hashCode m s.poly key 0] := List.getElem?_eq_getElem hfirst
  have hget : getIndex hashCode s key match_
      = if table[path hashCode m s.poly key 0].stops key match_ then some (path hashCode m s.poly key 0)
        else probe table (2 ^ (m + 1) - 1) s.poly (firstIndex hashCode (2 ^ (m + 1) - 1) key) key match_ (2 ^ (m + 1))
          (firstIncr hashCode (2 ^ (m + 1) - 1) s.poly key) := by
    have hzero : firstIndex hashCode (2 ^ (m + 1) - 1) key = path hashCode m s.poly key 0 := rfl
    rw [getIndex, h.table, h.size, hzero]
    show (table[path hashCode m s.poly key 0]?.bind fun p => _) = _
    rw [hslot]
    rfl
  rw [hget]
  by_cases hs : table[path hashCode m s.poly key 0].stops key match_ = true
  · rw [if_pos hs]
    exact ⟨0, _, rfl, hslot, hs, fun d hd => absurd hd (Nat.not_lt_zero d)⟩
  · rw [if_neg hs]
    cases a with
    | zero =>
      rw [hslot] at hat
      rw [Option.some.inj hat] at hs
      exact absurd hstop hs
    | succ a =>
      obtain ⟨c, p, -, hcat, hcstop, hbefore, hprobe⟩ := probe_spec h.generates.toFeedback hlen key match_ hat hstop 0 (2 ^ (m + 1))
        (Nat.zero_le a) (by omega)
      refine ⟨c + 1, p, hprobe, hcat, hcstop, fun d hd q hq => ?_⟩
      cases d with
      | zero =>
        rw [hslot] at hq
        rw [← Option.some.inj hq]
        exact Bool.eq_false_iff.mpr hs
      | succ d => exact hbefore d (Nat.zero_le d) (by omega) q hq

/-- With a null slot in the table, a search ends at the first slot on its way that stops it. -/
theorem getIndex_spec {s : HashMap K V} {m : Nat} {table : List (Slot K V)} (h : Tabled s m table) (hnull : Slot.null ∈ table) (key : K)
    (match_ : Bool) :
    ∃ a p, getIndex hashCode s key match_ = some (path hashCode m s.poly key a) ∧
      table[path hashCode m s.poly key a]? = some p ∧ p.stops key match_ = true ∧
      ∀ d < a, ∀ p, table[path hashCode m s.poly key d]? = some p → p.stops key match_ = false :=
  getIndex_of_stops h hnull rfl

end

end DeepFabric.Platform.Hash
