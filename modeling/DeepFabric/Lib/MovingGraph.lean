/-
  DeepFabric.Lib.MovingGraph — walks through a graph whose edges change while it is walked.

  Every vertex has at most one edge at a time: `next i v` is where the edge of `v` leads at time
  `i`. A journey crosses one edge after the other, each at a time not before the one before it, so
  the edges it has crossed need not have stood together.

  - `Journey.stays`: over a stretch of time in which no edge leads out of a set, a journey that
    starts in it stays there.
  - `Journey.no_end`: so it does not come to an end in the meantime, if every edge of the set stands.
  - `follow`: the same in the graph of one moment. `Ends.not_leadsBack`: a path that comes to an
    end, and has not come back before, does not come back.
-/
import Mathlib.Data.Nat.Init

namespace DeepFabric.Lib.MovingGraph

variable {ν : Type}

/-- Under way from `a` since time `r`: the last edge was crossed at `m` to `p`, after `k` edges. -/
inductive Journey (next : Nat → ν → Option ν) (r : Nat) (a : ν) : Nat → ν → Nat → Prop
  | start : Journey next r a r a 0
  | hop {m k e : Nat} {p q : ν} : Journey next r a m p k → m ≤ e → next e p = some q → Journey next r a e q (k + 1)

section Walk

variable {next : Nat → ν → Option ν} {r m k n : Nat} {a p : ν} {C : ν → Prop}

theorem Journey.since (h : Journey next r a m p k) : r ≤ m := by
  induction h with
  | start => exact Nat.le_refl r
  | hop _ hle _ ih => exact Nat.le_trans ih hle

/-- No edge leads out of the set from `r` to `n`. -/
theorem Journey.stays (h : Journey next r a m p k) (ha : C a)
    (hclosed : ∀ i v, r ≤ i → i ≤ n → C v → ∀ w ∈ next i v, C w) (hm : m ≤ n) : C p := by
  induction h with
  | start => exact ha
  | hop hj hle hnext ih =>
    have hp := ih (Nat.le_trans hle hm)
    exact hclosed _ _ (Nat.le_trans hj.since hle) hm hp _ hnext

/-- Every edge of the set stands from `r` to `n` and leads back into it. -/
theorem Journey.no_end (h : Journey next r a m p k) (ha : C a)
    (hclosed : ∀ i v, r ≤ i → i ≤ n → C v → ∃ w, next i v = some w ∧ C w) {e : Nat} (hm : m ≤ e) (he : e ≤ n) :
    next e p ≠ none := by
  intro hnone
  have hp : C p := by
    refine h.stays ha ?_ (Nat.le_trans hm he)
    intro i v hr hn hv w hw
    obtain ⟨w', hw', hc⟩ := hclosed i v hr hn hv
    cases hw'.symm.trans hw
    exact hc
  obtain ⟨w, hw, -⟩ := hclosed e p (Nat.le_trans h.since hm) he hp
  rw [hnone] at hw
  cases hw

end Walk

/-! ## At one moment -/

section Moment

variable {next : ν → Option ν} {v : ν} {k : Nat}

def follow (next : ν → Option ν) : Nat → ν → Option ν
  | 0, v => some v
  | k + 1, v => (next v).bind (follow next k)

/-- Following the edges of one moment comes back to where it set out. -/
def LeadsBack (next : ν → Option ν) (v : ν) : Prop := ∃ k, follow next (k + 1) v = some v

theorem follow_none (h : follow next k v = none) (j : Nat) : follow next (k + j) v = none := by
  induction k generalizing v with
  | zero => cases h
  | succ k ih =>
    rw [Nat.succ_add, follow]
    cases hv : next v with
    | none => rfl
    | some w =>
      rw [follow, hv] at h
      exact ih h

/-- The path comes to an end within `k` edges and has not come back before. -/
def Ends (next : ν → Option ν) (k : Nat) (v : ν) : Prop := follow next k v = none ∧ ∀ j < k, follow next (j + 1) v ≠ some v

instance [DecidableEq ν] : Decidable (Ends next k v) :=
  inferInstanceAs (Decidable (follow next k v = none ∧ ∀ j < k, follow next (j + 1) v ≠ some v))

theorem Ends.not_leadsBack (h : Ends next k v) : ¬LeadsBack next v := by
  rintro ⟨j, hj⟩
  by_cases hlt : j < k
  · exact h.2 j hlt hj
  · have hnone := follow_none h.1 (j + 1 - k)
    rw [Nat.add_sub_cancel' (by omega), hj] at hnone
    cases hnone

end Moment

end DeepFabric.Lib.MovingGraph
