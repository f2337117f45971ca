/-
  DeepFabric.Lib.Occurrence — where a pattern occurs in a list.

  `find` looks from the left and stops at the first place. A pattern none of whose proper ends is
  also its beginning (`Borderless`) occurs at places that are at least its length apart, so in a
  part of the list that has room for one more place than that, the first one found is the only one.

  - `find_eq_some`, `find_eq_none`: what is found.
  - `occursAt_take`: the places in a part of the list.
  - `Borderless.apart`: two places of a borderless pattern.
-/
import Mathlib.Data.List.Infix

namespace DeepFabric.Lib.Occurrence

variable {α : Type} {p s : List α} {i j n : Nat}

def OccursAt (p s : List α) (i : Nat) : Prop := p <+: s.drop i

instance [DecidableEq α] (p s : List α) (i : Nat) : Decidable (OccursAt p s i) := inferInstanceAs (Decidable (_ <+: _))

theorem occursAt_zero : OccursAt p s 0 ↔ p <+: s := by rw [OccursAt, List.drop_zero]

theorem occursAt_cons {x : α} : OccursAt p (x :: s) (i + 1) ↔ OccursAt p s i := by rw [OccursAt, OccursAt, List.drop_succ_cons]

theorem occursAt_drop : OccursAt p (s.drop n) i ↔ OccursAt p s (n + i) := by rw [OccursAt, OccursAt, List.drop_drop]

/-- A part of the list has the places that leave room for the pattern. -/
theorem occursAt_take (hp : p ≠ []) : OccursAt p (s.take n) i ↔ OccursAt p s i ∧ i + p.length ≤ n := by
  have hpos := List.length_pos_of_ne_nil hp
  rw [OccursAt, OccursAt, List.drop_take, List.prefix_take_iff]
  refine and_congr_right fun _ => ?_
  omega

theorem OccursAt.le_length (h : OccursAt p s i) (hp : p ≠ []) : i + p.length ≤ s.length := by
  have hpos := List.length_pos_of_ne_nil hp
  have hle := h.length_le
  rw [List.length_drop] at hle
  omega

/-! ## Patterns that do not overlap themselves -/

/-- No proper end of the pattern is its beginning. -/
def Borderless (p : List α) : Prop := ∀ k < p.length, 0 < k → ¬p.drop k <+: p

instance [DecidableEq α] (p : List α) : Decidable (Borderless p) := inferInstanceAs (Decidable (∀ k < _, _ → ¬_))

theorem Borderless.apart (hp : Borderless p) (hi : OccursAt p s i) (hj : OccursAt p s j) (hij : i < j) : i + p.length ≤ j := by
  by_contra hlt
  obtain ⟨k, rfl⟩ := Nat.exists_eq_add_of_le (Nat.le_of_lt hij)
  -- what is left of the first from the second on is a beginning of the second
  have hend : p.drop k <+: s.drop (i + k) := by
    rw [← List.drop_drop]
    exact hi.drop k
  exact hp k (by omega) (by omega) (List.prefix_of_prefix_length_le hend hj (by simp))

/-! ## What is found -/

/-- The first place from the left. -/
def find [DecidableEq α] (p : List α) : List α → Option Nat
  | [] => if p = [] then some 0 else none
  | x :: rest => if p <+: x :: rest then some 0 else (find p rest).map (· + 1)

variable [DecidableEq α]

theorem find_eq_none : find p s = none ↔ ∀ i, ¬OccursAt p s i := by
  induction s with
  | nil =>
    by_cases hp : p = []
    · simp [find, OccursAt, hp]
    · simp [find, OccursAt, hp]
  | cons x rest ih =>
    by_cases h : p <+: x :: rest
    · simp only [find, h, if_true, reduceCtorEq, false_iff, not_forall, not_not]
      exact ⟨0, occursAt_zero.mpr h⟩
    · simp only [find, h, if_false, Option.map_eq_none_iff, ih]
      constructor
      · intro hn i
        cases i with
        | zero => exact fun h0 => h (occursAt_zero.mp h0)
        | succ i => exact fun hi => hn i (occursAt_cons.mp hi)
      · exact fun hn i hi => hn (i + 1) (occursAt_cons.mpr hi)

theorem find_eq_some (h : find p s = some i) : OccursAt p s i ∧ ∀ j < i, ¬OccursAt p s j := by
  induction s generalizing i with
  | nil =>
    by_cases hp : p = []
    · simp only [find, hp, if_true, Option.some.injEq] at h
      subst h
      simp [OccursAt, hp]
    · simp [find, hp] at h
  | cons x rest ih =>
    by_cases hx : p <+: x :: rest
    · simp only [find, hx, if_true, Option.some.injEq] at h
      subst h
      exact ⟨occursAt_zero.mpr hx, fun j hj => absurd hj (Nat.not_lt_zero j)⟩
    · simp only [find, hx, if_false, Option.map_eq_some_iff] at h
      obtain ⟨k, hk, rfl⟩ := h
      obtain ⟨hocc, hfirst⟩ := ih hk
      refine ⟨occursAt_cons.mpr hocc, fun j hj => ?_⟩
      cases j with
      | zero => exact fun h0 => hx (occursAt_zero.mp h0)
      | succ j => exact fun hj' => hfirst j (by omega) (occursAt_cons.mp hj')

end DeepFabric.Lib.Occurrence
