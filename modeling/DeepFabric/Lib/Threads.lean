/-
  DeepFabric.Lib.Threads — threads that share variables, one atomic operation at a time.

  `turn` says what a thread does with the shared variables from the place of its program where it stands. A step is one
  operation of one thread, and any thread may go next. What the threads have in common is told by sums: `total f` adds up
  a weight of the places, and a step changes it by the weights of the two places of the one thread (`step_moves`).
-/
import Mathlib.Algebra.Ring.Nat
import DeepFabric.Lib.Run

namespace DeepFabric.Lib.Threads

variable {σ α ε : Type}

structure State (σ α : Type) where
  shared : σ
  places : List α

def step (turn : σ → α → ε → Option (σ × α)) (s : State σ α) (e : Nat × ε) : Option (State σ α) :=
  s.places[e.1]?.bind fun p => (turn s.shared p e.2).map fun r => ⟨r.1, s.places.set e.1 r.2⟩

def State.total (s : State σ α) (f : α → Nat) : Nat := (s.places.map f).sum

theorem sum_set {l : List Nat} {i x : Nat} (h : l[i]? = some x) (y : Nat) : (l.set i y).sum + x = l.sum + y := by
  induction l generalizing i with
  | nil => cases h
  | cons a l ih =>
    cases i with
    | zero => cases h; simp only [List.set_cons_zero, List.sum_cons]; omega
    | succ i => have := ih h; simp only [List.set_cons_succ, List.sum_cons]; omega

variable {s s' : State σ α} {p q : α} {i j : Nat}

theorem State.part (f : α → Nat) (h : s.places[i]? = some p) : (s.places.map f)[i]? = some (f p) := by simp [h]

/-- A thread has its own part in a sum. -/
theorem State.le_total (f : α → Nat) (h : s.places[i]? = some p) : f p ≤ s.total f := by
  have := sum_set (State.part f h) 0
  unfold State.total
  omega

theorem State.add_le_total (f : α → Nat) (hi : s.places[i]? = some p) (hj : s.places[j]? = some q) (hne : i ≠ j) :
    f p + f q ≤ s.total f := by
  -- without the one thread the other still has its part
  have hset := sum_set (State.part f hi) 0
  have := sum_set ((List.getElem?_set_ne (a := 0) hne).trans (State.part f hj)) 0
  unfold State.total
  omega

theorem State.total_eq_zero (f : α → Nat) (h : ∀ p ∈ s.places, f p = 0) : s.total f = 0 := by
  simp [State.total, List.map_congr_left h]

/-- What one thread has alone. -/
theorem State.total_eq (f : α → Nat) (hi : s.places[i]? = some p)
    (ho : ∀ j q, j ≠ i → s.places[j]? = some q → f q = 0) : s.total f = f p := by
  have hset := sum_set (State.part f hi) 0
  have hzero : ((s.places.map f).set i 0).sum = 0 := List.sum_eq_zero_iff_forall_eq_nat.mpr fun x hx => by
    obtain ⟨j, hj⟩ := List.mem_iff_getElem?.mp hx
    by_cases hji : j = i
    · subst hji; simp_all [List.getElem?_set]
    · rw [List.getElem?_set_ne (Ne.symm hji), List.getElem?_map] at hj
      obtain ⟨q, hq, rfl⟩ := Option.map_eq_some_iff.mp hj
      exact ho j q hji hq
  unfold State.total
  omega

theorem State.count_le_total [DecidableEq α] (s : State σ α) (f : α → Nat) (h : 1 ≤ f p) : s.places.count p ≤ s.total f := by
  unfold State.total
  induction s.places with
  | nil => exact Nat.zero_le _
  | cons q l ih =>
    simp only [List.count_cons, List.map_cons, List.sum_cons, beq_iff_eq]
    split
    · subst q; omega
    · omega

theorem step_eq {turn : σ → α → ε → Option (σ × α)} {a : ε} {g : σ} (hp : s.places[i]? = some p)
    (ht : turn s.shared p a = some (g, q)) : step turn s (i, a) = some ⟨g, s.places.set i q⟩ := by
  simp only [step, hp, Option.bind_some, ht, Option.map_some]

/-- What a step does: an operation of one thread, which moves. -/
theorem step_moves {turn : σ → α → ε → Option (σ × α)} {e : Nat × ε} (h : step turn s e = some s') :
    ∃ p q, s.places[e.1]? = some p ∧ turn s.shared p e.2 = some (s'.shared, q) ∧ (∀ x ∈ s'.places, x ∈ s.places ∨ x = q) ∧
      ∀ f, s'.total f + f p = s.total f + f q ∧ f p ≤ s.total f := by
  obtain ⟨p, hp, h⟩ := Option.bind_eq_some_iff.mp h
  obtain ⟨r, ht, rfl⟩ := Option.map_eq_some_iff.mp h
  refine ⟨p, r.2, hp, ht, fun x hx => List.mem_or_eq_of_mem_set hx, fun f => ⟨?_, State.le_total f hp⟩⟩
  simpa [State.total, List.map_set] using sum_set (State.part f hp) (f r.2)

end DeepFabric.Lib.Threads
