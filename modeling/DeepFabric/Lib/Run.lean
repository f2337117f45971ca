/-
  DeepFabric.Lib.Run — runs of a partial step function, and histories kept newest first.

  A component is a step function `step : σ → ε → Option σ` (`none`: the event cannot
  happen there). `Reach step ok s₀` is every state some run from `s₀` reaches whose steps
  all meet `ok`, a condition on the state before the step and on the event; `Free` is the
  condition that excludes nothing. `exec` runs a given schedule, and `guarded` is the step
  function that refuses the steps a decidable condition excludes.

  - `Reach.inv`: what holds at the start and is kept by every step that meets `ok` holds in
    every state reached.
  - `exec_simulates`: step by step simulation of one component by another carries over to runs.
  - `exec_of_meets`: a schedule whose steps all meet a condition runs to its end, if such steps do.
  - `meets_iff`: the same with both directions, for a condition that says exactly when a step goes well.
  - `exec_ends`, `reach_of_exec`, `reach_of_exec_guarded`: the state a schedule ends in is reached.
  - `Timeline step es st`: `st n` is the state after the first `n` events of the schedule `es`.
    `Timeline.inv` is the induction over time, `timeline_of_exec` the timeline of a schedule that runs.
  - `Counts P n`: there are `n` that satisfy `P`; `Counts.up`, `Counts.down`, `Counts.zero`.
  - `Follows p q l`: every `p` in the history `l` has a later `q`. A history is a list with
    the newest event first, so "later" is "in the part before it".
-/
import Mathlib.Data.List.Nodup
import Mathlib.Logic.Function.Basic

namespace DeepFabric.Lib.Run

open Option

variable {σ ε : Type}

inductive Reach (step : σ → ε → Option σ) (ok : σ → ε → Prop) (s₀ : σ) : σ → Prop
  | init : Reach step ok s₀ s₀
  | step {s s' : σ} (e : ε) : Reach step ok s₀ s → ok s e → step s e = some s' → Reach step ok s₀ s'

/-- The condition every step meets. -/
def Free : σ → ε → Prop := fun _ _ => True

variable {step : σ → ε → Option σ} {ok : σ → ε → Prop} {s₀ : σ}

theorem Reach.inv {P : σ → Prop} (h0 : P s₀) (hs : ∀ {s s' : σ} {e : ε}, P s → ok s e → step s e = some s' → P s')
    {s : σ} (h : Reach step ok s₀ s) : P s := by
  induction h with
  | init => exact h0
  | step e _ hok hst ih => exact hs ih hok hst

def exec (step : σ → ε → Option σ) : σ → List ε → Option σ
  | s, [] => some s
  | s, e :: es => (step s e).bind (exec step · es)

theorem exec_append (s : σ) (es es' : List ε) : exec step s (es ++ es') = (exec step s es).bind (exec step · es') := by
  induction es generalizing s with
  | nil => rfl
  | cons e es ih =>
    show (step s e).bind (exec step · (es ++ es')) = ((step s e).bind (exec step · es)).bind (exec step · es')
    cases step s e with
    | none => rfl
    | some s1 => exact ih s1

/-- What every step of one component has a step of another for, a run has a run for. -/
theorem exec_simulates {τ : Type} {step' : τ → ε → Option τ} {R : σ → τ → Prop}
    (hs : ∀ {s s' : σ} {r : τ} {e : ε}, R s r → step s e = some s' → ∃ r', step' r e = some r' ∧ R s' r') {s s' : σ} {r : τ}
    (hr : R s r) {es : List ε} (h : exec step s es = some s') : ∃ r', exec step' r es = some r' ∧ R s' r' := by
  induction es generalizing s r with
  | nil =>
    cases h
    exact ⟨r, rfl, hr⟩
  | cons e es ih =>
    obtain ⟨s1, h1, h2⟩ := bind_eq_some_iff.mp h
    obtain ⟨r1, h3, hr1⟩ := hs hr h1
    obtain ⟨r', h4, hr'⟩ := ih hr1 h2
    exact ⟨r', by rw [exec, h3]; exact h4, hr'⟩

/-- A schedule runs to its end, and what is decidable there is decided. -/
theorem exec_ends {es : List ε} {p : σ → Prop} [DecidablePred p] (h : (exec step s₀ es).any (fun s => p s) = true) :
    ∃ s, exec step s₀ es = some s ∧ p s := by
  obtain ⟨s, hs, hp⟩ := (any_eq_true _ _).mp h
  exact ⟨s, hs, of_decide_eq_true hp⟩

theorem reach_of_exec_from {es : List ε} {s s' : σ} (hr : Reach step Free s₀ s) (h : exec step s es = some s') :
    Reach step Free s₀ s' := by
  induction es generalizing s with
  | nil => cases h; exact hr
  | cons e es ih =>
    obtain ⟨s1, h1, h2⟩ := bind_eq_some_iff.mp h
    exact ih (.step e hr trivial h1) h2

theorem reach_of_exec (es : List ε) {s' : σ} (h : exec step s₀ es = some s') : Reach step Free s₀ s' :=
  reach_of_exec_from .init h

/-- The steps that meet a decidable condition. -/
def guarded (step : σ → ε → Option σ) (ok : σ → ε → Prop) [∀ s e, Decidable (ok s e)] (s : σ) (e : ε) : Option σ :=
  if ok s e then step s e else none

theorem reach_of_exec_guarded_from [∀ s e, Decidable (ok s e)] {es : List ε} {s s' : σ} (hr : Reach step ok s₀ s)
    (h : exec (guarded step ok) s es = some s') : Reach step ok s₀ s' := by
  induction es generalizing s with
  | nil => cases h; exact hr
  | cons e es ih =>
    obtain ⟨s1, h1, h2⟩ := bind_eq_some_iff.mp h
    obtain ⟨hok, h1⟩ := ite_none_right_eq_some.mp h1
    exact ih (.step e hr hok h1) h2

theorem reach_of_exec_guarded [∀ s e, Decidable (ok s e)] (es : List ε) {s' : σ}
    (h : exec (guarded step ok) s₀ es = some s') : Reach step ok s₀ s' :=
  reach_of_exec_guarded_from .init h

/-! ## Schedules whose steps meet a condition -/

/-- Every step of the schedule meets the condition, as far as it runs. -/
def Meets (step : σ → ε → Option σ) (ok : σ → ε → Prop) : σ → List ε → Prop
  | _, [] => True
  | s, e :: es => ok s e ∧ ∀ s' ∈ step s e, Meets step ok s' es

instance decidableMeets [∀ s e, Decidable (ok s e)] : (s : σ) → (es : List ε) → Decidable (Meets step ok s es)
  | _, [] => .isTrue trivial
  | s, e :: es =>
    have : DecidablePred fun s' => Meets step ok s' es := fun s' => decidableMeets s' es
    inferInstanceAs (Decidable (_ ∧ ∀ s' ∈ step s e, Meets step ok s' es))

/-- What every step that meets the condition does as `next` does, every schedule of such steps does to its end. -/
theorem exec_of_meets {τ : Type} {next : τ → ε → τ} {R : σ → τ → Prop}
    (hs : ∀ {s : σ} {r : τ} {e : ε}, R s r → ok s e → ∃ s', step s e = some s' ∧ R s' (next r e)) {s : σ} {r : τ} (hr : R s r)
    {es : List ε} (h : Meets step ok s es) : ∃ s', exec step s es = some s' ∧ R s' (es.foldl next r) := by
  induction es generalizing s r with
  | nil => exact ⟨s, rfl, hr⟩
  | cons e es ih =>
    obtain ⟨s1, h1, hr1⟩ := hs hr h.1
    obtain ⟨s', h2, hr'⟩ := ih hr1 (h.2 s1 h1)
    exact ⟨s', by rw [exec, h1]; exact h2, hr'⟩

/-- Where a step does as `next` does exactly if it meets the condition, a schedule does all along exactly if its steps meet it. -/
theorem meets_iff {τ : Type} {next : τ → ε → τ} {R P : σ → τ → Prop} (hp : ∀ {s : σ} {r : τ}, R s r → P s r)
    (hs : ∀ {s : σ} {r : τ} {e : ε}, R s r → ok s e → ∃ s', step s e = some s' ∧ R s' (next r e))
    (hn : ∀ {s s' : σ} {r : τ} {e : ε}, R s r → step s e = some s' → P s' (next r e) → ok s e) {s : σ} {r : τ} (hr : R s r)
    (es : List ε) : (∀ l, l <+: es → ∃ s', exec step s l = some s' ∧ P s' (l.foldl next r)) ↔ Meets step ok s es := by
  induction es generalizing s r with
  | nil =>
    refine ⟨fun _ => trivial, fun _ l hl => ?_⟩
    obtain rfl := List.prefix_nil.mp hl
    exact ⟨s, rfl, hp hr⟩
  | cons e es ih =>
    constructor
    · intro h
      obtain ⟨s1, h1, hp1⟩ := h [e] ⟨es, rfl⟩
      obtain ⟨s2, h2, h3⟩ := bind_eq_some_iff.mp h1
      cases h3
      have hok := hn hr h2 hp1
      obtain ⟨s3, h4, hr1⟩ := hs hr hok
      cases h2.symm.trans h4
      refine ⟨hok, fun s' hs' => ?_⟩
      cases h2.symm.trans hs'
      refine (ih hr1).mp fun l hl => ?_
      obtain ⟨s', h5, hp'⟩ := h (e :: l) (List.cons_prefix_cons.mpr ⟨rfl, hl⟩)
      rw [exec, h2] at h5
      exact ⟨s', h5, hp'⟩
    · intro h l hl
      obtain ⟨s1, h1, hr1⟩ := hs hr h.1
      cases l with
      | nil => exact ⟨s, rfl, hp hr⟩
      | cons e' l =>
        obtain ⟨rfl, hrest⟩ := List.cons_prefix_cons.mp hl
        obtain ⟨s', h2, hp'⟩ := (ih hr1).mpr (h.2 s1 h1) l hrest
        exact ⟨s', by rw [exec, h1]; exact h2, hp'⟩

/-! ## Time -/

section Time

/-- `st n` is the state after the first `n` events. -/
def Timeline (step : σ → ε → Option σ) (es : List ε) (st : Nat → σ) : Prop :=
  ∀ n (h : n < es.length), step (st n) es[n] = some (st (n + 1))

variable {es : List ε} {st : Nat → σ}

/-- What holds at the start and of every moment after one it holds of, holds at any time. -/
theorem Timeline.inv (h : Timeline step es st) {P : Nat → Prop} (h0 : P 0)
    (hs : ∀ {n : Nat} {e : ε}, P n → step (st n) e = some (st (n + 1)) → P (n + 1)) : ∀ n ≤ es.length, P n := by
  intro n
  induction n with
  | zero => exact fun _ => h0
  | succ n ih => exact fun hn => hs (ih (Nat.le_of_succ_le hn)) (h n hn)

theorem timeline_of_exec {s s' : σ} (h : exec step s es = some s') :
    ∃ st, Timeline step es st ∧ st 0 = s ∧ st es.length = s' := by
  induction es generalizing s with
  | nil =>
    cases h
    exact ⟨fun _ => s', fun n hn => absurd hn (Nat.not_lt_zero n), rfl, rfl⟩
  | cons e es ih =>
    obtain ⟨s1, h1, h2⟩ := bind_eq_some_iff.mp h
    obtain ⟨st, hst, h3, h4⟩ := ih h2
    refine ⟨fun n => n.casesOn s st, ?_, rfl, h4⟩
    intro n hn
    cases n with
    | zero =>
      show step s e = some (st 0)
      rw [h3]
      exact h1
    | succ n => exact hst n (Nat.lt_of_succ_lt_succ hn)

end Time

/-! ## Counters -/

section Counter

variable {P Q : Nat → Prop} {n a : Nat}

/-- A counter that says how many there are. -/
def Counts (P : Nat → Prop) (n : Nat) : Prop := ∃ l : List Nat, l.Nodup ∧ l.length = n ∧ ∀ t, t ∈ l ↔ P t

theorem Counts.congr (h : Counts P n) (hq : ∀ t, Q t ↔ P t) : Counts Q n := by
  obtain ⟨l, hl, hn, hm⟩ := h
  exact ⟨l, hl, hn, fun t => (hm t).trans (hq t).symm⟩

theorem Counts.up (h : Counts P n) (ha : ¬P a) (hq : ∀ t, Q t ↔ t = a ∨ P t) : Counts Q (n + 1) := by
  obtain ⟨l, hl, hn, hm⟩ := h
  refine ⟨a :: l, List.nodup_cons.mpr ⟨fun h => ha ((hm a).mp h), hl⟩, by simp [hn], fun t => ?_⟩
  rw [List.mem_cons, hm t, hq t]

theorem Counts.down (h : Counts P n) (ha : P a) (hq : ∀ t, Q t ↔ t ≠ a ∧ P t) : Counts Q (n - 1) := by
  obtain ⟨l, hl, hn, hm⟩ := h
  refine ⟨l.erase a, hl.erase a, ?_, fun t => ?_⟩
  · rw [List.length_erase_of_mem ((hm a).mpr ha), hn]
  · rw [hl.mem_erase_iff, hm t, hq t]

theorem Counts.zero (h : Counts P 0) (t : Nat) : ¬P t := by
  obtain ⟨l, -, hn, hm⟩ := h
  rw [List.length_eq_zero_iff.mp hn] at hm
  exact fun ht => absurd ((hm t).mpr ht) List.not_mem_nil

end Counter

/-! ## Histories -/

section History

variable {α : Type} {p q x : α} {l : List α}

/-- Every `p` in the history has a later `q`. -/
def Follows (p q : α) (l : List α) : Prop := ∀ a b, l = a ++ p :: b → q ∈ a

theorem follows_nil : Follows p q [] := by
  intro a b h
  cases a <;> cases h

theorem follows_cons (hx : x ≠ p) (h : Follows p q l) : Follows p q (x :: l) := by
  intro a b he
  cases a with
  | nil => cases he; exact absurd rfl hx
  | cons y a => cases he; exact List.mem_cons_of_mem _ (h a b rfl)

/-- A `q` now comes after every `p` so far. -/
theorem follows_cons_self (hq : q ≠ p) : Follows p q (q :: l) := by
  intro a b he
  cases a with
  | nil => cases he; exact absurd rfl hq
  | cons y a => cases he; exact List.mem_cons_self

/-- At every `p` in the history, `P` held of the history before it. -/
def AtEach (p : α) (P : List α → Prop) (l : List α) : Prop := ∀ a b, l = a ++ p :: b → P b

theorem atEach_nil {P : List α → Prop} : AtEach p P [] := by
  intro a b h
  cases a <;> cases h

theorem atEach_cons {P : List α → Prop} (hx : x = p → P l) (h : AtEach p P l) : AtEach p P (x :: l) := by
  intro a b he
  cases a with
  | nil => cases he; exact hx rfl
  | cons y a => cases he; exact h a b rfl

end History

end DeepFabric.Lib.Run
