/-
  DeepFabric.Lib.Scan — a partial function, followed from a place until it leads nowhere.

  `follow` is given turns, and `Ends` says where it comes to in the end. A relation between places is
  good for the steps it has, all of them steps of the function; a chain is of good steps.

  - `follow_iff`: with enough turns `follow` comes to the end, and with fewer to nothing.
  - `Ends.unique`: there is one end.
  - `chain_iff`: where good steps come nearer to a bound, the end is reached along a chain exactly
    if every step on the way is good.
-/
import Mathlib.Logic.Relation

namespace DeepFabric.Lib.Scan

open Relation

variable {α β : Type} {f : α → Option α} {good : α → α → Prop} {a b p q r : α}

/-- none: there were too few turns. -/
def follow (f : α → Option α) : Nat → α → Option α
  | 0, _ => none
  | fuel + 1, a =>
    match f a with
    | none => some a
    | some b => follow f fuel b

inductive Ends (f : α → Option α) : α → α → Prop
  | stop {a : α} : f a = none → Ends f a a
  | step {a b r : α} : f a = some b → Ends f b r → Ends f a r

theorem Ends.of_follow {fuel : Nat} (h : follow f fuel a = some r) : Ends f a r := by
  induction fuel generalizing a with
  | zero => cases h
  | succ fuel ih =>
    rw [follow] at h
    cases hf : f a with
    | none =>
      rw [hf] at h
      cases h
      exact .stop hf
    | some b =>
      rw [hf] at h
      exact .step hf (ih h)

theorem Ends.follow (h : Ends f a r) : ∃ fuel, ∀ more, follow f (fuel + more) a = some r := by
  induction h with
  | stop h =>
    refine ⟨1, fun more => ?_⟩
    rw [Nat.add_comm, Scan.follow, h]
  | step h _ ih =>
    obtain ⟨fuel, ih⟩ := ih
    refine ⟨fuel + 1, fun more => ?_⟩
    rw [Nat.add_right_comm, Scan.follow, h]
    exact ih more

theorem follow_iff : (∃ fuel, follow f fuel a = some r) ↔ Ends f a r :=
  ⟨fun ⟨_, h⟩ => .of_follow h, fun h => h.follow.imp fun _ hfuel => hfuel 0⟩

theorem Ends.stops (h : Ends f a r) : f r = none := by
  induction h with
  | stop h => exact h
  | step _ _ ih => exact ih

theorem Ends.unique (h : Ends f a r) (h' : Ends f a p) : r = p := by
  induction h with
  | stop h =>
    cases h' with
    | stop => rfl
    | step hs _ => cases h.symm.trans hs
  | step h _ ih =>
    cases h' with
    | stop hs => cases h.symm.trans hs
    | step hs h' =>
      cases h.symm.trans hs
      exact ih h'

theorem follow_cycle (h : f a = some a) (fuel : Nat) : follow f fuel a = none := by
  induction fuel with
  | zero => rfl
  | succ fuel ih =>
    rw [follow, h]
    exact ih

theorem Ends.invariant (inv : α → Prop) (hstep : ∀ p q, inv p → f p = some q → inv q) (h : Ends f a r) (ha : inv a) : inv r := by
  induction h with
  | stop _ => exact ha
  | step h _ ih => exact ih (hstep _ _ ha h)

section Map

variable {g : β → Option β} {part : α → β} (hpart : ∀ a, (f a).map part = g (part a))
include hpart

/-- What is followed of a part of a place, is followed of the place. -/
theorem Ends.map (h : Ends f a r) : Ends g (part a) (part r) := by
  induction h with
  | @stop a h =>
    refine .stop ?_
    rw [← hpart, h, Option.map_none]
  | @step a b r h _ ih =>
    refine .step ?_ ih
    rw [← hpart, h, Option.map_some]

theorem Ends.lift {b s : β} (h : Ends g b s) (a : α) (ha : part a = b) : ∃ r, Ends f a r ∧ part r = s := by
  induction h generalizing a with
  | stop h =>
    subst ha
    rw [← hpart, Option.map_eq_none_iff] at h
    exact ⟨a, .stop h, rfl⟩
  | step h _ ih =>
    subst ha
    rw [← hpart, Option.map_eq_some_iff] at h
    obtain ⟨a', ha', hpart'⟩ := h
    obtain ⟨r, hr, hs⟩ := ih a' hpart'
    exact ⟨r, .step ha' hr, hs⟩

end Map

/-- Somewhere on the way from a place. -/
def Reaches (f : α → Option α) : α → α → Prop := ReflTransGen fun p q => f p = some q

/-- With a chain to the end, there is no step on the way that is not good. -/
theorem good_of_chain (hgood : ∀ a b, good a b → f a = some b) (hr : f r = none) (h : ReflTransGen good a r) (hp : Reaches f a p)
    (hq : f p = some q) : good p q := by
  induction hp using ReflTransGen.head_induction_on with
  | refl =>
    rcases ReflTransGen.cases_head h with rfl | ⟨c, hc, -⟩
    · cases hr.symm.trans hq
    · cases (hgood p c hc).symm.trans hq
      exact hc
  | head hstep _ ih =>
    rcases ReflTransGen.cases_head h with rfl | ⟨c, hc, h⟩
    · cases hr.symm.trans hstep
    · cases (hgood _ _ hc).symm.trans hstep
      exact ih h

/-- Good steps all along lead to an end. -/
theorem ends_of_good (size : α → Nat) (hsize : ∀ a b, good a b → size b < size a) (h : ∀ p q, Reaches f a p → f p = some q → good p q) :
    ∃ r, Ends f a r ∧ ReflTransGen good a r := by
  induction hn : size a using Nat.strongRecOn generalizing a with
  | ind n ih =>
    cases hf : f a with
    | none => exact ⟨a, .stop hf, .refl⟩
    | some b =>
      have hab := h a b .refl hf
      obtain ⟨r, hr, hchain⟩ := ih (size b) (hn ▸ hsize a b hab) (fun p q hp => h p q (.head hf hp)) rfl
      exact ⟨r, .step hf hr, .head hab hchain⟩

theorem chain_iff (hgood : ∀ a b, good a b → f a = some b) (size : α → Nat) (hsize : ∀ a b, good a b → size b < size a) :
    (∃ r, Ends f a r ∧ ReflTransGen good a r) ↔ ∀ p q, Reaches f a p → f p = some q → good p q :=
  ⟨fun ⟨_, hr, hchain⟩ _ _ hp hq => good_of_chain hgood hr.stops hchain hp hq, ends_of_good size hsize⟩

end DeepFabric.Lib.Scan
