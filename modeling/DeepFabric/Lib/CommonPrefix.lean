/-
  DeepFabric.Lib.CommonPrefix — how far neighbours in a sorted sequence agree, and how many agree
  that far.

  Sequences are compared part by part. A part may be `⊥`, a value that compares with none, itself
  included, and is taken for the greater one on both sides; two sequences are `Comparable` if none
  is met on the way to the first part that tells.

  - `weigh_eq`: of comparable sequences the comparison is their lexicographic order, and it ends
    where their common prefix does.
  - `common_min`: the outer two of three sorted sequences agree as far as both pairs between them.
  - `gaps_insert`: one more sequence in a sorted row is one more gap, the greater of the two at
    its sides.
  - `bump_tally`: counters of gaps, kept up one by one.
-/
import Mathlib.Algebra.BigOperators.Ring.Finset
import Mathlib.Data.List.Lex
import Mathlib.Order.WithBot

namespace DeepFabric.Lib.CommonPrefix

open List

/-! ## Sequences of parts -/

section Parts

variable {α : Type}

def common [DecidableEq α] : List α → List α → Nat
  | x :: xs, y :: ys => if x = y then common xs ys + 1 else 0
  | _, _ => 0

theorem common_comm [DecidableEq α] (xs ys : List α) : common xs ys = common ys xs := by
  induction xs generalizing ys with
  | nil => cases ys <;> rfl
  | cons x xs ih =>
    cases ys with
    | nil => rfl
    | cons y ys => simp only [common, ih ys, eq_comm]

theorem common_lt [DecidableEq α] {xs ys : List α} (hlen : xs.length = ys.length) (hne : xs ≠ ys) : common xs ys < xs.length := by
  induction xs generalizing ys with
  | nil => exact absurd (eq_nil_of_length_eq_zero hlen.symm).symm hne
  | cons x xs ih =>
    cases ys with
    | nil => cases hlen
    | cons y ys =>
      unfold common
      split_ifs with heq
      · have hrest : xs ≠ ys := fun h => hne (by rw [heq, h])
        exact Nat.succ_lt_succ (ih (Nat.succ.inj hlen) hrest)
      · exact Nat.succ_pos _

/-- No `⊥` stands in either before they part, nor where they do. -/
def Comparable : List (WithBot α) → List (WithBot α) → Prop
  | x :: xs, y :: ys => x ≠ ⊥ ∧ y ≠ ⊥ ∧ (x = y → Comparable xs ys)
  | _, _ => True

variable {xs ys : List (WithBot α)}

theorem Comparable.symm (h : Comparable xs ys) : Comparable ys xs := by
  induction xs generalizing ys with
  | nil => cases ys <;> trivial
  | cons x xs ih =>
    cases ys with
    | nil => trivial
    | cons y ys => exact ⟨h.2.1, h.1, fun heq => ih (h.2.2 heq.symm)⟩

variable [LinearOrder α]

theorem common_min {xs ys zs : List α} (hxy : xs < ys) (hyz : ys < zs) : common xs zs = min (common xs ys) (common ys zs) := by
  induction xs generalizing ys zs with
  | nil => cases ys <;> cases zs <;> simp [common]
  | cons x xs ih =>
    cases ys with
    | nil => exact absurd hxy (not_lt_nil _)
    | cons y ys =>
      cases zs with
      | nil => exact absurd hyz (not_lt_nil _)
      | cons z zs =>
        rw [cons_lt_cons_iff] at hxy hyz
        unfold common
        rcases hxy with hxy | ⟨rfl, hxy⟩
        · have hxz : x < z := by
            rcases hyz with hyz | ⟨rfl, -⟩
            · exact lt_trans hxy hyz
            · exact hxy
          rw [if_neg (ne_of_lt hxz), if_neg (ne_of_lt hxy), Nat.zero_min]
        · rcases hyz with hyz | ⟨rfl, hyz⟩
          · rw [if_neg (ne_of_lt hyz), if_pos rfl, if_neg (ne_of_lt hyz), Nat.min_zero]
          · rw [if_pos rfl, if_pos rfl, if_pos rfl, ih hxy hyz, Nat.add_min_add_right]

/-- One part against another. -/
def weight : WithBot α → WithBot α → Int
  | (x : α), (y : α) => if x < y then -1 else if x = y then 0 else 1
  | _, _ => 1

/-- The weight of the first parts that do not weigh the same, and how many are ahead of them. -/
def weigh : List (WithBot α) → List (WithBot α) → Int × Nat
  | x :: xs, y :: ys => if weight x y = 0 then ((weigh xs ys).1, (weigh xs ys).2 + 1) else (weight x y, 0)
  | _, _ => (0, 0)

instance decidableComparable : (xs ys : List (WithBot α)) → Decidable (Comparable xs ys)
  | [], _ => .isTrue (by cases ‹List (WithBot α)› <;> trivial)
  | _ :: _, [] => .isTrue trivial
  | x :: xs, y :: ys =>
    have := decidableComparable xs ys
    inferInstanceAs (Decidable (x ≠ ⊥ ∧ y ≠ ⊥ ∧ (x = y → Comparable xs ys)))

theorem weight_eq {x y : WithBot α} (hx : x ≠ ⊥) (hy : y ≠ ⊥) : weight x y = if x < y then -1 else if x = y then 0 else 1 := by
  obtain ⟨a, rfl⟩ := WithBot.ne_bot_iff_exists.mp hx
  obtain ⟨b, rfl⟩ := WithBot.ne_bot_iff_exists.mp hy
  simp only [WithBot.coe_lt_coe, WithBot.coe_inj]
  rfl

theorem weight_nonpos {x y : WithBot α} (h : weight x y ≤ 0) : x ≠ ⊥ ∧ y ≠ ⊥ := by
  have hone : ¬(1 : Int) ≤ 0 := by decide
  cases x with
  | bot => exact absurd h hone
  | coe a =>
    cases y with
    | bot => exact absurd h hone
    | coe b => exact ⟨WithBot.coe_ne_bot, WithBot.coe_ne_bot⟩

theorem weigh_eq (h : Comparable xs ys) (hlen : xs.length = ys.length) :
    weigh xs ys = (if xs < ys then -1 else if xs = ys then 0 else 1, common xs ys) := by
  induction xs generalizing ys with
  | nil =>
    cases ys with
    | nil => rfl
    | cons y ys => cases hlen
  | cons x xs ih =>
    cases ys with
    | nil => cases hlen
    | cons y ys =>
      obtain ⟨hx, hy, hrest⟩ := h
      unfold weigh common
      rw [weight_eq hx hy]
      rcases lt_trichotomy x y with hlt | rfl | hgt
      · have hcons : x :: xs < y :: ys := cons_lt_cons_iff.mpr (Or.inl hlt)
        simp [hlt, ne_of_lt hlt, hcons]
      · rw [ih (hrest rfl) (Nat.succ.inj hlen)]
        simp
      · have hcons : ¬x :: xs < y :: ys := by
          rw [cons_lt_cons_iff]
          intro h
          rcases h with h | ⟨h, -⟩
          · exact lt_asymm hgt h
          · exact ne_of_gt hgt h
        simp [not_lt_of_gt hgt, ne_of_gt hgt, hcons]

/-- What weighs the same is the same. -/
theorem eq_of_weigh (hlen : xs.length = ys.length) (h : (weigh xs ys).1 = 0) : xs = ys := by
  induction xs generalizing ys with
  | nil => exact (eq_nil_of_length_eq_zero hlen.symm).symm
  | cons x xs ih =>
    cases ys with
    | nil => cases hlen
    | cons y ys =>
      unfold weigh at h
      split_ifs at h with hzero
      · obtain ⟨hx, hy⟩ := weight_nonpos (le_of_eq hzero)
        rw [weight_eq hx hy] at hzero
        split_ifs at hzero with h1 h2
        · rw [h2, ih (Nat.succ.inj hlen) h]
        · cases hzero
      · exact absurd h hzero

/-- What weighs less is comparable. -/
theorem comparable_of_weigh (h : (weigh xs ys).1 < 0) : Comparable xs ys := by
  induction xs generalizing ys with
  | nil => cases ys <;> trivial
  | cons x xs ih =>
    cases ys with
    | nil => trivial
    | cons y ys =>
      unfold weigh at h
      split_ifs at h with hzero
      · obtain ⟨hx, hy⟩ := weight_nonpos (le_of_eq hzero)
        exact ⟨hx, hy, fun _ => ih h⟩
      · obtain ⟨hx, hy⟩ := weight_nonpos (le_of_lt h)
        refine ⟨hx, hy, fun heq => absurd ?_ hzero⟩
        rw [weight_eq hx hy, heq, if_neg (lt_irrefl y), if_pos rfl]

end Parts

/-! ## Gaps between neighbours -/

section Gaps

variable {α : Type} (d : α → α → Nat)

def gapsFrom : α → List α → List Nat
  | _, [] => []
  | p, x :: xs => d p x :: gapsFrom x xs

/-- The gap ahead of each, which is 0 for the first. -/
def gaps : List α → List Nat
  | [] => []
  | x :: xs => 0 :: gapsFrom d x xs

/-- The greater of the gaps at both sides of `x`. -/
def widest (pre : List α) (x : α) (post : List α) : Nat :=
  max (pre.getLast?.elim 0 fun p => d p x) (post.head?.elim 0 fun s => d x s)

variable {d}

theorem gapsFrom_append (p : α) (xs ys : List α) : gapsFrom d p (xs ++ ys) = gapsFrom d p xs ++ gapsFrom d (xs.getLastD p) ys := by
  induction xs generalizing p with
  | nil => rfl
  | cons x xs ih =>
    rw [cons_append, gapsFrom, gapsFrom, ih x, getLastD_cons, cons_append]

theorem gaps_concat (xs ys : List α) (p : α) : gaps d (xs ++ p :: ys) = gaps d (xs ++ [p]) ++ gapsFrom d p ys := by
  cases xs with
  | nil => rfl
  | cons x xs =>
    have h := gapsFrom_append (d := d) x (xs ++ [p]) ys
    rw [append_assoc, singleton_append, getLastD_concat] at h
    rw [cons_append, cons_append, gaps, gaps, h, cons_append]

theorem gaps_snoc (xs : List α) (x : α) : gaps d (xs ++ [x]) = gaps d xs ++ [xs.getLast?.elim 0 fun p => d p x] := by
  rcases List.eq_nil_or_concat' xs with rfl | ⟨xs, p, rfl⟩
  · rfl
  · rw [append_assoc, singleton_append, gaps_concat, List.getLast?_concat]
    rfl

theorem length_gapsFrom (p : α) (xs : List α) : (gapsFrom d p xs).length = xs.length := by
  induction xs generalizing p with
  | nil => rfl
  | cons x xs ih => rw [gapsFrom, length_cons, ih x, length_cons]

theorem length_gaps (xs : List α) : (gaps d xs).length = xs.length := by
  cases xs with
  | nil => rfl
  | cons x xs => rw [gaps, length_cons, length_gapsFrom, length_cons]

variable {r : α → α → Prop} {xs : List α}

/-- Neighbours stand in order. -/
theorem mem_gapsFrom {p : α} (hs : (p :: xs).Pairwise r) {g : Nat} (h : g ∈ gapsFrom d p xs) :
    ∃ a b, r a b ∧ g = d a b := by
  induction xs generalizing p with
  | nil => exact absurd h not_mem_nil
  | cons x xs ih =>
    obtain ⟨hp, hxs⟩ := pairwise_cons.mp hs
    rcases mem_cons.mp h with h | h
    · exact ⟨p, x, hp x mem_cons_self, h⟩
    · exact ih hxs h

theorem mem_gaps (hs : xs.Pairwise r) {g : Nat} (h : g ∈ gaps d xs) :
    g = 0 ∨ ∃ a b, r a b ∧ g = d a b := by
  cases xs with
  | nil => exact absurd h not_mem_nil
  | cons x xs =>
    rcases mem_cons.mp h with h | h
    · exact Or.inl h
    · exact Or.inr (mem_gapsFrom hs h)

/-- Gaps that are the same between all, in order, are the same between neighbours. -/
theorem gaps_map {β : Type} {d' : β → β → Nat} {f : α → β} (hd : ∀ {a b}, r a b → d a b = d' (f a) (f b))
    (hs : xs.Pairwise r) : gaps d xs = gaps d' (xs.map f) := by
  have hfrom {p : α} {xs : List α} (hs : (p :: xs).Pairwise r) : gapsFrom d p xs = gapsFrom d' (f p) (xs.map f) := by
    induction xs generalizing p with
    | nil => rfl
    | cons x xs ih =>
      obtain ⟨hp, hxs⟩ := pairwise_cons.mp hs
      rw [gapsFrom, map_cons, gapsFrom, hd (hp x mem_cons_self), ih hxs]
  cases xs with
  | nil => rfl
  | cons x xs => rw [gaps, map_cons, gaps, hfrom hs]

theorem gaps_insert {pre post : List α} {x : α}
    (h : ∀ p ∈ pre.getLast?, ∀ s ∈ post.head?, d p s = min (d p x) (d x s)) :
    (gaps d (pre ++ x :: post)).Perm (widest d pre x post :: gaps d (pre ++ post)) := by
  rcases List.eq_nil_or_concat' pre with rfl | ⟨pre, p, rfl⟩
  · cases post with
    | nil => exact List.Perm.refl _
    | cons s post =>
      have hw : widest d [] x (s :: post) = d x s := Nat.zero_max _
      rw [hw, nil_append, nil_append, gaps, gapsFrom, gaps]
      exact List.Perm.swap ..
  · have hx : gaps d (pre ++ [p] ++ x :: post) = gaps d (pre ++ [p]) ++ d p x :: gapsFrom d x post := by
      rw [append_assoc, singleton_append, gaps_concat, gapsFrom]
    rw [hx]
    cases post with
    | nil =>
      have hw : widest d (pre ++ [p]) x [] = d p x := by
        rw [widest, List.getLast?_concat]
        exact Nat.max_zero _
      rw [hw, append_nil]
      exact perm_append_comm
    | cons s post =>
      have hmin : d p s = min (d p x) (d x s) := h p List.getLast?_concat s rfl
      have hw : widest d (pre ++ [p]) x (s :: post) = max (d p x) (d x s) := by
        rw [widest, List.getLast?_concat]
        rfl
      have hs : gaps d (pre ++ [p] ++ s :: post) = gaps d (pre ++ [p]) ++ d p s :: gapsFrom d s post := by
        rw [append_assoc, singleton_append, gaps_concat, gapsFrom]
      rw [hw, hs, hmin, gapsFrom]
      refine List.Perm.trans ?_ perm_middle
      refine List.Perm.append_left _ ?_
      -- of the two gaps one is the smaller, as before, and one is the greater
      rcases Nat.le_total (d p x) (d x s) with hle | hle
      · rw [Nat.max_eq_right hle, Nat.min_eq_left hle]
        exact List.Perm.swap ..
      · rw [Nat.max_eq_left hle, Nat.min_eq_right hle]

/-- In a sorted row, none has more in common with `x` than its neighbours. -/
theorem common_le_widest [LinearOrder α] {pre post : List (List α)} {x : List α} (hs : (pre ++ x :: post).Pairwise (· < ·)) :
    (∀ y ∈ pre, common y x ≤ widest common pre x post) ∧ ∀ y ∈ post, common x y ≤ widest common pre x post := by
  obtain ⟨hpre, hpost, hcross⟩ := pairwise_append.mp hs
  constructor
  · rcases List.eq_nil_or_concat' pre with rfl | ⟨pre, p, rfl⟩
    · exact fun y hy => absurd hy not_mem_nil
    · have hle : common p x ≤ widest common (pre ++ [p]) x post := by
        rw [widest, List.getLast?_concat]
        exact Nat.le_max_left _ _
      intro y hy
      rcases mem_append.mp hy with hy | hy
      · have hyp : y < p := (pairwise_append.mp hpre).2.2 y hy p (mem_singleton.mpr rfl)
        have hpx : p < x := hcross p (mem_append_right _ (mem_singleton.mpr rfl)) x mem_cons_self
        have hmin := common_min hyp hpx
        omega
      · rw [mem_singleton.mp hy]
        exact hle
  · cases post with
    | nil => exact fun y hy => absurd hy not_mem_nil
    | cons s post =>
      obtain ⟨hx, hpost⟩ := pairwise_cons.mp hpost
      have hle : common x s ≤ widest common pre x (s :: post) := Nat.le_max_right _ _
      intro y hy
      rcases mem_cons.mp hy with rfl | hy
      · exact hle
      · have hmin := common_min (hx s mem_cons_self) ((pairwise_cons.mp hpost).1 y hy)
        omega

theorem widest_lt [DecidableEq α] {n : Nat} (hn : 0 < n) {pre post : List (List α)} {x : List α} (hx : x.length = n)
    (hpre : ∀ y ∈ pre, y.length = n ∧ y ≠ x) (hpost : ∀ y ∈ post, y.length = n ∧ y ≠ x) : widest common pre x post < n := by
  have hleft : (pre.getLast?.elim 0 fun p => common p x) < n := by
    cases h : pre.getLast? with
    | none => exact hn
    | some p =>
      obtain ⟨hlen, hne⟩ := hpre p (mem_of_getLast? h)
      exact hlen ▸ common_lt (hlen.trans hx.symm) hne
  have hright : (post.head?.elim 0 fun s => common x s) < n := by
    cases h : post.head? with
    | none => exact hn
    | some s =>
      obtain ⟨hlen, hne⟩ := hpost s (mem_of_mem_head? h)
      exact hx ▸ common_lt (hx.trans hlen.symm) (Ne.symm hne)
  exact Nat.max_lt.mpr ⟨hleft, hright⟩

end Gaps

/-! ## Counters -/

section Tally

variable {n : Nat} {gs : List Nat}

/-- How often each number below `n` occurs. -/
def tally (n : Nat) (gs : List Nat) : List Int := (List.range n).map fun i => (gs.count i : Int)

/-- A counter goes up or down, if there is one. -/
def bump (change : Int) (counters : List Int) (pos : Nat) : Option (List Int) :=
  counters[pos]?.map fun c => counters.set pos (c + change)

theorem tally_nil : tally n [] = List.replicate n 0 := by
  simp [tally, List.map_const']

theorem tally_perm {gs' : List Nat} (h : gs.Perm gs') : tally n gs = tally n gs' := by
  unfold tally
  simp only [h.count_eq]

theorem getElem?_tally {i : Nat} (hi : i < n) : (tally n gs)[i]? = some (gs.count i : Int) := by
  unfold tally
  rw [List.getElem?_map, List.getElem?_range hi, Option.map_some]

theorem tally_nonneg : ∀ c ∈ tally n gs, 0 ≤ c := by
  intro c hc
  obtain ⟨i, -, rfl⟩ := mem_map.mp hc
  exact Int.natCast_nonneg _

variable {p : Nat}

theorem set_tally {c : Int} {gs' : List Nat} (hp : (gs'.count p : Int) = c) (h : ∀ i, i ≠ p → gs'.count i = gs.count i) :
    (tally n gs).set p c = tally n gs' := by
  apply ext_getElem?
  intro i
  rw [List.getElem?_set]
  by_cases hi : i < n
  · rw [getElem?_tally hi, getElem?_tally hi]
    split_ifs with h1 h2
    · rw [← h1, hp]
    · exact absurd (by simpa [tally, h1] using hi) h2
    · rw [h i fun h => h1 h.symm]
  · have hout (gs : List Nat) : (tally n gs)[i]? = none := List.getElem?_eq_none (by simpa [tally] using hi)
    rw [hout, hout]
    split_ifs with h1 h2
    · exact absurd (by simpa [tally, h1] using h2) hi
    · rfl
    · rfl

theorem bump_up (hp : p < n) : bump 1 (tally n gs) p = some (tally n (p :: gs)) := by
  rw [bump, getElem?_tally hp, Option.map_some]
  refine congrArg some (set_tally ?_ fun i hi => count_cons_of_ne (Ne.symm hi))
  rw [count_cons_self]
  rfl

theorem bump_down (hp : p < n) : bump (-1) (tally n (p :: gs)) p = some (tally n gs) := by
  rw [bump, getElem?_tally hp, Option.map_some]
  refine congrArg some (set_tally ?_ fun i hi => (count_cons_of_ne (Ne.symm hi)).symm)
  rw [count_cons_self]
  omega

theorem sum_tally (h : ∀ g ∈ gs, g < n) : (tally n gs).sum = gs.length := by
  have hcount : ∑ i ∈ Finset.range n, gs.count i = gs.length := by
    simpa using Multiset.sum_count_eq_card (m := (gs : Multiset Nat)) fun g hg => Finset.mem_range.mpr (h g hg)
  rw [← hcount, Nat.cast_sum]
  rfl

end Tally

end DeepFabric.Lib.CommonPrefix
