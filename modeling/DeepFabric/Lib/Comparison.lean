/-
  DeepFabric.Lib.Comparison — comparing part by part, and searching what is in order.

  A comparison of two lists goes over a list of comparators, one a position, and is decided by the
  first two elements that differ.

  - `lexCmp_transCmp`: it is a total preorder when its comparators are.
  - `lexCmp_take`: what is in order is in order by its first parts.
  - `before_trans_iff`: elements compared by a key if both have one, and by themselves otherwise, are
    in order exactly if none without a key is between two whose keys are the other way around.
  - `byKey_totalOn_iff`: a comparison by a key and then by something else orders a list exactly if
    the keys are in order, and the elements of each key, and keys that compare as equal do no harm.
  - `Ascending.boundaries`: a search target that elements in order ascend to splits them at one lower
    and one upper boundary.
-/
import Mathlib.Order.Lattice
import Mathlib.Data.List.Basic
import Mathlib.Order.Basic

namespace DeepFabric.Lib

open Std

/-! ## Part by part -/

section LexCmp

variable {α : Type} {cmp : α → α → Ordering} {cmps : List (α → α → Ordering)} {xs ys zs : List α}

def lexCmp : List (α → α → Ordering) → List α → List α → Ordering
  | cmp :: cmps, x :: xs, y :: ys => (cmp x y).then (lexCmp cmps xs ys)
  | _, _, _ => .eq

theorem lexCmp_cons (x y : α) : lexCmp (cmp :: cmps) (x :: xs) (y :: ys) = (cmp x y).then (lexCmp cmps xs ys) := rfl

theorem lexCmp_swap (h : ∀ cmp ∈ cmps, TransCmp cmp) : lexCmp cmps xs ys = (lexCmp cmps ys xs).swap := by
  induction cmps generalizing xs ys with
  | nil => cases xs <;> cases ys <;> rfl
  | cons cmp cmps ih =>
    have hcmp := h cmp List.mem_cons_self
    cases xs with
    | nil => cases ys <;> rfl
    | cons x xs =>
      cases ys with
      | nil => rfl
      | cons y ys =>
        rw [lexCmp_cons, lexCmp_cons, Ordering.swap_then, ← OrientedCmp.eq_swap, ← ih (List.forall_mem_cons.mp h).2]

theorem lexCmp_trans (h : ∀ cmp ∈ cmps, TransCmp cmp) (hy : cmps.length ≤ ys.length) (hxy : (lexCmp cmps xs ys).isLE)
    (hyz : (lexCmp cmps ys zs).isLE) : (lexCmp cmps xs zs).isLE := by
  induction cmps generalizing xs ys zs with
  | nil => cases xs <;> cases zs <;> rfl
  | cons cmp cmps ih =>
    have hcmp := h cmp List.mem_cons_self
    cases xs with
    | nil => cases zs <;> rfl
    | cons x xs =>
      cases zs with
      | nil => rfl
      | cons z zs =>
        cases ys with
        | nil => exact absurd hy (Nat.not_succ_le_zero _)
        | cons y ys =>
          simp only [lexCmp_cons, Ordering.isLE_then_iff_and] at hxy hyz ⊢
          refine ⟨TransCmp.isLE_trans hxy.1 hyz.1, ?_⟩
          rcases hxy.2 with hlt | hxy'
          · exact .inl (TransCmp.lt_of_lt_of_isLE hlt hyz.1)
          · rcases hyz.2 with hlt | hyz'
            · exact .inl (TransCmp.lt_of_isLE_of_lt hxy.1 hlt)
            · exact .inr (ih (List.forall_mem_cons.mp h).2 (Nat.le_of_succ_le_succ hy) hxy' hyz')

/-- What has enough elements is compared by them. -/
theorem lexCmp_transCmp {β : Type} (h : ∀ cmp ∈ cmps, TransCmp cmp) {g : β → List α} (hlen : ∀ b, cmps.length ≤ (g b).length) :
    TransCmp fun b c => lexCmp cmps (g b) (g c) where
  eq_swap := lexCmp_swap h
  isLE_trans {_ b _} := lexCmp_trans h (hlen b)

theorem lexCmp_eq (h : ∀ cmp ∈ cmps, LawfulEqCmp cmp) (hx : xs.length = cmps.length) (hy : ys.length = cmps.length) :
    lexCmp cmps xs ys = .eq ↔ xs = ys := by
  induction cmps generalizing xs ys with
  | nil => rw [List.length_eq_zero_iff.mp hx, List.length_eq_zero_iff.mp hy]; exact ⟨fun _ => rfl, fun _ => rfl⟩
  | cons cmp cmps ih =>
    have hcmp := h cmp List.mem_cons_self
    obtain ⟨x, xs, rfl⟩ := List.exists_cons_of_length_eq_add_one hx
    obtain ⟨y, ys, rfl⟩ := List.exists_cons_of_length_eq_add_one hy
    rw [lexCmp_cons, Ordering.then_eq_eq, LawfulEqCmp.compare_eq_iff_eq,
      ih (List.forall_mem_cons.mp h).2 (Nat.succ.inj hx) (Nat.succ.inj hy), List.cons.injEq]

/-- What is in order is in order by its first parts. -/
theorem lexCmp_take (n : Nat) (h : (lexCmp cmps xs ys).isLE) : (lexCmp (cmps.take n) xs ys).isLE := by
  induction cmps generalizing xs ys n with
  | nil => rw [List.take_nil]; exact h
  | cons cmp cmps ih =>
    cases n with
    | zero => cases xs <;> cases ys <;> rfl
    | succ n =>
      cases xs with
      | nil => cases ys <;> rfl
      | cons x xs =>
        cases ys with
        | nil => rfl
        | cons y ys =>
          rw [List.take_succ_cons, lexCmp_cons, Ordering.isLE_then_iff_and]
          rw [lexCmp_cons, Ordering.isLE_then_iff_and] at h
          exact ⟨h.1, h.2.imp_right (ih n)⟩

end LexCmp

/-! ## By a key that some lack -/

section Keyed

variable {ι τ : Type} [LinearOrder ι] [LinearOrder τ] {key : ι → Option τ}

/-- By the keys if both have one; by themselves otherwise, or if the keys are equal. -/
def Before (key : ι → Option τ) (i j : ι) : Prop :=
  match key i, key j with
  | some a, some b => a < b ∨ a = b ∧ i < j
  | _, _ => i < j

/-- Nothing without a key is between two whose keys are the other way around. -/
def Unmixed (key : ι → Option τ) : Prop :=
  ∀ i u j a b, i < u → u < j → key i = some a → key u = none → key j = some b → a ≤ b

theorem before_asymm {i j : ι} (hij : Before key i j) : ¬Before key j i := by
  intro hji
  unfold Before at hij hji
  cases hi : key i with
  | none =>
    have hij' : i < j := by simpa only [hi] using hij
    have hji' : j < i := by cases hj : key j <;> simpa only [hi, hj] using hji
    exact lt_asymm hij' hji'
  | some a =>
    cases hj : key j with
    | none =>
      simp only [hi, hj] at hij hji
      exact lt_asymm hij hji
    | some b =>
      simp only [hi, hj] at hij hji
      rcases hij with hab | ⟨rfl, hij⟩
      · rcases hji with hba | ⟨rfl, -⟩
        · exact lt_asymm hab hba
        · exact lt_irrefl _ hab
      · rcases hji with haa | ⟨-, hji⟩
        · exact lt_irrefl _ haa
        · exact lt_asymm hij hji

theorem before_trans_iff : (∀ i j k, Before key i j → Before key j k → Before key i k) ↔ Unmixed key := by
  constructor
  · intro h i u j a b hiu huj hi hu hj
    have hij := h i u j (by simpa [Before, hi, hu] using hiu) (by simpa [Before, hj, hu] using huj)
    simp only [Before, hi, hj] at hij
    rcases hij with hlt | ⟨heq, -⟩
    · exact hlt.le
    · exact heq.le
  · intro h i j k hij hjk
    unfold Before at *
    cases hi : key i with
    | none =>
      cases hj : key j with
      | none =>
        simp only [hi, hj] at hij hjk ⊢
        exact hij.trans hjk
      | some b =>
        cases hk : key k with
        | none =>
          simp only [hi, hj, hk] at hij hjk ⊢
          exact hij.trans hjk
        | some c =>
          simp only [hi, hj, hk] at hij hjk ⊢
          -- were k below i, then i would be between k and j
          refine lt_of_not_ge fun hki => ?_
          rcases hki.eq_or_lt with rfl | hki
          · rw [hi] at hk
            cases hk
          · have hcb := h k i j c b hki hij hk hi hj
            rcases hjk with hbc | ⟨-, hjk⟩
            · exact absurd hbc hcb.not_gt
            · exact lt_asymm (hki.trans hij) hjk
    | some a =>
      cases hj : key j with
      | none =>
        cases hk : key k with
        | none =>
          simp only [hi, hj, hk] at hij hjk ⊢
          exact hij.trans hjk
        | some c =>
          simp only [hi, hj, hk] at hij hjk ⊢
          rcases (h i j k a c hij hjk hi hj hk).eq_or_lt with rfl | hac
          · exact .inr ⟨rfl, hij.trans hjk⟩
          · exact .inl hac
      | some b =>
        cases hk : key k with
        | none =>
          simp only [hi, hj, hk] at hij hjk ⊢
          refine lt_of_not_ge fun hki => ?_
          rcases hki.eq_or_lt with rfl | hki
          · rw [hi] at hk
            cases hk
          · have hba := h j k i b a hjk hki hj hk hi
            rcases hij with hab | ⟨-, hij⟩
            · exact absurd hab hba.not_gt
            · exact lt_asymm (hjk.trans hki) hij
        | some c =>
          simp only [hi, hj, hk] at hij hjk ⊢
          rcases hij with hab | ⟨rfl, hij⟩
          · rcases hjk with hbc | ⟨rfl, -⟩
            · exact .inl (hab.trans hbc)
            · exact .inl hab
          · rcases hjk with hbc | ⟨rfl, hjk⟩
            · exact .inl hbc
            · exact .inr ⟨rfl, hij.trans hjk⟩

end Keyed

/-! ## Searching -/

section Search

variable {α : Type} {f : α → Ordering} {xs : List α}

/-- Once an element is not below the target, none is; once one is above, all are. -/
def Ascending (f : α → Ordering) (xs : List α) : Prop :=
  xs.Pairwise fun x y => (f y = .lt → f x = .lt) ∧ (f x = .gt → f y = .gt)

/-- Below the target up to `lower`, above from `upper` on. -/
structure Boundaries (f : α → Ordering) (xs : List α) (lower upper : Nat) : Prop where
  le : lower ≤ upper
  le_length : upper ≤ xs.length
  below : ∀ i (h : i < xs.length), f xs[i] = .lt ↔ i < lower
  above : ∀ i (h : i < xs.length), f xs[i] = .gt ↔ upper ≤ i

theorem Boundaries.unique {l u l' u' : Nat} (h : Boundaries f xs l u) (h' : Boundaries f xs l' u') : l = l' ∧ u = u' := by
  have hle := h.le
  have hlen := h.le_length
  have hle' := h'.le
  have hlen' := h'.le_length
  constructor
  · rcases Nat.lt_trichotomy l l' with hlt | heq | hgt
    · have := (h.below l (by omega)).mp ((h'.below l (by omega)).mpr hlt)
      omega
    · exact heq
    · have := (h'.below l' (by omega)).mp ((h.below l' (by omega)).mpr hgt)
      omega
  · rcases Nat.lt_trichotomy u u' with hlt | heq | hgt
    · have := (h'.above u (by omega)).mp ((h.above u (by omega)).mpr (Nat.le_refl u))
      omega
    · exact heq
    · have := (h.above u' (by omega)).mp ((h'.above u' (by omega)).mpr (Nat.le_refl u'))
      omega

theorem Ascending.exists_boundaries (h : Ascending f xs) : ∃ l u, Boundaries f xs l u := by
  induction xs with
  | nil => exact ⟨0, 0, Nat.le_refl 0, Nat.le_refl 0, fun i hi => absurd hi (Nat.not_lt_zero i), fun i hi => absurd hi (Nat.not_lt_zero i)⟩
  | cons x xs ih =>
    obtain ⟨hx, hxs⟩ := List.pairwise_cons.mp h
    obtain ⟨l, u, hle, hlen, hbelow, habove⟩ := ih hxs
    have hmem (i : Nat) (hi : i < xs.length) : xs[i] ∈ xs := List.getElem_mem hi
    cases hf : f x with
    | lt =>
      refine ⟨l + 1, u + 1, Nat.succ_le_succ hle, Nat.succ_le_succ hlen, fun i hi => ?_, fun i hi => ?_⟩
      · cases i with
        | zero => exact ⟨fun _ => Nat.succ_pos l, fun _ => hf⟩
        | succ i => exact (hbelow i (Nat.lt_of_succ_lt_succ hi)).trans Nat.succ_lt_succ_iff.symm
      · cases i with
        | zero => exact ⟨fun h => absurd (hf.symm.trans h) (by decide), fun h => absurd h (Nat.not_succ_le_zero u)⟩
        | succ i => exact (habove i (Nat.lt_of_succ_lt_succ hi)).trans Nat.succ_le_succ_iff.symm
    | eq =>
      have hnone (i : Nat) (hi : i < xs.length) : f xs[i] ≠ .lt := fun hlt =>
        absurd (hf.symm.trans ((hx _ (hmem i hi)).1 hlt)) (by decide)
      refine ⟨0, u + 1, Nat.zero_le _, Nat.succ_le_succ hlen, fun i hi => ?_, fun i hi => ?_⟩
      · cases i with
        | zero => exact ⟨fun h => absurd (hf.symm.trans h) (by decide), fun h => absurd h (Nat.lt_irrefl 0)⟩
        | succ i => exact ⟨fun h => absurd h (hnone i (Nat.lt_of_succ_lt_succ hi)), fun h => absurd h (Nat.not_lt_zero _)⟩
      · cases i with
        | zero => exact ⟨fun h => absurd (hf.symm.trans h) (by decide), fun h => absurd h (Nat.not_succ_le_zero u)⟩
        | succ i => exact (habove i (Nat.lt_of_succ_lt_succ hi)).trans Nat.succ_le_succ_iff.symm
    | gt =>
      have hall (i : Nat) (hi : i < xs.length) : f xs[i] = .gt := (hx _ (hmem i hi)).2 hf
      refine ⟨0, 0, Nat.le_refl 0, Nat.zero_le _, fun i hi => ?_, fun i hi => ?_⟩
      · refine ⟨fun h => ?_, fun h => absurd h (Nat.not_lt_zero i)⟩
        cases i with
        | zero => exact absurd (hf.symm.trans h) (by decide)
        | succ i => exact absurd ((hall i (Nat.lt_of_succ_lt_succ hi)).symm.trans h) (by decide)
      · refine ⟨fun _ => Nat.zero_le i, fun _ => ?_⟩
        cases i with
        | zero => exact hf
        | succ i => exact hall i (Nat.lt_of_succ_lt_succ hi)

/-- One lower boundary and one upper. -/
theorem Ascending.boundaries (h : Ascending f xs) : ∃ l u, Boundaries f xs l u ∧ ∀ l' u', Boundaries f xs l' u' → l' = l ∧ u' = u := by
  obtain ⟨l, u, hb⟩ := h.exists_boundaries
  exact ⟨l, u, hb, fun l' u' hb' => hb'.unique hb⟩

end Search

/-! ## By a number -/

section TotalOn

variable {α κ : Type} [DecidableEq κ] {cmp : α → α → Int} {l : List α}

/-- A comparison that returns a number is a total preorder of what is in a list. -/
structure TotalOn (cmp : α → α → Int) (l : List α) : Prop where
  swap : ∀ a ∈ l, ∀ b ∈ l, cmp a b < 0 ↔ 0 < cmp b a
  trans : ∀ a ∈ l, ∀ b ∈ l, ∀ c ∈ l, cmp a b ≤ 0 → cmp b c ≤ 0 → cmp a c ≤ 0

theorem TotalOn.self (h : TotalOn cmp l) {a : α} (ha : a ∈ l) : cmp a a = 0 := by
  have := h.swap a ha a ha
  omega

theorem TotalOn.exists_first (h : TotalOn cmp l) (hne : l ≠ []) : ∃ m ∈ l, ∀ a ∈ l, cmp m a ≤ 0 := by
  have key : ∀ l' : List α, (∀ a ∈ l', a ∈ l) → l' ≠ [] → ∃ m ∈ l', ∀ a ∈ l', cmp m a ≤ 0 := by
    intro l' hsub hne
    induction l' with
    | nil => exact absurd rfl hne
    | cons x xs ih =>
      have hx := hsub x List.mem_cons_self
      have hxs := fun a ha => hsub a (List.mem_cons_of_mem x ha)
      rcases List.eq_nil_or_concat xs with rfl | hxs'
      · exact ⟨x, List.mem_cons_self, fun a ha => by rw [List.mem_singleton.mp ha, h.self hx]⟩
      · obtain ⟨m, hm, hleast⟩ := ih hxs (by obtain ⟨_, _, rfl⟩ := hxs'; simp)
        by_cases hmx : cmp m x ≤ 0
        · exact ⟨m, List.mem_cons_of_mem x hm, List.forall_mem_cons.mpr ⟨hmx, hleast⟩⟩
        · have hxm := h.swap x hx m (hxs m hm)
          refine ⟨x, List.mem_cons_self, List.forall_mem_cons.mpr ⟨(h.self hx).le, fun a ha => ?_⟩⟩
          exact h.trans x hx m (hxs m hm) a (hxs a ha) (by omega) (hleast a ha)
  exact key l (fun _ ha => ha) hne

/-- First by a key, and what has the same key by something else. -/
def byKey (key : α → κ) (r : κ → κ → Int) (d : α → α → Int) (a b : α) : Int :=
  if key a = key b then d a b else r (key a) (key b)

theorem byKey_same {key : α → κ} (r : κ → κ → Int) (d : α → α → Int) {a b : α} (h : key a = key b) : byKey key r d a b = d a b := if_pos h

theorem byKey_other {key : α → κ} (r : κ → κ → Int) (d : α → α → Int) {a b : α} (h : key a ≠ key b) :
    byKey key r d a b = r (key a) (key b) := if_neg h

theorem byKey_totalOn_iff {key : α → κ} {r : κ → κ → Int} {d : α → α → Int} (hself : ∀ k, r k k = 0) :
    TotalOn (byKey key r d) l ↔ TotalOn (fun a b => r (key a) (key b)) l ∧ (∀ k, TotalOn d (l.filter (key · = k))) ∧
      ∀ a ∈ l, ∀ b ∈ l, ∀ c ∈ l, key a = key c → key b ≠ key a → r (key a) (key b) = 0 → d a c = 0 := by
  have hfilter {a k} : a ∈ l.filter (key · = k) ↔ a ∈ l ∧ key a = k := by simp
  constructor
  · intro h
    refine ⟨⟨fun a ha b hb => ?_, fun a ha b hb c hc hab hbc => ?_⟩, fun k => ⟨fun a ha b hb => ?_, fun a ha b hb c hc hab hbc => ?_⟩,
      fun a ha b hb c hc hac hba hzero => ?_⟩
    · by_cases hkey : key a = key b
      · simp [hkey, hself]
      · simpa only [byKey_other r d hkey, byKey_other r d (Ne.symm hkey)] using h.swap a ha b hb
    · by_cases hkab : key a = key b
      · rwa [hkab]
      · by_cases hkbc : key b = key c
        · rwa [← hkbc]
        · by_cases hkac : key a = key c
          · rw [hkac, hself]
          · simpa only [byKey_other r d hkac] using h.trans a ha b hb c hc (by rwa [byKey_other r d hkab]) (by rwa [byKey_other r d hkbc])
    · rw [hfilter] at ha hb
      have hkab := ha.2.trans hb.2.symm
      simpa only [byKey_same r d hkab, byKey_same r d hkab.symm] using h.swap a ha.1 b hb.1
    · rw [hfilter] at ha hb hc
      have hkab := ha.2.trans hb.2.symm
      have hkbc := hb.2.trans hc.2.symm
      rw [← byKey_same r d hkab] at hab
      rw [← byKey_same r d hkbc] at hbc
      simpa only [byKey_same r d (hkab.trans hkbc)] using h.trans a ha.1 b hb.1 c hc.1 hab hbc
    · have hab : byKey key r d a b = 0 := by rw [byKey_other r d (Ne.symm hba), hzero]
      have hcb : byKey key r d c b = 0 := by rw [byKey_other r d (hac ▸ Ne.symm hba), ← hac, hzero]
      have hswap {x} (hx : x ∈ l) (hxb : byKey key r d x b = 0) : byKey key r d b x = 0 := by
        have h1 := h.swap x hx b hb
        have h2 := h.swap b hb x hx
        omega
      have h1 := h.trans a ha b hb c hc hab.le (hswap hc hcb).le
      have h2 := h.trans c hc b hb a ha hcb.le (hswap ha hab).le
      have h3 := h.swap a ha c hc
      rw [byKey_same r d hac] at h1 h3
      rw [byKey_same r d hac.symm] at h2 h3
      omega
  · rintro ⟨hr, hd, hzero⟩
    refine ⟨fun a ha b hb => ?_, fun a ha b hb c hc hab hbc => ?_⟩
    · by_cases hkey : key a = key b
      · simpa only [byKey_same r d hkey, byKey_same r d hkey.symm] using (hd (key b)).swap a (hfilter.mpr ⟨ha, hkey⟩) b (hfilter.mpr ⟨hb, rfl⟩)
      · simpa only [byKey_other r d hkey, byKey_other r d (Ne.symm hkey)] using hr.swap a ha b hb
    · by_cases hkac : key a = key c
      · rw [byKey_same r d hkac]
        by_cases hkab : key a = key b
        · rw [byKey_same r d hkab] at hab
          rw [byKey_same r d (hkab.symm.trans hkac)] at hbc
          exact (hd (key c)).trans a (hfilter.mpr ⟨ha, hkac⟩) b (hfilter.mpr ⟨hb, hkab.symm.trans hkac⟩) c (hfilter.mpr ⟨hc, rfl⟩) hab hbc
        · have hswap := hr.swap b hb a ha
          rw [byKey_other r d hkab] at hab
          rw [byKey_other r d (hkac ▸ Ne.symm hkab), ← hkac] at hbc
          have := hr.swap a ha b hb
          exact (hzero a ha b hb c hc hkac (Ne.symm hkab) (by omega)).le
      · rw [byKey_other r d hkac]
        by_cases hkab : key a = key b
        · rwa [byKey_other r d (hkab ▸ hkac), ← hkab] at hbc
        · by_cases hkbc : key b = key c
          · rwa [byKey_other r d hkab, hkbc] at hab
          · rw [byKey_other r d hkab] at hab
            rw [byKey_other r d hkbc] at hbc
            exact hr.trans a ha b hb c hc hab hbc

end TotalOn
end DeepFabric.Lib
