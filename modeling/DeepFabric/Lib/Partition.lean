/-
  DeepFabric.Lib.Partition — a sorted map cut into segments: a list of segments in key order, each
  with the key it is filed under and its entries, over any linear order.

  `getEntry`, `higherEntry`, `lowerEntry` and `floorEntry` look up in a list in key order: at a key,
  behind it, ahead of it, and at or ahead of it. They work on the entries of a segment and on the
  list of segments. A partition (`Partitioned`) has each segment filed under its first key and all
  its entries in one strictly increasing order.

  - `floor_cases`: the segment filed under the greatest key that is not above the one asked for has
    everything ahead of it below its key, and everything behind it above the one asked for.
  - `least`, `greatest`: what the first entry to satisfy a predicate, and the last, are in a list in
    key order.
  - `floorEntry_eq`, `ceilingEntry_eq`: at or ahead of a key, and at or behind it, is its own entry or
    the next one.
  - `least_head?`, `greatest_getLast?`: the ends of a list in key order, as a partial map.
-/
import Mathlib.Order.Lattice
import Mathlib.Order.Basic
import Mathlib.Order.Defs.LinearOrder
import Mathlib.Data.List.Basic
import Mathlib.Data.List.TakeWhile

namespace DeepFabric.Lib.Partition

open List

variable {K V : Type} [LinearOrder K]

def Ascending (l : List (K × V)) : Prop := l.Pairwise fun a b => a.1 < b.1

def getEntry (l : List (K × V)) (key : K) : Option (K × V) := l.find? fun e => e.1 = key

def higherEntry (l : List (K × V)) (key : K) : Option (K × V) := l.find? fun e => key < e.1

def lowerEntry (l : List (K × V)) (key : K) : Option (K × V) := (l.filter fun e => e.1 < key).getLast?

def floorEntry (l : List (K × V)) (key : K) : Option (K × V) := (l.filter fun e => e.1 ≤ key).getLast?

def ceilingEntry (l : List (K × V)) (key : K) : Option (K × V) := l.find? fun e => key ≤ e.1

/-- The entries of all segments. -/
def flat (t : List (K × List (K × V))) : List (K × V) := t.flatMap (·.2)

structure Partitioned (t : List (K × List (K × V))) : Prop where
  filed : ∀ s ∈ t, ∃ v, s.2.head? = some (s.1, v)
  ascending : Ascending (flat t)

/-! ## Lists in key order -/

variable {l : List (K × V)} {e : K × V}

/-- The entry a predicate finds last has the greatest of the keys that satisfy it. -/
theorem greatest (hl : Ascending l) {p : K × V → Bool}
    (h : (l.filter p).getLast? = some e) : e ∈ l ∧ p e = true ∧ ∀ x ∈ l, p x = true → x.1 ≤ e.1 := by
  obtain ⟨ys, hys⟩ := List.getLast?_eq_some_iff.mp h
  have hmem : e ∈ l.filter p := by rw [hys]; simp
  obtain ⟨he, hp⟩ := mem_filter.mp hmem
  refine ⟨he, hp, fun x hx hpx => ?_⟩
  have hx' : x ∈ ys ++ [e] := hys ▸ mem_filter.mpr ⟨hx, hpx⟩
  have hs : Ascending (ys ++ [e]) := hys ▸ hl.filter p
  rcases mem_append.mp hx' with hx' | hx'
  · exact le_of_lt ((pairwise_append.mp hs).2.2 x hx' e (mem_singleton.mpr rfl))
  · rw [mem_singleton.mp hx']

theorem higherEntry_append (a b : List (K × V)) (key : K) :
    higherEntry (a ++ b) key = (higherEntry a key).or (higherEntry b key) := List.find?_append

variable {key : K}

theorem higherEntry_above (h : ∀ e ∈ l, key < e.1) : higherEntry l key = l.head? := by
  cases l with
  | nil => rfl
  | cons e l => exact List.find?_cons_of_pos (by simpa using h e mem_cons_self)

theorem higherEntry_below (h : ∀ e ∈ l, e.1 ≤ key) : higherEntry l key = none := by
  refine List.find?_eq_none.mpr fun e he => ?_
  simpa using h e he

theorem lowerEntry_append (a b : List (K × V)) (key : K) :
    lowerEntry (a ++ b) key = (lowerEntry b key).or (lowerEntry a key) := by
  rw [lowerEntry, filter_append, List.getLast?_append]
  rfl

theorem lowerEntry_below (h : ∀ e ∈ l, e.1 < key) : lowerEntry l key = l.getLast? := by
  rw [lowerEntry, filter_eq_self.mpr]
  intro e he
  simpa using h e he

theorem lowerEntry_above (h : ∀ e ∈ l, key ≤ e.1) : lowerEntry l key = none := by
  rw [lowerEntry, filter_eq_nil_iff.mpr]
  · rfl
  · intro e he
    simpa using h e he

theorem getEntry_append (a b : List (K × V)) (key : K) : getEntry (a ++ b) key = (getEntry a key).or (getEntry b key) :=
  List.find?_append

theorem getEntry_none (h : ∀ e ∈ l, e.1 ≠ key) : getEntry l key = none := by
  refine List.find?_eq_none.mpr fun e he => ?_
  simpa using h e he

/-- Two entries of one key are one. -/
theorem Ascending.unique (hl : Ascending l) {a b : K × V} (ha : a ∈ l) (hb : b ∈ l) (h : a.1 = b.1) :
    a = b := by
  induction l with
  | nil => cases ha
  | cons c l ih =>
    obtain ⟨hc, hl'⟩ := pairwise_cons.mp hl
    rcases mem_cons.mp ha with rfl | ha' <;> rcases mem_cons.mp hb with rfl | hb'
    · rfl
    · exact absurd h (ne_of_lt (hc b hb'))
    · exact absurd h (ne_of_gt (hc a ha'))
    · exact ih hl' ha' hb'

/-- A key stands at one place. -/
theorem Ascending.split_unique {pre pre' post post' : List (K × V)} {e' : K × V} (hl : Ascending (pre ++ e :: post))
    (h : pre ++ e :: post = pre' ++ e' :: post') (hkey : e.1 = e'.1) : pre = pre' ∧ e = e' ∧ post = post' := by
  induction pre generalizing pre' with
  | nil =>
    cases pre' with
    | nil =>
      obtain ⟨he, hpost⟩ := List.cons.inj h
      exact ⟨rfl, he, hpost⟩
    | cons c pre' =>
      obtain ⟨-, hpost⟩ := List.cons.inj h
      have hmem : e' ∈ post := by
        rw [hpost]
        exact mem_append_right _ mem_cons_self
      exact absurd hkey (ne_of_lt ((pairwise_cons.mp hl).1 e' hmem))
  | cons c pre ih =>
    obtain ⟨hc, hl'⟩ := pairwise_cons.mp hl
    cases pre' with
    | nil =>
      obtain ⟨rfl, -⟩ := List.cons.inj h
      exact absurd hkey (ne_of_gt (hc e (mem_append_right _ mem_cons_self)))
    | cons c' pre' =>
      obtain ⟨rfl, h'⟩ := List.cons.inj h
      obtain ⟨rfl, rest⟩ := ih hl' h'
      exact ⟨rfl, rest⟩

theorem getEntry_of_mem (hl : Ascending l) (h : e ∈ l) : getEntry l e.1 = some e := by
  cases hf : getEntry l e.1 with
  | none => exact absurd (List.find?_eq_none.mp hf e h) (by simp)
  | some x =>
    have hx : x.1 = e.1 := by simpa using List.find?_some hf
    rw [hl.unique (mem_of_find?_eq_some hf) h hx]

section Ends

variable {E : Type} {l : List E} {p : E → Prop}

/-- What holds of the last entry, and of what stands ahead of one it holds of, holds of every entry. -/
theorem forall_of_getLast? (hl : l.Pairwise fun a b => p b → p a) (h : ∀ x, l.getLast? = some x → p x) : ∀ e ∈ l, p e := by
  rcases List.eq_nil_or_concat' l with rfl | ⟨l', x, rfl⟩
  · exact fun e he => absurd he not_mem_nil
  · have hx : p x := h x List.getLast?_concat
    intro e he
    rcases mem_append.mp he with he | he
    · exact (pairwise_append.mp hl).2.2 e he x (mem_singleton.mpr rfl) hx
    · rw [mem_singleton.mp he]
      exact hx

theorem forall_of_head? (hl : l.Pairwise fun a b => p a → p b) (h : ∀ x, l.head? = some x → p x) : ∀ e ∈ l, p e := by
  cases l with
  | nil => exact fun e he => absurd he not_mem_nil
  | cons x l =>
    intro e he
    rcases mem_cons.mp he with rfl | he
    · exact h e rfl
    · exact (pairwise_cons.mp hl).1 e he (h x rfl)

end Ends

/-- The entries behind a key. -/
def above (l : List (K × V)) (key : K) : List (K × V) := l.filter fun e => key < e.1

/-- The entries ahead of a key. -/
def below (l : List (K × V)) (key : K) : List (K × V) := l.filter fun e => e.1 < key

theorem head?_above (l : List (K × V)) (key : K) : (above l key).head? = higherEntry l key := List.head?_filter

theorem getLast?_below (l : List (K × V)) (key : K) : (below l key).getLast? = lowerEntry l key := rfl

/-- Behind the next key are the others that were behind the key. -/
theorem above_of_cons {rest : List (K × V)} (hl : Ascending l) (h : above l key = e :: rest) :
    above l e.1 = rest := by
  have hs : Ascending (e :: rest) := h ▸ hl.filter _
  have he : key < e.1 := by
    have := (mem_filter.mp (h ▸ mem_cons_self : e ∈ above l key)).2
    simpa using this
  have hrest : (e :: rest).filter (fun x => e.1 < x.1) = rest := by
    rw [filter_cons_of_neg (by simp), filter_eq_self.mpr]
    intro x hx
    simpa using (pairwise_cons.mp hs).1 x hx
  rw [← hrest, ← h, above, above, filter_filter]
  refine filter_congr fun x _ => ?_
  by_cases hx : e.1 < x.1 <;> simp [hx, lt_trans he]

theorem below_of_concat {rest : List (K × V)} (hl : Ascending l) (h : below l key = rest ++ [e]) :
    below l e.1 = rest := by
  have hs : Ascending (rest ++ [e]) := h ▸ hl.filter _
  have he : e.1 < key := by
    have := (mem_filter.mp (h ▸ (by simp) : e ∈ below l key)).2
    simpa using this
  have hrest : (rest ++ [e]).filter (fun x => x.1 < e.1) = rest := by
    rw [filter_append, filter_cons_of_neg (by simp), filter_nil, append_nil, filter_eq_self.mpr]
    intro x hx
    simpa using (pairwise_append.mp hs).2.2 x hx e (mem_singleton.mpr rfl)
  rw [← hrest, ← h, below, below, filter_filter]
  refine filter_congr fun x _ => ?_
  by_cases hx : x.1 < e.1
  · simp [hx, lt_trans hx he]
  · simp [hx]

theorem above_of_getEntry (hl : Ascending l) (h : getEntry l key = some e) :
    (l.filter fun x => key ≤ x.1) = e :: above l key := by
  have hkey : e.1 = key := by simpa using List.find?_some h
  have he := mem_of_find?_eq_some h
  obtain ⟨pre, post, rfl⟩ := append_of_mem he
  obtain ⟨-, hpost, hpre⟩ := pairwise_append.mp hl
  have hpre : ∀ x ∈ pre, x.1 < key := fun x hx => hkey ▸ hpre x hx e mem_cons_self
  have hpost : ∀ x ∈ post, key < x.1 := fun x hx => hkey ▸ (pairwise_cons.mp hpost).1 x hx
  have h1 : pre.filter (fun x => key ≤ x.1) = [] := filter_eq_nil_iff.mpr fun x hx => by simpa using hpre x hx
  have h2 : pre.filter (fun x => key < x.1) = [] :=
    filter_eq_nil_iff.mpr fun x hx => by simpa using le_of_lt (hpre x hx)
  have h3 : post.filter (fun x => key ≤ x.1) = post.filter fun x => key < x.1 :=
    filter_congr fun x hx => by simp [hpost x hx, le_of_lt (hpost x hx)]
  rw [above, filter_append, filter_append, filter_cons_of_pos (by simp [hkey]),
    filter_cons_of_neg (by simp [hkey]), h1, h2, h3, nil_append, nil_append]

theorem below_of_getEntry (hl : Ascending l) (h : getEntry l key = some e) :
    (l.filter fun x => x.1 ≤ key) = below l key ++ [e] := by
  have hkey : e.1 = key := by simpa using List.find?_some h
  have he := mem_of_find?_eq_some h
  obtain ⟨pre, post, rfl⟩ := append_of_mem he
  obtain ⟨-, hpost, hpre⟩ := pairwise_append.mp hl
  have hpre : ∀ x ∈ pre, x.1 < key := fun x hx => hkey ▸ hpre x hx e mem_cons_self
  have hpost : ∀ x ∈ post, key < x.1 := fun x hx => hkey ▸ (pairwise_cons.mp hpost).1 x hx
  have h1 : post.filter (fun x => x.1 ≤ key) = [] := filter_eq_nil_iff.mpr fun x hx => by simpa using hpost x hx
  have h2 : post.filter (fun x => x.1 < key) = [] :=
    filter_eq_nil_iff.mpr fun x hx => by simpa using le_of_lt (hpost x hx)
  have h3 : pre.filter (fun x => x.1 ≤ key) = pre.filter fun x => x.1 < key :=
    filter_congr fun x hx => by simp [hpre x hx, le_of_lt (hpre x hx)]
  rw [below, filter_append, filter_append, filter_cons_of_pos (by simp [hkey]),
    filter_cons_of_neg (by simp [hkey]), h1, h2, h3, append_nil]

theorem filter_of_getEntry (h : getEntry l key = none) :
    (l.filter fun x => key ≤ x.1) = above l key ∧ (l.filter fun x => x.1 ≤ key) = below l key := by
  have hne : ∀ x ∈ l, x.1 ≠ key := fun x hx => by simpa using List.find?_eq_none.mp h x hx
  constructor
  · refine filter_congr fun x hx => ?_
    rw [decide_eq_decide]
    exact ⟨fun h => lt_of_le_of_ne h (Ne.symm (hne x hx)), le_of_lt⟩
  · refine filter_congr fun x hx => ?_
    rw [decide_eq_decide]
    exact ⟨fun h => lt_of_le_of_ne h (hne x hx), le_of_lt⟩

theorem floorEntry_eq (hl : Ascending l) (key : K) : floorEntry l key = (getEntry l key).or (lowerEntry l key) := by
  cases h : getEntry l key with
  | some e => rw [floorEntry, below_of_getEntry hl h, List.getLast?_concat, Option.some_or]
  | none => rw [floorEntry, (filter_of_getEntry h).2, getLast?_below, Option.none_or]

theorem ceilingEntry_eq (hl : Ascending l) (key : K) : ceilingEntry l key = (getEntry l key).or (higherEntry l key) := by
  rw [ceilingEntry, ← List.head?_filter]
  cases h : getEntry l key with
  | some e => rw [above_of_getEntry hl h, List.head?_cons, Option.some_or]
  | none => rw [(filter_of_getEntry h).1, head?_above, Option.none_or]

/-- Among keys that are not below one, only the first can be it. -/
theorem getEntry_above (hl : Ascending l) (h : ∀ e ∈ l, key ≤ e.1) :
    getEntry l key = l.head?.filter fun e => e.1 = key := by
  cases l with
  | nil => rfl
  | cons e l =>
    have hrest : getEntry l key = none := getEntry_none fun x hx =>
      ne_of_gt (lt_of_le_of_lt (h e mem_cons_self) ((pairwise_cons.mp hl).1 x hx))
    rw [← singleton_append, getEntry_append, hrest, Option.or_none, getEntry, singleton_append, List.head?_cons,
      Option.filter_some, List.find?_singleton]

theorem getEntry_below (hl : Ascending l) (h : ∀ e ∈ l, e.1 ≤ key) :
    getEntry l key = l.getLast?.filter fun e => e.1 = key := by
  rcases List.eq_nil_or_concat' l with rfl | ⟨l, e, rfl⟩
  · rfl
  · have hrest : getEntry l key = none := getEntry_none fun x hx =>
      ne_of_lt (lt_of_lt_of_le ((pairwise_append.mp hl).2.2 x hx e (mem_singleton.mpr rfl)) (h e (by simp)))
    rw [getEntry_append, hrest, Option.none_or, getEntry, List.getLast?_concat, Option.filter_some, List.find?_singleton]

/-- The least key that is bound, with its value, or none if none is. -/
def Least (p : K → Option V) : Option (K × V) → Prop
  | none => ∀ k, p k = none
  | some (k, v) => p k = some v ∧ ∀ j, (p j).isSome → k ≤ j

/-- The greatest key that is bound. -/
def Greatest (p : K → Option V) : Option (K × V) → Prop
  | none => ∀ k, p k = none
  | some (k, v) => p k = some v ∧ ∀ j, (p j).isSome → j ≤ k

theorem least_head? (hl : Ascending l) {p : K → Option V} (h : ∀ k v, (k, v) ∈ l ↔ p k = some v) :
    Least p l.head? := by
  cases l with
  | nil =>
    intro k
    refine Option.eq_none_iff_forall_ne_some.mpr fun v hv => ?_
    exact absurd ((h k v).mpr hv) not_mem_nil
  | cons e l =>
    refine ⟨(h e.1 e.2).mp mem_cons_self, fun j hj => ?_⟩
    obtain ⟨v, hv⟩ := Option.isSome_iff_exists.mp hj
    rcases mem_cons.mp ((h j v).mpr hv) with rfl | hmem
    · exact le_refl _
    · exact le_of_lt ((pairwise_cons.mp hl).1 _ hmem)

theorem greatest_getLast? (hl : Ascending l) {p : K → Option V} (h : ∀ k v, (k, v) ∈ l ↔ p k = some v) :
    Greatest p l.getLast? := by
  rcases eq_nil_or_concat l with rfl | ⟨l, e, rfl⟩
  · intro k
    refine Option.eq_none_iff_forall_ne_some.mpr fun v hv => ?_
    exact absurd ((h k v).mpr hv) not_mem_nil
  · rw [concat_eq_append] at hl h ⊢
    rw [List.getLast?_concat]
    refine ⟨(h e.1 e.2).mp (by simp), fun j hj => ?_⟩
    obtain ⟨v, hv⟩ := Option.isSome_iff_exists.mp hj
    rcases mem_append.mp ((h j v).mpr hv) with hmem | hmem
    · exact le_of_lt ((pairwise_append.mp hl).2.2 _ hmem e (mem_singleton.mpr rfl))
    · rw [mem_singleton] at hmem
      rw [← hmem]

/-- The keys with `p` of a partial map. -/
def only (p : K → Prop) [DecidablePred p] (f : K → Option V) (k : K) : Option V := if p k then f k else none

section Only

variable {l : List (K × V)} (hl : Ascending l) {f : K → Option V} (hf : ∀ k v, (k, v) ∈ l ↔ f k = some v)

omit [LinearOrder K] in
include hf in
theorem mem_filter_only (p : K → Prop) [DecidablePred p] (k : K) (v : V) : (k, v) ∈ l.filter (fun e => p e.1) ↔ only p f k = some v := by
  rw [mem_filter, hf, only]
  by_cases hp : p k <;> simp [hp]

include hl hf

theorem greatest_only (p : K → Prop) [DecidablePred p] : Greatest (only p f) (l.filter fun e => p e.1).getLast? :=
  greatest_getLast? (hl.filter _) (mem_filter_only hf p)

theorem least_only (p : K → Prop) [DecidablePred p] : Least (only p f) (l.find? fun e => p e.1) := by
  rw [← List.head?_filter]
  exact least_head? (hl.filter _) (mem_filter_only hf p)

end Only

/-! ## Partitions -/

section Segments
variable {t : List (K × List (K × V))}

section Flat
omit [LinearOrder K]

@[simp] theorem flat_nil : flat ([] : List (K × List (K × V))) = [] := rfl

@[simp] theorem flat_cons (s : K × List (K × V)) (t : List (K × List (K × V))) : flat (s :: t) = s.2 ++ flat t := rfl

@[simp] theorem flat_append (t u : List (K × List (K × V))) : flat (t ++ u) = flat t ++ flat u := flatMap_append

theorem mem_flat {e : K × V} : e ∈ flat t ↔ ∃ s ∈ t, e ∈ s.2 := mem_flatMap

end Flat

variable {s : K × List (K × V)}

theorem Partitioned.key_mem (h : Partitioned t) (hs : s ∈ t) : ∃ v, (s.1, v) ∈ s.2 := by
  obtain ⟨v, hv⟩ := h.filed s hs
  exact ⟨v, mem_of_head? hv⟩

variable {u : List (K × List (K × V))}

theorem Partitioned.left (h : Partitioned (t ++ u)) : Partitioned t where
  filed s hs := h.filed s (mem_append_left _ hs)
  ascending := by
    have := h.ascending
    rw [flat_append] at this
    exact (pairwise_append.mp this).1

theorem Partitioned.right (h : Partitioned (t ++ u)) : Partitioned u where
  filed s hs := h.filed s (mem_append_right _ hs)
  ascending := by
    have := h.ascending
    rw [flat_append] at this
    exact (pairwise_append.mp this).2.1

theorem Partitioned.across (h : Partitioned (t ++ u)) {a b : K × V} (ha : a ∈ flat t)
    (hb : b ∈ flat u) : a.1 < b.1 := by
  have := h.ascending
  rw [flat_append] at this
  exact (pairwise_append.mp this).2.2 a ha b hb

theorem Partitioned.within (h : Partitioned t) (hs : s ∈ t) : Ascending s.2 := by
  obtain ⟨pre, post, rfl⟩ := append_of_mem hs
  have := h.right.ascending
  rw [flat_cons] at this
  exact (pairwise_append.mp this).1

/-- A segment is filed under its least key. -/
theorem Partitioned.key_le (h : Partitioned t) (hs : s ∈ t) {e : K × V} (he : e ∈ s.2) :
    s.1 ≤ e.1 := by
  obtain ⟨v, hv⟩ := h.filed s hs
  obtain ⟨rest, hrest⟩ := List.head?_eq_some_iff.mp hv
  have hsorted := h.within hs
  rw [hrest] at he hsorted
  rcases mem_cons.mp he with rfl | he
  · exact le_refl _
  · exact le_of_lt ((pairwise_cons.mp hsorted).1 e he)

theorem Partitioned.keys_ascending (h : Partitioned t) : Ascending t := by
  induction t with
  | nil => exact List.Pairwise.nil
  | cons s t ih =>
    refine pairwise_cons.mpr ⟨fun u hu => ?_, ih (Partitioned.right (t := [s]) h)⟩
    obtain ⟨v, hv⟩ := h.key_mem mem_cons_self
    obtain ⟨w, hw⟩ := h.key_mem (mem_cons_of_mem _ hu)
    exact Partitioned.across (t := [s]) h (a := (s.1, v)) (b := (u.1, w)) (by simpa using hv) (mem_flat.mpr ⟨u, hu, hw⟩)

/-- Segments in the middle are exchanged for others between the same neighbours. -/
theorem Partitioned.exchange {pre mid mid' post : List (K × List (K × V))} (h : Partitioned (pre ++ mid ++ post))
    (h' : Partitioned mid') (hpre : ∀ e ∈ flat mid', ∀ x ∈ flat pre, x.1 < e.1)
    (hpost : ∀ e ∈ flat mid', ∀ x ∈ flat post, e.1 < x.1) : Partitioned (pre ++ mid' ++ post) where
  filed s hs := by
    rcases mem_append.mp hs with hs | hs
    · rcases mem_append.mp hs with hs | hs
      · exact h.left.left.filed s hs
      · exact h'.filed s hs
    · exact h.right.filed s hs
  ascending := by
    rw [flat_append, flat_append]
    refine pairwise_append.mpr ⟨pairwise_append.mpr ⟨h.left.left.ascending, h'.ascending, ?_⟩, h.right.ascending, ?_⟩
    · exact fun x hx e he => hpre e he x hx
    · intro e he x hx
      rcases mem_append.mp he with he | he
      · exact h.across (by rw [flat_append]; exact mem_append_left _ he) hx
      · exact hpost e he x hx

/-- One segment on its own. -/
theorem Partitioned.single {key : K} {v : V} {rest : List (K × V)} (h : Ascending ((key, v) :: rest)) :
    Partitioned [(key, (key, v) :: rest)] where
  filed s hs := by
    rw [mem_singleton.mp hs]
    exact ⟨v, rfl⟩
  ascending := by simpa using h

/-- A key at or behind the key of a segment and ahead of those behind it is looked up in the segment. -/
theorem Partitioned.getEntry_mid {pre post : List (K × List (K × V))}
    (h : Partitioned (pre ++ s :: post)) {key : K} (hs : s.1 ≤ key) (hpost : ∀ e ∈ flat post, key < e.1) :
    getEntry (flat (pre ++ s :: post)) key = getEntry s.2 key := by
  obtain ⟨v, hv⟩ := h.key_mem (mem_append_right _ mem_cons_self)
  have hpre : ∀ e ∈ flat pre, e.1 ≠ key := fun e he =>
    ne_of_lt (lt_of_lt_of_le (h.across (b := (s.1, v)) he (by rw [flat_cons]; exact mem_append_left _ hv)) hs)
  rw [flat_append, flat_cons, getEntry_append, getEntry_append, getEntry_none hpre,
    getEntry_none fun e he => ne_of_gt (hpost e he), Option.none_or, Option.or_none]

/-- Where the floor of a key is. -/
theorem floor_cases (h : Partitioned t) (key : K) :
    floorEntry t key = none ∧ (∀ e ∈ flat t, key < e.1) ∨
    ∃ pre s post, t = pre ++ s :: post ∧ floorEntry t key = some s ∧ s.1 ≤ key ∧ (∀ e ∈ flat pre, e.1 < s.1)
      ∧ (∀ e ∈ flat post, key < e.1) := by
  cases hf : floorEntry t key with
  | none =>
    refine Or.inl ⟨rfl, fun e he => ?_⟩
    obtain ⟨s, hs, hes⟩ := mem_flat.mp he
    have hnone := List.getLast?_eq_none_iff.mp hf
    have hns : ¬s.1 ≤ key := by simpa using filter_eq_nil_iff.mp hnone s hs
    exact lt_of_lt_of_le (not_le.mp hns) (h.key_le hs hes)
  | some s =>
    obtain ⟨hs, hle, hgreatest⟩ := greatest h.keys_ascending hf
    obtain ⟨pre, post, rfl⟩ := append_of_mem hs
    refine Or.inr ⟨pre, s, post, rfl, rfl, by simpa using hle, fun e he => ?_, fun e he => ?_⟩
    · obtain ⟨v, hv⟩ := h.key_mem hs
      exact h.across (b := (s.1, v)) he (by rw [flat_cons]; exact mem_append_left _ hv)
    · obtain ⟨u, hu, heu⟩ := mem_flat.mp he
      have hmem : u ∈ pre ++ s :: post := mem_append_right _ (mem_cons_of_mem _ hu)
      refine lt_of_lt_of_le (not_le.mp fun hk => ?_) (h.key_le hmem heu)
      have hback := hgreatest u hmem (by simpa using hk)
      have hforth : s.1 < u.1 :=
        (pairwise_cons.mp (pairwise_append.mp h.keys_ascending).2.1).1 u hu
      exact absurd hforth (not_lt.mpr hback)

end Segments

end DeepFabric.Lib.Partition
