/-
  DeepFabric.Lib.SortedMap — a finite map as its list of entries in strictly increasing key
  order, over any linear order.

  A value carries its order, so its keys are unique and an entry is the same thing as a bound
  key (`mem_entries`). `put` binds or replaces, `remove` unbinds, `modify` changes the value
  of a bound key, and `floorEntry` is the entry of the greatest key that is not above the one
  asked for. Each has one lemma that says what `get` sees after it; `floorEntry_eq_some` and
  `floorEntry_eq_none` say which entry the floor is. `eq_of_get` compares two maps by lookup.

  Where the entries are known as a list cut at a key, `put_at`, `put_between`, `remove_at` and `modify_at`
  say what list it is after; `behind` is what an iterator has still ahead of it.
-/
import Mathlib.Order.Lattice
import Mathlib.Order.Basic
import Mathlib.Order.Defs.LinearOrder
import Mathlib.Data.List.Basic

namespace DeepFabric.Lib

open List

structure SortedMap (K V : Type) [LinearOrder K] where
  entries : List (K × V)
  sorted : entries.Pairwise fun a b => a.1 < b.1

namespace SortedMap

variable {K V : Type} [LinearOrder K]

variable {m : SortedMap K V}

@[ext] theorem ext {m' : SortedMap K V} (h : m.entries = m'.entries) : m = m' := by
  cases m; cases m'; cases h; rfl

def empty : SortedMap K V := ⟨[], .nil⟩

def get (m : SortedMap K V) (k : K) : Option V := (m.entries.find? fun e => e.1 = k).map (·.2)

def insertEntry (k : K) (v : V) : List (K × V) → List (K × V)
  | [] => [(k, v)]
  | e :: es => if k < e.1 then (k, v) :: e :: es else if e.1 < k then e :: insertEntry k v es else (k, v) :: es

variable {k : K} {v : V} {es : List (K × V)}

theorem mem_insertEntry {e : K × V} (h : e ∈ insertEntry k v es) :
    e = (k, v) ∨ e ∈ es := by
  induction es with
  | nil => exact Or.inl (mem_singleton.mp h)
  | cons a es ih =>
    simp only [insertEntry] at h
    split_ifs at h
    · exact (mem_cons.mp h).imp id id
    · rcases mem_cons.mp h with rfl | h
      · exact Or.inr mem_cons_self
      · exact (ih h).imp id (mem_cons_of_mem _)
    · exact (mem_cons.mp h).imp id (mem_cons_of_mem _)

theorem insertEntry_sorted (k : K) (v : V) (h : es.Pairwise fun a b => a.1 < b.1) :
    (insertEntry k v es).Pairwise fun a b => a.1 < b.1 := by
  induction es with
  | nil => exact pairwise_singleton _ _
  | cons a es ih =>
    obtain ⟨ha, hes⟩ := pairwise_cons.mp h
    simp only [insertEntry]
    split_ifs with h1 h2
    · refine pairwise_cons.mpr ⟨fun b hb => ?_, h⟩
      rcases mem_cons.mp hb with rfl | hb
      · exact h1
      · exact lt_trans h1 (ha b hb)
    · refine pairwise_cons.mpr ⟨fun b hb => ?_, ih hes⟩
      rcases mem_insertEntry hb with rfl | hb
      · exact h2
      · exact ha b hb
    · have he : a.1 = k := le_antisymm (not_lt.mp h1) (not_lt.mp h2)
      exact pairwise_cons.mpr ⟨fun b hb => he ▸ ha b hb, hes⟩

variable {pre post : List (K × V)}

/-- Between smaller and greater keys an entry goes. -/
theorem insertEntry_mid (hpre : ∀ e ∈ pre, e.1 < k) (hpost : ∀ e ∈ post, k < e.1) :
    insertEntry k v (pre ++ post) = pre ++ (k, v) :: post := by
  induction pre with
  | nil =>
    cases post with
    | nil => rfl
    | cons e post => simp [insertEntry, hpost e mem_cons_self]
  | cons e pre ih =>
    have he := hpre e mem_cons_self
    simp [insertEntry, he, not_lt.mpr (le_of_lt he), ih (forall_mem_cons.mp hpre).2]

theorem insertEntry_front {entries : List (K × V)} (hkeys : ∀ e ∈ entries, k < e.1) :
    insertEntry k v entries = (k, v) :: entries :=
  insertEntry_mid (forall_mem_nil _) hkeys

/-- The entry of a key is replaced. -/
theorem insertEntry_hit {w : V} (hpre : ∀ e ∈ pre, e.1 < k) :
    insertEntry k v (pre ++ (k, w) :: post) = pre ++ (k, v) :: post := by
  induction pre with
  | nil => simp [insertEntry]
  | cons e pre ih =>
    have he := hpre e mem_cons_self
    simp [insertEntry, he, not_lt.mpr (le_of_lt he), ih (forall_mem_cons.mp hpre).2]

def put (m : SortedMap K V) (k : K) (v : V) : SortedMap K V := ⟨insertEntry k v m.entries, insertEntry_sorted k v m.sorted⟩

def remove (m : SortedMap K V) (k : K) : SortedMap K V := ⟨m.entries.filter fun e => e.1 ≠ k, m.sorted.filter _⟩

def modify (m : SortedMap K V) (k : K) (f : V → V) : SortedMap K V :=
  ⟨m.entries.map fun e => if e.1 = k then (e.1, f e.2) else e, by
    refine pairwise_map.mpr (m.sorted.imp fun {a b} h => ?_)
    split_ifs <;> exact h⟩

def floorEntry (m : SortedMap K V) (k : K) : Option (K × V) := (m.entries.filter fun e => e.1 ≤ k).getLast?

/-- The entries that an iterator finds behind a key, or from the start. -/
def behind (m : SortedMap K V) : Option K → List (K × V)
  | none => m.entries
  | some k => m.entries.filter fun e => k < e.1

/-! ## Entries and bindings -/

theorem unique_of_sorted (h : es.Pairwise fun a b => a.1 < b.1) {a b : K × V} (ha : a ∈ es)
    (hb : b ∈ es) (he : a.1 = b.1) : a = b := by
  induction es with
  | nil => cases ha
  | cons c es ih =>
    obtain ⟨hc, hes⟩ := pairwise_cons.mp h
    rcases mem_cons.mp ha with rfl | ha' <;> rcases mem_cons.mp hb with rfl | hb'
    · rfl
    · exact absurd (hc b hb') (by simp [he])
    · exact absurd (hc a ha') (by simp [he])
    · exact ih hes ha' hb'

/-- A bound key is an entry. -/
theorem mem_entries : (k, v) ∈ m.entries ↔ m.get k = some v := by
  simp only [get, Option.map_eq_some_iff]
  constructor
  · intro h
    have hs : (m.entries.find? fun e => e.1 = k).isSome := List.find?_isSome.mpr ⟨(k, v), h, by simp⟩
    obtain ⟨e, he⟩ := Option.isSome_iff_exists.mp hs
    have hk : e.1 = k := by simpa using List.find?_some he
    have := unique_of_sorted m.sorted (mem_of_find?_eq_some he) h hk
    exact ⟨e, he, by rw [this]⟩
  · rintro ⟨e, he, rfl⟩
    have hk : e.1 = k := by simpa using List.find?_some he
    subst hk
    exact mem_of_find?_eq_some he

/-- Sorted entries are one list if they are one set. -/
theorem eq_of_mem {a b : List (K × V)} (ha : a.Pairwise fun a b => a.1 < b.1) (hb : b.Pairwise fun a b => a.1 < b.1)
    (h : ∀ e, e ∈ a ↔ e ∈ b) : a = b := by
  have hnodup {l : List (K × V)} (hl : l.Pairwise fun a b => a.1 < b.1) : l.Nodup :=
    hl.imp fun hab heq => absurd hab (by simp [heq])
  refine ((perm_ext_iff_of_nodup (hnodup ha) (hnodup hb)).mpr h).eq_of_pairwise ?_ ha hb
  intro a b _ _ hab hba
  exact absurd hab (not_lt.mpr (le_of_lt hba))

/-- A map is what it binds. -/
theorem eq_of_get {m' : SortedMap K V} (h : ∀ k, m.get k = m'.get k) : m = m' := by
  refine ext (eq_of_mem m.sorted m'.sorted ?_)
  intro ⟨k, v⟩
  rw [mem_entries, mem_entries, h]

/-- Ascending keys are the keys of a map if the map binds these and no others. -/
theorem keys_eq {ks : List K} (hks : ks.Pairwise (· < ·)) (h : ∀ k, (m.get k).isSome = true ↔ k ∈ ks) :
    m.entries.map Prod.fst = ks := by
  have hkeys : (m.entries.map Prod.fst).Pairwise (· < ·) := pairwise_map.mpr m.sorted
  have hmem : ∀ k, k ∈ m.entries.map Prod.fst ↔ k ∈ ks := by
    intro k
    rw [← h, Option.isSome_iff_exists]
    simp [mem_entries]
  refine ((perm_ext_iff_of_nodup (hkeys.imp ne_of_lt) (hks.imp ne_of_lt)).mpr hmem).eq_of_pairwise ?_ hkeys hks
  intro a b _ _ hab hba
  exact absurd hab (lt_asymm hba)

theorem mem_of_insertEntry (h : es.Pairwise fun a b => a.1 < b.1) {e : K × V} :
    e ∈ insertEntry k v es ↔ e = (k, v) ∨ e ∈ es ∧ e.1 ≠ k := by
  induction es with
  | nil => simp [insertEntry]
  | cons a es ih =>
    obtain ⟨ha, hes⟩ := pairwise_cons.mp h
    simp only [insertEntry]
    split_ifs with h1 h2
    · have hne : ∀ b, b ∈ a :: es → b.1 ≠ k := by
        intro b hb
        rcases mem_cons.mp hb with rfl | hb
        · exact ne_of_gt h1
        · exact ne_of_gt (lt_trans h1 (ha b hb))
      rw [mem_cons]
      exact or_congr Iff.rfl ⟨fun hb => ⟨hb, hne e hb⟩, fun hb => hb.1⟩
    · rw [mem_cons, ih hes, mem_cons]
      constructor
      · rintro (rfl | h | ⟨h, hk⟩)
        · exact Or.inr ⟨Or.inl rfl, ne_of_lt h2⟩
        · exact Or.inl h
        · exact Or.inr ⟨Or.inr h, hk⟩
      · rintro (h | ⟨rfl | h, hk⟩)
        · exact Or.inr (Or.inl h)
        · exact Or.inl rfl
        · exact Or.inr (Or.inr ⟨h, hk⟩)
    · have he : a.1 = k := le_antisymm (not_lt.mp h1) (not_lt.mp h2)
      have hne : ∀ b ∈ es, b.1 ≠ k := fun b hb => ne_of_gt (he ▸ ha b hb)
      rw [mem_cons, mem_cons]
      constructor
      · rintro (h | h)
        · exact Or.inl h
        · exact Or.inr ⟨Or.inr h, hne e h⟩
      · rintro (h | ⟨rfl | h, hk⟩)
        · exact Or.inl h
        · exact absurd he hk
        · exact Or.inr h

/-! ## What the operations do to a lookup -/

/-- An entry that is put in place of another one need not be there before. -/
theorem insertEntry_filter (k : K) (v : V) (h : es.Pairwise fun a b => a.1 < b.1) :
    insertEntry k v (es.filter fun e => e.1 ≠ k) = insertEntry k v es := by
  refine eq_of_mem (insertEntry_sorted k v (h.filter _)) (insertEntry_sorted k v h) fun e => ?_
  rw [mem_of_insertEntry (h.filter _), mem_of_insertEntry h, mem_filter]
  simp only [ne_eq, decide_not, Bool.not_eq_true', decide_eq_false_iff_not, and_assoc, and_self]

@[simp] theorem get_empty (k : K) : (empty : SortedMap K V).get k = none := rfl

theorem get_put (m : SortedMap K V) (k j : K) (v : V) : (m.put k v).get j = if j = k then some v else m.get j := by
  apply Option.ext
  intro w
  rw [← mem_entries, put, mem_of_insertEntry m.sorted]
  by_cases e : j = k
  · subst e; simp [eq_comm]
  · simp [e, mem_entries]

/-- What is bound after a loop that puts some of its turns' keys. -/
theorem isSome_get_puts {α : Type} (p : α → Bool) (f : α → K) (v : α → V) (l : List α) (m : SortedMap K V) :
    ((l.foldl (fun m a => if p a then m.put (f a) (v a) else m) m).get k).isSome = true ↔
      (m.get k).isSome = true ∨ ∃ a ∈ l, p a = true ∧ f a = k := by
  induction l generalizing m with
  | nil => simp
  | cons a l ih =>
    rw [foldl_cons, ih, exists_mem_cons_iff, ← or_assoc]
    refine or_congr_left ?_
    cases p a with
    | false => simp
    | true =>
      simp only [if_true, get_put, true_and, eq_comm (a := f a)]
      by_cases hk : k = f a <;> simp [hk]

theorem get_remove (m : SortedMap K V) (k j : K) : (m.remove k).get j = if j = k then none else m.get j := by
  apply Option.ext
  intro w
  rw [← mem_entries, remove, mem_filter, mem_entries]
  by_cases e : j = k <;> simp [e]

theorem get_modify (m : SortedMap K V) (k j : K) (f : V → V) :
    (m.modify k f).get j = if j = k then (m.get j).map f else m.get j := by
  apply Option.ext
  intro w
  rw [← mem_entries, modify, mem_map]
  by_cases e : j = k
  · subst e
    simp only [if_true, Option.map_eq_some_iff, ← mem_entries]
    constructor
    · intro ⟨⟨a, b⟩, hm, he⟩
      by_cases h : a = j
      · simp only [h, if_true, Prod.mk.injEq, true_and] at he
        exact ⟨b, h ▸ hm, he⟩
      · rw [if_neg h] at he
        exact absurd (congrArg Prod.fst he) h
    · intro ⟨b, hm, he⟩
      exact ⟨(j, b), hm, by simp [he]⟩
  · simp only [e, if_false, ← mem_entries]
    constructor
    · intro ⟨⟨a, b⟩, hm, he⟩
      by_cases h : a = k
      · simp only [h, if_true, Prod.mk.injEq] at he
        exact absurd he.1.symm e
      · simp only [h, if_false, Prod.mk.injEq] at he
        rw [← he.1, ← he.2]
        exact hm
    · intro hm
      exact ⟨(j, w), hm, by simp [e]⟩

/-! ## At an entry -/

/-- Where a key that is not bound goes. -/
theorem put_between (h : m.entries = pre ++ post) (hpre : ∀ e ∈ pre, e.1 < k)
    (hpost : ∀ e ∈ post, k < e.1) (v : V) : (m.put k v).entries = pre ++ (k, v) :: post := by
  show insertEntry k v m.entries = _
  rw [h]
  exact insertEntry_mid hpre hpost

theorem behind_between (h : m.entries = pre ++ post) (hpre : ∀ e ∈ pre, e.1 ≤ k)
    (hpost : ∀ e ∈ post, k < e.1) : m.behind (some k) = post := by
  have hleft : pre.filter (fun e => k < e.1) = [] := filter_eq_nil_iff.mpr fun e he => by simpa using hpre e he
  have hright : post.filter (fun e => k < e.1) = post := filter_eq_self.mpr fun e he => by simpa using hpost e he
  rw [behind, h, filter_append, hleft, hright, nil_append]

section At

variable {m : SortedMap K V} {pre post : List (K × V)} {k : K} {v : V} (h : m.entries = pre ++ (k, v) :: post)

include h

theorem keys_at : (∀ e ∈ pre, e.1 < k) ∧ ∀ e ∈ post, k < e.1 := by
  have hsorted := m.sorted
  rw [h] at hsorted
  obtain ⟨-, hback, hacross⟩ := pairwise_append.mp hsorted
  exact ⟨fun e he => hacross e he _ mem_cons_self, (pairwise_cons.mp hback).1⟩

theorem get_at : m.get k = some v := mem_entries.mp (by simp [h])

theorem put_at (v' : V) : (m.put k v').entries = pre ++ (k, v') :: post := by
  show insertEntry k v' m.entries = _
  rw [h]
  exact insertEntry_hit (keys_at h).1

theorem modify_at (f : V → V) : (m.modify k f).entries = pre ++ (k, f v) :: post := by
  obtain ⟨hpre, hpost⟩ := keys_at h
  have hleft : pre.map (fun e => if e.1 = k then (e.1, f e.2) else e) = pre :=
    (map_congr_left fun e he => if_neg (ne_of_lt (hpre e he))).trans (map_id _)
  have hright : post.map (fun e => if e.1 = k then (e.1, f e.2) else e) = post :=
    (map_congr_left fun e he => if_neg (ne_of_gt (hpost e he))).trans (map_id _)
  show m.entries.map (fun e => if e.1 = k then (e.1, f e.2) else e) = _
  rw [h, map_append, map_cons, hleft, hright, if_pos rfl]

theorem behind_at : m.behind (some k) = post := by
  obtain ⟨hpre, hpost⟩ := keys_at h
  rw [append_cons] at h
  refine behind_between h (fun e he => ?_) hpost
  rcases mem_append.mp he with he | he
  · exact le_of_lt (hpre e he)
  · rw [mem_singleton.mp he]

end At

/-- An iterator's next entry is followed by the entries behind it. -/
theorem behind_next {place : Option K} {rest : List (K × V)} (h : m.behind place = (k, v) :: rest) :
    ∃ pre, m.entries = pre ++ (k, v) :: rest := by
  cases place with
  | none => exact ⟨[], h⟩
  | some j =>
    have hmem : (k, v) ∈ m.behind (some j) := by simp [h]
    obtain ⟨hin, hlt⟩ := mem_filter.mp hmem
    obtain ⟨pre, post, hm⟩ := append_of_mem hin
    obtain ⟨hpre, hpost⟩ := keys_at hm
    have hj : j < k := by simpa using hlt
    have hright : post.filter (fun e => j < e.1) = post := filter_eq_self.mpr fun e he => by simpa using lt_trans hj (hpost e he)
    rw [behind, hm, filter_append, filter_cons_of_pos (by simpa using hj), hright] at h
    cases hleft : pre.filter fun e => j < e.1 with
    | nil =>
      rw [hleft] at h
      exact ⟨pre, (List.cons.inj h).2 ▸ hm⟩
    | cons e l =>
      rw [hleft] at h
      obtain ⟨rfl, -⟩ := List.cons.inj h
      have hpremem : (k, v) ∈ pre := (mem_filter.mp (hleft ▸ mem_cons_self)).1
      exact absurd (hpre _ hpremem) (lt_irrefl _)

/-! ## The floor -/

theorem floorEntry_eq_some {j : K} :
    m.floorEntry k = some (j, v) ↔ m.get j = some v ∧ j ≤ k ∧ ∀ i w, m.get i = some w → i ≤ k → i ≤ j := by
  simp only [floorEntry, ← mem_entries]
  constructor
  · intro h
    obtain ⟨ys, hy⟩ := List.getLast?_eq_some_iff.mp h
    have hmem : (j, v) ∈ m.entries.filter fun e => e.1 ≤ k := by rw [hy]; simp
    obtain ⟨h1, h2⟩ := mem_filter.mp hmem
    refine ⟨h1, by simpa using h2, fun i w hi hik => ?_⟩
    have hi' : (i, w) ∈ m.entries.filter fun e => e.1 ≤ k := mem_filter.mpr ⟨hi, by simpa using hik⟩
    have hs := m.sorted.filter fun e => e.1 ≤ k
    rw [hy] at hi' hs
    rcases mem_append.mp hi' with hi' | hi'
    · exact le_of_lt ((pairwise_append.mp hs).2.2 _ hi' _ (mem_singleton.mpr rfl))
    · cases mem_singleton.mp hi'; exact le_refl _
  · intro ⟨hm, hk, hmax⟩
    have hmem : (j, v) ∈ m.entries.filter fun e => e.1 ≤ k := mem_filter.mpr ⟨hm, by simpa using hk⟩
    obtain ⟨⟨i, w⟩, hi⟩ : ∃ e, (m.entries.filter fun e => e.1 ≤ k).getLast? = some e := by
      rw [← Option.ne_none_iff_exists', ne_eq, List.getLast?_eq_none_iff]
      exact ne_nil_of_mem hmem
    rw [hi]
    obtain ⟨ys, hy⟩ := List.getLast?_eq_some_iff.mp hi
    have hi' : (i, w) ∈ m.entries.filter fun e => e.1 ≤ k := by rw [hy]; simp
    obtain ⟨h1, h2⟩ := mem_filter.mp hi'
    have hle := hmax i w h1 (by simpa using h2)
    have hs := m.sorted.filter fun e => e.1 ≤ k
    rw [hy] at hmem hs
    rcases mem_append.mp hmem with h | h
    · exact absurd ((pairwise_append.mp hs).2.2 _ h _ (mem_singleton.mpr rfl)) (not_lt.mpr hle)
    · rw [mem_singleton.mp h]

end SortedMap

end DeepFabric.Lib
