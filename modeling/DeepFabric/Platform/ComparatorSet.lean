/-
  DeepFabric.Platform.ComparatorSet — `TreeSet` under a comparator that need not be an order.

  What a comparator calls equal is found wherever a search comes by it, and the search goes by what it has compared on the way.
  Nothing is added that has been found. Where comparing is transitive, a search comes by every element that is there.
-/
import DeepFabric.Platform.Cardinality
import DeepFabric.Platform.TreeSet

namespace DeepFabric.Platform.ComparatorSet

open Lib TreeMap Cardinality List

variable {K : Type}

/-- A set has elements, and nothing beside them. -/
abbrev ElementSet (K : Type) := TreeSet K Unit

def elements (t : ElementSet K) : List K := t.entries.map Prod.fst

def init : ElementSet K := TreeMap.init 3 false

section Operations

variable (cmp : K → K → Int)

/-- `find`. The comparator tells no position. -/
def find (key : K) (n : Nat) (node : Node K Unit n) : Found K Unit := (findAt (fun a b => (cmp a b, 0)) key n node).1

def contains (t : ElementSet K) (key : K) : Bool :=
  match t.root with
  | some ⟨n, node⟩ => (find cmp key n node).entry.isSome
  | none => false

/-- `if (contains(key) == false) add(key)`, where the search of `add` finds nothing either. -/
def addIfAbsent (t : ElementSet K) (key : K) : Option (ElementSet K) :=
  match t.root with
  | some ⟨n, node⟩ =>
    let f := find cmp key n node
    if f.entry.isSome then some t else TreeSet.insertAt t n node f.path f.index (key, ())
  | none => some (t.newRoot key ())

def addAllAbsent (t : ElementSet K) (keys : List K) : Option (ElementSet K) := keys.foldlM (addIfAbsent cmp) t

end Operations

/-- A comparator that is an order, but for elements that are equal. -/
structure Orders (cmp : K → K → Int) : Prop where
  swap : ∀ a b, 0 < cmp a b ↔ cmp b a < 0
  trans : ∀ {a b c}, cmp a b < 0 → cmp b c < 0 → cmp a c < 0

variable {cmp : K → K → Int}

/-! ## Any comparator -/

section Any

variable {t t' : ElementSet K} {key : K}

theorem contains_sound (h : contains cmp t key = true) : ∃ e ∈ elements t, cmp e key = 0 := by
  unfold contains at h
  split at h
  · rename_i n node hroot
    have hfound := @findAt_found K Unit (fun a b => (cmp a b, 0)) key n node
    cases hfound with
    | @hit x pre post hentry his hon _ =>
      have hmem : x ∈ t.entries := by
        rw [entries_of_root hroot, hon.flat]
        simp
      exact ⟨x.1, mem_map_of_mem hmem, his⟩
    | miss hnone =>
      unfold find at h
      rw [hnone] at h
      exact absurd h Bool.false_ne_true
  · exact absurd h Bool.false_ne_true

/-- An element goes in where a search that does not find it ends. -/
theorem addIfAbsent_placed {is below above : K → Prop} {seen : Nat → K → Prop} (ht : t.Built)
    (hplaced : ∀ n node, t.root = some ⟨n, node⟩ → Placed is below above seen n node (findAt (fun a b => (cmp a b, 0)) key n node)) :
    ∃ t', addIfAbsent cmp t key = some t' ∧ t'.Built ∧
      ((contains cmp t key = true ∧ t' = t) ∨ (contains cmp t key = false ∧
        ∃ pre post, elements t = pre ++ post ∧ elements t' = pre ++ key :: post ∧ (∀ e ∈ pre, below e) ∧ ∀ e ∈ post, above e)) := by
  rcases hroot : t.root with _ | ⟨n, node⟩
  · obtain ⟨hb, he⟩ := newRoot_built ht hroot key ()
    refine ⟨t.newRoot key (), by rw [addIfAbsent, hroot], hb, .inr ⟨by rw [contains, hroot], [], [], ?_, ?_, nofun, nofun⟩⟩
    · rw [elements, entries_nil hroot]
      rfl
    · rw [elements, he]
      rfl
  · have hcontains : contains cmp t key = (find cmp key n node).entry.isSome := by rw [contains, hroot]
    have hadd : addIfAbsent cmp t key = if (find cmp key n node).entry.isSome then some t
        else TreeSet.insertAt t n node (find cmp key n node).path (find cmp key n node).index (key, ()) := by
      rw [addIfAbsent, hroot]
    rw [hcontains, hadd]
    cases hplaced n node hroot with
    | hit hentry =>
      have hsome : (find cmp key n node).entry.isSome = true := by
        unfold find
        rw [hentry]
        rfl
      rw [if_pos hsome]
      exact ⟨t, rfl, ht, .inl ⟨hsome, rfl⟩⟩
    | @miss pre post hentry hat hpre hpost =>
      have hnone : (find cmp key n node).entry.isSome = false := by
        unfold find
        rw [hentry]
        rfl
      obtain ⟨t', hins, hb, he, -⟩ := insert_built ht hroot hat (key, ()) false nofun
      rw [if_neg (by rw [hnone]; exact Bool.false_ne_true)]
      refine ⟨t', ?_, hb, .inr ⟨hnone, pre.map Prod.fst, post.map Prod.fst, ?_, ?_, ?_, ?_⟩⟩
      · rw [TreeSet.insertAt]
        show t.insert n node (Node.insertPlace n node _ _).1 (Node.insertPlace n node _ _).2 (key, ()) false = some t'
        rw [find, TreeSet.insertPlace_at hat]
        exact hins
      · rw [elements, entries_of_root hroot, hat.flat, map_append]
      · rw [elements, he, map_append, map_cons]
      · exact forall_mem_map.mpr hpre
      · exact forall_mem_map.mpr hpost

/-- Whatever the comparator, an element that is not found goes in, and nothing else changes. -/
theorem addIfAbsent_spec (ht : t.Built) (cmp : K → K → Int) (key : K) : ∃ t', addIfAbsent cmp t key = some t' ∧ t'.Built ∧
    (elements t').Perm (if contains cmp t key then elements t else key :: elements t) := by
  obtain ⟨t', hadd, hb, hcase⟩ := addIfAbsent_placed ht fun n node _ => @findAt_found K Unit (fun a b => (cmp a b, 0)) key n node
  refine ⟨t', hadd, hb, ?_⟩
  rcases hcase with ⟨hin, rfl⟩ | ⟨hout, pre, post, he, he', -, -⟩
  · rw [if_pos hin]
  · rw [if_neg (by simp [hout]), he, he']
    exact perm_middle

end Any

/-! ## A single leaf -/

/-- The set whose elements stand in one leaf. -/
def leaf (keys : List K) : ElementSet K where
  order := 3
  cardinalityEnabled := false
  root := some ⟨0, keys.map fun key => (key, ())⟩
  pEntries := keys.length

section Leaf

variable {keys : List K} {key : K} {i : Nat}

@[simp] theorem elements_leaf (keys : List K) : elements (leaf keys) = keys := by
  show (keys.map fun key => (key, ())).map Prod.fst = keys
  simp [Function.comp_def]

theorem find_leaf (h : (searchAt (fun a b => (cmp a b, 0)) key keys 0).1 = (i, false)) :
    find cmp key 0 (keys.map fun key => (key, ())) = ⟨none, [], i, i == keys.length⟩ := by
  have hkeys : (keys.map fun key => (key, ())).map Prod.fst = keys := elements_leaf keys
  rcases hseek : searchAt (fun a b => (cmp a b, 0)) key keys 0 with ⟨⟨j, hit⟩, pos⟩
  rw [hseek] at h
  obtain ⟨rfl, rfl⟩ := Prod.mk.inj h
  rw [find, findAt, Node.findBy, hkeys, hseek]
  simp

theorem contains_leaf (h : (searchAt (fun a b => (cmp a b, 0)) key keys 0).1 = (i, false)) : contains cmp (leaf keys) key = false := by
  show (find cmp key 0 (keys.map fun key => (key, ()))).entry.isSome = false
  rw [find_leaf h]
  rfl

theorem addIfAbsent_leaf (hroom : keys.length < 5) (hi : i ≤ keys.length) (h : (searchAt (fun a b => (cmp a b, 0)) key keys 0).1 = (i, false)) :
    addIfAbsent cmp (leaf keys) key = some (leaf (keys.take i ++ key :: keys.drop i)) := by
  have hfull : (@Leaf.kind (K × Unit) 3).isFull ((keys.take i ++ key :: keys.drop i).map fun key => (key, ())) = false := by
    simp [Kind.isFull, Leaf.kind]
    omega
  have hins : Node.insert 3 (key, ()) false 0 (keys.map fun key => (key, ())) [] i =
      some ((keys.take i ++ key :: keys.drop i).map fun key => (key, ()), false) := by
    rw [Node.insert, if_pos (by simpa using hi), ← hfull]
    simp
  show (if (find cmp key 0 (keys.map fun key => (key, ()))).entry.isSome then _ else _) = _
  rw [find_leaf h]
  simp only [Option.isSome_none, Bool.false_eq_true, if_false, TreeSet.insertAt, Node.insertPlace]
  rw [TreeMap.insert]
  show (Node.insert 3 (key, ()) false 0 (keys.map fun key => (key, ())) [] i >>= _) = _
  rw [hins]
  simp [leaf]
  omega

variable {a b c d : K}

theorem pair_leaf (hcd : cmp c d < 0) : addAllAbsent cmp init [c, d] = some (leaf [c, d]) := by
  have hc : addIfAbsent cmp init c = some (leaf [c]) := rfl
  have hd : addIfAbsent cmp (leaf [c]) d = some (leaf [c, d]) :=
    @addIfAbsent_leaf _ _ [c] d 1 (by simp) (by simp) (by simp [searchAt, probeAt, compareAt, scanAt, hcd, hcd.ne])
  simp only [addAllAbsent, foldlM_cons, hc, hd, Option.bind_eq_bind, Option.bind_some]
  rfl

theorem three_leaf (hda : cmp d a < 0) (hdb : cmp d b < 0) (hab : cmp a b < 0) : addAllAbsent cmp init [d, a, b] = some (leaf [d, a, b]) := by
  have hb : addIfAbsent cmp (leaf [d, a]) b = some (leaf [d, a, b]) :=
    @addIfAbsent_leaf _ _ [d, a] b 2 (by simp) (by simp) (by simp [searchAt, probeAt, compareAt, scanAt, hdb, hdb.ne, hab, hab.ne])
  have hadd : addAllAbsent cmp init [d, a, b] = (addAllAbsent cmp init [d, a]).bind fun t => addIfAbsent cmp t b := by
    simp [addAllAbsent, Option.bind_assoc]
  rw [hadd, pair_leaf hda, Option.bind_some, hb]

/-- Around a cycle, the search for the last element of a leaf turns to its front. -/
theorem cycle_leaf (hab : cmp a b < 0) (hcd : cmp c d < 0) (hca : 0 < cmp c a) (hcb : 0 < cmp c b) (hbd : 0 < cmp b d) (had : 0 < cmp a d) :
    addAllAbsent cmp init [c, d, a, b] = some (leaf [a, b, c, d]) ∧ contains cmp (leaf [a, b, c, d]) d = false := by
  have ha : addIfAbsent cmp (leaf [c, d]) a = some (leaf [a, c, d]) :=
    @addIfAbsent_leaf _ _ [c, d] a 0 (by simp) (by simp)
      (by simp [searchAt, probeAt, compareAt, scanAt, List.range'_succ, hca, hca.ne', hca.not_gt])
  have hb : addIfAbsent cmp (leaf [a, c, d]) b = some (leaf [a, b, c, d]) :=
    @addIfAbsent_leaf _ _ [a, c, d] b 1 (by simp) (by simp)
      (by simp [searchAt, probeAt, compareAt, scanAt, List.range'_succ, hcb, hcb.ne', hcb.not_gt, hab, hab.ne])
  have hadd : addAllAbsent cmp init [c, d, a, b] =
      (addAllAbsent cmp init [c, d]).bind fun t => (addIfAbsent cmp t a).bind fun t => addIfAbsent cmp t b := by
    simp [addAllAbsent, Option.bind_assoc]
  refine ⟨?_, @contains_leaf _ _ [a, b, c, d] d 0 ?_⟩
  · rw [hadd, pair_leaf hcd, Option.bind_some, ha, Option.bind_some, hb]
  · simp [searchAt, probeAt, compareAt, scanAt, List.range'_succ, hbd.ne', hbd.not_gt, had, had.ne', had.not_gt]

end Leaf

/-! ## An order -/

section Ordered

variable (hcmp : Orders cmp) {keys : List K} {what : K}

/-- What the binary search knows of the keys outside the ones still in question. -/
structure Span (cmp : K → K → Int) (keys : List K) (what : K) (start finish : Nat) (last : Option Nat) : Prop where
  le : start ≤ finish
  length : finish ≤ keys.length
  below : ∀ {j key}, j < start → keys[j]? = some key → cmp key what < 0
  above : ∀ {j key}, finish ≤ j → keys[j]? = some key → 0 < cmp key what
  unscanned : last = none → finish = keys.length
  scanned : ∀ {l}, last = some l → finish ≤ l ∧ l < keys.length

/-- A search that ends in a miss has the smaller keys before the place and the greater ones behind it. -/
abbrev Splits (cmp : K → K → Int) (keys : List K) (what : K) (r : (Nat × Bool) × Nat) : Prop :=
  Sought (fun k => cmp k what = 0) (fun k => cmp k what < 0) (fun k => 0 < cmp k what) (fun _ _ => True) keys r

theorem Span.miss {start pos : Nat} {last : Option Nat} (h : Span cmp keys what start start last) :
    Splits cmp keys what ((start, false), pos) where
  hit := nofun
  le := h.length
  below := fun _ {_ _} => h.below
  above := fun _ {_ _} => h.above
  beside := fun _ {_ _} _ _ => trivial

/-- Nothing is left in question, and the scan stops at the first key. -/
theorem Span.scanned_splits {start pos : Nat} {last : Option Nat} (h : Span cmp keys what start start last) :
    Splits cmp keys what
      (scanAt (fun a b => (cmp a b, 0)) keys what (last.elim [] fun last => List.range' start (last + 1 - start)) pos) := by
  cases last with
  | none =>
    have hend := h.unscanned rfl
    rw [hend] at h
    exact h.miss
  | some l =>
    obtain ⟨hle, hlt⟩ := h.scanned rfl
    have hk : keys[start]? = some keys[start] := List.getElem?_eq_getElem (by omega)
    have hpos : 0 < cmp keys[start] what := h.above (Nat.le_refl _) hk
    obtain ⟨n, hn⟩ : ∃ n, l + 1 - start = n + 1 := ⟨l - start, by omega⟩
    have hscan : scanAt (fun a b => (cmp a b, 0)) keys what (List.range' start (l + 1 - start)) pos = ((start, false), pos) := by
      rw [hn, List.range'_succ, scanAt, hk]
      simp [compareAt, hpos]
    rw [Option.elim_some, hscan]
    exact h.miss

include hcmp

theorem probe_splits (hs : keys.Pairwise fun a b => cmp a b < 0) {fuel start finish pos : Nat} {last : Option Nat} (hfuel : finish - start ≤ fuel)
    (h : Span cmp keys what start finish last) :
    Splits cmp keys what (probeAt (fun a b => (cmp a b, 0)) keys what fuel start finish last pos) := by
  have hle := h.le
  have hlen := h.length
  induction fuel generalizing start finish last pos with
  | zero =>
    obtain rfl : start = finish := by omega
    exact h.scanned_splits
  | succ fuel ih =>
    by_cases hlt : start < finish
    · obtain ⟨mid, hmid⟩ : ∃ mid, mid = (start + (finish - 1)) / 2 := ⟨_, rfl⟩
      have hm1 : start ≤ mid := by omega
      have hm2 : mid < keys.length := by omega
      have hk : keys[mid]? = some keys[mid] := List.getElem?_eq_getElem hm2
      have hprobe : probeAt (fun a b => (cmp a b, 0)) keys what (fuel + 1) start finish last pos =
          if cmp keys[mid] what = 0 then ((mid, true), pos)
          else if cmp keys[mid] what < 0 then probeAt (fun a b => (cmp a b, 0)) keys what fuel (mid + 1) finish last pos
          else probeAt (fun a b => (cmp a b, 0)) keys what fuel start mid (some (finish - 1)) pos := by
        rw [probeAt, if_pos hlt, ← hmid]
        simp only [hk]
        simp [compareAt]
      rw [hprobe]
      split_ifs with hzero hneg
      · exact ⟨fun _ => ⟨keys[mid], hk, hzero⟩, Nat.le_of_lt hm2, fun h => (by cases h), fun h => (by cases h), fun h => (by cases h)⟩
      · have hup : Span cmp keys what (mid + 1) finish last := by
          refine ⟨by omega, hlen, ?_, h.above, h.unscanned, h.scanned⟩
          intro j key hj hkey
          obtain ⟨hj', rfl⟩ := List.getElem?_eq_some_iff.mp hkey
          rcases Nat.lt_or_eq_of_le (Nat.le_of_lt_succ hj) with hj | rfl
          · exact hcmp.trans (pairwise_iff_getElem.mp hs j mid hj' hm2 hj) hneg
          · exact hneg
        exact ih (by omega) hup (by omega) hlen
      · have hgt : 0 < cmp keys[mid] what := by omega
        have hdown : Span cmp keys what start mid (some (finish - 1)) := by
          refine ⟨hm1, by omega, h.below, ?_, fun h => (by cases h), ?_⟩
          · intro j key hj hkey
            obtain ⟨hj', rfl⟩ := List.getElem?_eq_some_iff.mp hkey
            rcases Nat.lt_or_eq_of_le hj with hj | rfl
            · have hbelow := hcmp.trans ((hcmp.swap _ _).mp hgt) (pairwise_iff_getElem.mp hs mid j hm2 hj' hj)
              exact (hcmp.swap _ _).mpr hbelow
            · exact hgt
          · intro l hl
            cases hl
            omega
        exact ih (by omega) hdown hm1 (by omega)
    · obtain rfl : start = finish := by omega
      rw [probeAt, if_neg hlt]
      exact h.scanned_splits

theorem find_splits {n : Nat} {node : Node K Unit n} (key : K) (hs : ((Node.flat n node).map Prod.fst).Pairwise fun a b => cmp a b < 0) :
    Placed (fun k => cmp k key = 0) (fun k => cmp k key < 0) (fun k => 0 < cmp k key) (fun _ _ => True) n node
      (findAt (fun a b => (cmp a b, 0)) key n node) := by
  refine Node.findBy_placed ?_ (fun _ _ => trivial) ?_
  · intro keys pos hsub
    have hspan : Span cmp keys key 0 keys.length none :=
      ⟨Nat.zero_le _, Nat.le_refl _, fun h => absurd h (Nat.not_lt_zero _),
        fun hj hk => absurd (List.getElem?_eq_some_iff.mp hk).1 (Nat.not_lt.mpr hj), fun _ => rfl, nofun⟩
    exact probe_splits hcmp (hs.sublist hsub) (Nat.le_refl _) hspan
  · refine (pairwise_map.mp hs).imp fun {a b} hab => ⟨fun hb => hcmp.trans hab hb, fun ha => ?_⟩
    exact (hcmp.swap _ _).mpr (hcmp.trans ((hcmp.swap _ _).mp ha) hab)

variable {t t' : ElementSet K} {key : K}

/-- Where the comparator is an order, what is equal is found. -/
theorem contains_iff (hs : (elements t).Pairwise fun a b => cmp a b < 0) : contains cmp t key = true ↔ ∃ e ∈ elements t, cmp e key = 0 := by
  refine ⟨contains_sound, ?_⟩
  rintro ⟨e, he, hzero⟩
  rcases hroot : t.root with _ | ⟨n, node⟩
  · rw [elements, entries_nil hroot] at he
    exact absurd he not_mem_nil
  · rw [elements, entries_of_root hroot] at hs he
    rw [contains, hroot]
    cases find_splits hcmp key hs with
    | hit hentry =>
      show (find cmp key n node).entry.isSome = true
      unfold find
      rw [hentry]
      rfl
    | miss _ hat hpre hpost =>
      rw [hat.flat, map_append] at he
      rcases mem_append.mp he with he | he
      · obtain ⟨x, hx, rfl⟩ := mem_map.mp he
        have := hpre x hx
        omega
      · obtain ⟨x, hx, rfl⟩ := mem_map.mp he
        have := hpost x hx
        omega

/-- Where it is one, the elements stay in order, one of each kind. -/
theorem addIfAbsent_ordered (ht : t.Built) (hs : (elements t).Pairwise fun a b => cmp a b < 0) (key : K) :
    ∃ t', addIfAbsent cmp t key = some t' ∧ t'.Built ∧ (elements t').Pairwise fun a b => cmp a b < 0 := by
  have hplaced : ∀ n node, t.root = some ⟨n, node⟩ → Placed (fun k => cmp k key = 0) (fun k => cmp k key < 0) (fun k => 0 < cmp k key)
      (fun _ _ => True) n node (findAt (fun a b => (cmp a b, 0)) key n node) := by
    intro n node hroot
    rw [elements, entries_of_root hroot] at hs
    exact find_splits hcmp key hs
  obtain ⟨t', hadd, hb, hcase⟩ := addIfAbsent_placed ht hplaced
  refine ⟨t', hadd, hb, ?_⟩
  rcases hcase with ⟨-, rfl⟩ | ⟨-, pre, post, he, he', hpre, hpost⟩
  · exact hs
  · rw [he] at hs
    obtain ⟨hspre, hspost, hacross⟩ := pairwise_append.mp hs
    rw [he']
    refine pairwise_append.mpr ⟨hspre, pairwise_cons.mpr ⟨fun b hb => (hcmp.swap _ _).mp (hpost b hb), hspost⟩, ?_⟩
    intro a ha b hb
    rcases mem_cons.mp hb with rfl | hb
    · exact hpre a ha
    · exact hacross a ha b hb

theorem addAllAbsent_ordered (ht : t.Built) (hs : (elements t).Pairwise fun a b => cmp a b < 0) (keys : List K) :
    ∃ t', addAllAbsent cmp t keys = some t' ∧ t'.Built ∧ (elements t').Pairwise fun a b => cmp a b < 0 := by
  induction keys generalizing t with
  | nil => exact ⟨t, rfl, ht, hs⟩
  | cons key keys ih =>
    obtain ⟨t1, hadd, hb, hs1⟩ := addIfAbsent_ordered hcmp ht hs key
    obtain ⟨t', hrest, hb', hs'⟩ := ih hb hs1
    exact ⟨t', by rw [addAllAbsent, foldlM_cons, hadd]; exact hrest, hb', hs'⟩

end Ordered

/-! ## Kinds -/

section Kinds

variable {κ : Type} {kind : K → κ} (hkind : ∀ a b, cmp a b = 0 ↔ kind a = kind b) {t : ElementSet K}

include hkind

theorem addAllAbsent_kinds (ht : t.Built) (keys : List K) : ∃ t', addAllAbsent cmp t keys = some t' ∧ t'.Built ∧
    ∀ x, x ∈ (elements t').map kind ↔ x ∈ (elements t).map kind ∨ x ∈ keys.map kind := by
  induction keys generalizing t with
  | nil => exact ⟨t, rfl, ht, fun x => by simp⟩
  | cons key keys ih =>
    obtain ⟨t1, hadd, hb, hperm⟩ := addIfAbsent_spec ht cmp key
    obtain ⟨t', hrest, hb', hkinds⟩ := ih hb
    refine ⟨t', by rw [addAllAbsent, foldlM_cons, hadd]; exact hrest, hb', fun x => ?_⟩
    have hone : x ∈ (elements t1).map kind ↔ x ∈ (elements t).map kind ∨ x = kind key := by
      rw [(hperm.map kind).mem_iff]
      by_cases hin : contains cmp t key = true
      · rw [if_pos hin]
        obtain ⟨e, he, hzero⟩ := contains_sound hin
        have hsame := (hkind e key).mp hzero
        refine ⟨.inl, fun h => h.elim id fun h => ?_⟩
        rw [h, ← hsame]
        exact mem_map_of_mem he
      · rw [if_neg hin, map_cons, mem_cons, or_comm]
    rw [hkinds, hone, map_cons, mem_cons, or_assoc]

theorem kinds_nodup (hs : (elements t).Pairwise fun a b => cmp a b < 0) : ((elements t).map kind).Nodup := by
  refine pairwise_map.mpr (hs.imp fun {a b} hab => ?_)
  intro heq
  have := (hkind a b).mpr heq
  omega

end Kinds

theorem size_elements {t : ElementSet K} (ht : t.Built) : t.size = (elements t).length := by
  rw [elements, length_map]
  exact ht.size

end DeepFabric.Platform.ComparatorSet
