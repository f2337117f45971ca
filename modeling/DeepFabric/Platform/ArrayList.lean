/-
  DeepFabric.Platform.ArrayList — the growing array (`ArrayList.h`).

  The allocated cells are a list (`elements`, whose length is `m_length`), a cell that was never
  written is `none`. A call has no result where the code would write behind the last cell, where
  `m_size * 3 / 2` overflows an int, or where the index is out of range (`checkRange`, which only
  the debug build calls).

  Growing and shrinking are one function: `resize` makes the capacity three halves of the size,
  and does nothing where that is below four.
  - `contents_iff`: all along a run the list has the contents of the reference sequence, in cells
    that are there, exactly if every call finds room (`Fits`): where the list is full it has at
    least three elements, and less than 2^31 / 3.

  As built a list that starts with room for less than three elements cannot grow:
  `capacity_one_overrun`.
-/
import Mathlib.Algebra.Group.Nat.Defs
import Mathlib.Data.List.Basic
import DeepFabric.Lib.Run

namespace DeepFabric.Platform.ArrayLists

open Lib.Run List Option

variable {E : Type}

def INITIAL_CAPACITY : Nat := 4

structure ArrayList (E : Type) where
  elements : List (Option E)
  size : Nat
  deriving DecidableEq

namespace ArrayList

def length (l : ArrayList E) : Nat := l.elements.length

def new (initialCapacity : Nat) : ArrayList E := ⟨List.replicate initialCapacity none, 0⟩

def resize (l : ArrayList E) : Option (ArrayList E) :=
  if 2 ^ 31 ≤ l.size * 3 then none
  else if l.size * 3 / 2 < INITIAL_CAPACITY then some l
  else some { l with elements := l.elements.take l.size ++ List.replicate (l.size * 3 / 2 - l.size) none }

/-- What both `add` do first. -/
def makeRoom (l : ArrayList E) : Option (ArrayList E) := if l.size = l.length then l.resize else some l

/-- `m_elements[index] = element`. -/
def store (elements : List (Option E)) (index : Nat) (element : E) : Option (List (Option E)) :=
  if index < elements.length then some (elements.set index (some element)) else none

/-- `System::arraycopy` within one array, a `memmove`. -/
def arraycopy (elements : List (Option E)) (srcPos destPos length : Nat) : Option (List (Option E)) :=
  if srcPos + length ≤ elements.length ∧ destPos + length ≤ elements.length then
    some (elements.take destPos ++ (elements.drop srcPos).take length ++ elements.drop (destPos + length))
  else none

def add (l : ArrayList E) (element : E) : Option (ArrayList E) := do
  let l ← l.makeRoom
  let elements ← store l.elements l.size element
  some ⟨elements, l.size + 1⟩

def shiftUp (l : ArrayList E) (index : Nat) : Option (List (Option E)) :=
  if index < l.size then arraycopy l.elements index (index + 1) (l.size - index) else some l.elements

/-- `add(index, element)`. -/
def insert (l : ArrayList E) (index : Nat) (element : E) : Option (ArrayList E) :=
  if l.size < index then none
  else do
    let l ← l.makeRoom
    let elements ← l.shiftUp index
    let elements ← store elements index element
    some ⟨elements, l.size + 1⟩

def shiftDown (l : ArrayList E) (index : Nat) : Option (List (Option E)) :=
  if 0 < l.size - index - 1 then arraycopy l.elements (index + 1) index (l.size - index - 1) else some l.elements

/-- What `remove` does last. -/
def shrink (l : ArrayList E) : Option (ArrayList E) := if l.size < l.length / 3 then l.resize else some l

def remove (l : ArrayList E) (index : Nat) : Option (ArrayList E × E) :=
  if l.size ≤ index then none
  else do
    let element ← (l.elements[index]?).join
    let elements ← l.shiftDown index
    let l ← shrink ⟨elements, l.size - 1⟩
    some (l, element)

def set (l : ArrayList E) (index : Nat) (element : E) : Option (ArrayList E × E) :=
  if l.size ≤ index then none
  else do
    let oldValue ← (l.elements[index]?).join
    let elements ← store l.elements index element
    some (⟨elements, l.size⟩, oldValue)

def reset (l : ArrayList E) : ArrayList E := { l with size := 0 }

def clear (l : ArrayList E) : Option (ArrayList E) := l.reset.resize

def addAll (l : ArrayList E) (c : List E) : Option (ArrayList E) := c.foldlM add l

/-- `addAll(index, c)`. -/
def insertAll (l : ArrayList E) : Nat → List E → Option (ArrayList E)
  | _, [] => some l
  | index, element :: c => (l.insert index element).bind fun l => insertAll l (index + 1) c

end ArrayList

/-! ## Runs -/

inductive Ev (E : Type) where
  | add (element : E)
  | insert (index : Nat) (element : E)
  | remove (index : Nat)
  | set (index : Nat) (element : E)
  | clear
  | addAll (c : List E)
  | insertAll (index : Nat) (c : List E)

def step (l : ArrayList E) : Ev E → Option (ArrayList E)
  | .add element => l.add element
  | .insert index element => l.insert index element
  | .remove index => (l.remove index).map (·.1)
  | .set index element => (l.set index element).map (·.1)
  | .clear => l.clear
  | .addAll c => l.addAll c
  | .insertAll index c => l.insertAll index c

/-- The reference sequence. -/
def next (r : List E) : Ev E → List E
  | .add element => r ++ [element]
  | .insert index element => r.take index ++ element :: r.drop index
  | .remove index => r.eraseIdx index
  | .set index element => r.set index element
  | .clear => []
  | .addAll c => r ++ c
  | .insertAll index c => r.take index ++ c ++ r.drop index

/-- The first cells carry the sequence, and its length is the size. -/
def Holds (l : ArrayList E) (r : List E) : Prop := l.size ≤ l.length ∧ l.elements.take l.size = r.map some ∧ l.size = r.length

/-- As built: with room for one element the second is written behind the array. -/
theorem capacity_one_overrun :
    (∃ l, exec step (ArrayList.new 1) [.add 5] = some l ∧ l.size = l.length ∧ l.makeRoom = some l) ∧
      exec step (ArrayList.new 1) [.add 5, .add 6] = none := by
  refine ⟨⟨⟨[some 5], 1⟩, ?_, rfl, ?_⟩, ?_⟩ <;> decide

/-- There is room for the next elements: where the list is full, it has enough elements to grow and not too many. -/
def Fits (size length : Nat) : Nat → Prop
  | 0 => True
  | count + 1 =>
    (size = length → 3 ≤ size ∧ size * 3 < 2 ^ 31) ∧ Fits (size + 1) (if size = length then size * 3 / 2 else length) count

/-- The calls with an index in range that find room. -/
def Roomy (l : ArrayList E) : Ev E → Prop
  | .add _ => Fits l.size l.length 1
  | .insert index _ => index ≤ l.size ∧ Fits l.size l.length 1
  | .remove index => index < l.size
  | .set index _ => index < l.size
  | .clear => True
  | .addAll c => Fits l.size l.length c.length
  | .insertAll index c => (c ≠ [] → index ≤ l.size) ∧ Fits l.size l.length c.length

/-! ## One call -/

/-- `Holds`, and the capacity is an int. -/
structure Inv (l : ArrayList E) (r : List E) : Prop where
  holds : Holds l r
  bound : l.length < 2 ^ 31

section Calls

variable {l l' : ArrayList E} {r : List E} {index : Nat} {element : E}

theorem holds_iff : Holds l r ↔ ∃ rest, l.elements = r.map some ++ rest ∧ l.size = r.length := by
  constructor
  · intro ⟨_, htake, hsize⟩
    exact ⟨l.elements.drop l.size, by rw [← htake, take_append_drop], hsize⟩
  · intro ⟨rest, helements, hsize⟩
    refine ⟨?_, ?_, hsize⟩
    · rw [ArrayList.length, helements, hsize, length_append, length_map]
      exact Nat.le_add_right _ _
    · rw [helements, hsize, List.take_left' (length_map some)]

/-- A full list grows exactly if it has three elements or more. -/
def grown (l : ArrayList E) : Nat := if l.size = l.length then l.size * 3 / 2 else l.length

/-- What the list asks of itself before it takes one more element. -/
def Room (l : ArrayList E) : Prop := l.size = l.length → 3 ≤ l.size ∧ l.size * 3 < 2 ^ 31

theorem resize_spec (hi : Inv l r) (hs : l.size * 3 < 2 ^ 31) :
    ∃ l', l.resize = some l' ∧ Inv l' r ∧ l'.size = l.size ∧
      l'.length = if l.size * 3 / 2 < INITIAL_CAPACITY then l.length else l.size * 3 / 2 := by
  by_cases h4 : l.size * 3 / 2 < INITIAL_CAPACITY
  · exact ⟨l, by rw [ArrayList.resize, if_neg (by omega), if_pos h4], hi, rfl, (if_pos h4).symm⟩
  · obtain ⟨hle, htake, hsize⟩ := hi.holds
    have hlength : (l.elements.take l.size).length = l.size := length_take_of_le hle
    refine ⟨{ l with elements := l.elements.take l.size ++ List.replicate (l.size * 3 / 2 - l.size) none },
      by rw [ArrayList.resize, if_neg (by omega), if_neg h4], ⟨holds_iff.mpr ⟨_, congrArg (· ++ _) htake, hsize⟩, ?_⟩, rfl, ?_⟩
    · rw [ArrayList.length, length_append, hlength, length_replicate]
      omega
    · rw [if_neg h4, ArrayList.length, length_append, hlength, length_replicate]
      omega

theorem makeRoom_spec (hi : Inv l r) (hroom : Room l) :
    ∃ l', l.makeRoom = some l' ∧ Inv l' r ∧ l'.size = l.size ∧ l'.size < l'.length ∧ l'.length = grown l := by
  by_cases hfull : l.size = l.length
  · obtain ⟨h3, hint⟩ := hroom hfull
    obtain ⟨l', hresize, hi', hsize, hlength⟩ := resize_spec hi hint
    rw [if_neg (by rw [INITIAL_CAPACITY]; omega)] at hlength
    exact ⟨l', by rw [ArrayList.makeRoom, if_pos hfull, hresize], hi', hsize, by omega, by rw [grown, if_pos hfull, hlength]⟩
  · have hlt : l.size < l.length := Nat.lt_of_le_of_ne hi.holds.1 hfull
    exact ⟨l, by rw [ArrayList.makeRoom, if_neg hfull], hi, rfl, hlt, by rw [grown, if_neg hfull]⟩

/-- Without room there is no free cell behind the last element. -/
theorem room_of_makeRoom (h : l.makeRoom = some l') (hlt : l'.size < l'.length) : Room l := by
  intro hfull
  rw [ArrayList.makeRoom, if_pos hfull, ArrayList.resize] at h
  by_cases hint : 2 ^ 31 ≤ l.size * 3
  · rw [if_pos hint] at h
    cases h
  · by_cases h4 : l.size * 3 / 2 < INITIAL_CAPACITY
    · rw [if_neg hint, if_pos h4] at h
      cases h
      omega
    · rw [INITIAL_CAPACITY] at h4
      omega

theorem free_cell (hi : Inv l r) (hlt : l.size < l.length) : ∃ x rest, l.elements = r.map some ++ x :: rest ∧ l.size = r.length := by
  obtain ⟨rest, helements, hsize⟩ := holds_iff.mp hi.holds
  cases rest with
  | nil =>
    rw [ArrayList.length, helements, append_nil, length_map] at hlt
    omega
  | cons x rest => exact ⟨x, rest, helements, hsize⟩

theorem store_at (u rest : List (Option E)) (x : Option E) (element : E) : ArrayList.store (u ++ x :: rest) u.length element = some (u ++ some element :: rest) := by
  rw [ArrayList.store, if_pos (by simp), set_append_right _ _ (Nat.le_refl _), Nat.sub_self, set_cons_zero]

theorem add_spec (hi : Inv l r) (hroom : Room l) (element : E) :
    ∃ l', l.add element = some l' ∧ Inv l' (r ++ [element]) ∧ l'.size = l.size + 1 ∧ l'.length = grown l := by
  obtain ⟨m, hm, him, hsize, hlt, hlength⟩ := makeRoom_spec hi hroom
  obtain ⟨x, rest, helements, hms⟩ := free_cell him hlt
  have hstore : ArrayList.store m.elements m.size element = some (r.map some ++ some element :: rest) := by
    have := store_at (r.map some) rest x element
    rwa [length_map, ← hms, ← helements] at this
  have hsame : (r.map some ++ some element :: rest).length = m.length := by
    rw [ArrayList.length, helements, length_append, length_append]
    rfl
  refine ⟨⟨r.map some ++ some element :: rest, m.size + 1⟩, ?_, ⟨holds_iff.mpr ⟨rest, ?_, ?_⟩, ?_⟩, ?_, ?_⟩
  · simp [ArrayList.add, hm, hstore]
  · simp
  · simp [hms]
  · exact lt_of_eq_of_lt hsame him.bound
  · rw [hsize]
  · exact hsame.trans hlength

theorem room_of_add (h : l.add element = some l') : Room l := by
  obtain ⟨m, hm, h⟩ := bind_eq_some_iff.mp h
  obtain ⟨es, hstore, -⟩ := bind_eq_some_iff.mp h
  obtain ⟨hlt, -⟩ := ite_none_right_eq_some.mp hstore
  exact room_of_makeRoom hm hlt

theorem fits_succ {count : Nat} : Fits l.size l.length (count + 1) ↔ Room l ∧ Fits (l.size + 1) (grown l) count := Iff.rfl

theorem fits_one : Fits l.size l.length 1 ↔ Room l := and_iff_left trivial

theorem addAll_spec {c : List E} (hi : Inv l r) (hfits : Fits l.size l.length c.length) : ∃ l', l.addAll c = some l' ∧ Inv l' (r ++ c) := by
  induction c generalizing l r with
  | nil => exact ⟨l, rfl, by rwa [append_nil]⟩
  | cons element c ih =>
    obtain ⟨hroom, hfits⟩ := fits_succ.mp hfits
    obtain ⟨m, hm, him, hsize, hlength⟩ := add_spec hi hroom element
    obtain ⟨l', hl', hi'⟩ := ih him (by rwa [hsize, hlength])
    refine ⟨l', ?_, by rwa [append_assoc] at hi'⟩
    rw [ArrayList.addAll, foldlM_cons, hm]
    exact hl'

theorem fits_of_addAll {c : List E} (hi : Inv l r) (h : l.addAll c = some l') : Fits l.size l.length c.length := by
  induction c generalizing l r with
  | nil => trivial
  | cons element c ih =>
    rw [ArrayList.addAll, foldlM_cons] at h
    obtain ⟨m, hm, h⟩ := bind_eq_some_iff.mp h
    have hroom := room_of_add hm
    obtain ⟨m', hm', him, hsize, hlength⟩ := add_spec hi hroom element
    cases hm.symm.trans hm'
    have hfits := ih him h
    rw [hsize, hlength] at hfits
    exact fits_succ.mpr ⟨hroom, hfits⟩

/-! ## Calls in the middle -/

theorem arraycopy_up (u v rest : List (Option E)) (y x : Option E) :
    ArrayList.arraycopy (u ++ (y :: v ++ x :: rest)) u.length (u.length + 1) (y :: v).length = some (u ++ y :: (y :: v) ++ rest) := by
  have hroom : u.length + (y :: v).length ≤ (u ++ (y :: v ++ x :: rest)).length ∧
      u.length + 1 + (y :: v).length ≤ (u ++ (y :: v ++ x :: rest)).length := by
    simp only [length_append, length_cons]
    omega
  rw [ArrayList.arraycopy, if_pos hroom, take_length_add_append, drop_left, take_left, Nat.add_assoc,
    drop_length_add_append, Nat.add_comm 1]
  have hdrop : (y :: v ++ x :: rest).drop ((y :: v).length + 1) = rest := drop_length_add_append 1
  rw [hdrop]
  simp

theorem arraycopy_down (u v rest : List (Option E)) (x : Option E) :
    ∃ y, ArrayList.arraycopy (u ++ x :: (v ++ rest)) (u.length + 1) u.length v.length = some (u ++ (v ++ y :: rest)) := by
  have hroom : u.length + 1 + v.length ≤ (u ++ x :: (v ++ rest)).length ∧ u.length + v.length ≤ (u ++ x :: (v ++ rest)).length := by
    simp only [length_append, length_cons]
    omega
  have hdrop : (x :: (v ++ rest)).drop v.length = (x :: v).getLast (cons_ne_nil x v) :: rest := by
    induction v generalizing x with
    | nil => rfl
    | cons y v ih =>
      rw [length_cons, cons_append, drop_succ_cons, getLast_cons_cons]
      exact ih y (by simp only [length_append, length_cons]; omega)
  refine ⟨(x :: v).getLast (cons_ne_nil x v), ?_⟩
  rw [ArrayList.arraycopy, if_pos hroom, take_left, drop_length_add_append, drop_length_add_append, hdrop, drop_succ_cons,
    drop_zero, take_left]
  simp

theorem insert_spec (hi : Inv l r) (hindex : index ≤ l.size) (hroom : Room l) (element : E) :
    ∃ l', l.insert index element = some l' ∧ Inv l' (r.take index ++ element :: r.drop index) ∧
      l'.size = l.size + 1 ∧ l'.length = grown l := by
  obtain ⟨m, hm, him, hsize, hlt, hlength⟩ := makeRoom_spec hi hroom
  obtain ⟨x, rest, helements, hms⟩ := free_cell him hlt
  obtain ⟨u, v, rfl, rfl⟩ : ∃ u v, r = u ++ v ∧ u.length = index :=
    ⟨r.take index, r.drop index, (take_append_drop index r).symm, length_take_of_le (by omega)⟩
  rw [take_left, drop_left]
  have hcount : m.size - u.length = v.length := by
    rw [hms, length_append]
    omega
  have hshift : ∃ y, m.shiftUp u.length = some (u.map some ++ y :: (v.map some ++ rest)) := by
    unfold ArrayList.shiftUp
    rw [hcount, helements, map_append]
    cases v with
    | nil =>
      simp only [length_nil] at hcount
      rw [if_neg (by omega)]
      exact ⟨x, by simp⟩
    | cons a v =>
      simp only [length_cons] at hcount
      rw [if_pos (by omega)]
      have hcopy := arraycopy_up (u.map some) (v.map some) rest (some a) x
      simp only [length_map, length_cons] at hcopy
      exact ⟨some a, by simpa using hcopy⟩
  obtain ⟨y, hshift⟩ := hshift
  have hstore : ArrayList.store (u.map some ++ y :: (v.map some ++ rest)) u.length element =
      some (u.map some ++ some element :: (v.map some ++ rest)) := by
    have := store_at (u.map some) (v.map some ++ rest) y element
    rwa [length_map] at this
  have hsame : (u.map some ++ some element :: (v.map some ++ rest)).length = m.length := by
    rw [ArrayList.length, helements]
    simp only [length_append, length_cons, length_map]
    omega
  refine ⟨⟨u.map some ++ some element :: (v.map some ++ rest), m.size + 1⟩, ?_, ⟨holds_iff.mpr ⟨rest, ?_, ?_⟩, ?_⟩, ?_, ?_⟩
  · rw [ArrayList.insert, if_neg (by omega)]
    simp [hm, hshift, hstore]
  · simp
  · rw [hms]
    simp only [length_append, length_cons]
    omega
  · exact lt_of_eq_of_lt hsame him.bound
  · rw [hsize]
  · exact hsame.trans hlength

theorem room_of_insert (h : l.insert index element = some l') : index ≤ l.size ∧ Room l := by
  obtain ⟨hindex, h⟩ := ite_none_left_eq_some.mp h
  refine ⟨Nat.not_lt.mp hindex, ?_⟩
  obtain ⟨m, hm, h⟩ := bind_eq_some_iff.mp h
  obtain ⟨es, hshift, h⟩ := bind_eq_some_iff.mp h
  obtain ⟨es', hstore, -⟩ := bind_eq_some_iff.mp h
  obtain ⟨hlt, -⟩ := ite_none_right_eq_some.mp hstore
  refine room_of_makeRoom hm ?_
  unfold ArrayList.shiftUp at hshift
  by_cases hmove : index < m.size
  · rw [if_pos hmove] at hshift
    obtain ⟨⟨-, hle⟩, -⟩ := ite_none_right_eq_some.mp hshift
    show m.size < m.elements.length
    omega
  · rw [if_neg hmove] at hshift
    cases hshift
    have hsize : m.size = l.size := by
      unfold ArrayList.makeRoom ArrayList.resize at hm
      split_ifs at hm <;> cases hm <;> rfl
    show m.size < m.elements.length
    omega

theorem insertAll_spec {c : List E} (hi : Inv l r) (hindex : c ≠ [] → index ≤ l.size) (hfits : Fits l.size l.length c.length) :
    ∃ l', l.insertAll index c = some l' ∧ Inv l' (r.take index ++ c ++ r.drop index) := by
  induction c generalizing l r index with
  | nil => exact ⟨l, rfl, by rwa [append_nil, take_append_drop]⟩
  | cons element c ih =>
    have hindex := hindex (cons_ne_nil element c)
    obtain ⟨hroom, hfits⟩ := fits_succ.mp hfits
    obtain ⟨m, hm, him, hsize, hlength⟩ := insert_spec hi hindex hroom element
    have hnext : c ≠ [] → index + 1 ≤ m.size := fun _ => by omega
    obtain ⟨l', hl', hi'⟩ := ih him hnext (by rwa [hsize, hlength])
    have htake : (r.take index).length = index := length_take_of_le (by rw [← hi.holds.2.2]; exact hindex)
    refine ⟨l', by rw [ArrayList.insertAll, hm]; exact hl', ?_⟩
    have h1 := @take_length_add_append _ (r.take index) (element :: r.drop index) 1
    have h2 := @drop_length_add_append _ (r.take index) (element :: r.drop index) 1
    rw [htake] at h1 h2
    rw [h1, h2] at hi'
    simpa using hi'

theorem roomy_of_insertAll {c : List E} (hi : Inv l r) (h : l.insertAll index c = some l') :
    (c ≠ [] → index ≤ l.size) ∧ Fits l.size l.length c.length := by
  induction c generalizing l r index with
  | nil => exact ⟨fun hne => absurd rfl hne, trivial⟩
  | cons element c ih =>
    obtain ⟨m, hm, h⟩ := bind_eq_some_iff.mp h
    obtain ⟨hindex, hroom⟩ := room_of_insert hm
    obtain ⟨m', hm', him, hsize, hlength⟩ := insert_spec hi hindex hroom element
    cases hm.symm.trans hm'
    have hfits := (ih him h).2
    rw [hsize, hlength] at hfits
    exact ⟨fun _ => hindex, fits_succ.mpr ⟨hroom, hfits⟩⟩

/-- Making the list shorter keeps it: there is room for half as many elements again. -/
theorem shrink_spec (hi : Inv l r) : ∃ l', l.shrink = some l' ∧ Inv l' r := by
  by_cases hlow : l.size < l.length / 3
  · have hint : l.size * 3 < 2 ^ 31 := by
      have := hi.bound
      omega
    obtain ⟨l', hresize, hi', -, -⟩ := resize_spec hi hint
    exact ⟨l', by rw [ArrayList.shrink, if_pos hlow, hresize], hi'⟩
  · exact ⟨l, by rw [ArrayList.shrink, if_neg hlow], hi⟩

theorem remove_spec (hi : Inv l r) (hindex : index < l.size) :
    ∃ l' a, l.remove index = some (l', a) ∧ r[index]? = some a ∧ Inv l' (r.eraseIdx index) := by
  obtain ⟨rest, helements, hsize⟩ := holds_iff.mp hi.holds
  obtain ⟨u, a, v, rfl, rfl⟩ : ∃ u a v, r = u ++ a :: v ∧ u.length = index := by
    have hlt : index < r.length := hsize ▸ hindex
    exact ⟨r.take index, r[index], r.drop (index + 1), by rw [getElem_cons_drop, take_append_drop],
      length_take_of_le (Nat.le_of_lt hlt)⟩
  have herase : (u ++ a :: v).eraseIdx u.length = u ++ v := by
    rw [eraseIdx_append_of_length_le (Nat.le_refl _), Nat.sub_self, eraseIdx_cons_zero]
  have hcount : l.size - u.length - 1 = v.length := by
    rw [hsize, length_append, length_cons]
    omega
  have helement : (l.elements[u.length]?).join = some a := by
    rw [helements]
    simp
  have hshift : ∃ rest', l.shiftDown u.length = some ((u ++ v).map some ++ rest') := by
    unfold ArrayList.shiftDown
    rw [hcount, helements, map_append, map_cons]
    cases v with
    | nil =>
      rw [if_neg (by simp)]
      exact ⟨some a :: rest, by simp⟩
    | cons b v =>
      rw [if_pos (by simp)]
      obtain ⟨y, hcopy⟩ := arraycopy_down (u.map some) ((b :: v).map some) rest (some a)
      simp only [length_map] at hcopy
      exact ⟨y :: rest, by simpa using hcopy⟩
  obtain ⟨rest', hshift⟩ := hshift
  have hsame : ((u ++ v).map some ++ rest').length = l.length := by
    unfold ArrayList.shiftDown at hshift
    split_ifs at hshift
    · obtain ⟨⟨hle, -⟩, hcopy⟩ := ite_none_right_eq_some.mp hshift
      have := congrArg List.length (Option.some.inj hcopy)
      simp only [length_append, length_take, length_drop] at this hle ⊢
      rw [ArrayList.length]
      omega
    · exact congrArg List.length (Option.some.inj hshift).symm
  obtain ⟨l', hshrink, hi'⟩ := shrink_spec (l := ⟨(u ++ v).map some ++ rest', l.size - 1⟩) (r := u ++ v)
    ⟨holds_iff.mpr ⟨rest', rfl, by
      show l.size - 1 = (u ++ v).length
      rw [hsize, length_append, length_append, length_cons]
      omega⟩, lt_of_eq_of_lt hsame hi.bound⟩
  refine ⟨l', a, ?_, by simp, herase ▸ hi'⟩
  rw [ArrayList.remove, if_neg (by omega), helement, hshift]
  show (ArrayList.shrink _).bind _ = _
  rw [hshrink]
  rfl

theorem set_spec (hi : Inv l r) (hindex : index < l.size) (element : E) :
    ∃ l' a, l.set index element = some (l', a) ∧ r[index]? = some a ∧ Inv l' (r.set index element) := by
  obtain ⟨rest, helements, hsize⟩ := holds_iff.mp hi.holds
  have hlt : index < r.length := hsize ▸ hindex
  have hstore : ArrayList.store l.elements index element = some ((r.set index element).map some ++ rest) := by
    rw [ArrayList.store, if_pos (show index < l.elements.length from Nat.lt_of_lt_of_le hindex hi.holds.1), helements, set_append_left _ _ (by simpa using hlt), map_set]
  have hget : l.elements[index]? = some (some r[index]) := by
    rw [helements, List.getElem?_append_left (by simpa using hlt)]
    simp [hlt]
  refine ⟨⟨(r.set index element).map some ++ rest, l.size⟩, r[index], ?_, List.getElem?_eq_getElem hlt,
    ⟨holds_iff.mpr ⟨rest, rfl, by rw [length_set]; exact hsize⟩, ?_⟩⟩
  · rw [ArrayList.set, if_neg (by omega)]
    simp [hget, hstore]
  · have := hi.bound
    rw [ArrayList.length, helements] at this
    simpa [ArrayList.length] using this

theorem clear_spec (hi : Inv l r) : ∃ l', l.clear = some l' ∧ Inv l' [] := by
  have hempty : Inv l.reset [] := ⟨⟨Nat.zero_le _, rfl, rfl⟩, hi.bound⟩
  obtain ⟨l', hresize, hi', -, -⟩ := resize_spec hempty (show 0 * 3 < 2 ^ 31 by decide)
  exact ⟨l', hresize, hi'⟩

/-! ## All along a run -/

theorem step_spec {e : Ev E} (hi : Inv l r) (hok : Roomy l e) : ∃ l', step l e = some l' ∧ Inv l' (next r e) := by
  cases e with
  | add element =>
    obtain ⟨l', h, hi', -⟩ := add_spec hi (fits_one.mp hok) element
    exact ⟨l', h, hi'⟩
  | insert index element =>
    obtain ⟨l', h, hi', -⟩ := insert_spec hi hok.1 (fits_one.mp hok.2) element
    exact ⟨l', h, hi'⟩
  | remove index =>
    obtain ⟨l', a, h, -, hi'⟩ := remove_spec hi hok
    exact ⟨l', by rw [step, h]; rfl, hi'⟩
  | set index element =>
    obtain ⟨l', a, h, -, hi'⟩ := set_spec hi hok element
    exact ⟨l', by rw [step, h]; rfl, hi'⟩
  | clear => exact clear_spec hi
  | addAll c => exact addAll_spec hi hok
  | insertAll index c => exact insertAll_spec hi hok.1 hok.2

theorem roomy_of_step {e : Ev E} (hi : Inv l r) (h : step l e = some l') : Roomy l e := by
  cases e with
  | add element => exact fits_one.mpr (room_of_add h)
  | insert index element => exact ⟨(room_of_insert h).1, fits_one.mpr (room_of_insert h).2⟩
  | remove index =>
    obtain ⟨_, h, -⟩ := map_eq_some_iff.mp h
    exact Nat.not_le.mp (ite_none_left_eq_some.mp h).1
  | set index element =>
    obtain ⟨_, h, -⟩ := map_eq_some_iff.mp h
    exact Nat.not_le.mp (ite_none_left_eq_some.mp h).1
  | clear => trivial
  | addAll c => exact fits_of_addAll hi h
  | insertAll index c => exact roomy_of_insertAll hi h

theorem new_inv {initialCapacity : Nat} (h : initialCapacity < 2 ^ 31) : Inv (ArrayList.new initialCapacity : ArrayList E) [] :=
  ⟨⟨Nat.zero_le _, rfl, rfl⟩, by rw [ArrayList.length, ArrayList.new, length_replicate]; exact h⟩

end Calls

/-- All along a run the list has the contents of the reference sequence, in cells that are there, exactly if every call finds room. -/
theorem contents_iff {initialCapacity : Nat} (hint : initialCapacity < 2 ^ 31) (es : List (Ev E)) :
    (∀ c, c <+: es → ∃ l, exec step (ArrayList.new initialCapacity) c = some l ∧ Holds l (c.foldl next [])) ↔
      Meets step Roomy (ArrayList.new initialCapacity) es := by
  have hmeets : ∀ {l : ArrayList E} {r : List E} {e : Ev E}, Inv l r → Roomy l e → ∃ l', step l e = some l' ∧ Inv l' (next r e) := step_spec
  have hroomy : ∀ {l l' : ArrayList E} {r : List E} {e : Ev E}, Inv l r → step l e = some l' → Holds l' (next r e) → Roomy l e :=
    fun hi h _ => roomy_of_step hi h
  exact meets_iff (R := Inv) (P := Holds) (fun hi => hi.holds) @hmeets @hroomy (new_inv hint) es

/-- With the default capacity, and through a shrinking. -/
theorem contents_from_four :
    4 < 2 ^ 31 ∧ ((∀ c, c <+: [Ev.addAll [1, 2, 3, 4, 5], .insert 1 6, .remove 0, .clear, .add 7] →
      ∃ l, exec step (ArrayList.new 4) c = some l ∧ Holds l (c.foldl next [])) ↔
        Meets step Roomy (ArrayList.new 4) [Ev.addAll [1, 2, 3, 4, 5], .insert 1 6, .remove 0, .clear, .add 7]) :=
  ⟨by decide, contents_iff (by decide) _⟩

end DeepFabric.Platform.ArrayLists
