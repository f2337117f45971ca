/-
  DeepFabric.Store.MapFileSet — the files of a kind, by index and in the order of their creation
  (util/MapFileSet.h, with PLATFORM/cxx/util/QueueSet.h and util/BasicArray.h).

  A file stands in an array at its index and in a tree set. The array is made anew when an index does not fit,
  with slots that hold whatever was there; it has a size of its own, and only the slots below that are cleared.

  As built `get` reads a slot above the size, or none (`unwritten_slot`); and a file that is created more than 2^31
  seconds after another one comes before it (`late_file_first`).

  The iterator of a tree set is that of a tree map (`TreeIterator`): the source has the code twice. What is
  left out: the locks, and files that the container owns.
-/
import DeepFabric.Lib.Run
import DeepFabric.Platform.ComparatorSet
import DeepFabric.Platform.TreeIterator
import DeepFabric.Platform.TreeMapIterator
import Mathlib.Data.Prod.Lex
import Mathlib.Order.Nat

namespace DeepFabric.Store.MapFileSets

open DeepFabric.Lib DeepFabric.Lib.Run Option
open DeepFabric.Platform (TreeSet TreeMap Node)
open DeepFabric.Platform

/-! ## Files -/

/-- The address is counted in files, as a difference of two is. -/
structure File where
  fileCreationTime : Int
  fileIndex : BitVec 16
  address : Int
  deriving DecidableEq

/-- `(inttype) delta`. -/
def inttype (delta : Int) : Int := delta.bmod (2 ^ 32)

/-- `FileCmp::compare`. -/
def compare (o1 o2 : File) : Int :=
  if o1.fileCreationTime - o2.fileCreationTime ≠ 0 then inttype (o1.fileCreationTime - o2.fileCreationTime)
  else if (o1.fileIndex.toNat : Int) - o2.fileIndex.toNat ≠ 0 then inttype (o1.fileIndex.toNat - o2.fileIndex.toNat)
  else inttype (o1.address - o2.address)

/-- A file that is created more than 2^31 seconds after another one is first in the set. -/
theorem late_file_first :
    (ComparatorSet.addAllAbsent compare ComparatorSet.init [⟨0, 0, 0⟩, ⟨2 ^ 31 + 1, 1, 1⟩]).map (fun t => (ComparatorSet.elements t).map File.fileIndex) =
      some [1, 0] := by decide +kernel

/-- Where the files of a run are from: creation times within 2^31 seconds, and addresses so near that a difference is an int. -/
structure Window where
  time : Int
  address : Int

structure Window.Has (w : Window) (f : File) : Prop where
  time : w.time ≤ f.fileCreationTime ∧ f.fileCreationTime < w.time + 2 ^ 31
  address : w.address ≤ f.address ∧ f.address < w.address + 2 ^ 31

/-- A file of a run. -/
abbrev Member (w : Window) := { f : File // w.Has f }

variable {w : Window}

def key (f : Member w) : Int ×ₗ Nat ×ₗ Int := toLex (f.1.fileCreationTime, toLex (f.1.fileIndex.toNat, f.1.address))

theorem key_injective : Function.Injective (key (w := w)) := by
  rintro ⟨⟨t, i, a⟩, ha⟩ ⟨⟨t', i', a'⟩, hb⟩ h
  simp only [key, EmbeddingLike.apply_eq_iff_eq, Prod.mk.injEq] at h
  obtain ⟨rfl, hi, rfl⟩ := h
  obtain rfl := BitVec.eq_of_toNat_eq hi
  rfl

instance : LinearOrder (Member w) := LinearOrder.lift' key key_injective

theorem inttype_small {d : Int} (h : -2 ^ 31 < d ∧ d < 2 ^ 31) : inttype d = d :=
  Int.bmod_eq_of_le (by norm_num; omega) (by norm_num; omega)

theorem compare_lt (a b : Member w) : compare a.1 b.1 < 0 ↔ a < b := by
  have hlt : a < b ↔ key a < key b := Iff.rfl
  obtain ⟨⟨ha1, ha2⟩, ha3, ha4⟩ := a.2
  obtain ⟨⟨hb1, hb2⟩, hb3, hb4⟩ := b.2
  rw [hlt, key, key, Prod.Lex.toLex_lt_toLex, Prod.Lex.toLex_lt_toLex, compare, inttype_small (by omega), inttype_small (by omega),
    inttype_small (by omega)]
  split_ifs <;> omega

theorem compare_eq (a b : Member w) : compare a.1 b.1 = 0 ↔ a = b := by
  have hswap : compare b.1 a.1 < 0 ↔ 0 < compare a.1 b.1 := by
    obtain ⟨⟨ha1, ha2⟩, ha3, ha4⟩ := a.2
    obtain ⟨⟨hb1, hb2⟩, hb3, hb4⟩ := b.2
    rw [compare, compare, inttype_small (by omega), inttype_small (by omega), inttype_small (by omega), inttype_small (by omega),
      inttype_small (by omega), inttype_small (by omega)]
    split_ifs <;> omega
  rw [compare_lt] at hswap
  have hlt := compare_lt a b
  constructor
  · intro h
    exact le_antisymm (not_lt.mp fun hba => by have := hswap.mp hba; omega) (not_lt.mp fun hab => by have := hlt.mpr hab; omega)
  · rintro rfl
    have h1 := mt hlt.mp (lt_irrefl a)
    have h2 := mt hswap.mpr (lt_irrefl a)
    omega

/-! ## The array -/

/-- What a slot holds. -/
inductive Pointer (F : Type) where
  | null
  | file (f : F)
  /-- Of no file. -/
  | wild (address : Nat)
  deriving DecidableEq

structure BasicArray (F : Type) where
  /-- `m_capacity` slots. -/
  array : List (Pointer F)
  size : Nat

namespace BasicArray

variable {F : Type}

def capacity (a : BasicArray F) : Nat := a.array.length

/-- The new slots hold what they hold. -/
def resize (a : BasicArray F) (capacity : Nat) (fresh : Nat → Pointer F) : BasicArray F :=
  { a with array := a.array ++ (List.range' a.capacity (capacity - a.capacity)).map fresh }

def set (a : BasicArray F) (index : Nat) (element : Pointer F) (fresh : Nat → Pointer F) : BasicArray F :=
  let a := if index ≥ a.capacity then
      a.resize (if a.capacity ≤ 1024 then a.capacity + 5 + (index - a.capacity + 1) else a.capacity * 3 / 2 + (index - a.capacity + 1)) fresh
    else a
  { a with array := a.array.set index element }

/-- Unchecked: behind the array it reads what is not its own. -/
def get (a : BasicArray F) (index : Nat) : Option (Pointer F) := a.array[index]?

def clear (a : BasicArray F) : BasicArray F := ⟨List.replicate a.capacity .null, 0⟩

end BasicArray

/-! ## The set -/

structure MapFileSet (w : Window) where
  fileList : BasicArray (Member w)
  fileSet : TreeSet (Member w) Unit

namespace MapFileSet

def new (w : Window) : MapFileSet w := ⟨⟨[], 0⟩, TreeSet.init 3⟩

/-- `removeFile`. -/
def removeFile (files : BasicArray (Member w)) (file : Member w) (fresh : Nat → Pointer (Member w)) : BasicArray (Member w) :=
  files.set file.1.fileIndex.toNat .null fresh

/-- `QueueSet::set` at the file's index. -/
def add (s : MapFileSet w) (f : Member w) (fresh : Nat → Pointer (Member w)) : Option (MapFileSet w) :=
  if (TreeSet.contains s.fileSet (f, ())).1 then some s
  else do
    let i := f.1.fileIndex.toNat
    let queue := if i ≥ s.fileList.capacity then s.fileList.resize ((i + 1) * 2) fresh else s.fileList
    let queue := if i ≥ queue.size then
        (List.range' queue.size (i - queue.size)).foldl (fun queue j => queue.set j .null fresh) { queue with size := i + 1 }
      else queue
    let (set, _) ← TreeSet.add s.fileSet (f, ())
    some ⟨queue.set i (.file f) fresh, set⟩

/-- `QueueSet::remove`. -/
def remove (s : MapFileSet w) (f : Member w) (fresh : Nat → Pointer (Member w)) : Option (MapFileSet w × Bool) :=
  if (TreeSet.contains s.fileSet (f, ())).1 = false then some (s, false)
  else do
    let (set, _) ← TreeSet.remove s.fileSet (f, ())
    some (⟨removeFile s.fileList f fresh, set⟩, true)

def get (s : MapFileSet w) (i : BitVec 16) : Option (Pointer (Member w)) := s.fileList.get i.toNat

/-- `remove(inttype)`; of what is no file it asks the index. -/
def removeAt (s : MapFileSet w) (i : BitVec 16) (fresh : Nat → Pointer (Member w)) : Option (MapFileSet w × Pointer (Member w)) := do
  match ← s.get i with
  | .file f => (s.remove f fresh).map fun r => (r.1, .file f)
  | .null => some (s, .null)
  | .wild _ => none

def safeGet (s : MapFileSet w) (i : BitVec 16) : Option (Pointer (Member w)) :=
  if i.toNat < s.fileList.size then s.fileList.get i.toNat else some .null

def toPointer : Option (Member w × Unit) → Pointer (Member w)
  | some e => .file e.1
  | none => .null

def first (s : MapFileSet w) : Pointer (Member w) := toPointer (s.fileSet.root.bind fun r => Node.firstObject r.1 r.2)

def last (s : MapFileSet w) : Pointer (Member w) := toPointer (s.fileSet.root.bind fun r => Node.lastObject r.1 r.2)

def clear (s : MapFileSet w) : MapFileSet w := ⟨s.fileList.clear, TreeMap.clear s.fileSet⟩

/-- A loop over an iterator, which removes what is chosen by all that was returned so far. What it removes from the set it
takes out of its slot. -/
def iterate (s : MapFileSet w) (chosen : List (Member w) → Bool) (fresh : Nat → Pointer (Member w)) :
    Option (MapFileSet w × List (Member w)) := do
  let p ← TreeIteration.pass Prod.fst chosen (s.fileSet.size + 1) ⟨TreeIteration.iterator s.fileSet, [], []⟩
  some (⟨p.removed.foldl (fun files f => removeFile files f fresh) s.fileList, p.iter.map⟩, p.returned)

end MapFileSet

/-! ## Calls -/

inductive Call (w : Window) where
  | add (f : Member w)
  | remove (f : Member w)
  | removeAt (i : BitVec 16)
  | iterate (chosen : List (Member w) → Bool)
  | clear
  | get (i : BitVec 16)
  | safeGet (i : BitVec 16)
  | size
  | first
  | last

inductive Answer (w : Window) where
  | done
  | removed (b : Bool)
  | pointer (p : Pointer (Member w))
  | files (l : List (Member w))
  | size (n : Nat)
  deriving DecidableEq

/-- A call, with what the slots hold that are allocated in it. -/
abbrev Ev (w : Window) := Call w × (Nat → Pointer (Member w))

def step (s : MapFileSet w × Answer w) (e : Ev w) : Option (MapFileSet w × Answer w) :=
  match e.1 with
  | .add f => (s.1.add f e.2).map fun r => (r, .done)
  | .remove f => (s.1.remove f e.2).map fun r => (r.1, .removed r.2)
  | .removeAt i => (s.1.removeAt i e.2).map fun r => (r.1, .pointer r.2)
  | .iterate chosen => (s.1.iterate chosen e.2).map fun r => (r.1, .files r.2)
  | .clear => some (s.1.clear, .done)
  | .get i => (s.1.get i).map fun p => (s.1, .pointer p)
  | .safeGet i => (s.1.safeGet i).map fun p => (s.1, .pointer p)
  | .size => some (s.1, .size s.1.fileSet.size)
  | .first => some (s.1, .pointer s.1.first)
  | .last => some (s.1, .pointer s.1.last)

/-- What the set is for: the members, in their order. -/
abbrev Members (w : Window) := SortedMap (Member w) Unit

def files (r : Members w) : List (Member w) := r.entries.map Prod.fst

/-- The member with an index, or null. -/
def fileAt (r : Members w) (i : Nat) : Pointer (Member w) :=
  match (files r).find? (fun f => f.1.fileIndex.toNat = i) with
  | some f => .file f
  | none => .null

/-- A member stays in the loop if it is not chosen when it is returned. -/
def stays (r : Members w) (chosen : List (Member w) → Bool) (f : Member w) : Bool := !chosen ((files r).filter (· ≤ f))

def next (r : Members w × Answer w) (e : Ev w) : Members w × Answer w :=
  match e.1 with
  | .add f => (r.1.put f (), .done)
  | .remove f => (r.1.remove f, .removed (r.1.get f).isSome)
  | .removeAt i => (match fileAt r.1 i.toNat with
    | .file f => r.1.remove f
    | _ => r.1, .pointer (fileAt r.1 i.toNat))
  | .iterate chosen => (⟨r.1.entries.filter fun e => stays r.1 chosen e.1, r.1.sorted.filter _⟩, .files (files r.1))
  | .clear => (.empty, .done)
  | .get i => (r.1, .pointer (fileAt r.1 i.toNat))
  | .safeGet i => (r.1, .pointer (fileAt r.1 i.toNat))
  | .size => (r.1, .size (files r.1).length)
  | .first => (r.1, .pointer (MapFileSet.toPointer r.1.entries.head?))
  | .last => (r.1, .pointer (MapFileSet.toPointer r.1.entries.getLast?))

/-- A slot below the size, or one that holds null anyway. -/
def Written (s : MapFileSet w) (i : BitVec 16) : Prop := i.toNat < s.fileList.size ∨ s.get i = some .null

instance (s : MapFileSet w) (i : BitVec 16) : Decidable (Written s i) := inferInstanceAs (Decidable (_ ∨ _))

/-- The condition on a call. -/
def Ok (s : MapFileSet w × Answer w) (e : Ev w) : Prop :=
  match e.1 with
  | .add f => ∀ x ∈ s.1.fileSet.entries, x.1.1.fileIndex = f.1.fileIndex → x.1 = f
  | .removeAt i => Written s.1 i
  | .get i => Written s.1 i
  | _ => True

def start (w : Window) : MapFileSet w × Answer w := (.new w, .done)

/-- Of a file with index 3 the array gets eight slots, and what the one of index 5 held before is returned. -/
theorem unwritten_slot :
    (exec step (start ⟨0, 0⟩) [(.add ⟨⟨0, 3, 0⟩, by decide, by decide⟩, fun _ => .wild 7), (.get 5, fun _ => .wild 7)]).map (·.2) =
      some (.pointer (.wild 7)) ∧
    (step (start ⟨0, 0⟩) (.get 0, fun _ => .null)).isNone := by decide +kernel

/-! ## The array -/

namespace BasicArray

variable {F : Type} {a : BasicArray F} {fresh : Nat → Pointer F}

theorem set_inside {index : Nat} (h : index < a.capacity) (element : Pointer F) : a.set index element fresh = { a with array := a.array.set index element } := by
  rw [set, if_neg (Nat.not_le.mpr h)]

theorem clears {start n : Nat} (h : start + n ≤ a.capacity) :
    ∃ array, (List.range' start n).foldl (fun queue j => queue.set j .null fresh) a = { a with array := array } ∧
      array.length = a.array.length ∧ ∀ i, array[i]? = if start ≤ i ∧ i < start + n then some .null else a.array[i]? := by
  induction n generalizing a start with
  | zero => exact ⟨a.array, rfl, rfl, fun i => by rw [if_neg (by omega)]⟩
  | succ n ih =>
    rw [List.range'_succ, List.foldl_cons, set_inside (by omega)]
    obtain ⟨array, hloop, hlen, hget⟩ := @ih { a with array := a.array.set start .null } (start + 1) (by
      show _ ≤ (a.array.set start .null).length
      rw [List.length_set]
      exact Nat.le_trans (by omega) h)
    refine ⟨array, hloop, hlen.trans (List.length_set), fun i => ?_⟩
    rw [hget, List.getElem?_set]
    have hcap : start < a.array.length := Nat.lt_of_lt_of_le (by omega) h
    split_ifs <;> first | rfl | omega

end BasicArray

theorem removeFiles_eq {a : BasicArray (Member w)} (fresh : Nat → Pointer (Member w)) {l : List (Member w)}
    (hl : ∀ f ∈ l, f.1.fileIndex.toNat < a.capacity) :
    ∃ array, l.foldl (fun files f => MapFileSet.removeFile files f fresh) a = { a with array := array } ∧ array.length = a.capacity ∧
      ∀ i < a.capacity, array[i]? = if ∃ f ∈ l, f.1.fileIndex.toNat = i then some .null else a.array[i]? := by
  induction l generalizing a with
  | nil => exact ⟨a.array, rfl, rfl, fun i _ => by simp⟩
  | cons f l ih =>
    have hf := hl f List.mem_cons_self
    obtain ⟨array, hloop, hlen, hget⟩ := @ih { a with array := a.array.set f.1.fileIndex.toNat .null } (fun g hg => by
      show _ < (a.array.set _ _).length
      rw [List.length_set]
      exact hl g (List.mem_cons_of_mem f hg))
    have hcap : BasicArray.capacity { a with array := a.array.set f.1.fileIndex.toNat .null } = a.capacity := List.length_set
    refine ⟨array, ?_, hlen.trans hcap, fun i hi => ?_⟩
    · rw [List.foldl_cons, MapFileSet.removeFile, BasicArray.set_inside hf]
      exact hloop
    · rw [hget i (hcap ▸ hi), List.getElem?_set]
      simp only [List.mem_cons, exists_eq_or_imp]
      by_cases hfi : f.1.fileIndex.toNat = i
      · simp [hfi, show i < a.array.length from hi]
      · simp only [hfi, false_or, if_false]

/-! ## The members -/

section Members

variable {r r' : Members w} {f g : Member w} {i : Nat}

theorem mem_files : f ∈ files r ↔ (f, ()) ∈ r.entries := by
  rw [files, List.mem_map]
  exact ⟨fun ⟨⟨_, _⟩, he, hf⟩ => hf ▸ he, fun h => ⟨_, h, rfl⟩⟩

theorem isSome_get : (r.get f).isSome = true ↔ f ∈ files r := by
  rw [mem_files, SortedMap.mem_entries]
  cases r.get f <;> simp

theorem mem_put : g ∈ files (r.put f ()) ↔ g = f ∨ g ∈ files r := by
  rw [← isSome_get, SortedMap.get_put, ← isSome_get]
  split_ifs with h <;> simp [h]

theorem mem_remove : g ∈ files (r.remove f) ↔ g ≠ f ∧ g ∈ files r := by
  rw [← isSome_get, SortedMap.get_remove, ← isSome_get]
  split_ifs with h <;> simp [h]

theorem files_sorted : (files r).Pairwise (· < ·) := List.pairwise_map.mpr r.sorted

/-- No two members have one index. -/
def Distinct (r : Members w) : Prop := ∀ f ∈ files r, ∀ g ∈ files r, f.1.fileIndex = g.1.fileIndex → f = g

theorem fileAt_of_none (h : ∀ f ∈ files r, f.1.fileIndex.toNat ≠ i) : fileAt r i = .null := by
  rw [fileAt, List.find?_eq_none.mpr fun f hf => by simpa using h f hf]

theorem fileAt_of_mem (hr : Distinct r) (hf : f ∈ files r) (hi : f.1.fileIndex.toNat = i) : fileAt r i = .file f := by
  cases hfind : (files r).find? (fun f => f.1.fileIndex.toNat = i) with
  | none => exact absurd (decide_eq_true hi) (List.find?_eq_none.mp hfind f hf)
  | some g =>
    have hg : g.1.fileIndex.toNat = i := of_decide_eq_true (@List.find?_some _ (fun f : Member w => decide (f.1.fileIndex.toNat = i)) _ _ hfind)
    rw [fileAt, hfind]
    exact congrArg _ (hr g (List.mem_of_find?_eq_some hfind) f hf (BitVec.eq_of_toNat_eq (hg.trans hi.symm)))

theorem fileAt_cases (r : Members w) (i : Nat) :
    (∃ f ∈ files r, f.1.fileIndex.toNat = i ∧ fileAt r i = .file f) ∨ (∀ f ∈ files r, f.1.fileIndex.toNat ≠ i) ∧ fileAt r i = .null := by
  cases hfind : (files r).find? (fun f => f.1.fileIndex.toNat = i) with
  | none =>
    have hnone (f : Member w) (hf : f ∈ files r) : f.1.fileIndex.toNat ≠ i := fun h => List.find?_eq_none.mp hfind f hf (decide_eq_true h)
    exact .inr ⟨hnone, fileAt_of_none hnone⟩
  | some f =>
    exact .inl ⟨f, List.mem_of_find?_eq_some hfind, of_decide_eq_true (@List.find?_some _ (fun f : Member w => decide (f.1.fileIndex.toNat = i)) _ _ hfind),
      by rw [fileAt, hfind]⟩

/-- Where the members with an index are the same, it leads to the same. -/
theorem fileAt_congr (hr' : Distinct r') (h : ∀ f : Member w, f.1.fileIndex.toNat = i → (f ∈ files r' ↔ f ∈ files r)) :
    fileAt r' i = fileAt r i := by
  rcases fileAt_cases r i with ⟨f, hf, hi, heq⟩ | ⟨hnone, heq⟩
  · rw [heq]
    exact fileAt_of_mem hr' ((h f hi).mpr hf) hi
  · rw [heq]
    exact fileAt_of_none fun f hf hi => hnone f ((h f hi).mp hf) hi

end Members

/-! ## The invariant -/

/-- The set has the members, and the slots below the size hold them. -/
structure Inv (s : MapFileSet w × Answer w) (r : Members w × Answer w) : Prop where
  answer : s.2 = r.2
  valid : TreeMap.Valid s.1.fileSet
  entries : s.1.fileSet.entries = r.1.entries
  distinct : Distinct r.1
  size : s.1.fileList.size ≤ s.1.fileList.capacity
  slots : ∀ i < s.1.fileList.size, s.1.fileList.array[i]? = some (fileAt r.1 i)
  below : ∀ f ∈ files r.1, f.1.fileIndex.toNat < s.1.fileList.size

/-- The members have indexes of their own, and the answer is right. -/
structure Right (s : MapFileSet w × Answer w) (r : Members w × Answer w) : Prop where
  distinct : Distinct r.1
  answer : s.2 = r.2

section Step

variable {s s' : MapFileSet w × Answer w} {r : Members w × Answer w} (h : Inv s r)

include h

theorem Inv.refines : TreeSet.Refines s.1.fileSet.order r.1 s.1.fileSet := ⟨h.valid, h.entries, rfl⟩

theorem Inv.contains (f : Member w) : (TreeSet.contains s.1.fileSet (f, ())).1 = (r.1.get f).isSome := by
  rw [TreeSet.contains, h.refines.find, isSome_map]

theorem Inv.added {f : Member w} (hnew : f ∉ files r.1) (hown : ∀ g ∈ files r.1, g.1.fileIndex ≠ f.1.fileIndex) (fresh : Nat → Pointer (Member w)) :
    ∃ s1, s.1.add f fresh = some s1 ∧ Inv (s1, .done) (r.1.put f (), .done) := by
  have hget : r.1.get f = none := by
    cases hg : r.1.get f with
    | none => rfl
    | some v => exact absurd (isSome_get.mp (by rw [hg]; rfl)) hnew
  have hfresh : TreeSet.Fresh s.1.fileSet (f, ()) := fun x hx => by
    rw [h.refines.find, hget] at hx
    cases hx
  obtain ⟨set, hadd, hset⟩ := h.refines.add hfresh
  obtain ⟨i, hi⟩ : ∃ i, i = f.1.fileIndex.toNat := ⟨_, rfl⟩
  have hdistinct : Distinct (r.1.put f ()) := by
    intro a ha b hb hab
    rcases mem_put.mp ha with hf | ha' <;> rcases mem_put.mp hb with hf' | hb'
    · exact hf.trans hf'.symm
    · exact absurd (hf ▸ hab.symm) (hown b hb')
    · exact absurd (hf' ▸ hab) (hown a ha')
    · exact h.distinct a ha' b hb' hab
  have hother {j : Nat} (hj : j ≠ i) : fileAt (r.1.put f ()) j = fileAt r.1 j :=
    fileAt_congr hdistinct fun g hg => by rw [mem_put, or_iff_right (fun hgf => hj (by rw [← hg, hgf, hi]))]
  -- the array with room for the file
  obtain ⟨queue, hqueue, hsize, hle, hcap, hold⟩ : ∃ queue : BasicArray (Member w),
      (if i ≥ s.1.fileList.capacity then s.1.fileList.resize ((i + 1) * 2) fresh else s.1.fileList) = queue ∧
      queue.size = s.1.fileList.size ∧ queue.size ≤ queue.capacity ∧ i < queue.capacity ∧
      ∀ j < queue.size, queue.array[j]? = some (fileAt r.1 j) := by
    by_cases hroom : i ≥ s.1.fileList.capacity
    · have hlen : (s.1.fileList.resize ((i + 1) * 2) fresh).capacity = (i + 1) * 2 := by
        show (_ ++ _ : List _).length = _
        rw [List.length_append, List.length_map, List.length_range']
        show s.1.fileList.capacity + _ = _
        omega
      refine ⟨_, if_pos hroom, rfl, ?_, by omega, fun j hj => (List.getElem?_append_left ?_).trans (h.slots j hj)⟩
      · exact Nat.le_trans h.size (by omega)
      · exact Nat.lt_of_lt_of_le hj h.size
    · exact ⟨_, if_neg hroom, rfl, h.size, Nat.lt_of_not_le hroom, h.slots⟩
  -- and with the slots up to it cleared
  obtain ⟨array, n, hloop, hlen, hn, hin, hfit, hslots⟩ : ∃ array n,
      (if i ≥ queue.size then
        (List.range' queue.size (i - queue.size)).foldl (fun queue j => queue.set j .null fresh) { queue with size := i + 1 }
      else queue) = ⟨array, n⟩ ∧ array.length = queue.capacity ∧ queue.size ≤ n ∧ i < n ∧ n ≤ queue.capacity ∧
      ∀ j < n, j ≠ i → array[j]? = some (fileAt r.1 j) := by
    by_cases hover : i ≥ queue.size
    · obtain ⟨array, hloop, hlen, hget⟩ := @BasicArray.clears _ { queue with size := i + 1 } fresh queue.size (i - queue.size) (by
        show queue.size + (i - queue.size) ≤ queue.capacity
        omega)
      refine ⟨array, i + 1, (if_pos hover).trans hloop, hlen, by omega, by omega, by omega, fun j hj hji => ?_⟩
      rw [hget]
      by_cases hclear : queue.size ≤ j ∧ j < queue.size + (i - queue.size)
      · rw [if_pos hclear, fileAt_of_none fun g hg hgj => ?_]
        have := h.below g hg
        omega
      · rw [if_neg hclear]
        exact hold j (by omega)
    · exact ⟨queue.array, queue.size, if_neg hover, rfl, by omega, by omega, hle, fun j hj _ => hold j hj⟩
  refine ⟨⟨⟨array.set i (.file f), n⟩, set⟩, ?_, rfl, hset.valid, hset.entries, hdistinct, ?_, fun j hj => ?_, fun g hg => ?_⟩
  · rw [MapFileSet.add, if_neg (by rw [h.contains, hget]; exact Bool.false_ne_true)]
    simp only [← hi, hqueue, hloop, hadd, bind_eq_bind, bind_some]
    rw [BasicArray.set_inside (by show i < array.length; omega)]
  · show n ≤ (array.set i _).length
    rw [List.length_set]
    omega
  · show (array.set i _)[j]? = _
    by_cases hji : j = i
    · rw [hji, List.getElem?_set_self (by omega), fileAt_of_mem hdistinct (mem_put.mpr (.inl rfl)) hi.symm]
    · rw [List.getElem?_set_ne (Ne.symm hji), hslots j hj hji, hother hji]
  · show _ < n
    rcases mem_put.mp hg with rfl | hg
    · omega
    · have := h.below g hg
      omega

theorem Inv.removed {l : List (Member w)} (hl : ∀ f ∈ l, f ∈ files r.1) {r' : Members w} (hr' : ∀ g, g ∈ files r' ↔ g ∈ files r.1 ∧ g ∉ l)
    (fresh : Nat → Pointer (Member w)) {set : TreeSet (Member w) Unit} (hvalid : TreeMap.Valid set) (hset : set.entries = r'.entries)
    (a : Answer w) : Inv (⟨l.foldl (fun files f => MapFileSet.removeFile files f fresh) s.1.fileList, set⟩, a) (r', a) := by
  obtain ⟨array, heq, hlen, hslots⟩ := removeFiles_eq fresh fun f hf => Nat.lt_of_lt_of_le (h.below f (hl f hf)) h.size
  have hdistinct : Distinct r' := fun a ha b hb hab => h.distinct a ((hr' a).mp ha).1 b ((hr' b).mp hb).1 hab
  rw [heq]
  refine ⟨rfl, hvalid, hset, hdistinct, Nat.le_trans h.size (Nat.le_of_eq hlen.symm), fun i hi => ?_, fun g hg => h.below g ((hr' g).mp hg).1⟩
  rw [hslots i (Nat.lt_of_lt_of_le hi h.size)]
  by_cases hin : ∃ f ∈ l, f.1.fileIndex.toNat = i
  · obtain ⟨f, hf, hfi⟩ := hin
    rw [if_pos ⟨f, hf, hfi⟩, fileAt_of_none fun g hg hgi => ?_]
    obtain ⟨hg, hout⟩ := (hr' g).mp hg
    exact hout (h.distinct g hg f (hl f hf) (BitVec.eq_of_toNat_eq (hgi.trans hfi.symm)) ▸ hf)
  · rw [if_neg hin, h.slots i hi]
    refine congrArg some (fileAt_congr hdistinct fun g hg => ?_).symm
    rw [hr', and_iff_left fun hgl => hin ⟨g, hgl, hg⟩]

theorem Inv.remove (f : Member w) (fresh : Nat → Pointer (Member w)) :
    ∃ s1, s.1.remove f fresh = some (s1, (r.1.get f).isSome) ∧ ∀ a, Inv (s1, a) (r.1.remove f, a) := by
  obtain ⟨set, hremove, hset⟩ := h.refines.remove (f, ())
  by_cases hf : f ∈ files r.1
  · have hsome := isSome_get.mpr hf
    have hr' (g : Member w) : g ∈ files (r.1.remove f) ↔ g ∈ files r.1 ∧ g ∉ [f] := by rw [mem_remove, List.mem_singleton, and_comm]
    refine ⟨_, ?_, fun a => h.removed (l := [f]) (by simpa using hf) hr' fresh hset.valid hset.entries a⟩
    rw [MapFileSet.remove, h.contains, if_neg (by rw [hsome]; exact Bool.noConfusion), hremove, hsome]
    rfl
  · have hnone : (r.1.get f).isSome = false := Bool.eq_false_iff.mpr (mt isSome_get.mp hf)
    have hsame : r.1.remove f = r.1 := SortedMap.eq_of_get fun k => by
      rw [SortedMap.get_remove]
      split_ifs with hk
      · rw [hk]
        exact (isNone_iff_eq_none.mp (by simpa using hnone)).symm
      · rfl
    refine ⟨s.1, ?_, fun a => by rw [hsame]; exact { h with answer := rfl }⟩
    rw [MapFileSet.remove, h.contains, if_pos hnone, hnone]

/-- A loop over the members returns them in order, and those that are not chosen stay. -/
theorem Inv.iterate (chosen : List (Member w) → Bool) (fresh : Nat → Pointer (Member w)) :
    ∃ s1, s.1.iterate chosen fresh = some (s1, files r.1) ∧ Inv (s1, .files (files r.1)) (next r (.iterate chosen, fresh)) := by
  have hstart : TreeIteration.Midway Prod.fst chosen s.1.fileSet ⟨TreeIteration.iterator s.1.fileSet, [], []⟩ [] s.1.fileSet.entries :=
    TreeIteration.midway_start h.valid
  obtain ⟨p, hp, hmid⟩ := TreeIteration.pass_midway h.valid hstart
  rw [List.nil_append] at hmid
  have hreturned : p.returned = files r.1 := by rw [hmid.returned, h.entries, files]
  have hturns : s.1.fileSet.size + 1 = s.1.fileSet.entries.length + 1 := congrArg (· + 1) h.valid.size
  refine ⟨_, by rw [MapFileSet.iterate, hturns, hp, ← hreturned]; rfl, ?_⟩
  -- what is removed was chosen when it was returned
  have hchosen {e : Member w × Unit} (he : e ∈ r.1.entries) : e.1 ∈ p.removed ↔ stays r.1 chosen e.1 = false := by
    obtain ⟨pre, post, hsplit⟩ := List.append_of_mem he
    have hs := r.1.sorted
    rw [hsplit] at hs
    obtain ⟨-, hpost, hacross⟩ := List.pairwise_append.mp hs
    have hprefix : (files r.1).filter (· ≤ e.1) = (pre ++ [e]).map Prod.fst := by
      rw [files, hsplit, List.map_append, List.filter_append, List.map_cons, List.filter_cons_of_pos (by simp), List.map_append]
      congr 1
      · refine List.filter_eq_self.mpr fun x hx => ?_
        obtain ⟨y, hy, rfl⟩ := List.mem_map.mp hx
        exact decide_eq_true (le_of_lt (hacross y hy e List.mem_cons_self))
      · refine congrArg (_ :: ·) (List.filter_eq_nil_iff.mpr fun x hx => ?_)
        obtain ⟨y, hy, rfl⟩ := List.mem_map.mp hx
        simpa using (List.pairwise_cons.mp hpost).1 y hy
    rw [hmid.removed (h.entries.trans hsplit), stays, hprefix]
    simp
  have hkept : p.iter.map.entries = r.1.entries.filter fun e => stays r.1 chosen e.1 := by
    have hleft := hmid.left
    rw [List.append_nil, h.entries] at hleft
    rw [hleft]
    refine List.filter_congr fun e he => ?_
    by_cases hin : e.1 ∈ p.removed
    · simp [hin, (hchosen he).mp hin]
    · simp [hin, Bool.not_eq_false _ ▸ mt (hchosen he).mpr hin]
  refine h.removed (fun f hf => ?_) (fun g => ?_) fresh hmid.valid hkept _
  · obtain ⟨e, he, rfl⟩ := hmid.passed f hf
    exact List.mem_map_of_mem (h.entries ▸ he)
  · rw [mem_files, mem_files, List.mem_filter]
    refine and_congr_right fun hg => ?_
    rw [hchosen hg, Bool.not_eq_false]

theorem Inv.first : s.1.first = MapFileSet.toPointer r.1.entries.head? := by
  rw [MapFileSet.first, ← h.entries]
  rcases hroot : s.1.fileSet.root with _ | ⟨n, node⟩
  · rw [TreeMap.entries_nil hroot]
    rfl
  · obtain ⟨hin, hpos, -⟩ := h.valid.root hroot
    rw [TreeMap.entries_of_root hroot]
    cases n with
    | zero => rfl
    | succ n =>
      obtain ⟨x, post, hx, hon⟩ := Node.firstLeaf_on h.valid.order (hin (Branch.first node) List.mem_cons_self)
      have hobject : Node.firstObject (n + 1) node = some x := hx
      have hflat : Node.flat (n + 1) node = x :: (post ++ Branch.after (Node.flat n) (Branch.items node) 0) := by
        rw [Node.flat, Branch.flat, hon.flat]
        rfl
      rw [bind_some, hobject, hflat]
      rfl

theorem Inv.last : s.1.last = MapFileSet.toPointer r.1.entries.getLast? := by
  rw [MapFileSet.last, ← h.entries]
  rcases hroot : s.1.fileSet.root with _ | ⟨n, node⟩
  · rw [TreeMap.entries_nil hroot]
    rfl
  · obtain ⟨hin, hpos, -⟩ := h.valid.root hroot
    obtain ⟨index, x, pre, hx, -, hon⟩ := Node.lastLeaf_on h.valid.order hin hpos
    rw [TreeMap.entries_of_root hroot, bind_some, hx, hon.flat, List.getLast?_concat]

/-- What `get` returns of a slot that is below the size, or holds null anyway. -/
theorem Inv.get_iff (i : BitVec 16) : s.1.get i = some (fileAt r.1 i.toNat) ↔ Written s.1 i := by
  have habove (hi : ¬ i.toNat < s.1.fileList.size) : fileAt r.1 i.toNat = .null :=
    fileAt_of_none fun f hf hfi => hi (hfi ▸ h.below f hf)
  by_cases hi : i.toNat < s.1.fileList.size
  · exact iff_of_true (h.slots _ hi) (.inl hi)
  · rw [habove hi, Written, or_iff_right hi]

theorem step_inv {e : Ev w} (hok : Ok s e) : ∃ s', step s e = some s' ∧ Inv s' (next r e) := by
  obtain ⟨c, fresh⟩ := e
  cases c with
  | add f =>
    by_cases hf : f ∈ files r.1
    · have hsame : r.1.put f () = r.1 := SortedMap.eq_of_get fun k => by
        rw [SortedMap.get_put]
        split_ifs with hk
        · rw [hk]
          exact (SortedMap.mem_entries.mp (mem_files.mp hf)).symm
        · rfl
      refine ⟨(s.1, .done), ?_, ?_⟩
      · show (s.1.add f fresh).map _ = _
        rw [MapFileSet.add, h.contains, if_pos (isSome_get.mpr hf)]
        rfl
      · show Inv _ (r.1.put f (), .done)
        rw [hsame]
        exact { h with answer := rfl }
    · obtain ⟨s1, hadd, hs1⟩ := h.added hf (fun g hg hgf => hf (by
        have heq : g = f := hok (g, ()) (h.entries ▸ mem_files.mp hg) hgf
        exact heq ▸ hg)) fresh
      exact ⟨_, by show (s.1.add f fresh).map _ = _; rw [hadd]; rfl, hs1⟩
  | remove f =>
    obtain ⟨s1, hremove, hs1⟩ := h.remove f fresh
    exact ⟨_, by show (s.1.remove f fresh).map _ = _; rw [hremove]; rfl, hs1 _⟩
  | removeAt i =>
    have hget := (h.get_iff i).mpr hok
    rcases fileAt_cases r.1 i.toNat with ⟨f, hf, -, heq⟩ | ⟨-, heq⟩
    · obtain ⟨s1, hremove, hs1⟩ := h.remove f fresh
      refine ⟨(s1, .pointer (.file f)), ?_, ?_⟩
      · show (s.1.removeAt i fresh).map _ = _
        rw [MapFileSet.removeAt, hget, heq]
        show ((s.1.remove f fresh).map _).map _ = _
        rw [hremove]
        rfl
      · simp only [next, heq]
        exact hs1 _
    · refine ⟨(s.1, .pointer .null), ?_, ?_⟩
      · show (s.1.removeAt i fresh).map _ = _
        rw [MapFileSet.removeAt, hget, heq]
        rfl
      · simp only [next, heq]
        exact { h with answer := rfl }
  | iterate chosen =>
    obtain ⟨s1, hiterate, hs1⟩ := h.iterate chosen fresh
    exact ⟨_, by show (s.1.iterate chosen fresh).map _ = _; rw [hiterate]; rfl, hs1⟩
  | clear =>
    obtain ⟨hvalid, hentries⟩ := TreeMap.clear_valid h.valid
    refine ⟨_, rfl, rfl, hvalid, hentries, nofun, Nat.zero_le _, fun i hi => absurd hi (Nat.not_lt_zero i), nofun⟩
  | get i =>
    refine ⟨(s.1, .pointer (fileAt r.1 i.toNat)), ?_, { h with answer := rfl }⟩
    show (s.1.get i).map _ = _
    rw [(h.get_iff i).mpr hok]
    rfl
  | safeGet i =>
    refine ⟨(s.1, .pointer (fileAt r.1 i.toNat)), ?_, { h with answer := rfl }⟩
    show (s.1.safeGet i).map _ = _
    rw [MapFileSet.safeGet]
    by_cases hi : i.toNat < s.1.fileList.size
    · rw [if_pos hi, BasicArray.get, h.slots _ hi]
      rfl
    · have hnull : fileAt r.1 i.toNat = .null := fileAt_of_none fun f hf hfi => hi (hfi ▸ h.below f hf)
      rw [if_neg hi, hnull]
      rfl
  | size =>
    refine ⟨_, rfl, { h with answer := ?_ }⟩
    show Answer.size s.1.fileSet.pEntries = .size (files r.1).length
    rw [h.valid.size, h.entries, files, List.length_map]
  | first => exact ⟨_, rfl, { h with answer := congrArg _ h.first }⟩
  | last => exact ⟨_, rfl, { h with answer := congrArg _ h.last }⟩

theorem ok_of_right {e : Ev w} (hstep : step s e = some s') (hright : Right s' (next r e)) : Ok s e := by
  obtain ⟨c, fresh⟩ := e
  cases c with
  | add f =>
    intro x hx hxf
    have hmem : x.1 ∈ files r.1 := List.mem_map_of_mem (h.entries ▸ hx)
    exact hright.distinct x.1 (mem_put.mpr (.inr hmem)) f (mem_put.mpr (.inl rfl)) hxf
  | removeAt i =>
    obtain ⟨x, hx, rfl⟩ := map_eq_some_iff.mp hstep
    have hanswer : Answer.pointer x.2 = .pointer (fileAt r.1 i.toNat) := hright.answer
    obtain ⟨p, hp, hx⟩ := bind_eq_some_iff.mp hx
    refine (h.get_iff i).mp (hp.trans (congrArg some ?_))
    rw [← Answer.pointer.inj hanswer]
    cases p with
    | null =>
      cases hx
      rfl
    | file f =>
      obtain ⟨y, -, rfl⟩ := map_eq_some_iff.mp hx
      rfl
    | wild => cases hx
  | get i =>
    obtain ⟨p, hp, rfl⟩ := map_eq_some_iff.mp hstep
    have hanswer : Answer.pointer p = .pointer (fileAt r.1 i.toNat) := hright.answer
    exact (h.get_iff i).mp (hp.trans (congrArg some (Answer.pointer.inj hanswer)))
  | _ => trivial

end Step

theorem start_inv : Inv (start w) (.empty, .done) where
  answer := rfl
  valid := TreeMap.init_valid 3 false
  entries := rfl
  distinct := nofun
  size := Nat.le_refl _
  slots := fun i hi => absurd hi (Nat.not_lt_zero i)
  below := nofun

/-- Of files from one window every call answers for the members, whose indexes differ, exactly if no index is added twice and
no slot is asked for that was not written. -/
theorem set_answers_iff (es : List (Ev w)) :
    (∀ l, l <+: es → ∃ s', exec step (start w) l = some s' ∧ Right s' (l.foldl next (.empty, .done))) ↔ Meets step Ok (start w) es :=
  @meets_iff _ _ step Ok _ next Inv Right (fun h => ⟨h.distinct, h.answer⟩) (fun h hok => step_inv h hok)
    (fun h hstep hright => ok_of_right h hstep hright) _ _ start_inv es

end DeepFabric.Store.MapFileSets
