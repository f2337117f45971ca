/-
  DeepFabric.Platform.HashMap — a hash map with open addressing (cxx/util/HashMap.cxx).

  A key is probed for from the slot that its hash tells, then at distances from there that a shift
  register passes through; POLYS has the register's polynomial for every table size. A removed entry
  leaves m_reserve behind. The table is made anew when too many of its slots have been filled, or
  when few entries are left.

  Ints are numbers whose products wrap around. Nothing comes of an access behind the allocated
  table, of a table that malloc cannot give, and of a search that goes on for ever. What becomes of
  destroyed keys and values is left out.
-/
import Mathlib.Algebra.Group.Int.Defs
import Mathlib.Algebra.Group.Nat.Defs
import Mathlib.Data.List.Basic

namespace DeepFabric.Platform.Hash

/-- POLYS, up to the 0 that ends it. -/
def polys : List Nat := [
  4 + 3, 8 + 3, 16 + 3, 32 + 5, 64 + 3, 128 + 3, 256 + 29, 512 + 17, 1024 + 9, 2048 + 5, 4096 + 83, 8192 + 27, 16384 + 43,
  32768 + 3, 65536 + 45, 131072 + 9, 262144 + 39, 524288 + 39, 1048576 + 9, 2097152 + 5, 4194304 + 3, 8388608 + 33,
  16777216 + 27, 33554432 + 9, 67108864 + 71, 134217728 + 39, 268435456 + 9, 536870912 + 5, 1073741824 + 83]

def resizeFactor : Nat := 2

def resizeLowWater : Nat := 8

def resizeHighWater : Nat := 3

def initialCapacity : Nat := 16

/-- The int that a product wraps around to. -/
def toInt (n : Nat) : Int := if n % 2 ^ 32 < 2 ^ 31 then n % 2 ^ 32 else (n % 2 ^ 32 : Nat) - 2 ^ 32

inductive Slot (K V : Type) where
  | null
  | reserve
  | entry (key : K) (value : V)
  deriving DecidableEq, Repr

structure HashMap (K V : Type) where
  poly : Nat
  fill : Nat
  size : Nat
  capacity : Nat
  entries : Nat
  fixed : Bool
  table : Option (List (Slot K V))

section

variable {K V : Type} [DecidableEq K]
variable (hashCode : K → BitVec 32)

/-! ## Probing -/

/-- A search for a key, or for a place to put it, ends here. -/
def Slot.stops (key : K) (match_ : Bool) : Slot K V → Bool
  | .null => true
  | .reserve => !match_
  | .entry k _ => k = key

/-- The hash code as a long. -/
def hash (key : K) : BitVec 64 := (hashCode key).signExtend 64

/-- The slot that a search begins at. -/
def firstIndex (mask : Nat) (key : K) : Nat := (~~~hash hashCode key).toNat &&& mask

/-- The first distance from there. -/
def firstIncr (mask poly : Nat) (key : K) : Nat :=
  let incr := (hash hashCode key ^^^ (hash hashCode key).sshiftRight 3).toNat &&& mask
  if incr = 0 then mask else if incr > mask then incr ^^^ poly else incr

def nextIncr (mask poly incr : Nat) : Nat := if incr <<< 1 > mask then incr <<< 1 ^^^ poly else incr <<< 1

/-- The loop of getIndex. What has not ended after as many turns as there are slots never does. -/
def probe (table : List (Slot K V)) (mask poly i : Nat) (key : K) (match_ : Bool) : Nat → Nat → Option Nat
  | 0, _ => none
  | turns + 1, incr => do
    let p ← table[(i + incr) &&& mask]?
    if p.stops key match_ then some ((i + incr) &&& mask)
    else probe table mask poly i key match_ turns (nextIncr mask poly incr)

def getIndex (s : HashMap K V) (key : K) (match_ : Bool) : Option Nat := do
  let table ← s.table
  let mask := s.size - 1
  let i := firstIndex hashCode mask key
  let p ← table[i]?
  if p.stops key match_ then some i
  else probe table mask s.poly i key match_ s.size (firstIncr hashCode mask s.poly key)

/-! ## Tables -/

def insertObject (s : HashMap K V) (x : Slot K V) (index : Nat) : Option (HashMap K V × Slot K V) := do
  let table ← s.table
  let o ← table[index]?
  let fill := match o with
    | .null => s.fill + 1
    | _ => s.fill
  some ({ s with fill := fill, table := some (table.set index x), entries := s.entries + 1 }, o)

/-- The size of a table for more than `minused` entries, and its polynomial. Behind the last of POLYS the size wraps
    around, and resize gives up. -/
def tableSize (minused : Int) : Option (Nat × Nat) :=
  (polys.zipIdx.map fun p => (4 <<< p.2, p.1)).find? fun p => minused < p.1

/-- A table of `size` pointers of 8 bytes, whose length in bytes is an int. -/
def malloc (size : Nat) : Option (List (Slot K V)) :=
  if toInt (size * 8) < 0 then none else some (List.replicate (toInt (size * 8) / 8).toNat .null)

/-- An entry of the old table is put into the new one. -/
def moveObject (s : HashMap K V) : Slot K V → Option (HashMap K V)
  | .entry key value => do
    let index ← getIndex hashCode s key false
    let (s, _) ← insertObject s (.entry key value) index
    some s
  | _ => some s

def resize (s : HashMap K V) (minused : Int) : Option (HashMap K V) :=
  match tableSize minused with
  | none => some s
  | some (size, poly) => do
    let table ← malloc size
    let oldtable := s.table.getD []
    let new := { s with capacity := size, fill := 0, entries := 0, size := size, poly := poly, table := some table }
    if oldtable.length < s.size then none else (oldtable.take s.size).foldlM (moveObject hashCode) new

/-- The old entry, and the map after a resize if few are left. -/
def removeObject (s : HashMap K V) (index : Nat) : Option (HashMap K V × Slot K V) := do
  let table ← s.table
  let p ← table[index]?
  let s := match p with
    | .entry _ _ => { s with table := some (table.set index .reserve), entries := s.entries - 1, fill := s.fill + 1 }
    | _ => s
  if toInt (s.entries * resizeLowWater) < s.size ∧ s.fixed = false then do
    let s ← resize hashCode s (toInt (s.entries * resizeFactor))
    some (s, p)
  else some (s, p)

/-- putIndex with the check, and the map after it. -/
def putIndex (s : HashMap K V) (key : K) : Option (HashMap K V × Nat) := do
  let s ← if toInt (s.fill * resizeHighWater) ≥ toInt (s.size * resizeFactor) ∧ s.fixed = false then
      resize hashCode s (toInt (s.entries * resizeFactor))
    else some s
  let index ← getIndex hashCode s key true
  let x ← (← s.table)[index]?
  match x with
  | .entry _ _ => some (s, index)
  | _ => some (s, ← getIndex hashCode s key false)

/-! ## Operations -/

/-- The constructor. -/
def new (cap : Int) (fixed : Bool) : Option (HashMap K V) :=
  let s : HashMap K V := ⟨0, 0, 0, 0, 0, false, none⟩
  if cap ≠ 0 then (resize hashCode s cap).map fun s => { s with fixed := fixed } else some { s with fixed := fixed }

/-- The map after put, and the entry that was replaced: its key and value are what put returns, with status true; with no
    entry the null value, with status false. -/
def put (s : HashMap K V) (key : K) (val : V) : Option (HashMap K V × Option (K × V)) := do
  let s ← if s.table.isNone then resize hashCode s initialCapacity else some s
  let (s, index) ← putIndex hashCode s key
  let (s, x) ← insertObject s (.entry key val) index
  match x with
  | .entry k v => some ({ s with entries := s.entries - 1 }, some (k, v))
  | _ => some (s, none)

/-- The map after remove, and the entry that was removed. -/
def remove (s : HashMap K V) (key : K) : Option (HashMap K V × Option (K × V)) :=
  if s.table.isNone then some (s, none)
  else do
    let index ← getIndex hashCode s key true
    let (s, x) ← removeObject hashCode s index
    match x with
    | .entry k v => some (s, some (k, v))
    | _ => some (s, none)

def get (s : HashMap K V) (key : K) : Option (Option (K × V)) :=
  if s.table.isNone then some none
  else do
    let index ← getIndex hashCode s key true
    let x ← (← s.table)[index]?
    match x with
    | .entry k v => some (some (k, v))
    | _ => some none

def containsKey (s : HashMap K V) (key : K) : Option Bool := (get hashCode s key).map Option.isSome

def clear (s : HashMap K V) : HashMap K V :=
  if s.table.isNone then s else { s with table := none, size := 0, fill := 0, entries := 0 }

end

end DeepFabric.Platform.Hash
