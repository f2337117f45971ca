/-
  DeepFabric.Distributed.QuickList — the singly linked list the logs of a commit are kept in
  (`QuickList.h`): a head, a tail and a size over nodes in memory.

  The nodes are a memory of their own, since `append` hands the nodes of one list to another:
  several lists (`St.lists`) share it. A step is one call on one list; it has no next state where
  the code would follow a null pointer or a node already deleted.

  As built not every call is safe. `clear` leaves the size as it was, and `append` of an empty list
  takes the tail away: `stale_size_and_lost_tail` are the two runs. `advanceHead` follows the head
  of an empty list, and nodes handed over by `append` without `disown` belong to two lists.
-/
import Mathlib.Algebra.Group.Nat.Defs
import Mathlib.Data.List.Perm.Subperm
import Mathlib.Logic.Function.Basic
import DeepFabric.Lib.Run

namespace DeepFabric.Distributed.QuickLists

open Lib.Run List Option Function
open Option (some)
open List (getLast)
open Function (update)

variable {n : Nat} {T : Type}

structure QuickListEntry (T : Type) where
  entry : T
  next : Option Nat

/-- The nodes by address (`none`: never allocated, or deleted) and the next address of `new`. -/
structure Memory (T : Type) where
  node : Nat → Option (QuickListEntry T)
  fresh : Nat

namespace Memory

def new (m : Memory T) (data : T) : Memory T :=
  ⟨update m.node m.fresh (some ⟨data, none⟩), m.fresh + 1⟩

/-- `p->getNext()`. -/
def getNext (m : Memory T) (p : Option Nat) : Option (Option Nat) :=
  (p.bind m.node).map (·.next)

/-- `p->setNext(next)`. -/
def setNext (m : Memory T) (p next : Option Nat) : Option (Memory T) :=
  p.bind fun a => (m.node a).map fun e => { m with node := update m.node a (some { e with next := next }) }

def delete (m : Memory T) (a : Nat) : Memory T := { m with node := update m.node a none }

end Memory

structure QuickList where
  head : Option Nat
  tail : Option Nat
  size : UInt32
  deriving DecidableEq

def empty : QuickList := ⟨none, none, 0⟩

def disown (_ : QuickList) : QuickList := empty

/-- The loop of `clear`: every turn deletes a node, so the nodes ever allocated bound the turns. -/
def clearLoop (m : Memory T) : Nat → Option Nat → Option (Memory T)
  | _, none => some m
  | 0, some _ => none
  | fuel + 1, some a => (m.getNext (some a)).bind fun next => clearLoop (m.delete a) fuel next

/-- `m_size` is not touched. -/
def clear (m : Memory T) (l : QuickList) : Option (Memory T × QuickList) :=
  (clearLoop m m.fresh l.head).map fun m' => (m', { l with head := none, tail := none })

def advanceHead (m : Memory T) (l : QuickList) : Option (Memory T × QuickList) := do
  let node ← l.head
  match ← m.getNext (some node) with
  | none => some (m, l)
  | some next => some (m.delete node, { l with head := some next, size := l.size - 1 })

def addEntry (m : Memory T) (l : QuickList) (data : T) : Option (Memory T × QuickList) :=
  let node := m.fresh
  let m := m.new data
  let l := if l.head = none then { l with head := some node, tail := some node } else l
  if l.tail = some node then some (m, { l with size := l.size + 1 })
  else (m.setNext l.tail (some node)).map fun m => (m, { l with tail := some node, size := l.size + 1 })

def append (m : Memory T) (l list : QuickList) : Option (Memory T × QuickList) :=
  if l.head = none then some (m, list)
  else (m.setNext l.tail list.head).map fun m => (m, { l with tail := list.tail, size := l.size + list.size })

/-! ## Several lists over one memory -/

structure St (n : Nat) (T : Type) where
  memory : Memory T
  lists : Fin n → QuickList

def init : St n T := ⟨⟨fun _ => none, 0⟩, fun _ => empty⟩

inductive Ev (n : Nat) (T : Type) where
  | addEntry (i : Fin n) (data : T)
  | append (i j : Fin n)
  | advanceHead (i : Fin n)
  | clear (i : Fin n)
  | disown (i : Fin n)

def St.call (s : St n T) (i : Fin n) (r : Option (Memory T × QuickList)) : Option (St n T) :=
  r.map fun (m, l) => ⟨m, update s.lists i l⟩

def step (s : St n T) : Ev n T → Option (St n T)
  | .addEntry i data => s.call i (addEntry s.memory (s.lists i) data)
  | .append i j => s.call i (append s.memory (s.lists i) (s.lists j))
  | .advanceHead i => s.call i (advanceHead s.memory (s.lists i))
  | .clear i => s.call i (clear s.memory (s.lists i))
  | .disown i => s.call i (some (s.memory, disown (s.lists i)))

/-- What is in each list: what was added and not yet advanced past, in order. The last entry is not advanced past. -/
def next (r : Fin n → List T) : Ev n T → Fin n → List T
  | .addEntry i data => update r i (r i ++ [data])
  | .append i j => update r i (r i ++ r j)
  | .advanceHead i => update r i (if (r i).length ≤ 1 then r i else (r i).tail)
  | .clear i => update r i []
  | .disown i => update r i []

/-- Following the next pointers from `p` visits the nodes, which carry the entries, and ends. -/
def Visits (m : Memory T) : Option Nat → List Nat → List T → Prop
  | p, [], l => p = none ∧ l = []
  | p, a :: as, l => p = some a ∧ ∃ e l', m.node a = some e ∧ l = e.entry :: l' ∧ Visits m e.next as l'

/-- The list's fields say that it has these entries, in this order. -/
def Holds (m : Memory T) (l : QuickList) (entries : List T) : Prop :=
  ∃ nodes, Visits m l.head nodes entries ∧ l.tail = nodes.getLast? ∧ l.size.toNat = entries.length

/-- As built: a list that was cleared still has its old size, and one an empty list was appended to loses its tail, so that
    the next entry has nothing to be linked behind. -/
theorem stale_size_and_lost_tail :
    (∃ s, exec step (init : St 2 Nat) [.addEntry 0 7, .clear 0] = some s ∧ (s.lists 0).head = none ∧ ¬Holds s.memory (s.lists 0) []) ∧
      exec step (init : St 2 Nat) [.addEntry 0 7, .append 0 1, .addEntry 0 8] = none := by
  refine ⟨⟨_, rfl, rfl, ?_⟩, rfl⟩
  rintro ⟨_, -, -, hsize⟩
  exact absurd hsize (by decide)

/-- The nodes the code would come past from `p`, as far as the fuel goes. -/
def walk (m : Memory T) : Nat → Option Nat → List Nat
  | 0, _ => []
  | _, none => []
  | fuel + 1, some a => a :: ((m.node a).elim [] fun e => walk m fuel e.next)

/-- The calls that go well. A list that is linked to another must not end where a third ends, and the node `advanceHead`
    deletes must not belong to another list as well: `disown` after `append` sees to both. -/
def Safe (s : St n T) : Ev n T → Prop
  | .addEntry i _ =>
    (s.lists i).size.toNat + 1 < 2 ^ 32 ∧ ((s.lists i).head = none ∨ ∀ k, k ≠ i → (s.lists k).tail ≠ (s.lists i).tail)
  | .append i j =>
    (s.lists i).head = none ∨
      i ≠ j ∧ (s.lists j).head ≠ none ∧ (s.lists i).size.toNat + (s.lists j).size.toNat < 2 ^ 32 ∧
        ∀ k, k ≠ i → (s.lists k).tail ≠ (s.lists i).tail
  | .advanceHead i =>
    (s.lists i).head ≠ none ∧
      ((s.lists i).size = 1 ∨ ∀ k, k ≠ i → ∀ a ∈ (s.lists i).head, a ∉ walk s.memory s.memory.fresh (s.lists k).head)
  | .clear i => (s.lists i).head = none
  | .disown _ => True

/-! ## Following the next pointers -/

section Visits

variable {m m' : Memory T} {p q : Option Nat} {a : Nat} {as bs : List Nat} {l l' : List T}

theorem Visits.length (h : Visits m p as l) : as.length = l.length := by
  induction as generalizing p l with
  | nil => rw [h.2]; rfl
  | cons a as ih =>
    obtain ⟨-, e, l', -, rfl, h⟩ := h
    simp [ih h]

theorem Visits.unique (h : Visits m p as l) (h' : Visits m p bs l') : as = bs := by
  induction as generalizing p l bs l' with
  | nil =>
    cases bs with
    | nil => rfl
    | cons b bs => cases h.1.symm.trans h'.1
  | cons a as ih =>
    cases bs with
    | nil => cases h.1.symm.trans h'.1
    | cons b bs =>
      obtain ⟨rfl, e, _, he, -, h⟩ := h
      obtain ⟨hb, e', _, he', -, h'⟩ := h'
      obtain rfl := some.inj hb
      obtain rfl := some.inj (he.symm.trans he')
      rw [ih h h']

/-- From any node on the way, the visit goes on as before. -/
theorem Visits.behind (h : Visits m p (as ++ a :: bs) l) : ∃ l', Visits m (some a) (a :: bs) l' := by
  induction as generalizing p l with
  | nil =>
    obtain rfl := h.1
    exact ⟨l, h⟩
  | cons b as ih =>
    obtain ⟨-, e, l', -, -, h⟩ := h
    exact ih h

theorem Visits.nodup (h : Visits m p as l) : as.Nodup := by
  induction as generalizing p l with
  | nil => exact nodup_nil
  | cons a as ih =>
    obtain ⟨_, _, _, _, -, hrest⟩ := id h
    refine nodup_cons.mpr ⟨fun ha => ?_, ih hrest⟩
    obtain ⟨u, v, rfl⟩ := append_of_mem ha
    rw [← cons_append] at h
    obtain ⟨_, hback⟩ := h.behind
    obtain rfl := h.1
    have hlength := congrArg List.length (h.unique hback)
    simp only [length_cons, length_append] at hlength
    omega

theorem Visits.node (h : Visits m p as l) (ha : a ∈ as) : ∃ e, m.node a = some e := by
  induction as generalizing p l with
  | nil => cases ha
  | cons b as ih =>
    obtain ⟨-, e, l', he, -, h⟩ := h
    rcases mem_cons.mp ha with rfl | ha
    · exact ⟨e, he⟩
    · exact ih h ha

theorem Visits.last (h : Visits m p as l) {e : QuickListEntry T} (ha : a ∈ as) (he : m.node a = some e) (hn : e.next = none) :
    as.getLast? = some a := by
  obtain ⟨u, v, rfl⟩ := append_of_mem ha
  obtain ⟨_, -, e', _, he', -, hv⟩ := h.behind
  obtain rfl := some.inj (he.symm.trans he')
  cases v with
  | nil => exact getLast?_concat
  | cons b v => cases hn.symm.trans hv.1

theorem Visits.end (h : Visits m p (as ++ [a]) l) : ∃ x, m.node a = some ⟨x, none⟩ := by
  obtain ⟨_, -, ⟨x, _⟩, _, he, -, rfl, -⟩ := h.behind
  exact ⟨x, he⟩

theorem Visits.congr (h : Visits m p as l) (hm : ∀ a ∈ as, m'.node a = m.node a) : Visits m' p as l := by
  induction as generalizing p l with
  | nil => exact h
  | cons a as ih =>
    obtain ⟨hp, e, l', he, hl, h⟩ := h
    exact ⟨hp, e, l', (hm a mem_cons_self).trans he, hl, ih h fun b hb => hm b (mem_cons_of_mem a hb)⟩

/-- Two memories that agree on the first nodes lead the same way so far. -/
theorem Visits.follow (h : Visits m p (as ++ bs) l) (hm : ∀ a ∈ as, m'.node a = m.node a) {cs : List Nat} (h' : Visits m' p cs l') :
    ∃ q ds l1 l2, cs = as ++ ds ∧ Visits m q bs l1 ∧ Visits m' q ds l2 := by
  induction as generalizing p l cs l' with
  | nil => exact ⟨p, cs, l, l', rfl, h, h'⟩
  | cons a as ih =>
    obtain ⟨rfl, e, _, he, -, h⟩ := h
    cases cs with
    | nil => cases h'.1
    | cons c cs =>
      obtain ⟨hc, e', _, he', -, h'⟩ := h'
      obtain rfl := some.inj hc
      obtain rfl := some.inj (he'.symm.trans ((hm a mem_cons_self).trans he))
      obtain ⟨q, ds, l1, l2, rfl, h1, h2⟩ := ih h (fun b hb => hm b (mem_cons_of_mem a hb)) h'
      exact ⟨q, ds, l1, l2, rfl, h1, h2⟩

/-- Once the last node has a next one, the visit goes on there. -/
theorem Visits.onward (h : Visits m p (as ++ [a]) l) (hs : m.setNext (some a) q = some m') {cs : List Nat} (h' : Visits m' p cs l') :
    ∃ ds l2, cs = as ++ a :: ds ∧ Visits m' q ds l2 := by
  obtain ⟨x, hx⟩ := h.end
  have hm' : { m with node := update m.node a (some ⟨x, q⟩) } = m' := by simpa [Memory.setNext, hx] using hs
  have hnodup := nodup_append.mp h.nodup
  have hkept : ∀ b ∈ as, m'.node b = m.node b := fun b hb => by
    rw [← hm']
    exact update_of_ne (hnodup.2.2 b hb a (mem_singleton_self a)) _ _
  obtain ⟨_, ds, _, _, rfl, ⟨rfl, -⟩, h2⟩ := h.follow hkept h'
  cases ds with
  | nil => cases h2.1
  | cons c ds =>
    obtain ⟨hc, e, l2, he, -, h2⟩ := h2
    obtain rfl := some.inj hc
    have hq : e = ⟨x, q⟩ := by
      rw [← hm'] at he
      simpa using he.symm
    rw [hq] at h2
    exact ⟨ds, l2, rfl, h2⟩

theorem Visits.walk (h : Visits m p as l) {fuel : Nat} (hf : as.length ≤ fuel) : walk m fuel p = as := by
  induction as generalizing p l fuel with
  | nil =>
    rw [h.1]
    cases fuel <;> rfl
  | cons a as ih =>
    obtain ⟨rfl, e, l', he, -, h⟩ := h
    cases fuel with
    | zero => cases hf
    | succ fuel =>
      rw [QuickLists.walk, he]
      exact congrArg (a :: ·) (ih h (Nat.le_of_succ_le_succ hf))

theorem Visits.link (h : Visits m p (as ++ [a]) l) (hq : Visits m q bs l') (ha : a ∉ bs) :
    ∃ m', m.setNext (some a) q = some m' ∧ (∀ b, b ≠ a → m'.node b = m.node b) ∧ m'.fresh = m.fresh ∧
      Visits m' p (as ++ [a] ++ bs) (l ++ l') := by
  obtain ⟨x, hx⟩ := h.end
  refine ⟨{ m with node := update m.node a (some ⟨x, q⟩) }, ?_, fun b hb => update_of_ne hb _ _, rfl, ?_⟩
  · simp [Memory.setNext, hx]
  · have hnodup := h.nodup
    induction as generalizing p l with
    | nil =>
      obtain ⟨rfl, e, l2, he, rfl, -, rfl⟩ := h
      obtain rfl := some.inj (hx.symm.trans he)
      refine ⟨rfl, ⟨x, q⟩, l', by simp, rfl, hq.congr fun b hb => ?_⟩
      have hba : b ≠ a := fun hba => ha (hba ▸ hb)
      exact update_of_ne hba _ _
    | cons b as ih =>
      obtain ⟨hp, e, l2, he, rfl, h⟩ := h
      obtain ⟨hb, hnodup⟩ := nodup_cons.mp hnodup
      refine ⟨hp, e, l2 ++ l', ?_, rfl, ih h hnodup⟩
      exact (update_of_ne (fun hba => hb (by simp [hba])) _ _).trans he

end Visits

/-! ## Every call -/

/-- Every list holds its entries; no address still to be handed out is in use. -/
structure Inv (s : St n T) (r : Fin n → List T) : Prop where
  holds : ∀ i, Holds s.memory (s.lists i) (r i)
  fresh : ∀ a, s.memory.fresh ≤ a → s.memory.node a = none

theorem init_inv : Inv (init : St n T) fun _ => [] where
  holds _ := ⟨[], ⟨rfl, rfl⟩, rfl, rfl⟩
  fresh _ _ := rfl

section Calls

variable {s : St n T} {r : Fin n → List T} {i : Fin n}

theorem Inv.walk (hi : Inv s r) {p : Option Nat} {as : List Nat} {l : List T} (h : Visits s.memory p as l) :
    walk s.memory s.memory.fresh p = as := by
  refine h.walk ?_
  have hsub : as ⊆ List.range s.memory.fresh := by
    intro a ha
    obtain ⟨e, he⟩ := h.node ha
    refine mem_range.mpr (Nat.lt_of_not_le fun hle => ?_)
    cases (hi.fresh a hle).symm.trans he
  simpa using (subperm_of_subset h.nodup hsub).length_le

variable {m : Memory T} {l : QuickList} {entries : List T}

theorem Holds.head_none (h : Holds m l entries) (hh : l.head = none) :
    l.tail = none ∧ l.size = 0 ∧ entries = [] := by
  obtain ⟨nodes, hv, ht, hs⟩ := h
  cases nodes with
  | nil =>
    obtain rfl := hv.2
    exact ⟨ht, UInt32.toNat_inj.mp hs, rfl⟩
  | cons a nodes => cases hh.symm.trans hv.1

theorem Holds.head_some (h : Holds m l entries) (hh : l.head ≠ none) :
    ∃ nodes a, Visits m l.head (nodes ++ [a]) entries ∧ l.tail = some a ∧ l.size.toNat = entries.length := by
  obtain ⟨nodes, hv, ht, hs⟩ := h
  rcases eq_nil_or_concat nodes with rfl | ⟨nodes, a, rfl⟩
  · exact absurd hv.1 hh
  · rw [concat_eq_append] at hv ht
    exact ⟨nodes, a, hv, ht.trans getLast?_concat, hs⟩

variable {a : Nat}

theorem Holds.tail_some (h : Holds m l entries) (ht : l.tail = some a) :
    ∃ nodes, Visits m l.head (nodes ++ [a]) entries := by
  obtain ⟨nodes, hv, ht', -⟩ := h
  obtain ⟨nodes, rfl⟩ := getLast?_eq_some_iff.mp (ht'.symm.trans ht)
  exact ⟨nodes, hv⟩

/-- What the call does to its own list, and that it leaves the nodes of the others alone, is all there is to show. -/
theorem Inv.call (hi : Inv s r) (hl : Holds m l entries)
    (hfresh : ∀ a, m.fresh ≤ a → m.node a = none)
    (hm : ∀ k, k ≠ i → ∀ nodes, Visits s.memory (s.lists k).head nodes (r k) → (s.lists k).tail = nodes.getLast? →
      (s.lists k).size.toNat = nodes.length → ∀ a ∈ nodes, m.node a = s.memory.node a) :
    ∃ s', s.call i (some (m, l)) = some s' ∧ Inv s' (update r i entries) := by
  refine ⟨_, rfl, fun k => ?_, hfresh⟩
  by_cases hk : k = i
  · subst hk
    simpa using hl
  · obtain ⟨nodes, hv, ht, hs⟩ := hi.holds k
    simp only [update_of_ne hk]
    exact ⟨nodes, hv.congr (hm k hk nodes hv ht (hs.trans hv.length.symm)), ht, hs⟩

/-- The last node of a list is in no list that ends elsewhere. -/
theorem Visits.notMem {nodes bs : List Nat} {p q : Option Nat} {l l' : List T} (h : Visits m p (nodes ++ [a]) l)
    (hq : Visits m q bs l') (hne : bs.getLast? ≠ some a) : a ∉ bs := by
  intro ha
  obtain ⟨x, hx⟩ := h.end
  exact hne (hq.last ha hx rfl)

theorem addEntry_inv (hi : Inv s r) {data : T} (hok : Safe s (.addEntry i data)) :
    ∃ s', step s (.addEntry i data) = some s' ∧ Inv s' (next r (.addEntry i data)) := by
  obtain ⟨hsize, hok⟩ := hok
  have hnew : ∀ {as l p}, Visits s.memory p as l → s.memory.fresh ∉ as := by
    intro as l p h ha
    obtain ⟨e, he⟩ := h.node ha
    cases (hi.fresh _ (Nat.le_refl _)).symm.trans he
  have hkept : ∀ b, b ≠ s.memory.fresh → (s.memory.new data).node b = s.memory.node b := fun b hb => update_of_ne hb _ _
  have hvisit : Visits (s.memory.new data) (some s.memory.fresh) [s.memory.fresh] [data] :=
    ⟨rfl, ⟨data, none⟩, [], by simp [Memory.new], rfl, rfl, rfl⟩
  have hplus : ((s.lists i).size + 1).toNat = (s.lists i).size.toNat + 1 := by
    rw [UInt32.toNat_add, Nat.mod_eq_of_lt (by simpa using hsize)]
    rfl
  have hfresh : ∀ a, (s.memory.new data).fresh ≤ a → (s.memory.new data).node a = none := by
    intro a ha
    have hlt : s.memory.fresh < a := ha
    exact (hkept a (by omega)).trans (hi.fresh a (by omega))
  show ∃ s', s.call i (addEntry s.memory (s.lists i) data) = some s' ∧ _
  by_cases hhead : (s.lists i).head = none
  · obtain ⟨-, hzero, hnil⟩ := (hi.holds i).head_none hhead
    have hadd : addEntry s.memory (s.lists i) data =
        some (s.memory.new data, ⟨some s.memory.fresh, some s.memory.fresh, (s.lists i).size + 1⟩) := by
      simp [addEntry, hhead]
    rw [hadd]
    refine hi.call ⟨[s.memory.fresh], ?_, rfl, ?_⟩ hfresh fun k hk nodes hv _ _ a ha => hkept a fun h => hnew hv (h ▸ ha)
    · rw [hnil]
      exact hvisit
    · rw [hplus, hzero, hnil]
      rfl
  · obtain ⟨nodes, a, hv, htail, hlength⟩ := (hi.holds i).head_some hhead
    have hother := hok.resolve_left hhead
    have hane : a ≠ s.memory.fresh := fun h => hnew hv (by simp [h])
    have hv1 := hv.congr fun b hb => hkept b fun h => hnew hv (h ▸ hb)
    obtain ⟨m', hset, hkeep, hfr, hv2⟩ := hv1.link hvisit (by simpa using hane)
    have hadd : addEntry s.memory (s.lists i) data =
        some (m', ⟨(s.lists i).head, some s.memory.fresh, (s.lists i).size + 1⟩) := by
      simp [addEntry, hhead, htail, hane, hset]
    rw [hadd]
    refine hi.call ⟨nodes ++ [a] ++ [s.memory.fresh], hv2, ?_, ?_⟩ ?_ fun k hk bs hbs ht _ b hb => ?_
    · exact getLast?_concat.symm
    · rw [hplus, hlength, length_append]
      rfl
    · intro b hb
      rw [hfr] at hb
      refine (hkeep b fun h => ?_).trans (hfresh b hb)
      obtain ⟨x, hx⟩ := hv1.end
      rw [← h, hfresh b hb] at hx
      cases hx
    · have hb' : b ≠ a := fun h => Visits.notMem hv hbs (fun h => hother k hk (ht.trans (h.trans htail.symm))) (h ▸ hb)
      exact (hkeep b hb').trans (hkept b fun h => hnew hbs (h ▸ hb))

theorem append_inv (hi : Inv s r) {j : Fin n} (hok : Safe s (.append i j)) :
    ∃ s', step s (.append i j) = some s' ∧ Inv s' (next r (.append i j)) := by
  show ∃ s', s.call i (append s.memory (s.lists i) (s.lists j)) = some s' ∧ _
  by_cases hhead : (s.lists i).head = none
  · obtain ⟨-, -, hnil⟩ := (hi.holds i).head_none hhead
    rw [append, if_pos hhead, next, hnil, nil_append]
    exact hi.call (hi.holds j) hi.fresh fun _ _ _ _ _ _ _ _ => rfl
  · obtain ⟨hij, hjhead, hsize, hother⟩ := hok.resolve_left hhead
    obtain ⟨nodes, a, hv, htail, hlength⟩ := (hi.holds i).head_some hhead
    obtain ⟨bs, b, hbs, hjtail, hjlength⟩ := (hi.holds j).head_some hjhead
    have hab : a ∉ bs ++ [b] := by
      refine Visits.notMem hv hbs fun h => hother j hij.symm ?_
      rw [hjtail, htail, ← h, getLast?_concat]
    obtain ⟨m', hset, hkeep, hfr, hv2⟩ := hv.link hbs hab
    rw [append, if_neg hhead, htail, hset]
    refine hi.call ⟨nodes ++ [a] ++ (bs ++ [b]), hv2, ?_, ?_⟩ ?_ fun k hk cs hcs ht _ c hc => hkeep c fun h => ?_
    · rw [hjtail, ← append_assoc, getLast?_concat]
    · show ((s.lists i).size + (s.lists j).size).toNat = _
      rw [UInt32.toNat_add, Nat.mod_eq_of_lt hsize, hlength, hjlength, length_append]
    · intro c hc
      rw [hfr] at hc
      refine (hkeep c fun h => ?_).trans (hi.fresh c hc)
      obtain ⟨x, hx⟩ := hv.end
      rw [← h, hi.fresh c hc] at hx
      cases hx
    · exact Visits.notMem hv hcs (fun h => hother k hk (ht.trans (h.trans htail.symm))) (h ▸ hc)

theorem advanceHead_inv (hi : Inv s r) (hok : Safe s (.advanceHead i)) :
    ∃ s', step s (.advanceHead i) = some s' ∧ Inv s' (next r (.advanceHead i)) := by
  obtain ⟨hhead, hok⟩ := hok
  show ∃ s', s.call i (advanceHead s.memory (s.lists i)) = some s' ∧ _
  obtain ⟨nodes, hv, ht, hs⟩ := hi.holds i
  cases nodes with
  | nil => exact absurd hv.1 hhead
  | cons a nodes =>
    obtain ⟨hp, e, l, he, hl, hrest⟩ := id hv
    cases nodes with
    | nil =>
      obtain ⟨hnone, rfl⟩ := hrest
      have hadvance : advanceHead s.memory (s.lists i) = some (s.memory, s.lists i) := by
        simp [advanceHead, hp, Memory.getNext, he, hnone]
      rw [hadvance, next, hl, if_pos (by simp)]
      exact hi.call ⟨[a], hl ▸ hv, ht, hl ▸ hs⟩ hi.fresh fun _ _ _ _ _ _ _ _ => rfl
    | cons b nodes =>
      have hnext : e.next = some b := hrest.1
      have hadvance : advanceHead s.memory (s.lists i) =
          some (s.memory.delete a, { s.lists i with head := some b, size := (s.lists i).size - 1 }) := by
        simp [advanceHead, hp, Memory.getNext, he, hnext]
      have hlength : l.length = nodes.length + 1 := hrest.length.symm
      have hsize : (s.lists i).size.toNat = nodes.length + 2 := by rw [hs, hl, length_cons, hlength]
      have hkept : ∀ c, c ≠ a → (s.memory.delete a).node c = s.memory.node c := fun c hc => update_of_ne hc _ _
      rw [hadvance, next, hl, if_neg (by simp [hlength])]
      refine hi.call ⟨b :: nodes, ?_, ?_, ?_⟩ ?_ fun k hk cs hcs hkt hks c hc => hkept c fun h => ?_
      · rw [hnext] at hrest
        exact hrest.congr fun c hc => hkept c fun h => (nodup_cons.mp hv.nodup).1 (h ▸ hc)
      · exact ht.trans getLast?_cons_cons
      · show ((s.lists i).size - 1).toNat = l.length
        have hone : (1 : UInt32) ≤ (s.lists i).size := UInt32.le_iff_toNat_le.mpr (by simp [hsize])
        rw [UInt32.toNat_sub_of_le _ _ hone, hsize, hlength]
        rfl
      · intro c hc
        by_cases hca : c = a
        · simp [Memory.delete, hca]
        · exact (hkept c hca).trans (hi.fresh c hc)
      · rcases hok with hone | hok
        · rw [hone] at hsize
          simp at hsize
        · refine hok k hk a hp ?_
          rw [hi.walk hcs]
          exact h ▸ hc

theorem clear_inv (hi : Inv s r) (hok : Safe s (.clear i)) : ∃ s', step s (.clear i) = some s' ∧ Inv s' (next r (.clear i)) := by
  obtain ⟨-, hzero, -⟩ := (hi.holds i).head_none hok
  have hclear : clear s.memory (s.lists i) = some (s.memory, { s.lists i with head := none, tail := none }) := by
    rw [clear, show (s.lists i).head = none from hok]
    cases s.memory.fresh <;> rfl
  show ∃ s', s.call i (clear s.memory (s.lists i)) = some s' ∧ _
  rw [hclear]
  exact hi.call ⟨[], ⟨rfl, rfl⟩, rfl, by rw [hzero]; rfl⟩ hi.fresh fun _ _ _ _ _ _ _ _ => rfl

theorem disown_inv (hi : Inv s r) : ∃ s', step s (.disown i) = some s' ∧ Inv s' (next r (.disown i)) :=
  hi.call ⟨[], ⟨rfl, rfl⟩, rfl, rfl⟩ hi.fresh fun _ _ _ _ _ _ _ _ => rfl

theorem step_inv {e : Ev n T} (hi : Inv s r) (hok : Safe s e) : ∃ s', step s e = some s' ∧ Inv s' (next r e) := by
  cases e with
  | addEntry i data => exact addEntry_inv hi hok
  | append i j => exact append_inv hi hok
  | advanceHead i => exact advanceHead_inv hi hok
  | clear i => exact clear_inv hi hok
  | disown i => exact disown_inv hi

/-! ## Every other call -/

/-- A list whose last node is linked on no longer holds what it held. -/
theorem Holds.not_linked {m' : Memory T} {l' : QuickList} {b : Nat} {nodes : List Nat}
    (hv : Visits m l.head (nodes ++ [a]) entries) (hs : m.setNext (some a) (some b) = some m') (hl : l'.head = l.head) :
    ¬Holds m' l' entries := by
  rintro ⟨cs, hcs, -, -⟩
  rw [hl] at hcs
  obtain ⟨ds, _, rfl, hds⟩ := hv.onward hs hcs
  cases ds with
  | nil => cases hds.1
  | cons d ds =>
    have hlength := hv.length.trans hcs.length.symm
    simp only [length_append, length_cons, length_nil] at hlength
    omega

theorem Holds.size_lt (h : Holds m l entries) : entries.length < 2 ^ 32 := by
  obtain ⟨_, -, -, hs⟩ := h
  rw [← hs]
  exact UInt32.toNat_lt l.size

theorem Holds.size_eq (h : Holds m l entries) : l.size.toNat = entries.length := by
  obtain ⟨_, -, -, hs⟩ := h
  exact hs

variable {s' : St n T}

theorem call_eq_some {c : Option (Memory T × QuickList)} (h : s.call i c = some s') :
    ∃ m l, c = some (m, l) ∧ s'.memory = m ∧ s'.lists i = l ∧ ∀ k, k ≠ i → s'.lists k = s.lists k := by
  obtain ⟨⟨m, l⟩, hc, rfl⟩ := map_eq_some_iff.mp h
  exact ⟨m, l, hc, rfl, update_self _ _ _, fun k hk => update_of_ne hk _ _⟩

theorem addEntry_safe (hi : Inv s r) {data : T} (h : step s (.addEntry i data) = some s')
    (hp : ∀ k, Holds s'.memory (s'.lists k) (next r (.addEntry i data) k)) : Safe s (.addEntry i data) := by
  have hpi := hp i
  rw [next, update_self] at hpi
  refine ⟨?_, ?_⟩
  · have hlt := hpi.size_lt
    rw [length_append] at hlt
    rw [(hi.holds i).size_eq]
    exact hlt
  · by_cases hhead : (s.lists i).head = none
    · exact .inl hhead
    · refine .inr fun k hk hkt => ?_
      obtain ⟨nodes, a, hv, htail, -⟩ := (hi.holds i).head_some hhead
      obtain ⟨cs, hcs⟩ := (hi.holds k).tail_some (hkt.trans htail)
      obtain ⟨m, l, hadd, rfl, -, hother⟩ := call_eq_some h
      have hnew : ∀ {as l p}, Visits s.memory p as l → Visits (s.memory.new data) p as l := by
        intro as l p hv
        refine hv.congr fun b hb => update_of_ne (fun hbf => ?_) _ _
        obtain ⟨e, he⟩ := hv.node hb
        cases (hi.fresh b (Nat.le_of_eq hbf.symm)).symm.trans he
      have hane : a ≠ s.memory.fresh := fun haf => by
        obtain ⟨x, hx⟩ := hv.end
        cases (hi.fresh a (Nat.le_of_eq haf.symm)).symm.trans hx
      have hset : (s.memory.new data).setNext (some a) (some s.memory.fresh) = some s'.memory := by
        simp only [addEntry, hhead, htail, hane, if_false, some.injEq, map_eq_some_iff, Prod.mk.injEq] at hadd
        obtain ⟨m, hm, rfl, -⟩ := hadd
        exact hm
      have hpk := hp k
      rw [next, update_of_ne hk, hother k hk] at hpk
      exact Holds.not_linked (hnew hcs) hset rfl hpk

theorem append_safe (hi : Inv s r) {j : Fin n} (h : step s (.append i j) = some s')
    (hp : ∀ k, Holds s'.memory (s'.lists k) (next r (.append i j) k)) : Safe s (.append i j) := by
  by_cases hhead : (s.lists i).head = none
  · exact .inl hhead
  · obtain ⟨nodes, a, hv, htail, -⟩ := (hi.holds i).head_some hhead
    obtain ⟨m, l, happend, rfl, hl, hother⟩ := call_eq_some h
    have hpi := hp i
    rw [next, update_self, hl] at hpi
    rw [append, if_neg hhead, htail] at happend
    obtain ⟨m, hset, hml⟩ := map_eq_some_iff.mp happend
    obtain ⟨rfl, rfl⟩ := Prod.mk.inj hml
    have hjhead : (s.lists j).head ≠ none := by
      intro hj
      obtain ⟨cs, hcs, hct, -⟩ := hpi
      rw [((hi.holds j).head_none hj).1] at hct
      rw [getLast?_eq_none_iff.mp hct.symm] at hcs
      exact hhead hcs.1
    obtain ⟨b, hb⟩ := Option.ne_none_iff_exists'.mp hjhead
    rw [hb] at hset
    refine .inr ⟨?_, hjhead, ?_, fun k hk hkt => ?_⟩
    · -- behind its own last node the list would begin again
      rintro rfl
      obtain ⟨cs, hcs, -, -⟩ := hpi
      obtain ⟨ds, _, rfl, hds⟩ := hv.onward hset hcs
      have hlength := congrArg List.length (hcs.unique (hb ▸ hds))
      simp only [length_append, length_cons] at hlength
      omega
    · have hlt := hpi.size_lt
      rwa [length_append, ← (hi.holds i).size_eq, ← (hi.holds j).size_eq] at hlt
    · obtain ⟨cs, hcs⟩ := (hi.holds k).tail_some (hkt.trans htail)
      have hpk := hp k
      rw [next, update_of_ne hk, hother k hk] at hpk
      exact Holds.not_linked hcs hset rfl hpk

theorem advanceHead_safe (hi : Inv s r) (h : step s (.advanceHead i) = some s')
    (hp : ∀ k, Holds s'.memory (s'.lists k) (next r (.advanceHead i) k)) : Safe s (.advanceHead i) := by
  obtain ⟨m, l, hadvance, rfl, -, hother⟩ := call_eq_some h
  obtain ⟨nodes, hv, ht, hs⟩ := hi.holds i
  cases nodes with
  | nil =>
    rw [advanceHead, hv.1] at hadvance
    cases hadvance
  | cons a nodes =>
    obtain ⟨hhead, e, l2, he, hl, hrest⟩ := id hv
    refine ⟨by simp [hhead], ?_⟩
    cases nodes with
    | nil =>
      refine .inl (UInt32.toNat_inj.mp ?_)
      rw [hs, ← hv.length]
      rfl
    | cons b nodes =>
      refine .inr fun k hk c hc hck => ?_
      obtain rfl := some.inj (hhead.symm.trans hc)
      obtain ⟨cs, hcs, -, -⟩ := hi.holds k
      rw [hi.walk hcs] at hck
      obtain ⟨u, v, rfl⟩ := append_of_mem hck
      have hdelete : s'.memory = s.memory.delete a := by
        simp only [advanceHead, hhead, Memory.getNext, he, hrest.1, bind_eq_bind, bind_some, map_some,
          some.injEq, Prod.mk.injEq] at hadvance
        exact hadvance.1.symm
      have hpk := hp k
      rw [next, update_of_ne hk, hother k hk, hdelete] at hpk
      obtain ⟨ds, hds, -, -⟩ := hpk
      have hnodup := nodup_append.mp hcs.nodup
      obtain ⟨_, es, _, _, -, ⟨rfl, -⟩, h2⟩ := hcs.follow
        (fun d hd => update_of_ne (hnodup.2.2 d hd a mem_cons_self) _ _) hds
      cases es with
      | nil => cases h2.1
      | cons d es =>
        obtain ⟨hd, _, _, hdnode, -⟩ := h2
        obtain rfl := some.inj hd
        simp [Memory.delete] at hdnode

theorem clear_safe (hi : Inv s r) (h : step s (.clear i) = some s')
    (hp : ∀ k, Holds s'.memory (s'.lists k) (next r (.clear i) k)) : Safe s (.clear i) := by
  obtain ⟨m, l, hclear, rfl, hl, -⟩ := call_eq_some h
  obtain ⟨_, -, hml⟩ := map_eq_some_iff.mp hclear
  obtain ⟨rfl, rfl⟩ := Prod.mk.inj hml
  have hsize := (hp i).size_eq
  rw [hl, next, update_self] at hsize
  -- the size is the one from before the call
  have hnil : r i = [] := eq_nil_of_length_eq_zero ((hi.holds i).size_eq.symm.trans hsize)
  obtain ⟨nodes, hv, -, -⟩ := hi.holds i
  rw [eq_nil_of_length_eq_zero (hv.length.trans (congrArg List.length hnil))] at hv
  exact hv.1

theorem safe_of_holds {e : Ev n T} (hi : Inv s r) (h : step s e = some s') (hp : ∀ k, Holds s'.memory (s'.lists k) (next r e k)) :
    Safe s e := by
  cases e with
  | addEntry i data => exact addEntry_safe hi h hp
  | append i j => exact append_safe hi h hp
  | advanceHead i => exact advanceHead_safe hi h hp
  | clear i => exact clear_safe hi h hp
  | disown i => trivial

end Calls

/-- All along a run every list holds what was added to it and not yet advanced past exactly if every call of the run is safe. -/
theorem lists_hold_iff (es : List (Ev n T)) :
    (∀ l, l <+: es → ∃ s, exec step init l = some s ∧ ∀ i, Holds s.memory (s.lists i) (l.foldl next (fun _ => []) i)) ↔
      Meets step Safe init es := by
  have hmeets : ∀ {s : St n T} {r : Fin n → List T} {e : Ev n T}, Inv s r → Safe s e → ∃ s', step s e = some s' ∧ Inv s' (next r e) :=
    step_inv
  have hsafe : ∀ {s s' : St n T} {r : Fin n → List T} {e : Ev n T}, Inv s r → step s e = some s' →
      (∀ k, Holds s'.memory (s'.lists k) (next r e k)) → Safe s e := safe_of_holds
  exact meets_iff (R := Inv) (P := fun s r => ∀ i, Holds s.memory (s.lists i) (r i)) (fun hi => hi.holds) @hmeets @hsafe init_inv es

end DeepFabric.Distributed.QuickLists
