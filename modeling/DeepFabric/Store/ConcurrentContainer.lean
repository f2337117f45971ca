/-
  DeepFabric.Store.ConcurrentContainer — a bounded table of contexts by thread identifier
  (util/ConcurrentContainer.h).

  A hash map that is never made anew (the fixed flag), for twice as many elements as the container is made
  for. An element knows the identifier that it was added under last, and is removed by it.

  As built a slot that was used is never a free one again, so a table without an element can have no slot that
  ends a search (`used_up`); and what took the place of an element is removed with that element.
-/
import DeepFabric.Lib.Run
import DeepFabric.Platform.HashCalls
import DeepFabric.Platform.HashCoverage

namespace DeepFabric.Store.ConcurrentContainers

open DeepFabric.Lib.Run Option
open DeepFabric.Platform.Hash (HashMap Slot Filled Place resizeFactor found)
open DeepFabric.Platform

/-- `Converter<longtype>::hashCode`. -/
def hashCode (o : BitVec 64) : BitVec 32 := (o ^^^ o.sshiftRight 32).setWidth 32

structure ConcurrentContainer (E : Type) where
  instances : HashMap (BitVec 64) E
  /-- What getInstance returns of an element. -/
  getInstance : E → BitVec 64

namespace ConcurrentContainer

variable {E : Type} [DecidableEq E]

/-- The constructor; the product is an int. -/
def new (capacity : Int) : Option (ConcurrentContainer E) :=
  (Hash.new hashCode ((capacity * resizeFactor).bmod (2 ^ 32)) true).map fun instances => ⟨instances, fun _ => -1⟩

def instance_ (s : ConcurrentContainer E) (id : BitVec 64) : Option (Option E) := (Hash.get hashCode s.instances id).map (·.map (·.2))

def add (s : ConcurrentContainer E) (element : E) (id : BitVec 64) : Option (ConcurrentContainer E × Bool) :=
  if s.instances.entries ≥ s.instances.capacity then some (s, false)
  else do
    let (instances, _) ← Hash.put hashCode s.instances id element
    some (⟨instances, fun e => if e = element then id else s.getInstance e⟩, true)

def remove (s : ConcurrentContainer E) (element : E) : Option (ConcurrentContainer E) := do
  let (instances, _) ← Hash.remove hashCode s.instances (s.getInstance element)
  some { s with instances := instances }

end ConcurrentContainer

inductive Call (E : Type) where
  | add (element : E) (id : BitVec 64)
  | remove (element : E)
  | instance_ (id : BitVec 64)

inductive Answer (E : Type) where
  | added (b : Bool)
  | element (e : Option E)
  | done
  deriving DecidableEq

/-- What was added last and not removed since, in a table for so many elements. -/
structure Contents (E : Type) where
  capacity : Nat
  live : List (BitVec 64 × E)

section

variable {E : Type} [DecidableEq E]

/-- The container after a call, and the call's answer; nothing if the call never ends. -/
def step (s : ConcurrentContainer E × Answer E) : Call E → Option (ConcurrentContainer E × Answer E)
  | .add element id => (s.1.add element id).map fun r => (r.1, .added r.2)
  | .remove element => (s.1.remove element).map fun r => (r, .done)
  | .instance_ id => (s.1.instance_ id).map fun e => (s.1, .element e)

def next (r : Contents E × Answer E) : Call E → Contents E × Answer E
  | .add element id =>
    if r.1.capacity ≤ r.1.live.length then (r.1, .added false)
    else ({ r.1 with live := r.1.live.filter (·.1 ≠ id) ++ [(id, element)] }, .added true)
  | .remove element => ({ r.1 with live := r.1.live.filter (·.2 ≠ element) }, .done)
  | .instance_ id => (r.1, .element ((r.1.live.find? (·.1 = id)).map (·.2)))

/-- A search for the identifier finds its entry, or a slot that was never used. -/
def Ends (s : ConcurrentContainer E) (id : BitVec 64) : Prop := ∀ slots ∈ s.instances.table, ∃ p ∈ slots, p.stops id true = true

/-- The element is what its identifier stands for, if anything, and no other identifier does. -/
def Own (s : ConcurrentContainer E) (element : E) : Prop :=
  ∀ slots ∈ s.instances.table, ∀ p ∈ slots, ∀ id e, p = .entry id e → (id = s.getInstance element ↔ e = element)

/-- The condition on a call. -/
def Ok (s : ConcurrentContainer E × Answer E) : Call E → Prop
  | .add _ id => s.1.instances.entries < s.1.instances.capacity → Ends s.1 id
  | .remove element => Ends s.1 (s.1.getInstance element) ∧ Own s.1 element
  | .instance_ id => Ends s.1 id

/-- A container that has just been made, and was not called. -/
def start (s : ConcurrentContainer E) : ConcurrentContainer E × Answer E := (s, .done)

end

/-! ## As built -/

/-- A container for one element, whose table has four slots. Four elements come and go, each under an identifier of its
own; then nothing is in the table, and a search for a fifth identifier never ends. -/
theorem used_up : ((ConcurrentContainer.new 1).bind fun s : ConcurrentContainer Nat =>
      exec step (start s) [.add 10 0, .remove 10, .add 11 1, .remove 11, .add 12 2, .remove 12, .add 13 3, .remove 13]).any
    (fun s => s.1.instances.entries = 0 ∧ (step s (.instance_ 4)).isNone) = true := by decide +kernel

/-- What took the place of an element is removed with it. -/
example : ((ConcurrentContainer.new 1).bind fun s : ConcurrentContainer Nat =>
      exec step (start s) [.add 10 1, .add 11 1, .remove 10, .instance_ 1]).map (·.2) = some (.element none) := by decide +kernel

/-! ## A map that is never made anew -/

section Fixed

variable {K V : Type} [DecidableEq K] {hash : K → BitVec 32} {s : HashMap K V} {ref : Finmap fun _ : K => V} {m : Nat}
  {slots : List (Slot K V)} {key : K} (h : Filled hash s ref m slots) (hfixed : s.fixed = true)
  (hstop : ∃ p ∈ slots, p.stops key true = true)

include h hstop

theorem get_fixed : Hash.get hash s key = some (found ref key) := by
  obtain ⟨i, p, hget, hat, hp⟩ := h.search_of_stops hstop
  rw [Hash.get_at h.table hget hat, found]
  rcases hp with ⟨w, hw, rfl⟩ | ⟨hnone, rfl⟩
  · rw [hw]
    rfl
  · rw [hnone]
    rfl

include hfixed

theorem put_fixed (val : V) : ∃ s' slots', Hash.put hash s key val = some (s', found ref key) ∧
    Filled hash s' (ref.insert key val) m slots' ∧ s'.fixed = true ∧ s'.capacity = s.capacity ∧ s'.size = s.size := by
  obtain ⟨i, p, hp, hfind⟩ := h.find_place hstop
  have hindex : Hash.putIndex hash s key = some (s, i) := by
    rw [Hash.putIndex, if_neg (fun hneed => by rw [hfixed] at hneed; cases hneed.2), ← hfind]
    rfl
  have hput := Hash.put_at (by rw [h.table]; rfl) hindex h.table hp.1 val
  rw [hput, Hash.toEntry_of_place hp]
  exact ⟨_, _, rfl, h.set_entry hp val rfl rfl rfl rfl rfl, hfixed, rfl, rfl⟩

theorem remove_fixed : ∃ s' slots', Hash.remove hash s key = some (s', found ref key) ∧
    Filled hash s' (ref.erase key) m slots' ∧ s'.fixed = true ∧ s'.capacity = s.capacity ∧ s'.size = s.size := by
  obtain ⟨i, p, hget, hat, hp⟩ := h.search_of_stops hstop
  have hremove {s1 : HashMap K V} (hs1 : s1 = if p.isEntry then Hash.emptied s slots i else s) (hfixed1 : s1.fixed = true) :
      Hash.remove hash s key = some (s1, p.toEntry) := by
    rw [Hash.remove_at h.table hget hat hs1, if_neg (fun hfew => by rw [hfixed1] at hfew; cases hfew.2), map_some]
  rcases hp with ⟨w, hw, rfl⟩ | ⟨hnone, rfl⟩
  · refine ⟨Hash.emptied s slots i, _, ?_, h.set_reserve hat rfl rfl rfl rfl (Nat.le_succ _), hfixed, rfl, rfl⟩
    rw [@hremove (Hash.emptied s slots i) rfl hfixed, found, hw]
    rfl
  · have herase : ref.erase key = ref := Finmap.ext_lookup fun k => by
      by_cases hk : k = key
      · rw [hk, Finmap.lookup_erase, hnone]
      · rw [Finmap.lookup_erase_ne hk]
    refine ⟨s, slots, ?_, herase.symm ▸ h, hfixed, rfl, rfl⟩
    rw [@hremove s rfl hfixed, found, hnone]
    rfl

end Fixed

/-- A fixed map that has just been made: without a table, with a table that has no slot, or with a table. -/
theorem new_fixed {K V : Type} [DecidableEq K] {hash : K → BitVec 32} {cap : Int} {s : HashMap K V} (h : Hash.new hash cap true = some s) :
    s.fixed = true ∧ s.entries = 0 ∧ (s.table = none ∧ s.capacity = 0 ∨ s.table = some [] ∧ 0 < s.capacity ∨
      ∃ m slots, Filled hash s ∅ m slots) := by
  by_cases hzero : cap = 0
  · rw [Hash.new, if_neg (not_not_intro hzero)] at h
    cases h
    exact ⟨rfl, rfl, .inl ⟨rfl, rfl⟩⟩
  rw [Hash.new, if_pos hzero] at h
  obtain ⟨s1, hresize, rfl⟩ := map_eq_some_iff.mp h
  by_cases hlt : cap < 2 ^ 27
  · obtain ⟨s', m, slots, hresize', hs', -⟩ := @Hash.resize_spec K V _ hash ⟨0, 0, 0, 0, 0, false, none⟩ ∅ [] rfl rfl
      Hash.distinct_nil Hash.contents_nil cap hlt (.inl rfl)
    cases hresize.symm.trans hresize'
    exact ⟨rfl, by rw [hs'.card, Finmap.keys_empty, Finset.card_empty], .inr (.inr ⟨m, slots, { hs' with }⟩)⟩
  · rw [Hash.resize] at hresize
    split at hresize
    · cases hresize
      exact ⟨rfl, rfl, .inl ⟨rfl, rfl⟩⟩
    · next size poly hsize =>
      have hlarge : ∀ p ∈ Hash.polys.zipIdx.map fun p => (4 <<< p.2, p.1), p.1 ≤ 2 ^ 27 ∨ Hash.toInt (p.1 * 8) ≤ 0 ∧ 0 < p.1 := by decide
      have hover := List.find?_some hsize
      simp only [decide_eq_true_eq] at hover
      obtain ⟨hle, hpos⟩ := (hlarge _ (List.mem_of_find?_eq_some hsize)).resolve_left (by omega)
      obtain ⟨table, hmalloc, hrun⟩ := bind_eq_some_iff.mp hresize
      rw [Hash.malloc] at hmalloc
      split at hmalloc
      · cases hmalloc
      · next hneg =>
        have hzero : (Hash.toInt (size * 8) / 8).toNat = 0 := by
          have : Hash.toInt (size * 8) ≤ 0 := hle
          omega
        rw [hzero] at hmalloc
        cases hmalloc
        cases hrun
        exact ⟨rfl, rfl, .inr (.inl ⟨rfl, hpos⟩)⟩

/-! ## The contents -/

section

variable {E : Type}

/-- What the table has under the identifier. -/
def Stands (s : ConcurrentContainer E) (id : BitVec 64) (e : E) : Prop := ∃ slots ∈ s.instances.table, .entry id e ∈ slots

/-- The answer is right, and so is what the table has. -/
structure Right (s : ConcurrentContainer E × Answer E) (r : Contents E × Answer E) : Prop where
  answer : s.2 = r.2
  entries : s.1.instances.entries = r.1.live.length
  stands : ∀ id e, Stands s.1 id e ↔ (id, e) ∈ r.1.live

/-- The table is that of a finite map, unless there is none or it has no slot. -/
structure Inv (s : ConcurrentContainer E × Answer E) (r : Contents E × Answer E) : Prop where
  answer : s.2 = r.2
  fixed : s.1.instances.fixed = true
  capacity : r.1.capacity = s.1.instances.capacity
  nodup : (r.1.live.map (·.1)).Nodup
  entries : s.1.instances.entries = r.1.live.length
  table : (s.1.instances.table = none ∧ s.1.instances.capacity = 0 ∨ s.1.instances.table = some [] ∧ 0 < s.1.instances.capacity) ∧ r.1.live = [] ∨
    ∃ ref m slots, Filled hashCode s.1.instances ref m slots ∧ ∀ id e, ref.lookup id = some e ↔ (id, e) ∈ r.1.live

theorem card_keys {ref : Finmap fun _ : BitVec 64 => E} {live : List (BitVec 64 × E)} (hnodup : (live.map (·.1)).Nodup)
    (hlive : ∀ id e, ref.lookup id = some e ↔ (id, e) ∈ live) : ref.keys.card = live.length := by
  have hkeys : ref.keys = (live.map (·.1)).toFinset := Finset.ext fun id => by
    rw [Finmap.mem_keys, Finmap.mem_iff, List.mem_toFinset, List.mem_map]
    exact ⟨fun ⟨e, he⟩ => ⟨(id, e), (hlive id e).mp he, rfl⟩, fun ⟨x, hx, heq⟩ => ⟨x.2, heq ▸ (hlive x.1 x.2).mpr hx⟩⟩
  rw [hkeys, List.toFinset_card_of_nodup hnodup, List.length_map]

variable {s : ConcurrentContainer E × Answer E} {r : Contents E × Answer E}

theorem Inv.right (h : Inv s r) : Right s r := by
  refine ⟨h.answer, h.entries, fun id e => ?_⟩
  rcases h.table with ⟨htable, hlive⟩ | ⟨ref, m, slots, hs, hlive⟩
  · rw [hlive]
    refine ⟨fun ⟨slots, hslots, he⟩ => ?_, fun he => by cases he⟩
    rcases htable with ⟨htable, -⟩ | ⟨htable, -⟩ <;> rw [htable] at hslots <;> cases hslots
    cases he
  · rw [← hlive, hs.contents]
    refine ⟨fun ⟨slots', hslots, he⟩ => ?_, fun he => ⟨slots, hs.table, he⟩⟩
    cases hs.table.symm.trans hslots
    exact he

theorem find_live {ref : Finmap fun _ : BitVec 64 => E} {live : List (BitVec 64 × E)}
    (hlive : ∀ id e, ref.lookup id = some e ↔ (id, e) ∈ live) (id : BitVec 64) :
    (live.find? (·.1 = id)).map (·.2) = ref.lookup id := by
  cases hfind : live.find? (·.1 = id) with
  | none =>
    refine (eq_none_iff_forall_ne_some.mpr fun e he => ?_).symm
    have hne := List.find?_eq_none.mp hfind _ ((hlive id e).mp he)
    exact hne (decide_eq_true rfl)
  | some x =>
    have hid : x.1 = id := of_decide_eq_true (@List.find?_some _ (fun x : BitVec 64 × E => decide (x.1 = id)) _ _ hfind)
    exact ((hlive id x.2).mpr (hid ▸ List.mem_of_find?_eq_some hfind)).symm

theorem Inv.ends (h : Inv s r) {id : BitVec 64}
    (hget : (Hash.getIndex hashCode s.1.instances id true).isSome) : Ends s.1 id := by
  intro slots hslots
  rcases h.table with ⟨⟨htable, -⟩ | ⟨htable, -⟩, -⟩ | ⟨ref, m, slots', hs, -⟩
  · cases htable.symm.trans hslots
  · rw [Hash.getIndex, htable] at hget
    cases hget
  · cases hs.table.symm.trans hslots
    exact (Hash.getIndex_ends_iff hs.toTabled id true).mp hget

theorem new_inv {capacity : Int} {s : ConcurrentContainer E} (h : ConcurrentContainer.new capacity = some s) :
    Inv (start s) (⟨s.instances.capacity, []⟩, .done) := by
  obtain ⟨instances, hnew, rfl⟩ := map_eq_some_iff.mp h
  obtain ⟨hfixed, hentries, htable⟩ := new_fixed hnew
  refine ⟨rfl, hfixed, rfl, List.nodup_nil, hentries, ?_⟩
  rcases htable with htable | htable | ⟨m, slots, hs⟩
  · exact .inl ⟨.inl htable, rfl⟩
  · exact .inl ⟨.inr htable, rfl⟩
  · exact .inr ⟨∅, m, slots, hs, fun id e => by rw [Finmap.lookup_empty]; simp⟩

variable [DecidableEq E]

theorem step_inv {c : Call E} (h : Inv s r) (hok : Ok s c) :
    ∃ s', step s c = some s' ∧ Inv s' (next r c) := by
  cases c with
  | add element id =>
    by_cases hfull : s.1.instances.entries ≥ s.1.instances.capacity
    · refine ⟨(s.1, .added false), by rw [step, ConcurrentContainer.add, if_pos hfull]; rfl, ?_⟩
      rw [next, if_pos (by rw [h.capacity, ← h.entries]; exact hfull)]
      exact { h with answer := rfl }
    · have hends := hok (Nat.lt_of_not_le hfull)
      rcases h.table with ⟨⟨-, hcap⟩ | ⟨htable, -⟩, -⟩ | ⟨ref, m, slots, hs, hlive⟩
      · omega
      · obtain ⟨p, hp, -⟩ := hends [] htable
        cases hp
      · obtain ⟨s', slots', hput, hs', hfixed, hcap, -⟩ := put_fixed hs h.fixed (hends slots hs.table) element
        refine ⟨(⟨s', fun e => if e = element then id else s.1.getInstance e⟩, .added true), ?_, ?_⟩
        · rw [step, ConcurrentContainer.add, if_neg hfull, hput]
          rfl
        · rw [next, if_neg (by rw [h.capacity, ← h.entries]; exact hfull)]
          have hlive' (k : BitVec 64) (e : E) : (ref.insert id element).lookup k = some e ↔
              (k, e) ∈ r.1.live.filter (·.1 ≠ id) ++ [(id, element)] := by
            by_cases hk : k = id
            · rw [hk, Finmap.lookup_insert]
              simp [eq_comm]
            · rw [Finmap.lookup_insert_of_ne _ hk, hlive]
              simp [hk]
          have hnodup : ((r.1.live.filter (·.1 ≠ id) ++ [(id, element)]).map (·.1)).Nodup := by
            rw [List.map_append, List.nodup_append]
            refine ⟨h.nodup.sublist (List.filter_sublist.map _), by simp, ?_⟩
            simp +contextual
          exact ⟨rfl, hfixed, h.capacity.trans hcap.symm, hnodup, hs'.card.trans (card_keys hnodup hlive'), .inr ⟨_, m, slots', hs', hlive'⟩⟩
  | remove element =>
    obtain ⟨hends, hown⟩ := hok
    rcases h.table with ⟨htable, hlive⟩ | ⟨ref, m, slots, hs, hlive⟩
    · rcases htable with ⟨htable, -⟩ | ⟨htable, -⟩
      · refine ⟨(s.1, .done), by rw [step, ConcurrentContainer.remove, Hash.remove, htable]; rfl, ?_⟩
        have hnext : next r (.remove element) = (r.1, .done) := by
          rw [next, hlive, List.filter_nil, ← hlive]
        rw [hnext]
        exact { h with answer := rfl }
      · obtain ⟨p, hp, -⟩ := hends [] htable
        cases hp
    · obtain ⟨s', slots', hremove, hs', hfixed, hcap, -⟩ := remove_fixed hs h.fixed (hends slots hs.table)
      refine ⟨({ s.1 with instances := s' }, .done), by rw [step, ConcurrentContainer.remove, hremove]; rfl, ?_⟩
      have hlive' (k : BitVec 64) (e : E) : (ref.erase (s.1.getInstance element)).lookup k = some e ↔
          (k, e) ∈ r.1.live.filter (·.2 ≠ element) := by
        rw [List.mem_filter, ← hlive]
        by_cases hk : k = s.1.getInstance element
        · rw [hk, Finmap.lookup_erase]
          refine ⟨fun he => (by cases he), fun he => absurd ?_ (of_decide_eq_true he.2)⟩
          exact (hown slots hs.table _ ((hs.contents _ e).mp he.1) _ e rfl).mp rfl
        · rw [Finmap.lookup_erase_ne hk]
          refine ⟨fun he => ⟨he, decide_eq_true fun heq => hk ?_⟩, And.left⟩
          exact (hown slots hs.table _ ((hs.contents k e).mp he) k e rfl).mpr heq
      have hnodup : ((r.1.live.filter (·.2 ≠ element)).map (·.1)).Nodup := h.nodup.sublist (List.filter_sublist.map _)
      exact ⟨rfl, hfixed, h.capacity.trans hcap.symm, hnodup, hs'.card.trans (card_keys hnodup hlive'), .inr ⟨_, m, slots', hs', hlive'⟩⟩
  | instance_ id =>
    rcases h.table with ⟨htable, hlive⟩ | ⟨ref, m, slots, hs, hlive⟩
    · rcases htable with ⟨htable, -⟩ | ⟨htable, -⟩
      · refine ⟨(s.1, .element none), by rw [step, ConcurrentContainer.instance_, Hash.get, htable]; rfl, ?_⟩
        rw [next, hlive]
        exact { h with answer := rfl }
      · obtain ⟨p, hp, -⟩ := hok [] htable
        cases hp
    · refine ⟨(s.1, .element (ref.lookup id)), ?_, ?_⟩
      · rw [step, ConcurrentContainer.instance_, get_fixed hs (hok slots hs.table), found, map_some, map_some, map_map]
        exact congrArg (fun e => some (s.1, Answer.element e)) Option.map_id'
      · rw [next, find_live hlive]
        exact { h with answer := rfl }

theorem ok_of_right {s' : ConcurrentContainer E × Answer E} {c : Call E} (h : Inv s r)
    (hstep : step s c = some s') (hright : Right s' (next r c)) : Ok s c := by
  cases c with
  | add element id =>
    intro hroom
    obtain ⟨x, hadd, -⟩ := map_eq_some_iff.mp hstep
    rw [ConcurrentContainer.add, if_neg (Nat.not_le.mpr hroom)] at hadd
    obtain ⟨y, hput, -⟩ := bind_eq_some_iff.mp hadd
    refine fun slots hslots => h.ends ?_ slots hslots
    rw [Hash.put, show s.1.instances.table = some slots from hslots, if_neg (fun hnone => by cases hnone)] at hput
    obtain ⟨⟨s2, index⟩, hindex, -⟩ := bind_eq_some_iff.mp (show (Hash.putIndex hashCode s.1.instances id).bind _ = _ from hput)
    rw [Hash.putIndex, if_neg (fun hneed => by rw [h.fixed] at hneed; cases hneed.2)] at hindex
    obtain ⟨s3, hs3, hindex⟩ := bind_eq_some_iff.mp hindex
    cases hs3
    obtain ⟨i, hi, -⟩ := bind_eq_some_iff.mp hindex
    rw [hi]
    rfl
  | remove element =>
    obtain ⟨x, hx, rfl⟩ := map_eq_some_iff.mp hstep
    obtain ⟨⟨s1, y⟩, hremove, hx⟩ := bind_eq_some_iff.mp hx
    cases hx
    have hends : Ends s.1 (s.1.getInstance element) := by
      refine fun slots hslots => h.ends ?_ slots hslots
      rw [Hash.remove, show s.1.instances.table = some slots from hslots, if_neg (fun hnone => by cases hnone)] at hremove
      obtain ⟨i, hi, -⟩ := bind_eq_some_iff.mp hremove
      rw [hi]
      rfl
    refine ⟨hends, fun slots hslots p hp id e he => ?_⟩
    rcases h.table with ⟨⟨htable, -⟩ | ⟨htable, -⟩, -⟩ | ⟨ref, m, slots', hs, hlive⟩
    · cases htable.symm.trans hslots
    · cases htable.symm.trans hslots
      cases hp
    · cases hs.table.symm.trans hslots
      obtain ⟨s'', slots'', hremove', hs'', -⟩ := remove_fixed hs h.fixed (hends slots hs.table)
      cases hremove.symm.trans hremove'
      have hkept := (hright.stands id e).symm.trans ⟨fun hstands => by
        obtain ⟨slots3, hslots3, hmem⟩ := hstands
        cases hs''.table.symm.trans hslots3
        exact (hs''.contents id e).mpr hmem, fun hmem => ⟨slots'', hs''.table, (hs''.contents id e).mp hmem⟩⟩
      have hmem : (id, e) ∈ r.1.live := (hlive id e).mp ((hs.contents id e).mpr (he ▸ hp))
      rw [next, List.mem_filter] at hkept
      by_cases hid : id = s.1.getInstance element
      · rw [hid, Finmap.lookup_erase] at hkept
        refine iff_of_true hid (by_contra fun hne => ?_)
        have := hkept.mp ⟨hid ▸ hmem, decide_eq_true hne⟩
        cases this
      · rw [Finmap.lookup_erase_ne hid] at hkept
        exact iff_of_false hid (of_decide_eq_true (hkept.mpr ((hlive id e).mpr hmem)).2)
  | instance_ id =>
    refine fun slots hslots => h.ends ?_ slots hslots
    obtain ⟨x, hinst, -⟩ := map_eq_some_iff.mp hstep
    obtain ⟨y, hget, -⟩ := map_eq_some_iff.mp hinst
    rw [Hash.get, show s.1.instances.table = some slots from hslots, if_neg (fun hnone => by cases hnone)] at hget
    obtain ⟨i, hi, -⟩ := bind_eq_some_iff.mp hget
    rw [hi]
    rfl

/-- A container that can be made answers as what was added last and not removed since, call after call, and has that
in its table, exactly if each call's search can end, and removes what is its own. -/
theorem container_holds_iff (capacity : Int) (calls : List (Call E)) :
    (∃ s, ConcurrentContainer.new capacity = some s ∧
      ∀ l, l <+: calls → ∃ s', exec step (start s) l = some s' ∧ Right s' (l.foldl next (⟨s.instances.capacity, []⟩, .done))) ↔
    ∃ s, ConcurrentContainer.new capacity = some s ∧ Meets step Ok (start s) calls :=
  exists_congr fun _ => and_congr_right fun h =>
    @meets_iff _ _ step Ok _ next Inv Right Inv.right step_inv ok_of_right _ _ (new_inv h) calls

end

end DeepFabric.Store.ConcurrentContainers
