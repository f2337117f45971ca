/-
  DeepFabric.Store.Purge — a segment that is purged and filled again
  (core/RealTimeMap.cxx: purgeSegment, fillSegment, fillSetupSegment, indexSegment;
  core/RealTimeProtocol_v1_1.h: WriteKeyPaging::TransientState), for a primary segment, with no open
  transactions and no checkpoint.

  A purge of a clean segment leaves its first entry in memory. A semi purge of a dirty one drops the
  entries that are indexed, not deleted and without older versions, and leaves the first; it does
  nothing while the first entry is deleted or has older versions. What was dropped comes back from
  the index blocks when the segment is filled. Commits fill it first, but for an insert of a
  reserved key, which is new and needs no lookup. A rebuild begins with a fill. A key below the
  first entry belongs to another segment.

  A delta takes a deleted entry out of memory and then starts over as a rebuild. If the segment was
  semi purged, the fill it begins with finds the key in the blocks.

  - `deleted_comes_back`: a key that is deleted, with a semi purge before the next index cycle.
-/
import DeepFabric.Store.KeyPaging

namespace DeepFabric.Store.Purge

open DeepFabric.Lib DeepFabric.Lib.Run KeyPaging Option
open SortedMap (eq_of_mem insertEntry insertEntry_sorted mem_of_insertEntry unique_of_sorted)

variable {K : Type} [LinearOrder K]

structure St (K : Type) where
  /-- With the entries in memory. -/
  paging : KeyPaging.St K
  /-- Index cycles so far, no fewer than there are blocks. -/
  cycles : Nat
  dirty : Bool
  isVirtual : Bool
  purged : Bool
  /-- The keys with older versions in their storyline. -/
  storied : List K
  /-- What was put and not deleted. -/
  reference : List (K × Locality)

def init : St K := ⟨KeyPaging.init, 0, false, false, false, [], []⟩

def entries (s : St K) : List (K × Entry) := s.paging.segment.entries

def holding (s : KeyPaging.St K) (es : List (K × Entry)) : KeyPaging.St K :=
  { s with segment := { s.segment with entries := es } }

def setEntries (s : St K) (es : List (K × Entry)) : St K := { s with paging := holding s.paging es }

def isPaged (s : St K) : Bool := s.paging.segment.pagingPosition ≠ 0

/-- An entry that is in memory stays, one that is read is indexed. -/
def fillEntry (memory : List (K × Entry)) (b : K × Locality) : K × Entry :=
  (b.1, ((memory.find? fun e => e.1 = b.1).map (·.2)).getD ⟨b.2, true, false⟩)

section Operations
variable (valueSize : Option Nat) (cardinality : Bool)

def fillSegment (s : St K) : Option (St K) :=
  (readKeyPagingIndex valueSize cardinality s.paging.irt s.cycles true (currentPagingIndex s.paging.segment)
    s.paging.segment.pagingPosition (binds (entries s))).map fun tree =>
      { setEntries s (tree.map (fillEntry (entries s))) with isVirtual := false, purged := false }

/-- fillSetupSegment for a caller that needs all keys. -/
def fillSetup (s : St K) : Option (St K) := if s.purged ∨ s.isVirtual then fillSegment valueSize cardinality s else some s

/-- Whether indexSegment decides for a rebuild. -/
def rebuilds (s : KeyPaging.St K) (fileIndex : Nat) (rebuild : Bool) : Bool :=
  rebuild || (decide (fileIndex ≠ currentPagingIndex s.segment) && !validPagingRange s.segment fileIndex)

def page (s : St K) (fileIndex position : Nat) (rebuild : Bool) (refs : Nat) : St K :=
  { s with
    paging := indexSegment valueSize s.paging fileIndex position rebuild refs
    cycles := s.cycles + 1
    dirty := false
    storied := [] }

/-- A rebuild begins with a fill, also one that a delta becomes. -/
def cycle (s : St K) (fileIndex position : Nat) (rebuild : Bool) (refs : Nat) : Option (St K) :=
  if rebuilds s.paging fileIndex rebuild then
    (fillSetup valueSize cardinality s).map fun s => page valueSize s fileIndex position true refs
  else
    match walkSegment valueSize false 0 .begin (entries s) with
    | .inl _ => some (page valueSize s fileIndex position false refs)
    | .inr [] => some (page valueSize (setEntries s []) fileIndex position true refs)
    | .inr rest =>
      (fillSetup valueSize cardinality (setEntries s rest)).map fun s => page valueSize s fileIndex position true refs

/-- The part of a commit that is on the segment. -/
def commit (s : St K) (e : KeyPaging.Ev K) (storied : List K) (reference : List (K × Locality)) : Option (St K) :=
  (KeyPaging.step valueSize s.paging e).map fun paging =>
    { s with paging := paging, dirty := s.dirty || isPaged s, storied := storied, reference := reference }

/-- The keys of the segment, in memory or not. -/
def vsize (s : St K) : Nat := s.reference.length + ((entries s).filter fun e => e.2.deleting).length

inductive Ev (K : Type) where
  /-- A committed insert or update. -/
  | put (key : K) (l : Locality)
  /-- A committed insert of a reserved key. -/
  | reserve (key : K) (l : Locality)
  | delete (key : K)
  | index (fileIndex position : Nat) (rebuild : Bool) (refs : Nat)
  | purge
  | semiPurge
  | fill
  deriving Repr

def step (s : St K) : Ev K → Option (St K)
  | .put key l =>
    if s.paging.segment.deleted = false ∧ (entries s).head?.all (fun e => e.1 ≤ key) then
      (fillSetup valueSize cardinality s).bind fun s =>
        commit valueSize s (.put key l) (if (entries s).any fun e => e.1 = key then key :: s.storied else s.storied)
          (insertEntry key { l with size := valueSize.getD l.size } s.reference)
    else none
  | .reserve key l =>
    if s.paging.segment.deleted = false ∧ (entries s).head?.all (fun e => e.1 ≤ key)
        ∧ s.reference.all (fun b => b.1 ≠ key) ∧ (entries s).all (fun e => e.1 ≠ key) ∧ vsize s < segmentMaximumSize then
      commit valueSize (if s.purged then { s with purged := false, isVirtual := true } else s) (.put key l) s.storied
        (insertEntry key { l with size := valueSize.getD l.size } s.reference)
    else none
  | .delete key =>
    if s.paging.segment.deleted = false then
      (fillSetup valueSize cardinality s).bind fun s =>
        commit valueSize s (.delete key) s.storied (s.reference.filter fun b => b.1 ≠ key)
    else none
  | .index fileIndex position rebuild refs =>
    if s.paging.segment.deleted = false ∧ entries s ≠ [] ∧ s.paging.length fileIndex ≤ position ∧ 0 < position
        ∧ refs ≤ maximumRefs then cycle valueSize cardinality s fileIndex position rebuild refs
    else none
  | .purge =>
    if s.paging.segment.deleted = false ∧ isPaged s ∧ s.purged = false ∧ s.dirty = false then
      some { setEntries s ((entries s).take 1) with purged := true }
    else none
  | .semiPurge =>
    match entries s with
    | [] => none
    | first :: rest =>
      if s.paging.segment.deleted = false ∧ isPaged s ∧ s.purged = false ∧ s.dirty ∧ first.2.deleting = false
          ∧ first.1 ∉ s.storied then
        let kept := rest.filter fun e => !(e.2.indexed && !e.2.deleting && decide (e.1 ∉ s.storied))
        some { setEntries s (first :: kept) with isVirtual := s.isVirtual || decide (kept ≠ rest) }
      else none
  | .fill => if s.paging.segment.deleted = false ∧ isPaged s then fillSegment valueSize cardinality s else none

end Operations

/-- Nothing has been dropped that is not back. -/
def IsFilled (s : St K) : Prop := s.paging.segment.deleted = false ∧ s.isVirtual = false ∧ s.purged = false

/-- A filled segment holds what was put and not deleted. -/
def Transparent (s : St K) : Prop := IsFilled s → binds (alive (entries s)) = s.reference

instance (s : St K) : Decidable (IsFilled s) := inferInstanceAs (Decidable (_ ∧ _))

instance (s : St K) : Decidable (Transparent s) := inferInstanceAs (Decidable (_ → _))

/-- Key 3 is deleted, and key 2 dropped before the next cycle. -/
def comesBack : List (Ev Nat) :=
  [.put 1 ⟨1, 10, 4, offsetNone⟩, .put 2 ⟨1, 20, 4, offsetNone⟩, .put 3 ⟨1, 30, 4, offsetNone⟩, .index 1 12 false 0,
   .delete 3, .semiPurge, .index 1 99 false 0]

section Safe
variable (valueSize : Option Nat) (cardinality : Bool)

/-- The key is in a block of the segment. -/
def stored (s : St K) (key : K) : Bool :=
  (readKeyPagingIndex valueSize cardinality s.paging.irt s.cycles false (currentPagingIndex s.paging.segment)
    s.paging.segment.pagingPosition []).any fun tree => tree.any fun b => b.1 = key

/-- The first deleted entry that a delta meets in a segment that is not filled is in none of its blocks. -/
def CycleSafe (s : St K) : Ev K → Prop
  | .index fileIndex _ rebuild _ => s.purged ∨ s.isVirtual → rebuilds s.paging fileIndex rebuild = false →
      ((entries s).find? fun e => e.2.deleting).all (fun d => !stored valueSize cardinality s d.1)
  | _ => True

end Safe

/-! ## Filling -/

theorem find?_none_of_lookup {memory : List (K × Entry)} {k : K} (h : memory.find? (fun e => e.1 = k) = none) :
    lookup (binds memory) k = none := by
  refine lookup_binds_none fun e he hk => ?_
  simpa [hk] using List.find?_eq_none.mp h e he

/-- Entries that are in memory, and the others from what is stored of them, are all entries. -/
theorem map_fillEntry {memory full : List (K × Entry)} (hms : Sorted memory) (hs : Sorted full)
    (hpart : ∀ e ∈ memory, e ∈ full) {stored : K → Option Locality}
    (hdropped : ∀ e ∈ full, e ∉ memory → e.2 = ⟨e.2.locality, true, false⟩ ∧ stored e.1 = some e.2.locality)
    (hkept : ∀ k v, stored k = some v → ∃ e ∈ full, e.1 = k) {r : List (K × Locality)} (hr : Sorted r)
    (hl : ∀ k, lookup r k = (lookup (binds memory) k).or (stored k)) : r.map (fillEntry memory) = full := by
  refine eq_of_mem (List.pairwise_map.mpr hr) hs fun e => ?_
  constructor
  · intro he
    obtain ⟨⟨k, v⟩, hb, rfl⟩ := List.mem_map.mp he
    have hlook := (mem_iff_lookup hr).mp hb
    rw [hl] at hlook
    cases hf : memory.find? (fun e => e.1 = k) with
    | some x =>
      have hx : x ∈ memory := List.mem_of_find?_eq_some hf
      have hk : x.1 = k := by simpa using List.find?_some hf
      have : fillEntry memory (k, v) = x := by
        simp only [fillEntry, hf, map_some, getD_some]
        exact Prod.ext hk.symm rfl
      rw [this]
      exact hpart _ hx
    | none =>
      rw [find?_none_of_lookup hf, none_or] at hlook
      obtain ⟨x, hx, hk⟩ := hkept k v hlook
      have hnot : x ∉ memory := fun hm => by simpa [hk] using List.find?_eq_none.mp hf x hm
      obtain ⟨hx2, hst⟩ := hdropped x hx hnot
      rw [hk, hlook] at hst
      have : fillEntry memory (k, v) = x := by
        simp only [fillEntry, hf, map_none, getD_none]
        refine Prod.ext hk.symm ?_
        rw [hx2, ← Option.some.inj hst]
      rw [this]
      exact hx
  · intro he
    refine List.mem_map.mpr ⟨(e.1, e.2.locality), (mem_iff_lookup hr).mpr ?_, ?_⟩
    · rw [hl]
      by_cases hm : e ∈ memory
      · rw [lookup_binds hms hm, some_or]
      · rw [(hdropped e he hm).2, lookup_binds_none, none_or]
        intro x hx hk
        exact hm (unique_of_sorted hs (hpart _ hx) he hk ▸ hx)
    · by_cases hm : e ∈ memory
      · obtain ⟨x, hx⟩ := isSome_iff_exists.mp (List.find?_isSome (p := fun x => x.1 = e.1) |>.mpr ⟨e, hm, by simp⟩)
        have hxe := unique_of_sorted hms (List.mem_of_find?_eq_some hx) hm (by simpa using List.find?_some hx)
        simp [fillEntry, hx, hxe]
      · have hnone : memory.find? (fun x => x.1 = e.1) = none := by
          refine List.find?_eq_none.mpr fun x hx hk => ?_
          exact hm (unique_of_sorted hs (hpart _ hx) he (by simpa using hk) ▸ hx)
        simp only [fillEntry, hnone, map_none, getD_none]
        exact Prod.ext rfl (hdropped e he hm).1.symm

theorem chain_length {valueSize : Option Nat} {irt : Nat → Nat → Option (Block K)} {f p : Nat}
    {ls ls' : List (List (K × Locality))} (h : Chain valueSize irt f p ls) (h' : Chain valueSize irt f p ls') :
    ls.length = ls'.length := by
  induction h generalizing ls' with
  | last hb _ h0 =>
    cases h' with
    | last _ _ _ => rfl
    | back hb' _ h0' _ =>
      rw [hb] at hb'
      cases hb'
      exact absurd h0 h0'
  | back hb _ h0 _ ih =>
    cases h' with
    | last hb' _ h0' =>
      rw [hb] at hb'
      cases hb'
      exact absurd h0' h0
    | back hb' _ _ hc =>
      rw [hb] at hb'
      cases hb'
      rw [List.length_cons, List.length_cons, ih hc]

/-! ## A segment that is never purged -/

/-- A segment that may be purged, beside one that never is. -/
structure Sim (valueSize : Option Nat) (c : St K) (a : KeyPaging.St K) : Prop where
  inv : Inv valueSize a
  same : c.paging = { holding a (entries c) with indexed := c.paging.indexed }
  head : (entries c).head? = a.segment.entries.head?
  sorted : Sorted (entries c)
  part : ∀ e ∈ entries c, e ∈ a.segment.entries
  dropped : ∀ e ∈ a.segment.entries, e ∉ entries c → e.2.indexed = true ∧ e.2.deleting = false
  filled : c.purged = false → c.isVirtual = false → entries c = a.segment.entries
  /-- Only a segment that has been paged is not filled, and its first entry is not deleted. -/
  first : c.purged = true ∨ c.isVirtual = true →
    a.segment.pagingPosition ≠ 0 ∧ ∃ e, (entries c).head? = some e ∧ e.2.deleting = false
  /-- The newest block begins with the first key. -/
  newest : a.segment.pagingPosition ≠ 0 → a.segment.deleted = false →
    a.indexed.head?.map (·.1) = a.segment.entries.head?.map (·.1)
  clean : a.segment.pagingPosition ≠ 0 → c.dirty = false → ∀ e ∈ entries c, e.2.indexed = true ∧ e.2.deleting = false
  short : a.segment.pagingPosition ≠ 0 → ∀ ls,
    Chain valueSize a.irt (currentPagingIndex a.segment) a.segment.pagingPosition ls → ls.length ≤ c.cycles
  reference : c.reference = binds (alive a.segment.entries)

theorem init_sim (valueSize : Option Nat) : Sim valueSize (init : St K) KeyPaging.init where
  inv := init_inv valueSize
  same := rfl
  head := rfl
  sorted := List.Pairwise.nil
  part e h := h
  dropped e h := absurd h List.not_mem_nil
  filled _ _ := rfl
  first h := by rcases h with h | h <;> cases h
  newest h := absurd rfl h
  clean h := absurd rfl h
  short h := absurd rfl h
  reference := rfl

section Fill
variable {valueSize : Option Nat} {cardinality : Bool} {c : St K} {a : KeyPaging.St K}

theorem Sim.irt_eq (h : Sim valueSize c a) : c.paging.irt = a.irt := by
  rw [h.same]
  rfl

theorem Sim.length_eq (h : Sim valueSize c a) : c.paging.length = a.length := by
  rw [h.same]
  rfl

theorem Sim.deleted_eq (h : Sim valueSize c a) : c.paging.segment.deleted = a.segment.deleted := by
  rw [h.same]
  rfl

theorem Sim.position_eq (h : Sim valueSize c a) : c.paging.segment.pagingPosition = a.segment.pagingPosition := by
  rw [h.same]
  rfl

theorem Sim.current_eq (h : Sim valueSize c a) : currentPagingIndex c.paging.segment = currentPagingIndex a.segment := by
  rw [h.same]
  rfl

variable (h : Sim valueSize c a) (hp : a.segment.pagingPosition ≠ 0) (hd : a.segment.deleted = false)

include h hp hd in
theorem Sim.stored_eq (key : K) :
    stored valueSize cardinality c key = (lookup a.indexed key).isSome := by
  obtain ⟨first, l, ls, hchain, hlatest, -⟩ := h.inv.paged hp hd
  have hnil : Sorted ([] : List (K × Locality)) := List.Pairwise.nil
  obtain ⟨r, hr, hrs, hrl⟩ := read_chain cardinality hchain (h.short hp _ hchain) hnil
  rw [stored, h.irt_eq, h.current_eq, h.position_eq, hr, any_some, ← hlatest, Bool.eq_iff_iff]
  have hlook : latest ((first :: l) :: ls) key = lookup r key := (hrl key).symm
  rw [hlook, List.any_eq_true]
  constructor
  · intro ⟨b, hb, hk⟩
    have hk : b.1 = key := by simpa using hk
    rw [← hk, (mem_iff_lookup hrs).mp hb]
    rfl
  · intro hs
    obtain ⟨v, hv⟩ := isSome_iff_exists.mp hs
    exact ⟨(key, v), (mem_iff_lookup hrs).mpr hv, by simp⟩

include h hp hd in
/-- A fill from the blocks of a segment that is never purged. -/
theorem fillSegment_eq
    {memory full : List (K × Entry)} (hms : Sorted memory) (hs : Sorted full) (hpart : ∀ e ∈ memory, e ∈ full)
    (hdropped : ∀ e ∈ full, e ∉ memory → e.2 = ⟨e.2.locality, true, false⟩ ∧ lookup a.indexed e.1 = some e.2.locality)
    (hkept : ∀ k v, lookup a.indexed k = some v → ∃ e ∈ full, e.1 = k)
    (hfirst : ∀ b, a.indexed.head? = some b → ∃ e ∈ memory, e.1 = b.1) :
    fillSegment valueSize cardinality (setEntries c memory)
      = some { setEntries c full with isVirtual := false, purged := false } := by
  obtain ⟨first, l, ls, hchain, hlatest, hhead⟩ := h.inv.paged hp hd
  obtain ⟨x, hx, hxk⟩ := hfirst first hhead
  have hin : (lookup (binds memory) first.1).isSome := by
    rw [← hxk, lookup_binds hms hx]
    rfl
  obtain ⟨r, hr, hrs, hrl⟩ := read_newest cardinality hchain (h.short hp _ hchain) (sorted_binds.mpr hms) hin
  have hcur : currentPagingIndex (setEntries c memory).paging.segment = currentPagingIndex a.segment := h.current_eq
  have hpos : (setEntries c memory).paging.segment.pagingPosition = a.segment.pagingPosition := h.position_eq
  have hirt : (setEntries c memory).paging.irt = a.irt := h.irt_eq
  have hmap := map_fillEntry hms hs hpart hdropped hkept hrs fun k => (hrl k).trans (by rw [hlatest])
  unfold fillSegment
  rw [hcur, hpos, hirt]
  show Option.map _ (readKeyPagingIndex valueSize cardinality a.irt c.cycles true _ _ (binds memory)) = _
  rw [hr, map_some]
  show some { setEntries (setEntries c memory) (r.map (fillEntry memory)) with isVirtual := false, purged := false } = _
  rw [hmap]
  rfl

theorem eq_of_entry {e : Entry} (h : e.indexed = true ∧ e.deleting = false) : e = ⟨e.locality, true, false⟩ := by
  cases e
  cases h.1
  cases h.2
  rfl

include h hp hd in
theorem Sim.first_mem
    {b : K × Locality} (hb : a.indexed.head? = some b) : ∃ e ∈ entries c, (entries c).head? = some e ∧ e.1 = b.1 := by
  have hnew := h.newest hp hd
  rw [hb, ← h.head] at hnew
  obtain ⟨e, he, hk⟩ := map_eq_some_iff.mp hnew.symm
  exact ⟨e, List.mem_of_head? he, he, hk⟩

/-- What a segment that is filled is. -/
def full (c : St K) (a : KeyPaging.St K) : St K := { setEntries c a.segment.entries with isVirtual := false, purged := false }

include h hp hd in
theorem Sim.fillSegment :
    fillSegment valueSize cardinality c = some (full c a) := by
  refine fillSegment_eq h hp hd h.sorted h.inv.sorted h.part ?_ h.inv.kept ?_
  · intro e he hm
    have hdrop := h.dropped e he hm
    exact ⟨eq_of_entry hdrop, h.inv.marked e he hdrop.1 hdrop.2⟩
  · intro b hb
    obtain ⟨e, he, -, hk⟩ := h.first_mem hp hd hb
    exact ⟨e, he, hk⟩

theorem Sim.fillSetup (h : Sim valueSize c a) (hd : a.segment.deleted = false) :
    fillSetup valueSize cardinality c = some (full c a) := by
  unfold Purge.fillSetup
  by_cases hc : c.purged = true ∨ c.isVirtual = true
  · rw [if_pos hc]
    exact h.fillSegment (h.first hc).1 hd
  · rw [if_neg hc]
    have hpur : c.purged = false := by simpa using fun hx => hc (.inl hx)
    have hvir : c.isVirtual = false := by simpa using fun hx => hc (.inr hx)
    have hent := h.filled hpur hvir
    cases c
    cases hpur
    cases hvir
    rw [full, ← hent]
    rfl

theorem Sim.full (h : Sim valueSize c a) : Sim valueSize (full c a) a where
  inv := h.inv
  same := by
    have := h.same
    simp only [Purge.full, setEntries, entries, holding] at this ⊢
    rw [this]
  head := rfl
  sorted := h.inv.sorted
  part e he := he
  dropped e he hm := absurd he hm
  filled _ _ := rfl
  first hc := by rcases hc with hc | hc <;> cases hc
  newest := h.newest
  clean hp hdirty e he := by
    by_cases hm : e ∈ entries c
    · exact h.clean hp hdirty e hm
    · exact h.dropped e he hm
  short := h.short
  reference := h.reference

end Fill

/-- A segment that is filled holds what one does that is never purged. -/
theorem sim_filled {valueSize : Option Nat} {c : St K} {a : KeyPaging.St K} (hi : Inv valueSize a)
    (hpaging : c.paging = { a with indexed := c.paging.indexed }) (hpur : c.purged = false) (hvir : c.isVirtual = false)
    (hnewest : a.segment.pagingPosition ≠ 0 → a.segment.deleted = false →
      a.indexed.head?.map (·.1) = a.segment.entries.head?.map (·.1))
    (hclean : a.segment.pagingPosition ≠ 0 → c.dirty = false →
      ∀ e ∈ a.segment.entries, e.2.indexed = true ∧ e.2.deleting = false)
    (hshort : a.segment.pagingPosition ≠ 0 → ∀ ls,
      Chain valueSize a.irt (currentPagingIndex a.segment) a.segment.pagingPosition ls → ls.length ≤ c.cycles)
    (href : c.reference = binds (alive a.segment.entries)) : Sim valueSize c a := by
  have hent : entries c = a.segment.entries := by rw [entries, hpaging]
  exact
    { inv := hi
      same := by rw [hent]; exact hpaging
      head := by rw [hent]
      sorted := by rw [hent]; exact hi.sorted
      part := fun e he => hent ▸ he
      dropped := fun e he hm => absurd (hent ▸ he) hm
      filled := fun _ _ => hent
      first := fun h => by rw [hpur, hvir] at h; rcases h with h | h <;> cases h
      newest := hnewest
      clean := by rw [hent]; exact hclean
      short := hshort
      reference := href }

section Commits
variable {valueSize : Option Nat} {cardinality : Bool} {c c' : St K} {a : KeyPaging.St K}

theorem full_paging (h : Sim valueSize c a) : (full c a).paging = { a with indexed := c.paging.indexed } := by
  have := h.same
  simp only [full, setEntries, entries, holding] at this ⊢
  rw [this]

variable {V : Type} {key : K}

theorem head?_insertEntry {v : V} {es : List (K × V)} (h : es ≠ []) (hle : es.head?.all (fun e => e.1 ≤ key)) :
    (insertEntry key v es).head?.map (·.1) = es.head?.map (·.1) := by
  cases es with
  | nil => exact absurd rfl h
  | cons e es =>
    have hle : e.1 ≤ key := by simpa using hle
    rw [insertEntry, if_neg (not_lt.mpr hle)]
    split
    · rfl
    · next hlt =>
      have : key = e.1 := le_antisymm (not_lt.mp hlt) hle
      simp [this]

variable {l : Locality}

theorem alive_insertEntry {es : List (K × Entry)} (hs : Sorted es) :
    binds (alive (insertEntry key (⟨l, false, false⟩ : Entry) es)) = insertEntry key l (binds (alive es)) := by
  have hins := insertEntry_sorted key (⟨l, false, false⟩ : Entry) hs
  have halive : Sorted (binds (alive es)) := sorted_binds.mpr (hs.filter _)
  refine eq_of_mem (sorted_binds.mpr (hins.filter _)) (insertEntry_sorted key l halive) ?_
  intro ⟨k, v⟩
  rw [mem_of_insertEntry halive]
  simp only [binds, alive, List.mem_map, List.mem_filter, mem_of_insertEntry hs]
  constructor
  · rintro ⟨e, ⟨rfl | ⟨he, hk⟩, hd⟩, heq⟩
    · exact .inl heq.symm
    · exact .inr ⟨⟨e, ⟨he, hd⟩, heq⟩, fun hkey => hk ((Prod.mk.inj heq).1.trans hkey)⟩
  · rintro (heq | ⟨⟨e, ⟨he, hd⟩, heq⟩, hk⟩)
    · exact ⟨_, ⟨.inl rfl, rfl⟩, heq.symm⟩
    · exact ⟨e, ⟨.inr ⟨he, fun hkey => hk ((Prod.mk.inj heq).1.symm.trans hkey)⟩, hd⟩, heq⟩

theorem alive_delete (es : List (K × Entry)) :
    binds (alive (es.map fun e => if e.1 = key then (e.1, { e.2 with deleting := true }) else e))
      = (binds (alive es)).filter fun b => b.1 ≠ key := by
  induction es with
  | nil => rfl
  | cons e es ih =>
    by_cases hk : e.1 = key
    · by_cases hd : e.2.deleting = true <;> simp_all [alive, binds]
    · by_cases hd : e.2.deleting = true <;> simp_all [alive, binds]

theorem commit_sim (h : Sim valueSize c a) {e : KeyPaging.Ev K} {es : List (K × Entry)} {storied : List K}
    {reference : List (K × Locality)} (hstep : KeyPaging.step valueSize a e = some (holding a es))
    (hcommit : commit valueSize (full c a) e storied reference = some c')
    (hagain : KeyPaging.step valueSize { a with indexed := c.paging.indexed } e
      = some { holding a es with indexed := c.paging.indexed })
    (hhead : a.segment.entries ≠ [] → es.head?.map (·.1) = a.segment.entries.head?.map (·.1))
    (href : reference = binds (alive es)) : Sim valueSize c' (holding a es) := by
  rw [commit, full_paging h, hagain] at hcommit
  cases hcommit
  refine sim_filled (step_inv hstep h.inv) rfl rfl rfl ?_ ?_ h.short href
  · intro hp hd
    have hnew := h.newest hp hd
    obtain ⟨first, -, -, -, -, hfirst⟩ := h.inv.paged hp hd
    refine hnew.trans (hhead fun hnil => ?_).symm
    rw [hnil, hfirst] at hnew
    cases hnew
  · intro hp hdirty
    have hpaged : isPaged (full c a) = true := by
      rw [isPaged, full_paging h]
      exact decide_eq_true hp
    simp [hpaged] at hdirty

theorem put_sim (h : Sim valueSize c a) (hstep : step valueSize cardinality c (.put key l) = some c') :
    ∃ a', Sim valueSize c' a' := by
  obtain ⟨⟨hd, hle⟩, hstep⟩ := ite_none_right_eq_some.mp hstep
  rw [h.deleted_eq] at hd
  rw [h.fillSetup hd, bind_some] at hstep
  rw [h.head] at hle
  have hcommit := hstep
  obtain ⟨paging, hpag, -⟩ := map_eq_some_iff.mp hstep
  rw [full_paging h] at hpag
  obtain ⟨hguard, ⟨⟩⟩ := ite_none_right_eq_some.mp hpag
  have hput : KeyPaging.step valueSize a (.put key l) = some (holding a (insertEntry key
      ⟨{ l with size := valueSize.getD l.size }, false, false⟩ a.segment.entries)) := if_pos hguard
  refine ⟨_, commit_sim h hput hcommit (if_pos hguard) (fun hne => head?_insertEntry hne hle) ?_⟩
  rw [alive_insertEntry h.inv.sorted, ← h.reference]
  rfl

theorem delete_sim (h : Sim valueSize c a) (hstep : step valueSize cardinality c (.delete key) = some c') :
    ∃ a', Sim valueSize c' a' := by
  obtain ⟨hd, hstep⟩ := ite_none_right_eq_some.mp hstep
  rw [h.deleted_eq] at hd
  rw [h.fillSetup hd, bind_some] at hstep
  have hcommit := hstep
  obtain ⟨paging, hpag, -⟩ := map_eq_some_iff.mp hstep
  rw [full_paging h] at hpag
  obtain ⟨hguard, ⟨⟩⟩ := ite_none_right_eq_some.mp hpag
  have hdelete : KeyPaging.step valueSize a (.delete key) = some (holding a (a.segment.entries.map fun e =>
      if e.1 = key then (e.1, { e.2 with deleting := true }) else e)) := if_pos hguard
  refine ⟨_, commit_sim h hdelete hcommit (if_pos hguard) (fun _ => ?_) ?_⟩
  · cases a.segment.entries with
    | nil => rfl
    | cons e es =>
      simp only [List.map_cons, List.head?_cons, map_some]
      split <;> rfl
  · rw [alive_delete, ← h.reference]
    rfl

theorem length_insertEntry (key : K) (v : V) (es : List (K × V)) :
    (insertEntry key v es).length ≤ es.length + 1 := by
  induction es with
  | nil => simp [insertEntry]
  | cons e es ih =>
    rw [insertEntry]
    split_ifs <;> simp
    omega

theorem Sim.deleted_mem (h : Sim valueSize c a) :
    (entries c).filter (fun e => e.2.deleting) = a.segment.entries.filter fun e => e.2.deleting := by
  refine eq_of_mem (h.sorted.filter _) (h.inv.sorted.filter _) fun e => ?_
  rw [List.mem_filter, List.mem_filter]
  refine ⟨fun ⟨he, hd⟩ => ⟨h.part e he, hd⟩, fun ⟨he, hd⟩ => ⟨?_, hd⟩⟩
  by_contra hm
  rw [(h.dropped e he hm).2] at hd
  cases hd

theorem Sim.vsize_eq (h : Sim valueSize c a) : vsize c = a.segment.entries.length := by
  have hcount : (alive a.segment.entries).length + (a.segment.entries.filter fun e => e.2.deleting).length
      = a.segment.entries.length := by
    induction a.segment.entries with
    | nil => rfl
    | cons e es ih => by_cases hd : e.2.deleting = true <;> simp_all [alive] <;> omega
  rw [vsize, h.deleted_mem, h.reference, binds, List.length_map, hcount]

/-- A key that is neither in memory nor in the reference is not in the segment. -/
theorem Sim.fresh (h : Sim valueSize c a) (href : ∀ b ∈ c.reference, b.1 ≠ key) (hmem : ∀ e ∈ entries c, e.1 ≠ key) :
    ∀ e ∈ a.segment.entries, e.1 ≠ key := by
  intro e he
  by_cases hm : e ∈ entries c
  · exact hmem e hm
  · refine href (e.1, e.2.locality) ?_
    rw [h.reference]
    exact List.mem_map.mpr ⟨e, List.mem_filter.mpr ⟨he, by simp [(h.dropped e he hm).2]⟩, rfl⟩

theorem head?_insertEntry_fresh {v : V} {es : List (K × V)} (hle : es.head?.all (fun e => e.1 ≤ key))
    (hne : ∀ e ∈ es, e.1 ≠ key) : (insertEntry key v es).head? = es.head?.or (some (key, v)) := by
  cases es with
  | nil => rfl
  | cons e es =>
    have hle : e.1 ≤ key := by simpa using hle
    rw [insertEntry, if_neg (not_lt.mpr hle), if_pos (lt_of_le_of_ne hle (hne e List.mem_cons_self))]
    rfl

theorem reserve_sim (h : Sim valueSize c a)
    (hstep : step valueSize cardinality c (.reserve key l) = some c') : ∃ a', Sim valueSize c' a' := by
  obtain ⟨⟨hd, hle, href, hmem, hsize⟩, hstep⟩ := ite_none_right_eq_some.mp hstep
  rw [h.deleted_eq] at hd
  have href : ∀ b ∈ c.reference, b.1 ≠ key := by simpa using href
  have hmem : ∀ e ∈ entries c, e.1 ≠ key := by simpa using hmem
  have hfresh := h.fresh href hmem
  rw [h.vsize_eq] at hsize
  obtain ⟨paging, hpag, heq⟩ := map_eq_some_iff.mp hstep
  have hpaging : (if c.purged then { c with purged := false, isVirtual := true } else c).paging = c.paging := by split <;> rfl
  rw [hpaging] at hpag
  obtain ⟨hguard, ⟨⟩⟩ := ite_none_right_eq_some.mp hpag
  have hcap : (insertEntry key (⟨{ l with size := valueSize.getD l.size }, false, false⟩ : Entry)
      a.segment.entries).length ≤ segmentMaximumSize := Nat.le_trans (length_insertEntry _ _ _) hsize
  have hlea : a.segment.entries.head?.all (fun e => e.1 ≤ key) := by rw [← h.head]; exact hle
  have hheads : ∀ v : Entry, (insertEntry key v (entries c)).head? = (insertEntry key v a.segment.entries).head? := by
    intro v
    rw [head?_insertEntry_fresh hle hmem, head?_insertEntry_fresh hlea hfresh, h.head]
  refine ⟨holding a (insertEntry key ⟨{ l with size := valueSize.getD l.size }, false, false⟩ a.segment.entries), ?_⟩
  rw [← heq]
  refine
    { inv := put_inv h.inv hcap
      same := ?_
      head := hheads _
      sorted := insertEntry_sorted _ _ h.sorted
      part := ?_
      dropped := ?_
      filled := ?_
      first := ?_
      newest := ?_
      clean := ?_
      short := ?_
      reference := ?_ }
  · have := h.same
    simp only [entries, holding] at this ⊢
    rw [this]
  · intro e he
    rcases (mem_of_insertEntry h.sorted).mp he with rfl | ⟨he, hk⟩
    · exact (mem_of_insertEntry h.inv.sorted).mpr (.inl rfl)
    · exact (mem_of_insertEntry h.inv.sorted).mpr (.inr ⟨h.part e he, hk⟩)
  · intro e he hm
    rcases (mem_of_insertEntry h.inv.sorted).mp he with rfl | ⟨he, hk⟩
    · exact absurd ((mem_of_insertEntry h.sorted).mpr (.inl rfl)) hm
    · exact h.dropped e he fun hx => hm ((mem_of_insertEntry h.sorted).mpr (.inr ⟨hx, hk⟩))
  · intro _ hvir
    by_cases hc : c.purged = true
    · simp [hc] at hvir
    · have hpur : c.purged = false := by simpa using hc
      simp only [hpur, Bool.false_eq_true, if_false] at hvir
      show insertEntry key _ (entries c) = insertEntry key _ a.segment.entries
      rw [h.filled hpur hvir]
  · intro hc
    have hc : c.purged = true ∨ c.isVirtual = true := by
      by_cases hp : c.purged = true
      · exact .inl hp
      · exact .inr (by simpa [hp] using hc)
    obtain ⟨hp, e, he, hdel⟩ := h.first hc
    refine ⟨hp, e, ?_, hdel⟩
    show (insertEntry key _ (entries c)).head? = _
    rw [head?_insertEntry_fresh hle hmem, he]
    rfl
  · intro hp hdel
    have hnew := h.newest hp hdel
    obtain ⟨first, -, -, -, -, hfirst⟩ := h.inv.paged hp hdel
    refine hnew.trans (head?_insertEntry (fun hnil => ?_) hlea).symm
    rw [hnil, hfirst] at hnew
    cases hnew
  · intro hp hdirty
    have hpaged : isPaged (if c.purged then { c with purged := false, isVirtual := true } else c) = true := by
      rw [isPaged, hpaging, h.position_eq]
      exact decide_eq_true hp
    simp [hpaged] at hdirty
  · have hcycles : (if c.purged then { c with purged := false, isVirtual := true } else c).cycles = c.cycles := by split <;> rfl
    intro hp ls hchain
    exact Nat.le_trans (h.short hp ls hchain) (Nat.le_of_eq hcycles.symm)
  · show insertEntry key _ c.reference = _
    rw [h.reference]
    exact (alive_insertEntry h.inv.sorted).symm

end Commits

section Purges
variable {valueSize : Option Nat} {cardinality : Bool} {c c' : St K} {a : KeyPaging.St K}

theorem drop_sim (h : Sim valueSize c a) (hp : a.segment.pagingPosition ≠ 0) {memory : List (K × Entry)}
    (hsub : memory.Sublist (entries c)) (hhead : memory.head? = (entries c).head?)
    (hdropped : ∀ e ∈ entries c, e ∉ memory → e.2.indexed = true ∧ e.2.deleting = false)
    (hdirty : c'.dirty = c.dirty) (hcycles : c'.cycles = c.cycles) (href : c'.reference = c.reference)
    (hpaging : c'.paging = holding c.paging memory)
    (hfilled : c'.purged = false → c'.isVirtual = false → c.purged = false ∧ c.isVirtual = false ∧ memory = entries c)
    (hfirst : ∃ e, (entries c).head? = some e ∧ e.2.deleting = false) : Sim valueSize c' a := by
  have hent : entries c' = memory := by rw [entries, hpaging]; rfl
  exact
    { inv := h.inv
      same := by
        rw [hent, hpaging, h.same]
        rfl
      head := by rw [hent, hhead]; exact h.head
      sorted := by rw [hent]; exact h.sorted.sublist hsub
      part := by rw [hent]; exact fun e he => h.part e (hsub.mem he)
      dropped := by
        rw [hent]
        intro e he hm
        by_cases hc : e ∈ entries c
        · exact hdropped e hc hm
        · exact h.dropped e he hc
      filled := by
        intro hpur hvir
        obtain ⟨h1, h2, h3⟩ := hfilled hpur hvir
        rw [hent, h3]
        exact h.filled h1 h2
      first := fun _ => ⟨hp, by rw [hent, hhead]; exact hfirst⟩
      newest := h.newest
      clean := by
        rw [hent, hdirty]
        exact fun hp hd e he => h.clean hp hd e (hsub.mem he)
      short := by rw [hcycles]; exact h.short
      reference := by rw [href]; exact h.reference }

theorem purge_sim (h : Sim valueSize c a) (hstep : step valueSize cardinality c .purge = some c') : Sim valueSize c' a := by
  obtain ⟨⟨hd, hpaged, -, hdirty⟩, ⟨⟩⟩ := ite_none_right_eq_some.mp hstep
  rw [h.deleted_eq] at hd
  have hp : a.segment.pagingPosition ≠ 0 := by simpa [isPaged, h.position_eq] using hpaged
  obtain ⟨first, -, -, -, -, hfirst⟩ := h.inv.paged hp hd
  obtain ⟨e, he, hhead, -⟩ := h.first_mem hp hd hfirst
  refine drop_sim h hp (List.take_sublist 1 _) (by cases entries c <;> rfl) ?_ rfl rfl rfl rfl (fun hx => by cases hx)
    ⟨e, hhead, (h.clean hp hdirty e he).2⟩
  exact fun x hx _ => h.clean hp hdirty x hx

theorem semiPurge_sim (h : Sim valueSize c a) (hstep : step valueSize cardinality c .semiPurge = some c') :
    Sim valueSize c' a := by
  simp only [step] at hstep
  split at hstep
  · cases hstep
  · next first rest hent =>
    obtain ⟨⟨hd, hpaged, hpur, -, hdel, -⟩, ⟨⟩⟩ := ite_none_right_eq_some.mp hstep
    have hp : a.segment.pagingPosition ≠ 0 := by simpa [isPaged, h.position_eq] using hpaged
    refine drop_sim h hp ?_ (by rw [hent]; rfl) ?_ rfl rfl rfl rfl ?_ ⟨first, by rw [hent]; rfl, hdel⟩
    · rw [hent]
      exact List.Sublist.cons_cons first List.filter_sublist
    · rw [hent]
      intro e he hm
      rcases List.mem_cons.mp he with rfl | he
      · exact absurd List.mem_cons_self hm
      · have hnot : ¬e ∈ rest.filter _ := fun hx => hm (List.mem_cons_of_mem _ hx)
        simp only [List.mem_filter, he, true_and] at hnot
        simp at hnot
        exact hnot.1
    · intro _ hvir
      obtain ⟨hvir, hsame⟩ := Bool.or_eq_false_iff.mp hvir
      refine ⟨hpur, hvir, ?_⟩
      rw [hent]
      simpa using hsame

theorem fill_sim (h : Sim valueSize c a) (hstep : step valueSize cardinality c .fill = some c') : Sim valueSize c' a := by
  obtain ⟨⟨hd, hpaged⟩, hfill⟩ := ite_none_right_eq_some.mp hstep
  have hp : a.segment.pagingPosition ≠ 0 := by simpa [isPaged, h.position_eq] using hpaged
  rw [h.deleted_eq] at hd
  rw [h.fillSegment hp hd] at hfill
  cases hfill
  exact h.full

end Purges

/-! ## Index cycles -/

section Cycles
variable {valueSize : Option Nat} {cardinality : Bool} {c c' : St K} {a : KeyPaging.St K} {f position refs : Nat}

variable {pre post : List (K × Entry)} {d : K × Entry}

omit [LinearOrder K] in
/-- A delta that meets a deleted entry starts over without it. -/
theorem walk_meets (i : Nat) (w : Walk K)
    (hpre : ∀ e ∈ pre, e.2.deleting = false) (hd : d.2.deleting = true) :
    walkSegment valueSize false i w (pre ++ d :: post) = .inr (w.walked ++ pre.map mark ++ post) := by
  induction pre generalizing i w with
  | nil =>
    obtain ⟨key, e⟩ := d
    have hd : e.deleting = true := hd
    simp [walkSegment, hd]
  | cons x pre ih =>
    obtain ⟨key, e⟩ := x
    have he : e.deleting = false := hpre (key, e) List.mem_cons_self
    have hpre : ∀ e ∈ pre, e.2.deleting = false := (List.forall_mem_cons.mp hpre).2
    rw [List.cons_append, walkSegment, he, if_neg Bool.false_ne_true]
    simp only [ih _ _ hpre]
    by_cases hx : e.indexed = true
    · have hmark : mark (key, e) = (key, e) := mark_of_indexed hx
      by_cases hi : i = 0 <;> simp [keySpaceIndex, hx, hi, hmark]
    · simp [keySpaceIndex, hx, mark]

variable {s : KeyPaging.St K}

variable (valueSize f position refs) in
omit [LinearOrder K] in
theorem index_marked (hne : s.segment.entries ≠ []) (rebuild : Bool) :
    ∀ e ∈ (indexSegment valueSize s f position rebuild refs).segment.entries, e.2.indexed = true ∧ e.2.deleting = false := by
  obtain ⟨e, rest, heq⟩ := List.exists_cons_of_ne_nil hne
  have hmark {es : List (K × Entry)} (hes : ∀ x ∈ es, x.2.deleting = false) :
      ∀ x ∈ es.map mark, x.2.indexed = true ∧ x.2.deleting = false := by
    intro x hx
    obtain ⟨y, hy, rfl⟩ := List.mem_map.mp hx
    exact ⟨rfl, hes y hy⟩
  have hwalked : ∀ x ∈ (writeKeyPaging valueSize (rebuild || (decide (f ≠ currentPagingIndex s.segment) &&
      !validPagingRange s.segment f)) s.segment.entries).1.walked, x.2.indexed = true ∧ x.2.deleting = false := by
    rw [heq]
    rcases writeKeyPaging_cases valueSize (rebuild || (decide (f ≠ currentPagingIndex s.segment) &&
        !validPagingRange s.segment f)) e rest with ⟨es, -, hw⟩ | ⟨-, hes, hw⟩
    · rw [hw]
      refine hmark fun x hx => ?_
      simpa using (List.mem_filter.mp hx).2
    · rw [hw]
      exact hmark hes
  unfold indexSegment
  dsimp only
  split
  · exact fun x hx => absurd hx List.not_mem_nil
  · split <;> exact hwalked

omit [LinearOrder K] in
theorem le_current_of_delta (h : rebuilds s f false = false) : currentPagingIndex s.segment ≤ f := by
  by_contra hlt
  have hlt : f < currentPagingIndex s.segment := Nat.lt_of_not_le hlt
  simp [rebuilds, validPagingRange, hlt, Nat.ne_of_lt hlt] at h

theorem written_short {irt : Nat → Nat → Option (Block K)} {g q n : Nat} {block : Block K} {ls : List (List (K × Locality))}
    (hirt : irt g q = some block) (hback : block.pagingPosition ≠ 0 → ∀ ls,
      Chain valueSize irt block.pagingIndex block.pagingPosition ls → ls.length ≤ n) (h : Chain valueSize irt g q ls) :
    ls.length ≤ n + 1 := by
  cases h with
  | last _ _ _ => exact Nat.succ_le_succ (Nat.zero_le n)
  | back hb _ h0 hc =>
    rw [hirt] at hb
    cases hb
    exact Nat.succ_le_succ (hback h0 _ hc)

variable (valueSize f position refs) in
omit [LinearOrder K] in
/-- An index cycle leaves the files alone, or writes a block that refers to none or to the last one. -/
theorem index_files (hne : s.segment.entries ≠ []) (rebuild : Bool) :
    (indexSegment valueSize s f position rebuild refs).irt = s.irt
        ∧ (indexSegment valueSize s f position rebuild refs).segment.pagingPosition = s.segment.pagingPosition
        ∧ currentPagingIndex (indexSegment valueSize s f position rebuild refs).segment = currentPagingIndex s.segment
      ∨ ∃ block, (indexSegment valueSize s f position rebuild refs).irt
          = (fun g q => if g = f ∧ q = position then some block else s.irt g q)
        ∧ (indexSegment valueSize s f position rebuild refs).segment.pagingPosition = position
        ∧ currentPagingIndex (indexSegment valueSize s f position rebuild refs).segment = f
        ∧ (block.pagingPosition ≠ 0 → block.pagingPosition = s.segment.pagingPosition
          ∧ block.pagingIndex = currentPagingIndex s.segment) := by
  obtain ⟨e, rest, heq⟩ := List.exists_cons_of_ne_nil hne
  unfold indexSegment
  simp only [heq]
  rcases writeKeyPaging_cases valueSize (rebuild || (decide (f ≠ currentPagingIndex s.segment) &&
      !validPagingRange s.segment f)) e rest with ⟨es, -, hw⟩ | ⟨hreb, -, hw⟩
  · rw [hw]
    dsimp only
    split
    · exact .inl ⟨rfl, rfl, rfl⟩
    · split
      · exact .inl ⟨rfl, rfl, rfl⟩
      · exact .inr ⟨_, rfl, rfl, by simp [currentPagingIndex], fun hp => absurd rfl hp⟩
  · rw [hw]
    dsimp only
    split
    · exact .inl ⟨rfl, rfl, rfl⟩
    · split
      · exact .inl ⟨rfl, rfl, rfl⟩
      · have hle := le_current_of_delta (s := s) (f := f) (by simpa [rebuilds] using (Bool.or_eq_false_iff.mp hreb).2)
        refine .inr ⟨_, rfl, rfl, ?_, fun _ => ⟨rfl, rfl⟩⟩
        show max f (currentPagingIndex s.segment) = f
        exact Nat.max_eq_left hle

variable {rebuild : Bool}

theorem index_short {n : Nat} (hi : Inv valueSize a) (hne : a.segment.entries ≠ []) (hd : a.segment.deleted = false)
    (hend : a.length f ≤ position) (hshort : a.segment.pagingPosition ≠ 0 → ∀ ls,
      Chain valueSize a.irt (currentPagingIndex a.segment) a.segment.pagingPosition ls → ls.length ≤ n) :
    (indexSegment valueSize a f position rebuild refs).segment.pagingPosition ≠ 0 → ∀ ls,
      Chain valueSize (indexSegment valueSize a f position rebuild refs).irt
        (currentPagingIndex (indexSegment valueSize a f position rebuild refs).segment)
        (indexSegment valueSize a f position rebuild refs).segment.pagingPosition ls → ls.length ≤ n + 1 := by
  rcases index_files valueSize f position refs hne rebuild with
    ⟨h1, h2, h3⟩ | ⟨block, h1, h2, h3, hback⟩
  · rw [h1, h2, h3]
    exact fun hp ls hc => Nat.le_succ_of_le (hshort hp ls hc)
  · rw [h1, h2, h3]
    intro _ ls hc
    refine written_short (if_pos ⟨rfl, rfl⟩) ?_ hc
    intro hp ls hc
    rw [(hback hp).1, (hback hp).2] at hc
    rw [(hback hp).1] at hp
    -- the blocks that are there stay, so the old chain is in the new files
    obtain ⟨first, l, ls', hchain, -, -⟩ := hi.paged hp hd
    have hkeep : Chain valueSize (fun g q => if g = f ∧ q = position then some block else a.irt g q)
        (currentPagingIndex a.segment) a.segment.pagingPosition ((first :: l) :: ls') := by
      refine hchain.mono fun g q b hb => ?_
      have hlt := hi.below g q b hb
      rw [if_neg]
      · exact hb
      · rintro ⟨rfl, rfl⟩
        omega
    rw [chain_length hc hkeep]
    exact hshort hp _ hchain

theorem page_sim (h : Sim valueSize c a) {c₁ : St K} {rebuild' : Bool}
    (hpage : indexSegment valueSize c₁.paging f position rebuild' refs = indexSegment valueSize a f position rebuild refs)
    (hpur : c₁.purged = false) (hvir : c₁.isVirtual = false) (hcycles : c₁.cycles = c.cycles)
    (href : c₁.reference = c.reference) (hd : a.segment.deleted = false) (hne : a.segment.entries ≠ [])
    (hend : a.length f ≤ position) (h0 : 0 < position) (hrefs : refs ≤ maximumRefs) :
    Sim valueSize (page valueSize c₁ f position rebuild' refs) (indexSegment valueSize a f position rebuild refs) := by
  obtain ⟨hindexed, hbinds⟩ := index_indexed valueSize hne f position rebuild refs
  have hmarked := index_marked valueSize f position refs hne rebuild
  have hpaging : (page valueSize c₁ f position rebuild' refs).paging = indexSegment valueSize a f position rebuild refs := hpage
  refine sim_filled (index_inv h.inv hd hne hend h0 hrefs) (by rw [hpaging]) hpur hvir ?_ ?_ ?_ ?_
  · intro _ _
    rw [hindexed, ← hbinds]
    simp [binds, Function.comp_def]
  · exact fun _ _ => hmarked
  · intro hp ls hc
    show ls.length ≤ c₁.cycles + 1
    rw [hcycles]
    exact index_short h.inv hne hd hend h.short hp ls hc
  · show c₁.reference = _
    rw [href, h.reference, ← hbinds]
    congr 1
    exact (List.filter_eq_self.mpr fun e he => by simp [(hmarked e he).2]).symm

omit [LinearOrder K] in
theorem index_delta {e : K × Entry} {rest : List (K × Entry)} (heq : s.segment.entries = e :: rest)
    (hes : ∀ x ∈ e :: rest, x.2.deleting = false) (hreb : rebuilds s f false = false) :
    indexSegment valueSize s f position false refs
      = if unindexed (e :: rest) = [] then { holding s ((e :: rest).map mark) with indexed := binds (e :: rest) }
        else
          { segment :=
              { s.segment with
                entries := (e :: rest).map mark
                pagingIndexes := f :: s.segment.pagingIndexes
                pagingPosition := position }
            irt := fun g q => if g = f ∧ q = position then
                some (metaData s.segment false ((unindexed (e :: rest)).length + refs + if e.2.indexed then 1 else 0)
                  (storeAll valueSize (binds (e :: unindexed rest)) ++ List.replicate refs .refVrt))
              else s.irt g q
            length := Function.update s.length f (position + 1)
            indexed := binds (e :: rest) } := by
  have hreb : (false || decide (f ≠ currentPagingIndex s.segment) && !validPagingRange s.segment f) = false := hreb
  have hmark : List.map (fun e => (e.1, e.2.locality)) ((e :: rest).map mark) = binds (e :: rest) := binds_mark _
  unfold indexSegment writeKeyPaging
  simp only [heq, hreb, walk_delta valueSize hes]
  rw [if_neg (fun h => nomatch h), hmark]
  by_cases hu : unindexed (e :: rest) = []
  · rw [if_pos (by rw [hu]; rfl), if_pos hu]
    rfl
  · rw [if_neg (by simpa using hu), if_neg hu]
    rfl

omit [LinearOrder K] in
/-- A delta that meets a deleted entry is a rebuild without it. -/
theorem index_retry
    (heq : s.segment.entries = pre ++ d :: post) (hpre : ∀ e ∈ pre, e.2.deleting = false) (hd : d.2.deleting = true)
    (hreb : rebuilds s f false = false) :
    indexSegment valueSize s f position false refs
      = indexSegment valueSize (holding s (pre.map mark ++ post)) f position true refs := by
  have hreb : (false || decide (f ≠ currentPagingIndex s.segment) && !validPagingRange s.segment f) = false := hreb
  have hmeets : walkSegment valueSize false 0 .begin (pre ++ d :: post) = .inr (pre.map mark ++ post) := by
    rw [walk_meets 0 .begin hpre hd]
    rfl
  unfold indexSegment writeKeyPaging
  simp only [heq, hreb, hmeets, Bool.true_or, holding, walk_rebuild]
  rfl

theorem Sim.rebuilds_eq (h : Sim valueSize c a) (rebuild : Bool) : rebuilds c.paging f rebuild = rebuilds a f rebuild := by
  rw [h.same]
  rfl

/-- A delta writes the same of what is in memory as it would of all entries. -/
theorem delta_sim (h : Sim valueSize c a) (hd : a.segment.deleted = false) (hne : entries c ≠ [])
    (hes : ∀ x ∈ entries c, x.2.deleting = false) (hreb : rebuilds a f false = false) (hend : a.length f ≤ position)
    (h0 : 0 < position) (hrefs : refs ≤ maximumRefs) :
    Sim valueSize (page valueSize c f position false refs) (indexSegment valueSize a f position false refs) := by
  obtain ⟨e, rest, hc⟩ := List.exists_cons_of_ne_nil hne
  have hhead := h.head
  rw [hc] at hhead
  obtain ⟨all, ha⟩ := List.head?_eq_some_iff.mp hhead.symm
  have hnea : a.segment.entries ≠ [] := by rw [ha]; exact List.cons_ne_nil _ _
  have hesa : ∀ x ∈ a.segment.entries, x.2.deleting = false := by
    intro x hx
    by_cases hm : x ∈ entries c
    · exact hes x hm
    · exact (h.dropped x hx hm).2
  have hunindexed : unindexed (entries c) = unindexed a.segment.entries := by
    refine eq_of_mem (h.sorted.filter _) (h.inv.sorted.filter _) fun x => ?_
    simp only [unindexed, List.mem_filter]
    refine ⟨fun hx => ⟨h.part x hx.1, hx.2⟩, fun hx => ⟨?_, hx.2⟩⟩
    by_contra hm
    have hu := hx.2
    simp [(h.dropped x hx.1 hm).1] at hu
  rw [hc, ha] at hunindexed
  have hrest : unindexed rest = unindexed all := by
    simp only [unindexed, List.filter_cons] at hunindexed ⊢
    split at hunindexed
    · exact (List.cons.inj hunindexed).2
    · exact hunindexed
  have hsame := h.same
  rw [hc] at hsame
  have hpaging : indexSegment valueSize c.paging f position false refs
      = { holding (indexSegment valueSize a f position false refs) ((e :: rest).map mark) with indexed := binds (e :: rest) } := by
    rw [hsame, index_delta (s := { holding a (e :: rest) with indexed := c.paging.indexed }) rfl (hc ▸ hes) hreb,
      index_delta ha (ha ▸ hesa) hreb, hunindexed, hrest]
    split <;> rfl
  have hmarked := index_marked valueSize f position refs hnea false
  obtain ⟨hindexed, hbinds⟩ := index_indexed valueSize hnea f position false refs
  have hent : entries (page valueSize c f position false refs) = (e :: rest).map mark := by
    show (indexSegment valueSize c.paging f position false refs).segment.entries = _
    rw [hpaging]
    rfl
  have henta : (indexSegment valueSize a f position false refs).segment.entries = (e :: all).map mark := by
    rw [index_delta ha (ha ▸ hesa) hreb]
    split <;> rfl
  have hmark : ∀ x ∈ (e :: rest).map mark, x.2.indexed = true ∧ x.2.deleting = false := by
    intro x hx
    obtain ⟨y, hy, rfl⟩ := List.mem_map.mp hx
    exact ⟨rfl, hes y (hc ▸ hy)⟩
  refine
    { inv := index_inv h.inv hd hnea hend h0 hrefs
      same := ?_
      head := ?_
      sorted := ?_
      part := ?_
      dropped := fun x hx _ => hmarked x hx
      filled := ?_
      first := ?_
      newest := ?_
      clean := fun _ _ => by rw [hent]; exact hmark
      short := index_short h.inv hnea hd hend h.short
      reference := ?_ }
  · have hpage : (page valueSize c f position false refs).paging
        = { holding (indexSegment valueSize a f position false refs) ((e :: rest).map mark) with indexed := binds (e :: rest) } :=
      hpaging
    rw [hent, hpage]
  · rw [hent, henta]
    rfl
  · rw [hent]
    exact List.pairwise_map.mpr (hc ▸ h.sorted)
  · rw [hent, henta]
    intro x hx
    obtain ⟨y, hy, rfl⟩ := List.mem_map.mp hx
    exact List.mem_map.mpr ⟨y, ha ▸ h.part y (hc ▸ hy), rfl⟩
  · intro hpur hvir
    have hall := h.filled hpur hvir
    rw [hc, ha] at hall
    rw [hent, henta, hall]
  · intro hx
    obtain ⟨hp, x, hhead, hdel⟩ := h.first hx
    refine ⟨?_, mark x, ?_, hdel⟩
    · rcases index_files valueSize f position refs hnea false with ⟨-, h2, -⟩ | ⟨-, -, h2, -⟩ <;> rw [h2]
      · exact hp
      · exact Nat.pos_iff_ne_zero.mp h0
    · rw [hc] at hhead
      cases hhead
      rw [hent]
      rfl
  · intro _ _
    rw [hindexed, ← hbinds]
    simp [binds, Function.comp_def]
  · show c.reference = _
    rw [h.reference, ← hbinds]
    congr 1
    exact (List.filter_eq_self.mpr fun x hx => by simp [(hmarked x hx).2]).symm

/-- What is left of sorted entries when a delta meets a deleted one. -/
theorem retry_eq (hs : Sorted (pre ++ d :: post)) :
    pre.map mark ++ post = ((pre ++ d :: post).filter fun e => e.1 ≠ d.1).map fun e => if e.1 < d.1 then mark e else e := by
  obtain ⟨-, hpost, hcross⟩ := List.pairwise_append.mp hs
  obtain ⟨hpost, -⟩ := List.pairwise_cons.mp hpost
  have hbelow : ∀ e ∈ pre, e.1 < d.1 := fun e he => hcross e he d List.mem_cons_self
  have hpre : pre.filter (fun e => e.1 ≠ d.1) = pre :=
    List.filter_eq_self.mpr fun e he => decide_eq_true (ne_of_lt (hbelow e he))
  have hpostf : post.filter (fun e => e.1 ≠ d.1) = post :=
    List.filter_eq_self.mpr fun e he => decide_eq_true (ne_of_gt (hpost e he))
  rw [List.filter_append, List.filter_cons_of_neg (by simp), hpre, hpostf, List.map_append]
  congr 1
  · exact List.map_congr_left fun e he => (if_pos (hbelow e he)).symm
  · exact (List.map_id' post).symm.trans (List.map_congr_left fun e he => (if_neg (not_lt.mpr (le_of_lt (hpost e he)))).symm)

theorem Sim.find?_deleting (h : Sim valueSize c a) :
    (entries c).find? (fun e => e.2.deleting) = a.segment.entries.find? fun e => e.2.deleting := by
  rw [← List.head?_filter, ← List.head?_filter, h.deleted_mem]

/-- The entries a delta starts over with, and what is stored of the others, are all entries but the deleted one. -/
theorem retry_fill (h : Sim valueSize c a) (hp : a.segment.pagingPosition ≠ 0) (hd : a.segment.deleted = false)
    {prea posta : List (K × Entry)} (hc : entries c = pre ++ d :: post)
    (ha : a.segment.entries = prea ++ d :: posta) (hdel : d.2.deleting = true)
    (hfirst : ∃ e, (entries c).head? = some e ∧ e.2.deleting = false)
    (hstored : stored valueSize cardinality c d.1 = false) :
    fillSegment valueSize cardinality (setEntries c (pre.map mark ++ post))
      = some { setEntries c (prea.map mark ++ posta) with isVirtual := false, purged := false } := by
  have hsc : Sorted (pre ++ d :: post) := hc ▸ h.sorted
  have hsa : Sorted (prea ++ d :: posta) := ha ▸ h.inv.sorted
  have hnone : lookup a.indexed d.1 = none := by
    rw [h.stored_eq hp hd] at hstored
    exact not_isSome_iff_eq_none.mp (by simp [hstored])
  have hkey (e : K × Entry) : (if e.1 < d.1 then mark e else e).1 = e.1 := by split <;> rfl
  have hsorted {l : List (K × Entry)} (hl : Sorted l) :
      Sorted ((l.filter fun e => e.1 ≠ d.1).map fun e => if e.1 < d.1 then mark e else e) := by
    refine List.pairwise_map.mpr ((hl.filter _).imp fun {x y} hxy => ?_)
    rw [hkey, hkey]
    exact hxy
  rw [retry_eq hsc, retry_eq hsa, ← hc, ← ha]
  refine fillSegment_eq h hp hd (hsorted h.sorted) (hsorted h.inv.sorted) ?_ ?_ ?_ ?_
  · intro e he
    obtain ⟨x, hx, rfl⟩ := List.mem_map.mp he
    obtain ⟨hx, hne⟩ := List.mem_filter.mp hx
    exact List.mem_map.mpr ⟨x, List.mem_filter.mpr ⟨h.part x hx, hne⟩, rfl⟩
  · intro e he hm
    obtain ⟨x, hx, rfl⟩ := List.mem_map.mp he
    obtain ⟨hx, hne⟩ := List.mem_filter.mp hx
    have hout : x ∉ entries c := fun hin => hm (List.mem_map.mpr ⟨x, List.mem_filter.mpr ⟨hin, hne⟩, rfl⟩)
    have hdrop := h.dropped x hx hout
    have hsame : (if x.1 < d.1 then mark x else x) = x := by
      split
      · exact mark_of_indexed hdrop.1
      · rfl
    rw [hsame]
    exact ⟨eq_of_entry hdrop, h.inv.marked x hx hdrop.1 hdrop.2⟩
  · intro k v hk
    obtain ⟨x, hx, hxk⟩ := h.inv.kept k v hk
    have hne : x.1 ≠ d.1 := by
      intro heq
      rw [← hxk, heq, hnone] at hk
      cases hk
    exact ⟨_, List.mem_map.mpr ⟨x, List.mem_filter.mpr ⟨hx, decide_eq_true hne⟩, rfl⟩, (hkey x).trans hxk⟩
  · intro b hb
    obtain ⟨e, he, hhead, hek⟩ := h.first_mem hp hd hb
    obtain ⟨e', hhead', halive⟩ := hfirst
    rw [hhead] at hhead'
    cases hhead'
    have hne : e.1 ≠ d.1 := by
      intro heq
      have hsame := unique_of_sorted h.sorted he (by rw [hc]; simp : d ∈ entries c) heq
      rw [hsame, hdel] at halive
      cases halive
    exact ⟨_, List.mem_map.mpr ⟨e, List.mem_filter.mpr ⟨he, decide_eq_true hne⟩, rfl⟩, (hkey e).trans hek⟩

theorem cycle_sim (h : Sim valueSize c a)
    (hsafe : CycleSafe valueSize cardinality c (.index f position rebuild refs))
    (hstep : step valueSize cardinality c (.index f position rebuild refs) = some c') : ∃ a', Sim valueSize c' a' := by
  obtain ⟨⟨hd, hne, hend, h0, hrefs⟩, hcycle⟩ := ite_none_right_eq_some.mp hstep
  rw [h.deleted_eq] at hd
  rw [h.length_eq] at hend
  have hnea : a.segment.entries ≠ [] := by
    intro hnil
    have hhead := h.head
    rw [hnil] at hhead
    exact hne (List.head?_eq_none_iff.mp hhead)
  unfold cycle at hcycle
  by_cases hreb : rebuilds c.paging f rebuild = true
  · rw [if_pos hreb, h.fillSetup hd] at hcycle
    cases hcycle
    refine ⟨indexSegment valueSize a f position true refs, page_sim h ?_ rfl rfl rfl rfl hd hnea hend h0 hrefs⟩
    rw [full_paging h]
    rfl
  · rw [if_neg hreb] at hcycle
    have hreb : rebuilds c.paging f rebuild = false := by simpa using hreb
    obtain ⟨rfl, -⟩ : rebuild = false ∧ _ := Bool.or_eq_false_iff.mp hreb
    have hreba : rebuilds a f false = false := (h.rebuilds_eq false).symm.trans hreb
    cases hfind : (entries c).find? (fun e => e.2.deleting) with
    | none =>
      have hes : ∀ x ∈ entries c, x.2.deleting = false := fun x hx => by simpa using List.find?_eq_none.mp hfind x hx
      obtain ⟨e, rest, hc⟩ := List.exists_cons_of_ne_nil hne
      have hwalk := walk_delta valueSize (hc ▸ hes)
      rw [← hc] at hwalk
      rw [hwalk] at hcycle
      cases hcycle
      exact ⟨_, delta_sim h hd hne hes hreba hend h0 hrefs⟩
    | some d =>
      have hfinda := h.find?_deleting
      rw [hfind] at hfinda
      obtain ⟨hdel, pre, post, hc, hpre⟩ := List.find?_eq_some_iff_append.mp hfind
      obtain ⟨-, prea, posta, ha, hprea⟩ := List.find?_eq_some_iff_append.mp hfinda.symm
      have hpre : ∀ e ∈ pre, e.2.deleting = false := fun e he => by simpa using hpre e he
      have hprea : ∀ e ∈ prea, e.2.deleting = false := fun e he => by simpa using hprea e he
      have hwalk : walkSegment valueSize false 0 .begin (entries c) = .inr (pre.map mark ++ post) := by
        rw [hc, walk_meets 0 .begin hpre hdel]
        rfl
      rw [hwalk] at hcycle
      -- whether there is something to fill or not, the rebuild has all entries but the deleted one
      have hsetup : c' = page valueSize { setEntries c (prea.map mark ++ posta) with isVirtual := false, purged := false }
          f position true refs := by
        by_cases hpv : c.purged = true ∨ c.isVirtual = true
        · obtain ⟨hp, hfirst⟩ := h.first hpv
          have hstored : stored valueSize cardinality c d.1 = false := by simpa [hfind] using hsafe hpv hreb
          have hfill := retry_fill h hp hd hc ha hdel hfirst hstored
          have hsome : pre.map mark ++ post ≠ [] := by
            obtain ⟨e, hhead, halive⟩ := hfirst
            cases pre with
            | nil =>
              rw [hc] at hhead
              cases hhead
              rw [hdel] at halive
              cases halive
            | cons x pre => exact List.cons_ne_nil _ _
          obtain ⟨x, rest, heq⟩ := List.exists_cons_of_ne_nil hsome
          have hunfilled : (setEntries c (pre.map mark ++ post)).purged = true
              ∨ (setEntries c (pre.map mark ++ post)).isVirtual = true := hpv
          rw [heq] at hcycle
          simp only [← heq, fillSetup, if_pos hunfilled, hfill, map_some] at hcycle
          exact (Option.some.inj hcycle).symm
        · have hpur : c.purged = false := by simpa using fun hx => hpv (.inl hx)
          have hvir : c.isVirtual = false := by simpa using fun hx => hpv (.inr hx)
          have hrest : pre.map mark ++ post = prea.map mark ++ posta := by
            rw [retry_eq (hc ▸ h.sorted), retry_eq (ha ▸ h.inv.sorted), ← hc, ← ha, h.filled hpur hvir]
          have hflags : { setEntries c (prea.map mark ++ posta) with isVirtual := false, purged := false }
              = setEntries c (prea.map mark ++ posta) := by
            cases c
            cases hpur
            cases hvir
            rfl
          have hfilled : ¬((setEntries c (prea.map mark ++ posta)).purged = true
              ∨ (setEntries c (prea.map mark ++ posta)).isVirtual = true) := hpv
          rw [hflags]
          rw [hrest] at hcycle
          cases hx : prea.map mark ++ posta with
          | nil =>
            rw [hx] at hcycle
            exact (Option.some.inj hcycle).symm
          | cons x rest =>
            rw [hx] at hcycle hfilled
            simp only [fillSetup, if_neg hfilled, map_some] at hcycle
            exact (Option.some.inj hcycle).symm
      rw [hsetup]
      refine ⟨indexSegment valueSize a f position false refs, page_sim h ?_ rfl rfl rfl rfl hd hnea hend h0 hrefs⟩
      rw [index_retry ha hprea hdel hreba]
      show indexSegment valueSize (holding c.paging _) f position true refs = _
      rw [h.same]
      rfl

end Cycles

/-! ## Runs -/

section Runs
variable {valueSize : Option Nat} {cardinality : Bool} {s s' : St K}

/-- A segment that may be purged does what one does that is not. -/
theorem step_sim {a : KeyPaging.St K} {e : Ev K} (h : Sim valueSize s a) (hsafe : CycleSafe valueSize cardinality s e)
    (hstep : step valueSize cardinality s e = some s') : ∃ a', Sim valueSize s' a' := by
  cases e with
  | put key l => exact put_sim h hstep
  | reserve key l => exact reserve_sim h hstep
  | delete key => exact delete_sim h hstep
  | index f position rebuild refs => exact cycle_sim h hsafe hstep
  | purge => exact ⟨a, purge_sim h hstep⟩
  | semiPurge => exact ⟨a, semiPurge_sim h hstep⟩
  | fill => exact ⟨a, fill_sim h hstep⟩

theorem sim (h : Reach (step valueSize cardinality) (CycleSafe valueSize cardinality) init s) : ∃ a, Sim valueSize s a :=
  Reach.inv (P := fun s => ∃ a, Sim valueSize s a) ⟨_, init_sim valueSize⟩
    (fun ⟨_, h⟩ hsafe hstep => step_sim h hsafe hstep) h

end Runs

instance (valueSize : Option Nat) (cardinality : Bool) (s : St K) : ∀ e, Decidable (CycleSafe valueSize cardinality s e)
  | .index f _ rebuild _ => inferInstanceAs (Decidable (s.purged ∨ s.isVirtual → rebuilds s.paging f rebuild = false →
      ((entries s).find? fun e => e.2.deleting).all (fun d => !stored valueSize cardinality s d.1)))
  | .put .. | .reserve .. | .delete _ | .purge | .semiPurge | .fill => .isTrue trivial

/-- A key that is deleted before it is stored, behind a semi purge; then a full purge, a reserved key, an update, and a cycle in
    another file. -/
def purges : List (Ev Nat) :=
  [.put 1 ⟨1, 10, 4, offsetNone⟩, .put 2 ⟨1, 20, 4, offsetNone⟩, .index 1 12 false 0, .put 3 ⟨1, 30, 4, offsetNone⟩, .delete 3,
   .semiPurge, .index 1 99 false 1, .purge, .reserve 9 ⟨1, 40, 5, offsetNone⟩, .semiPurge, .index 1 130 false 0,
   .put 2 ⟨2, 50, 5, offsetNone⟩, .semiPurge, .index 2 12 false 0, .purge]

end DeepFabric.Store.Purge
