/-
  DeepFabric.Store.PrimaryKey — the primary key inside a secondary one (api/deep/KeyBuilder.h:
  getPrimaryKey; api/deep/Store.h: addKeyPart, getHiddenKey).

  A secondary key has the parts of the primary key among its own, each with its position in the
  primary key, or a hidden part with the whole primary key. getPrimaryKey walks over all parts,
  remembers where those of the primary key are, and then copies them in the order of the primary key.

  A part that is null and does not clear its slot has the bytes of another key in either of the
  keys, and these need not be the same.

  - `primary_key_iff`: the copy is the primary key, whatever was in the buffers, if no part of the
    primary key that leaves bytes unwritten is null; and only then, if no column is longer than its
    part. The hidden part always has the primary key.
-/
import Mathlib.Data.List.Induction
import DeepFabric.Store.KeyEquality

namespace DeepFabric.Store.PrimaryKey

open DeepFabric.Lib Buffer CompositeKey KeyFill KeyImage List

/-- The first loop of getPrimaryKey: where the parts of the primary key are, how long, and how many. -/
def collect (key : Buffer) : List KeyPart → (keyOffset : Nat) → (keyPartOffset keyPartLength : Nat → Nat) → (primaryKeyParts : Nat) →
    (Nat → Nat) × (Nat → Nat) × Nat
  | [], _, keyPartOffset, keyPartLength, primaryKeyParts => (keyPartOffset, keyPartLength, primaryKeyParts)
  | part :: parts, keyOffset, keyPartOffset, keyPartLength, primaryKeyParts =>
    let packLength := part.getPackLength key keyOffset
    if part.primaryPosition ≠ -1 then
      let i := part.primaryPosition.toNat
      collect key parts (keyOffset + packLength) (Function.update keyPartOffset i (keyOffset % 2 ^ 16))
        (Function.update keyPartLength i packLength) (primaryKeyParts + 1)
    else collect key parts (keyOffset + packLength) keyPartOffset keyPartLength primaryKeyParts

/-- The second loop, for `count` turns from part `i` on. -/
def copyParts (key : Buffer) (keyPartOffset keyPartLength : Nat → Nat) : (count i : Nat) → (keyBuffer : Buffer) → (keyOffset : Nat) → Buffer
  | 0, _, keyBuffer, _ => keyBuffer
  | count + 1, i, keyBuffer, keyOffset =>
    copyParts key keyPartOffset keyPartLength count (i + 1) (keyBuffer.memcpy keyOffset key (keyPartOffset i) (keyPartLength i))
      (keyOffset + keyPartLength i)

def getPrimaryKey (parts : List KeyPart) (key keyBuffer : Buffer) (keyPartOffset keyPartLength : Nat → Nat) : Buffer :=
  let r := collect key parts 0 keyPartOffset keyPartLength 0
  -- the first turn comes before the loop's condition
  copyParts key r.1 r.2.1 (max 1 r.2.2) 0 keyBuffer 0

/-- Store::addKeyPart, of the parts and m_hiddenKeyPart. -/
def addKeyPart (store : List KeyPart × Int) (part : KeyPart) : List KeyPart × Int :=
  (store.1 ++ [part], if part.type = .hidden then store.1.length else store.2)

def hiddenKeyPart (parts : List KeyPart) : Int := (parts.foldl addKeyPart ([], -1)).2

/-- The place of the hidden part in a key. -/
def getHiddenKey (parts : List KeyPart) (key : Buffer) : Except String Nat :=
  if hiddenKeyPart parts ≠ -1 then
    .ok ((parts.take (hiddenKeyPart parts).toNat).foldl (fun offset part => offset + part.getPackLength key offset) 0)
  else .error "Primary key is not contained in this key"

def atPosition (part : KeyPart) (i : Nat) : KeyPart := { part with primaryPosition := i }

/-- The parts of a primary key with their positions. -/
def numbered (primary : List KeyPart) : List KeyPart := primary.zipIdx.map fun p => atPosition p.1 p.2

/-- Among the parts of the secondary key are those of the primary key, each of them once, in any order. -/
def Contains (primary secondary : List KeyPart) : Prop :=
  (secondary.filter fun part => part.primaryPosition ≠ -1).Perm (numbered primary)

/-- Out of the secondary key of a row comes its primary key, whatever was in the buffers. -/
def Extracts (populate : Populate) (primary secondary : List KeyPart) (pkey value : Buffer) : Prop :=
  ∀ (key key' : Key) (keyBuffer : Buffer) (keyPartOffset keyPartLength : Nat → Nat), ∃ k k',
    fillKey populate secondary (some pkey) value key = .ok k ∧ fillKey populate primary (some pkey) value key' = .ok k' ∧
      ∀ i, getPrimaryKey secondary k.data keyBuffer keyPartOffset keyPartLength i = if i < k'.length then k'.data i else keyBuffer i

/-- The hidden part of a secondary key, if it has one, is the primary key. -/
def Hides (populate : Populate) (secondary : List KeyPart) (pkey value : Buffer) : Prop :=
  (∃ part ∈ secondary, part.type = .hidden) → ∀ key : Key, ∃ k p,
    fillKey populate secondary (some pkey) value key = .ok k ∧ getHiddenKey secondary k.data = .ok p ∧ bytes k.data p 8 = bytes pkey 0 8

/-- The number of a row, as primary key and behind two bytes of the row in a secondary one. -/
def byNumber (nullBit : UInt8) : List KeyPart := [⟨⟨.longInt, 4, nullBit, -1, 0⟩, 1, 0, -1⟩]

def byBytesAndNumber (nullBit : UInt8) : List KeyPart := [⟨⟨.binary, 2, 0, -1, 0⟩, 5, 0, -1⟩, ⟨⟨.longInt, 4, nullBit, -1, 0⟩, 1, 0, 0⟩]

theorem byNumber_contained (nullBit : UInt8) : Contains (byNumber nullBit) (byBytesAndNumber nullBit) := List.Perm.refl _

/-- The number is null, and the bytes behind its null byte are those of two other keys. -/
theorem as_built_null_primary_differs : Contains (byNumber 1) (byBytesAndNumber 1) ∧
    ¬Extracts KeyGeometry.copyAll (byNumber 1) (byBytesAndNumber 1) (fun _ => 0) fun _ => 1 := by
  refine ⟨byNumber_contained 1, ?_⟩
  intro h
  obtain ⟨k, k', hk, hk', h⟩ := h (KeyEquality.keyOver fun _ => 0) (KeyEquality.keyOver fun _ => 1) (fun _ => 0) (fun _ => 0) fun _ => 0
  obtain rfl := Except.ok.inj hk
  obtain rfl := Except.ok.inj hk'
  exact absurd (h 1) (by decide)

variable {populate : Populate} {pkey value key keyBuffer : Buffer} {part : KeyPart} {parts primary secondary : List KeyPart}
  {keyPartOffset keyPartLength : Nat → Nat} {d i n : Nat}

/-! ## The walk -/

theorem collect_other (h : ∀ part ∈ parts, part.primaryPosition ≠ -1 → part.primaryPosition.toNat ≠ i) :
    (collect key parts d keyPartOffset keyPartLength n).1 i = keyPartOffset i ∧
      (collect key parts d keyPartOffset keyPartLength n).2.1 i = keyPartLength i := by
  induction parts generalizing d keyPartOffset keyPartLength n with
  | nil => exact ⟨rfl, rfl⟩
  | cons part parts ih =>
    have htail := fun p (hp : p ∈ parts) => h p (mem_cons_of_mem _ hp)
    rw [collect]
    split_ifs with hpos
    · have hne : i ≠ part.primaryPosition.toNat := Ne.symm (h part mem_cons_self hpos)
      rw [(ih htail).1, (ih htail).2, Function.update_of_ne hne, Function.update_of_ne hne]
      exact ⟨rfl, rfl⟩
    · exact ih htail

theorem collect_count : (collect key parts d keyPartOffset keyPartLength n).2.2 =
    n + (parts.filter fun part => part.primaryPosition ≠ -1).length := by
  induction parts generalizing d keyPartOffset keyPartLength n with
  | nil => rfl
  | cons part parts ih =>
    rw [collect, filter_cons]
    by_cases hpos : part.primaryPosition ≠ -1
    · rw [if_pos hpos, if_pos (decide_eq_true hpos), ih, length_cons]
      omega
    · rw [if_neg hpos, if_neg (by simpa using hpos), ih]

theorem collect_spec (hl : Leading populate) {l r : List KeyPart} (h : Short (l ++ part :: r))
    (hd : d + ((l ++ part :: r).map KeyPart.slot).sum < 2 ^ 16) (hk : ShownFrom populate pkey value (l ++ part :: r) key d)
    (hpos : part.primaryPosition ≠ -1)
    (honce : ∀ p ∈ r, p.primaryPosition ≠ -1 → p.primaryPosition.toNat ≠ part.primaryPosition.toNat) :
    (collect key (l ++ part :: r) d keyPartOffset keyPartLength n).1 part.primaryPosition.toNat = d + fillLength populate value l ∧
      (collect key (l ++ part :: r) d keyPartOffset keyPartLength n).2.1 part.primaryPosition.toNat = part.fillWidth populate value := by
  induction l generalizing d keyPartOffset keyPartLength n with
  | nil =>
    obtain ⟨hs, hslot⟩ := h.head
    rw [nil_append, map_cons, sum_cons] at hd
    rw [nil_append, collect, if_pos hpos, (collect_other honce).1, (collect_other honce).2, Function.update_self,
      Function.update_self, hk.1.getPackLength hl hs hslot, Nat.mod_eq_of_lt (by omega)]
    exact ⟨rfl, rfl⟩
  | cons p l ih =>
    obtain ⟨hs, hslot⟩ := h.head
    have hw := fillWidth_le_slot hl hs value
    rw [cons_append, map_cons, sum_cons] at hd
    rw [cons_append, collect, hk.1.getPackLength hl hs hslot, fillLength_cons, ← Nat.add_assoc]
    split_ifs
    · exact ih h.tail (by omega) hk.2
    · exact ih h.tail (by omega) hk.2

/-! ## The copy -/

/-- Parts that are where they are looked for are copied one behind the other. -/
theorem copyParts_eq (h : ∀ j (hj : j < parts.length), keyPartLength (i + j) = parts[j].fillWidth populate value ∧
    bytes key (keyPartOffset (i + j)) (parts[j].fillWidth populate value) =
      (parts[j].image populate pkey value).take (parts[j].fillWidth populate value)) :
    copyParts key keyPartOffset keyPartLength parts.length i keyBuffer d = put keyBuffer d (image populate pkey value parts) := by
  induction parts generalizing i d keyBuffer with
  | nil => exact put_nil.symm
  | cons part parts ih =>
    obtain ⟨hlen, hbytes⟩ := h 0 (Nat.succ_pos _)
    simp only [Nat.add_zero, getElem_cons_zero] at hlen hbytes
    have hwidth : ((part.image populate pkey value).take (part.fillWidth populate value)).length = part.fillWidth populate value := by
      rw [← hbytes, length_bytes]
    have hrest : ∀ j (hj : j < parts.length), keyPartLength (i + 1 + j) = parts[j].fillWidth populate value ∧
        bytes key (keyPartOffset (i + 1 + j)) (parts[j].fillWidth populate value) =
          (parts[j].image populate pkey value).take (parts[j].fillWidth populate value) := by
      intro j hj
      have := h (j + 1) (Nat.succ_lt_succ hj)
      rw [Nat.add_assoc, Nat.add_comm 1]
      exact this
    have hnext : d + part.fillWidth populate value =
        d + ((part.image populate pkey value).take (part.fillWidth populate value)).length := by rw [hwidth]
    rw [length_cons, copyParts, hlen, ih hrest, memcpy_eq_put, hbytes, hnext]
    rw [put_append]
    rfl

/-! ## The parts of the primary key -/

theorem numbered_positions (primary : List KeyPart) :
    (numbered primary).map (fun part => part.primaryPosition.toNat) = List.range primary.length := by
  refine ext_getElem (by simp [numbered]) fun i h1 h2 => ?_
  simp [numbered, atPosition]

theorem ShownFrom.mid {l r : List KeyPart} (h : ShownFrom populate pkey value (l ++ part :: r) key d) :
    Shown populate pkey value part key (d + fillLength populate value l) := by
  induction l generalizing d with
  | nil => exact h.1
  | cons p l ih =>
    rw [fillLength_cons, ← Nat.add_assoc]
    exact ih h.2

theorem payload_atPosition : (atPosition part i).payload populate value = part.payload populate value := by
  have hoffset : ∀ n, (atPosition part i).variableOffset value n = part.variableOffset value n := by
    intro n
    induction n with
    | zero => rfl
    | succ n ih =>
      rw [KeyPart.variableOffset, KeyPart.variableOffset, ih]
      rfl
  have hlength : (atPosition part i).variableLength value = part.variableLength value := by
    rw [KeyPart.variableLength, hoffset]
    rfl
  have hdata : (atPosition part i).variableData value = part.variableData value := by
    rw [KeyPart.variableData, hoffset]
    rfl
  unfold KeyPart.payload
  rw [hlength, hdata]
  rfl

theorem fillWidth_atPosition : (atPosition part i).fillWidth populate value = part.fillWidth populate value := by
  unfold KeyPart.fillWidth
  rw [payload_atPosition]
  rfl

theorem image_atPosition : (atPosition part i).image populate pkey value = part.image populate pkey value := by
  have hhead : (atPosition part i).head populate value = part.head populate value := by
    unfold KeyPart.head
    rw [payload_atPosition]
    rfl
  unfold KeyPart.image
  rw [hhead]
  rfl

theorem shown_atPosition : Shown populate pkey value (atPosition part i) key d ↔ Shown populate pkey value part key d := by
  unfold Shown
  rw [fillWidth_atPosition, image_atPosition]

/-- A part of the primary key is in the secondary one, and no other part there has its position. -/
theorem Contains.split (h : Contains primary secondary) (hi : i < primary.length) : ∃ l r,
    secondary = l ++ atPosition primary[i] i :: r ∧
      ∀ p ∈ r, p.primaryPosition ≠ -1 → p.primaryPosition.toNat ≠ i := by
  have hmem : atPosition primary[i] i ∈ numbered primary :=
    mem_map.mpr ⟨(primary[i], i), by rw [mk_mem_zipIdx_iff_getElem?]; exact List.getElem?_eq_getElem hi, rfl⟩
  obtain ⟨l, r, hsplit⟩ := append_of_mem (mem_of_mem_filter (h.mem_iff.mpr hmem))
  refine ⟨l, r, hsplit, ?_⟩
  intro p hp hpos heq
  have hnodup : ((secondary.filter fun part => part.primaryPosition ≠ -1).map fun part => part.primaryPosition.toNat).Nodup := by
    rw [(h.map _).nodup_iff, numbered_positions]
    exact nodup_range
  rw [hsplit, filter_append, filter_cons, if_pos (by simp [atPosition]), map_append, map_cons] at hnodup
  have hother := (nodup_cons.mp (nodup_append.mp hnodup).2.1).1
  refine hother (mem_map.mpr ⟨p, mem_filter.mpr ⟨hp, decide_eq_true hpos⟩, ?_⟩)
  rw [heq]
  rfl

/-- After the walk over a filled key, a part of the primary key is where its position says. -/
theorem collected (hl : Leading populate) (secondary : KeySchema) (h : Contains primary secondary.parts)
    (hshown : ShownFrom populate pkey value secondary.parts key 0) (hi : i < primary.length) (keyPartOffset keyPartLength : Nat → Nat) :
    let r := collect key secondary.parts 0 keyPartOffset keyPartLength 0
    r.2.1 i = primary[i].fillWidth populate value ∧ Shown populate pkey value primary[i] key (r.1 i) := by
  obtain ⟨l, r, hsplit, honce⟩ := h.split hi
  have hshort := secondary.toShort
  have hsum := secondary.short
  rw [hsplit] at hshort hsum hshown
  have hpos : (atPosition primary[i] i).primaryPosition ≠ -1 := by simp [atPosition]
  obtain ⟨hoffset, hlength⟩ := @collect_spec populate pkey value key _ keyPartOffset keyPartLength 0 0 hl l r hshort (by omega)
    hshown hpos honce
  have hi' : (atPosition primary[i] i).primaryPosition.toNat = i := rfl
  rw [hi', fillWidth_atPosition] at hlength
  rw [hi'] at hoffset
  dsimp only
  rw [hsplit, hoffset]
  exact ⟨hlength, shown_atPosition.mp (ShownFrom.mid hshown)⟩

theorem extracts_of_covered (hl : Leading populate) (primary secondary : KeySchema) (h : Contains primary.parts secondary.parts)
    (hc : ∀ part ∈ primary.parts, Covered part value) (pkey : Buffer) : Extracts populate primary.parts secondary.parts pkey value := by
  intro key key' keyBuffer keyPartOffset keyPartLength
  refine ⟨_, _, KeyEquality.fillKey_eq hl secondary.toShort _ _ _, KeyEquality.fillKey_eq hl primary.toShort _ _ _, fun i => ?_⟩
  have hshown := fillParts_shown populate pkey value key.data 0 secondary.parts
  have hwhole := fillParts_covered hl primary.toShort hc pkey key'.data 0
  have hcount : max 1 (0 + (secondary.parts.filter fun part => part.primaryPosition ≠ -1).length) = primary.parts.length := by
    have hlen := h.length_eq
    have hpos := length_pos_iff.mpr primary.nonempty
    rw [numbered, length_map, length_zipIdx] at hlen
    omega
  have hcopy : ∀ j (hj : j < primary.parts.length),
      let r := collect (fillParts populate pkey value secondary.parts key.data 0) secondary.parts 0 keyPartOffset keyPartLength 0
      r.2.1 (0 + j) = primary.parts[j].fillWidth populate value ∧
        bytes (fillParts populate pkey value secondary.parts key.data 0) (r.1 (0 + j)) (primary.parts[j].fillWidth populate value) =
          (primary.parts[j].image populate pkey value).take (primary.parts[j].fillWidth populate value) := by
    intro j hj
    have hpart := getElem_mem hj
    obtain ⟨hlength, hpartShown⟩ := collected hl secondary h hshown hj keyPartOffset keyPartLength
    rw [Nat.zero_add]
    exact ⟨hlength, Shown.whole hpartShown
      ((covered_iff pkey hl (primary.sound _ hpart) (slot_lt primary.toShort hpart)).mp (hc _ hpart))⟩
  dsimp only
  rw [getPrimaryKey, collect_count, hcount, copyParts_eq hcopy, ← hwhole, ← memcpy_eq_put]
  unfold memcpy
  simp only [Nat.zero_le, true_and, Nat.zero_add, Nat.sub_zero]

/-! ## The hidden part -/

theorem addKeyPart_parts (parts : List KeyPart) : (parts.foldl addKeyPart ([], -1)).1 = parts := by
  induction parts using List.reverseRecOn with
  | nil => rfl
  | append_singleton parts part ih => rw [foldl_append, foldl_cons, foldl_nil, addKeyPart, ih]

theorem hiddenKeyPart_append : hiddenKeyPart (parts ++ [part]) = if part.type = .hidden then (parts.length : Int) else hiddenKeyPart parts := by
  rw [hiddenKeyPart, foldl_append, foldl_cons, foldl_nil, addKeyPart, addKeyPart_parts]
  rfl

theorem hiddenKeyPart_spec (h : ∃ part ∈ parts, part.type = .hidden) :
    ∃ l part r, parts = l ++ part :: r ∧ part.type = .hidden ∧ hiddenKeyPart parts = l.length := by
  induction parts using List.reverseRecOn with
  | nil =>
    obtain ⟨part, hpart, -⟩ := h
    exact absurd hpart not_mem_nil
  | append_singleton parts last ih =>
    rw [hiddenKeyPart_append]
    by_cases ht : last.type = .hidden
    · exact ⟨parts, last, [], rfl, ht, if_pos ht⟩
    · obtain ⟨part, hpart, hhidden⟩ := h
      have hmem : part ∈ parts := by
        rcases mem_append.mp hpart with hp | hp
        · exact hp
        · exact absurd (mem_singleton.mp hp ▸ hhidden) ht
      obtain ⟨l, p, r, hsplit, hp, hplace⟩ := ih ⟨part, hmem, hhidden⟩
      exact ⟨l, p, r ++ [last], by rw [hsplit]; simp, hp, by rw [if_neg ht, hplace]⟩

theorem foldl_packLength (hl : Leading populate) (h : Short parts) (hk : ShownFrom populate pkey value parts key d) :
    parts.foldl (fun offset part => offset + part.getPackLength key offset) d = d + fillLength populate value parts := by
  induction parts generalizing d with
  | nil => rfl
  | cons part parts ih =>
    obtain ⟨hs, hslot⟩ := h.head
    rw [foldl_cons, hk.1.getPackLength hl hs hslot, ih h.tail hk.2, fillLength_cons, Nat.add_assoc]

theorem ShownFrom.left {l r : List KeyPart} (h : ShownFrom populate pkey value (l ++ r) key d) : ShownFrom populate pkey value l key d := by
  have := h.take l.length
  rwa [take_left] at this

theorem hidden_key (hl : Leading populate) (secondary : KeySchema) (h8 : ∀ part ∈ secondary.parts, part.type = .hidden → part.length = 8)
    (pkey value : Buffer) : Hides populate secondary.parts pkey value := by
  intro hhidden key
  obtain ⟨l, part, r, hsplit, ht, hplace⟩ := hiddenKeyPart_spec hhidden
  have hpart : part ∈ secondary.parts := by
    rw [hsplit]
    exact mem_append_right _ mem_cons_self
  have hshown := fillParts_shown populate pkey value key.data 0 secondary.parts
  have hshort := secondary.toShort
  rw [hsplit] at hshown hshort
  have hleft : Short l := by
    have := hshort.take l.length
    rwa [take_left] at this
  refine ⟨_, fillLength populate value l, KeyEquality.fillKey_eq hl secondary.toShort _ _ _, ?_, ?_⟩
  · rw [getHiddenKey, hplace, if_pos (by omega), Int.toNat_natCast, hsplit, take_left,
      foldl_packLength hl hleft (ShownFrom.left hshown), Nat.zero_add]
  · have hbytes := (ShownFrom.mid hshown).bytes
      (length_image_le pkey hl (secondary.sound part hpart) (slot_lt secondary.toShort hpart) fun h' => by rw [ht] at h'; cases h')
    simp only [KeyPart.image, ht, length_bytes, h8 part hpart ht, Nat.zero_add] at hbytes
    dsimp only
    rw [hsplit]
    exact hbytes

/-! ## The primary key of a row -/

theorem stable_of_extracts (hl : Leading populate) (primary : KeySchema) (h : Extracts populate primary.parts secondary pkey value) :
    KeyEquality.Stable populate primary.parts pkey value := by
  intro key key'
  obtain ⟨k, k₁, hk, hk₁, h₁⟩ := h key key (fun _ => 0) (fun _ => 0) fun _ => 0
  obtain ⟨k', k₂, hk', hk₂, h₂⟩ := h key key' (fun _ => 0) (fun _ => 0) fun _ => 0
  obtain rfl := Except.ok.inj (hk.symm.trans hk')
  obtain rfl := Except.ok.inj ((KeyEquality.fillKey_eq hl primary.toShort pkey value key).symm.trans hk₁)
  obtain rfl := Except.ok.inj ((KeyEquality.fillKey_eq hl primary.toShort pkey value key').symm.trans hk₂)
  refine ⟨_, _, hk₁, hk₂, rfl, bytes_inj.mpr fun i hi => ?_⟩
  have hi₁ := h₁ i
  have hi₂ := h₂ i
  rw [if_pos hi] at hi₁ hi₂
  rw [Nat.zero_add, ← hi₁, ← hi₂]

theorem primary_key_iff (hl : Leading populate) (primary secondary : KeySchema) (h : Contains primary.parts secondary.parts)
    (h8 : ∀ part ∈ secondary.parts, part.type = .hidden → part.length = 8) (pkey value : Buffer) :
    Hides populate secondary.parts pkey value ∧
      ((∀ part ∈ primary.parts, Covered part value) → Extracts populate primary.parts secondary.parts pkey value) ∧
      ((∀ part ∈ primary.parts, Trimmed part value) → Extracts populate primary.parts secondary.parts pkey value →
        ∀ part ∈ primary.parts, Covered part value) := by
  refine ⟨hidden_key hl secondary h8 pkey value, fun hc => extracts_of_covered hl primary secondary h hc pkey, ?_⟩
  intro htrim hextracts
  exact KeyEquality.covered_of_stable hl primary htrim (stable_of_extracts hl primary hextracts)

/-- The number that may not be null. -/
def number : KeySchema where
  parts := byNumber 0
  nonempty := by decide
  masked := by decide
  sound := by
    intro part hp
    obtain rfl := mem_singleton.mp hp
    exact ⟨by decide, by decide⟩
  short := by decide

def bytesAndNumber : KeySchema where
  parts := byBytesAndNumber 0
  nonempty := by decide
  masked := by decide
  sound := by
    intro part hp
    rcases mem_cons.mp hp with rfl | hp
    · exact ⟨by decide, by decide⟩
    · obtain rfl := mem_singleton.mp hp
      exact ⟨by decide, by decide⟩
  short := by decide

theorem number_extracted : Extracts KeyGeometry.copyAll (byNumber 0) (byBytesAndNumber 0) (fun _ => 0) fun _ => 7 :=
  (primary_key_iff KeyGeometry.copyAll_leading number bytesAndNumber (byNumber_contained 0) (by decide) (fun _ => 0) fun _ => 7).2.1
    fun part hp hnull => by
      obtain rfl := mem_singleton.mp hp
      exact absurd hnull (by decide)

end DeepFabric.Store.PrimaryKey
