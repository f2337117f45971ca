/-
  DeepFabric.Store.CompositeOrder — compare of composite keys is the lexicographic order of their
  parts (api/deep/Comparator.h: Comparator<DeepComposite*>).
-/
import DeepFabric.Store.CompositeKey

namespace DeepFabric.Store.CompositeKey

open DeepFabric.Lib Buffer
open Std (TransCmp LawfulEqCmp OrientedCmp)

/-! ## Bytes and numbers -/

theorem bytes_succ (b : Buffer) (p n : Nat) : bytes b p (n + 1) = b p :: bytes b (p + 1) n := by
  rw [Nat.add_comm, bytes_append]
  rfl

theorem compareNumber_order (m n : Int) : Ord.compare (compareNumber m n) 0 = Ord.compare m n := by
  rw [compareNumber]
  rcases lt_trichotomy m n with h | h | h
  · rw [if_pos h, Int.compare_eq_lt.mpr h]
    rfl
  · rw [if_neg (by omega), if_pos h, Int.compare_eq_eq.mpr h]
    rfl
  · rw [if_neg (by omega), if_neg (by omega), Int.compare_eq_gt.mpr h]
    rfl

theorem memcmp_order (o1 : Buffer) (p : Nat) (o2 : Buffer) (q n : Nat) :
    Ord.compare (memcmp o1 p o2 q n) 0 = Ord.compare (bytes o1 p n) (bytes o2 q n) := by
  induction n generalizing p q with
  | zero => rfl
  | succ n ih =>
    rw [memcmp, bytes_succ, bytes_succ, List.compare_cons_cons]
    by_cases hlt : o1 p < o2 q
    · rw [if_pos hlt, Std.compare_eq_lt.mpr hlt]
      rfl
    · rw [if_neg hlt]
      by_cases heq : o1 p = o2 q
      · rw [if_pos heq, ih, Std.compare_eq_iff_eq.mpr heq]
        rfl
      · have hgt : o2 q < o1 p := by
          rcases Std.lt_trichotomy (o1 p) (o2 q) with h | h | h
          · exact absurd h hlt
          · exact absurd h heq
          · exact h
        rw [if_neg heq, Std.compare_eq_gt.mpr hgt]
        rfl

theorem compare_min (xs ys : List UInt8) :
    Ord.compare xs ys = (Ord.compare (xs.take (min xs.length ys.length)) (ys.take (min xs.length ys.length))).then
      (Ord.compare xs.length ys.length) := by
  induction xs generalizing ys with
  | nil => cases ys <;> rfl
  | cons x xs ih =>
    cases ys with
    | nil => rfl
    | cons y ys =>
      rw [List.length_cons, List.length_cons, Nat.add_min_add_right, List.take_succ_cons, List.take_succ_cons,
        List.compare_cons_cons, List.compare_cons_cons, ih, Ordering.then_assoc]
      have hlen : Ord.compare (xs.length + 1) (ys.length + 1) = Ord.compare xs.length ys.length := by
        simp only [Nat.compare_eq_ite_lt, Nat.add_lt_add_iff_right]
      rw [hlen]

theorem bytes_take (b : Buffer) (p : Nat) {m n : Nat} (h : m ≤ n) : (bytes b p n).take m = bytes b p m := by
  rw [bytes, ← List.map_take, List.take_range, Nat.min_eq_left h]
  rfl

theorem compareVarBinary_order (key1 key2 : Buffer) (d1 d2 : Nat) :
    Ord.compare (DeepKeyPart.compareVarBinary key1 key2 d1 d2) 0
      = Ord.compare (bytes key1 (d1 + 2) (load key1 d1 2)) (bytes key2 (d2 + 2) (load key2 d2 2)) := by
  rw [compare_min, length_bytes, length_bytes, bytes_take _ _ (Nat.min_le_left ..), bytes_take _ _ (Nat.min_le_right ..),
    ← memcmp_order]
  rw [DeepKeyPart.compareVarBinary]
  generalize memcmp key1 (d1 + 2) key2 (d2 + 2) (min (load key1 d1 2) (load key2 d2 2)) = cmp
  show Ord.compare (if cmp = 0 ∧ load key1 d1 2 ≠ load key2 d2 2 then (if load key1 d1 2 > load key2 d2 2 then 1 else -1) else cmp) 0 = _
  by_cases hz : cmp = 0
  · rw [hz]
    rcases lt_trichotomy (load key1 d1 2) (load key2 d2 2) with h | h | h
    · rw [if_pos ⟨rfl, by omega⟩, if_neg (by omega), Nat.compare_eq_lt.mpr h]
      rfl
    · rw [if_neg (by omega), h]
      rw [Nat.compare_eq_eq.mpr rfl]
      rfl
    · rw [if_pos ⟨rfl, by omega⟩, if_pos h, Nat.compare_eq_gt.mpr h]
      rfl
  · rw [if_neg fun h => hz h.1]
    cases hc : Ord.compare cmp 0
    · rfl
    · exact absurd (Int.compare_eq_eq.mp hc) hz
    · rfl

/-! ## One part -/

namespace DeepKeyPart

variable (part : DeepKeyPart) (charset : Charset) (key1 key2 : Buffer) (d1 d2 : Nat) (isNull : Bool)

/-- The value that compareKey finds in a part that may be null. -/
def nullable (v : Nat → Value) (key : Buffer) (d : Nat) : Option Value :=
  if part.nullKey key d then none else some (v (d + part.nullBytes))

theorem compareNull_order {values : Nat → Nat → Int} {v1 v2 : Nat → Value}
    (h : ∀ p q, Ord.compare (values p q) 0 = part.compareValue charset (v1 p) (v2 q)) :
    let result := part.compareNull key1 d1 key2 d2 isNull values
    Ord.compare result.1 0 = part.order charset (part.nullable v1 key1 d1) (part.nullable v2 key2 d2) ∧
      result.2 = (isNull || ((part.nullable v1 key1 d1).isNone && (part.nullable v2 key2 d2).isNone)) := by
  rw [compareNull, nullable, nullable, nullKey, nullKey]
  by_cases hm : part.maybeNull = true
  · have hbytes : part.nullBytes = 1 := if_pos hm
    rw [if_pos hm, hm, hbytes]
    by_cases h1 : key1 d1 = 0
    · by_cases h2 : key2 d2 = 0
      · simp [h1, h2, order, h]
      · simp [h1, h2, order, Int.compare_eq_gt]
    · by_cases h2 : key2 d2 = 0
      · simp [h1, h2, order, Int.compare_eq_lt]
      · simp [h1, h2, order]
  · have hbytes : part.nullBytes = 0 := if_neg hm
    rw [if_neg hm, hbytes]
    simp [hm, order, h]

theorem compareNumber_value (number : Buffer → Nat → Nat → Int) (size p q : Nat) :
    Ord.compare (compareNumber (number key1 p size) (number key2 q size)) 0
      = part.compareValue charset (.number (number key1 p size)) (.number (number key2 q size)) := compareNumber_order _ _

theorem compareKey_order :
    let result := part.compareKey charset key1 d1 key2 d2 isNull
    Ord.compare result.1 0 = part.order charset (part.value key1 d1) (part.value key2 d2) ∧
      result.2 = (isNull || ((part.value key1 d1).isNone && (part.value key2 d2).isNone)) := by
  have hnumber (number : Buffer → Nat → Nat → Int) (size : Nat) :=
    part.compareNull_order charset key1 key2 d1 d2 isNull (compareNumber_value part charset key1 key2 number size)
  unfold compareKey value
  cases ht : part.type with
  | longInt => exact hnumber signed 4
  | ulongInt => exact hnumber unsigned 4
  | longLong => exact hnumber signed 8
  | ulongLong => exact hnumber unsigned 8
  | shortInt => exact hnumber signed 2
  | ushortInt => exact hnumber unsigned 2
  | int24 => exact hnumber signed 3
  | uint24 => exact hnumber unsigned 3
  | int8 => exact hnumber signed 1
  | uint8 => exact hnumber unsigned 1
  | varText | fixedVarText =>
    refine @compareNull_order part charset key1 key2 d1 d2 isNull _ (fun p => .bytes (bytes key1 (p + 2) (load key1 p 2)))
      (fun q => .bytes (bytes key2 (q + 2) (load key2 q 2))) fun p q => ?_
    simp only [compareValue, ht]
  | text | textMultibyte =>
    refine @compareNull_order part charset key1 key2 d1 d2 isNull _ (fun p => .bytes (bytes key1 p part.length))
      (fun q => .bytes (bytes key2 q part.length)) fun p q => ?_
    simp only [compareValue, ht]
  | binary =>
    refine @compareNull_order part charset key1 key2 d1 d2 isNull _ (fun p => .bytes (bytes key1 p part.length))
      (fun q => .bytes (bytes key2 q part.length)) fun p q => ?_
    simp only [compareValue, ht]
    exact memcmp_order key1 p key2 q part.length
  | varBinary | fixedVarBinary =>
    refine @compareNull_order part charset key1 key2 d1 d2 isNull _ (fun p => .bytes (bytes key1 (p + 2) (load key1 p 2)))
      (fun q => .bytes (bytes key2 (q + 2) (load key2 q 2))) fun p q => ?_
    simp only [compareValue, ht]
    exact compareVarBinary_order key1 key2 p q
  | hidden =>
    generalize unsigned key1 d1 8 = m
    generalize unsigned key2 d2 8 = n
    exact ⟨compareNumber_order m n, (Bool.or_false isNull).symm⟩

/-- A part whose values are compared by a character set. -/
def isText : Bool :=
  match part.type with
  | .varText | .fixedVarText | .text | .textMultibyte => true
  | _ => false

variable {part charset}

theorem compareValue_bytes (xs ys : List UInt8) :
    part.compareValue charset (.bytes xs) (.bytes ys)
      = if part.isText then Ord.compare (charset part.characterSet xs ys) 0 else Ord.compare xs ys := by
  unfold compareValue isText
  cases part.type <;> rfl

theorem charset_transCmp (h : TotalPreorder (charset part.characterSet)) :
    TransCmp fun xs ys => Ord.compare (charset part.characterSet xs ys) 0 where
  eq_swap {xs ys} := by
    have h₁ := h.swap xs ys
    have h₂ := h.swap ys xs
    rcases lt_trichotomy (charset part.characterSet xs ys) 0 with hlt | heq | hgt
    · rw [Int.compare_eq_lt.mpr hlt, Int.compare_eq_gt.mpr (h₁.mp hlt)]
      rfl
    · have hzero : charset part.characterSet ys xs = 0 := by omega
      rw [heq, hzero]
      rfl
    · rw [Int.compare_eq_gt.mpr hgt, Int.compare_eq_lt.mpr (h₂.mpr hgt)]
      rfl
  isLE_trans {xs ys zs} hxy hyz := by
    rw [Int.isLE_compare] at hxy hyz ⊢
    exact h.trans xs ys zs hxy hyz

theorem bytes_transCmp (h : TotalPreorder (charset part.characterSet)) :
    TransCmp fun xs ys => part.compareValue charset (.bytes xs) (.bytes ys) := by
  simp only [compareValue_bytes]
  by_cases ht : part.isText = true
  · simp only [ht, if_true]
    exact charset_transCmp h
  · simp only [ht]
    exact inferInstanceAs (TransCmp (Ord.compare : List UInt8 → List UInt8 → Ordering))

theorem compareValue_transCmp (h : TotalPreorder (charset part.characterSet)) : TransCmp (part.compareValue charset) where
  eq_swap {a b} := by
    have hbytes := bytes_transCmp h
    cases a with
    | number m =>
      cases b with
      | number n => exact @Std.OrientedOrd.eq_swap Int _ _ m n
      | bytes ys => rfl
    | bytes xs =>
      cases b with
      | number n => rfl
      | bytes ys => exact hbytes.eq_swap
  isLE_trans {a b c} hab hbc := by
    have hbytes := bytes_transCmp h
    cases a with
    | number m =>
      cases c with
      | number k =>
        cases b with
        | number n => exact @Std.TransOrd.isLE_trans Int _ _ m n k hab hbc
        | bytes ys => cases hbc
      | bytes zs => rfl
    | bytes xs =>
      cases b with
      | number n => cases hab
      | bytes ys =>
        cases c with
        | number k => cases hbc
        | bytes zs => exact hbytes.isLE_trans hab hbc

theorem order_transCmp (h : TotalPreorder (charset part.characterSet)) : TransCmp (part.order charset) where
  eq_swap {a b} := by
    have hvalue := compareValue_transCmp h
    cases a <;> cases b
    · rfl
    · rfl
    · rfl
    · exact hvalue.eq_swap
  isLE_trans {a b c} hab hbc := by
    have hvalue := compareValue_transCmp h
    cases a with
    | none => cases c <;> rfl
    | some x =>
      cases b with
      | none => cases hab
      | some y =>
        cases c with
        | none => cases hbc
        | some z => exact hvalue.isLE_trans hab hbc

/-- Where no character set has a say, only equal values compare equal. -/
theorem order_lawfulEqCmp (h : part.isText = false) : LawfulEqCmp (part.order charset) where
  compare_self {a} := by
    cases a with
    | none => rfl
    | some a =>
      cases a with
      | number n => exact Int.compare_eq_eq.mpr rfl
      | bytes xs =>
        rw [order, compareValue_bytes, h]
        exact Std.compare_self
  eq_of_compare {a b} hab := by
    cases a with
    | none =>
      cases b with
      | none => rfl
      | some b => cases hab
    | some a =>
      cases b with
      | none => cases hab
      | some b =>
        cases a with
        | number m =>
          cases b with
          | number n => rw [Int.compare_eq_eq.mp hab]
          | bytes ys => cases hab
        | bytes xs =>
          cases b with
          | number n => cases hab
          | bytes ys =>
            rw [order, compareValue_bytes, h] at hab
            rw [Std.LawfulEqOrd.eq_of_compare hab]

theorem order_eq_isNone {a b : Option Value} (h : part.order charset a b = .eq) : a.isNone = b.isNone := by
  cases a <;> cases b
  · rfl
  · cases h
  · cases h
  · rfl

end DeepKeyPart

/-! ## In step -/

/-- The values that compare finds on its way. -/
def walk : List DeepKeyPart → Buffer → Nat → List (Option Value)
  | [], _, _ => []
  | part :: parts, key, d => part.value key d :: walk parts key (d + part.getPackLength key d)

theorem length_walk (parts : List DeepKeyPart) (key : Buffer) (d : Nat) : (walk parts key d).length = parts.length := by
  induction parts generalizing d with
  | nil => rfl
  | cons part parts ih => exact congrArg (· + 1) (ih _)

/-- How many parts are in reach of a search key, and what tells when these are all equal. -/
def reach (w : DeepComposite) (weight : Int) : List DeepKeyPart → (m1 m2 : Nat) → (isNull : Bool) → (d : Nat) → Nat × Int
  | [], _, _, _, _ => (0, 0)
  | part :: parts, m1, m2, isNull, d =>
    let isNull := isNull || (part.value w.data d).isNone
    let d' := d + part.getPackLength w.data d
    if m1 - 1 = 0 then (1, if m2 - 1 = 0 then 0 else weight)
    else if m2 - 1 = 0 then
      if isNull ∧ w.ignorePrimary then ((reach w weight parts (m1 - 1) 32 isNull d').1 + 1, (reach w weight parts (m1 - 1) 32 isNull d').2)
      else (1, if w.keyPartWeight = 0 then 0 else if w.keyPartWeight < 0 then 1 else -1)
    else ((reach w weight parts (m1 - 1) (m2 - 1) isNull d').1 + 1, (reach w weight parts (m1 - 1) (m2 - 1) isNull d').2)

theorem mask_half (m : Nat) : (2 ^ m - 1) / 2 = 2 ^ (m - 1) - 1 := by
  cases m with
  | zero => rfl
  | succ m =>
    rw [Nat.pow_succ, Nat.succ_sub_one]
    omega

theorem mask_eq_zero (m : Nat) : 2 ^ m - 1 = 0 ↔ m = 0 := by
  rcases Nat.eq_zero_or_pos m with rfl | hm
  · exact ⟨fun _ => rfl, fun _ => rfl⟩
  · have : 2 ^ 1 ≤ 2 ^ m := Nat.pow_le_pow_right (by decide) hm
    omega

/-- What compare finds is decided by the parts in reach, and then by the weight. -/
theorem compareParts_order (charset : Charset) (x w : DeepComposite) (parts : List DeepKeyPart) (i m1 m2 : Nat) (isNull : Bool) (d1 d2 : Nat) :
    Ord.compare (compareParts charset x w parts i (2 ^ m1 - 1) (2 ^ m2 - 1) isNull d1 d2).1 0
      = (lexCmp ((parts.map fun part => part.order charset).take (reach w x.keyPartWeight parts m1 m2 isNull d2).1)
          (walk parts x.data d1) (walk parts w.data d2)).then
        (Ord.compare (reach w x.keyPartWeight parts m1 m2 isNull d2).2 0) := by
  induction parts generalizing i m1 m2 isNull d1 d2 with
  | nil => rfl
  | cons part parts ih =>
    obtain ⟨horder, hnull⟩ := part.compareKey_order charset x.data w.data d1 d2 isNull
    rw [compareParts]
    generalize part.compareKey charset x.data d1 w.data d2 isNull = result at *
    obtain ⟨c, isNull'⟩ := result
    dsimp only at horder hnull ⊢
    have hreach : 1 ≤ (reach w x.keyPartWeight (part :: parts) m1 m2 isNull d2).1 := by
      unfold reach
      dsimp only
      split_ifs <;> exact Nat.le_add_left 1 _
    have htake (n : Nat) : lexCmp (((part :: parts).map fun part => part.order charset).take (n + 1))
        (walk (part :: parts) x.data d1) (walk (part :: parts) w.data d2)
        = (part.order charset (part.value x.data d1) (part.value w.data d2)).then
          (lexCmp ((parts.map fun part => part.order charset).take n) (walk parts x.data (d1 + part.getPackLength x.data d1))
            (walk parts w.data (d2 + part.getPackLength w.data d2))) := rfl
    by_cases hc : c = 0
    · have heq : part.order charset (part.value x.data d1) (part.value w.data d2) = .eq := by
        rw [← horder, hc]
        rfl
      have hboth : isNull' = (isNull || (part.value w.data d2).isNone) := by
        rw [hnull, DeepKeyPart.order_eq_isNone heq, Bool.and_self]
      have hone : lexCmp (((part :: parts).map fun part => part.order charset).take 1)
          (walk (part :: parts) x.data d1) (walk (part :: parts) w.data d2) = .eq := by
        rw [htake 0, heq]
        rfl
      rw [if_neg (not_not.mpr hc), mask_half, mask_half, reach, ← hboth]
      simp only [mask_eq_zero]
      by_cases hm1 : m1 - 1 = 0
      · simp only [hm1, if_true]
        rw [hone]
        rfl
      · simp only [hm1, if_false]
        by_cases hm2 : m2 - 1 = 0
        · simp only [hm2, if_true]
          by_cases hn : isNull' = true ∧ w.ignorePrimary = true
          · simp only [hn, and_self, if_true]
            rw [htake, heq, fullMask, ih]
            rfl
          · simp only [hn, if_false]
            rw [hone]
            rfl
        · simp only [hm2, if_false]
          rw [htake, heq, ih]
          rfl
    · obtain ⟨n, hn⟩ := Nat.exists_eq_add_of_le' hreach
      have hne : part.order charset (part.value x.data d1) (part.value w.data d2) ≠ .eq := by
        rw [← horder]
        exact fun h => hc (Int.compare_eq_eq.mp h)
      rw [if_pos hc, hn, htake, horder]
      cases ho : part.order charset (part.value x.data d1) (part.value w.data d2)
      · rfl
      · exact absurd ho hne
      · rfl

/-! ## Full keys -/

/-- Each variable part has its position. -/
def WellFormed (parts : List DeepKeyPart) : Prop :=
  ∀ part ∈ parts, part.type = .varText ∨ part.type = .varBinary → part.variablePosition ≠ -1

/-- A key with a full mask, whose image is no longer than a ushorttype tells. -/
structure FullKey (parts : List DeepKeyPart) extends DeepComposite where
  full : keyPartMask = fullMask
  fits : imageLength parts data 0 < 2 ^ 16

theorem getPackLength_eq {part : DeepKeyPart} (h : part.type = .varText ∨ part.type = .varBinary → part.variablePosition ≠ -1)
    (key : Buffer) (d : Nat) : part.getPackLength key d = part.width key d % 2 ^ 16 := by
  unfold DeepKeyPart.getPackLength DeepKeyPart.width DeepKeyPart.unpackLength DeepKeyPart.lengthBytes
  cases ht : part.type with
  | varText => simp only [if_pos (h (.inl ht))]
  | varBinary => simp only [if_pos (h (.inr ht))]
  | fixedVarText | fixedVarBinary => simp only [Nat.add_comm part.nullBytes 2]
  | _ => simp only [Nat.zero_add]

/-- Where the image fits, compare finds the values of the key. -/
theorem walk_eq_decode {parts : List DeepKeyPart} (h : WellFormed parts) {key : Buffer} {d : Nat}
    (hfits : imageLength parts key d < 2 ^ 16) : walk parts key d = decode parts key d := by
  induction parts generalizing d with
  | nil => rfl
  | cons part parts ih =>
    rw [imageLength] at hfits
    have hlen : part.getPackLength key d = part.width key d := by
      rw [getPackLength_eq (h part List.mem_cons_self), Nat.mod_eq_of_lt (by omega)]
    rw [walk, decode, hlen, ih (List.forall_mem_cons.mp h).2 (by omega)]

theorem reach_full (w : DeepComposite) (weight : Int) (parts : List DeepKeyPart) (m : Nat) (h : parts.length ≤ m) (isNull : Bool) (d : Nat) :
    reach w weight parts m m isNull d = (parts.length, 0) := by
  induction parts generalizing m isNull d with
  | nil => rfl
  | cons part parts ih =>
    rw [List.length_cons] at h
    rw [reach]
    by_cases hm : m - 1 = 0
    · have hnil : parts = [] := List.length_eq_zero_iff.mp (by omega)
      simp only [hm, if_true, hnil]
      rfl
    · simp only [hm, if_false]
      rw [ih (m - 1) (by omega)]
      rfl

/-- The weight of the other key counts only where all parts are in reach. -/
theorem reach_weight (w : DeepComposite) (a b : Int) (parts : List DeepKeyPart) (m1 m2 : Nat) (h : parts.length ≤ m1) (isNull : Bool) (d : Nat) :
    (reach w a parts m1 m2 isNull d).1 = (reach w b parts m1 m2 isNull d).1 ∧
      ((reach w a parts m1 m2 isNull d).2 = (reach w b parts m1 m2 isNull d).2 ∨
        (reach w a parts m1 m2 isNull d).1 = parts.length) := by
  induction parts generalizing m1 m2 isNull d with
  | nil => exact ⟨rfl, .inl rfl⟩
  | cons part parts ih =>
    rw [List.length_cons] at h
    rw [reach, reach]
    by_cases hm1 : m1 - 1 = 0
    · have hnil : parts = [] := List.length_eq_zero_iff.mp (by omega)
      simp only [hm1, if_true, hnil]
      exact ⟨trivial, .inr rfl⟩
    · simp only [hm1, if_false]
      by_cases hm2 : m2 - 1 = 0
      · simp only [hm2, if_true]
        by_cases hn : (isNull || (part.value w.data d).isNone) = true ∧ w.ignorePrimary = true
        · simp only [hn, and_self, if_true]
          obtain ⟨h₁, h₂⟩ := ih (m1 - 1) 32 (by omega) true (d + part.getPackLength w.data d)
          exact ⟨congrArg (· + 1) h₁, h₂.imp_right (congrArg (· + 1))⟩
        · simp only [hn, if_false]
          exact ⟨trivial, .inl trivial⟩
      · simp only [hm2, if_false]
        obtain ⟨h₁, h₂⟩ := ih (m1 - 1) (m2 - 1) (by omega) (isNull || (part.value w.data d).isNone) (d + part.getPackLength w.data d)
        exact ⟨congrArg (· + 1) h₁, h₂.imp_right (congrArg (· + 1))⟩

section Order

variable {charset : Charset} {parts : List DeepKeyPart}

theorem compare_walk (h32 : parts.length ≤ 32) {x y : DeepComposite} (hx : x.keyPartMask = fullMask) (hy : y.keyPartMask = fullMask) :
    Ord.compare (compare charset parts x y) 0
      = lexCmp (parts.map fun part => part.order charset) (walk parts x.data 0) (walk parts y.data 0) := by
  rw [compare, hx, hy, fullMask, compareParts_order, reach_full y x.keyPartWeight parts 32 h32, List.take_of_length_le (by rw [List.length_map])]
  cases lexCmp (parts.map fun part => part.order charset) (walk parts x.data 0) (walk parts y.data 0) <;> rfl

theorem compare_full (h32 : parts.length ≤ 32) (hparts : WellFormed parts) (x y : FullKey parts) :
    Ord.compare (compare charset parts x.toDeepComposite y.toDeepComposite) 0
      = lexicographic charset parts (decode parts x.data 0) (decode parts y.data 0) := by
  rw [compare_walk h32 x.full y.full, walk_eq_decode hparts x.fits, walk_eq_decode hparts y.fits]
  rfl

variable (hcharset : ∀ characterSet, TotalPreorder (charset characterSet))

include hcharset in
/-- The order of the parts in reach is a total preorder. -/
theorem reach_transCmp (n : Nat) :
    TransCmp fun x y : DeepComposite =>
      lexCmp ((parts.map fun part => part.order charset).take n) (walk parts x.data 0) (walk parts y.data 0) := by
  refine lexCmp_transCmp (fun cmp hcmp => ?_) fun x => ?_
  · obtain ⟨part, -, rfl⟩ := List.mem_map.mp (List.mem_of_mem_take hcmp)
    exact DeepKeyPart.order_transCmp (hcharset part.characterSet)
  · rw [List.length_take, List.length_map, length_walk]
    exact Nat.min_le_right ..

/-- In order, and, where equal, of one weight. -/
def Sorted (charset : Charset) (parts : List DeepKeyPart) (xs : List (FullKey parts)) : Prop :=
  xs.Pairwise fun x y => compare charset parts x.toDeepComposite y.toDeepComposite < 0 ∨
    compare charset parts x.toDeepComposite y.toDeepComposite = 0 ∧ x.keyPartWeight = y.keyPartWeight

include hcharset in
/-- What compare finds with a search key ascends along keys in order. -/
theorem compare_ascending (h32 : parts.length ≤ 32) {w : DeepComposite} {k : Nat} (hw : w.keyPartMask = 2 ^ k - 1)
    {xs : List (FullKey parts)} (hxs : Sorted charset parts xs) :
    Ascending (fun x => Ord.compare (compare charset parts x.toDeepComposite w) 0) xs := by
  refine hxs.imp fun {x y} hxy => ?_
  have hfull := @compare_walk charset parts h32 _ _ x.full y.full
  have hle : (lexCmp (parts.map fun part => part.order charset) (walk parts x.data 0) (walk parts y.data 0)).isLE := by
    rw [← hfull, Int.isLE_compare]
    exact hxy.elim Int.le_of_lt fun h => Int.le_of_eq h.1
  -- the same parts are in reach
  obtain ⟨hsame, hweight⟩ := reach_weight w x.keyPartWeight y.keyPartWeight parts 32 k h32 false 0
  have hfind (z : FullKey parts) : Ord.compare (compare charset parts z.toDeepComposite w) 0
      = (lexCmp ((parts.map fun part => part.order charset).take (reach w z.keyPartWeight parts 32 k false 0).1)
          (walk parts z.data 0) (walk parts w.data 0)).then (Ord.compare (reach w z.keyPartWeight parts 32 k false 0).2 0) := by
    rw [compare, z.full, hw]
    exact compareParts_order charset z.toDeepComposite w parts 0 32 k false 0 0
  have htrans := @reach_transCmp charset parts hcharset (reach w x.keyPartWeight parts 32 k false 0).1
  have hxy' := lexCmp_take (reach w x.keyPartWeight parts 32 k false 0).1 hle
  dsimp only
  rw [hfind x, hfind y, ← hsame]
  -- equal up to there, they have the same weight ahead of them
  have htie : lexCmp ((parts.map fun part => part.order charset).take (reach w x.keyPartWeight parts 32 k false 0).1)
        (walk parts x.data 0) (walk parts y.data 0) = .eq →
      (reach w x.keyPartWeight parts 32 k false 0).2 = (reach w y.keyPartWeight parts 32 k false 0).2 := by
    intro heq
    rcases hweight with h | hall
    · exact h
    · rw [hall, List.take_of_length_le (by rw [List.length_map]), ← hfull, Int.compare_eq_eq] at heq
      rcases hxy with hlt | ⟨-, hw'⟩
      · omega
      · rw [hw']
  generalize (reach w x.keyPartWeight parts 32 k false 0).2 = tx at *
  generalize (reach w y.keyPartWeight parts 32 k false 0).2 = ty at *
  generalize hn : (reach w x.keyPartWeight parts 32 k false 0).1 = n at *
  refine ⟨fun hy => ?_, fun hx => ?_⟩
  · rcases Ordering.then_eq_lt.mp hy with hlt | ⟨heq, htie'⟩
    · have hall := @TransCmp.lt_of_isLE_of_lt _ _ htrans x.toDeepComposite y.toDeepComposite w hxy' hlt
      exact Ordering.then_eq_lt.mpr (.inl hall)
    · rcases Ordering.isLE_iff_eq_lt_or_eq_eq.mp hxy' with hlt | heq'
      · have hall := @TransCmp.lt_of_lt_of_eq _ _ htrans x.toDeepComposite y.toDeepComposite w hlt heq
        exact Ordering.then_eq_lt.mpr (.inl hall)
      · have hall := @TransCmp.eq_trans _ _ htrans x.toDeepComposite y.toDeepComposite w heq' heq
        exact Ordering.then_eq_lt.mpr (.inr ⟨hall, (by rw [htie heq', htie'])⟩)
  · have hge := (@OrientedCmp.isGE_iff_isLE _ _ htrans.toOrientedCmp y.toDeepComposite x.toDeepComposite).mpr hxy'
    rcases Ordering.then_eq_gt.mp hx with hgt | ⟨heq, htie'⟩
    · have hall := @TransCmp.gt_of_isGE_of_gt _ _ htrans y.toDeepComposite x.toDeepComposite w hge hgt
      exact Ordering.then_eq_gt.mpr (.inl hall)
    · rcases Ordering.isLE_iff_eq_lt_or_eq_eq.mp hxy' with hlt | heq'
      · have hall := @TransCmp.gt_of_gt_of_eq _ _ htrans y.toDeepComposite x.toDeepComposite w
          (@OrientedCmp.gt_of_lt _ _ htrans.toOrientedCmp _ _ hlt) heq
        exact Ordering.then_eq_gt.mpr (.inl hall)
      · have hall := @TransCmp.eq_trans _ _ htrans y.toDeepComposite x.toDeepComposite w
          (@OrientedCmp.eq_symm _ _ htrans.toOrientedCmp _ _ heq') heq
        exact Ordering.then_eq_gt.mpr (.inr ⟨hall, (by rw [← htie heq', htie'])⟩)

include hcharset in
theorem compare_transCmp (h32 : parts.length ≤ 32) :
    TransCmp fun x y : FullKey parts => Ord.compare (compare charset parts x.toDeepComposite y.toDeepComposite) 0 := by
  have htrans := @reach_transCmp charset parts hcharset parts.length
  rw [List.take_of_length_le (by rw [List.length_map])] at htrans
  have hcmp : (fun x y : FullKey parts => Ord.compare (compare charset parts x.toDeepComposite y.toDeepComposite) 0)
      = fun x y => lexCmp (parts.map fun part => part.order charset) (walk parts x.data 0) (walk parts y.data 0) := by
    funext x y
    exact compare_walk h32 x.full y.full
  rw [hcmp]
  exact
    { eq_swap := fun {x y} => @OrientedCmp.eq_swap _ _ htrans.toOrientedCmp x.toDeepComposite y.toDeepComposite
      isLE_trans := fun {x y z} => @TransCmp.isLE_trans _ _ htrans x.toDeepComposite y.toDeepComposite z.toDeepComposite }

theorem length_decode (parts : List DeepKeyPart) (key : Buffer) (d : Nat) : (decode parts key d).length = parts.length := by
  induction parts generalizing d with
  | nil => rfl
  | cons part parts ih => exact congrArg (· + 1) (ih _)

theorem lexicographic_eq (h : ∀ part ∈ parts, part.isText = false) (x y : Buffer) :
    lexicographic charset parts (decode parts x 0) (decode parts y 0) = .eq ↔ decode parts x 0 = decode parts y 0 := by
  refine lexCmp_eq (fun cmp hcmp => ?_) ?_ ?_
  · obtain ⟨part, hpart, rfl⟩ := List.mem_map.mp hcmp
    exact DeepKeyPart.order_lawfulEqCmp (h part hpart)
  · rw [length_decode, List.length_map]
  · rw [length_decode, List.length_map]

end Order

/-- The order of composite keys: lexicographic, total, and with one lower and one upper boundary for each search key. -/
theorem composite_order (charset : Charset) (hcharset : ∀ characterSet, TotalPreorder (charset characterSet)) (parts : List DeepKeyPart)
    (h32 : parts.length ≤ 32) (hparts : WellFormed parts) :
    (∀ x y : FullKey parts, Ord.compare (compare charset parts x.toDeepComposite y.toDeepComposite) 0
      = lexicographic charset parts (decode parts x.data 0) (decode parts y.data 0)) ∧
    (TransCmp fun x y : FullKey parts => Ord.compare (compare charset parts x.toDeepComposite y.toDeepComposite) 0) ∧
    ((∀ part ∈ parts, part.isText = false) → ∀ x y : FullKey parts,
      compare charset parts x.toDeepComposite y.toDeepComposite = 0 ↔ decode parts x.data 0 = decode parts y.data 0) ∧
    ∀ (w : DeepComposite) (k : Nat), w.keyPartMask = 2 ^ k - 1 → ∀ xs : List (FullKey parts), Sorted charset parts xs →
      Ascending (fun x => Ord.compare (compare charset parts x.toDeepComposite w) 0) xs ∧
        ∃ l u, Boundaries (fun x => Ord.compare (compare charset parts x.toDeepComposite w) 0) xs l u ∧
          ∀ l' u', Boundaries (fun x => Ord.compare (compare charset parts x.toDeepComposite w) 0) xs l' u' → l' = l ∧ u' = u := by
  refine ⟨compare_full h32 hparts, compare_transCmp hcharset h32, fun htext x y => ?_, fun w k hw xs hxs => ?_⟩
  · rw [← lexicographic_eq htext, ← compare_full h32 hparts x y, Int.compare_eq_eq]
  · have hascending := compare_ascending hcharset h32 hw hxs
    exact ⟨hascending, hascending.boundaries⟩

/-- A character set that compares bytes. -/
def binaryCharset : Charset := fun _ xs ys =>
  match Ord.compare xs ys with
  | .lt => -1
  | .eq => 0
  | .gt => 1

theorem binaryCharset_totalPreorder (characterSet : Int) : TotalPreorder (binaryCharset characterSet) where
  swap xs ys := by
    have hswap : Ord.compare ys xs = (Ord.compare xs ys).swap := @Std.OrientedOrd.eq_swap (List UInt8) _ _ ys xs
    unfold binaryCharset
    rw [hswap]
    cases Ord.compare xs ys <;> decide
  trans xs ys zs hxy hyz := by
    have hle (xs ys : List UInt8) : binaryCharset characterSet xs ys ≤ 0 ↔ (Ord.compare xs ys).isLE := by
      unfold binaryCharset
      cases Ord.compare xs ys <;> decide
    rw [hle] at *
    exact Std.TransOrd.isLE_trans hxy hyz

/-- A number that may be null, and bytes. -/
def numberAndBytes : List DeepKeyPart := [⟨.uint8, 1, 1, -1, 0⟩, ⟨.varBinary, 20, 0, 0, 0⟩]

def fiveKey : FullKey numberAndBytes where
  data i := [0, 5, 2, 0, 7, 8].getD i 0
  keyPartMask := fullMask
  keyPartWeight := -1
  ignorePrimary := false
  full := rfl
  fits := by decide

def sixKey : FullKey numberAndBytes where
  data i := [0, 6, 1, 0, 9].getD i 0
  keyPartMask := fullMask
  keyPartWeight := -1
  ignorePrimary := false
  full := rfl
  fits := by decide

def searchFive : DeepComposite := ⟨fun i => [0, 5].getD i 0, 1, 0, false⟩

theorem five_is_found :
    ∃ l u, Boundaries (fun x : FullKey numberAndBytes => Ord.compare (compare binaryCharset numberAndBytes x.toDeepComposite searchFive) 0)
      [fiveKey, sixKey] l u := by
  have hsorted : Sorted binaryCharset numberAndBytes [fiveKey, sixKey] :=
    List.pairwise_pair.mpr (.inl (by decide))
  obtain ⟨-, l, u, h, -⟩ := (composite_order binaryCharset binaryCharset_totalPreorder numberAndBytes (by decide) (by
    unfold WellFormed
    decide)).2.2.2 searchFive 1 rfl _ hsorted
  exact ⟨l, u, h⟩

/-- As many parts as a mask has bits, all null. -/
def nullParts : List DeepKeyPart := List.replicate 32 ⟨.uint8, 1, 1, -1, 0⟩

def allNull (keyPartWeight : Int) : FullKey nullParts where
  data _ := 1
  keyPartMask := fullMask
  keyPartWeight := keyPartWeight
  ignorePrimary := false
  full := rfl
  fits := by decide

def searchNull : DeepComposite := ⟨fun _ => 1, 1, 0, true⟩

/-- The last part uses up the full mask but not the one that was switched back on, and the stored key's own weight
    decides. -/
theorem weights_tell_equal_keys_apart :
    compare binaryCharset nullParts (allNull 1).toDeepComposite (allNull (-1)).toDeepComposite = 0 ∧
      ¬Ascending (fun x : FullKey nullParts => Ord.compare (compare binaryCharset nullParts x.toDeepComposite searchNull) 0)
        [allNull 1, allNull (-1)] := by
  refine ⟨by decide, fun h => ?_⟩
  have hlt : Ord.compare (compare binaryCharset nullParts (allNull (-1)).toDeepComposite searchNull) 0 = .lt := by decide
  have hgt : Ord.compare (compare binaryCharset nullParts (allNull 1).toDeepComposite searchNull) 0 = .gt := by decide
  have hback := (List.pairwise_pair.mp h).1 hlt
  exact absurd (hgt.symm.trans hback) (by decide)

end DeepFabric.Store.CompositeKey
