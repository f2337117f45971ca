/-
  DeepFabric.Lib.Put — bytes written one behind the other into a buffer.

  Copies, fills and stores of numbers all put a list of bytes somewhere (`memcpy_eq_put`,
  `memset_eq_put`, `store_eq_put`), and puts that touch are one put: behind the last (`put_append`),
  in front of it (`put_before`), or over its beginning (`put_over`).
-/
import DeepFabric.Lib.Buffer

namespace DeepFabric.Lib.Buffer

/-- The buffer with these bytes from `d` on. -/
def put (b : Buffer) (d : Nat) (xs : List UInt8) : Buffer := fun i => if d ≤ i then xs[i - d]?.getD (b i) else b i

variable {b src : Buffer} {d p s n v : Nat} {xs ys zs : List UInt8}

theorem put_outside (h : p < d ∨ d + xs.length ≤ p) : put b d xs p = b p := by
  unfold put
  split_ifs with hd
  · rw [List.getElem?_eq_none (by omega), Option.getD_none]
  · rfl

theorem put_inside (h : p < xs.length) : put b d xs (d + p) = xs[p] := by
  rw [put, if_pos (Nat.le_add_right d p), Nat.add_sub_cancel_left, List.getElem?_eq_getElem h, Option.getD_some]

@[simp] theorem put_nil : put b d [] = b := by
  funext i
  exact put_outside (by simp; omega)

/-- Bytes that are given index by index are given as a list. -/
theorem bytes_eq_iff : bytes b p xs.length = xs ↔ ∀ i (h : i < xs.length), b (p + i) = xs[i] := by
  constructor
  · intro h i hi
    have hget : (bytes b p xs.length)[i]? = xs[i]? := by rw [h]
    rw [bytes, List.getElem?_map, List.getElem?_range hi, List.getElem?_eq_getElem hi] at hget
    exact Option.some.inj hget
  · intro h
    refine List.ext_getElem length_bytes fun i h1 h2 => ?_
    rw [← h i h2]
    simp [bytes]

theorem bytes_put : bytes (put b d xs) d xs.length = xs := bytes_eq_iff.mpr fun _ h => put_inside h

/-- A put is told by what is inside and what is outside. -/
theorem eq_put {b' : Buffer} (hin : ∀ i (h : i < xs.length), b' (d + i) = xs[i])
    (hout : ∀ i, i < d ∨ d + xs.length ≤ i → b' i = b i) : b' = put b d xs := by
  funext i
  by_cases h : d ≤ i ∧ i < d + xs.length
  · obtain ⟨k, rfl⟩ := Nat.exists_eq_add_of_le h.1
    rw [hin k (by omega), put_inside (by omega)]
  · rw [hout i (by omega), put_outside (by omega)]

theorem put_append : put (put b d xs) (d + xs.length) ys = put b d (xs ++ ys) := by
  refine eq_put (fun i hi => ?_) fun i hi => ?_
  · rw [List.length_append] at hi
    by_cases h : i < xs.length
    · rw [put_outside (by omega), put_inside h, List.getElem_append_left h]
    · obtain ⟨k, rfl⟩ := Nat.exists_eq_add_of_le (Nat.le_of_not_lt h)
      rw [← Nat.add_assoc, put_inside (by omega), List.getElem_append_right (by omega)]
      congr 1
      omega
  · rw [List.length_append] at hi
    rw [put_outside (by omega), put_outside (by omega)]

theorem put_before : put (put b (d + xs.length) ys) d xs = put b d (xs ++ ys) := by
  refine eq_put (fun i hi => ?_) fun i hi => ?_
  · rw [List.length_append] at hi
    by_cases h : i < xs.length
    · rw [put_inside h, List.getElem_append_left h]
    · obtain ⟨k, rfl⟩ := Nat.exists_eq_add_of_le (Nat.le_of_not_lt h)
      rw [put_outside (by omega), ← Nat.add_assoc, put_inside (by omega), List.getElem_append_right (by omega)]
      congr 1
      omega
  · rw [List.length_append] at hi
    rw [put_outside (by omega), put_outside (by omega)]

theorem put_over : put (put b d zs) d xs = put b d (xs ++ zs.drop xs.length) := by
  refine eq_put (fun i hi => ?_) fun i hi => ?_
  · rw [List.length_append, List.length_drop] at hi
    by_cases h : i < xs.length
    · rw [put_inside h, List.getElem_append_left h]
    · rw [put_outside (by omega), put_inside (by omega), List.getElem_append_right (by omega), List.getElem_drop]
      congr 1
      omega
  · rw [List.length_append, List.length_drop] at hi
    rw [put_outside (by omega), put_outside (by omega)]

theorem memcpy_eq_put : memcpy b d src s n = put b d (bytes src s n) := by
  refine eq_put (fun i hi => ?_) fun i hi => ?_
  · rw [length_bytes] at hi
    rw [memcpy_inside hi]
    simp [bytes]
  · rw [length_bytes] at hi
    exact memcpy_outside hi

theorem memset_eq_put {k : UInt8} : memset b d k n = put b d (List.replicate n k) := by
  refine eq_put (fun i hi => ?_) fun i hi => ?_
  · rw [List.length_replicate] at hi
    rw [memset_inside hi, List.getElem_replicate]
  · rw [List.length_replicate] at hi
    exact memset_outside hi

theorem store_eq_put : store b d n v = put b d (leBytes n v) := by
  refine eq_put (fun i hi => ?_) fun i hi => ?_
  · rw [length_leBytes] at hi
    rw [store_inside hi]
    simp [leBytes]
  · rw [length_leBytes] at hi
    exact store_outside hi

end DeepFabric.Lib.Buffer
