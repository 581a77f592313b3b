import Mathlib.Data.Nat.Notation

/-!
# Extracts of byte arrays

What is extracted up to an end that lies behind the last byte or before an append.
-/

namespace BlockPress

theorem extract_eq_of_size_le {data : ByteArray} {i j : ℕ} (h : data.size ≤ j) :
    data.extract i j = data.extract i data.size := by
  refine ByteArray.ext ?_
  rw [ByteArray.data_extract, ByteArray.data_extract]
  refine Array.extract_eq_extract_right.mpr ?_
  rw [ByteArray.size_data]
  omega

theorem extract_eq_empty {data : ByteArray} {i : ℕ} (h : data.size ≤ i) :
    data.extract i data.size = .empty :=
  ByteArray.extract_eq_empty_iff.mpr (Nat.le_trans (Nat.min_le_right _ _) h)

theorem extract_of_size_le {piece : ByteArray} {size : ℕ} (h : piece.size ≤ size) :
    piece.extract 0 size = piece := by
  have heq := ByteArray.extract_zero_max_size (a := piece) (i := size)
  rwa [Nat.max_eq_left h] at heq

/-- What is appended does not change the first bytes. -/
theorem extract_append_of_le {front : ByteArray} (back : ByteArray) {n : ℕ} (h : n ≤ front.size) :
    (front ++ back).extract 0 n = front.extract 0 n := by
  rw [ByteArray.extract_append, Nat.zero_sub, Nat.sub_eq_zero_of_le h, ByteArray.extract_same,
    ByteArray.append_empty]

/-- Behind the front, the first bytes are those of what is appended. -/
theorem extract_append_of_ge {front : ByteArray} (back : ByteArray) {n : ℕ} (h : front.size ≤ n) :
    (front ++ back).extract 0 n = front ++ back.extract 0 (n - front.size) := by
  rw [ByteArray.extract_append, Nat.zero_sub, extract_of_size_le h]

end BlockPress
