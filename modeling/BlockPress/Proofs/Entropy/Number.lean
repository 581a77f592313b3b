import Mathlib.Data.Nat.Digits.Lemmas

/-!
# Bytes as a number

`number` reads bytes as one number, the first byte highest, and `bigEndian` writes a number in so
many bytes.  **Bytes are the big-endian form of their own number** (`bigEndian_number`).
-/

namespace BlockPress

/-- The number that bytes write, the first one highest. -/
def number (bytes : List UInt8) : Nat := Nat.ofDigits 256 (bytes.reverse.map UInt8.toNat)

/-- A number in `m` bytes, the highest first. -/
def bigEndian : (m n : Nat) → List UInt8
  | 0, _ => []
  | m + 1, n => bigEndian m (n / 256) ++ [n.toUInt8]

@[simp] theorem number_nil : number [] = 0 := rfl

@[simp] theorem number_singleton (b : UInt8) : number [b] = b.toNat := by
  simp [number]

theorem number_append (l m : List UInt8) :
    number (l ++ m) = number l * 256 ^ m.length + number m := by
  simp only [number, List.reverse_append, List.map_append, Nat.ofDigits_append, List.length_map,
    List.length_reverse]
  rw [Nat.mul_comm (256 ^ m.length), Nat.add_comm]

/-- A byte put behind others. -/
theorem number_concat (l : List UInt8) (b : UInt8) : number (l ++ [b]) = 256 * number l + b.toNat := by
  rw [number_append, number_singleton, List.length_singleton, Nat.pow_one, Nat.mul_comm]

theorem number_replicate_zero (n : Nat) : number (List.replicate n 0) = 0 := by
  induction n with
  | zero => rfl
  | succ n ih => rw [List.replicate_succ', number_concat, ih]; rfl

/-- A run of the greatest byte is one short of the next power. -/
theorem number_replicate_max (n : Nat) : number (List.replicate n 0xFF) + 1 = 256 ^ n := by
  induction n with
  | zero => rfl
  | succ n ih =>
    have h255 : (0xFF : UInt8).toNat = 255 := rfl
    rw [List.replicate_succ', number_concat, h255, Nat.pow_succ, ← ih]
    omega

/-- **Bytes are the big-endian form of their own number.** -/
theorem bigEndian_number (l : List UInt8) : bigEndian l.length (number l) = l := by
  induction l using List.reverseRecOn with
  | nil => rfl
  | append_singleton l b ih =>
    have hb := b.toNat_lt
    have hdiv : (256 * number l + b.toNat) / 256 = number l := by omega
    have hbyte : (256 * number l + b.toNat).toUInt8 = b := by
      rw [← UInt8.toNat_inj, Nat.toUInt8_eq, UInt8.toNat_ofNat']
      omega
    rw [List.length_append, List.length_singleton, bigEndian, number_concat, hdiv, ih, hbyte]

@[simp] theorem length_bigEndian (m n : Nat) : (bigEndian m n).length = m := by
  induction m generalizing n with
  | zero => rfl
  | succ m ih => rw [bigEndian, List.length_append, ih, List.length_singleton]

/-- What does not fit the bytes is lost. -/
theorem number_bigEndian (m n : Nat) : number (bigEndian m n) = n % 256 ^ m := by
  induction m generalizing n with
  | zero => rw [Nat.pow_zero, Nat.mod_one]; rfl
  | succ m ih =>
    have hbyte : n.toUInt8.toNat = n % 256 := by rw [Nat.toUInt8_eq, UInt8.toNat_ofNat']
    rw [bigEndian, number_concat, ih, hbyte, Nat.pow_succ', Nat.mod_mul, Nat.add_comm]

/-- A number below `256 ^ m` has a zero byte in front when it is written in `m + 1` bytes. -/
theorem head?_eq_zero_of_number_lt {l : List UInt8} {m : Nat} (hlen : l.length = m + 1)
    (h : number l < 256 ^ m) : l.head? = some 0 := by
  obtain _ | ⟨b, l⟩ := l
  · simp at hlen
  have hm : l.length = m := by simpa using hlen
  have hsplit := number_append [b] l
  rw [List.singleton_append, number_singleton, hm] at hsplit
  have hb : b.toNat = 0 := by
    by_contra hne
    have : 1 * 256 ^ m ≤ b.toNat * 256 ^ m := Nat.mul_le_mul_right _ (by omega)
    omega
  obtain rfl : b = 0 := UInt8.toNat_inj.mp hb
  rfl

end BlockPress
