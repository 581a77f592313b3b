import Mathlib.Algebra.Group.Nat.Defs

/-!
# Words of four bytes

The number of a word that four bytes are put together in, the first one highest.
-/

namespace BlockPress

theorem toNat_toUInt32_shiftLeft (b : UInt8) {s : UInt32} (hs : s.toNat ≤ 24) :
    (b.toUInt32 <<< s).toNat = 2 ^ s.toNat * b.toNat := by
  have hb := b.toNat_lt
  have hle : 2 ^ s.toNat ≤ 2 ^ 24 := Nat.pow_le_pow_right (by omega) hs
  have hlt : b.toNat * 2 ^ s.toNat < 2 ^ 8 * 2 ^ 24 :=
    Nat.lt_of_lt_of_le (Nat.mul_lt_mul_of_pos_right hb (Nat.two_pow_pos _)) (Nat.mul_le_mul_left _ hle)
  rw [UInt32.toNat_shiftLeft, UInt8.toNat_toUInt32, Nat.mod_eq_of_lt (by omega : s.toNat < 32),
    Nat.shiftLeft_eq, Nat.mod_eq_of_lt (by omega), Nat.mul_comm]

/-- **Four bytes do not overlap in a word.** -/
theorem toNat_word (a b c d : UInt8) :
    (a.toUInt32 <<< 24 ||| b.toUInt32 <<< 16 ||| c.toUInt32 <<< 8 ||| d.toUInt32).toNat =
      2 ^ 24 * a.toNat + 2 ^ 16 * b.toNat + 2 ^ 8 * c.toNat + d.toNat := by
  have hb := b.toNat_lt
  have hc := c.toNat_lt
  have hd := d.toNat_lt
  have h24 : (a.toUInt32 <<< 24).toNat = 2 ^ 24 * a.toNat := toNat_toUInt32_shiftLeft a (by decide)
  have h16 : (b.toUInt32 <<< 16).toNat = 2 ^ 16 * b.toNat := toNat_toUInt32_shiftLeft b (by decide)
  have h8 : (c.toUInt32 <<< 8).toNat = 2 ^ 8 * c.toNat := toNat_toUInt32_shiftLeft c (by decide)
  have hab : 2 ^ 24 * a.toNat ||| 2 ^ 16 * b.toNat = 2 ^ 16 * (2 ^ 8 * a.toNat + b.toNat) := by
    rw [← Nat.two_pow_add_eq_or_of_lt (by omega)]
    omega
  have habc : 2 ^ 16 * (2 ^ 8 * a.toNat + b.toNat) ||| 2 ^ 8 * c.toNat =
      2 ^ 8 * (2 ^ 16 * a.toNat + 2 ^ 8 * b.toNat + c.toNat) := by
    rw [← Nat.two_pow_add_eq_or_of_lt (by omega)]
    omega
  rw [UInt32.toNat_or, UInt32.toNat_or, UInt32.toNat_or, h24, h16, h8, UInt8.toNat_toUInt32, hab,
    habc, ← Nat.two_pow_add_eq_or_of_lt hd]
  omega

end BlockPress
