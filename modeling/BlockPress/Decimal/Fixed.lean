import BlockPress.Decimal.Binary

/-!
# Fixed places

A number written with a fixed number of decimal places.  The exact value is rounded to the nearest
one that has so many places, and **a half goes to the even neighbour** (`roundDiv_near`,
`roundDiv_tie`).
-/

namespace BlockPress.Decimal

open scoped Standard

/-- The quotient rounded to the nearest whole number, a half to the even one. -/
def roundDiv (num den : Nat) : Nat :=
  let q := num / den
  let r := num % den
  if 2 * r < den then q else if den < 2 * r then q + 1 else q + q % 2

/-- The rounded quotient is within half a unit. -/
theorem roundDiv_near (num : Nat) {den : Nat} (h : 0 < den) :
    2 * num ≤ (2 * roundDiv num den + 1) * den ∧ 2 * (roundDiv num den * den) ≤ 2 * num + den := by
  have hd := Nat.div_add_mod num den
  have hr := Nat.mod_lt num h
  have hc : den * (num / den) = num / den * den := Nat.mul_comm _ _
  unfold roundDiv
  dsimp only
  have key : (q : Nat) → (2 * q + 1) * den = 2 * (q * den) + den := fun q => by
    rw [Nat.add_mul, Nat.mul_assoc]; omega
  have next : (num / den + 1) * den = num / den * den + den := by rw [Nat.add_mul]; omega
  rw [key]
  split
  · omega
  · split
    · omega
    · rcases Nat.mod_two_eq_zero_or_one (num / den) with h2 | h2 <;>
        simp only [h2, Nat.add_zero] <;> omega

/-- A half is rounded to the even neighbour. -/
theorem roundDiv_tie {num den : Nat} (h : 2 * (num % den) = den) : roundDiv num den % 2 = 0 := by
  unfold roundDiv
  dsimp only
  rw [if_neg (by omega), if_neg (by omega)]
  omega

namespace Binary

/-- The absolute value in units of the last of some decimal places. -/
def scaled (b : Binary) (places : Nat) : Nat :=
  roundDiv (b.mantissa * 10 ^ places * 2 ^ b.exponent.toNat) (2 ^ (-b.exponent).toNat)

/-- The text with some decimal places. -/
def fixed (places : Nat) (b : Binary) : String :=
  let units := b.scaled places
  let digits := (toString (10 ^ places + units % 10 ^ places)).toList.drop 1
  b.sign ++ toString (units / 10 ^ places) ++ "." ++ String.ofList digits

end Binary

end BlockPress.Decimal
