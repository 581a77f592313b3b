import BlockPress.Standard

/-!
# Binary numbers

The exact value of a floating-point number: a sign, a mantissa and a power of two.  Decimal texts are
made from it with whole numbers alone.
-/

namespace BlockPress.Decimal

open scoped Standard

/-- The number `mantissa * 2 ^ exponent`, or the negative of it. -/
structure Binary where
  /-- Whether the sign is minus, which zero may have too. -/
  negative : Bool
  /-- The mantissa. -/
  mantissa : Nat
  /-- The exponent of two. -/
  exponent : Int
deriving DecidableEq, Repr

namespace Binary

/-- The mantissa of a power of two that is not the least one. -/
def hiddenBit : Nat := 2 ^ (52 : Nat)

/-- The exponent of the numbers closest to zero. -/
def leastExponent : Int := -1074

/-- The value of a floating-point number, if it is finite. -/
def ofFloat? (x : Float) : Option Binary :=
  let bits := x.toBits.toNat
  let negative := bits.testBit 63
  let level := bits / hiddenBit % 2048
  let fraction := bits % hiddenBit
  if level = 2047 then none
  else if level = 0 then some ⟨negative, fraction, leastExponent⟩
  else some ⟨negative, hiddenBit + fraction, leastExponent + level - 1⟩

/-- The text of the sign. -/
def sign (b : Binary) : String := if b.negative then "-" else ""

end Binary

end BlockPress.Decimal
