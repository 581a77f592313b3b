import BlockPress.Decimal.Binary

/-!
# Shortest decimals

The shortest decimal that reads back as a floating-point number, and of several the one nearest to
it.  A decimal reads back if it lies in the interval of the reals that round to the number, whose
ends belong to it iff the mantissa is even.  On a grid of multiples of a power of ten only the two
neighbours of the number can be best, so the coarsest grid with a neighbour in the interval decides.
-/

namespace BlockPress.Decimal

open scoped Standard

/-- The number `digits * 10 ^ exponent`. -/
structure Scaled where
  /-- The digits, as a number. -/
  digits : Nat
  /-- The exponent of ten. -/
  exponent : Int
deriving DecidableEq, Repr

namespace Binary

/-- The lower end of the interval, in quarters of the last place.  Below a power of two the numbers
lie twice as close. -/
def lower (b : Binary) : Nat :=
  4 * b.mantissa - if b.mantissa = hiddenBit ∧ leastExponent < b.exponent then 1 else 2

/-- The upper end of the interval, in quarters of the last place. -/
def upper (b : Binary) : Nat := 4 * b.mantissa + 2

/-- The point of a grid of multiples of `step` that reads back and is nearest, where a quarter of the
last place is `quarter`. -/
def nearest (b : Binary) (quarter step : Nat) : Option Nat :=
  let value := 4 * b.mantissa * quarter
  let inside (d : Nat) : Bool :=
    if b.mantissa % 2 = 0 then b.lower * quarter ≤ d * step ∧ d * step ≤ b.upper * quarter
    else b.lower * quarter < d * step ∧ d * step < b.upper * quarter
  let below := value / step
  let above := below + 1
  match inside below, inside above with
  | false, false => none
  | true, false => some below
  | false, true => some above
  | true, true =>
    let shortfall := value - below * step
    let excess := above * step - value
    some (if shortfall < excess then below else if excess < shortfall then above
      else below + below % 2)

/-- The best decimal on the grid of a power of ten. -/
def onGrid (b : Binary) (exponent : Int) : Option Scaled :=
  let quarter := 2 ^ (b.exponent - 2).toNat * 10 ^ (-exponent).toNat
  let step := 2 ^ (2 - b.exponent).toNat * 10 ^ exponent.toNat
  (b.nearest quarter step).map (⟨·, exponent⟩)

/-- The exponent of a grid that is too coarse for every finite number. -/
def coarsest : Int := 310

/-- The number of grids down to one on which every number has a neighbour that reads back. -/
def gridCount : Nat := 651

/-- The shortest decimal of a number other than zero. -/
def shortest? (b : Binary) : Option Scaled :=
  if b.mantissa = 0 then none
  else (List.range gridCount).findSome? fun (i : Nat) => b.onGrid (coarsest - i)

/-- The digits before the point and behind it, with an exponent if the point would lie far off.  A
point has at least one digit on each side. -/
def layout (digits : List Char) (exponent : Int) : List Char :=
  let point := digits.length + exponent
  if 0 ≤ exponent ∧ point ≤ 16 then digits ++ List.replicate exponent.toNat '0' ++ ['.', '0']
  else if 0 < point ∧ point ≤ 16 then
    digits.take point.toNat ++ '.' :: digits.drop point.toNat
  else if -5 < point ∧ point ≤ 0 then
    '0' :: '.' :: List.replicate (-point).toNat '0' ++ digits
  else
    let fraction := if digits.length = 1 then [] else '.' :: digits.drop 1
    digits.take 1 ++ fraction ++ 'e' :: (toString (point - 1)).toList

/-- The shortest text of a number. -/
def text (b : Binary) : String :=
  match b.shortest? with
  | none => b.sign ++ "0.0"
  | some s => b.sign ++ String.ofList (layout (toString s.digits).toList s.exponent)

end Binary

end BlockPress.Decimal
