/-!
# Decimal digits

Reading a number from its decimal digits.  A text is a number only if it has a digit and nothing
but digits, apart from one plus sign in front.
-/

namespace BlockPress.Digits

/-- The value of a digit. -/
def value? (c : Char) : Option Nat := if c.isDigit then some (c.toNat - '0'.toNat) else none

/-- The value of digits behind others that make up `n`. -/
def read? : List Char → (n : Nat) → Option Nat
  | [], n => some n
  | c :: rest, n =>
    match value? c with
    | some d => read? rest (10 * n + d)
    | none => none

/-- The number that a text writes, if it is one of at most `max`. -/
def parse? (max : Nat) (text : String) : Option Nat :=
  let digits := match text.toList with
    | '+' :: rest => rest
    | chars => chars
  if digits.isEmpty then none
  else (read? digits 0).filter (· ≤ max)

end BlockPress.Digits
