import BlockPress.Standard

/-!
# Contexts

A context is the shape of one class of symbols: how many there are, how many of their low bits are
sent as they are, and over how many symbols the coder should adapt.  **The bits of a symbol are
divided without loss**: `plainBits + modeledBits = symbolBits`.
-/

namespace BlockPress

open scoped Standard

/-- The shape of one class of symbols. -/
structure Context where
  /-- The number of symbols, which are the numbers below it. -/
  alphabet : Nat
  /-- The number of low bits that are wanted to be sent without a model. -/
  extraBits : Nat
  /-- Roughly the number of symbols over which the model adapts. -/
  period : Nat
deriving DecidableEq, Repr

namespace Context

/-- A context of `bits`-bit symbols that are sent without a model. -/
def plain (bits : Nat) : Context := ⟨2 ^ bits, bits, 1⟩

/-- The number of bits that the greatest symbol needs. -/
def symbolBits (c : Context) : Nat :=
  if c.alphabet ≤ 1 then 0 else (c.alphabet - 1).log2 + 1

/-- The number of high bits that go through the model. -/
def modeledBits (c : Context) : Nat := c.symbolBits - c.extraBits

/-- The number of low bits that go without a model. -/
def plainBits (c : Context) : Nat := c.symbolBits - c.modeledBits

/-- How far a chance moves at a time: by `1 / 2 ^ shift` of what is left, for a shift of 2 to 8. -/
def shift (c : Context) : Nat := min 8 (max 2 c.period.log2)

/-- The number of symbols, taken as one for an empty alphabet. -/
def size (c : Context) : Nat := max c.alphabet 1

theorem plainBits_add_modeledBits (c : Context) : c.plainBits + c.modeledBits = c.symbolBits := by
  simp only [plainBits, modeledBits]; omega

/-- Every symbol fits its bits. -/
theorem alphabet_le_two_pow (c : Context) : c.alphabet ≤ 2 ^ c.symbolBits := by
  unfold symbolBits
  split
  · next h => simpa using h
  · have := Nat.lt_log2_self (n := c.alphabet - 1)
    omega

end Context

end BlockPress
