import BlockPress.Buffer
import BlockPress.Entropy.Chance

/-!
# The code under construction

A range coder writes one long number.  Each bit narrows the interval from `low` up to `low + range`
in which the number lies, and whenever the range falls below `2 ^ 24` the number gains a byte.  A
byte that leaves `low` may still be raised by a carry, so the newest byte that is not `0xff` is kept
back as `cache` together with the `0xff` bytes behind it; `held` counts them all.  When the carry is
decided they are settled at once.
-/

namespace BlockPress

/-- The number that a range coder is writing. -/
structure Code where
  /-- The bytes that are settled and not yet handed on. -/
  settled : ByteArray := .empty
  /-- The width of the interval. -/
  range : UInt32 := 0xFFFFFFFF
  /-- The lower end of the interval, below the bytes held back. -/
  low : UInt64 := 0
  /-- The first byte held back. -/
  cache : UInt8 := 0
  /-- The number of bytes held back; all but the first are `0xff`. -/
  held : Nat := 1
  /-- The number of bytes ever settled. -/
  produced : Nat := 0

namespace Code

/-- The range below which the number gains a byte. -/
def top : UInt32 := 0x1000000

/-- Settles the bytes held back, raised by the carry of `low`, and holds back its next byte. -/
def settle (c : Code) : Code :=
  let carry := (c.low >>> 32).toUInt8
  { c with
    settled := Buffer.pushMany (c.settled.push (c.cache + carry)) (0xFF + carry) (c.held - 1)
    cache := (c.low >>> 24).toUInt8
    held := 0
    produced := c.produced + max c.held 1 }

/-- Moves one byte out of `low`.  It settles all before it unless a later carry may still run
through it. -/
def shiftLow (c : Code) : Code :=
  let c := if c.low < 0xFF000000 ∨ 0xFFFFFFFF < c.low then c.settle else c
  { c with held := c.held + 1, low := (c.low <<< 8) &&& 0xFFFFFFFF }

@[simp] theorem range_settle (c : Code) : c.settle.range = c.range := rfl

@[simp] theorem range_shiftLow (c : Code) : c.shiftLow.range = c.range := by
  unfold shiftLow
  dsimp only
  split <;> rfl

theorem toNat_shiftLeft_eight_of_lt_top {r : UInt32} (h : r < top) :
    (r <<< 8).toNat = r.toNat * 256 := by
  have h' : r.toNat < 2 ^ 24 := h
  have h8 : (8 : UInt32).toNat % 32 = 8 := rfl
  rw [UInt32.toNat_shiftLeft, h8, Nat.shiftLeft_eq]
  omega

/-- Widens the range byte by byte until it is `2 ^ 24` or more.  An empty range cannot be widened. -/
def normalize (c : Code) : Code :=
  if _h : c.range < top ∧ c.range ≠ 0 then
    normalize ({ c with range := c.range <<< 8 } : Code).shiftLow
  else c
termination_by top.toNat - c.range.toNat
decreasing_by
  have hpos : c.range.toNat ≠ 0 := fun h0 => _h.2 (UInt32.toNat_inj.1 h0)
  have hlt : c.range.toNat < top.toNat := _h.1
  simp only [range_shiftLow, toNat_shiftLeft_eight_of_lt_top _h.1]
  omega

/-- Narrows the interval to the part of `bit` under the chance `p`. -/
def narrow (c : Code) (p : Chance) (bit : Bool) : Code :=
  let bound := p.share c.range
  if bit then
    ({ c with low := c.low + bound.toUInt64, range := c.range - bound } : Code).normalize
  else
    ({ c with range := bound } : Code).normalize

/-- Narrows the interval to one of its halves. -/
def halve (c : Code) (bit : Bool) : Code :=
  let half := c.range >>> 1
  ({ c with range := half, low := if bit then c.low + half.toUInt64 else c.low } : Code).normalize

/-- Writes the low `n` bits of `value` without a model, most significant first. -/
def plain (value : Nat) : Nat → Code → Code
  | 0, c => c
  | n + 1, c => plain value n (c.halve (value.testBit n))

/-- Brings out everything that `low` still holds. -/
def flush (c : Code) : Code := c.shiftLow.shiftLow.shiftLow.shiftLow.shiftLow

end Code

end BlockPress
