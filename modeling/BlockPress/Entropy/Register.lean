import BlockPress.Device.Source
import BlockPress.Entropy.Chance

/-!
# The code being read

A range decoder holds a window of four bytes of the number that was written, as `code`: its distance
from the lower end of the interval, whose width is `range`.  It reads lazily: before each bit the
range is widened byte by byte to `2 ^ 24` or more, and after the last bit nothing more is read.
-/

namespace BlockPress

/-- A window on the number that a range decoder is reading. -/
structure Register where
  /-- The bytes of the number that were not read yet. -/
  source : Source
  /-- The width of the interval. -/
  range : UInt32 := 0xFFFFFFFF
  /-- The distance of the number from the lower end of the interval. -/
  code : UInt32

namespace Register

/-- The range below which the window moves on by a byte. -/
def top : UInt32 := 0x1000000

/-- Reads the first five bytes of a number: a zero byte, and then the first window. -/
def start : Action Source Register := fun s =>
  match Source.read 5 s with
  | .error failure s => .error failure s
  | .ok head s =>
    let byte (i : Nat) : UInt32 := (head.data.getD i 0).toUInt32
    if byte 0 ≠ 0 then .error (.badHeader .startByte) s
    else
      .ok
        { source := s
          code := byte 1 <<< 24 ||| byte 2 <<< 16 ||| byte 3 <<< 8 ||| byte 4 } s

/-- Moves the window on until the range is `2 ^ 24` or more. -/
def refill (r : Register) : EStateM.Result Failure Register Unit :=
  if r.range < top then
    match _h : r.source.next with
    | .ok b s => refill ⟨s, r.range <<< 8, r.code <<< 8 ||| b.toUInt32⟩
    | .error failure s => .error failure { r with source := s }
  else .ok () r
termination_by r.source.remaining
decreasing_by exact Source.remaining_next _h

/-- Reads a bit that was written under the chance `p`, and gives the chance after it. -/
def bit (p : Chance) (shift : Nat) : Action Register (Bool × Chance) := fun r =>
  match r.refill with
  | .error failure r => .error failure r
  | .ok () r =>
    let bound := p.share r.range
    if r.code < bound then .ok (false, p.adapt shift false) { r with range := bound }
    else
      .ok (true, p.adapt shift true)
        { r with range := r.range - bound, code := r.code - bound }

/-- Reads a bit that was written as one of two halves.  The number lies in the upper half unless its
distance falls short of it, which shows as the sign bit of the wrapped difference. -/
def half : Action Register Bool := fun r =>
  match r.refill with
  | .error failure r => .error failure r
  | .ok () r =>
    let range := r.range >>> 1
    let code := r.code - range
    if code < 0x80000000 then .ok true { r with range, code }
    else .ok false { r with range, code := code + range }

/-- Reads `n` bits that were written without a model, behind the bits of `value`. -/
def plain (value : UInt32) : Nat → Action Register UInt32
  | 0 => fun r => .ok value r
  | n + 1 => fun r =>
    match half r with
    | .error failure r => .error failure r
    | .ok b r => plain (value <<< 1 ||| b.toUInt32) n r

end Register

end BlockPress
