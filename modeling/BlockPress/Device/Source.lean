import BlockPress.Failure

/-!
# Sources

A source hands out the bytes of its data in order.  The device behind it may break down at a
position: reads stop there, and a read that needs more bytes fails with the device's own reason and
not with the end of the input, even where the two coincide.

Main statement: a byte that was read was still there to be read (`remaining_next`), which is what
ends every loop that reads.
-/

namespace BlockPress

/-- A byte source with a read position. -/
structure Source where
  /-- All bytes of the source. -/
  data : ByteArray
  /-- The position of the next byte. -/
  position : Nat := 0
  /-- The position from which the device fails. -/
  failsAt : Option Nat := none

namespace Source

/-- The reason that a device gives when it breaks down. -/
def deviceReason : String := "source failed"

/-- The position beyond the last byte that can be read. -/
def bound (s : Source) : Nat :=
  match s.failsAt with
  | none => s.data.size
  | some f => min f s.data.size

theorem bound_le_size (s : Source) : s.bound ≤ s.data.size := by
  unfold bound
  split <;> omega

/-- The number of bytes that can still be read. -/
def remaining (s : Source) : Nat := s.bound - s.position

/-- Why a read of `n` bytes cannot be served: a breakdown if it comes first or at the very end. -/
def shortage (s : Source) (n : Nat) : Failure :=
  match s.failsAt with
  | none => .endOfInput n
  | some f => if f ≤ s.data.size then .io deviceReason else .endOfInput n

/-- Reads exactly `n` bytes.  A read that fails has used up what was left. -/
def read (n : Nat) : Action Source ByteArray := fun s =>
  if s.position + n ≤ s.bound then
    .ok (s.data.extract s.position (s.position + n)) { s with position := s.position + n }
  else
    .error (s.shortage n) { s with position := max s.position s.bound }

/-- Reads one byte. -/
def next : Action Source UInt8 := fun s =>
  if h : s.position < s.bound then
    have : s.position < s.data.size := Nat.lt_of_lt_of_le h s.bound_le_size
    .ok s.data[s.position] { s with position := s.position + 1 }
  else
    .error (s.shortage 1) s

/-- The bytes behind the read position. -/
def rest (s : Source) : ByteArray := s.data.extract s.position s.data.size

/-- Reading a byte uses one up. -/
theorem remaining_next {s t : Source} {b : UInt8} (h : next s = .ok b t) :
    t.remaining < s.remaining := by
  unfold next at h
  split at h
  · next hlt =>
    cases h
    simp only [remaining, bound] at hlt ⊢
    omega
  · cases h

end Source

end BlockPress
