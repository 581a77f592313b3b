/-!
# Chances

The chance of a zero bit, in parts of 2048.  A chance splits a range into the part of a zero bit and
that of a one bit, and moves toward the bit that came: by `1 / 2 ^ shift` of its distance from
certainty.
-/

namespace BlockPress

/-- The chance of a zero bit, in parts of 2048. -/
structure Chance where
  /-- The number of parts. -/
  parts : UInt16
deriving DecidableEq, Repr, Inhabited

namespace Chance

/-- The number of parts of certainty. -/
def whole : UInt16 := 2048

/-- An even chance. -/
def even : Chance := ⟨1024⟩

/-- The part of `range` that stands for a zero bit. -/
@[inline] def share (p : Chance) (range : UInt32) : UInt32 := (range >>> 11) * p.parts.toUInt32

/-- The chance after `bit` was seen. -/
@[inline] def adapt (p : Chance) (shift : Nat) (bit : Bool) : Chance :=
  if bit then ⟨p.parts - (p.parts >>> shift.toUInt16)⟩
  else ⟨p.parts + ((whole - p.parts) >>> shift.toUInt16)⟩

end Chance

end BlockPress
