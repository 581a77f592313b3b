import BlockPress.Failure

/-!
# Settings of a stream

The block size, which is from 1 byte to 16 MiB, and whether each block carries a checksum.  No origin
of a block that large can be taken for the end of the stream.
-/

namespace BlockPress

/-- The settings that the two sides of a stream share. -/
structure Config where
  /-- The greatest number of bytes in a block. -/
  blockSize : Nat := 1048576
  /-- Whether each block carries the checksum of its bytes. -/
  checksum : Bool := true
deriving DecidableEq, Repr

namespace Config

/-- The greatest block size. -/
def maxBlockSize : Nat := 16777216

/-- Settings that a stream can have. -/
def Valid (c : Config) : Prop := 0 < c.blockSize ∧ c.blockSize ≤ maxBlockSize

instance (c : Config) : Decidable c.Valid := inferInstanceAs (Decidable (_ ∧ _))

/-- Refuses settings that a stream cannot have. -/
def check (c : Config) : Except Failure Unit :=
  if c.Valid then .ok () else .error (.badBlockSize c.blockSize maxBlockSize)

theorem check_eq_ok_iff {c : Config} : c.check = .ok () ↔ c.Valid := by
  unfold check
  split <;> simp_all

end Config

end BlockPress
