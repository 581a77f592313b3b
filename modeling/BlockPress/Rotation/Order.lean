/-!
# The order of rotations

A block of `n` bytes has `n` rotations: the one at offset `a` reads the block cyclically from there.
`Rotation.compare` orders them byte by byte.  Two rotations are level exactly when all their bytes
agree, which happens at different offsets only in a block that repeats a shorter one.
-/

namespace BlockPress.Rotation

/-- The byte `k` places into the rotation at offset `a`. -/
@[inline] def byte (block : ByteArray) (a k : Nat) (h : 0 < block.size) : UInt8 :=
  block.get ((a + k) % block.size) (Nat.mod_lt _ h)

theorem size_pos_of_lt {block : ByteArray} {p : Nat} (h : p < block.size) : 0 < block.size :=
  Nat.zero_lt_of_lt h

/-- Compares two rotations from place `k` on. -/
def compareFrom (block : ByteArray) (a b k : Nat) : Ordering :=
  if h : k < block.size then
    let x := byte block a k (size_pos_of_lt h)
    let y := byte block b k (size_pos_of_lt h)
    if x = y then compareFrom block a b (k + 1) else if x < y then .lt else .gt
  else .eq
termination_by block.size - k

/-- The lexicographic order of the rotations at offsets `a` and `b`. -/
def compare (block : ByteArray) (a b : Nat) : Ordering := compareFrom block a b 0

/-- The offset before `a`, cyclically. -/
def before {n : Nat} (a : Fin n) : Fin n :=
  if h : a.val = 0 then ⟨n - 1, by have := a.isLt; omega⟩ else ⟨a.val - 1, by have := a.isLt; omega⟩

end BlockPress.Rotation
