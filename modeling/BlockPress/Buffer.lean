/-!
# Byte buffers

Blank buffers, and laying bytes over the front of one.
-/

namespace BlockPress.Buffer

/-- A buffer of `n` zero bytes, grown by doubling. -/
def zeros (n : Nat) : ByteArray :=
  if n = 0 then .empty
  else
    let half := zeros (n / 2)
    if n % 2 = 0 then half ++ half else (half ++ half).push 0

theorem size_zeros (n : Nat) : (zeros n).size = n := by
  induction n using Nat.strongRecOn with
  | ind n ih =>
    rw [zeros]
    split
    · next h => simp [h]
    · next h =>
      have := ih (n / 2) (by omega)
      split
      · simp only [ByteArray.size_append, this]; omega
      · simp only [ByteArray.size_push, ByteArray.size_append, this]; omega

/-- The buffer with its first bytes replaced by `front`; `front` is not longer than the buffer. -/
def overlay (front buffer : ByteArray) : ByteArray := front.copySlice 0 buffer 0 front.size

/-- The buffer with `n` copies of `b` behind it. -/
def pushMany (buffer : ByteArray) (b : UInt8) : Nat → ByteArray
  | 0 => buffer
  | n + 1 => pushMany (buffer.push b) b n

@[simp] theorem size_pushMany (buffer : ByteArray) (b : UInt8) (n : Nat) :
    (pushMany buffer b n).size = buffer.size + n := by
  induction n generalizing buffer with
  | zero => rfl
  | succ n ih => simp [pushMany, ih]; omega

end BlockPress.Buffer
