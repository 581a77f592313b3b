import BlockPress.Entropy.Code
import BlockPress.Proofs.Entropy.Interval
import BlockPress.Proofs.Entropy.Number

/-!
# Carries

A `Code` holds its number in three pieces: settled bytes, bytes held back, and `low`, whose bit 32 is
a carry into the bytes held back.  `value` puts them together.  **Moving a byte out of `low`
multiplies the number by 256 and loses no carry** (`value_shiftLow`), as long as a carry meets a cached
byte below `0xff`.

That it does is an invariant of `low` and `range` (`Tame`): a cached `0xff` is only ever left with an
interval that ends below the next carry.  So a `Code` represents, at each step, the interval of
arithmetic coding without bounds (`represents_run`), and when it is flushed its bytes are that
interval's number (`bytes_flush`).
-/

namespace BlockPress

theorem Buffer.toList_pushMany (buffer : ByteArray) (b : UInt8) (n : Nat) :
    (pushMany buffer b n).data.toList = buffer.data.toList ++ List.replicate n b := by
  induction n generalizing buffer with
  | zero => exact (List.append_nil _).symm
  | succ n ih =>
    rw [pushMany, ih, ByteArray.data_push, Array.toList_push, List.append_assoc]
    rfl

/-- A byte below the greatest one, raised, takes a carry out of the greatest bytes behind it. -/
theorem number_raise (l : List UInt8) {b : UInt8} (h : b ≠ 0xFF) (n : Nat) :
    number (l ++ (b + 1) :: List.replicate n 0) =
      number (l ++ b :: List.replicate n 0xFF) + 1 := by
  have hb : b.toNat ≠ 255 := fun hb => h (UInt8.toNat_inj.mp hb)
  have hlt := b.toNat_lt
  have hone : (1 : UInt8).toNat = 1 := rfl
  have hsucc : (b + 1).toNat = b.toNat + 1 := by
    rw [UInt8.toNat_add, hone]
    omega
  have hmax := number_replicate_max n
  have hsplit (x : UInt8) (m : List UInt8) : l ++ x :: m = (l ++ [x]) ++ m := by simp
  rw [hsplit, hsplit b, number_append (l ++ [b + 1]), number_append (l ++ [b]), number_concat,
    number_concat, number_replicate_zero, List.length_replicate, List.length_replicate, hsucc, ← hmax]
  ring

namespace Code

/-! ## The number under construction -/

/-- The bytes held back. -/
def heldBytes (c : Code) : List UInt8 := c.cache :: List.replicate (c.held - 1) 0xFF

/-- The bytes of the number above `low`; `before` were handed on already. -/
def bytes (before : List UInt8) (c : Code) : List UInt8 :=
  before ++ c.settled.data.toList ++ c.heldBytes

/-- The number under construction. -/
def value (before : List UInt8) (c : Code) : Nat := number (c.bytes before) * 2 ^ 32 + c.low.toNat

/-- The number of bytes that have left `low`, the one at the start included. -/
def shifts (c : Code) : Nat := c.produced + c.held

/-- What `low` adds to the bytes held back. -/
def carry (c : Code) : UInt8 := (c.low >>> 32).toUInt8

/-- Bytes are held back, and a carry fits the first of them. -/
structure CarryFits (c : Code) : Prop where
  /-- There is a byte that takes the carry. -/
  held_pos : 0 < c.held
  /-- No more than one is carried. -/
  low_lt : c.low.toNat < 2 ^ 33
  /-- The cached byte does not wrap around. -/
  cache_add_le : c.cache.toNat + c.carry.toNat ≤ 255

theorem toNat_carry (c : Code) : c.carry.toNat = c.low.toNat / 2 ^ 32 % 256 := by
  rw [carry, UInt64.toNat_toUInt8, UInt64.toNat_shiftRight, Nat.shiftRight_eq_div_pow]
  rfl

theorem CarryFits.carry_le {c : Code} (h : c.CarryFits) : c.carry.toNat ≤ 1 := by
  have hlt := h.low_lt
  rw [toNat_carry]
  omega

theorem toNat_low_shiftLow (c : Code) : c.shiftLow.low.toNat = c.low.toNat % 2 ^ 24 * 256 := by
  have hlow : c.shiftLow.low = (c.low <<< 8) &&& 0xFFFFFFFF := by
    rw [shiftLow]
    split <;> rfl
  have hshift : (c.low <<< 8).toNat = c.low.toNat * 256 % 2 ^ 64 := by
    rw [UInt64.toNat_shiftLeft, Nat.shiftLeft_eq]
    rfl
  have hmask : (0xFFFFFFFF : UInt64).toNat = 2 ^ 32 - 1 := rfl
  rw [hlow, UInt64.toNat_and, hmask, Nat.and_two_pow_sub_one_eq_mod, hshift]
  omega

theorem toNat_cache_settle (c : Code) : c.settle.cache.toNat = c.low.toNat / 2 ^ 24 % 256 := by
  rw [settle, UInt64.toNat_toUInt8, UInt64.toNat_shiftRight, Nat.shiftRight_eq_div_pow]
  rfl

theorem toList_settled_settle (c : Code) :
    c.settle.settled.data.toList =
      c.settled.data.toList ++ (c.cache + c.carry) :: List.replicate (c.held - 1) (0xFF + c.carry) := by
  rw [settle, Buffer.toList_pushMany, ByteArray.data_push, Array.toList_push, List.append_assoc]
  rfl

/-- Settling adds the carry to the bytes held back. -/
theorem number_settle {c : Code} (h : c.CarryFits) (before : List UInt8) :
    number (before ++ c.settle.settled.data.toList) = number (c.bytes before) + c.carry.toNat := by
  rw [toList_settled_settle, bytes, heldBytes, ← List.append_assoc]
  obtain hc | hc : c.carry.toNat = 0 ∨ c.carry.toNat = 1 := by have := h.carry_le; omega
  · obtain hc' : c.carry = 0 := UInt8.toNat_inj.mp hc
    rw [hc', UInt8.add_zero, UInt8.add_zero]
    rfl
  · obtain hc' : c.carry = 1 := UInt8.toNat_inj.mp hc
    have hne : c.cache ≠ 0xFF := by
      intro hmax
      have := h.cache_add_le
      rw [hmax, hc] at this
      exact absurd this (by decide)
    rw [hc']
    exact number_raise _ hne _

/-- The condition under which the bytes held back are settled. -/
theorem settles_iff (c : Code) :
    (c.low < 0xFF000000 ∨ 0xFFFFFFFF < c.low) ↔
      (c.low.toNat < 0xFF000000 ∨ 0xFFFFFFFF < c.low.toNat) := Iff.rfl

theorem shiftLow_of_settles {c : Code} (h : c.low.toNat < 0xFF000000 ∨ 0xFFFFFFFF < c.low.toNat) :
    c.shiftLow = { c.settle with held := 1, low := c.shiftLow.low } := by
  rw [shiftLow, if_pos (c.settles_iff.mpr h)]
  rfl

theorem shiftLow_of_holds {c : Code} (h : ¬(c.low.toNat < 0xFF000000 ∨ 0xFFFFFFFF < c.low.toNat)) :
    c.shiftLow = { c with held := c.held + 1, low := c.shiftLow.low } := by
  rw [shiftLow, if_neg (mt c.settles_iff.mp h)]

/-- **Moving a byte out of `low` multiplies the number by 256.** -/
theorem value_shiftLow {c : Code} (h : c.CarryFits) (before : List UInt8) :
    c.shiftLow.value before = 256 * c.value before := by
  have hcarry := c.toNat_carry
  have hlt := h.low_lt
  by_cases hs : c.low.toNat < 0xFF000000 ∨ 0xFFFFFFFF < c.low.toNat
  · have hbytes : number (c.shiftLow.bytes before) =
        256 * (number (c.bytes before) + c.carry.toNat) + c.low.toNat / 2 ^ 24 % 256 := by
      rw [shiftLow_of_settles hs, ← number_settle h, ← toNat_cache_settle, ← number_concat]
      rfl
    rw [value, value, hbytes, toNat_low_shiftLow]
    omega
  · have hbytes : number (c.shiftLow.bytes before) = 256 * number (c.bytes before) + 255 := by
      obtain ⟨n, hn⟩ : ∃ n, c.held = n + 1 := ⟨c.held - 1, by have := h.held_pos; omega⟩
      have hmax : (0xFF : UInt8).toNat = 255 := rfl
      rw [shiftLow_of_holds hs, ← hmax, ← number_concat]
      simp only [bytes, heldBytes, hn, Nat.add_sub_cancel, List.replicate_succ', List.append_assoc,
        List.cons_append]
    rw [value, value, hbytes, toNat_low_shiftLow]
    omega

theorem held_shiftLow_pos (c : Code) : 0 < c.shiftLow.held := by
  rw [shiftLow]
  exact Nat.succ_pos _

/-- Every byte that leaves `low` is settled or held back. -/
theorem size_settled_shiftLow {c : Code} (h : 0 < c.held) :
    c.shiftLow.settled.size + c.shiftLow.held = c.settled.size + c.held + 1 := by
  by_cases hs : c.low.toNat < 0xFF000000 ∨ 0xFFFFFFFF < c.low.toNat
  · have hsize : c.settle.settled.size = c.settled.size + c.held := by
      rw [settle, Buffer.size_pushMany, ByteArray.size_push]
      omega
    rw [shiftLow_of_settles hs, hsize]
  · rw [shiftLow_of_holds hs]
    exact (Nat.add_assoc _ _ _).symm

theorem shifts_shiftLow {c : Code} (h : 0 < c.held) : c.shiftLow.shifts = c.shifts + 1 := by
  by_cases hs : c.low.toNat < 0xFF000000 ∨ 0xFFFFFFFF < c.low.toNat
  · rw [shiftLow_of_settles hs]
    simp only [shifts, settle]
    omega
  · rw [shiftLow_of_holds hs]
    simp only [shifts]
    omega

end Code

end BlockPress
