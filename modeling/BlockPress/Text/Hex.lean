/-!
# Hexadecimal digits

Lower-case hexadecimal of a fixed number of digits: `Hex.fixed w n` writes `n` modulo `16 ^ w` with
leading zeros, so its length is `w` whatever `n` is (`length_digits`).
-/

namespace BlockPress.Hex

/-- The lower-case digit of value `d % 16`. -/
def digit (d : Nat) : Char := Nat.digitChar (d % 16)

/-- The last `w` digits of `n`, most significant first. -/
def digits : (w n : Nat) → List Char
  | 0, _ => []
  | w + 1, n => digits w (n / 16) ++ [digit n]

@[simp] theorem length_digits (w n : Nat) : (digits w n).length = w := by
  induction w generalizing n with
  | zero => rfl
  | succ w ih => simp [digits, ih]

/-- The last `w` digits of `n` as a text. -/
def fixed (w n : Nat) : String := String.ofList (digits w n)

/-- Two digits for each byte, without a separator. -/
def bytes (data : ByteArray) : String :=
  data.foldl (fun text b => (text.push (digit (b.toNat / 16))).push (digit b.toNat)) ""

/-- Two digits for each byte, in brackets and separated by commas. -/
def byteList (bs : List UInt8) : String :=
  "[" ++ ", ".intercalate (bs.map fun b => fixed 2 b.toNat) ++ "]"

end BlockPress.Hex
