import BlockPress.Entropy.Context

/-!
# The symbols of ranks

A stream of ranks is coded by symbols of eleven kinds: the two digits of a zero run, the eight
classes of a rank above zero, and the end of a block.

* A rank `r` of class `c` lies from `2 ^ c` up to `2 ^ (c + 1)`; a class above 0 is followed by
  `r - 2 ^ c`, through a context of that class.
* A run of `n` zeros is written as the binary digits of `n + 1`, the lowest first and the leading
  one left out.  Every string of digits is that of exactly one run, so a run needs no end.

Words of 32 bits, for origins and checksums, are written as four bytes through a context of their
own.
-/

namespace BlockPress.Rank

open scoped Standard

/-- The number of contexts of a stream. -/
abbrev contextCount : Nat := 9

/-- The number of symbols that stand for ranks. -/
def symbolCount : Nat := 11

/-- The first symbol of a class. -/
def firstClass : UInt32 := 2

/-- The symbol that ends a block. -/
def blockEnd : UInt32 := 10

/-- The context of the symbols of ranks. -/
def symbolContext : Fin contextCount := 0

/-- The context of the offsets of a class above 0. -/
def offsetContext (c : Fin 8) : Fin contextCount := ⟨c.val, Nat.lt_succ_of_lt c.isLt⟩

/-- The context of the bytes of words. -/
def wordContext : Fin contextCount := 8

/-- The contexts of a stream: symbols, the offsets of the classes 1 to 7, and words. -/
def contexts : Vector Context contextCount :=
  #v[(⟨symbolCount, 0, 32⟩ : Context)] ++
    Vector.ofFn (fun c : Fin 7 => (⟨2 ^ (c.val + 1), c.val + 1 - 4, 64⟩ : Context)) ++
    #v[Context.plain 8]

/-- The class of a rank above zero: the place of its leading bit. -/
def classOf (rank : UInt8) : Fin 8 :=
  ⟨rank.toNat.log2, by
    have := rank.toNat_lt
    by_cases h : rank.toNat = 0
    · simp [h]
    · exact (Nat.log2_lt h).2 this⟩

/-- The symbols of a rank above zero. -/
def rankSymbols (rank : UInt8) : List (Fin contextCount × UInt32) :=
  let c := classOf rank
  let kind := (symbolContext, firstClass + c.val.toUInt32)
  if c.val = 0 then [kind] else [kind, (offsetContext c, (rank.toNat - 2 ^ c.val).toUInt32)]

/-- The binary digits of a number, the lowest first and the leading one left out. -/
def digits (value : Nat) : List UInt32 :=
  if 1 < value then (value % 2).toUInt32 :: digits (value / 2) else []

/-- The symbols of a run of zeros. -/
def runSymbols (length : Nat) : List (Fin contextCount × UInt32) :=
  (digits (length + 1)).map (symbolContext, ·)

/-- The symbols of a word, the highest byte first. -/
def wordSymbols (word : UInt32) : List (Fin contextCount × UInt32) :=
  [24, 16, 8, 0].map fun (shift : UInt32) => (wordContext, (word >>> shift) &&& 0xFF)

/-- One unit of a stream of ranks. -/
inductive Token where
  /-- A run of zeros. -/
  | run (length : Nat) (pos : 0 < length)
  /-- A rank. -/
  | rank (rank : UInt8)
  /-- The end of a block. -/
  | blockEnd
deriving DecidableEq

/-- The greatest number of digits of a run that a reader accepts. -/
def maxDigits : Nat := 40

end BlockPress.Rank
