/-!
# The checksum of a block

The cyclic redundancy check of 32 bits in its reflected form: polynomial `0xEDB88320`, all bits set
at the start and inverted at the end.  `step` is the definition, one bit after the other; `crc32`
takes eight bits at a time through a table of the remainders of single bytes.

The block codec and the commands take the checksum of a block from a `BlockHash` and do not look into it;
`crc32` is the one of the program.
-/

namespace BlockPress

/-- A function that gives each block its checksum. -/
class BlockHash where
  /-- The checksum of the bytes of a block. -/
  hash : ByteArray → UInt32

namespace Checksum

/-- The remainder after one more zero bit. -/
def step (crc : UInt32) : UInt32 :=
  if crc &&& 1 = 1 then (crc >>> 1) ^^^ 0xEDB88320 else crc >>> 1

/-- The remainder after `n` more zero bits. -/
def steps : Nat → UInt32 → UInt32
  | 0, crc => crc
  | n + 1, crc => steps n (step crc)

/-- The remainder of each single byte. -/
def table : Vector UInt32 256 := Vector.ofFn fun b => steps 8 b.val.toUInt32

/-- The remainder after one more byte. -/
def update (crc : UInt32) (b : UInt8) : UInt32 :=
  have : (crc.toUInt8 ^^^ b).toNat < 256 := UInt8.toNat_lt _
  table[(crc.toUInt8 ^^^ b).toNat] ^^^ (crc >>> 8)

/-- The checksum of the bytes. -/
def crc32 (data : ByteArray) : UInt32 := data.foldl update 0xFFFFFFFF ^^^ 0xFFFFFFFF

end Checksum

instance : BlockHash := ⟨Checksum.crc32⟩

end BlockPress
