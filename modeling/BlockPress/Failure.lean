import BlockPress.Text.Hex

/-!
# Failures

Everything that can go wrong with a stream is a `Failure`: a cause, with the data that the cause is
about.  The wording of each cause is in one place, `Failure.message`.

An `Action σ α` works on a state of type `σ` and may fail; **the state outlives the failure**, so a
caller may go on with whatever a failed action has left behind.
-/

namespace BlockPress

/-- What is wrong with the head of a stream. -/
inductive HeaderFault where
  /-- The format version is not one that can be read. -/
  | version (found : UInt8)
  /-- A flag bit is set that has no meaning. -/
  | flags (found : UInt8)
  /-- The range-coded data does not start with a zero byte. -/
  | startByte
  /-- The buffer offered for a block is smaller than the block size. -/
  | shortBuffer (size needed : Nat)
  /-- Any other fault, described in words. -/
  | other (detail : String)
deriving DecidableEq, Repr

/-- What is wrong with the symbols of a block. -/
inductive BlockFault where
  /-- A zero run has more digits than any run that fits a block. -/
  | runTooLong
  /-- A class and an offset name a rank beyond the last one. -/
  | rankOutOfRange (rank : UInt32)
  /-- The block would become longer than it may be. -/
  | growsPast (limit : Nat)
  /-- The block has no bytes. -/
  | empty
  /-- The symbol at this position was recorded in another context than it is read through. -/
  | foreignContext (position recorded used : Nat)
  /-- Any other fault, described in words. -/
  | other (detail : String)
deriving DecidableEq, Repr

/-- Why an operation on a stream failed. -/
inductive Failure where
  /-- The device behind a source or a sink failed. -/
  | io (reason : String)
  /-- The stream does not start with the bytes that mark its format. -/
  | badMagic (expected found : List UInt8)
  /-- The head of the stream is malformed. -/
  | badHeader (fault : HeaderFault)
  /-- The block size is zero or above the greatest one. -/
  | badBlockSize (size max : Nat)
  /-- The checksum stored with a block is not that of its bytes. -/
  | checksumMismatch (block : Nat) (expected computed : UInt32)
  /-- The symbols of a block make no sense. -/
  | corrupt (block : Nat) (fault : BlockFault)
  /-- A symbol lies outside the alphabet of its context. -/
  | badSymbol (symbol : UInt32) (alphabet : Nat)
  /-- The origin row lies outside the block. -/
  | badOrigin (origin size : Nat)
  /-- The source ended where `missing` more bytes were to be read. -/
  | endOfInput (missing : Nat)
deriving DecidableEq, Repr

/-- The text of a header fault. -/
def HeaderFault.message : HeaderFault → String
  | .version found => s!"Unsupported frame version: {found.toNat}"
  | .flags found => "Unknown frame flags: 0x" ++ Hex.fixed 2 found.toNat
  | .startByte => "Invalid range coder start byte"
  | .shortBuffer size needed => s!"block buffer of {size} bytes, {needed} needed"
  | .other detail => detail

/-- The text of a block fault. -/
def BlockFault.message : BlockFault → String
  | .runTooLong => "zero run too long"
  | .rankOutOfRange rank => s!"rank {rank.toNat} out of range"
  | .growsPast limit => s!"block grows past {limit} bytes"
  | .empty => "empty block"
  | .foreignContext position recorded used =>
    s!"symbol {position} recorded in context {recorded} but read through context {used}"
  | .other detail => detail

/-- The text of a failure. -/
def Failure.message : Failure → String
  | .io reason => "I/O error: " ++ reason
  | .badMagic expected found =>
    "Invalid magic number: expected " ++ Hex.byteList expected ++ ", found " ++ Hex.byteList found
  | .badHeader fault => "Invalid header: " ++ fault.message
  | .badBlockSize size max => s!"Invalid block size {size}: must be between 1 and {max}"
  | .checksumMismatch block expected computed =>
    s!"CRC mismatch in block {block}: expected 0x" ++ Hex.fixed 8 expected.toNat ++
      ", computed 0x" ++ Hex.fixed 8 computed.toNat
  | .corrupt block fault => s!"Corrupted data in block {block}: " ++ fault.message
  | .badSymbol symbol alphabet => s!"Invalid symbol {symbol.toNat} for alphabet of {alphabet}"
  | .badOrigin origin size => s!"Invalid origin {origin} for block of {size} bytes"
  | .endOfInput missing => s!"Unexpected end of input: expected {missing} more bytes"

instance : ToString Failure where
  toString := Failure.message

/-- Work on a state that may fail and leaves the state behind in either case. -/
abbrev Action (σ α : Type) : Type := EStateM Failure σ α

end BlockPress
