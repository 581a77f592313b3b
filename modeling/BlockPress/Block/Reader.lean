import BlockPress.Block.Config
import BlockPress.Checksum
import BlockPress.Column
import BlockPress.Rank.Reader

/-!
# Reading blocks

A block is read into the front of a buffer of the caller.  A buffer that is too small is refused
before anything is read, so the call can be made again with a larger one; the end of the stream is
remembered, and from then on every call gives it again.  A block that fails its checksum has been
laid into the buffer already.
-/

namespace BlockPress

/-- What a call for a block gives. -/
inductive BlockStatus where
  /-- A block of this size lies in the front of the buffer. -/
  | block (size : Nat)
  /-- The buffer is smaller than the block size, which is `needed`. -/
  | needsRoom (needed : Nat)
  /-- The stream is over. -/
  | finished
deriving DecidableEq, Repr

/-- The reading side of a stream of blocks, over a coder. -/
structure BlockReader (δ : Type) where
  /-- The rank stream that carries the blocks. -/
  ranks : RankReader δ
  /-- The settings of the stream. -/
  config : Config
  /-- The number of blocks read. -/
  blocks : Nat := 0
  /-- Whether the end of the stream was read. -/
  finished : Bool := false

namespace BlockReader

open Rank

variable {δ : Type}

/-- A reader at the start of its stream.  The coder has the contexts of a rank stream. -/
def start (coder : δ) (config : Config) : Except Failure (BlockReader δ) :=
  match config.check with
  | .ok () => .ok { ranks := { coder }, config }
  | .error failure => .error failure

variable [SymbolReader δ contextCount] [BlockHash]

/-- Reads the column of block number `label` and restores its bytes. -/
@[specialize] def readBytes (config : Config) (label : Nat) (origin : UInt32) :
    Action (RankReader δ) ByteArray := fun r =>
  match RankReader.readBlock config.blockSize label (r, .empty) with
  | .error failure (r, _) => .error failure r
  | .ok () (r, column) =>
    if column.isEmpty then .error (.corrupt label .empty) r
    else
      match Column.restore column origin.toNat with
      | .ok block => .ok block r
      | .error failure => .error failure r

/-- Reads the checksum of a block, if the settings have one, and compares. -/
@[specialize] def readChecksum (config : Config) (label : Nat) (block : ByteArray) :
    Action (RankReader δ) Unit := fun r =>
  if config.checksum then
    match RankReader.readWord r with
    | .error failure r => .error failure r
    | .ok expected r =>
      let computed := BlockHash.hash block
      if expected = computed then .ok () r
      else .error (.checksumMismatch label expected computed) r
  else .ok () r

/-- Reads the next block into a buffer. -/
@[specialize] def read : Action (BlockReader δ × ByteArray) BlockStatus
  | (⟨ranks, config, blocks, finished⟩, buffer) =>
    if finished then .ok .finished (⟨ranks, config, blocks, finished⟩, buffer)
    else if buffer.size < config.blockSize then
      .ok (.needsRoom config.blockSize) (⟨ranks, config, blocks, finished⟩, buffer)
    else
      match RankReader.readWord ranks with
      | .error failure ranks => .error failure (⟨ranks, config, blocks, finished⟩, buffer)
      | .ok origin ranks =>
        if config.blockSize ≤ origin.toNat then
          .ok .finished (⟨ranks, config, blocks, true⟩, buffer)
        else
          match readBytes config blocks origin ranks with
          | .error failure ranks => .error failure (⟨ranks, config, blocks, finished⟩, buffer)
          | .ok block ranks =>
            let buffer := Buffer.overlay block buffer
            match readChecksum config blocks block ranks with
            | .error failure ranks => .error failure (⟨ranks, config, blocks, finished⟩, buffer)
            | .ok () ranks =>
              .ok (.block block.size) (⟨ranks, config, blocks + 1, finished⟩, buffer)

end BlockReader

end BlockPress
