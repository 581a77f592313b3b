import BlockPress.Block.Config
import BlockPress.Checksum
import BlockPress.Column
import BlockPress.Rank.Writer

/-!
# Writing blocks

A block is written as its origin, the ranks of its column up to the end symbol, and the checksum of
its bytes if the settings ask for one.  An origin that no block has ends the stream.
-/

namespace BlockPress

/-- The origin that ends a stream. -/
def streamEnd : UInt32 := 0xFFFFFFFF

/-- The writing side of a stream of blocks, over a coder. -/
structure BlockWriter (ε : Type) where
  /-- The rank stream that carries the blocks. -/
  ranks : RankWriter ε
  /-- The settings of the stream. -/
  config : Config
  /-- The tables for sorting. -/
  sorter : Rotation.Sorter := .fresh
  /-- The number of blocks written. -/
  blocks : Nat := 0

namespace BlockWriter

open Rank

variable {ε : Type}

/-- A writer at the start of its stream.  The coder has the contexts of a rank stream. -/
def start (coder : ε) (config : Config) : Except Failure (BlockWriter ε) :=
  match config.check with
  | .ok () => .ok { ranks := { coder }, config }
  | .error failure => .error failure

variable [SymbolWriter ε contextCount] [BlockHash]

/-- Writes the origin, the column and the checksum of a block. -/
@[specialize] def writeParts (origin : Nat) (column : ByteArray) (checksum : Option UInt32) :
    Action (RankWriter ε) Unit := fun w =>
  match RankWriter.writeWord origin.toUInt32 w with
  | .error failure w => .error failure w
  | .ok () w =>
    match RankWriter.writeBlock column w with
    | .error failure w => .error failure w
    | .ok () w =>
      match checksum with
      | none => .ok () w
      | some sum => RankWriter.writeWord sum w

/-- Writes the first bytes of `input` as a block, as many as a block may have, and gives their
number.  No bytes are no block. -/
@[specialize] def write (input : ByteArray) : Action (BlockWriter ε) Nat
  | ⟨ranks, config, sorter, blocks⟩ =>
    let block := input.extract 0 config.blockSize
    if block.isEmpty then .ok 0 ⟨ranks, config, sorter, blocks⟩
    else
      let sorter := sorter.sort block
      let checksum := if config.checksum then some (BlockHash.hash block) else none
      match writeParts sorter.origin (sorter.column block) checksum ranks with
      | .ok () ranks => .ok block.size ⟨ranks, config, sorter, blocks + 1⟩
      | .error failure ranks => .error failure ⟨ranks, config, sorter, blocks⟩

/-- Ends the stream and closes the coder. -/
@[specialize] def close : Action (BlockWriter ε) Unit
  | ⟨ranks, config, sorter, blocks⟩ =>
    match RankWriter.writeWord streamEnd ranks with
    | .error failure ranks => .error failure ⟨ranks, config, sorter, blocks⟩
    | .ok () ranks =>
      match RankWriter.close ranks with
      | .ok () ranks => .ok () ⟨ranks, config, sorter, blocks⟩
      | .error failure ranks => .error failure ⟨ranks, config, sorter, blocks⟩

end BlockWriter

end BlockPress
