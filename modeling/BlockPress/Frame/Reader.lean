import BlockPress.Block.Reader
import BlockPress.Entropy.RangeReader
import BlockPress.Frame.Header

/-!
# Reading frames

A `FrameReader` checks the header, and then gives the blocks one by one until the end of the stream.
Bytes behind the end are left in the source.
-/

namespace BlockPress

/-- The reading side of a frame. -/
structure FrameReader where
  /-- The header of the frame. -/
  header : FrameHeader
  /-- The blocks behind the header. -/
  blocks : BlockReader (RangeReader Rank.contextCount)
  /-- The buffer for a block. -/
  buffer : ByteArray

namespace FrameReader

/-- The source of the frame, behind the bytes that were read. -/
def source (r : FrameReader) : Source := r.blocks.ranks.coder.source

/-- The reader over a source with other bytes, from the same position on. -/
def withData (data : ByteArray) (r : FrameReader) : FrameReader :=
  { r with blocks.ranks.coder.register.source.data := data }

/-- The number of blocks read. -/
def blocksRead (r : FrameReader) : Nat := r.blocks.blocks

/-- Reads the header of a frame and the start of its coded data. -/
def start : Action Source FrameReader := fun s =>
  match FrameHeader.read s with
  | .error failure s => .error failure s
  | .ok header s =>
    match RangeReader.start Rank.contexts s with
    | .error failure s => .error failure s
    | .ok coder s =>
      match BlockReader.start coder header.config with
      | .error failure => .error failure s
      | .ok blocks => .ok ⟨header, blocks, Buffer.zeros header.config.blockSize⟩ s

variable [BlockHash]

/-- Reads the next block, or finds the end of the stream. -/
def readBlock : Action FrameReader (Option ByteArray)
  | ⟨header, blocks, buffer⟩ =>
    match BlockReader.read (blocks, buffer) with
    | .error failure (blocks, buffer) => .error failure ⟨header, blocks, buffer⟩
    | .ok (.block size) (blocks, buffer) =>
      .ok (some (buffer.extract 0 size)) ⟨header, blocks, buffer⟩
    | .ok .finished (blocks, buffer) => .ok none ⟨header, blocks, buffer⟩
    | .ok (.needsRoom needed) (blocks, buffer) =>
      .error (.badHeader (.shortBuffer buffer.size needed)) ⟨header, blocks, buffer⟩

/-- Reads all blocks that are left onto an output.  A block takes at least one byte of the source, so
the reading comes to an end.

The loop asks for this byte before it goes on, since nothing else in its definition shows that it ends.
**The branch behind the question, where the reading would stop as if the stream had ended, is never taken**:
for a reader that was started on any bytes, `FrameReader.remaining_lt_of_readBlock` answers it. -/
def readAll : Action (FrameReader × ByteArray) Unit := fun (r, out) =>
  let left := r.source.remaining
  match readBlock r with
  | .error failure r => .error failure (r, out)
  | .ok none r => .ok () (r, out)
  | .ok (some block) r =>
    if _h : r.source.remaining < left then readAll (r, out ++ block) else .ok () (r, out ++ block)
termination_by s => s.1.source.remaining

end FrameReader

end BlockPress
