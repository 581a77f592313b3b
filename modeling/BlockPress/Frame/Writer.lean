import BlockPress.Block.Writer
import BlockPress.Entropy.RangeWriter
import BlockPress.Frame.Header

/-!
# Writing frames

A `FrameWriter` takes data in pieces of any size and writes a block as soon as it is full.  Bytes that
do not fill a block stay pending until more come or the frame is closed, so the frame does not depend
on how the data was cut.
-/

namespace BlockPress

/-- The writing side of a frame. -/
structure FrameWriter where
  /-- The blocks behind the header. -/
  blocks : BlockWriter (RangeWriter Rank.contextCount)
  /-- The bytes of the block that is not full yet. -/
  pending : ByteArray := .empty
  /-- The number of bytes taken so far. -/
  bytesIn : Nat := 0

namespace FrameWriter

/-- The size of the blocks. -/
def blockSize (w : FrameWriter) : Nat := w.blocks.config.blockSize

/-- The sink of the frame. -/
def sink (w : FrameWriter) : Sink := w.blocks.ranks.coder.sink

/-- The number of bytes written behind the header, handed to the sink or not. -/
def bytesOut (w : FrameWriter) : Nat := w.blocks.ranks.coder.produced

/-- Writes the header of a frame. -/
def start (config : Config) : Action Sink FrameWriter := fun sink =>
  match config.check with
  | .error failure => .error failure sink
  | .ok () =>
    match Sink.write ⟨(FrameHeader.ofConfig config).toBytes.toArray⟩ sink with
    | .error failure sink => .error failure sink
    | .ok () sink =>
      match BlockWriter.start (RangeWriter.start Rank.contexts sink) config with
      | .error failure => .error failure sink
      | .ok blocks => .ok { blocks } sink

variable [BlockHash]

/-- Writes the pending bytes as a block.  They stay pending if that fails. -/
def writePending : Action FrameWriter Unit
  | ⟨blocks, pending, bytesIn⟩ =>
    match BlockWriter.write pending blocks with
    | .ok _ blocks => .ok () ⟨blocks, .empty, bytesIn⟩
    | .error failure blocks => .error failure ⟨blocks, pending, bytesIn⟩

/-- Writes full blocks of the data from place `i` on and keeps what is left. -/
def writeFrom (data : ByteArray) (i : Nat) : Action FrameWriter Unit
  | ⟨blocks, pending, bytesIn⟩ =>
    let size := blocks.config.blockSize
    if 0 < size ∧ i + size ≤ data.size then
      match BlockWriter.write (data.extract i (i + size)) blocks with
      | .ok _ blocks => writeFrom data (i + size) ⟨blocks, pending, bytesIn⟩
      | .error failure blocks => .error failure ⟨blocks, pending, bytesIn⟩
    else .ok () ⟨blocks, pending ++ data.extract i data.size, bytesIn⟩
termination_by data.size - i

/-- Takes data. -/
def write (data : ByteArray) : Action FrameWriter Unit
  | ⟨blocks, pending, bytesIn⟩ =>
    let bytesIn := bytesIn + data.size
    if pending.isEmpty then writeFrom data 0 ⟨blocks, pending, bytesIn⟩
    else
      let take := min (blocks.config.blockSize - pending.size) data.size
      let pending := pending ++ data.extract 0 take
      if pending.size = blocks.config.blockSize then
        match writePending ⟨blocks, pending, bytesIn⟩ with
        | .ok () w => writeFrom data take w
        | .error failure w => .error failure w
      else writeFrom data take ⟨blocks, pending, bytesIn⟩

/-- Writes what is pending and ends the frame. -/
def close : Action FrameWriter Unit := fun w =>
  match (if w.pending.isEmpty then .ok () w else writePending w) with
  | .error failure w => .error failure w
  | .ok () ⟨blocks, pending, bytesIn⟩ =>
    match BlockWriter.close blocks with
    | .ok () blocks => .ok () ⟨blocks, pending, bytesIn⟩
    | .error failure blocks => .error failure ⟨blocks, pending, bytesIn⟩

end FrameWriter

end BlockPress
