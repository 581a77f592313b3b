import BlockPress.Frame.Reader
import BlockPress.Shell.Fault

/-!
# Decompressing a file onto itself

The file that holds a frame may be the one that the frame is decompressed into.  It has lost its bytes
by the time the first block is written, but the reader takes a page at a time and has the first one
already: **a frame that fits into a page is decompressed as into any other file.**  Behind the pages
that were read the reader meets what has been written, which is a page late as well, since small
pieces wait until a page of them has come together.
-/

namespace BlockPress.Shell

open scoped Standard

/-- The number of bytes that are read from a file or held back from it together. -/
def pageSize : Nat := 8192

/-- The greatest number of bytes in a file. -/
def maxFileSize : Nat := 2 ^ (63 : Nat) - 1

/-- A frame that is being decompressed onto itself. -/
structure Overwriting where
  /-- The reader of the frame, over the pages read and what the file holds behind them. -/
  reader : FrameReader
  /-- The end of the pages that were read. -/
  ahead : Nat
  /-- The bytes of the file. -/
  written : ByteArray := .empty
  /-- The bytes that wait to be written. -/
  pending : ByteArray := .empty

namespace Overwriting

/-- The start, when the first page of the file has been read and the file has been emptied. -/
def start (reader : FrameReader) : Overwriting :=
  let page := reader.source.data.extract 0 pageSize
  { reader := reader.withData page, ahead := page.size }

/-- The number of bytes decompressed. -/
def size (o : Overwriting) : Nat := o.written.size + o.pending.size

/-- All bytes decompressed. -/
def bytes (o : Overwriting) : ByteArray := o.written ++ o.pending

/-- Takes the bytes of a block.  Pieces wait as long as they fit into a page together; a block of a page
or more never waits. -/
def push (block : ByteArray) (o : Overwriting) : Overwriting :=
  if o.pending.size + block.size ≤ pageSize ∧ block.size < pageSize then
    { o with pending := o.pending ++ block }
  else if block.size < pageSize then
    { o with written := o.written ++ o.pending, pending := block }
  else { o with written := o.written ++ o.pending ++ block, pending := .empty }

/-- The end of the pages read, once the reader has gone on. -/
def pagesEnd (o : Overwriting) : Nat :=
  let behind := o.reader.source.position - o.ahead
  min (o.ahead + (behind + (pageSize - 1)) / pageSize * pageSize) o.reader.source.data.size

/-- Lets the reader see what the file holds behind the pages read. -/
def refresh (o : Overwriting) : Overwriting :=
  let pages := o.reader.source.data.extract 0 o.ahead
  { o with reader := o.reader.withData (pages ++ o.written.extract o.ahead o.written.size) }

theorem size_refresh (o : Overwriting) : o.refresh.size = o.size := rfl

theorem size_push (block : ByteArray) (o : Overwriting) :
    (o.push block).size = o.size + block.size := by
  unfold push
  split
  · simp only [size, ByteArray.size_append]
    omega
  · split <;> simp [size, ByteArray.size_append]

variable [BlockHash]

/-- Decompresses the blocks that are left. -/
def run (o : Overwriting) : Overwriting × Except Fault Unit :=
  match FrameReader.readBlock o.reader with
  | .error failure reader => ({ o with reader }, .error (.stream failure))
  | .ok none reader => ({ o with reader }, .ok ())
  | .ok (some block) reader =>
    let o' : Overwriting := { o with reader }
    let o' : Overwriting := { o' with ahead := o'.pagesEnd }
    if _h : 0 < block.size ∧ o.size + block.size ≤ maxFileSize then run (o'.push block).refresh
    else (o', .error (.file .tooLarge))
termination_by maxFileSize - o.size
decreasing_by
  rw [size_refresh, size_push]
  simp only [size] at *
  omega

end Overwriting

end BlockPress.Shell
