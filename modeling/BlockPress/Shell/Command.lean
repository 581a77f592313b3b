import BlockPress.Frame.Writer
import BlockPress.Shell.Overwriting
import BlockPress.Shell.Request
import BlockPress.Shell.Session
import BlockPress.Shell.StreamInfo

/-!
# Commands

The commands that a request can name.

* `compress` and `decompress` first see that the output path is free, then open the input, and empty
  the output only when the input has turned out to be usable.  **An input that is its own output is
  therefore empty when it is compressed**, while decompressing has read the start of it before.
* `test` and `info` decode the whole frame and write nothing.

A fault in a block comes up when the blocks before it have been written.
-/

namespace BlockPress.Shell

open Session

/-- The number of bytes that are taken from a file at a time. -/
def chunkSize : Nat := 65536

/-- The frame in a file, up to its first block. -/
def openFrame (input : Place) : Command FrameReader := do
  match ← content input with
  | .error fault => fail (.stream (.io fault.message))
  | .ok data =>
    match FrameReader.start { data } with
    | .ok reader _ => pure reader
    | .error failure _ => fail (.stream failure)

variable [BlockHash]

/-- Feeds a writer with the bytes of a file from place `i` on, chunk by chunk. -/
def feed (data : ByteArray) (i : Nat) : Action FrameWriter Unit := fun w =>
  if i < data.size then
    match FrameWriter.write (data.extract i (i + chunkSize)) w with
    | .error failure w => .error failure w
    | .ok () w => feed data (i + chunkSize) w
  else .ok () w
termination_by data.size - i
decreasing_by
  simp only [chunkSize]
  omega

/-- Packs the bytes of a file, and gives the number of bytes taken and the frame. -/
def packChunks (data : ByteArray) (config : Config) : Except Failure (Nat × ByteArray) :=
  match FrameWriter.start config {} with
  | .error failure _ => .error failure
  | .ok w _ =>
    match feed data 0 w with
    | .error failure _ => .error failure
    | .ok () w =>
      match FrameWriter.close w with
      | .error failure _ => .error failure
      | .ok () w' => .ok (w.bytesIn, w'.sink.written)

/-- Compresses a file.  A directory can be opened but not read, which shows when the header has been
written. -/
def compress (o : CompressOptions) : Command Unit := do
  checkFree o.outputPath o.force
  sound o.config.check
  let input ← openInput o.input
  let output ← openOutput o.outputPath
  match ← content input with
  | .error fault => do
    fill output ⟨(FrameHeader.ofConfig o.config).toBytes.toArray⟩
    fail (.file fault)
  | .ok data => do
    let (size, frame) ← sound (packChunks data o.config)
    fill output frame
    print (s!"{o.input} -> {o.outputPath}: {size} -> {frame.size} bytes (" ++
      percentText (spaceSaving size frame.size) ++ " saved)")

/-- Decodes the blocks that are left, up to a fault. -/
def decode (reader : FrameReader) : FrameReader × ByteArray × Except Fault Unit :=
  match FrameReader.readAll (reader, .empty) with
  | .ok () (reader, data) => (reader, data, .ok ())
  | .error failure (reader, data) => (reader, data, .error (.stream failure))

/-- Decompresses a frame. -/
def decompress (o : DecompressOptions) : Command Unit := do
  checkFree o.outputPath o.force
  let input ← openInput o.input
  let reader ← openFrame input
  let output ← openOutput o.outputPath
  let (data, outcome) : ByteArray × Except Fault Unit :=
    if output = input then
      let (o, outcome) := (Overwriting.start reader).run
      (o.bytes, outcome)
    else (decode reader).2
  fill output data
  match outcome with
  | .error fault => fail fault
  | .ok () => print s!"{o.input} -> {o.outputPath}: {data.size} bytes"

/-- Tells whether a frame is sound. -/
def test (path : String) : Command Unit := do
  print ("Testing " ++ path)
  let reader ← openFrame (← openInput path)
  match decode reader with
  | (reader, _, .error fault) => do
    print (s!"  FAILED at block {reader.blocksRead}: " ++ fault.message)
    fail fault
  | (reader, data, .ok ()) =>
    print (s!"  OK: {reader.blocksRead} blocks, {data.size} bytes" ++
      if reader.header.checksum then ", checksums verified" else "")

/-- Tells what is in a frame. -/
def info (path : String) (json : Bool) : Command Unit := do
  let input ← openInput path
  let reader ← openFrame input
  match decode reader with
  | (_, _, .error fault) => fail fault
  | (reader, data, .ok ()) => do
    let told : StreamInfo := {
      file := path
      header := reader.header
      blocks := reader.blocksRead
      packedSize := reader.source.data.size
      size := data.size }
    if json then print told.json else told.lines.forM print

/-- Does what is asked for. -/
def perform : Request → Command Unit
  | .compress o => compress o
  | .decompress o => decompress o
  | .test input => test input
  | .info input json => info input json

end BlockPress.Shell
