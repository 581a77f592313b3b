import BlockPress.Decimal.Fixed
import BlockPress.Decimal.Shortest
import BlockPress.Frame.Header
import BlockPress.Text.Quoted

/-!
# Facts about a frame

What the program tells about the frame in a file, in lines of text or as one JSON object.  The space
saved is the part of the unpacked size that the frame does without, in percent: less than nothing for
a frame that is larger than what it holds, and zero for a frame of no bytes.
-/

namespace BlockPress.Shell

/-- The space saved in percent. -/
def spaceSaving (size packed : Nat) : Float :=
  if size = 0 then 0.0 else (1.0 - Float.ofNat packed / Float.ofNat size) * 100.0

/-- A number of percent with one decimal place. -/
def percentText (x : Float) : String :=
  match Decimal.Binary.ofFloat? x with
  | some b => b.fixed 1 ++ "%"
  | none => "NaN%"

/-- A number as JSON has it. -/
def numberText (x : Float) : String :=
  match Decimal.Binary.ofFloat? x with
  | some b => b.text
  | none => "null"

/-- What there is to tell about a frame. -/
structure StreamInfo where
  /-- The path of the file. -/
  file : String
  /-- The header of the frame. -/
  header : FrameHeader
  /-- The number of blocks. -/
  blocks : Nat
  /-- The size of the file. -/
  packedSize : Nat
  /-- The number of bytes in the blocks. -/
  size : Nat
deriving DecidableEq, Repr

namespace StreamInfo

/-- The space saved in percent. -/
def saving (info : StreamInfo) : Float := spaceSaving info.size info.packedSize

/-- Lines of text. -/
def lines (info : StreamInfo) : List String := [
  "Stream Information",
  "==================",
  "File: " ++ info.file,
  s!"Format version: {info.header.version.toNat}",
  s!"Block size: {info.header.blockSize.toNat} bytes",
  "Checksums: " ++ if info.header.checksum then "CRC-32 per block" else "none",
  s!"Blocks: {info.blocks}",
  s!"Compressed size: {info.packedSize} bytes",
  s!"Original size: {info.size} bytes",
  "Space saving: " ++ percentText info.saving]

/-- The members of the JSON object, with their written values. -/
def members (info : StreamInfo) : List (String × String) := [
  ("file", Quoted.encode info.file),
  ("version", toString info.header.version.toNat),
  ("block_size", toString info.header.blockSize.toNat),
  ("checksum", if info.header.checksum then "true" else "false"),
  ("blocks", toString info.blocks),
  ("compressed_size", toString info.packedSize),
  ("original_size", toString info.size),
  ("space_saving", numberText info.saving)]

/-- A JSON object with a member on each line. -/
def json (info : StreamInfo) : String :=
  let member : String × String → String
    | (name, value) => "  " ++ Quoted.encode name ++ ": " ++ value
  "\x7b\n" ++ ",\n".intercalate (info.members.map member) ++ "\n\x7d"

end StreamInfo

end BlockPress.Shell
