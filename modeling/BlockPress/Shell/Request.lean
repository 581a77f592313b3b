import BlockPress.Block.Config
import BlockPress.Shell.Path

/-!
# Requests

What a command line asks for, once its words have been read.  A request has one input path, and one
that makes a file has one output path, which by default is named after the input.
-/

namespace BlockPress.Shell

/-- How a file is to be compressed. -/
structure CompressOptions where
  /-- The path of the file. -/
  input : String
  /-- The path of the frame, if it is not the default one. -/
  output : Option String := none
  /-- The settings of the stream. -/
  config : Config := {}
  /-- Whether a file at the path of the frame may be overwritten. -/
  force : Bool := false
deriving DecidableEq, Repr

/-- How a frame is to be decompressed. -/
structure DecompressOptions where
  /-- The path of the frame. -/
  input : String
  /-- The path of the file, if it is not the default one. -/
  output : Option String := none
  /-- Whether a file at the path may be overwritten. -/
  force : Bool := false
deriving DecidableEq, Repr

/-- The path of the frame. -/
def CompressOptions.outputPath (o : CompressOptions) : String :=
  o.output.getD (Path.packed o.input)

/-- The path of the decompressed file. -/
def DecompressOptions.outputPath (o : DecompressOptions) : String :=
  o.output.getD (Path.unpacked o.input)

/-- What the program is asked to do. -/
inductive Request where
  /-- Compress a file. -/
  | compress (options : CompressOptions)
  /-- Decompress a frame. -/
  | decompress (options : DecompressOptions)
  /-- Decode a frame and tell whether it is sound. -/
  | test (input : String)
  /-- Tell what is in a frame, in lines of text or as JSON. -/
  | info (input : String) (json : Bool)
deriving DecidableEq, Repr

namespace Request

/-- The path of the file to read. -/
def inputPath : Request → String
  | compress o => o.input
  | decompress o => o.input
  | test input => input
  | info input _ => input

/-- The path of the file to write. -/
def outputPath? : Request → Option String
  | compress o => some o.outputPath
  | decompress o => some o.outputPath
  | test _ => none
  | info _ _ => none

end Request

end BlockPress.Shell
