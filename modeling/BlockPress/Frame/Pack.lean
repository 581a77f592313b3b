import BlockPress.Frame.Reader
import BlockPress.Frame.Writer

/-!
# Whole frames

`Frame.pack` turns data into a frame, and `Frame.unpack` gives the data of a frame back.
-/

namespace BlockPress.Frame

variable [BlockHash]

/-- The frame of the data. -/
def pack (data : ByteArray) (config : Config) : Except Failure ByteArray :=
  match FrameWriter.start config {} with
  | .error failure _ => .error failure
  | .ok w _ =>
    match FrameWriter.write data w with
    | .error failure _ => .error failure
    | .ok () w =>
      match FrameWriter.close w with
      | .error failure _ => .error failure
      | .ok () w => .ok w.sink.written

/-- The data of a frame; what stands behind the frame is not looked at. -/
def unpack (frame : ByteArray) : Except Failure ByteArray :=
  match FrameReader.start { data := frame } with
  | .error failure _ => .error failure
  | .ok r _ =>
    match FrameReader.readAll (r, .empty) with
    | .error failure _ => .error failure
    | .ok () (_, data) => .ok data

end BlockPress.Frame
