import BlockPress.Block.Config
import BlockPress.Device.Source

/-!
# Frame headers

A frame starts with ten bytes:

| bytes | meaning |
|---|---|
| 0 to 3 | the magic bytes |
| 4 | the format version, which is 1 |
| 5 | the flags; bit 0 tells that blocks carry checksums, and no other bit may be set |
| 6 to 9 | the block size, lowest byte first |

A header is read only if it is one that is written: faults are found in the order of the table.
-/

namespace BlockPress

/-- The head of a frame. -/
structure FrameHeader where
  /-- The format version. -/
  version : UInt8
  /-- Whether blocks carry checksums. -/
  checksum : Bool
  /-- The greatest number of bytes in a block. -/
  blockSize : UInt32
deriving DecidableEq, Repr

namespace FrameHeader

/-- The first bytes of a frame. -/
def magic : List UInt8 := [0x4F, 0x42, 0x53, 0x43]

/-- The format version that is written and read. -/
def currentVersion : UInt8 := 1

/-- The number of bytes of a header. -/
def size : Nat := 10

/-- The flag of checksums. -/
def checksumFlag : UInt8 := 1

/-- The header of a stream with some settings. -/
def ofConfig (c : Config) : FrameHeader := ⟨currentVersion, c.checksum, c.blockSize.toUInt32⟩

/-- The settings that a header describes. -/
def config (h : FrameHeader) : Config := ⟨h.blockSize.toNat, h.checksum⟩

/-- The four bytes of a word, lowest first. -/
def bytesOfWord (w : UInt32) : List UInt8 :=
  [w.toUInt8, (w >>> 8).toUInt8, (w >>> 16).toUInt8, (w >>> 24).toUInt8]

/-- The word of four bytes, lowest first. -/
def wordOfBytes (a b c d : UInt8) : UInt32 :=
  a.toUInt32 ||| b.toUInt32 <<< 8 ||| c.toUInt32 <<< 16 ||| d.toUInt32 <<< 24

/-- The bytes of a header. -/
def toBytes (h : FrameHeader) : List UInt8 :=
  magic ++ [h.version, if h.checksum then checksumFlag else 0] ++ bytesOfWord h.blockSize

/-- The header in ten bytes, or why there is none. -/
def ofBytes (bytes : List UInt8) : Except Failure FrameHeader :=
  match bytes with
  | [m₀, m₁, m₂, m₃, version, flags, s₀, s₁, s₂, s₃] =>
    if [m₀, m₁, m₂, m₃] ≠ magic then .error (.badMagic magic [m₀, m₁, m₂, m₃])
    else if version ≠ currentVersion then .error (.badHeader (.version version))
    else if flags &&& ~~~checksumFlag ≠ 0 then .error (.badHeader (.flags flags))
    else
      let header : FrameHeader := ⟨version, flags &&& checksumFlag ≠ 0, wordOfBytes s₀ s₁ s₂ s₃⟩
      match header.config.check with
      | .ok () => .ok header
      | .error failure => .error failure
  | _ => .error (.endOfInput size)

/-- Reads a header from a source. -/
def read : Action Source FrameHeader := fun s =>
  match Source.read size s with
  | .error failure s => .error failure s
  | .ok bytes s =>
    match ofBytes bytes.data.toList with
    | .ok header => .ok header s
    | .error failure => .error failure s

end FrameHeader

end BlockPress
