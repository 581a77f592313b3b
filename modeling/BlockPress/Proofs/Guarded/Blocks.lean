import BlockPress.Block.Reader
import BlockPress.Proofs.Block.Blocks
import BlockPress.Proofs.Guarded.Column
import BlockPress.Proofs.Guarded.Ranks

/-!
# Guarded block readers

A block reader is `Ready` for a call whatever the calls before it gave.  Each block took a byte of the
source at least, for its origin, so the blocks are never more than the bytes, and their number fits
the word that the number of bytes fits.  A column is not longer than the block size, and the buffer has
room for that.

Main statement: **a guarded block reader reads what the block reader reads**, has room for it, and may go
on (`Guarded.read_holds`).
-/

namespace BlockPress

open Rank

/-- The answer is one for a buffer with room for a block. -/
def BlockStatus.Fits (buffer : ByteArray) : BlockStatus → Prop
  | .block size => size ≤ buffer.size
  | .needsRoom _ => False
  | .finished => True

namespace Guarded

variable {size left : ℕ} {r : RankReader (RangeReader contextCount)} {config : Config}

/-- The bytes of a block: the buffer has room for them. -/
def readBytes (config : Config) (room label : ℕ) (origin : UInt32) :
    Guarded (RankReader (RangeReader contextCount)) ByteArray := fun r =>
  match readBlock config.blockSize label (r, .empty) with
  | none => none
  | some (.error failure (r, _)) => some (.error failure r)
  | some (.ok () (r, column)) =>
    if column.isEmpty then some (.error (.corrupt label .empty) r)
    else
      require (column.size ≤ room) <|
        match restore column origin.toNat with
        | none => none
        | some (.ok block) => some (.ok block r)
        | some (.error failure) => some (.error failure r)

theorem readBytes_holds (hconfig : config.Valid) {room : ℕ} (hroom : config.blockSize ≤ room)
    (label : ℕ) (origin : UInt32) (h : Reads size left r) :
    Holds (fun block r' => block.size ≤ room ∧ Reads size left r') (Reads size left)
      (readBytes config room label origin r) (BlockReader.readBytes config label origin r) := by
  have hmax : config.blockSize ≤ 2 ^ 24 := hconfig.2
  have hempty : ByteArray.empty.size ≤ config.blockSize := Nat.zero_le _
  have hblock := readBlock_holds (by omega) label h hempty
  rw [readBytes, BlockReader.readBytes]
  generalize readBlock _ _ _ = x, RankReader.readBlock _ _ (r, ByteArray.empty) = y at hblock ⊢
  cases hblock with
  | error reachable h => exact .error reachable h
  | @ok _ s h =>
    obtain ⟨r, column⟩ := s
    obtain ⟨h, hsize⟩ := h
    dsimp only at h hsize ⊢
    split
    · exact .error trivial h
    · refine .require (hsize.trans hroom) ?_
      rw [restore_eq (by omega)]
      cases hrestore : Column.restore column origin.toNat with
      | ok block => exact .ok ⟨(Column.size_restore hrestore).trans_le (hsize.trans hroom), h⟩
      | error failure =>
        rw [Column.restore] at hrestore
        split at hrestore
        · cases hrestore
        · cases hrestore
          exact .error trivial h

variable [BlockHash]

/-- The checksum of a block. -/
def readChecksum (config : Config) (label : ℕ) (block : ByteArray) :
    Guarded (RankReader (RangeReader contextCount)) Unit := fun r =>
  if config.checksum then
    match readWord r with
    | none => none
    | some (.error failure r) => some (.error failure r)
    | some (.ok expected r) =>
      let computed := BlockHash.hash block
      if expected = computed then some (.ok () r)
      else some (.error (.checksumMismatch label expected computed) r)
  else some (.ok () r)

theorem readChecksum_holds (config : Config) (label : ℕ) (block : ByteArray) (h : Reads size left r) :
    Holds (fun _ r' => Reads size left r') (Reads size left) (readChecksum config label block r)
      (BlockReader.readChecksum config label block r) := by
  have hword := readWord_holds h
  rw [readChecksum, BlockReader.readChecksum]
  dsimp only
  split
  · generalize readWord r = x, r.readWord = y at hword ⊢
    cases hword with
    | error reachable h => exact .error reachable h
    | ok h =>
      have hr := h.2.mono (Nat.sub_le left 1)
      dsimp only
      split
      · exact .ok hr
      · exact .error trivial hr
  · exact .ok h

/-- A block reader and a buffer that are ready for a call, over a source of `size` bytes. -/
structure Ready (size : ℕ) (b : BlockReader (RangeReader contextCount)) (buffer : ByteArray) :
    Prop where
  /-- The rank reader, which has used up a byte for each block. -/
  reads : Reads size (size - b.blocks) b.ranks
  /-- The number of blocks. -/
  blocks_le : b.blocks ≤ size
  /-- The settings are some that a stream can have. -/
  valid : b.config.Valid
  /-- The buffer is for one block. -/
  size_buffer : buffer.size = b.config.blockSize

/-- The next block: the number of blocks does not exceed that of the bytes of the source. -/
def read : Guarded (BlockReader (RangeReader contextCount) × ByteArray) BlockStatus
  | (⟨ranks, config, blocks, finished⟩, buffer) =>
    if finished then some (.ok .finished (⟨ranks, config, blocks, finished⟩, buffer))
    else if buffer.size < config.blockSize then
      some (.ok (.needsRoom config.blockSize) (⟨ranks, config, blocks, finished⟩, buffer))
    else
      match readWord ranks with
      | none => none
      | some (.error failure ranks) =>
        some (.error failure (⟨ranks, config, blocks, finished⟩, buffer))
      | some (.ok origin ranks) =>
        if config.blockSize ≤ origin.toNat then
          some (.ok .finished (⟨ranks, config, blocks, true⟩, buffer))
        else
          match readBytes config buffer.size blocks origin ranks with
          | none => none
          | some (.error failure ranks) =>
            some (.error failure (⟨ranks, config, blocks, finished⟩, buffer))
          | some (.ok block ranks) =>
            let buffer := Buffer.overlay block buffer
            match readChecksum config blocks block ranks with
            | none => none
            | some (.error failure ranks) =>
              some (.error failure (⟨ranks, config, blocks, finished⟩, buffer))
            | some (.ok () ranks) =>
              require (blocks + 1 ≤ ranks.coder.source.data.size) <|
                some (.ok (.block block.size) (⟨ranks, config, blocks + 1, finished⟩, buffer))

/-- **A call is answered as by a guarded reader, and the reader is ready for the next.** -/
theorem read_holds {b : BlockReader (RangeReader contextCount)} {buffer : ByteArray}
    (h : Ready size b buffer) :
    Holds (fun status s => status.Fits s.2 ∧ Ready size s.1 s.2) (fun s => Ready size s.1 s.2)
      (read (b, buffer)) (BlockReader.read (b, buffer)) := by
  obtain ⟨ranks, config, blocks, finished⟩ := b
  obtain ⟨hreads, hblocks, hvalid, hbuffer⟩ := h
  dsimp only at hreads hblocks hvalid hbuffer
  -- What a failure leaves behind has used up some bytes, perhaps, and no block was counted.
  have hready {ranks : RankReader (RangeReader contextCount)} {buffer : ByteArray} (finished : Bool)
      (hreads : Reads size (size - blocks - 1) ranks) (hbuffer : buffer.size = config.blockSize) :
      Ready size ⟨ranks, config, blocks, finished⟩ buffer :=
    ⟨hreads.mono (Nat.sub_le _ _), hblocks, hvalid, hbuffer⟩
  rw [read, BlockReader.read]
  by_cases hfinished : finished = true
  · rw [if_pos hfinished, if_pos hfinished]
    exact .ok ⟨trivial, hreads, hblocks, hvalid, hbuffer⟩
  rw [if_neg hfinished, if_neg hfinished, if_neg hbuffer.ge.not_gt, if_neg hbuffer.ge.not_gt]
  have hword := readWord_holds hreads
  generalize readWord ranks = x, ranks.readWord = y at hword ⊢
  cases hword with
  | error reachable hreads => exact .error reachable ⟨hreads, hblocks, hvalid, hbuffer⟩
  | @ok origin ranks hranks =>
    obtain ⟨hpos, hreads⟩ := hranks
    dsimp only
    by_cases hend : config.blockSize ≤ origin.toNat
    · rw [if_pos hend, if_pos hend]
      exact .ok ⟨trivial, hready true hreads hbuffer⟩
    rw [if_neg hend, if_neg hend]
    have hbytes := readBytes_holds hvalid hbuffer.ge blocks origin hreads
    generalize readBytes _ _ _ _ _ = x, BlockReader.readBytes _ _ _ ranks = y at hbytes ⊢
    cases hbytes with
    | error reachable hreads => exact .error reachable (hready finished hreads hbuffer)
    | @ok block ranks hranks =>
      obtain ⟨hroom, hreads⟩ := hranks
      have hoverlay := Buffer.size_overlay hroom
      have hchecksum := readChecksum_holds config blocks block hreads
      dsimp only
      generalize readChecksum _ _ _ _ = x, BlockReader.readChecksum _ _ _ ranks = y at hchecksum ⊢
      cases hchecksum with
      | error reachable hreads =>
        exact .error reachable (hready finished hreads (hoverlay.trans hbuffer))
      | ok hreads =>
        refine .require (hreads.coder.within.size_eq ▸ by omega) (.ok ⟨hroom.trans hoverlay.ge, ?_⟩)
        rw [Nat.sub_sub] at hreads
        exact ⟨hreads, by dsimp only; omega, hvalid, hoverlay.trans hbuffer⟩

end Guarded

end BlockPress
