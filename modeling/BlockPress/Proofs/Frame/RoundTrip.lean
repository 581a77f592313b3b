import BlockPress.Frame.Pack
import BlockPress.Proofs.Frame.Header
import BlockPress.Proofs.Frame.Reading

/-!
# Frames give back their data

Packing writes the header and then the symbols of the pieces; a reader that starts on the frame is at
these symbols (`Frame.exists_due`).

Main statement: **the frame of data under valid settings is unpacked to the data, and its blocks are the
pieces of the data** (`Frame.unpack_pack`).  Nothing is assumed of the checksum but that it is a
function of the bytes.
-/

namespace BlockPress

open Rank

/-- The sink that holds the header of the settings. -/
def headed (config : Config) : Sink := { written := ⟨(FrameHeader.ofConfig config).toBytes.toArray⟩ }

variable {config : Config} {data : ByteArray}

/-- A writer of frames starts behind the header. -/
theorem FrameWriter.start_eq (h : config.Valid) : FrameWriter.start config {} =
    .ok ⟨⟨⟨RangeWriter.start contexts (headed config), .fresh, 0⟩, config, .fresh, 0⟩, .empty, 0⟩
      (headed config) := by
  have hcheck := Config.check_eq_ok_iff.mpr h
  have hsink :
      Sink.write ⟨(FrameHeader.ofConfig config).toBytes.toArray⟩ {} = .ok () (headed config) := by
    rw [Sink.write, ByteArray.empty_append]
    rfl
  rw [FrameWriter.start, hcheck]
  dsimp only
  rw [hsink]
  dsimp only
  rw [BlockWriter.start_eq h]

/-- A reader of frames starts with the coder behind the header, if that has the start of a number. -/
theorem FrameReader.start_eq (h : config.Valid) {coder : RangeReader contextCount}
    (hhead : (FrameHeader.ofConfig config).toBytes <+: data.data.toList)
    (hcoder : RangeReader.start contexts { data, position := FrameHeader.size } =
      .ok coder coder.source) :
    FrameReader.start { data } = .ok ⟨FrameHeader.ofConfig config,
      ⟨⟨coder, .fresh, none⟩, config, 0, false⟩, Buffer.zeros config.blockSize⟩ coder.source := by
  rw [FrameReader.start, FrameHeader.read_eq h hhead]
  dsimp only
  rw [hcoder]
  dsimp only
  rw [FrameHeader.config_ofConfig h, BlockReader.start_eq h]

namespace Frame

section Packing

variable [BlockHash]

/-- **A reader on the frame of data is at the symbols of its pieces**, and they take up the frame. -/
theorem exists_due (data : ByteArray) (h : config.Valid) : ∃ frame r s, pack data config = .ok frame ∧
    FrameReader.start { data := frame } = .ok r s ∧
    FrameReader.Due config frame.size (cut config.blockSize data 0) r := by
  let xs := streamSymbols config .fresh .fresh (cut config.blockSize data 0)
  have hxs : Coded xs := coded_streamSymbols config .fresh .fresh _
  obtain ⟨e, g, coder, coder', hsend, hclose, hhead, hcoder, htrees, hgives, hends⟩ :=
    RangeReader.exists_gives contexts xs hxs (headed config) rfl
  obtain ⟨ys, symbol, hlast⟩ := exists_streamSymbols_eq_concat config .fresh .fresh
    (cut config.blockSize data 0)
  obtain ⟨w, w', hw, hw', hsink⟩ := FrameWriter.write_close_eq hsend h hclose
  have hwrite : FrameWriter.write data ⟨⟨⟨RangeWriter.start contexts (headed config), .fresh, 0⟩,
      config, .fresh, 0⟩, .empty, 0⟩ = .ok () w := hw
  have hpack : pack data config = .ok g.sink.written := by
    rw [pack, FrameWriter.start_eq h]
    dsimp only
    rw [hwrite]
    dsimp only
    rw [hw', ← hsink]
  refine ⟨_, _, _, hpack, FrameReader.start_eq h hhead hcoder, ?_⟩
  have hcontext : (coder.trees.get wordContext).context = Context.plain 8 := by
    rw [htrees, Models.get_fresh]
    exact context_wordContext
  exact {
    config_eq := rfl
    not_finished := rfl
    room := (Buffer.size_zeros _).ge
    context := hcontext
    not_ahead := rfl
    complete := RecencyList.complete_fresh
    gives := ⟨_, coder', hgives, hends ys wordContext symbol hlast (by decide)⟩
    fits := fun _ hb => size_of_mem_cut h.1 hb }

/-- A frame whose blocks are the pieces of data is unpacked to the data. -/
theorem unpack_eq_of_due {frame data : ByteArray} {r : FrameReader} {s : Source} {size : ℕ}
    (h : config.Valid) (hstart : FrameReader.start { data := frame } = .ok r s)
    (hdue : FrameReader.Due config size (cut config.blockSize data 0) r) :
    unpack frame = .ok data := by
  obtain ⟨r', hall⟩ := hdue.readAll_eq h .empty
  rw [foldl_cut h.1, ByteArray.empty_append, ByteArray.extract_zero_size] at hall
  rw [unpack, hstart]
  dsimp only
  rw [hall]

/-- **The frame of data is unpacked to the data, and its blocks are the pieces of the data**: `n` calls
for a block give the first `n` pieces, and none behind the last. -/
theorem unpack_pack (data : ByteArray) (config : Config) (h : config.Valid) :
    ∃ frame, pack data config = .ok frame ∧ unpack frame = .ok data ∧
      ∃ r s, FrameReader.start { data := frame } = .ok r s ∧ ∀ n, ∃ r', r.readBlocks n =
        .ok ((List.range n).map fun j => piece config.blockSize data (j * config.blockSize)) r' := by
  obtain ⟨frame, r, s, hpack, hstart, hdue⟩ := exists_due data h
  obtain ⟨r', hall⟩ := hdue.readAll_eq h .empty
  refine ⟨frame, hpack, ?_, r, s, hstart, fun n => ?_⟩
  · rw [foldl_cut h.1, ByteArray.empty_append, ByteArray.extract_zero_size] at hall
    rw [unpack, hstart]
    dsimp only
    rw [hall]
  · obtain ⟨r'', hblocks⟩ := hdue.readBlocks_eq h n
    refine ⟨r'', hblocks.trans ?_⟩
    have hpieces : ((List.range n).map fun j => (cut config.blockSize data 0)[j]?) =
        (List.range n).map fun j => piece config.blockSize data (j * config.blockSize) := by
      refine List.map_congr_left fun j _ => ?_
      rw [getElem?_cut h.1, Nat.zero_add]
    rw [hpieces]

end Packing

/-- Five bytes in blocks of two. -/
theorem unpack_pack_five : (⟨2, true⟩ : Config).Valid ∧
    ∃ frame, pack ⟨#[98, 97, 110, 97, 110]⟩ ⟨2, true⟩ = .ok frame ∧
      unpack frame = .ok ⟨#[98, 97, 110, 97, 110]⟩ ∧
      ∃ r s, FrameReader.start { data := frame } = .ok r s ∧ ∃ r', r.readBlocks 5 =
        .ok [some ⟨#[98, 97]⟩, some ⟨#[110, 97]⟩, some ⟨#[110]⟩, none, none] r' := by
  have hvalid : (⟨2, true⟩ : Config).Valid := by decide
  obtain ⟨frame, hpack, hunpack, r, s, hstart, hblocks⟩ :=
    unpack_pack ⟨#[98, 97, 110, 97, 110]⟩ ⟨2, true⟩ hvalid
  exact ⟨hvalid, frame, hpack, hunpack, r, s, hstart, hblocks 5⟩

end Frame

end BlockPress
