import BlockPress.Frame.Reader
import BlockPress.Proofs.Entropy.Consuming
import BlockPress.Proofs.Frame.Writing

/-!
# Reading the blocks of a frame

A reader that is at the symbols of some blocks (`FrameReader.Due`) gives the first of them, uses up a
byte of the source at least, and is then at the symbols of the others.  So **it gives the blocks one by
one and then the end of the stream, again and again** (`FrameReader.Due.readBlocks_eq`), and reading all
of them stops behind the last (`FrameReader.Due.readAll_eq`).  When it finds the end of the stream it has
read all bytes of the frame, but perhaps the last (`FrameReader.Due.readBlock_nil`).
-/

namespace BlockPress

open Rank Rotation

variable [BlockHash]

namespace FrameReader

/-- What calls for a block give, one after the other, up to the first failure. -/
def readBlocks : ℕ → Action FrameReader (List (Option ByteArray))
  | 0 => fun r => .ok [] r
  | n + 1 => fun r =>
    match readBlock r with
    | .error failure r => .error failure r
    | .ok answer r =>
      match readBlocks n r with
      | .ok answers r => .ok (answer :: answers) r
      | .error failure r => .error failure r

/-- Behind the end of the stream every call gives none. -/
theorem readBlocks_finished {r : FrameReader} (h : r.blocks.finished = true) (n : ℕ) :
    readBlocks n r = .ok ((List.range n).map fun _ => none) r := by
  obtain ⟨header, ⟨ranks, config, blocks, finished⟩, buffer⟩ := r
  obtain rfl : finished = true := h
  induction n with
  | zero => rfl
  | succ n ih =>
    rw [readBlocks, List.range_succ_eq_map, List.map_cons, List.map_map]
    dsimp only
    rw [readBlock, BlockReader.read_finished]
    dsimp only
    rw [ih]
    rfl

/-- The reader is at the symbols of the blocks, and the end of the stream lies behind all of `size`
bytes, but perhaps the last. -/
structure Due (config : Config) (size : ℕ) (bs : List ByteArray) (r : FrameReader) : Prop where
  /-- It has the settings of the stream. -/
  config_eq : r.blocks.config = config
  /-- The end of the stream was not read. -/
  not_finished : r.blocks.finished = false
  /-- The buffer has room for a block. -/
  room : config.blockSize ≤ r.buffer.size
  /-- Words go without a model. -/
  context : (r.blocks.ranks.coder.trees.get wordContext).context = Context.plain 8
  /-- No symbol was kept. -/
  not_ahead : r.blocks.ranks.ahead = none
  /-- The recency list holds every byte. -/
  complete : r.blocks.ranks.list.Complete
  /-- The coder gives the symbols of the blocks. -/
  gives : ∃ s f, Gives (streamSymbols config r.blocks.ranks.list s bs) r.blocks.ranks.coder f ∧
    size ≤ f.source.position + 1
  /-- None of the blocks is empty or too large. -/
  fits : ∀ b ∈ bs, 0 < b.size ∧ b.size ≤ config.blockSize

namespace Due

variable {config : Config} {size : ℕ} {bs : List ByteArray} {b : ByteArray} {r : FrameReader}

/-- **The first block is read**, and uses up at least one byte. -/
theorem readBlock_cons (h : Due config size (b :: bs) r) (hconfig : config.Valid) :
    ∃ r', readBlock r = .ok (some b) r' ∧ Due config size bs r' ∧
      r'.source.remaining < r.source.remaining := by
  obtain ⟨header, ⟨⟨d, l, ahead⟩, config', n, finished⟩, buffer⟩ := r
  obtain ⟨hconfig', hfinished, hroom, hcontext, hahead, hcomplete, ⟨s, f, hgives, hsize⟩, hfits⟩ := h
  dsimp only at hconfig' hfinished hroom hcontext hahead hcomplete hgives
  subst hconfig' hfinished hahead
  obtain ⟨hpos, hfit⟩ := hfits b List.mem_cons_self
  obtain ⟨e, l', s', hread, hparts, hcomplete', hrest⟩ := BlockReader.read_cons (n := n)
    hcomplete hconfig hpos hfit hroom hgives
  refine ⟨⟨header, ⟨⟨e, l', none⟩, config', n + 1, false⟩, Buffer.overlay b buffer⟩, ?_, ?_, ?_⟩
  · rw [readBlock, hread]
    dsimp only
    rw [Buffer.extract_overlay]
  · have hroom' := (Buffer.size_overlay (hfit.trans hroom)).symm ▸ hroom
    have hcontext' := (RangeReader.gives_spec hparts).1 wordContext
    exact ⟨rfl, rfl, hroom', hcontext'.trans hcontext, rfl, hcomplete',
      ⟨s', f, hrest, hsize⟩, fun c hc => hfits c (List.mem_cons_of_mem _ hc)⟩
  · exact RangeReader.remaining_lt_of_gives hcontext hparts

/-- Behind the last block the end of the stream is read, and with it all bytes but one at most. -/
theorem readBlock_nil (h : Due config size [] r) (hconfig : config.Valid) :
    ∃ r', readBlock r = .ok none r' ∧ r'.blocks.finished = true ∧
      size ≤ r'.source.position + 1 := by
  obtain ⟨header, ⟨⟨d, l, ahead⟩, config', n, finished⟩, buffer⟩ := r
  obtain ⟨hconfig', hfinished, hroom, -, hahead, -, ⟨s, f, hgives, hsize⟩, -⟩ := h
  dsimp only at hconfig' hfinished hroom hahead hgives
  subst hconfig' hfinished hahead
  have hread : BlockReader.read (⟨⟨d, l, none⟩, config', n, false⟩, buffer) = _ :=
    BlockReader.read_streamEnd hconfig hroom hgives
  refine ⟨⟨header, ⟨⟨f, l, none⟩, config', n, true⟩, buffer⟩, ?_, rfl, hsize⟩
  rw [readBlock, hread]

/-- **The blocks are read one by one, and then there is none**, however often is asked. -/
theorem readBlocks_eq (h : Due config size bs r) (hconfig : config.Valid) (n : ℕ) :
    ∃ r', readBlocks n r = .ok ((List.range n).map (bs[·]?)) r' := by
  induction n generalizing bs r with
  | zero => exact ⟨r, rfl⟩
  | succ n ih =>
    rw [readBlocks, List.range_succ_eq_map, List.map_cons, List.map_map]
    cases bs with
    | nil =>
      obtain ⟨r', hblock, hfinished, -⟩ := h.readBlock_nil hconfig
      refine ⟨r', ?_⟩
      dsimp only
      rw [hblock]
      dsimp only
      rw [readBlocks_finished hfinished]
      rfl
    | cons b bs =>
      obtain ⟨r', hblock, h', -⟩ := h.readBlock_cons hconfig
      obtain ⟨r'', hblocks⟩ := ih h'
      refine ⟨r'', ?_⟩
      dsimp only
      rw [hblock]
      dsimp only
      rw [hblocks]
      rfl

/-- **Reading all blocks puts them behind the output.** -/
theorem readAll_eq (h : Due config size bs r) (hconfig : config.Valid) (out : ByteArray) :
    ∃ r', readAll (r, out) = .ok () (r', bs.foldl (· ++ ·) out) := by
  induction bs generalizing r out with
  | nil =>
    obtain ⟨r', hblock, -⟩ := h.readBlock_nil hconfig
    refine ⟨r', ?_⟩
    rw [readAll, hblock]
    rfl
  | cons b bs ih =>
    obtain ⟨r', hblock, h', hless⟩ := h.readBlock_cons hconfig
    obtain ⟨r'', hall⟩ := ih h' (out ++ b)
    refine ⟨r'', ?_⟩
    rw [readAll, hblock]
    dsimp only
    rw [dif_pos hless]
    exact hall

end Due

end FrameReader

end BlockPress
