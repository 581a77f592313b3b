import BlockPress.Block.Reader
import BlockPress.Block.Writer
import BlockPress.Proofs.Column
import BlockPress.Proofs.Rank.Reading

/-!
# Blocks over a coder

The two sides of a stream of blocks stay at the same recency list, and it holds every byte.  What a
writer sends for a block is its origin, the symbols of its column and its checksum (`partSymbols`), and
**a reader that is given these symbols lays the block into its buffer** (`BlockReader.read_block`).

The symbols of the blocks of a stream follow each other up to its end (`streamSymbols`), and both sides
take them block by block (`BlockWriter.write_cons`, `BlockReader.read_cons`).  The word that ends a stream
is the origin of no block (`BlockReader.read_streamEnd`).
-/

namespace BlockPress

open Rank Rotation

section Symbols

variable [BlockHash]

/-- The symbols of a block: its origin, its column, and its checksum if the settings ask for one. -/
def partSymbols (config : Config) (l : RecencyList) (origin : ℕ) (column block : ByteArray) :
    List (Fin contextCount × UInt32) :=
  wordSymbols origin.toUInt32 ++ (blockSymbols l 0 column.data.toList ++
    if config.checksum then wordSymbols (BlockHash.hash block) else [])

theorem coded_partSymbols (config : Config) (l : RecencyList) (origin : ℕ) (column block : ByteArray) :
    Coded (partSymbols config l origin column block) := by
  refine (coded_wordSymbols _).append ((coded_blockSymbols _ _ _).append ?_)
  split
  · exact coded_wordSymbols _
  · exact fun x hx => nomatch hx

/-- The symbols of blocks, up to the end of the stream. -/
def streamSymbols (config : Config) : RecencyList → Sorter → List ByteArray →
    List (Fin contextCount × UInt32)
  | _, _, [] => wordSymbols streamEnd
  | l, s, b :: bs =>
    let s := s.sort b
    partSymbols config l s.origin (s.column b) b ++
      streamSymbols config (listAfter l (s.column b).data.toList) s bs

theorem coded_streamSymbols (config : Config) (l : RecencyList) (s : Sorter) (bs : List ByteArray) :
    Coded (streamSymbols config l s bs) := by
  induction bs generalizing l s with
  | nil => exact coded_wordSymbols _
  | cons b bs ih => exact (coded_partSymbols _ _ _ _ _).append (ih _ _)

/-- The last symbol is a byte of a word. -/
theorem exists_streamSymbols_eq_concat (config : Config) (l : RecencyList) (s : Sorter)
    (bs : List ByteArray) :
    ∃ xs symbol, streamSymbols config l s bs = xs ++ [(wordContext, symbol)] := by
  induction bs generalizing l s with
  | nil => exact ⟨_, _, (List.dropLast_concat_getLast (List.cons_ne_nil _ _)).symm⟩
  | cons b bs ih =>
    obtain ⟨xs, symbol, h⟩ := ih _ _
    exact ⟨_ ++ xs, symbol, by rw [streamSymbols, h, List.append_assoc]⟩

end Symbols

/-! ## Writing -/

namespace BlockWriter

variable {ε : Type} [SymbolWriter ε contextCount] {e f : ε} {config : Config} {l : RecencyList}
  {sorter : Sorter} {blocks : ℕ}

omit [SymbolWriter ε contextCount] in
theorem start_eq (hconfig : config.Valid) (coder : ε) :
    start coder config = .ok ⟨⟨coder, .fresh, 0⟩, config, .fresh, 0⟩ := by
  rw [start, Config.check_eq_ok_iff.mpr hconfig]

/-- **A writer whose coder takes the symbols of a block has written it.** -/
theorem write_eq [BlockHash] {input block : ByteArray}
    (hblock : input.extract 0 config.blockSize = block) (hpos : 0 < block.size)
    (h : sendAll (partSymbols config l (sorter.sort block).origin
      ((sorter.sort block).column block) block) e = .ok () f) :
    write input ⟨⟨e, l, 0⟩, config, sorter, blocks⟩ = .ok block.size
      ⟨⟨f, listAfter l ((sorter.sort block).column block).data.toList, 0⟩, config, sorter.sort block,
        blocks + 1⟩ := by
  obtain ⟨d, horigin, h⟩ := sendAll_append.mp h
  obtain ⟨d', hcolumn, hsum⟩ := sendAll_append.mp h
  have hempty : ¬block.isEmpty = true := fun h => hpos.ne' (beq_iff_eq.mp h)
  have hparts : writeParts (sorter.sort block).origin ((sorter.sort block).column block)
      (if config.checksum then some (BlockHash.hash block) else none) ⟨e, l, 0⟩ =
        .ok () ⟨f, listAfter l ((sorter.sort block).column block).data.toList, 0⟩ := by
    have hbytes := RankWriter.writeBlockFrom_eq (i := 0) hcolumn
    rw [writeParts]
    simp only [RankWriter.writeWord_eq horigin, RankWriter.writeBlock, hbytes, List.drop_zero]
    by_cases hchecksum : config.checksum
    · rw [if_pos hchecksum] at hsum ⊢
      exact RankWriter.writeWord_eq hsum
    · rw [if_neg hchecksum] at hsum ⊢
      cases hsum
      rfl
  rw [write]
  simp only [hblock, if_neg hempty, hparts]

/-- **Writing a block sends its symbols**, and leaves those of the others to be sent. -/
theorem write_cons [BlockHash] {n : ℕ} {input block : ByteArray} {bs : List ByteArray}
    (hblock : input.extract 0 config.blockSize = block) (hpos : 0 < block.size)
    (h : sendAll (streamSymbols config l sorter (block :: bs)) e = .ok () f) :
    ∃ d l' sorter', write input ⟨⟨e, l, 0⟩, config, sorter, n⟩ =
        .ok block.size ⟨⟨d, l', 0⟩, config, sorter', n + 1⟩ ∧
      sendAll (streamSymbols config l' sorter' bs) d = .ok () f := by
  obtain ⟨d, hparts, hrest⟩ := sendAll_append.mp h
  exact ⟨d, _, _, write_eq hblock hpos hparts, hrest⟩

/-- Closing ends the stream and then closes the coder. -/
theorem close_eq {g : ε} (hend : sendAll (wordSymbols streamEnd) e = .ok () f)
    (hclose : SymbolWriter.close f = .ok () g) :
    close ⟨⟨e, l, 0⟩, config, sorter, blocks⟩ = .ok () ⟨⟨g, l, 0⟩, config, sorter, blocks⟩ := by
  rw [close]
  simp only [RankWriter.writeWord_eq hend, RankWriter.close, hclose]

end BlockWriter

/-! ## Buffers -/

namespace Buffer

variable {front buffer : ByteArray}

theorem overlay_eq (front buffer : ByteArray) :
    overlay front buffer = front ++ buffer.extract front.size buffer.size := by
  refine ByteArray.ext ?_
  rw [overlay, ByteArray.copySlice]
  simp [← ByteArray.size_data]

/-- Laying bytes over the front of a larger buffer keeps its size. -/
theorem size_overlay (h : front.size ≤ buffer.size) : (overlay front buffer).size = buffer.size := by
  rw [overlay_eq, ByteArray.size_append, ByteArray.size_extract]
  omega

/-- What was laid over the front is there. -/
theorem extract_overlay (front buffer : ByteArray) :
    (overlay front buffer).extract 0 front.size = front := by
  rw [overlay_eq]
  exact ByteArray.extract_append_eq_left rfl

/-- What lies behind the front stays. -/
theorem extract_overlay_behind (h : front.size ≤ buffer.size) :
    (overlay front buffer).extract front.size buffer.size =
      buffer.extract front.size buffer.size := by
  have hsize := size_overlay h
  rw [overlay_eq] at hsize ⊢
  exact ByteArray.extract_append_eq_right rfl (ByteArray.size_append ▸ hsize.symm)

end Buffer

/-! ## Reading -/

namespace BlockReader

variable {δ : Type} [SymbolReader δ contextCount] {d f : δ} {config : Config} {l : RecencyList}
  {blocks : ℕ} {buffer : ByteArray}

omit [SymbolReader δ contextCount] in
theorem start_eq (hconfig : config.Valid) (coder : δ) :
    start coder config = .ok ⟨⟨coder, .fresh, none⟩, config, 0, false⟩ := by
  rw [start, Config.check_eq_ok_iff.mpr hconfig]

theorem readBytes_eq {label : ℕ} {block : ByteArray} {index : Array ℕ} {origin : UInt32}
    (hl : l.Complete) (hlimit : config.blockSize < runLimit) (hpos : 0 < block.size)
    (hfit : block.size ≤ config.blockSize) (hindex : Listing block index)
    (hrow : index[origin.toNat]? = some (1 % block.size))
    (h : Gives (blockSymbols l 0 (Column.ofIndex block index).data.toList) d f) :
    readBytes config label origin ⟨d, l, none⟩ =
      .ok block ⟨f, listAfter l (Column.ofIndex block index).data.toList, none⟩ := by
  have hsize := Column.size_column hindex
  have hlength : (Column.ofIndex block index).data.toList.length = block.size :=
    Array.length_toList.trans hsize
  have hfit' : ByteArray.empty.size + (Column.ofIndex block index).data.toList.length ≤
      config.blockSize := by
    rw [hlength, ByteArray.size_empty, Nat.zero_add]
    exact hfit
  have hcomes : RankReader.Comes _ d none f := h
  have hshort : (Column.ofIndex block index).data.toList.length < runLimit :=
    hlength.trans_lt (hfit.trans_lt hlimit)
  obtain ⟨out, hread, hout⟩ := RankReader.readBlock_eq label l hl hshort hfit' hcomes
  obtain rfl : out = Column.ofIndex block index := ByteArray.ext (Array.toList_inj.mp hout)
  have hempty : ¬(Column.ofIndex block index).isEmpty = true := fun h =>
    (hsize.trans_gt hpos).ne' (beq_iff_eq.mp h)
  rw [readBytes, hread]
  dsimp only
  rw [if_neg hempty, Column.restore_ofIndex hindex hrow]

/-- **A reader that is given the symbols of a block lays the block into its buffer.** -/
theorem read_block [BlockHash] {block : ByteArray} {index : Array ℕ} {origin : ℕ} (hl : l.Complete)
    (hconfig : config.Valid) (hpos : 0 < block.size) (hfit : block.size ≤ config.blockSize)
    (hbuffer : config.blockSize ≤ buffer.size) (hindex : Listing block index)
    (horigin : origin < block.size) (hrow : index[origin]? = some (1 % block.size))
    (h : Gives (partSymbols config l origin (Column.ofIndex block index) block) d f) :
    read (⟨⟨d, l, none⟩, config, blocks, false⟩, buffer) = .ok (.block block.size)
      (⟨⟨f, listAfter l (Column.ofIndex block index).data.toList, none⟩, config, blocks + 1, false⟩,
        Buffer.overlay block buffer) := by
  have hmax : config.blockSize ≤ 16777216 := hconfig.2
  have hword : origin.toUInt32.toNat = origin := by
    rw [Nat.toUInt32_eq, UInt32.toNat_ofNat']
    omega
  have hlimit : config.blockSize < runLimit := Nat.lt_of_le_of_lt hmax (by decide)
  obtain ⟨d₁, hgives, h⟩ := gives_append h
  obtain ⟨d₂, hcolumn, hsum⟩ := gives_append h
  have hbytes : readBytes config blocks origin.toUInt32 ⟨d₁, l, none⟩ = .ok block ⟨d₂, _, none⟩ :=
    readBytes_eq hl hlimit hpos hfit hindex (hword.symm ▸ hrow) hcolumn
  have hchecksum : readChecksum config blocks block
      ⟨d₂, listAfter l (Column.ofIndex block index).data.toList, none⟩ =
        .ok () ⟨f, listAfter l (Column.ofIndex block index).data.toList, none⟩ := by
    rw [readChecksum]
    by_cases hc : config.checksum
    · rw [if_pos hc] at hsum ⊢
      rw [RankReader.readWord_eq _ hsum]
      exact if_pos rfl
    · rw [if_neg hc] at hsum ⊢
      obtain rfl := gives_nil hsum
      rfl
  rw [read, if_neg Bool.false_ne_true, if_neg (Nat.not_lt.mpr hbuffer), RankReader.readWord_eq l hgives]
  dsimp only
  rw [hword, if_neg (Nat.not_le.mpr (horigin.trans_le hfit)), hbytes]
  dsimp only
  rw [hchecksum]

/-- **A reader that is given the symbols of blocks lays the first of them into its buffer**, and is then
given the symbols of the others. -/
theorem read_cons [BlockHash] {n : ℕ} {block : ByteArray} {bs : List ByteArray} {sorter : Sorter}
    (hl : l.Complete) (hconfig : config.Valid) (hpos : 0 < block.size)
    (hfit : block.size ≤ config.blockSize) (hbuffer : config.blockSize ≤ buffer.size)
    (h : Gives (streamSymbols config l sorter (block :: bs)) d f) :
    ∃ e l' sorter', read (⟨⟨d, l, none⟩, config, n, false⟩, buffer) = .ok (.block block.size)
        (⟨⟨e, l', none⟩, config, n + 1, false⟩, Buffer.overlay block buffer) ∧
      Gives (partSymbols config l (sorter.sort block).origin ((sorter.sort block).column block) block)
        d e ∧
      l'.Complete ∧ Gives (streamSymbols config l' sorter' bs) e f := by
  obtain ⟨e, hparts, hrest⟩ := gives_append h
  have hlisting := Sorter.listing_sort block sorter
  obtain ⟨horigin, hrow⟩ := hlisting.origin hpos
  exact ⟨e, _, _, read_block hl hconfig hpos hfit hbuffer hlisting horigin hrow hparts, hparts,
    complete_listAfter hl _, hrest⟩

/-- The word that ends a stream is the origin of no block. -/
theorem read_streamEnd [BlockHash] (hconfig : config.Valid) (hbuffer : config.blockSize ≤ buffer.size)
    (h : Gives (wordSymbols streamEnd) d f) :
    read (⟨⟨d, l, none⟩, config, blocks, false⟩, buffer) =
      .ok .finished (⟨⟨f, l, none⟩, config, blocks, true⟩, buffer) := by
  have hend : config.blockSize ≤ streamEnd.toNat := hconfig.2.trans (by decide)
  rw [read, if_neg Bool.false_ne_true, if_neg (Nat.not_lt.mpr hbuffer), RankReader.readWord_eq l h]
  dsimp only
  rw [if_pos hend]

/-- Behind the end of a stream nothing is read. -/
theorem read_finished [BlockHash] {r : RankReader δ} :
    read (⟨r, config, blocks, true⟩, buffer) = .ok .finished (⟨r, config, blocks, true⟩, buffer) := rfl

end BlockReader

end BlockPress
