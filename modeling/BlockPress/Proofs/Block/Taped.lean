import BlockPress.Proofs.Block.Blocks
import BlockPress.Proofs.Entropy.Tape

/-!
# Streams of blocks on a tape

A writer uses of each input as many bytes as fit a block, and an input without bytes leaves no block
(`Config.blocksOf`).  A reader answers a call for a block with the block, in the front of the buffer, and
every call behind the last one with the end of the stream (`BlockReader.answer`).

Main statement: **the blocks that were recorded on a tape are played back**, one for each input with
bytes and in order, and then the end of the stream, behind which the tape is over
(`BlockReader.readEach_writeEach`).
-/

namespace BlockPress

open Rank

/-- The blocks of inputs: of each input that has bytes, as many as fit a block. -/
def Config.blocksOf (config : Config) (inputs : List ByteArray) : List ByteArray :=
  (inputs.filter (0 < ·.size)).map (·.extract 0 config.blockSize)

theorem Config.blocksOf_cons_of_size_eq_zero (config : Config) {input : ByteArray}
    (h : input.size = 0) (inputs : List ByteArray) :
    config.blocksOf (input :: inputs) = config.blocksOf inputs := by
  simp [blocksOf, h]

theorem Config.blocksOf_cons_of_pos (config : Config) {input : ByteArray} (h : 0 < input.size)
    (inputs : List ByteArray) : config.blocksOf (input :: inputs) =
      input.extract 0 config.blockSize :: config.blocksOf inputs := by
  simp [blocksOf, h]

/-- No block is empty or too large. -/
theorem Config.size_of_mem_blocksOf {config : Config} (hconfig : config.Valid)
    {inputs : List ByteArray} {b : ByteArray} (hb : b ∈ config.blocksOf inputs) :
    0 < b.size ∧ b.size ≤ config.blockSize := by
  obtain ⟨input, hinput, rfl⟩ := List.mem_map.mp hb
  have hpos : 0 < input.size := of_decide_eq_true (List.mem_filter.mp hinput).2
  have hsize := hconfig.1
  rw [ByteArray.size_extract]
  omega

section Streams

variable [BlockHash] {config : Config} {l : RecencyList}

/-! ## Writing -/

namespace BlockWriter

variable {ε : Type} [SymbolWriter ε contextCount] {e f : ε} {s : Rotation.Sorter} {n : ℕ}

/-- Writes inputs, one after the other, up to the first failure.  It gives the numbers of bytes used. -/
def writeEach : List ByteArray → Action (BlockWriter ε) (List ℕ)
  | [] => fun w => .ok [] w
  | input :: inputs => fun w =>
    match write input w with
    | .error failure w => .error failure w
    | .ok used w =>
      match writeEach inputs w with
      | .ok useds w => .ok (used :: useds) w
      | .error failure w => .error failure w

/-- No bytes are no block. -/
theorem write_of_size_eq_zero {input : ByteArray} (h : input.size = 0) {w : BlockWriter ε} :
    write input w = .ok 0 w := by
  have hempty : (input.extract 0 w.config.blockSize).isEmpty = true := by
    refine beq_iff_eq.mpr ?_
    rw [ByteArray.size_extract, h]
    omega
  rw [write]
  exact if_pos hempty

/-- **A writer whose coder takes the symbols of the blocks has written the inputs.** -/
theorem writeEach_eq {inputs : List ByteArray} (hconfig : config.Valid)
    (h : sendAll (streamSymbols config l s (config.blocksOf inputs)) e = .ok () f) :
    ∃ d l' s', writeEach inputs ⟨⟨e, l, 0⟩, config, s, n⟩ =
        .ok (inputs.map fun input => min input.size config.blockSize)
          ⟨⟨d, l', 0⟩, config, s', n + (config.blocksOf inputs).length⟩ ∧
      sendAll (wordSymbols streamEnd) d = .ok () f := by
  induction inputs generalizing l s e n with
  | nil => exact ⟨e, l, s, rfl, h⟩
  | cons input inputs ih =>
    rw [writeEach]
    dsimp only
    obtain hzero | hpos := Nat.eq_zero_or_pos input.size
    · rw [Config.blocksOf_cons_of_size_eq_zero _ hzero] at h ⊢
      obtain ⟨d, l', s', hwrite, hend⟩ := ih (n := n) h
      refine ⟨d, l', s', ?_, hend⟩
      rw [write_of_size_eq_zero hzero]
      dsimp only
      rw [hwrite, List.map_cons, hzero, Nat.zero_min]
    · have hsize : (input.extract 0 config.blockSize).size = min input.size config.blockSize := by
        rw [ByteArray.size_extract, Nat.sub_zero, Nat.min_comm]
      have hblock : 0 < (input.extract 0 config.blockSize).size :=
        hsize ▸ Nat.lt_min.mpr ⟨hpos, hconfig.1⟩
      rw [Config.blocksOf_cons_of_pos _ hpos] at h ⊢
      obtain ⟨d, l₁, s₁, hfirst, hrest⟩ := write_cons (n := n) rfl hblock h
      obtain ⟨d', l', s', hwrite, hend⟩ := ih (n := n + 1) hrest
      refine ⟨d', l', s', ?_, hend⟩
      rw [hfirst]
      dsimp only
      rw [hwrite, List.map_cons, hsize, List.length_cons, Nat.add_assoc, Nat.add_comm 1]

end BlockWriter

/-! ## Reading -/

namespace BlockReader

/-- The answer to a call for a block, and what is in the buffer then. -/
def answer : Option ByteArray → ByteArray → BlockStatus × ByteArray
  | some block, buffer => (.block block.size, block ++ buffer.extract block.size buffer.size)
  | none, buffer => (.finished, buffer)

section Reading

variable {δ : Type} [SymbolReader δ contextCount] {d f : δ} {s : Rotation.Sorter} {n : ℕ}

/-- Calls for a block into each of some buffers, one after the other, up to the first failure.  It gives
the answers and what is in the buffers then. -/
def readEach : List ByteArray → Action (BlockReader δ) (List (BlockStatus × ByteArray))
  | [] => fun r => .ok [] r
  | buffer :: buffers => fun r =>
    match read (r, buffer) with
    | .error failure (r, _) => .error failure r
    | .ok status (r, buffer) =>
      match readEach buffers r with
      | .ok answers r => .ok ((status, buffer) :: answers) r
      | .error failure r => .error failure r

theorem readEach_finished (r : RankReader δ) (buffers : List ByteArray) :
    readEach buffers ⟨r, config, n, true⟩ =
      .ok (buffers.mapIdx fun _ => answer none) ⟨r, config, n, true⟩ := by
  induction buffers with
  | nil => rfl
  | cons buffer buffers ih =>
    rw [readEach]
    dsimp only
    rw [read_finished]
    dsimp only
    rw [ih, List.mapIdx_cons]
    rfl

/-- **A reader that is given the symbols of blocks answers with the blocks and then with the end of the
stream**, and has taken all of the symbols when it comes to the end. -/
theorem readEach_eq {bs buffers : List ByteArray} (hl : l.Complete) (hconfig : config.Valid)
    (hfits : ∀ b ∈ bs, 0 < b.size ∧ b.size ≤ config.blockSize)
    (hbuffers : ∀ buffer ∈ buffers, config.blockSize ≤ buffer.size)
    (h : Gives (streamSymbols config l s bs) d f) :
    ∃ r, readEach buffers ⟨⟨d, l, none⟩, config, n, false⟩ =
        .ok (buffers.mapIdx fun i => answer bs[i]?) r ∧
      (bs.length < buffers.length →
        r.ranks.coder = f ∧ r.finished = true ∧ r.blocks = n + bs.length) := by
  induction buffers generalizing bs l s d n with
  | nil => exact ⟨_, rfl, fun hlt => absurd hlt (Nat.not_lt_zero _)⟩
  | cons buffer buffers ih =>
    have hbuffer := hbuffers buffer List.mem_cons_self
    have hothers := fun b hb => hbuffers b (List.mem_cons_of_mem _ hb)
    cases bs with
    | nil =>
      refine ⟨⟨⟨f, l, none⟩, config, n, true⟩, ?_, fun _ => ⟨rfl, rfl, rfl⟩⟩
      rw [readEach]
      dsimp only
      rw [read_streamEnd hconfig hbuffer h]
      dsimp only
      rw [readEach_finished, List.mapIdx_cons]
      rfl
    | cons b bs =>
      obtain ⟨hpos, hfit⟩ := hfits b List.mem_cons_self
      obtain ⟨e, l', s', hread, -, hl', hrest⟩ := read_cons (n := n) hl hconfig hpos hfit hbuffer h
      obtain ⟨r, hreads, hend⟩ := ih (n := n + 1) hl'
        (fun c hc => hfits c (List.mem_cons_of_mem _ hc)) hothers hrest
      refine ⟨r, ?_, fun hlt => ?_⟩
      · rw [readEach]
        dsimp only
        rw [hread]
        dsimp only
        rw [hreads, List.mapIdx_cons, Buffer.overlay_eq]
        rfl
      · obtain ⟨hcoder, hfinished, hblocks⟩ := hend (Nat.lt_of_succ_lt_succ hlt)
        refine ⟨hcoder, hfinished, ?_⟩
        rw [hblocks, List.length_cons, Nat.add_assoc, Nat.add_comm 1]

end Reading

/-- **The blocks that were recorded on a tape are played back.**  Writing takes any inputs and uses of
each what fits a block; reading gives the blocks of the inputs that have bytes, in order, and then the end
of the stream.  All symbols on the tape are in the alphabets of their contexts, and when the end of the
stream was read, all of them were played and the two sides have counted the same blocks. -/
theorem readEach_writeEach (hconfig : config.Valid) (inputs : List ByteArray) :
    ∃ (w w' w'' : BlockWriter (TapeWriter contextCount)) (r : BlockReader (TapeReader contextCount)),
      BlockWriter.start { contexts } config = .ok w ∧
      BlockWriter.writeEach inputs w =
        .ok (inputs.map fun input => min input.size config.blockSize) w' ∧
      BlockWriter.close w' = .ok () w'' ∧ w''.ranks.coder.closed = true ∧
      (∀ x ∈ w''.ranks.coder.symbols, ∃ c : Fin contextCount,
        x.context = c ∧ x.symbol.toNat < (contexts.get c).alphabet) ∧
      start { symbols := w''.ranks.coder.symbols } config = .ok r ∧
      ∀ buffers : List ByteArray, (∀ buffer ∈ buffers, config.blockSize ≤ buffer.size) →
        ∃ r', readEach buffers r =
            .ok (buffers.mapIdx fun i => answer (config.blocksOf inputs)[i]?) r' ∧
          ((config.blocksOf inputs).length < buffers.length → r'.finished = true ∧
            r'.ranks.coder.remaining = 0 ∧ r'.blocks = w'.blocks) := by
  let xs := streamSymbols config .fresh .fresh (config.blocksOf inputs)
  have hxs := (coded_streamSymbols config .fresh .fresh (config.blocksOf inputs)).lt_alphabet
  have hsend := TapeWriter.sendAll_eq (w := { contexts }) hxs
  rw [Array.empty_append] at hsend
  obtain ⟨d, l, s, hwrite, hend⟩ := BlockWriter.writeEach_eq (n := 0) hconfig hsend
  have hgives := TapeReader.gives_append #[] xs #[]
  rw [Array.empty_append, Array.append_empty] at hgives
  refine ⟨_, _, _, _, BlockWriter.start_eq hconfig _, hwrite, BlockWriter.close_eq hend rfl, rfl, ?_,
    start_eq hconfig _, fun buffers hbuffers => ?_⟩
  · intro x hx
    obtain ⟨y, hy, rfl⟩ := List.mem_map.mp (List.mem_toArray.mp hx)
    exact ⟨y.1, rfl, hxs y hy⟩
  · obtain ⟨r, hreads, hlast⟩ := readEach_eq (n := 0) RecencyList.complete_fresh hconfig
      (fun b hb => Config.size_of_mem_blocksOf hconfig hb) hbuffers hgives
    refine ⟨r, hreads, fun hlt => ?_⟩
    obtain ⟨hcoder, hfinished, hblocks⟩ := hlast hlt
    refine ⟨hfinished, ?_, hblocks⟩
    rw [hcoder, TapeReader.remaining, List.size_toArray, length_recorded]
    exact Nat.sub_eq_zero_of_le (Nat.le_add_left _ _)

end BlockReader

end Streams

/-- Three bytes, nothing and two bytes, in blocks of two: the third byte is not used, and the last call
finds the end of the stream. -/
theorem BlockReader.readEach_writeEach_three : (⟨2, true⟩ : Config).Valid ∧
    ∃ (w w' w'' : BlockWriter (TapeWriter contextCount)) (r r' : BlockReader (TapeReader contextCount)),
      BlockWriter.start { contexts } ⟨2, true⟩ = .ok w ∧
      BlockWriter.writeEach [⟨#[5, 6, 7]⟩, .empty, ⟨#[8, 9]⟩] w = .ok [2, 0, 2] w' ∧
      BlockWriter.close w' = .ok () w'' ∧
      start { symbols := w''.ranks.coder.symbols } ⟨2, true⟩ = .ok r ∧
      readEach [⟨#[0, 0, 0]⟩, ⟨#[0, 0, 0]⟩, ⟨#[0, 0, 0]⟩] r = .ok [(.block 2, ⟨#[5, 6, 0]⟩),
        (.block 2, ⟨#[8, 9, 0]⟩), (.finished, ⟨#[0, 0, 0]⟩)] r' ∧
      r'.ranks.coder.remaining = 0 := by
  have hvalid : (⟨2, true⟩ : Config).Valid := by decide
  obtain ⟨w, w', w'', r, hw, hw', hw'', -, -, hr, hreads⟩ :=
    readEach_writeEach hvalid [⟨#[5, 6, 7]⟩, .empty, ⟨#[8, 9]⟩]
  have hbuffers : ∀ buffer ∈ List.replicate 3 (⟨#[0, 0, 0]⟩ : ByteArray), 2 ≤ buffer.size := by
    intro buffer hbuffer
    obtain rfl := List.eq_of_mem_replicate hbuffer
    decide
  obtain ⟨r', hanswers, hend⟩ := hreads (List.replicate 3 ⟨#[0, 0, 0]⟩) hbuffers
  obtain ⟨-, hremaining, -⟩ := hend (by decide)
  exact ⟨hvalid, w, w', w'', r, r', hw, hw', hw'', hr, hanswers, hremaining⟩

end BlockPress
