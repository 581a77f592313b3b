import BlockPress.Proofs.Block.Blocks
import BlockPress.Proofs.Entropy.Failing
import BlockPress.Proofs.Guarded.Column
import BlockPress.Proofs.Rank.Rounds

/-!
# Calls for blocks

A reader of blocks is called again and again, with buffers of any sizes and also after failures.  What one
call does is one of five things (`BlockReader.Answers`): it asks for room, finds the stream over, comes to
its end, lays a block into the buffer, or fails.

Main statement: **a reader keeps to its protocol over any calls** (`BlockReader.protocol`).  A call with too
small a buffer might as well not have been made, the end of the stream is final, the blocks are counted,
and a buffer is changed only by a block that was restored, and no further than the block reaches.
-/

namespace BlockPress.BlockReader

open Rank

variable {δ : Type}

/-! ## One call -/

/-- A call for a block. -/
structure Call (δ : Type) where
  /-- The reader that is called. -/
  before : BlockReader δ
  /-- The buffer that it is given. -/
  offered : ByteArray
  /-- The answer. -/
  answer : Except Failure BlockStatus
  /-- The reader as the call leaves it. -/
  after : BlockReader δ
  /-- The buffer as the call leaves it. -/
  filled : ByteArray

namespace Call

/-- The call asks for room. -/
def asksRoom (c : Call δ) : Bool :=
  match c.answer with
  | .ok (.needsRoom _) => true
  | _ => false

/-- The call gives a block. -/
def givesBlock (c : Call δ) : Bool :=
  match c.answer with
  | .ok (.block _) => true
  | _ => false

end Call

/-- What a call may do.  A reader whose stream is not over looks at the size of the buffer first, and the
buffer of a call that fails is changed only where the block was restored before. -/
inductive Answers : Call δ → Prop where
  /-- The buffer is too small. -/
  | room {r : BlockReader δ} {buffer : ByteArray} (unfinished : r.finished = false)
    (short : buffer.size < r.config.blockSize) :
    Answers ⟨r, buffer, .ok (.needsRoom r.config.blockSize), r, buffer⟩
  /-- The stream is over. -/
  | past {r : BlockReader δ} {buffer : ByteArray} (finished : r.finished = true) :
    Answers ⟨r, buffer, .ok .finished, r, buffer⟩
  /-- The stream comes to its end. -/
  | ends {r : BlockReader δ} {buffer : ByteArray} (unfinished : r.finished = false)
    (wide : r.config.blockSize ≤ buffer.size) (ranks : RankReader δ) :
    Answers ⟨r, buffer, .ok .finished, { r with ranks, finished := true }, buffer⟩
  /-- A block lies in the front of the buffer. -/
  | block {r : BlockReader δ} {buffer : ByteArray} (unfinished : r.finished = false)
    (wide : r.config.blockSize ≤ buffer.size) (ranks : RankReader δ) (block : ByteArray)
    (pos : 0 < block.size) (fits : block.size ≤ r.config.blockSize) :
    Answers ⟨r, buffer, .ok (.block block.size), { r with ranks, blocks := r.blocks + 1 },
      Buffer.overlay block buffer⟩
  /-- The call fails. -/
  | fails {r : BlockReader δ} {buffer filled : ByteArray} (unfinished : r.finished = false)
    (wide : r.config.blockSize ≤ buffer.size) (ranks : RankReader δ) (failure : Failure)
    (kept : ∀ origin size, failure = .badOrigin origin size → filled = buffer) :
    Answers ⟨r, buffer, .error failure, { r with ranks }, filled⟩

namespace Answers

variable {c : Call δ}

theorem config_eq (h : Answers c) : c.after.config = c.before.config := by
  cases h <;> rfl

theorem blocks_eq (h : Answers c) :
    c.after.blocks = c.before.blocks + if c.givesBlock then 1 else 0 := by
  cases h <;> rfl

theorem asksRoom_iff (h : Answers c) : c.asksRoom = true ↔
    c.before.finished = false ∧ c.offered.size < c.before.config.blockSize := by
  cases h with
  | room unfinished short => exact ⟨fun _ => ⟨unfinished, short⟩, fun _ => rfl⟩
  | past finished => exact ⟨fun h => (nomatch h), fun h => (nomatch finished.symm.trans h.1)⟩
  | ends _ wide | block _ wide | fails _ wide =>
    exact ⟨fun h => (nomatch h), fun h => absurd h.2 wide.not_gt⟩

theorem of_asksRoom (h : Answers c) (hasks : c.asksRoom = true) :
    c.answer = .ok (.needsRoom c.before.config.blockSize) ∧ c.after = c.before ∧
      c.filled = c.offered := by
  cases h with
  | room => exact ⟨rfl, rfl, rfl⟩
  | past | ends | block | fails => cases hasks

theorem of_finished (h : Answers c) (hanswer : c.answer = .ok .finished) :
    c.after.finished = true ∧ c.filled = c.offered := by
  cases h with
  | past finished => exact ⟨finished, rfl⟩
  | ends => exact ⟨rfl, rfl⟩
  | room | block | fails => cases hanswer

theorem of_block (h : Answers c) {size : ℕ} (hanswer : c.answer = .ok (.block size)) :
    1 ≤ size ∧ size ≤ c.before.config.blockSize ∧ c.filled.size = c.offered.size ∧
      c.filled.extract size c.filled.size = c.offered.extract size c.offered.size := by
  cases h with
  | block _ wide ranks block pos fits =>
    cases hanswer
    have hsize := Buffer.size_overlay (fits.trans wide)
    refine ⟨pos, fits, hsize, ?_⟩
    dsimp only
    rw [hsize, Buffer.extract_overlay_behind (fits.trans wide)]
  | room | past | ends | fails => cases hanswer

theorem of_badOrigin (h : Answers c) {origin size : ℕ}
    (hanswer : c.answer = .error (.badOrigin origin size)) : c.filled = c.offered := by
  cases h with
  | fails _ _ ranks failure kept => exact kept origin size (Except.error.inj hanswer)
  | room | past | ends | block => cases hanswer

theorem of_error (h : Answers c) {failure : Failure} (hanswer : c.answer = .error failure) :
    c.after.blocks = c.before.blocks ∧ c.after.finished = c.before.finished := by
  cases h with
  | fails => exact ⟨rfl, rfl⟩
  | room | past | ends | block => cases hanswer

end Answers

variable [SymbolReader δ contextCount]

/-- Calls for a block. -/
def call [BlockHash] (r : BlockReader δ) (buffer : ByteArray) : Call δ :=
  match read (r, buffer) with
  | .ok status (r', filled) => ⟨r, buffer, .ok status, r', filled⟩
  | .error failure (r', filled) => ⟨r, buffer, .error failure, r', filled⟩

theorem before_call [BlockHash] (r : BlockReader δ) (buffer : ByteArray) : (call r buffer).before = r := by
  rw [call]
  split <;> rfl

theorem offered_call [BlockHash] (r : BlockReader δ) (buffer : ByteArray) :
    (call r buffer).offered = buffer := by
  rw [call]
  split <;> rfl

/-- A block that was read has bytes, but no more than fit. -/
theorem size_of_readBytes {config : Config} {label : ℕ} {origin : UInt32} {r r' : RankReader δ}
    {block : ByteArray} (h : readBytes config label origin r = .ok block r') :
    0 < block.size ∧ block.size ≤ config.blockSize := by
  have hempty : ((r, ByteArray.empty) : RankReader δ × ByteArray).2.size ≤ config.blockSize :=
    Nat.zero_le _
  have hsize := RankReader.size_readOnto_le RecencyList.decode label hempty
  rw [readBytes, RankReader.readBlock] at h
  generalize RankReader.readOnto _ _ _ (r, ByteArray.empty) = x at hsize h
  cases x with
  | error f s => cases h
  | ok _ s =>
    obtain ⟨r₁, column⟩ := s
    dsimp only at h
    split at h
    · cases h
    · next hbytes =>
      cases hrestore : Column.restore column origin.toNat with
      | error f =>
        rw [hrestore] at h
        cases h
      | ok b =>
        rw [hrestore] at h
        cases h
        have hpos : column.size ≠ 0 := fun h => hbytes (beq_iff_eq.mpr h)
        rw [Column.size_restore hrestore]
        exact ⟨Nat.pos_of_ne_zero hpos, hsize⟩

section Failing

variable (hcoder : ∀ (c : Fin contextCount) (d : δ), FailsForCoder (SymbolReader.receive c d))

include hcoder

theorem failsForCoder_readWord (r : RankReader δ) : FailsForCoder r.readWord := by
  have hfrom (n : ℕ) : ∀ (word : UInt32) (r : RankReader δ),
      FailsForCoder (RankReader.readWordFrom word n r) := by
    induction n with
    | zero => exact fun _ _ => trivial
    | succ n ih =>
      rintro word ⟨coder, list, ahead⟩
      have hreceive := hcoder wordContext coder
      rw [RankReader.readWordFrom]
      dsimp only
      rw [RankReader.receive]
      generalize SymbolReader.receive wordContext coder = x at hreceive ⊢
      cases x with
      | error f d => exact hreceive
      | ok b d => exact ih _ _
  exact hfrom 4 0 r

/-- No coder fails for an origin, so nothing does while the checksum is read. -/
theorem ne_badOrigin_of_readChecksum [BlockHash] {config : Config} {label : ℕ} {block : ByteArray}
    {r r' : RankReader δ} {failure : Failure}
    (hread : readChecksum config label block r = .error failure r') (origin size : ℕ) :
    failure ≠ .badOrigin origin size := by
  rintro rfl
  have hword := failsForCoder_readWord hcoder r
  rw [readChecksum] at hread
  dsimp only at hread
  split at hread
  · generalize r.readWord = x at hword hread
    cases x with
    | error f s =>
      cases hread
      exact hword
    | ok expected s =>
      dsimp only at hread
      split at hread
      · cases hread
      · cases hread
  · cases hread

/-- **A call does one of five things.** -/
theorem answers_call [BlockHash] (r : BlockReader δ) (buffer : ByteArray) : Answers (call r buffer) := by
  obtain ⟨ranks, config, blocks, finished⟩ := r
  rw [call, read]
  cases finished with
  | true => exact .past rfl
  | false =>
    rw [if_neg Bool.false_ne_true]
    by_cases hshort : buffer.size < config.blockSize
    · rw [if_pos hshort]
      exact .room rfl hshort
    rw [if_neg hshort]
    have hwide : config.blockSize ≤ buffer.size := Nat.not_lt.mp hshort
    cases hread : ranks.readWord with
    | error f ranks₁ => exact .fails rfl hwide ranks₁ f fun _ _ _ => rfl
    | ok origin ranks₁ =>
      dsimp only
      by_cases hend : config.blockSize ≤ origin.toNat
      · rw [if_pos hend]
        exact .ends rfl hwide ranks₁
      rw [if_neg hend]
      cases hbytes : readBytes config blocks origin ranks₁ with
      | error f ranks₂ => exact .fails rfl hwide ranks₂ f fun _ _ _ => rfl
      | ok block ranks₂ =>
        obtain ⟨hpos, hfits⟩ := size_of_readBytes hbytes
        dsimp only
        cases hchecksum : readChecksum config blocks block ranks₂ with
        | error f ranks₃ =>
          exact .fails rfl hwide ranks₃ f fun origin size heq =>
            absurd heq (ne_badOrigin_of_readChecksum hcoder hchecksum origin size)
        | ok _ ranks₃ => exact .block rfl hwide ranks₃ block hpos hfits

end Failing

/-! ## Calls one after the other -/

section Calls

variable [BlockHash]

/-- Calls for a block into each of some buffers, one after the other, whatever they come to. -/
def calls : BlockReader δ → List ByteArray → List (Call δ)
  | _, [] => []
  | r, buffer :: buffers => call r buffer :: calls (call r buffer).after buffers

/-- Behind the end of a stream every call finds it over. -/
theorem calls_of_finished {r : BlockReader δ} (h : r.finished = true) (buffers : List ByteArray) :
    calls r buffers = buffers.map fun buffer => ⟨r, buffer, .ok .finished, r, buffer⟩ := by
  obtain ⟨ranks, config, blocks, finished⟩ := r
  obtain rfl : finished = true := h
  induction buffers with
  | nil => rfl
  | cons buffer buffers ih => rw [calls, List.map_cons, ← ih, call, read_finished]

section Runs

variable (hcoder : ∀ (c : Fin contextCount) (d : δ), FailsForCoder (SymbolReader.receive c d))

include hcoder

/-- Each call does one of the five things, under the settings of the reader. -/
theorem answers_calls (r : BlockReader δ) (buffers : List ByteArray) :
    ∀ c ∈ calls r buffers, Answers c ∧ c.before.config = r.config := by
  induction buffers generalizing r with
  | nil => exact fun c hc => nomatch hc
  | cons buffer buffers ih =>
    have hanswers := answers_call hcoder r buffer
    have hconfig := hanswers.config_eq
    rw [before_call] at hconfig
    intro c hc
    obtain rfl | hc := List.mem_cons.mp hc
    · exact ⟨hanswers, congrArg config (before_call r buffer)⟩
    · obtain ⟨hanswers', hconfig'⟩ := ih _ c hc
      exact ⟨hanswers', hconfig'.trans hconfig⟩

/-- **The end of the stream is final.** -/
theorem pairwise_calls (r : BlockReader δ) (buffers : List ByteArray) :
    (calls r buffers).Pairwise fun c d => c.answer = .ok .finished →
      d.answer = .ok .finished ∧ d.after = c.after ∧ d.filled = d.offered := by
  induction buffers generalizing r with
  | nil => exact .nil
  | cons buffer buffers ih =>
    refine List.pairwise_cons.mpr ⟨fun d hd hanswer => ?_, ih _⟩
    obtain ⟨hfinished, -⟩ := (answers_call hcoder r buffer).of_finished hanswer
    rw [calls_of_finished hfinished] at hd
    obtain ⟨_, -, rfl⟩ := List.mem_map.mp hd
    exact ⟨rfl, rfl, rfl⟩

/-- **The blocks are counted**, behind those of the calls before. -/
theorem blocks_calls (r : BlockReader δ) (buffers : List ByteArray) : ∀ i c,
    (calls r buffers)[i]? = some c →
      c.before.blocks = r.blocks + ((calls r buffers).take i).countP (·.givesBlock) ∧
      c.after.blocks = r.blocks + ((calls r buffers).take (i + 1)).countP (·.givesBlock) := by
  induction buffers generalizing r with
  | nil => exact fun i c hc => nomatch hc
  | cons buffer buffers ih =>
    have hcount := (answers_call hcoder r buffer).blocks_eq
    rw [before_call] at hcount
    intro i c hc
    rw [calls] at hc ⊢
    cases i with
    | zero =>
      obtain rfl : call r buffer = c := Option.some.inj hc
      rw [before_call, hcount, List.take_succ_cons, List.take_zero, List.take_zero,
        List.countP_singleton]
      exact ⟨rfl, rfl⟩
    | succ i =>
      obtain ⟨hbefore, hafter⟩ := ih _ i c hc
      rw [hbefore, hafter, hcount, List.take_succ_cons, List.take_succ_cons, List.countP_cons,
        List.countP_cons]
      omega

/-- **Calls that ask for room might as well not be made.** -/
theorem calls_filter (r : BlockReader δ) (buffers : List ByteArray) :
    calls r (((calls r buffers).filter (!·.asksRoom)).map (·.offered)) =
      (calls r buffers).filter (!·.asksRoom) := by
  induction buffers generalizing r with
  | nil => rfl
  | cons buffer buffers ih =>
    rw [calls]
    cases hasks : (call r buffer).asksRoom with
    | true =>
      obtain ⟨-, hsame, -⟩ := (answers_call hcoder r buffer).of_asksRoom hasks
      rw [before_call] at hsame
      rw [List.filter_cons_of_neg (by rw [hasks]; decide), hsame]
      exact ih r
    | false =>
      rw [List.filter_cons_of_pos (by rw [hasks]; decide), List.map_cons, offered_call, calls, ih]

end Runs

/-- The protocol of calls with these buffers, for a reader at the start of its stream. -/
structure Protocol (config : Config) (r : BlockReader δ) (buffers : List ByteArray) : Prop where
  /-- Room is asked for just where the stream is not over and the buffer is too small. -/
  asks_iff : ∀ c ∈ calls r buffers, c.asksRoom = true ↔
    c.before.finished = false ∧ c.offered.size < config.blockSize
  /-- Asking for room names the block size and changes nothing. -/
  asks : ∀ c ∈ calls r buffers, ∀ needed, c.answer = .ok (.needsRoom needed) →
    needed = config.blockSize ∧ c.after = c.before ∧ c.filled = c.offered
  /-- Without the calls that ask for room, the others are what they are. -/
  without_asking : calls r (((calls r buffers).filter (!·.asksRoom)).map (·.offered)) =
    (calls r buffers).filter (!·.asksRoom)
  /-- The end of the stream changes no buffer. -/
  finished : ∀ c ∈ calls r buffers, c.answer = .ok .finished →
    c.after.finished = true ∧ c.filled = c.offered
  /-- The end of the stream is final, and nothing is read behind it. -/
  final : (calls r buffers).Pairwise fun c d => c.answer = .ok .finished →
    d.answer = .ok .finished ∧ d.after = c.after ∧ d.filled = d.offered
  /-- The blocks are counted. -/
  counts : ∀ i c, (calls r buffers)[i]? = some c →
    c.before.blocks = ((calls r buffers).take i).countP (·.givesBlock) ∧
    c.after.blocks = ((calls r buffers).take (i + 1)).countP (·.givesBlock)
  /-- A block has bytes, but no more than the block size, and the buffer is kept behind it. -/
  block : ∀ c ∈ calls r buffers, ∀ size, c.answer = .ok (.block size) →
    1 ≤ size ∧ size ≤ config.blockSize ∧ c.filled.size = c.offered.size ∧
      c.filled.extract size c.filled.size = c.offered.extract size c.offered.size
  /-- An origin that lies in no row of its block changes no buffer. -/
  badOrigin : ∀ c ∈ calls r buffers, ∀ origin size, c.answer = .error (.badOrigin origin size) →
    c.filled = c.offered
  /-- A failure counts no block and is not the end. -/
  fails : ∀ c ∈ calls r buffers, ∀ failure, c.answer = .error failure →
    c.after.blocks = c.before.blocks ∧ c.after.finished = c.before.finished

/-- A reader whose coder fails for its own reasons keeps to the protocol. -/
theorem protocol_of_failsForCoder
    (hcoder : ∀ (c : Fin contextCount) (d : δ), FailsForCoder (SymbolReader.receive c d))
    {coder : δ} {config : Config} {r : BlockReader δ} (h : start coder config = .ok r)
    (buffers : List ByteArray) : Protocol config r buffers := by
  have hall := answers_calls hcoder r buffers
  obtain ⟨hconfig, hblocks⟩ : r.config = config ∧ r.blocks = 0 := by
    rw [start] at h
    split at h
    · cases h
      exact ⟨rfl, rfl⟩
    · cases h
  subst hconfig
  have hcounts := blocks_calls hcoder r buffers
  simp only [hblocks, Nat.zero_add] at hcounts
  exact {
    asks_iff c hc := (hall c hc).2 ▸ (hall c hc).1.asksRoom_iff
    asks c hc needed hanswer := by
      obtain ⟨hanswers, hconfig⟩ := hall c hc
      have hasks : c.asksRoom = true := by rw [Call.asksRoom, hanswer]
      obtain ⟨hroom, hsame⟩ := hanswers.of_asksRoom hasks
      rw [hanswer, hconfig] at hroom
      exact ⟨BlockStatus.needsRoom.inj (Except.ok.inj hroom), hsame⟩
    without_asking := calls_filter hcoder r buffers
    finished c hc := (hall c hc).1.of_finished
    final := pairwise_calls hcoder r buffers
    counts := hcounts
    block c hc size := (hall c hc).2 ▸ (hall c hc).1.of_block
    badOrigin c hc origin size := (hall c hc).1.of_badOrigin
    fails c hc failure := (hall c hc).1.of_error }

/-- **A reader of blocks keeps to its protocol**, whatever the symbols on its tape or the bytes of its
source are. -/
theorem protocol (config : Config) (buffers : List ByteArray) :
    (∀ (coder : TapeReader contextCount) r, start coder config = .ok r → Protocol config r buffers) ∧
    (∀ (coder : RangeReader contextCount) r, start coder config = .ok r →
      Protocol config r buffers) :=
  ⟨fun _ _ h => protocol_of_failsForCoder TapeReader.failsForCoder_receive h buffers,
    fun _ _ h => protocol_of_failsForCoder RangeReader.failsForCoder_receive h buffers⟩

end Calls

/-- A buffer that is too small, an origin behind the one byte of its block, and the end of the tape. -/
theorem protocol_badOrigin :
    let coder : TapeReader contextCount :=
      ⟨#[⟨8, 0⟩, ⟨8, 0⟩, ⟨8, 0⟩, ⟨8, 5⟩, ⟨0, 2⟩, ⟨0, 10⟩], 0⟩
    let buffers : List ByteArray :=
      [⟨.replicate 3 7⟩, ⟨.replicate 8 7⟩, ⟨.replicate 9 7⟩]
    ∃ r, start coder ⟨8, false⟩ = .ok r ∧
      (calls r buffers).map (·.answer) =
        [.ok (.needsRoom 8), .error (.badOrigin 5 1), .error (.endOfInput 1)] ∧
      Protocol ⟨8, false⟩ r buffers := by
  intro coder buffers
  refine ⟨_, rfl, by decide +kernel, ?_⟩
  exact (protocol ⟨8, false⟩ buffers).1 coder _ rfl

end BlockPress.BlockReader
