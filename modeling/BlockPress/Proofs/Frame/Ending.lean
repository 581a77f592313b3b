import BlockPress.Proofs.Entropy.Descent
import BlockPress.Proofs.Frame.Streaming
import BlockPress.Proofs.Frame.Truncation
import BlockPress.Proofs.Guarded.Frame
import BlockPress.Proofs.Rank.Rounds

/-!
# Reading comes to an end

None of the loops of a reader counts the bytes of its source, and many symbols may come from one byte.
Still each of them ends: a block uses up a byte at least (`FrameReader.remaining_lt_of_readBlock`), so a
source of `n` bytes delivers `n` blocks at most and then the end of the stream or a failure.

Main statement: **every frame is read to an end**, and so are each call for a block, the tokens of a
block, the digits of a run and the bytes that widen a range; each decision, whatever was read before it,
lowers the number of bytes that were not read or else the range (`Frame.reading_ends`).
-/

namespace BlockPress

open Rank Guarded

/-! ## Blocks -/

namespace Guarded

variable {size left : ℕ}

/-- A reader that may go on may go on where it is. -/
theorem Reads.here {r : RankReader (RangeReader contextCount)} (h : Reads size left r) :
    Reads size r.coder.source.remaining r :=
  ⟨⟨h.coder.context_eq, h.coder.opened, h.coder.within.size_eq, le_rfl⟩, h.ahead_lt⟩

variable [BlockHash] {b : BlockReader (RangeReader contextCount)} {buffer : ByteArray}

theorem Ready.remaining_lt_of_read (h : Ready size b buffer) {n : ℕ}
    {s : BlockReader (RangeReader contextCount) × ByteArray}
    (hread : BlockReader.read (b, buffer) = .ok (.block n) s) :
    s.1.ranks.coder.source.remaining < b.ranks.coder.source.remaining := by
  obtain ⟨ranks, config, blocks, finished⟩ := b
  obtain ⟨hreads, -, hvalid, hbuffer⟩ := h
  have hword := readWord_holds hreads.here
  rw [BlockReader.read] at hread
  split at hread
  · cases hread
  split at hread
  · cases hread
  cases hrest : ranks.readWord with
  | error f r =>
    rw [hrest] at hread
    cases hread
  | ok origin r =>
    rw [hrest] at hread hword
    obtain ⟨hpos, hreads⟩ := hword.answer
    have hbytes := readBytes_holds hvalid hbuffer.ge blocks origin hreads
    dsimp only at hread
    split at hread
    · cases hread
    cases hblock : BlockReader.readBytes config blocks origin r with
    | error f r' =>
      rw [hblock] at hread
      cases hread
    | ok block r' =>
      rw [hblock] at hread hbytes
      have hchecksum := readChecksum_holds config blocks block hbytes.answer.2
      dsimp only at hread
      cases hlast : BlockReader.readChecksum config blocks block r' with
      | error f r'' =>
        rw [hlast] at hread
        cases hread
      | ok _ r'' =>
        rw [hlast] at hread hchecksum
        cases hread
        have hle := hchecksum.answer.coder.within.remaining_le
        exact hle.trans_lt (Nat.sub_lt hpos Nat.one_pos)

end Guarded

namespace FrameReader

variable [BlockHash] {size : ℕ} {r r' : FrameReader}

/-- **A block uses up a byte of the source at least.** -/
theorem remaining_lt_of_readBlock (h : Ready size r.blocks r.buffer) {block : ByteArray}
    (hblock : r.readBlock = .ok (some block) r') : r'.source.remaining < r.source.remaining := by
  obtain ⟨header, blocks, buffer⟩ := r
  rw [readBlock] at hblock
  split at hblock
  · cases hblock
  · next hread =>
    cases hblock
    exact h.remaining_lt_of_read hread
  · cases hblock
  · cases hblock

end FrameReader

/-! ## Frames -/

/-- What reading comes to that delivers these blocks, and then the end of the stream or a failure. -/
def Frame.verdict (bs : List ByteArray) : Option Failure → Except Failure ByteArray
  | none => .ok (joined bs)
  | some f => .error f

namespace FrameReader

variable [BlockHash] {size : ℕ}

/-- **A reader delivers at most as many blocks as there are bytes**, and reading all of them comes to
just these. -/
theorem exists_delivers {r : FrameReader} (h : Ready size r.blocks r.buffer) :
    ∃ bs e, r.Delivers bs e ∧ bs.length ≤ r.source.remaining ∧
      ∀ out, ∃ r', readAll (r, out) = match e with
        | none => .ok () (r', bs.foldl (· ++ ·) out)
        | some f => .error f (r', bs.foldl (· ++ ·) out) := by
  -- Each block leaves fewer bytes.
  induction hleft : r.source.remaining using Nat.strongRecOn generalizing r with
  | ind left ih =>
    have hholds := readFrameBlock_holds h
    cases hblock : r.readBlock with
    | error f r' =>
      refine ⟨[], some f, .failed hblock, Nat.zero_le _, fun out => ⟨r', ?_⟩⟩
      rw [readAll, hblock]
      rfl
    | ok answer r' =>
      cases answer with
      | none =>
        refine ⟨[], none, .finished hblock, Nat.zero_le _, fun out => ⟨r', ?_⟩⟩
        rw [readAll, hblock]
        rfl
      | some block =>
        rw [hblock] at hholds
        have hlt := remaining_lt_of_readBlock h hblock
        obtain ⟨bs, e, hdelivers, hlength, hall⟩ := ih _ (hleft ▸ hlt) hholds.answer rfl
        refine ⟨block :: bs, e, .block hblock hdelivers, ?_, fun out => ?_⟩
        · rw [List.length_cons]
          omega
        · obtain ⟨r'', hall⟩ := hall (out ++ block)
          refine ⟨r'', ?_⟩
          rw [readAll, hblock]
          dsimp only
          rw [dif_pos hlt]
          exact hall

/-- The reader that is left behind by a number of calls for a block. -/
def afterCalls : ℕ → FrameReader → FrameReader
  | 0, r => r
  | n + 1, r => leftBy (afterCalls n r).readBlock

/-- The decoder of the frame. -/
def coder (r : FrameReader) : RangeReader contextCount := r.blocks.ranks.coder

theorem ready_afterCalls {r : FrameReader} (h : Ready size r.blocks r.buffer) (n : ℕ) :
    Ready size (r.afterCalls n).blocks (r.afterCalls n).buffer := by
  induction n with
  | zero => exact h
  | succ n ih =>
    have hholds := readFrameBlock_holds ih
    rw [afterCalls]
    generalize readFrameBlock _ = x, (r.afterCalls n).readBlock = y at hholds ⊢
    cases hholds with
    | ok h => exact h
    | error _ h => exact h

/-- **A call for a block asks for symbols and does nothing else with its decoder.** -/
theorem reaches_readBlock (r : FrameReader) : Reaches r.coder (leftBy r.readBlock).coder := by
  obtain ⟨header, blocks, buffer⟩ := r
  have hreaches := BlockReader.reaches_read (blocks, buffer)
  rw [readBlock]
  generalize BlockReader.read (blocks, buffer) = x at hreaches ⊢
  cases x with
  | error f s => exact hreaches
  | ok status s =>
    cases status with
    | block n => exact hreaches
    | needsRoom needed => exact hreaches
    | finished => exact hreaches

end FrameReader

namespace Frame

variable [BlockHash]

theorem exists_delivers_unpack (data : ByteArray) : ∃ bs e, Delivers { data } bs e ∧
    bs.length ≤ data.size ∧ unpack data = verdict bs e := by
  have hholds := start_holds { data }
  rw [unpack]
  cases hstart : FrameReader.start { data } with
  | error f s => exact ⟨[], some f, .refused hstart, Nat.zero_le _, rfl⟩
  | ok r s =>
    rw [hstart] at hholds
    have hready := hholds.answer
    obtain ⟨bs, e, hdelivers, hlength, hall⟩ := FrameReader.exists_delivers hready
    have hle := hready.reads.coder.within.remaining_le
    have hremaining : r.source.remaining ≤ data.size := hle.trans (Nat.sub_le _ _)
    obtain ⟨r', hall⟩ := hall .empty
    refine ⟨bs, e, .started hstart hdelivers, hlength.trans hremaining, ?_⟩
    dsimp only
    rw [hall]
    cases e with
    | none => rfl
    | some f => rfl

/-- **Reading comes to an end.**  Any bytes deliver blocks, not more than there are bytes, and then the
end of the stream or a failure, which is what unpacking them gives.  After any number of calls for a
block, successful or not, the next call asks its decoder for finitely many symbols, and it does nothing
else with it.  The tokens of a block, the digits of a run and the bytes that widen a range come to an end,
whatever the coder gives.  And **each decision**, through whatever contexts and also after failures,
**lowers the number of bytes that were not read, or else the range**; a symbol that is received takes as
many decisions as it has bits. -/
theorem reading_ends :
    (∀ data : ByteArray, ∃ bs e, Delivers { data } bs e ∧ bs.length ≤ data.size ∧
      unpack data = verdict bs e) ∧
    (∀ data : ByteArray, match FrameReader.start { data } with
      | .error _ _ => True
      | .ok r _ => ∀ n, ∃ cs, (r.afterCalls (n + 1)).coder = after cs (r.afterCalls n).coder ∧
        (r.afterCalls n).coder.Falls cs) ∧
    (∀ (δ : Type) [SymbolReader δ contextCount] (meaning : RankReader.Meaning) (limit label : ℕ)
      (s : RankReader δ × ByteArray), ∃ n ≤ limit - s.2.size + 1,
        Ends (RankReader.tokenRound meaning limit label) n s
          (RankReader.readOnto meaning limit label s)) ∧
    (∀ (δ : Type) [SymbolReader δ contextCount] (label : ℕ) (s : RankReader.Digits δ),
      ∃ n ≤ maxDigits - s.digits + 1, Ends (RankReader.digitRound label) n s (s.read label)) ∧
    (∀ r : Register, ∃ n ≤ r.source.remaining + 1, Ends Register.refillRound n r r.refill) ∧
    ∀ (k : ℕ) (contexts : Vector Context k) (s : Source), match RangeReader.start contexts s with
      | .error _ _ => True
      | .ok d _ => ∀ cs : List (Fin k), (∀ cs', (after cs d).Falls cs') ∧
        ∀ c, match (after cs d).receive c with
          | .error _ _ => True
          | .ok _ _ => ((after cs d).receiveWindows c).length =
            ((after cs d).trees.get c).context.symbolBits := by
  refine ⟨exists_delivers_unpack, fun data => ?_, fun δ _ => RankReader.ends_readOnto,
    fun δ _ => RankReader.ends_readRun, Register.ends_refill, fun k contexts s => ?_⟩
  · have hholds := start_holds { data }
    generalize start { data } = x, FrameReader.start { data } = y at hholds ⊢
    cases hholds with
    | error _ _ => exact trivial
    | @ok r s hready =>
      intro n
      obtain ⟨cs, hcs⟩ := FrameReader.reaches_readBlock (r.afterCalls n)
      have hopen := (FrameReader.ready_afterCalls hready n).reads.coder.opened
      exact ⟨cs, hcs, RangeReader.falls hopen cs⟩
  · cases hstart : RangeReader.start contexts s with
    | error f s' => exact trivial
    | ok d s' =>
      intro cs
      have hopen := RangeReader.open_after (RangeReader.open_of_start hstart) cs
      refine ⟨fun cs' => RangeReader.falls hopen cs', fun c => ?_⟩
      cases hreceive : (after cs d).receive c with
      | error f d' => exact trivial
      | ok symbol d' => exact RangeReader.length_receiveWindows hreceive

end Frame

end BlockPress
