import BlockPress.Buffer
import BlockPress.Entropy.Coder
import BlockPress.Rank.Code
import BlockPress.Recency

/-!
# Reading ranks

The end of a zero run shows only in the symbol behind it, so a `RankReader` keeps that symbol for
the next token.  A block is read onto an output that may not grow past a limit: **a token that does
not fit adds nothing and moves nothing in the recency list.**  Since every other token adds at least
one byte, the limit also ends the reading of a block.
-/

namespace BlockPress

/-- The reading side of a stream of ranks, over a coder. -/
structure RankReader (δ : Type) where
  /-- The coder that gives the symbols. -/
  coder : δ
  /-- The recency list of the stream. -/
  list : RecencyList := .fresh
  /-- The symbol behind the last run. -/
  ahead : Option UInt32 := none

namespace RankReader

open Rank

variable {δ : Type} [SymbolReader δ contextCount]

/-- Takes a symbol from the coder, whatever is kept ahead. -/
@[specialize] def receive (c : Fin contextCount) : Action (RankReader δ) UInt32
  | ⟨coder, list, ahead⟩ =>
    match SymbolReader.receive c coder with
    | .ok symbol coder => .ok symbol ⟨coder, list, ahead⟩
    | .error failure coder => .error failure ⟨coder, list, ahead⟩

/-- The next symbol of ranks: the one that was kept, or one from the coder. -/
@[specialize] def nextSymbol : Action (RankReader δ) UInt32 := fun r =>
  match r.ahead with
  | some symbol => .ok symbol { r with ahead := none }
  | none => receive symbolContext r

/-- Reads the rest of a run, given the symbol that comes next, the number of digits before it and
their value.  The symbol behind the run is kept. -/
@[specialize] def readRun (label : Nat) (symbol : UInt32) (digits length : Nat)
    (pos : symbol < firstClass ∨ 0 < length) : Action (RankReader δ) Token := fun r =>
  if h : symbol < firstClass then
    if digits < maxDigits then
      match receive symbolContext r with
      | .ok next r =>
        readRun label next (digits + 1) (length + (symbol.toNat + 1) <<< digits)
          (.inr (by
            have : 0 < (symbol.toNat + 1) <<< digits := by
              rw [Nat.shiftLeft_eq]
              exact Nat.mul_pos (Nat.succ_pos _) (Nat.two_pow_pos _)
            omega)) r
      | .error failure r => .error failure r
    else .error (.corrupt label .runTooLong) r
  else .ok (.run length (pos.resolve_left h)) { r with ahead := some symbol }
termination_by maxDigits - digits

/-- Reads the rest of a rank of class `c`. -/
@[specialize] def readRank (label : Nat) (c : Fin 8) : Action (RankReader δ) Token := fun r =>
  if c.val = 0 then .ok (.rank 1) r
  else
    match receive (offsetContext c) r with
    | .ok offset r =>
      let rank := (1 : UInt32) <<< c.val.toUInt32 + offset
      if rank < 256 then .ok (.rank rank.toUInt8) r
      else .error (.corrupt label (.rankOutOfRange rank)) r
    | .error failure r => .error failure r

/-- Reads a token; `label` is the number of the block, for failures. -/
@[specialize] def readToken (label : Nat) : Action (RankReader δ) Token := fun r =>
  match nextSymbol r with
  | .error failure r => .error failure r
  | .ok symbol r =>
    if hrun : symbol < firstClass then readRun label symbol 0 0 (.inl hrun) r
    else if symbol = blockEnd then .ok .blockEnd r
    else if hclass : symbol < blockEnd then
      readRank label ⟨symbol.toNat - 2, by
        have : symbol.toNat < 10 := hclass
        omega⟩ r
    else .error (.badSymbol symbol symbolCount) r

/-- What a rank stands for in the output, with the list after it. -/
abbrev Meaning : Type := RecencyList → UInt8 → UInt8 × RecencyList

/-- Reads a block onto an output of at most `limit` bytes, where each rank stands for what `meaning`
gives. -/
@[specialize] def readOnto (meaning : Meaning) (limit label : Nat) :
    Action (RankReader δ × ByteArray) Unit := fun (r, out) =>
  match readToken label r with
  | .error failure r => .error failure (r, out)
  | .ok .blockEnd r => .ok () (r, out)
  | .ok (.run length _pos) r =>
    if _h : length ≤ limit - out.size then
      readOnto meaning limit label (r, Buffer.pushMany out (meaning r.list 0).1 length)
    else .error (.corrupt label (.growsPast limit)) (r, out)
  | .ok (.rank rank) ⟨coder, list, ahead⟩ =>
    if _h : 1 ≤ limit - out.size then
      let (b, list) := meaning list rank
      readOnto meaning limit label (⟨coder, list, ahead⟩, out.push b)
    else .error (.corrupt label (.growsPast limit)) (⟨coder, list, ahead⟩, out)
termination_by s => limit - s.2.size
decreasing_by
  · simp only [Buffer.size_pushMany]; omega
  · simp only [ByteArray.size_push]; omega

/-- Reads a block of bytes. -/
@[inline] def readBlock (limit label : Nat) : Action (RankReader δ × ByteArray) Unit :=
  readOnto RecencyList.decode limit label

/-- Reads a block of ranks, which leave the recency list alone. -/
@[inline] def readRanks (limit label : Nat) : Action (RankReader δ × ByteArray) Unit :=
  readOnto (fun list rank => (rank, list)) limit label

/-- Reads `n` bytes of a word, behind those of `word`. -/
@[specialize] def readWordFrom (word : UInt32) : Nat → Action (RankReader δ) UInt32
  | 0 => fun r => .ok word r
  | n + 1 => fun r =>
    match receive wordContext r with
    | .ok b r => readWordFrom (word <<< 8 ||| b) n r
    | .error failure r => .error failure r

/-- Reads a word. -/
@[inline] def readWord : Action (RankReader δ) UInt32 := readWordFrom 0 4

end RankReader

end BlockPress
