import BlockPress.Entropy.Coder
import BlockPress.Rank.Code
import BlockPress.Recency

/-!
# Writing ranks

A `RankWriter` turns bytes into ranks and ranks into symbols.  Zeros are counted and written when
their run ends.  The recency list carries over from one block to the next.
-/

namespace BlockPress

/-- The writing side of a stream of ranks, over a coder. -/
structure RankWriter (ε : Type) where
  /-- The coder that takes the symbols. -/
  coder : ε
  /-- The recency list of the stream. -/
  list : RecencyList := .fresh
  /-- The number of zeros that were not written yet. -/
  run : Nat := 0

namespace RankWriter

open Rank

variable {ε : Type} [SymbolWriter ε contextCount]

/-- Sends symbols that have nothing to do with the run of zeros. -/
@[specialize] def sendSymbols (symbols : List (Fin contextCount × UInt32)) :
    Action (RankWriter ε) Unit
  | ⟨coder, list, run⟩ =>
    match sendAll symbols coder with
    | .ok () coder => .ok () ⟨coder, list, run⟩
    | .error failure coder => .error failure ⟨coder, list, run⟩

/-- Writes the run of zeros.  It stays pending if that fails. -/
@[specialize] def flushRun : Action (RankWriter ε) Unit := fun w =>
  match sendSymbols (runSymbols w.run) w with
  | .ok () w => .ok () { w with run := 0 }
  | .error failure w => .error failure w

/-- Writes a rank; a zero is only counted. -/
@[specialize] def writeRank (rank : UInt8) : Action (RankWriter ε) Unit := fun w =>
  if rank = 0 then .ok () { w with run := w.run + 1 }
  else
    match flushRun w with
    | .ok () w => sendSymbols (rankSymbols rank) w
    | .error failure w => .error failure w

/-- Ends a block. -/
@[specialize] def endBlock : Action (RankWriter ε) Unit := fun w =>
  match flushRun w with
  | .ok () w => sendSymbols [(symbolContext, blockEnd)] w
  | .error failure w => .error failure w

/-- Writes ranks from place `i` on, and ends the block. -/
@[specialize] def writeRanksFrom (ranks : ByteArray) (i : Nat) : Action (RankWriter ε) Unit :=
  fun w =>
    if h : i < ranks.size then
      match writeRank ranks[i] w with
      | .ok () w => writeRanksFrom ranks (i + 1) w
      | .error failure w => .error failure w
    else endBlock w
termination_by ranks.size - i

/-- Writes a block of ranks. -/
@[inline] def writeRanks (ranks : ByteArray) : Action (RankWriter ε) Unit := writeRanksFrom ranks 0

/-- Writes a byte as its rank. -/
@[specialize] def writeByte (b : UInt8) : Action (RankWriter ε) Unit
  | ⟨coder, list, run⟩ =>
    let (rank, list) := list.encode b
    writeRank rank ⟨coder, list, run⟩

/-- Writes bytes from place `i` on, and ends the block. -/
@[specialize] def writeBlockFrom (bytes : ByteArray) (i : Nat) : Action (RankWriter ε) Unit :=
  fun w =>
    if h : i < bytes.size then
      match writeByte bytes[i] w with
      | .ok () w => writeBlockFrom bytes (i + 1) w
      | .error failure w => .error failure w
    else endBlock w
termination_by bytes.size - i

/-- Writes a block of bytes. -/
@[inline] def writeBlock (bytes : ByteArray) : Action (RankWriter ε) Unit := writeBlockFrom bytes 0

/-- Writes a word. -/
@[specialize] def writeWord (word : UInt32) : Action (RankWriter ε) Unit :=
  sendSymbols (wordSymbols word)

/-- Closes the coder. -/
@[specialize] def close : Action (RankWriter ε) Unit
  | ⟨coder, list, run⟩ =>
    match SymbolWriter.close coder with
    | .ok () coder => .ok () ⟨coder, list, run⟩
    | .error failure coder => .error failure ⟨coder, list, run⟩

end RankWriter

end BlockPress
