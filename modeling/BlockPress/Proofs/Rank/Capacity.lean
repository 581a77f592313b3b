import BlockPress.Block.Writer
import BlockPress.Proofs.Entropy.Capacity

/-!
# Rank and block writers on a sink that fills up

A writer of ranks or blocks only sends symbols, so on a sink that fills up **it does the same as on one
that takes everything, or stops at a symbol** (`BlockWriter.rations_write`, `BlockWriter.rations_close`).
From then on it writes no block, and its end fails too (`BlockWriter.stuck_write`,
`BlockWriter.stuck_close`), whatever the failure has left half done.
-/

namespace BlockPress

open Rank Carrier RangeWriter

variable {ε : Type} {k : ℕ}

instance [Carrier ε k] : Carrier (RankWriter ε) k where
  coder w := coder w.coder
  ration n w := { w with coder := ration n w.coder }

instance [Carrier ε k] : Carrier (BlockWriter ε) k where
  coder w := coder w.ranks
  ration n w := { w with ranks := ration n w.ranks }

/-! ## As long as the sink takes something -/

theorem rations_sendAll (xs : List (Fin contextCount × UInt32)) :
    Rations Stuck (sendAll (ε := RangeWriter contextCount) xs) := by
  induction xs with
  | nil => exact fun L e he hL => .same he rfl hL
  | cons x xs ih =>
    obtain ⟨c, s⟩ := x
    intro L e he hL
    have hsend : Rationed L Stuck _ (SymbolWriter.send c s e) (SymbolWriter.send c s (ration L e)) :=
      rations_send c s L e he hL
    rw [sendAll]
    dsimp only
    generalize SymbolWriter.send c s e = x, SymbolWriter.send c s (ration L e) = x' at hsend ⊢
    apply hsend.andThen (g := id) (fun _ _ => rfl) (fun _ => rfl)
    exact fun L' _ e he hL => ih L' e he hL

namespace RankWriter

theorem rations_sendSymbols (xs : List (Fin contextCount × UInt32)) :
    Rations Stuck (sendSymbols (ε := RangeWriter contextCount) xs) := by
  intro L w hw hL
  obtain ⟨e, l, run⟩ := w
  have hsend := rations_sendAll xs L e hw hL
  change Rationed L Stuck (written e) (sendSymbols xs ⟨e, l, run⟩) (sendSymbols xs ⟨ration L e, l, run⟩)
  rw [sendSymbols, sendSymbols]
  generalize sendAll xs e = x, sendAll xs (ration L e) = x' at hsend ⊢
  apply hsend.andThen (g := fun e => ⟨e, l, run⟩) (fun _ _ => rfl) (fun _ => rfl)
  exact fun L' _ e he hL => .same he rfl hL

theorem rations_flushRun : Rations Stuck (flushRun (ε := RangeWriter contextCount)) := by
  intro L w hw hL
  have hsend := rations_sendSymbols (runSymbols w.run) L w hw hL
  change Rationed L Stuck (written w) _ (sendSymbols (runSymbols (ration L w).run) (ration L w)) at hsend
  rw [flushRun, flushRun]
  generalize sendSymbols _ w = x, sendSymbols _ (ration L w) = x' at hsend ⊢
  apply hsend.andThen (g := id) (fun _ _ => rfl) (fun _ => rfl)
  exact fun L' _ w hw hL => .same hw rfl hL

theorem rations_writeRank (rank : UInt8) :
    Rations Stuck (writeRank (ε := RangeWriter contextCount) rank) := by
  intro L w hw hL
  have hflush := rations_flushRun L w hw hL
  rw [writeRank, writeRank]
  split
  · exact .same hw rfl hL
  · generalize flushRun w = x, flushRun (ration L w) = x' at hflush ⊢
    apply hflush.andThen (g := id) (fun _ _ => rfl) (fun _ => rfl)
    exact fun L' _ w hw hL => rations_sendSymbols _ L' w hw hL

theorem rations_endBlock : Rations Stuck (endBlock (ε := RangeWriter contextCount)) := by
  intro L w hw hL
  have hflush := rations_flushRun L w hw hL
  rw [endBlock, endBlock]
  generalize flushRun w = x, flushRun (ration L w) = x' at hflush ⊢
  apply hflush.andThen (g := id) (fun _ _ => rfl) (fun _ => rfl)
  exact fun L' _ w hw hL => rations_sendSymbols _ L' w hw hL

theorem rations_writeByte (b : UInt8) :
    Rations Stuck (writeByte (ε := RangeWriter contextCount) b) := by
  intro L w hw hL
  obtain ⟨e, l, run⟩ := w
  exact rations_writeRank (l.encode b).1 L ⟨e, (l.encode b).2, run⟩ hw hL

/-- **The ranks of a block are rationed.** -/
theorem rations_writeBlockFrom (bytes : ByteArray) (i : ℕ) :
    Rations Stuck (writeBlockFrom (ε := RangeWriter contextCount) bytes i) := by
  induction hn : bytes.size - i generalizing i with
  | zero =>
    intro L w hw hL
    rw [writeBlockFrom, writeBlockFrom, dif_neg (by omega), dif_neg (by omega)]
    exact rations_endBlock L w hw hL
  | succ n ih =>
    intro L w hw hL
    have hlt : i < bytes.size := by omega
    have hbyte := rations_writeByte bytes[i] L w hw hL
    rw [writeBlockFrom, writeBlockFrom, dif_pos hlt, dif_pos hlt]
    generalize writeByte bytes[i] w = x, writeByte bytes[i] (ration L w) = x' at hbyte ⊢
    apply hbyte.andThen (g := id) (fun _ _ => rfl) (fun _ => rfl)
    exact fun L' _ w hw hL => ih (i + 1) (by omega) L' w hw hL

theorem rations_close : Rations Halted (close (ε := RangeWriter contextCount)) := by
  intro L w hw hL
  obtain ⟨e, l, run⟩ := w
  have hclose : Rationed L Halted (written e) (SymbolWriter.close e) (SymbolWriter.close (ration L e)) :=
    RangeWriter.rations_close L e hw hL
  change Rationed L Halted (written e) (close ⟨e, l, run⟩) (close ⟨ration L e, l, run⟩)
  rw [close, close]
  generalize SymbolWriter.close e = x, SymbolWriter.close (ration L e) = x' at hclose ⊢
  apply hclose.andThen (g := fun e => ⟨e, l, run⟩) (fun _ _ => rfl) (fun _ => rfl)
  exact fun L' _ e he hL => .same he rfl hL

end RankWriter

namespace BlockWriter

theorem rations_writeParts (origin : ℕ) (column : ByteArray) (checksum : Option UInt32) :
    Rations Stuck (writeParts (ε := RangeWriter contextCount) origin column checksum) := by
  intro L w hw hL
  have hword := RankWriter.rations_sendSymbols (wordSymbols origin.toUInt32) L w hw hL
  rw [writeParts, writeParts, RankWriter.writeWord]
  generalize RankWriter.sendSymbols _ w = x, RankWriter.sendSymbols _ (ration L w) = x' at hword ⊢
  apply hword.andThen (g := id) (fun _ _ => rfl) (fun _ => rfl)
  intro L _ w hw hL
  have hblock := RankWriter.rations_writeBlockFrom column 0 L w hw hL
  dsimp only
  rw [RankWriter.writeBlock]
  generalize RankWriter.writeBlockFrom _ _ w = x, RankWriter.writeBlockFrom _ _ (ration L w) = x'
    at hblock ⊢
  apply hblock.andThen (g := id) (fun _ _ => rfl) (fun _ => rfl)
  intro L _ w hw hL
  cases checksum with
  | none => exact .same hw rfl hL
  | some sum => exact RankWriter.rations_sendSymbols (wordSymbols sum) L w hw hL

/-- **A block is rationed.** -/
theorem rations_write [BlockHash] (input : ByteArray) :
    Rations Stuck (write (ε := RangeWriter contextCount) input) := by
  intro L w hw hL
  obtain ⟨ranks, config, sorter, blocks⟩ := w
  change Rationed L Stuck (written ranks) (write input ⟨ranks, config, sorter, blocks⟩)
    (write input ⟨ration L ranks, config, sorter, blocks⟩)
  rw [write, write]
  dsimp only
  split
  · exact .same hw rfl hL
  · generalize sorter.sort (input.extract 0 config.blockSize) = sorter'
    generalize (if config.checksum then _ else none) = checksum
    have hparts := rations_writeParts sorter'.origin
      (sorter'.column (input.extract 0 config.blockSize)) checksum L ranks hw hL
    generalize writeParts _ _ _ ranks = x, writeParts _ _ _ (ration L ranks) = x' at hparts ⊢
    apply hparts.andThen (g := fun ranks => ⟨ranks, config, sorter', blocks⟩) (fun _ _ => rfl)
      (fun _ => rfl)
    exact fun L' _ ranks hw hL => .same hw rfl hL

/-- **The end of a stream is rationed.** -/
theorem rations_close : Rations Halted (close (ε := RangeWriter contextCount)) := by
  intro L w hw hL
  obtain ⟨ranks, config, sorter, blocks⟩ := w
  have hword := (RankWriter.rations_sendSymbols (wordSymbols streamEnd) L ranks hw hL).mono
    fun _ _ h => h.halted
  change Rationed L Halted (written ranks) (close ⟨ranks, config, sorter, blocks⟩)
    (close ⟨ration L ranks, config, sorter, blocks⟩)
  rw [close, close, RankWriter.writeWord]
  generalize RankWriter.sendSymbols _ ranks = x, RankWriter.sendSymbols _ (ration L ranks) = x'
    at hword ⊢
  apply hword.andThen (g := fun ranks => ⟨ranks, config, sorter, blocks⟩) (fun _ _ => rfl)
    (fun _ => rfl)
  intro L _ ranks hw hL
  have hclose := RankWriter.rations_close L ranks hw hL
  dsimp only
  generalize RankWriter.close ranks = x, RankWriter.close (ration L ranks) = x' at hclose ⊢
  apply hclose.andThen (g := fun ranks => ⟨ranks, config, sorter, blocks⟩) (fun _ _ => rfl)
    (fun _ => rfl)
  exact fun L' _ ranks hw hL => .same hw rfl hL

end BlockWriter

/-! ## When the sink is full -/

section Stuck

variable {held : ByteArray}

theorem RankWriter.stuck_writeWord {w : RankWriter (RangeWriter contextCount)}
    (h : (coder w).Stuck held) (word : UInt32) :
    ∃ f w', RankWriter.writeWord word w = .error f w' ∧ (coder w').Stuck held := by
  obtain ⟨e, l, run⟩ := w
  obtain ⟨f, e', hsend, hstuck⟩ := Stuck.send h wordContext (word >>> 24 &&& 0xFF)
  have hsend' : SymbolWriter.send wordContext (word >>> 24 &&& 0xFF) e = .error f e' := hsend
  refine ⟨f, ⟨e', l, run⟩, ?_, hstuck⟩
  rw [RankWriter.writeWord, RankWriter.sendSymbols, wordSymbols, List.map_cons, sendAll]
  dsimp only
  rw [hsend']

namespace BlockWriter

/-- **No block is written.** -/
theorem stuck_write [BlockHash] {w : BlockWriter (RangeWriter contextCount)} (h : (coder w).Stuck held)
    (input : ByteArray) : (coder (leftBy (write input w))).Stuck held := by
  obtain ⟨ranks, config, sorter, blocks⟩ := w
  rw [write]
  dsimp only
  split
  · exact h
  · generalize sorter.sort (input.extract 0 config.blockSize) = sorter'
    obtain ⟨f, ranks', hword, hstuck⟩ := RankWriter.stuck_writeWord h sorter'.origin.toUInt32
    rw [writeParts, hword]
    exact hstuck

/-- **The end of the stream fails.** -/
theorem stuck_close {w : BlockWriter (RangeWriter contextCount)} (h : (coder w).Stuck held) :
    ∃ f w', close w = .error f w' ∧ (coder w').Stuck held := by
  obtain ⟨ranks, config, sorter, blocks⟩ := w
  obtain ⟨f, ranks', hword, hstuck⟩ := RankWriter.stuck_writeWord h streamEnd
  refine ⟨f, ⟨ranks', config, sorter, blocks⟩, ?_, hstuck⟩
  rw [close, hword]

end BlockWriter

end Stuck

end BlockPress
