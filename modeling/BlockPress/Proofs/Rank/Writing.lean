import BlockPress.Proofs.Entropy.Stream
import BlockPress.Proofs.Rank.Code
import BlockPress.Rank.Writer

/-!
# What a rank writer sends

The symbols of a block of ranks depend on the ranks alone (`rankBlockSymbols`), and those of a block of
bytes on the bytes and the recency list (`blockSymbols`): they are the symbols of the bytes' ranks
(`blockSymbols_eq`).  So **a writer whose coder takes these symbols has written the block**
(`RankWriter.writeBlockFrom_eq`, `RankWriter.writeRanksFrom_eq`), and each of them is in the alphabet of
its context (`coded_blockSymbols`).
-/

namespace BlockPress

namespace Rank

/-- The symbols of ranks behind a run of zeros that is pending, up to the end of the block. -/
def rankBlockSymbols : ℕ → List UInt8 → List (Fin contextCount × UInt32)
  | run, [] => runSymbols run ++ [(symbolContext, blockEnd)]
  | run, r :: rs =>
    if r = 0 then rankBlockSymbols (run + 1) rs
    else runSymbols run ++ (rankSymbols r ++ rankBlockSymbols 0 rs)

/-- The ranks of bytes, each of which moves to the front. -/
def ranksOf : RecencyList → List UInt8 → List UInt8
  | _, [] => []
  | l, b :: bs => (l.encode b).1 :: ranksOf (l.encode b).2 bs

/-- The symbols of bytes behind a run of zeros that is pending, up to the end of the block. -/
def blockSymbols : RecencyList → ℕ → List UInt8 → List (Fin contextCount × UInt32)
  | _, run, [] => runSymbols run ++ [(symbolContext, blockEnd)]
  | l, run, b :: bs =>
    if (l.encode b).1 = 0 then blockSymbols (l.encode b).2 (run + 1) bs
    else runSymbols run ++ (rankSymbols (l.encode b).1 ++ blockSymbols (l.encode b).2 0 bs)

/-- The recency list behind bytes. -/
def listAfter (l : RecencyList) (bs : List UInt8) : RecencyList :=
  bs.foldl (fun l b => (l.encode b).2) l

theorem blockSymbols_eq (l : RecencyList) (run : ℕ) (bs : List UInt8) :
    blockSymbols l run bs = rankBlockSymbols run (ranksOf l bs) := by
  induction bs generalizing l run with
  | nil => rfl
  | cons b bs ih => rw [blockSymbols, ranksOf, rankBlockSymbols, ih, ih]

theorem length_ranksOf (l : RecencyList) (bs : List UInt8) : (ranksOf l bs).length = bs.length := by
  induction bs generalizing l with
  | nil => rfl
  | cons b bs ih => rw [ranksOf, List.length_cons, List.length_cons, ih]

theorem coded_rankBlockSymbols (run : ℕ) (rs : List UInt8) : Coded (rankBlockSymbols run rs) := by
  induction rs generalizing run with
  | nil => exact (coded_runSymbols run).append coded_blockEnd
  | cons r rs ih =>
    rw [rankBlockSymbols]
    split
    · exact ih _
    · exact (coded_runSymbols run).append ((coded_rankSymbols _).append (ih _))

theorem coded_blockSymbols (l : RecencyList) (run : ℕ) (bs : List UInt8) :
    Coded (blockSymbols l run bs) := blockSymbols_eq l run bs ▸ coded_rankBlockSymbols _ _

end Rank

namespace RankWriter

open Rank

variable {ε : Type} [SymbolWriter ε contextCount] {e f : ε} {l : RecencyList} {run : ℕ}

theorem sendSymbols_eq {xs : List (Fin contextCount × UInt32)} (h : sendAll xs e = .ok () f) :
    sendSymbols xs ⟨e, l, run⟩ = .ok () ⟨f, l, run⟩ := by
  rw [sendSymbols, h]

theorem flushRun_eq (h : sendAll (runSymbols run) e = .ok () f) :
    flushRun ⟨e, l, run⟩ = .ok () ⟨f, l, 0⟩ := by
  rw [flushRun]
  simp only [sendSymbols_eq h]

theorem writeRank_eq {rank : UInt8} (hrank : rank ≠ 0)
    (h : sendAll (runSymbols run ++ rankSymbols rank) e = .ok () f) :
    writeRank rank ⟨e, l, run⟩ = .ok () ⟨f, l, 0⟩ := by
  obtain ⟨d, hrun, hsymbols⟩ := sendAll_append.mp h
  rw [writeRank, if_neg hrank]
  simp only [flushRun_eq hrun]
  exact sendSymbols_eq hsymbols

theorem endBlock_eq (h : sendAll (runSymbols run ++ [(symbolContext, blockEnd)]) e = .ok () f) :
    endBlock ⟨e, l, run⟩ = .ok () ⟨f, l, 0⟩ := by
  obtain ⟨d, hrun, hend⟩ := sendAll_append.mp h
  rw [endBlock]
  simp only [flushRun_eq hrun]
  exact sendSymbols_eq hend

/-- Writing the first of some ranks leaves the symbols of the others to be taken. -/
theorem writeRank_cons {rank : UInt8} {rs : List UInt8}
    (h : sendAll (rankBlockSymbols run (rank :: rs)) e = .ok () f) :
    ∃ d run', writeRank rank ⟨e, l, run⟩ = .ok () ⟨d, l, run'⟩ ∧
      sendAll (rankBlockSymbols run' rs) d = .ok () f := by
  rw [rankBlockSymbols] at h
  by_cases hzero : rank = 0
  · rw [if_pos hzero] at h
    exact ⟨e, run + 1, if_pos hzero, h⟩
  · rw [if_neg hzero, ← List.append_assoc] at h
    obtain ⟨d, hrank, hrest⟩ := sendAll_append.mp h
    exact ⟨d, 0, writeRank_eq hzero hrank, hrest⟩

section Blocks

variable {bytes : ByteArray} {i : ℕ} {b : UInt8} {bs : List UInt8}

theorem lt_of_drop_eq_cons (h : bytes.data.toList.drop i = b :: bs) :
    ∃ hi : i < bytes.size, bytes[i] = b ∧ bytes.data.toList.drop (i + 1) = bs := by
  have hi : i < bytes.data.toList.length := by
    by_contra hge
    rw [List.drop_eq_nil_of_le (Nat.not_lt.mp hge)] at h
    cases h
  rw [List.drop_eq_getElem_cons hi] at h
  obtain ⟨hb, hbs⟩ := List.cons.inj h
  exact ⟨hi, hb, hbs⟩

/-- **A writer whose coder takes the symbols of ranks has written them.** -/
theorem writeRanksFrom_eq {ranks : ByteArray}
    (h : sendAll (rankBlockSymbols run (ranks.data.toList.drop i)) e = .ok () f) :
    writeRanksFrom ranks i ⟨e, l, run⟩ = .ok () ⟨f, l, 0⟩ := by
  generalize hrs : ranks.data.toList.drop i = rs at h
  induction rs generalizing i e run with
  | nil =>
    have hi : ¬i < ranks.size := Nat.not_lt.mpr (List.drop_eq_nil_iff.mp hrs)
    rw [writeRanksFrom, dif_neg hi]
    exact endBlock_eq h
  | cons rank rs ih =>
    obtain ⟨hi, hrank, hrest⟩ := lt_of_drop_eq_cons hrs
    obtain ⟨d, run', hwrite, hsend⟩ := writeRank_cons (l := l) h
    rw [writeRanksFrom, dif_pos hi, hrank, hwrite]
    exact ih hrest hsend

/-- **A writer whose coder takes the symbols of a block has written it.** -/
theorem writeBlockFrom_eq (h : sendAll (blockSymbols l run (bytes.data.toList.drop i)) e = .ok () f) :
    writeBlockFrom bytes i ⟨e, l, run⟩ = .ok () ⟨f, listAfter l (bytes.data.toList.drop i), 0⟩ := by
  rw [blockSymbols_eq] at h
  generalize hbs : bytes.data.toList.drop i = bs at h ⊢
  induction bs generalizing i e l run with
  | nil =>
    have hi : ¬i < bytes.size := Nat.not_lt.mpr (List.drop_eq_nil_iff.mp hbs)
    rw [writeBlockFrom, dif_neg hi]
    exact endBlock_eq h
  | cons b bs ih =>
    obtain ⟨hi, hb, hrest⟩ := lt_of_drop_eq_cons hbs
    obtain ⟨d, run', hwrite, hsend⟩ := writeRank_cons (l := (l.encode b).2) h
    have hbyte : writeByte b ⟨e, l, run⟩ = .ok () ⟨d, (l.encode b).2, run'⟩ := hwrite
    rw [writeBlockFrom, dif_pos hi, hb, hbyte]
    exact ih hrest hsend

end Blocks

theorem writeWord_eq {word : UInt32} (h : sendAll (wordSymbols word) e = .ok () f) :
    writeWord word ⟨e, l, run⟩ = .ok () ⟨f, l, run⟩ := sendSymbols_eq h

end RankWriter

end BlockPress
