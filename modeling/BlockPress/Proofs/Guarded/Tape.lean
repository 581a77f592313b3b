import BlockPress.Proofs.Entropy.Tape
import BlockPress.Proofs.Guarded.Ranks
import BlockPress.Proofs.Rank.Rounds

/-!
# Guarded rank readers over tapes

A tape may hold any symbols, also ones that no writer sends, so a rank may turn out to lie beyond the
last one.  But the sum that names it has to fit a word of 32 bits, for which it is enough that offsets
are below `2 ^ 31` (`TapeReader.SmallOffsets`): all other sums, shifts and indices are bounded whatever
the symbols are.  Playing a tape needs no check: a symbol is looked up, and its place is one of the tape.

Main statement: **a guarded reader reads the blocks of bytes and of ranks that the reader reads**
(`Guarded.Tape.readBlock_eq`, `Guarded.Tape.readRanks_eq`).
-/

namespace BlockPress

open Rank

/-! ## Tapes -/

namespace TapeReader

/-- The offsets of ranks on the tape are below `2 ^ 31`. -/
def SmallOffsets (t : TapeReader contextCount) : Prop :=
  ∀ x ∈ t.symbols, 1 ≤ x.context → x.context ≤ 7 → x.symbol.toNat < 2 ^ 31

variable {t t' : TapeReader contextCount}

theorem symbols_receive (c : Fin contextCount) (t : TapeReader contextCount) :
    (leftBy (SymbolReader.receive c t)).symbols = t.symbols := by
  change (leftBy (receive c t)).symbols = t.symbols
  rw [receive]
  split
  · rfl
  · split
    · rfl
    · rfl

/-- **Playing a tape does not change its record.** -/
theorem symbols_of_reaches (h : Reaches t t') : t'.symbols = t.symbols := by
  obtain ⟨cs, rfl⟩ := h
  induction cs generalizing t with
  | nil => rfl
  | cons c cs ih => exact ih.trans (symbols_receive c t)

theorem SmallOffsets.of_reaches (h : t.SmallOffsets) (ht : Reaches t t') : t'.SmallOffsets := by
  rwa [SmallOffsets, symbols_of_reaches ht]

/-- An offset is one of the record. -/
theorem SmallOffsets.lt (h : t.SmallOffsets) {c : Fin 8} (hc : c.val ≠ 0) {offset : UInt32}
    (hreceive : SymbolReader.receive (offsetContext c) t = .ok offset t') : offset.toNat < 2 ^ 31 := by
  obtain ⟨hget, -⟩ := receive_eq_ok_iff.mp hreceive
  exact h _ (Array.mem_of_getElem? hget) (Nat.one_le_iff_ne_zero.mpr hc) (Nat.le_of_lt_succ c.isLt)

end TapeReader

namespace Guarded.Tape

/-- A reader of ranks from a tape. -/
abbrev Player : Type := RankReader (TapeReader contextCount)

variable {r : Player} {label : ℕ}

/-! ## Tokens -/

/-- The rest of a run: each digit is shifted by less than a word, and the sum fits one. -/
def readRun (label : ℕ) (symbol : UInt32) (digits length : ℕ) : Guarded Player Token := fun r =>
  if symbol < firstClass then
    if digits < maxDigits then
      require (digits < 64 ∧ length + (symbol.toNat + 1) <<< digits < 2 ^ 64 ∧ digits + 1 < 2 ^ 32) <|
        match RankReader.receive symbolContext r with
        | .ok next r => readRun label next (digits + 1) (length + (symbol.toNat + 1) <<< digits) r
        | .error failure r => some (.error failure r)
    else some (.error (.corrupt label .runTooLong) r)
  else if pos : 0 < length then some (.ok (.run length pos) { r with ahead := some symbol })
  else none
termination_by maxDigits - digits

theorem readRun_eq {digits length : ℕ} {symbol : UInt32} {pos : symbol < firstClass ∨ 0 < length}
    (hlength : length + 2 ≤ 2 ^ (digits + 1)) :
    readRun label symbol digits length r =
      some (RankReader.readRun label symbol digits length pos r) := by
  -- With each digit there is room for fewer of them.
  induction hroom : maxDigits - digits using Nat.strongRecOn generalizing symbol digits length r with
  | ind room ih =>
    rw [readRun, RankReader.readRun]
    by_cases hdigit : symbol < firstClass
    · rw [if_pos hdigit, dif_pos hdigit]
      by_cases hcount : digits < maxDigits
      · rw [if_pos hcount, if_pos hcount]
        obtain ⟨hfits, hnext⟩ := digit_fits hdigit hcount hlength
        rw [require_eq hfits]
        cases RankReader.receive symbolContext r with
        | error f r' => rfl
        | ok next r' => exact ih (maxDigits - (digits + 1)) (by omega) hnext rfl
      · rw [if_neg hcount, if_neg hcount]
    · rw [if_neg hdigit, dif_neg hdigit, dif_pos (pos.resolve_left hdigit)]

/-- The rest of a rank: the difference is not below zero, there is a context for the offsets of the
class, and the sum fits a word. -/
def readRank (label : ℕ) (symbol : UInt32) : Guarded Player Token := fun r =>
  require (firstClass ≤ symbol) <|
    let c := symbol.toNat - 2
    if c = 0 then some (.ok (.rank 1) r)
    else if hc : c < 8 then
      match RankReader.receive (offsetContext ⟨c, hc⟩) r with
      | .ok offset r =>
        require (c < 32 ∧ 2 ^ c + offset.toNat < 2 ^ 32) <|
          let rank := (1 : UInt32) <<< c.toUInt32 + offset
          if rank < 256 then some (.ok (.rank rank.toUInt8) r)
          else some (.error (.corrupt label (.rankOutOfRange rank)) r)
      | .error failure r => some (.error failure r)
    else none

theorem readRank_eq {symbol : UInt32} (h : r.coder.SmallOffsets) (hfirst : 2 ≤ symbol.toNat)
    (hlast : symbol.toNat - 2 < 8) : readRank label symbol r =
      some (RankReader.readRank label ⟨symbol.toNat - 2, hlast⟩ r) := by
  have hsymbol : firstClass ≤ symbol := UInt32.le_iff_toNat_le.mpr hfirst
  rw [readRank, RankReader.readRank, require_eq hsymbol]
  dsimp only
  by_cases hc : symbol.toNat - 2 = 0
  · rw [if_pos hc, if_pos hc]
  · rw [if_neg hc, if_neg hc, dif_pos hlast]
    obtain ⟨t, l, ahead⟩ := r
    rw [RankReader.receive]
    cases hreceive : SymbolReader.receive (offsetContext ⟨symbol.toNat - 2, hlast⟩) t with
    | error f t' => rfl
    | ok offset t' =>
      have hoffset : offset.toNat < 2 ^ 31 := h.lt hc hreceive
      have hpow : 2 ^ (symbol.toNat - 2) ≤ 2 ^ 7 :=
        Nat.pow_le_pow_right (by decide) (Nat.le_of_lt_succ hlast)
      dsimp only
      rw [require_eq ⟨by omega, by omega⟩]
      split
      · rfl
      · rfl

/-- A token. -/
def readToken (label : ℕ) : Guarded Player Token := fun r =>
  match RankReader.nextSymbol r with
  | .error failure r => some (.error failure r)
  | .ok symbol r =>
    if symbol < firstClass then readRun label symbol 0 0 r
    else if symbol = blockEnd then some (.ok .blockEnd r)
    else if symbol < blockEnd then readRank label symbol r
    else some (.error (.badSymbol symbol symbolCount) r)

/-- **A token is read as by a guarded reader.** -/
theorem readToken_eq (label : ℕ) (h : r.coder.SmallOffsets) :
    readToken label r = some (RankReader.readToken label r) := by
  have hnext := RankReader.reaches_nextSymbol r
  rw [readToken, RankReader.readToken]
  generalize RankReader.nextSymbol r = x at hnext ⊢
  cases x with
  | error f r' => rfl
  | ok symbol r' =>
    have h' : r'.coder.SmallOffsets := h.of_reaches hnext
    dsimp only
    by_cases hdigit : symbol < firstClass
    · rw [if_pos hdigit, dif_pos hdigit]
      exact readRun_eq (Nat.le_refl _)
    · rw [if_neg hdigit, dif_neg hdigit]
      by_cases hend : symbol = blockEnd
      · rw [if_pos hend, if_pos hend]
      · rw [if_neg hend, if_neg hend]
        by_cases hclass : symbol < blockEnd
        · rw [if_pos hclass, dif_pos hclass]
          exact readRank_eq h' (RankReader.two_le_of_not_lt hdigit) _
        · rw [if_neg hclass, dif_neg hclass]

/-! ## Blocks -/

/-- A block: the output grows to a size that fits a word, and each rank has a meaning. -/
def readOnto (meaning : RecencyList → UInt8 → Option (UInt8 × RecencyList)) (limit label : ℕ) :
    Guarded (Player × ByteArray) Unit := fun (r, out) =>
  match readToken label r with
  | none => none
  | some (.error failure r) => some (.error failure (r, out))
  | some (.ok .blockEnd r) => some (.ok () (r, out))
  | some (.ok (.run length _) r) =>
    if _h : length ≤ limit - out.size then
      match meaning r.list 0 with
      | none => none
      | some front =>
        require (out.size + length < 2 ^ 64) <|
          readOnto meaning limit label (r, Buffer.pushMany out front.1 length)
    else some (.error (.corrupt label (.growsPast limit)) (r, out))
  | some (.ok (.rank rank) ⟨coder, list, ahead⟩) =>
    if _h : 1 ≤ limit - out.size then
      match meaning list rank with
      | none => none
      | some meant =>
        require (out.size + 1 < 2 ^ 64) <|
          readOnto meaning limit label (⟨coder, meant.2, ahead⟩, out.push meant.1)
    else some (.error (.corrupt label (.growsPast limit)) (⟨coder, list, ahead⟩, out))
termination_by s => limit - s.2.size
decreasing_by
  · simp only [Buffer.size_pushMany]; omega
  · simp only [ByteArray.size_push]; omega

/-- **A block is read as by a guarded reader**, if its ranks have the meanings that are meant. -/
theorem readOnto_eq {meaning : RankReader.Meaning}
    {guarded : RecencyList → UInt8 → Option (UInt8 × RecencyList)}
    (hmeaning : ∀ list rank, guarded list rank = some (meaning list rank)) {limit : ℕ}
    (hlimit : limit < 2 ^ 64) (label : ℕ) (h : r.coder.SmallOffsets) (out : ByteArray) :
    readOnto guarded limit label (r, out) =
      some (RankReader.readOnto meaning limit label (r, out)) := by
  -- Each token that fits leaves less room.
  induction hroom : limit - out.size using Nat.strongRecOn generalizing r out with
  | ind room ih =>
    have hreaches := RankReader.reaches_readToken label r
    rw [readOnto, RankReader.readOnto]
    dsimp only
    rw [readToken_eq label h]
    generalize RankReader.readToken label r = x at hreaches ⊢
    cases x with
    | error f r' => rfl
    | ok token r' =>
      obtain ⟨coder, list, ahead⟩ := r'
      have h' : coder.SmallOffsets := h.of_reaches hreaches
      cases token with
      | blockEnd => rfl
      | run length pos =>
        dsimp only
        by_cases hfits : length ≤ limit - out.size
        · rw [dif_pos hfits, dif_pos hfits, hmeaning]
          dsimp only
          rw [require_eq (by omega)]
          refine ih _ ?_ h' _ rfl
          rw [Buffer.size_pushMany]
          omega
        · rw [dif_neg hfits, dif_neg hfits]
      | rank rank =>
        dsimp only
        by_cases hfits : 1 ≤ limit - out.size
        · rw [dif_pos hfits, dif_pos hfits, hmeaning]
          dsimp only
          rw [require_eq (by omega)]
          refine ih _ ?_ h' _ rfl
          rw [ByteArray.size_push]
          omega
        · rw [dif_neg hfits, dif_neg hfits]

/-- A block of bytes: they come from within the list. -/
def readBlock (limit label : ℕ) : Guarded (Player × ByteArray) Unit := readOnto decodeByte limit label

theorem readBlock_eq {limit : ℕ} (hlimit : limit < 2 ^ 64) (label : ℕ) (h : r.coder.SmallOffsets)
    (out : ByteArray) :
    readBlock limit label (r, out) = some (RankReader.readBlock limit label (r, out)) :=
  readOnto_eq decodeByte_eq hlimit label h out

/-- A block of ranks. -/
def readRanks (limit label : ℕ) : Guarded (Player × ByteArray) Unit :=
  readOnto (fun list rank => some (rank, list)) limit label

theorem readRanks_eq {limit : ℕ} (hlimit : limit < 2 ^ 64) (label : ℕ) (h : r.coder.SmallOffsets)
    (out : ByteArray) :
    readRanks limit label (r, out) = some (RankReader.readRanks limit label (r, out)) :=
  readOnto_eq (fun _ _ => rfl) hlimit label h out

end Guarded.Tape

end BlockPress
