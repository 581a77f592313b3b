import BlockPress.Proofs.Guarded.Coder
import BlockPress.Proofs.Rank.Canonical

/-!
# Guarded rank readers

The symbols of ranks are below 11, also the one that is kept ahead, which may outlive the block that left
it.  So the symbol of a token is a digit, a class or the end of the block, and no other; a class above 0
has a context of offsets, and with an offset of its alphabet it names a rank below 256.  A run that is not
too long has a length below `2 ^ 42`.

Main statement: **a guarded reader reads the blocks and words that the reader reads**
(`Guarded.readBlock_holds`, `Guarded.readWord_holds`), and a word takes a byte of the source at least.
-/

namespace BlockPress

open Rank

/-- Only symbols of the alphabets come from a range decoder. -/
theorem RangeReader.sound {d : RangeReader contextCount}
    (h : ∀ c, (d.trees.get c).context = contexts.get c) : Sound d := by
  intro xs e hxs
  induction hxs with
  | nil d => exact fun x hx => nomatch hx
  | @cons c s xs d e f hreceive _ ih =>
    have hcontexts := (RangeReader.receive_spec hreceive).1
    obtain ⟨tree, hdecode, -⟩ := RangeReader.receive_cases hreceive
    obtain ⟨-, hsymbol, -⟩ := BitTree.decode_cases hdecode
    have hrest := ih fun c => (hcontexts c).trans (h c)
    intro x hx
    obtain rfl | hx := List.mem_cons.mp hx
    · exact h c ▸ hsymbol
    · exact hrest x hx

namespace Guarded

variable {size left : ℕ}

/-- A rank reader that may go on: the symbol that is kept, if any, is a symbol of ranks. -/
structure Reads (size left : ℕ) (r : RankReader (RangeReader contextCount)) : Prop where
  /-- The decoder. -/
  coder : Decodes size left r.coder
  /-- The symbol that is kept. -/
  ahead_lt : ∀ s ∈ r.ahead, s.toNat < symbolCount

theorem Reads.mono {left' : ℕ} {r : RankReader (RangeReader contextCount)} (h : Reads size left r)
    (hleft : left ≤ left') : Reads size left' r := ⟨h.coder.mono hleft, h.ahead_lt⟩

variable {r : RankReader (RangeReader contextCount)}

/-! ## Symbols -/

/-- A symbol from the coder. -/
def take (c : Fin contextCount) : Guarded (RankReader (RangeReader contextCount)) UInt32
  | ⟨coder, list, ahead⟩ =>
    match receive c coder with
    | none => none
    | some (.ok symbol coder) => some (.ok symbol ⟨coder, list, ahead⟩)
    | some (.error failure coder) => some (.error failure ⟨coder, list, ahead⟩)

theorem take_holds (h : Reads size left r) (c : Fin contextCount) :
    Holds (fun symbol r' => symbol.toNat < (contexts.get c).alphabet ∧ Reads size left r')
      (Reads size left) (take c r) (RankReader.receive c r) := by
  obtain ⟨coder, list, ahead⟩ := r
  have hreceive : Holds _ _ (receive c coder) (SymbolReader.receive c coder) := receive_holds h.coder c
  rw [take, RankReader.receive]
  generalize receive c coder = x, SymbolReader.receive c coder = y at hreceive ⊢
  cases hreceive with
  | error reachable hd => exact .error reachable ⟨hd, h.ahead_lt⟩
  | ok hd => exact .ok ⟨hd.1, hd.2, h.ahead_lt⟩

/-- The next symbol of ranks. -/
def nextSymbol : Guarded (RankReader (RangeReader contextCount)) UInt32 := fun r =>
  match r.ahead with
  | some symbol => some (.ok symbol { r with ahead := none })
  | none => take symbolContext r

theorem nextSymbol_holds (h : Reads size left r) :
    Holds (fun symbol r' => symbol.toNat < symbolCount ∧ Reads size left r') (Reads size left)
      (nextSymbol r) r.nextSymbol := by
  obtain ⟨coder, list, ahead⟩ := r
  cases ahead with
  | some symbol => exact .ok ⟨h.ahead_lt symbol rfl, h.coder, fun s hs => nomatch hs⟩
  | none => exact take_holds h symbolContext

/-! ## Tokens -/

/-- The rest of a run: each digit is shifted by less than a word, and the sum fits one. -/
def readRun (label : ℕ) (symbol : UInt32) (digits length : ℕ) :
    Guarded (RankReader (RangeReader contextCount)) Token := fun r =>
  if symbol < firstClass then
    if digits < maxDigits then
      require (digits < 64 ∧ length + (symbol.toNat + 1) <<< digits < 2 ^ 64 ∧ digits + 1 < 2 ^ 32) <|
        match take symbolContext r with
        | none => none
        | some (.ok next r) =>
          readRun label next (digits + 1) (length + (symbol.toNat + 1) <<< digits) r
        | some (.error failure r) => some (.error failure r)
    else some (.error (.corrupt label .runTooLong) r)
  else if pos : 0 < length then some (.ok (.run length pos) { r with ahead := some symbol })
  else none
termination_by maxDigits - digits

/-- What a digit adds to a run: it is shifted by less than a word, the sum fits one, and there is room for
the digits that may follow. -/
theorem digit_fits {symbol : UInt32} {digits length : ℕ} (hdigit : symbol < firstClass)
    (hcount : digits < maxDigits) (hlength : length + 2 ≤ 2 ^ (digits + 1)) :
    (digits < 64 ∧ length + (symbol.toNat + 1) <<< digits < 2 ^ 64 ∧ digits + 1 < 2 ^ 32) ∧
      length + (symbol.toNat + 1) <<< digits + 2 ≤ 2 ^ (digits + 1 + 1) := by
  have hlt : symbol.toNat < 2 := UInt32.lt_iff_toNat_lt.mp hdigit
  have hvalue : (symbol.toNat + 1) <<< digits ≤ 2 ^ (digits + 1) := by
    rw [Nat.shiftLeft_eq, Nat.pow_succ']
    exact Nat.mul_le_mul_right _ hlt
  have hmax : digits < 40 := hcount
  have hpow : 2 ^ (digits + 1) ≤ 2 ^ 40 := Nat.pow_le_pow_right (by decide) hmax
  refine ⟨⟨by omega, by omega, by omega⟩, ?_⟩
  rw [Nat.pow_succ _ (digits + 1)]
  omega

theorem readRun_holds {label digits length : ℕ} {symbol : UInt32}
    {pos : symbol < firstClass ∨ 0 < length} (h : Reads size left r)
    (hsymbol : symbol.toNat < symbolCount) (hlength : length + 2 ≤ 2 ^ (digits + 1)) :
    Holds (fun _ r' => Reads size left r') (Reads size left) (readRun label symbol digits length r)
      (RankReader.readRun label symbol digits length pos r) := by
  -- With each digit there is room for fewer of them.
  induction hroom : maxDigits - digits using Nat.strongRecOn generalizing symbol digits length r with
  | ind room ih =>
    rw [readRun, RankReader.readRun]
    by_cases hdigit : symbol < firstClass
    · rw [if_pos hdigit, dif_pos hdigit]
      by_cases hcount : digits < maxDigits
      · rw [if_pos hcount, if_pos hcount]
        obtain ⟨hfits, hnext⟩ := digit_fits hdigit hcount hlength
        have htake := take_holds h symbolContext
        refine .require hfits ?_
        generalize take symbolContext r = x, RankReader.receive symbolContext r = y at htake ⊢
        cases htake with
        | error reachable h => exact .error reachable h
        | ok h => exact ih (maxDigits - (digits + 1)) (by omega) h.2 h.1 hnext rfl
      · rw [if_neg hcount, if_neg hcount]
        exact .error trivial h
    · have hpos : 0 < length := pos.resolve_left hdigit
      rw [if_neg hdigit, dif_neg hdigit, dif_pos hpos]
      exact .ok ⟨h.coder, fun s hs => Option.some.inj hs ▸ hsymbol⟩

/-- The rest of a rank: the difference is not below zero, there is a context for the offsets of the
class, and the rank fits a byte. -/
def readRank (symbol : UInt32) : Guarded (RankReader (RangeReader contextCount)) Token := fun r =>
  require (firstClass ≤ symbol) <|
    let c := symbol.toNat - 2
    if c = 0 then some (.ok (.rank 1) r)
    else if hc : c - 1 < 7 then
      match take (offsetContext ⟨c, by omega⟩) r with
      | none => none
      | some (.ok offset r) =>
        require (c < 32 ∧ 2 ^ c + offset.toNat < 2 ^ 32 ∧ 2 ^ c + offset.toNat < 256) <|
          some (.ok (.rank ((1 : UInt32) <<< c.toUInt32 + offset).toUInt8) r)
      | some (.error failure r) => some (.error failure r)
    else none

theorem readRank_holds {label : ℕ} {symbol : UInt32} (h : Reads size left r)
    (hfirst : 2 ≤ symbol.toNat) (hlast : symbol.toNat - 2 < 8) :
    Holds (fun _ r' => Reads size left r') (Reads size left) (readRank symbol r)
      (RankReader.readRank label ⟨symbol.toNat - 2, hlast⟩ r) := by
  rw [readRank, RankReader.readRank]
  refine .require (UInt32.le_iff_toNat_le.mpr hfirst) ?_
  dsimp only
  by_cases hc : symbol.toNat - 2 = 0
  · rw [if_pos hc, if_pos hc]
    exact .ok h
  · have hcontext : symbol.toNat - 2 - 1 < 7 := by omega
    rw [if_neg hc, if_neg hc, dif_pos hcontext]
    have htake := take_holds h (offsetContext ⟨symbol.toNat - 2, hlast⟩)
    generalize take _ r = x, RankReader.receive _ r = y at htake ⊢
    cases htake with
    | error reachable h => exact .error reachable h
    | @ok offset r h =>
      obtain ⟨hoffset, h⟩ := h
      rw [← size_eq_alphabet, size_offsetContext _ hc] at hoffset
      dsimp only at hoffset
      have hpow : 2 ^ (symbol.toNat - 2) ≤ 2 ^ 7 :=
        Nat.pow_le_pow_right (by decide) (Nat.le_of_lt_succ hlast)
      have hshift : ((1 : UInt32) <<< (symbol.toNat - 2).toUInt32).toNat = 2 ^ (symbol.toNat - 2) :=
        RankReader.toNat_shiftLeft_class ⟨symbol.toNat - 2, hlast⟩
      have hrank : (1 : UInt32) <<< (symbol.toNat - 2).toUInt32 + offset < 256 := by
        refine UInt32.lt_iff_toNat_lt.mpr (show _ < 256 from ?_)
        rw [UInt32.toNat_add, hshift]
        omega
      dsimp only
      rw [if_pos hrank]
      exact .require ⟨by omega, by omega, by omega⟩ (.ok h)

/-- A token: its symbol is one of the eleven. -/
def readToken (label : ℕ) : Guarded (RankReader (RangeReader contextCount)) Token := fun r =>
  match nextSymbol r with
  | none => none
  | some (.error failure r) => some (.error failure r)
  | some (.ok symbol r) =>
    if symbol < firstClass then readRun label symbol 0 0 r
    else if symbol = blockEnd then some (.ok .blockEnd r)
    else if symbol < blockEnd then readRank symbol r
    else none

/-- **A token is read as by a guarded reader.** -/
theorem readToken_holds (label : ℕ) (h : Reads size left r) :
    Holds (fun _ r' => Reads size left r') (Reads size left) (readToken label r)
      (RankReader.readToken label r) := by
  have hnext := nextSymbol_holds h
  rw [readToken, RankReader.readToken]
  generalize nextSymbol r = x, r.nextSymbol = y at hnext ⊢
  cases hnext with
  | error reachable h => exact .error reachable h
  | @ok symbol r h =>
    obtain ⟨hsymbol, h⟩ := h
    dsimp only
    by_cases hdigit : symbol < firstClass
    · rw [if_pos hdigit, dif_pos hdigit]
      exact readRun_holds h hsymbol (Nat.le_refl _)
    · rw [if_neg hdigit, dif_neg hdigit]
      by_cases hend : symbol = blockEnd
      · rw [if_pos hend, if_pos hend]
        exact .ok h
      · have hlt : symbol < blockEnd := by
          refine UInt32.lt_iff_toNat_lt.mpr (Nat.lt_of_le_of_ne (Nat.le_of_lt_succ hsymbol) fun heq => ?_)
          exact hend (UInt32.toNat_inj.mp heq)
        rw [if_neg hend, if_neg hend, if_pos hlt, dif_pos hlt]
        exact readRank_holds h (RankReader.two_le_of_not_lt hdigit) _

-- A kept symbol that is none of the eleven fails the last check.
example (coder : RangeReader contextCount) (list : RecencyList) (label : ℕ) :
    readToken label ⟨coder, list, some 11⟩ = none := rfl

/-! ## Blocks -/

/-- The byte of a rank: the place is one of the list, and the bytes before it move up within the list. -/
def decodeByte (list : RecencyList) (rank : UInt8) : Option (UInt8 × RecencyList) :=
  match list.order[rank.toNat]? with
  | none => none
  | some b => require (1 + rank.toNat ≤ 256) <| some (b, list.promote ⟨rank.toNat, rank.toNat_lt⟩)

theorem decodeByte_eq (list : RecencyList) (rank : UInt8) :
    decodeByte list rank = some (list.decode rank) := by
  have hrank : rank.toNat < 256 := rank.toNat_lt
  rw [decodeByte, Vector.getElem?_eq_getElem hrank]
  exact require_eq (by omega) _

/-- A block of bytes: the output grows to a size that fits a word, and bytes come from within the list. -/
def readBlock (limit label : ℕ) : Guarded (RankReader (RangeReader contextCount) × ByteArray) Unit :=
  fun (r, out) =>
    match readToken label r with
    | none => none
    | some (.error failure r) => some (.error failure (r, out))
    | some (.ok .blockEnd r) => some (.ok () (r, out))
    | some (.ok (.run length _) r) =>
      if _h : length ≤ limit - out.size then
        match r.list.order[0]? with
        | none => none
        | some front =>
          require (out.size + length < 2 ^ 64) <| readBlock limit label (r, Buffer.pushMany out front length)
      else some (.error (.corrupt label (.growsPast limit)) (r, out))
    | some (.ok (.rank rank) ⟨coder, list, ahead⟩) =>
      if _h : 1 ≤ limit - out.size then
        match decodeByte list rank with
        | none => none
        | some (b, list) => readBlock limit label (⟨coder, list, ahead⟩, out.push b)
      else some (.error (.corrupt label (.growsPast limit)) (⟨coder, list, ahead⟩, out))
termination_by s => limit - s.2.size
decreasing_by
  · simp only [Buffer.size_pushMany]; omega
  · simp only [ByteArray.size_push]; omega

/-- **A block of bytes is read as by a guarded reader**, and it does not grow past the limit. -/
theorem readBlock_holds {limit : ℕ} (hlimit : limit < 2 ^ 64) (label : ℕ) {out : ByteArray}
    (h : Reads size left r) (hout : out.size ≤ limit) :
    Holds (fun _ s => Reads size left s.1 ∧ s.2.size ≤ limit) (fun s => Reads size left s.1)
      (readBlock limit label (r, out)) (RankReader.readBlock limit label (r, out)) := by
  rw [RankReader.readBlock]
  -- Each token that fits leaves less room.
  induction hroom : limit - out.size using Nat.strongRecOn generalizing r out with
  | ind room ih =>
    have htoken := readToken_holds label h
    rw [readBlock, RankReader.readOnto]
    generalize readToken label r = x, RankReader.readToken label r = y at htoken ⊢
    cases htoken with
    | error reachable h => exact .error reachable h
    | @ok token r h =>
      obtain ⟨coder, list, ahead⟩ := r
      cases token with
      | blockEnd => exact .ok ⟨h, hout⟩
      | run length pos =>
        have hfront : list.order[0]? = some (list.decode 0).1 := Vector.getElem?_eq_getElem _
        dsimp only
        by_cases hfits : length ≤ limit - out.size
        · rw [dif_pos hfits, dif_pos hfits, hfront]
          refine .require (by omega) (ih _ ?_ h ?_ rfl)
          · rw [Buffer.size_pushMany]
            omega
          · rw [Buffer.size_pushMany]
            omega
        · rw [dif_neg hfits, dif_neg hfits]
          exact .error trivial h
      | rank rank =>
        dsimp only
        by_cases hfits : 1 ≤ limit - out.size
        · rw [dif_pos hfits, dif_pos hfits, decodeByte_eq]
          refine ih _ ?_ ⟨h.coder, h.ahead_lt⟩ ?_ rfl
          · rw [ByteArray.size_push]
            omega
          · rw [ByteArray.size_push]
            omega
        · rw [dif_neg hfits, dif_neg hfits]
          exact .error trivial ⟨h.coder, h.ahead_lt⟩

/-! ## Words -/

/-- A number of bytes of a word. -/
def readWordFrom (word : UInt32) : ℕ → Guarded (RankReader (RangeReader contextCount)) UInt32
  | 0 => fun r => some (.ok word r)
  | n + 1 => fun r =>
    match take wordContext r with
    | none => none
    | some (.ok b r) => readWordFrom (word <<< 8 ||| b) n r
    | some (.error failure r) => some (.error failure r)

theorem readWordFrom_holds (word : UInt32) (n : ℕ) (h : Reads size left r) :
    Holds (fun _ r' => Reads size left r') (Reads size left) (readWordFrom word n r)
      (RankReader.readWordFrom word n r) := by
  induction n generalizing word r with
  | zero => exact .ok h
  | succ n ih =>
    have htake := take_holds h wordContext
    rw [readWordFrom, RankReader.readWordFrom]
    dsimp only
    generalize take wordContext r = x, RankReader.receive wordContext r = y at htake ⊢
    cases htake with
    | error reachable h => exact .error reachable h
    | ok h => exact ih _ h.2

/-- A word. -/
def readWord : Guarded (RankReader (RangeReader contextCount)) UInt32 := readWordFrom 0 4

/-- **A word is read as by a guarded reader, and takes a byte of the source.** -/
theorem readWord_holds (h : Reads size left r) :
    Holds (fun _ r' => 0 < left ∧ Reads size (left - 1) r') (Reads size left) (readWord r)
      r.readWord := by
  refine (readWordFrom_holds 0 4 h).mono (fun word r' hread hr' => ?_) fun _ hs => hs
  obtain ⟨coder, list, ahead⟩ := r
  obtain ⟨coder', rfl, hgives⟩ :=
    RankReader.readWord_cases (RangeReader.sound h.coder.context_eq) hread
  have hcontext := (h.coder.context_eq wordContext).trans context_wordContext
  have hlt := RangeReader.remaining_lt_of_gives hcontext hgives
  have hle := h.coder.within.remaining_le
  have hread := hr'.coder
  refine ⟨by omega, ⟨hread.context_eq, hread.opened, hread.within.size_eq, ?_⟩, hr'.ahead_lt⟩
  change coder'.source.remaining ≤ left - 1
  omega

end Guarded

end BlockPress
