import BlockPress.Proofs.Guarded.Tape
import BlockPress.Proofs.Rank.Canonical
import BlockPress.Proofs.Recency.History

/-!
# How outputs grow

A block is read onto an output token by token: a token that is read and fits is laid behind the output
and moves the list (`RankReader.Laid`), and the first one that ends the block, cannot be read or does not
fit leaves both as they are (`RankReader.Stops`).  So whatever the symbols are, **the output goes on with
what the tokens before that one stand for** (`RankReader.exists_account`): it keeps its front and grows up
to the limit at most.

Main statement: **blocks of bytes and of ranks are read from any tape with small offsets, without a sum
that overflows, and the output accounts for the tokens** (`RankReader.growth_bounded`).
-/

namespace BlockPress

open Rank

/-- The ranks of a token. -/
def Rank.Token.ranks : Token → List UInt8
  | .run length _ => List.replicate length 0
  | .rank r => [r]
  | .blockEnd => []

namespace RankReader

/-! ## Ranks one after the other -/

namespace Meaning

variable {meaning : Meaning}

theorem length_bytes (meaning : Meaning) (l : RecencyList) (rs : List UInt8) :
    (meaning.bytes l rs).length = rs.length := by
  induction rs generalizing l with
  | nil => rfl
  | cons r rs ih => exact congrArg (· + 1) (ih _)

theorem list_append (meaning : Meaning) (l : RecencyList) (rs rs' : List UInt8) :
    meaning.list l (rs ++ rs') = meaning.list (meaning.list l rs) rs' :=
  List.foldl_append

theorem bytes_append (meaning : Meaning) (l : RecencyList) (rs rs' : List UInt8) :
    meaning.bytes l (rs ++ rs') = meaning.bytes l rs ++ meaning.bytes (meaning.list l rs) rs' := by
  induction rs generalizing l with
  | nil => rfl
  | cons r rs ih => exact congrArg ((meaning l r).1 :: ·) (ih _)

theorem complete_list {l : RecencyList}
    (hmeaning : ∀ l r, RecencyList.Complete l → (meaning l r).2.Complete) (hl : l.Complete)
    (rs : List UInt8) : (meaning.list l rs).Complete := by
  induction rs generalizing l with
  | nil => exact hl
  | cons r rs ih => exact ih (hmeaning l r hl)

/-- What a run stands for: copies of one byte, and the list stays. -/
theorem Still.bytes_run (h : meaning.Still) (l : RecencyList) (n : ℕ) :
    meaning.bytes l (List.replicate n 0) = List.replicate n (meaning l 0).1 := by
  have hzeros := h.bytes_zeros l n []
  rwa [List.append_nil, bytes, List.append_nil] at hzeros

theorem Still.list_run (h : meaning.Still) (l : RecencyList) (n : ℕ) :
    meaning.list l (List.replicate n 0) = l := by
  have hzeros := h.list_zeros l n []
  rwa [List.append_nil] at hzeros

end Meaning

/-! ## Tokens leave the list alone -/

section Tokens

variable {δ : Type} [SymbolReader δ contextCount] {label : ℕ}

theorem list_receive (c : Fin contextCount) (r : RankReader δ) : (leftBy (receive c r)).list = r.list := by
  rw [receive]
  cases SymbolReader.receive c r.coder <;> rfl

theorem list_nextSymbol (r : RankReader δ) : (leftBy (nextSymbol r)).list = r.list := by
  rw [nextSymbol]
  split
  · rfl
  · exact list_receive symbolContext r

theorem list_readRun {symbol : UInt32} {digits length : ℕ} {pos : symbol < firstClass ∨ 0 < length}
    (r : RankReader δ) : (leftBy (readRun label symbol digits length pos r)).list = r.list := by
  induction hroom : maxDigits - digits using Nat.strongRecOn generalizing symbol digits length r with
  | ind room ih =>
    rw [readRun]
    split
    · split
      · have hlist := list_receive symbolContext r
        generalize receive symbolContext r = x at hlist ⊢
        cases x with
        | error f r' => exact hlist
        | ok next r' => exact (ih (maxDigits - (digits + 1)) (by omega) r' rfl).trans hlist
      · rfl
    · rfl

theorem list_readRank (c : Fin 8) (r : RankReader δ) :
    (leftBy (readRank label c r)).list = r.list := by
  rw [readRank]
  dsimp only
  split
  · rfl
  · have hlist := list_receive (offsetContext c) r
    generalize receive (offsetContext c) r = x at hlist ⊢
    cases x with
    | error f r' => exact hlist
    | ok offset r' =>
      dsimp only
      split
      · exact hlist
      · exact hlist

/-- **Reading a token leaves the list alone.** -/
theorem list_readToken (label : ℕ) (r : RankReader δ) : (leftBy (readToken label r)).list = r.list := by
  have hlist := list_nextSymbol r
  rw [readToken]
  generalize nextSymbol r = x at hlist ⊢
  cases x with
  | error f r' => exact hlist
  | ok symbol r' =>
    dsimp only
    split
    · exact (list_readRun r').trans hlist
    · split
      · exact hlist
      · split
        · exact (list_readRank _ r').trans hlist
        · exact hlist

end Tokens

/-! ## Tokens that are laid -/

variable {δ : Type} [SymbolReader δ contextCount] {meaning : Meaning} {limit label : ℕ}
  {s t u : RankReader δ × ByteArray}

/-- A token is read and laid onto the output: it is not the end of the block, it fits, and only then
what it stands for comes behind the output and its ranks move the list. -/
structure Laid (meaning : Meaning) (limit label : ℕ) (token : Token) (s t : RankReader δ × ByteArray) :
    Prop where
  /-- The token is read. -/
  read : readToken label s.1 = .ok token { t.1 with list := s.1.list }
  /-- It is not the end of the block. -/
  ne_blockEnd : token ≠ .blockEnd
  /-- It fits. -/
  fits : token.ranks.length ≤ limit - s.2.size
  /-- The output goes on with what it stands for. -/
  out_eq : t.2.data.toList = s.2.data.toList ++ meaning.bytes s.1.list token.ranks
  /-- Its ranks move the list. -/
  list_eq : t.1.list = meaning.list s.1.list token.ranks

/-- Tokens are laid one after the other. -/
inductive Lays (meaning : Meaning) (limit label : ℕ) :
    List Token → RankReader δ × ByteArray → RankReader δ × ByteArray → Prop where
  /-- No token. -/
  | nil (s : RankReader δ × ByteArray) : Lays meaning limit label [] s s
  /-- A token and more of them. -/
  | cons {token : Token} {tokens : List Token} {s t u : RankReader δ × ByteArray}
    (h : Laid meaning limit label token s t) (rest : Lays meaning limit label tokens t u) :
    Lays meaning limit label (token :: tokens) s u

/-- The next token is the last one, and the output stays as it is. -/
inductive Stops (limit label : ℕ) (s : RankReader δ × ByteArray) :
    EStateM.Result Failure (RankReader δ × ByteArray) Unit → Prop where
  /-- The block ends. -/
  | blockEnd {r : RankReader δ} (h : readToken label s.1 = .ok .blockEnd r) :
    Stops limit label s (.ok () (r, s.2))
  /-- The token cannot be read. -/
  | failure {f : Failure} {r : RankReader δ} (h : readToken label s.1 = .error f r) :
    Stops limit label s (.error f (r, s.2))
  /-- The token does not fit. -/
  | noRoom {token : Token} {r : RankReader δ} (h : readToken label s.1 = .ok token r)
    (hroom : limit - s.2.size < token.ranks.length) :
    Stops limit label s (.error (.corrupt label (.growsPast limit)) (r, s.2))

/-- A round that goes on lays a token. -/
theorem exists_laid (hstill : meaning.Still) (h : tokenRound meaning limit label s = .inl t) :
    ∃ token, Laid meaning limit label token s t := by
  obtain ⟨r, out⟩ := s
  have hlist := list_readToken label r
  rw [tokenRound] at h
  cases htoken : readToken label r with
  | error f r' =>
    rw [htoken] at h
    cases h
  | ok token r' =>
    rw [htoken] at h hlist
    obtain ⟨coder, list, ahead⟩ := r'
    obtain rfl : list = r.list := hlist
    cases token with
    | blockEnd => cases h
    | run length pos =>
      dsimp only at h
      split at h
      · next hfits =>
        cases h
        refine ⟨.run length pos, htoken, fun hend => ?_, List.length_replicate.trans_le hfits, ?_, ?_⟩
        · cases hend
        · rw [Buffer.toList_pushMany, Token.ranks, hstill.bytes_run]
        · rw [Token.ranks, hstill.list_run]
      · cases h
    | rank rank =>
      dsimp only at h
      split at h
      · next hfits =>
        cases h
        refine ⟨.rank rank, htoken, fun hend => ?_, hfits, ?_, rfl⟩
        · cases hend
        · rw [ByteArray.data_push, Array.toList_push]
          rfl
      · cases h

/-- A round that does not go on stops at its token. -/
theorem stops_of_tokenRound {x : EStateM.Result Failure (RankReader δ × ByteArray) Unit}
    (h : tokenRound meaning limit label s = .inr x) : Stops limit label s x := by
  obtain ⟨r, out⟩ := s
  rw [tokenRound] at h
  cases htoken : readToken label r with
  | error f r' =>
    rw [htoken] at h
    cases h
    exact .failure htoken
  | ok token r' =>
    rw [htoken] at h
    obtain ⟨coder, list, ahead⟩ := r'
    cases token with
    | blockEnd =>
      cases h
      exact .blockEnd htoken
    | run length pos =>
      dsimp only at h
      split at h
      · cases h
      · next hfits =>
        cases h
        exact .noRoom htoken ((Nat.not_le.mp hfits).trans_eq List.length_replicate.symm)
    | rank rank =>
      dsimp only at h
      split at h
      · cases h
      · next hfits =>
        cases h
        exact .noRoom htoken (Nat.not_le.mp hfits)

theorem Stops.leftBy_eq {x : EStateM.Result Failure (RankReader δ × ByteArray) Unit}
    (h : Stops limit label s x) : (leftBy x).1.list = s.1.list ∧ (leftBy x).2 = s.2 := by
  have hlist := list_readToken label s.1
  cases h with
  | blockEnd h => exact ⟨(h ▸ hlist :), rfl⟩
  | failure h => exact ⟨(h ▸ hlist :), rfl⟩
  | noRoom h hroom => exact ⟨(h ▸ hlist :), rfl⟩

/-! ## Runs -/

theorem Laid.size_le {token : Token} (h : Laid meaning limit label token s t) :
    t.2.size ≤ max limit s.2.size := by
  have hout := congrArg List.length h.out_eq
  have hfits := h.fits
  rw [List.length_append, Meaning.length_bytes, Array.length_toList, Array.length_toList] at hout
  change t.2.size = s.2.size + _ at hout
  omega

theorem Lays.size_le {tokens : List Token} (h : Lays meaning limit label tokens s t) :
    t.2.size ≤ max limit s.2.size := by
  induction h with
  | nil s => exact Nat.le_max_right _ _
  | cons h rest ih =>
    have hle := h.size_le
    omega

theorem Lays.list_eq {tokens : List Token} (h : Lays meaning limit label tokens s t) :
    t.1.list = meaning.list s.1.list (tokens.flatMap Token.ranks) := by
  induction h with
  | nil s => rfl
  | cons h rest ih => rw [ih, List.flatMap_cons, Meaning.list_append, h.list_eq]

theorem Lays.out_eq {tokens : List Token} (h : Lays meaning limit label tokens s t) :
    t.2.data.toList =
      s.2.data.toList ++ meaning.bytes s.1.list (tokens.flatMap Token.ranks) := by
  induction h with
  | nil s => exact (List.append_nil _).symm
  | cons h rest ih =>
    rw [ih, h.out_eq, h.list_eq, List.flatMap_cons, Meaning.bytes_append, List.append_assoc]

/-- The rounds of a loop lay tokens up to the last one. -/
theorem exists_lays_of_ends (hstill : meaning.Still) {n : ℕ}
    {x : EStateM.Result Failure (RankReader δ × ByteArray) Unit}
    (h : Ends (tokenRound meaning limit label) n s x) :
    ∃ tokens t, Lays meaning limit label tokens s t ∧ Stops limit label t x := by
  induction h with
  | last hround => exact ⟨[], _, .nil _, stops_of_tokenRound hround⟩
  | again hround rest ih =>
    obtain ⟨token, hlaid⟩ := exists_laid hstill hround
    obtain ⟨tokens, t, hlays, hstops⟩ := ih
    exact ⟨token :: tokens, t, .cons hlaid hlays, hstops⟩

/-- What reading a block onto an output came to is accounted for by some tokens. -/
structure Account (meaning : Meaning) (limit label : ℕ) (tokens : List Token)
    (s : RankReader δ × ByteArray) (x : EStateM.Result Failure (RankReader δ × ByteArray) Unit) :
    Prop where
  /-- The tokens were read and fit, and the next one was the last. -/
  lays : ∃ t, Lays meaning limit label tokens s t ∧ Stops limit label t x
  /-- The output goes on with what they stand for. -/
  out_eq : (leftBy x).2.data.toList =
    s.2.data.toList ++ meaning.bytes s.1.list (tokens.flatMap Token.ranks)
  /-- The list is where their ranks move it. -/
  list_eq : (leftBy x).1.list = meaning.list s.1.list (tokens.flatMap Token.ranks)
  /-- The output does not grow past the limit. -/
  size_le : (leftBy x).2.size ≤ max limit s.2.size

/-- **Every reading of a block is accounted for by its tokens.** -/
theorem exists_account (hstill : meaning.Still) (limit label : ℕ) (s : RankReader δ × ByteArray) :
    ∃ tokens, Account meaning limit label tokens s (readOnto meaning limit label s) := by
  obtain ⟨n, -, hends⟩ := ends_readOnto meaning limit label s
  obtain ⟨tokens, t, hlays, hstops⟩ := exists_lays_of_ends hstill hends
  obtain ⟨hlist, hout⟩ := hstops.leftBy_eq
  exact ⟨tokens, ⟨t, hlays, hstops⟩, hout ▸ hlays.out_eq, hlist.trans hlays.list_eq,
    hout ▸ hlays.size_le⟩

/-! ## Blocks from tapes -/

/-- **Outputs grow by whole tokens up to the limit, whatever a tape holds.**  If its offsets are below
`2 ^ 31`, then blocks of bytes and of ranks are read onto any output without a sum that overflows and
with a place of the list for each rank.  The output goes on with what the tokens before the last one
stand for, be that one the end of the block, one that cannot be read or one that does not fit; it is
then no longer than the limit, or than it was.  The list is where those tokens move it, and has lost no
byte. -/
theorem growth_bounded {t : TapeReader contextCount} (hoffsets : t.SmallOffsets) {limit : ℕ}
    (hlimit : limit < 2 ^ 64) (label : ℕ) (out : ByteArray) {l : RecencyList}
    (hl : l.order.toList.Perm RecencyList.fresh.order.toList) (ahead : Option UInt32) :
    (∃ x tokens, Guarded.Tape.readBlock limit label (⟨t, l, ahead⟩, out) = some x ∧
      readBlock limit label (⟨t, l, ahead⟩, out) = x ∧
      Account RecencyList.decode limit label tokens (⟨t, l, ahead⟩, out) x ∧
      (leftBy x).1.list.order.toList.Perm RecencyList.fresh.order.toList) ∧
    ∃ x tokens, Guarded.Tape.readRanks limit label (⟨t, l, ahead⟩, out) = some x ∧
      readRanks limit label (⟨t, l, ahead⟩, out) = x ∧
      Account (fun list rank => (rank, list)) limit label tokens (⟨t, l, ahead⟩, out) x ∧
      (leftBy x).2.data.toList = out.data.toList ++ tokens.flatMap Token.ranks ∧
      (leftBy x).1.list = l := by
  constructor
  · obtain ⟨tokens, haccount⟩ := exists_account still_decode limit label (⟨t, l, ahead⟩, out)
    refine ⟨_, tokens, Guarded.Tape.readBlock_eq hlimit label hoffsets out, rfl, haccount, ?_⟩
    have hlist := haccount.list_eq
    have hcomplete : l.Complete := RecencyList.complete_iff_perm.mpr hl
    refine RecencyList.complete_iff_perm.mp ?_
    rw [readBlock, hlist]
    exact Meaning.complete_list (fun _ r hl => hl.decode r) hcomplete _
  · have hstill : Meaning.Still fun list rank => (rank, list) := fun _ => rfl
    obtain ⟨tokens, haccount⟩ := exists_account hstill limit label (⟨t, l, ahead⟩, out)
    obtain ⟨hbytes, hlist⟩ := itself_eq l (tokens.flatMap Token.ranks)
    refine ⟨_, tokens, Guarded.Tape.readRanks_eq hlimit label hoffsets out, rfl, haccount, ?_, ?_⟩
    · exact haccount.out_eq.trans (congrArg (out.data.toList ++ ·) hbytes)
    · exact haccount.list_eq.trans hlist

/-- The byte of rank 1 comes behind the output and to the front of the list.  The run of six that follows
does not fit into three bytes, and nothing comes of it. -/
theorem growth_bounded_six :
    let t : TapeReader contextCount := { symbols := #[⟨0, 2⟩, ⟨0, 1⟩, ⟨0, 1⟩, ⟨0, 2⟩] }
    t.SmallOffsets ∧ ∃ x tokens, Guarded.Tape.readBlock 3 5 (⟨t, .fresh, none⟩, ⟨#[7]⟩) = some x ∧
      Account RecencyList.decode 3 5 tokens (⟨t, .fresh, none⟩, ⟨#[7]⟩) x ∧
      (leftBy x).2.data.toList = [7, 1] ∧ (leftBy x).1.list.front = 1 := by
  intro t
  have hoffsets : t.SmallOffsets := by
    unfold TapeReader.SmallOffsets
    decide
  have hlimit : 3 < 2 ^ 64 := by decide
  obtain ⟨x, tokens, hguarded, rfl, haccount, -⟩ :=
    (growth_bounded hoffsets hlimit 5 ⟨#[7]⟩ (.refl _) none).1
  exact ⟨hoffsets, _, tokens, hguarded, haccount, by decide +kernel, by decide +kernel⟩

end RankReader

end BlockPress
