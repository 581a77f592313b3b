import BlockPress.Block.Reader
import BlockPress.Proofs.Runs

/-!
# The rounds of a reader

The loops of a rank reader are taken apart into their rounds, and each of them comes to an end: the
digits of a run after 41 symbols at most (`RankReader.ends_readRun`), the tokens of a block after one
for each byte that still fits and one more (`RankReader.ends_readOnto`).

Main statement: **a reader uses its coder only to ask for symbols**, finitely many in each call
(`BlockReader.reaches_read`), so what is known of any list of symbols is known of a call.
-/

namespace BlockPress

open Rank

variable {δ : Type}

namespace RankReader

/-! ## Loops -/

/-- The state of a loop that reads the digits of a run. -/
structure Digits (δ : Type) where
  /-- The symbol that comes next. -/
  symbol : UInt32
  /-- The number of digits before it. -/
  digits : ℕ
  /-- Their value. -/
  length : ℕ
  /-- The run is not empty. -/
  pos : symbol < firstClass ∨ 0 < length
  /-- The reader, behind the symbol. -/
  reader : RankReader δ

/-- A run that is over is not empty. -/
theorem length_pos {symbol : UInt32} {length : ℕ} (pos : symbol < firstClass ∨ 0 < length)
    (h : ¬ symbol < firstClass) : 0 < length :=
  pos.resolve_left h

variable [SymbolReader δ contextCount]

/-- What the loop over the digits comes to. -/
def Digits.read (label : ℕ) (s : Digits δ) : EStateM.Result Failure (RankReader δ) Token :=
  readRun label s.symbol s.digits s.length s.pos s.reader

/-- A round of the loop over the digits of a run. -/
def digitRound (label : ℕ) : Digits δ → Digits δ ⊕ EStateM.Result Failure (RankReader δ) Token
  | ⟨symbol, digits, length, pos, r⟩ =>
    if h : symbol < firstClass then
      if digits < maxDigits then
        match receive symbolContext r with
        | .ok next r =>
          have hpos : 0 < length + (symbol.toNat + 1) <<< digits :=
            Nat.add_pos_right _ (Nat.shiftLeft_eq _ _ ▸ Nat.mul_pos (Nat.succ_pos _) (Nat.two_pow_pos _))
          .inl ⟨next, digits + 1, length + (symbol.toNat + 1) <<< digits, .inr hpos, r⟩
        | .error failure r => .inr (.error failure r)
      else .inr (.error (.corrupt label .runTooLong) r)
    else .inr (.ok (.run length (length_pos pos h)) { r with ahead := some symbol })

/-- A round that goes on takes a symbol and counts a digit. -/
theorem digitRound_eq_inl {label : ℕ} {s t : Digits δ} (h : digitRound label s = .inl t) :
    s.digits < maxDigits ∧ t.digits = s.digits + 1 ∧ s.read label = t.read label ∧
      ∃ next, receive symbolContext s.reader = .ok next t.reader := by
  obtain ⟨symbol, digits, length, pos, r⟩ := s
  rw [digitRound] at h
  split at h
  · next hdigit =>
    split at h
    · next hlt =>
      cases hreceive : receive symbolContext r with
      | ok next r' =>
        rw [hreceive] at h
        cases h
        refine ⟨hlt, rfl, ?_, next, rfl⟩
        rw [Digits.read, readRun]
        dsimp only
        rw [dif_pos hdigit, if_pos hlt, hreceive]
        rfl
      | error f r' =>
        rw [hreceive] at h
        cases h
    · cases h
  · cases h

/-- A round that ends the loop gives its result, and may have taken a symbol. -/
theorem digitRound_eq_inr {label : ℕ} {s : Digits δ} {x : EStateM.Result Failure (RankReader δ) Token}
    (h : digitRound label s = .inr x) : s.read label = x ∧
      ((leftBy x).coder = s.reader.coder ∨ leftBy x = leftBy (receive symbolContext s.reader)) := by
  obtain ⟨symbol, digits, length, pos, r⟩ := s
  rw [digitRound] at h
  rw [Digits.read, readRun]
  dsimp only
  split at h
  · next hdigit =>
    rw [dif_pos hdigit]
    split at h
    · next hlt =>
      rw [if_pos hlt]
      cases hreceive : receive symbolContext r with
      | ok next r' =>
        rw [hreceive] at h
        cases h
      | error f r' =>
        rw [hreceive] at h
        cases h
        exact ⟨rfl, .inr rfl⟩
    · next hge =>
      rw [if_neg hge]
      cases h
      exact ⟨rfl, .inl rfl⟩
  · next hclass =>
    rw [dif_neg hclass]
    cases h
    exact ⟨rfl, .inl rfl⟩

/-- **The digits of a run come to an end.** -/
theorem ends_readRun (label : ℕ) (s : Digits δ) :
    ∃ n ≤ maxDigits - s.digits + 1, Ends (digitRound label) n s (s.read label) := by
  refine Ends.of_decreasing (fun s => maxDigits - s.digits) (fun s t h => ?_) (fun s x h => ?_) s
  · obtain ⟨hlt, hdigits, hread, -⟩ := digitRound_eq_inl h
    exact ⟨hread, by omega⟩
  · exact (digitRound_eq_inr h).1

/-- A round of the loop over the tokens of a block. -/
def tokenRound (meaning : Meaning) (limit label : ℕ) : RankReader δ × ByteArray →
    RankReader δ × ByteArray ⊕ EStateM.Result Failure (RankReader δ × ByteArray) Unit
  | (r, out) =>
    match readToken label r with
    | .error failure r => .inr (.error failure (r, out))
    | .ok .blockEnd r => .inr (.ok () (r, out))
    | .ok (.run length _) r =>
      if length ≤ limit - out.size then .inl (r, Buffer.pushMany out (meaning r.list 0).1 length)
      else .inr (.error (.corrupt label (.growsPast limit)) (r, out))
    | .ok (.rank rank) ⟨coder, list, ahead⟩ =>
      if 1 ≤ limit - out.size then
        let (b, list) := meaning list rank
        .inl (⟨coder, list, ahead⟩, out.push b)
      else .inr (.error (.corrupt label (.growsPast limit)) (⟨coder, list, ahead⟩, out))

/-- A round that goes on reads a token that fits, which takes room. -/
theorem tokenRound_eq_inl {meaning : Meaning} {limit label : ℕ} {s t : RankReader δ × ByteArray}
    (h : tokenRound meaning limit label s = .inl t) :
    readOnto meaning limit label s = readOnto meaning limit label t ∧
      (s.2.size < t.2.size ∧ t.2.size ≤ limit) ∧ ∃ token r, readToken label s.1 = .ok token r ∧
        t.1.coder = r.coder ∧ t.1.ahead = r.ahead := by
  obtain ⟨r, out⟩ := s
  rw [tokenRound] at h
  rw [readOnto]
  dsimp only
  cases htoken : readToken label r with
  | error f r' =>
    rw [htoken] at h
    cases h
  | ok token r' =>
    rw [htoken] at h
    obtain ⟨coder, list, ahead⟩ := r'
    cases token with
    | blockEnd => cases h
    | run length pos =>
      dsimp only at h ⊢
      split at h
      · next hfits =>
        cases h
        rw [dif_pos hfits, Buffer.size_pushMany]
        exact ⟨rfl, ⟨by omega, by omega⟩, _, _, rfl, rfl, rfl⟩
      · cases h
    | rank rank =>
      dsimp only at h ⊢
      split at h
      · next hfits =>
        cases h
        rw [dif_pos hfits, ByteArray.size_push]
        exact ⟨rfl, ⟨by omega, by omega⟩, _, _, rfl, rfl, rfl⟩
      · cases h

/-- A round that ends the loop reads a token and gives the result, with the output as it is; if that is a
success, the token was the end of the block. -/
theorem tokenRound_eq_inr {meaning : Meaning} {limit label : ℕ} {s : RankReader δ × ByteArray}
    {x : EStateM.Result Failure (RankReader δ × ByteArray) Unit}
    (h : tokenRound meaning limit label s = .inr x) :
    readOnto meaning limit label s = x ∧ leftBy x = (leftBy (readToken label s.1), s.2) ∧
      ∀ t, x = .ok () t → readToken label s.1 = .ok .blockEnd t.1 := by
  obtain ⟨r, out⟩ := s
  rw [tokenRound] at h
  rw [readOnto]
  dsimp only
  cases htoken : readToken label r with
  | error f r' =>
    rw [htoken] at h
    cases h
    refine ⟨rfl, rfl, fun t ht => ?_⟩
    cases ht
  | ok token r' =>
    rw [htoken] at h
    obtain ⟨coder, list, ahead⟩ := r'
    cases token with
    | blockEnd =>
      cases h
      refine ⟨rfl, rfl, fun t ht => ?_⟩
      cases ht
      rfl
    | run length pos =>
      dsimp only at h ⊢
      split at h
      · cases h
      · next hfits =>
        cases h
        rw [dif_neg hfits]
        refine ⟨rfl, rfl, fun t ht => ?_⟩
        cases ht
    | rank rank =>
      dsimp only at h ⊢
      split at h
      · cases h
      · next hfits =>
        cases h
        rw [dif_neg hfits]
        refine ⟨rfl, rfl, fun t ht => ?_⟩
        cases ht

/-- **The tokens of a block come to an end.** -/
theorem ends_readOnto (meaning : Meaning) (limit label : ℕ) (s : RankReader δ × ByteArray) :
    ∃ n ≤ limit - s.2.size + 1,
      Ends (tokenRound meaning limit label) n s (readOnto meaning limit label s) := by
  refine Ends.of_decreasing (fun s => limit - s.2.size) (fun s t h => ?_) (fun s x h => ?_) s
  · obtain ⟨hread, ⟨hlt, hle⟩, -⟩ := tokenRound_eq_inl h
    exact ⟨hread, by omega⟩
  · exact (tokenRound_eq_inr h).1

/-- **The output does not grow past the limit**, also where the reading fails. -/
theorem size_readOnto_le (meaning : Meaning) {limit : ℕ} (label : ℕ) {s : RankReader δ × ByteArray}
    (h : s.2.size ≤ limit) : (leftBy (readOnto meaning limit label s)).2.size ≤ limit := by
  obtain ⟨n, -, hends⟩ := ends_readOnto meaning limit label s
  refine hends.invariant (P := fun t => t.2.size ≤ limit) (Q := fun x => (leftBy x).2.size ≤ limit)
    (fun t u _ hround => ?_) (fun t x ht hround => ?_) h
  · obtain ⟨-, ⟨-, hle⟩, -⟩ := tokenRound_eq_inl hround
    exact hle
  · obtain ⟨-, hleft, -⟩ := tokenRound_eq_inr hround
    rwa [hleft]

end RankReader

/-! ## Symbols that are asked for -/

section Reaching

variable [SymbolReader δ contextCount]

/-- The second coder is what is left of the first when some symbols are asked for. -/
def Reaches (d d' : δ) : Prop := ∃ cs : List (Fin contextCount), d' = after cs d

theorem Reaches.refl (d : δ) : Reaches d d := ⟨[], rfl⟩

theorem Reaches.trans {d d' d'' : δ} (h : Reaches d d') (h' : Reaches d' d'') : Reaches d d'' := by
  obtain ⟨cs, rfl⟩ := h
  obtain ⟨cs', rfl⟩ := h'
  exact ⟨cs ++ cs', (after_append cs cs' d).symm⟩

namespace RankReader

theorem reaches_receive (c : Fin contextCount) (r : RankReader δ) :
    Reaches r.coder (leftBy (receive c r)).coder := by
  obtain ⟨coder, list, ahead⟩ := r
  refine ⟨[c], ?_⟩
  rw [receive, after, after]
  cases SymbolReader.receive c coder with
  | ok symbol d => rfl
  | error f d => rfl

theorem reaches_nextSymbol (r : RankReader δ) : Reaches r.coder (leftBy (nextSymbol r)).coder := by
  obtain ⟨coder, list, ahead⟩ := r
  cases ahead with
  | some symbol => exact .refl coder
  | none => exact reaches_receive symbolContext _

theorem reaches_readRun (label : ℕ) (s : Digits δ) :
    Reaches s.reader.coder (leftBy (s.read label)).coder := by
  obtain ⟨n, -, hends⟩ := ends_readRun label s
  refine hends.invariant (P := fun t => Reaches s.reader.coder t.reader.coder)
    (Q := fun x => Reaches s.reader.coder (leftBy x).coder) (fun t u ht h => ?_) (fun t x ht h => ?_)
    (.refl _)
  · obtain ⟨-, -, -, next, hreceive⟩ := digitRound_eq_inl h
    have hreaches := reaches_receive symbolContext t.reader
    rw [hreceive] at hreaches
    exact ht.trans hreaches
  · obtain ⟨-, heq | heq⟩ := digitRound_eq_inr h
    · exact heq ▸ ht
    · exact ht.trans (heq ▸ reaches_receive symbolContext t.reader)

theorem reaches_readRank (label : ℕ) (c : Fin 8) (r : RankReader δ) :
    Reaches r.coder (leftBy (readRank label c r)).coder := by
  have hreaches := reaches_receive (offsetContext c) r
  rw [readRank]
  dsimp only
  split
  · exact .refl _
  · cases hreceive : receive (offsetContext c) r with
    | error f r' =>
      rw [hreceive] at hreaches
      exact hreaches
    | ok offset r' =>
      rw [hreceive] at hreaches
      dsimp only
      split
      · exact hreaches
      · exact hreaches

theorem reaches_readToken (label : ℕ) (r : RankReader δ) :
    Reaches r.coder (leftBy (readToken label r)).coder := by
  have hreaches := reaches_nextSymbol r
  rw [readToken]
  generalize nextSymbol r = x at hreaches ⊢
  cases x with
  | error f r' => exact hreaches
  | ok symbol r' =>
    dsimp only
    split
    · next hdigit => exact hreaches.trans (reaches_readRun label ⟨symbol, 0, 0, .inl hdigit, r'⟩)
    · split
      · exact hreaches
      · split
        · exact hreaches.trans (reaches_readRank label _ r')
        · exact hreaches

theorem reaches_readOnto (meaning : Meaning) (limit label : ℕ) (s : RankReader δ × ByteArray) :
    Reaches s.1.coder (leftBy (readOnto meaning limit label s)).1.coder := by
  obtain ⟨n, -, hends⟩ := ends_readOnto meaning limit label s
  refine hends.invariant (P := fun t => Reaches s.1.coder t.1.coder)
    (Q := fun x => Reaches s.1.coder (leftBy x).1.coder) (fun t u ht h => ?_) (fun t x ht h => ?_)
    (.refl _)
  · obtain ⟨-, -, token, r, htoken, hcoder, -⟩ := tokenRound_eq_inl h
    have hreaches := reaches_readToken label t.1
    rw [htoken] at hreaches
    exact ht.trans (hcoder ▸ hreaches)
  · obtain ⟨-, hleft, -⟩ := tokenRound_eq_inr h
    rw [hleft]
    exact ht.trans (reaches_readToken label t.1)

theorem reaches_readWordFrom (word : UInt32) (n : ℕ) (r : RankReader δ) :
    Reaches r.coder (leftBy (readWordFrom word n r)).coder := by
  induction n generalizing word r with
  | zero => exact .refl _
  | succ n ih =>
    have hreaches := reaches_receive wordContext r
    rw [readWordFrom]
    dsimp only
    cases hreceive : receive wordContext r with
    | error f r' =>
      rw [hreceive] at hreaches
      exact hreaches
    | ok b r' =>
      rw [hreceive] at hreaches
      exact hreaches.trans (ih _ r')

end RankReader

namespace BlockReader

theorem reaches_readBytes (config : Config) (label : ℕ) (origin : UInt32) (r : RankReader δ) :
    Reaches r.coder (leftBy (readBytes config label origin r)).coder := by
  have hreaches := RankReader.reaches_readOnto RecencyList.decode config.blockSize label (r, .empty)
  rw [readBytes, RankReader.readBlock]
  generalize RankReader.readOnto _ _ _ (r, ByteArray.empty) = x at hreaches ⊢
  cases x with
  | error f s => exact hreaches
  | ok _ s =>
    dsimp only
    split
    · exact hreaches
    · split
      · exact hreaches
      · exact hreaches

variable [BlockHash]

theorem reaches_readChecksum (config : Config) (label : ℕ) (block : ByteArray) (r : RankReader δ) :
    Reaches r.coder (leftBy (readChecksum config label block r)).coder := by
  have hreaches := RankReader.reaches_readWordFrom 0 4 r
  rw [readChecksum, RankReader.readWord]
  dsimp only
  split
  · generalize RankReader.readWordFrom _ _ r = x at hreaches ⊢
    cases x with
    | error f r' => exact hreaches
    | ok expected r' =>
      dsimp only
      split
      · exact hreaches
      · exact hreaches
  · exact .refl _

/-- **A call for a block asks its coder for symbols and does nothing else with it.** -/
theorem reaches_read (s : BlockReader δ × ByteArray) :
    Reaches s.1.ranks.coder (leftBy (read s)).1.ranks.coder := by
  obtain ⟨⟨ranks, config, blocks, finished⟩, buffer⟩ := s
  rw [read]
  split
  · exact .refl _
  split
  · exact .refl _
  have hword := RankReader.reaches_readWordFrom 0 4 ranks
  rw [RankReader.readWord]
  generalize RankReader.readWordFrom _ _ ranks = x at hword ⊢
  cases x with
  | error f r₁ => exact hword
  | ok origin r₁ =>
    dsimp only
    split
    · exact hword
    have hbytes := hword.trans (reaches_readBytes config blocks origin r₁)
    generalize readBytes _ _ _ r₁ = x at hbytes ⊢
    cases x with
    | error f r₂ => exact hbytes
    | ok block r₂ =>
      have hchecksum := hbytes.trans (reaches_readChecksum config blocks block r₂)
      dsimp only
      generalize readChecksum _ _ _ r₂ = x at hchecksum ⊢
      cases x with
      | error f r₃ => exact hchecksum
      | ok _ r₃ => exact hchecksum

end BlockReader

end Reaching

end BlockPress
