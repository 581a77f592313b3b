import BlockPress.Proofs.Rank.Canonical
import BlockPress.Proofs.Rank.Rounds

/-!
# Symbols outside their alphabets

A tape plays whatever was recorded, so a rank reader on a tape may meet symbols that no writer sends
through these contexts.  It refuses a symbol of ranks that is none of the eleven; an offset it refuses only
if the rank that it comes to, in words that wrap, is none; and a byte of a word it never refuses.

Main statement: **whatever was read, the symbols that were played are admitted, and of an offset or a byte
no more is asked** (`Rank.Call.admits`).  So a word may be read from symbols that are no bytes, and a rank
from an offset that its class does not have (`Rank.Call.read_stray`).
-/

namespace BlockPress

namespace Rank

/-- A reader by itself does not refuse the symbol. -/
def Admitted (x : Fin contextCount × UInt32) : Prop :=
  (x.1 = symbolContext → x.2.toNat < symbolCount) ∧
    ∀ c : Fin 8, c.val ≠ 0 → x.1 = offsetContext c → (1 : UInt32) <<< c.val.toUInt32 + x.2 < 256

theorem admitted_symbol {s : UInt32} (h : s.toNat < symbolCount) : Admitted (symbolContext, s) := by
  refine ⟨fun _ => h, fun c hc hcontext => absurd (congrArg Fin.val hcontext) ?_⟩
  exact fun heq => hc heq.symm

theorem admitted_offset {c : Fin 8} (hc : c.val ≠ 0) {s : UInt32}
    (h : (1 : UInt32) <<< c.val.toUInt32 + s < 256) : Admitted (offsetContext c, s) := by
  refine ⟨fun hcontext => absurd (congrArg Fin.val hcontext) hc, fun c' _ hcontext => ?_⟩
  have hsame : c' = c := Fin.ext (congrArg Fin.val hcontext).symm
  exact hsame ▸ h

theorem admitted_word (s : UInt32) : Admitted (wordContext, s) := by
  refine ⟨fun hcontext => absurd (congrArg Fin.val hcontext) (by decide : (8 : ℕ) ≠ 0), ?_⟩
  intro c _ hcontext
  have hlt := c.isLt
  have heq : 8 = c.val := congrArg Fin.val hcontext
  omega

end Rank

namespace RankReader

open Rank

variable {δ : Type} [SymbolReader δ contextCount] {d : δ} {l : RecencyList} {ahead : Option UInt32}
  {label : ℕ} {r : RankReader δ}

theorem admitted_readRank {c : Fin 8} {token : Token}
    (h : readRank label c ⟨d, l, none⟩ = .ok token r) :
    ∃ xs, Gives xs d r.coder ∧ r.ahead = none ∧ ∀ x ∈ xs, Admitted x := by
  rw [readRank] at h
  by_cases hc : c.val = 0
  · rw [if_pos hc] at h
    cases h
    exact ⟨[], .nil d, rfl, List.forall_mem_nil _⟩
  · rw [if_neg hc] at h
    cases hs : receive (offsetContext c) ⟨d, l, none⟩ with
    | error failure e =>
      rw [hs] at h
      cases h
    | ok offset r' =>
      rw [hs] at h
      obtain ⟨e, hreceive, rfl⟩ := receive_cases hs
      dsimp only at h
      split at h
      · next hsmall =>
        cases h
        exact ⟨[(offsetContext c, offset)], .cons hreceive (.nil e), rfl,
          List.forall_mem_singleton.mpr (admitted_offset hc hsmall)⟩
      · cases h

/-- **A token is read from symbols that are admitted**, behind the kept one and before the one that is then
kept. -/
theorem admitted_readToken {token : Token} (h : readToken label ⟨d, l, ahead⟩ = .ok token r) :
    ∃ xs zs, Gives xs d r.coder ∧ keptSymbols ahead ++ xs = zs ++ keptSymbols r.ahead ∧
      (∀ x ∈ zs, Admitted x) ∧ (token = .blockEnd → r.ahead = none) := by
  rw [readToken] at h
  cases hs : nextSymbol ⟨d, l, ahead⟩ with
  | error failure e =>
    rw [hs] at h
    cases h
  | ok symbol r' =>
    rw [hs] at h
    obtain ⟨xs, e, hxs, rfl, hkept, -⟩ := nextSymbol_cases hs
    dsimp only at h
    by_cases hdigit : symbol < firstClass
    · rw [dif_pos hdigit] at h
      obtain ⟨v, n, hn, ys, e', next, -, -, rfl, hys, rfl, hdigits, -⟩ := readRun_cases h
      refine ⟨_, (digits v).map (symbolContext, ·), hxs.append hys, ?_, fun x hx => ?_,
        fun heq => Token.noConfusion heq⟩
      · rw [← List.append_assoc, hkept]
        exact (congrArg (List.map (symbolContext, ·)) hdigits).trans List.map_append
      · obtain ⟨s, hs, rfl⟩ := List.mem_map.mp hx
        exact admitted_symbol ((lt_two_of_mem_digits s hs).trans (by decide))
    · rw [dif_neg hdigit] at h
      by_cases hend : symbol = blockEnd
      · rw [if_pos hend] at h
        cases h
        refine ⟨xs, _, hxs, hkept.trans (List.append_nil _).symm, ?_, fun _ => rfl⟩
        exact List.forall_mem_singleton.mpr (hend ▸ admitted_symbol (by decide))
      · rw [if_neg hend] at h
        by_cases hclass : symbol < blockEnd
        · rw [dif_pos hclass] at h
          have hsymbol : Admitted (symbolContext, symbol) :=
            admitted_symbol (Nat.lt_succ_of_lt (UInt32.lt_iff_toNat_lt.mp hclass))
          obtain ⟨ys, hys, hahead, hadmitted⟩ := admitted_readRank h
          refine ⟨_, (symbolContext, symbol) :: ys, hxs.append hys, ?_,
            List.forall_mem_cons.mpr ⟨hsymbol, hadmitted⟩, fun _ => hahead⟩
          rw [hahead, ← List.append_assoc, hkept]
          exact (List.append_nil _).symm
        · rw [dif_neg hclass] at h
          cases h

/-- **A block is read from symbols that are admitted**, the kept one with them, and no symbol is then
kept. -/
theorem admitted_readOnto {meaning : Meaning} {limit : ℕ} {s t : RankReader δ × ByteArray}
    (h : readOnto meaning limit label s = .ok () t) :
    ∃ xs, Gives xs s.1.coder t.1.coder ∧ t.1.ahead = none ∧
      ∀ x ∈ keptSymbols s.1.ahead ++ xs, Admitted x := by
  obtain ⟨n, -, hends⟩ := ends_readOnto meaning limit label s
  -- Up to each round, all symbols but the one that is kept were admitted.
  have hall := hends.invariant
    (P := fun u => ∃ xs zs, Gives xs s.1.coder u.1.coder ∧
      keptSymbols s.1.ahead ++ xs = zs ++ keptSymbols u.1.ahead ∧ ∀ x ∈ zs, Admitted x)
    (Q := fun x => ∀ u, x = .ok () u → ∃ xs, Gives xs s.1.coder u.1.coder ∧ u.1.ahead = none ∧
      ∀ x ∈ keptSymbols s.1.ahead ++ xs, Admitted x)
    (fun u v hu hround => ?_) (fun u x hu hround v hx => ?_)
    ⟨[], [], .nil _, List.append_nil _, List.forall_mem_nil _⟩
  · exact hall t h
  · obtain ⟨-, -, token, r, htoken, hcoder, hahead⟩ := tokenRound_eq_inl hround
    obtain ⟨xs, zs, hxs, hkept, hzs⟩ := hu
    obtain ⟨ys, zs', hys, hkept', hzs', -⟩ := admitted_readToken htoken
    refine ⟨xs ++ ys, zs ++ zs', hcoder ▸ hxs.append hys, ?_, List.forall_mem_append.mpr ⟨hzs, hzs'⟩⟩
    rw [← List.append_assoc, hkept, List.append_assoc, hkept', hahead, List.append_assoc]
  · obtain ⟨-, -, hlast⟩ := tokenRound_eq_inr hround
    obtain ⟨xs, zs, hxs, hkept, hzs⟩ := hu
    obtain ⟨ys, zs', hys, hkept', hzs', hend⟩ := admitted_readToken (hlast v hx)
    have hahead := hend rfl
    refine ⟨xs ++ ys, hxs.append hys, hahead, ?_⟩
    rw [hahead] at hkept'
    rw [← List.append_assoc, hkept, List.append_assoc, hkept', keptSymbols]
    exact List.forall_mem_append.mpr ⟨hzs, (List.append_nil zs').symm ▸ hzs'⟩

/-- **A word is read from any four symbols** of its context, whether they are bytes or not. -/
theorem readWord_eq_ok_iff {word : UInt32} : readWord ⟨d, l, ahead⟩ = .ok word r ↔
    ∃ a b c x e, Gives [(wordContext, a), (wordContext, b), (wordContext, c), (wordContext, x)] d e ∧
      word = wordOf a b c x ∧ r = ⟨e, l, ahead⟩ := by
  constructor
  · intro h
    obtain ⟨a, d₁, h₁, h⟩ := readWordFrom_succ_cases h
    obtain ⟨b, d₂, h₂, h⟩ := readWordFrom_succ_cases h
    obtain ⟨c, d₃, h₃, h⟩ := readWordFrom_succ_cases h
    obtain ⟨x, d₄, h₄, h⟩ := readWordFrom_succ_cases h
    cases h
    exact ⟨a, b, c, x, d₄, .cons h₁ (.cons h₂ (.cons h₃ (.cons h₄ (.nil d₄)))), rfl, rfl⟩
  · rintro ⟨a, b, c, x, e, h, rfl, rfl⟩
    obtain ⟨d₁, h₁, h⟩ := gives_cons h
    obtain ⟨d₂, h₂, h⟩ := gives_cons h
    obtain ⟨d₃, h₃, h⟩ := gives_cons h
    obtain ⟨d₄, h₄, h⟩ := gives_cons h
    obtain rfl := gives_nil h
    rw [readWord, readWordFrom_succ l h₁, readWordFrom_succ l h₂, readWordFrom_succ l h₃,
      readWordFrom_succ l h₄, readWordFrom, wordOf]

/-- **A rank is read from any offset that comes to one**, in words that wrap. -/
theorem readRanks_offset {c : Fin 8} (hc : c.val ≠ 0) {s : UInt32} {limit : ℕ} (hlimit : 1 ≤ limit)
    (hs : (1 : UInt32) <<< c.val.toUInt32 + s < 256) {e : δ}
    (h : Gives [(symbolContext, classSymbol c), (offsetContext c, s), (symbolContext, blockEnd)] d e) :
    readRanks limit label (⟨d, l, none⟩, .empty) =
      .ok () (⟨e, l, none⟩, ⟨#[((1 : UInt32) <<< c.val.toUInt32 + s).toUInt8]⟩) := by
  have hcomes : Comes _ d none e := h
  obtain ⟨d₁, hclass, hrest⟩ := nextSymbol_eq l hcomes
  obtain ⟨d₂, hoffset, hrest⟩ := gives_cons hrest
  have hcomes' : Comes _ d₂ none e := hrest
  obtain ⟨d₃, hend, hrest⟩ := readToken_blockEnd label l hcomes'
  obtain rfl := gives_nil hrest
  have htoken : readToken label ⟨d, l, none⟩ =
      .ok (.rank ((1 : UInt32) <<< c.val.toUInt32 + s).toUInt8) ⟨d₂, l, none⟩ := by
    rw [readToken_class label l hclass, readRank, if_neg hc, receive_eq l hoffset]
    dsimp only
    rw [if_pos hs]
  rw [readRanks, readOnto, htoken]
  dsimp only
  rw [dif_pos (show 1 ≤ limit - ByteArray.empty.size from hlimit), readOnto, hend]
  rfl

end RankReader

/-! ## Tapes -/

/-- A reader by itself does not refuse the symbol, if it was recorded in a context of a rank stream. -/
def Recorded.Admitted (x : Recorded) : Prop :=
  ∀ c : Fin Rank.contextCount, x.context = c → Rank.Admitted (c, x.symbol)

namespace Rank.Call

theorem admitted_read {δ : Type} [SymbolReader δ contextCount] {call : Call} {item : Item}
    {r r' : RankReader δ} (h : call.read r = .ok item r') :
    ∃ xs, Gives xs r.coder r'.coder ∧ ∀ x ∈ xs, Admitted x := by
  cases call with
  | word =>
    obtain ⟨w, hread, -⟩ := read_word_eq_ok_iff.mp h
    obtain ⟨a, b, c, d, e, hgives, -, rfl⟩ := RankReader.readWord_eq_ok_iff.mp hread
    refine ⟨_, hgives, fun x hx => ?_⟩
    simp only [List.mem_cons, List.not_mem_nil, or_false] at hx
    obtain rfl | rfl | rfl | rfl := hx <;> exact admitted_word _
  | block limit label =>
    obtain ⟨bytes, hread, -⟩ := read_block_eq_ok_iff.mp h
    obtain ⟨xs, hgives, -, hadmitted⟩ := RankReader.admitted_readOnto hread
    exact ⟨xs, hgives, (List.forall_mem_append.mp hadmitted).2⟩
  | ranks limit label =>
    obtain ⟨ranks, hread, -⟩ := read_ranks_eq_ok_iff.mp h
    obtain ⟨xs, hgives, -, hadmitted⟩ := RankReader.admitted_readOnto hread
    exact ⟨xs, hgives, (List.forall_mem_append.mp hadmitted).2⟩

theorem read_ranks_offset {t : TapeReader contextCount} (l : RecencyList) {limit : ℕ} (label : ℕ)
    {c : Fin 8} {s : UInt32} (hlimit : 1 ≤ limit) (hc : c.val ≠ 0)
    (hs : (1 : UInt32) <<< c.val.toUInt32 + s < 256)
    (hnext : [⟨0, classSymbol c⟩, ⟨c, s⟩, ⟨0, 10⟩] <+: t.symbols.toList.drop t.position) :
    read (.ranks limit label) ⟨t, l, none⟩ =
      .ok (.ranks ⟨#[((1 : UInt32) <<< c.val.toUInt32 + s).toUInt8]⟩)
        ⟨{ t with position := t.position + 3 }, l, none⟩ := by
  have hgives : Gives [(symbolContext, classSymbol c), (offsetContext c, s), (symbolContext, blockEnd)]
      t { t with position := t.position + 3 } := TapeReader.gives_iff.mpr ⟨hnext, rfl⟩
  exact read_ranks_eq_ok_iff.mpr ⟨_, RankReader.readRanks_offset hc hlimit hs hgives, rfl⟩

/-- **What is read from a tape was played from symbols that are admitted.  A word is read from any four
symbols of its context, and a rank from any offset that is admitted.** -/
theorem admits (t : TapeReader contextCount) (l : RecencyList) (ahead : Option UInt32) :
    (∀ (call : Call) (item : Item) (r : RankReader (TapeReader contextCount)),
      call.read ⟨t, l, ahead⟩ = .ok item r →
        r.coder = { t with position := t.position + (t.played r.coder).size } ∧
          ∀ x ∈ t.played r.coder, x.Admitted) ∧
    (∀ (w : UInt32) (r : RankReader (TapeReader contextCount)),
      read .word ⟨t, l, ahead⟩ = .ok (.word w) r ↔
        ∃ a b c d, [⟨8, a⟩, ⟨8, b⟩, ⟨8, c⟩, ⟨8, d⟩] <+: t.symbols.toList.drop t.position ∧
          w = RankReader.wordOf a b c d ∧ r = ⟨{ t with position := t.position + 4 }, l, ahead⟩) ∧
    ∀ (limit label : ℕ) (c : Fin 8) (s : UInt32), 1 ≤ limit → c.val ≠ 0 →
      (⟨c, s⟩ : Recorded).Admitted →
        [⟨0, classSymbol c⟩, ⟨c, s⟩, ⟨0, 10⟩] <+: t.symbols.toList.drop t.position →
          read (.ranks limit label) ⟨t, l, none⟩ =
            .ok (.ranks ⟨#[((1 : UInt32) <<< c.val.toUInt32 + s).toUInt8]⟩)
              ⟨{ t with position := t.position + 3 }, l, none⟩ := by
  refine ⟨fun call item r h => ?_, fun w r => ?_, fun limit label c s hlimit hc hs hnext => ?_⟩
  · obtain ⟨xs, hgives, hadmitted⟩ := admitted_read h
    rw [TapeReader.played_eq hgives, List.size_toArray, length_recorded]
    refine ⟨(TapeReader.gives_iff.mp hgives).2, fun x hx c hcontext => ?_⟩
    obtain ⟨y, hy, rfl⟩ := List.mem_map.mp (List.mem_toArray.mp hx)
    obtain rfl : y.1 = c := Fin.ext hcontext
    exact hadmitted y hy
  · constructor
    · intro h
      obtain ⟨w', hread, heq⟩ := read_word_eq_ok_iff.mp h
      obtain ⟨a, b, c, d, e, hgives, rfl, rfl⟩ := RankReader.readWord_eq_ok_iff.mp hread
      obtain ⟨hnext, rfl⟩ := TapeReader.gives_iff.mp hgives
      exact ⟨a, b, c, d, hnext, Item.word.inj heq, rfl⟩
    · rintro ⟨a, b, c, d, hnext, rfl, rfl⟩
      have hgives : Gives [(wordContext, a), (wordContext, b), (wordContext, c), (wordContext, d)] t
          { t with position := t.position + 4 } := TapeReader.gives_iff.mpr ⟨hnext, rfl⟩
      refine read_word_eq_ok_iff.mpr ⟨_, ?_, rfl⟩
      exact RankReader.readWord_eq_ok_iff.mpr ⟨a, b, c, d, _, hgives, rfl, rfl⟩
  · exact read_ranks_offset l label hlimit hc ((hs (offsetContext c) rfl).2 c hc rfl) hnext

/-- The rank 3 from the offset 1 of its class, and all three symbols are admitted. -/
theorem admits_three :
    let t : TapeReader contextCount := { symbols := #[⟨0, 3⟩, ⟨1, 1⟩, ⟨0, 10⟩] }
    ∃ r, read (.ranks 1 0) ⟨t, .fresh, none⟩ = .ok (.ranks ⟨#[3]⟩) r ∧ r.coder.remaining = 0 ∧
      ∀ x ∈ t.played r.coder, x.Admitted := by
  intro t
  have hadmitted : (⟨1, 1⟩ : Recorded).Admitted := by
    rintro c hc
    obtain rfl : c = offsetContext 1 := Fin.ext hc.symm
    exact admitted_offset (by decide) (by decide)
  obtain ⟨hplayed, -, hrank⟩ := admits t .fresh none
  have hread := hrank 1 0 1 1 (Nat.le_refl 1) (by decide) hadmitted (List.prefix_refl _)
  exact ⟨_, hread, rfl, (hplayed _ _ _ hread).2⟩

/-- The word 256 is read from a symbol that is no byte, and the rank 4 from the offset 2, which the class
of 2 and 3 does not have.  The offset `2 ^ 32 - 1` of this class comes to the rank 1. -/
theorem read_stray :
    (∃ r, read .word
        ⟨({ symbols := #[⟨8, 0⟩, ⟨8, 0⟩, ⟨8, 0⟩, ⟨8, 256⟩] } : TapeReader contextCount), .fresh, none⟩ =
          .ok (.word 256) r ∧ r.coder.remaining = 0) ∧
    (∃ r, read (.ranks 1 0)
        ⟨({ symbols := #[⟨0, 3⟩, ⟨1, 2⟩, ⟨0, 10⟩] } : TapeReader contextCount), .fresh, none⟩ =
          .ok (.ranks ⟨#[4]⟩) r ∧ r.coder.remaining = 0) ∧
    (∃ r, read (.ranks 1 0)
        ⟨({ symbols := #[⟨0, 3⟩, ⟨1, 0xFFFFFFFF⟩, ⟨0, 10⟩] } : TapeReader contextCount), .fresh, none⟩ =
          .ok (.ranks ⟨#[1]⟩) r ∧ r.coder.remaining = 0) ∧
    ∀ x ∈ ([⟨8, 256⟩, ⟨1, 2⟩, ⟨1, 0xFFFFFFFF⟩] : List Recorded), ¬x.Coded := by
  have hclass : (1 : Fin 8).val ≠ 0 := by decide
  have hrank (s : UInt32) (hs : (1 : UInt32) <<< (1 : Fin 8).val.toUInt32 + s < 256) :=
    read_ranks_offset (t := { symbols := #[⟨0, 3⟩, ⟨1, s⟩, ⟨0, 10⟩] }) .fresh 0 (Nat.le_refl 1) hclass hs
      (List.prefix_refl _)
  refine ⟨⟨_, rfl, rfl⟩, ⟨_, hrank 2 (by decide), rfl⟩, ⟨_, hrank 0xFFFFFFFF (by decide), rfl⟩, ?_⟩
  unfold Recorded.Coded
  decide

end Rank.Call

end BlockPress
