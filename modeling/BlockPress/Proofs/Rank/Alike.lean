import BlockPress.Proofs.Device.Alike
import BlockPress.Rank.Reader

/-!
# Rank readers over two coders

A rank reader looks at its coder only to receive symbols.  So over coders that give symbols alike,
**blocks of ranks are read alike** (`RankReader.alike_readOnto`), and so are words.
-/

namespace BlockPress.RankReader

open Rank

/-- The two readers differ in their coders only. -/
inductive Abreast {δ : Type} (rel : δ → δ → Prop) : RankReader δ → RankReader δ → Prop where
  /-- The readers with this list and this symbol ahead. -/
  | mk {d d' : δ} (list : RecencyList) (ahead : Option UInt32) (coders : rel d d') :
    Abreast rel ⟨d, list, ahead⟩ ⟨d', list, ahead⟩

section

variable {δ : Type} [SymbolReader δ contextCount] {s₀ s₁ : Source} {rel : δ → δ → Prop}
  (hrel : ∀ (c : Fin contextCount) (d d' : δ), rel d d' →
    Alike s₀ s₁ Eq rel (SymbolReader.receive c d) (SymbolReader.receive c d'))
  {r r' : RankReader δ}

include hrel

theorem alike_receive (c : Fin contextCount) (h : Abreast rel r r') :
    Alike s₀ s₁ Eq (Abreast rel) (receive c r) (receive c r') := by
  obtain @⟨d, d', list, ahead, hd⟩ := h
  have hreceive := hrel c d d' hd
  rw [receive, receive]
  generalize SymbolReader.receive c d = x, SymbolReader.receive c d' = x' at hreceive ⊢
  apply hreceive.andThen (g := fun d => ⟨d, list, ahead⟩) (fun _ _ h => .mk _ _ h)
  · exact fun _ _ => ⟨rfl, rfl⟩
  · exact fun _ _ _ _ hs hd => .ok hs (.mk _ _ hd)

theorem alike_nextSymbol (h : Abreast rel r r') :
    Alike s₀ s₁ Eq (Abreast rel) (nextSymbol r) (nextSymbol r') := by
  have hreceive := alike_receive hrel symbolContext h
  obtain @⟨d, d', list, ahead, hd⟩ := h
  cases ahead with
  | none => exact hreceive
  | some symbol => exact .ok rfl (.mk _ _ hd)

theorem alike_readRun (label : Nat) {symbol : UInt32} {digits length : Nat}
    (pos : symbol < firstClass ∨ 0 < length) (h : Abreast rel r r') :
    Alike s₀ s₁ Eq (Abreast rel) (readRun label symbol digits length pos r)
      (readRun label symbol digits length pos r') := by
  induction hn : maxDigits - digits generalizing symbol digits length r r' with
  | zero =>
    rw [readRun, readRun]
    by_cases hlt : symbol < firstClass
    · rw [dif_pos hlt, dif_pos hlt, if_neg (by omega), if_neg (by omega)]
      exact .fault trivial h
    · rw [dif_neg hlt, dif_neg hlt]
      obtain ⟨list, ahead, hd⟩ := h
      exact .ok rfl (.mk _ _ hd)
  | succ n ih =>
    rw [readRun, readRun]
    by_cases hlt : symbol < firstClass
    · rw [dif_pos hlt, dif_pos hlt, if_pos (by omega), if_pos (by omega)]
      have hreceive := alike_receive hrel symbolContext h
      generalize receive symbolContext r = x, receive symbolContext r' = x' at hreceive ⊢
      apply hreceive.andThen (g := id) (fun _ _ h => h)
      · exact fun _ _ => ⟨rfl, rfl⟩
      · rintro next _ r r' rfl h
        exact ih _ h (by omega)
    · rw [dif_neg hlt, dif_neg hlt]
      obtain ⟨list, ahead, hd⟩ := h
      exact .ok rfl (.mk _ _ hd)

theorem alike_readRank (label : Nat) (c : Fin 8) (h : Abreast rel r r') :
    Alike s₀ s₁ Eq (Abreast rel) (readRank label c r) (readRank label c r') := by
  have hreceive := alike_receive hrel (offsetContext c) h
  rw [readRank, readRank]
  split
  · exact .ok rfl h
  · generalize receive (offsetContext c) r = x, receive (offsetContext c) r' = x' at hreceive ⊢
    apply hreceive.andThen (g := id) (fun _ _ h => h)
    · exact fun _ _ => ⟨rfl, rfl⟩
    · rintro offset _ r r' rfl h
      dsimp only
      split
      · exact .ok rfl h
      · exact .fault trivial h

theorem alike_readToken (label : Nat) (h : Abreast rel r r') :
    Alike s₀ s₁ Eq (Abreast rel) (readToken label r) (readToken label r') := by
  have hnext := alike_nextSymbol hrel h
  rw [readToken, readToken]
  generalize nextSymbol r = x, nextSymbol r' = x' at hnext ⊢
  apply hnext.andThen (g := id) (fun _ _ h => h)
  · exact fun _ _ => ⟨rfl, rfl⟩
  · rintro symbol _ r r' rfl h
    dsimp only
    split
    · exact alike_readRun hrel label _ h
    · split
      · exact .ok rfl h
      · split
        · exact alike_readRank hrel label _ h
        · exact .fault trivial h

/-- **Blocks are read alike.** -/
theorem alike_readOnto (meaning : Meaning) (limit label : Nat) (out : ByteArray)
    (h : Abreast rel r r') :
    Alike s₀ s₁ Eq (OnFst (Abreast rel)) (readOnto meaning limit label (r, out))
      (readOnto meaning limit label (r', out)) := by
  -- Every token but the last takes some of the room that is left.
  induction hn : limit - out.size using Nat.strongRecOn generalizing out r r' with
  | ind n ih =>
    have htoken := alike_readToken hrel label h
    rw [readOnto, readOnto]
    generalize readToken label r = x, readToken label r' = x' at htoken ⊢
    apply htoken.andThen (g := fun r => (r, out)) (fun _ _ h => .mk _ h)
    · exact fun _ _ => ⟨rfl, rfl⟩
    · rintro token _ _ _ rfl ⟨list, ahead, hd⟩
      cases token with
      | blockEnd => exact .ok rfl (.mk _ (.mk _ _ hd))
      | run length pos =>
        dsimp only
        split
        · refine ih _ ?_ _ (.mk _ _ hd) rfl
          rw [Buffer.size_pushMany]
          omega
        · exact .fault trivial (.mk _ (.mk _ _ hd))
      | rank rank =>
        dsimp only
        split
        · refine ih _ ?_ _ (.mk _ _ hd) rfl
          rw [ByteArray.size_push]
          omega
        · exact .fault trivial (.mk _ (.mk _ _ hd))

theorem alike_readWordFrom (word : UInt32) (n : Nat) (h : Abreast rel r r') :
    Alike s₀ s₁ Eq (Abreast rel) (readWordFrom word n r) (readWordFrom word n r') := by
  induction n generalizing word r r' with
  | zero => exact .ok rfl h
  | succ n ih =>
    have hreceive := alike_receive hrel wordContext h
    simp only [readWordFrom]
    generalize receive wordContext r = x, receive wordContext r' = x' at hreceive ⊢
    apply hreceive.andThen (g := id) (fun _ _ h => h)
    · exact fun _ _ => ⟨rfl, rfl⟩
    · rintro b _ r r' rfl h
      exact ih _ h

end

end BlockPress.RankReader
