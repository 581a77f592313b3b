import BlockPress.Frame.Pack
import BlockPress.Proofs.Entropy.Alike
import BlockPress.Proofs.Rank.Alike

/-!
# Frame readers over two sources

Where one source has the first bytes of another, readers of frames **start alike on both, and read
blocks alike** (`FrameReader.alike_start`, `FrameReader.alike_readBlock`), until the shorter source
ends.
-/

namespace BlockPress

open Rank

variable {s₀ s₁ : Source}

/-! ## Headers -/

theorem Config.ofBytes_of_check_error {c : Config} {f : Failure} (h : c.check = .error f) :
    f.OfBytes := by
  rw [check] at h
  split at h
  · cases h
  · cases h
    trivial

namespace FrameHeader

/-- What is wrong with ten bytes is not that there are too few. -/
theorem ofBytes_of_error {bytes : List UInt8} {f : Failure} (hlength : bytes.length = size)
    (h : ofBytes bytes = .error f) : f.OfBytes := by
  match bytes, hlength with
  | [m₀, m₁, m₂, m₃, version, flags, b₀, b₁, b₂, b₃], _ =>
    rw [ofBytes] at h
    split at h
    · cases h
      trivial
    split at h
    · cases h
      trivial
    split at h
    · cases h
      trivial
    dsimp only at h
    split at h
    · cases h
    · next heq =>
      cases h
      exact Config.ofBytes_of_check_error heq

theorem alike_read {s s' : Source} (h : Source.Abreast s₀ s₁ s s') :
    Alike s₀ s₁ Eq (Source.Abreast s₀ s₁) (read s) (read s') := by
  have hread := h.read size
  rw [read, read]
  generalize Source.read size s = x, Source.read size s' = x' at hread ⊢
  apply hread.andThen (g := id) (fun _ _ h => h)
  · exact fun _ _ => ⟨rfl, rfl⟩
  · rintro bytes _ s s' ⟨rfl, hsize⟩ h
    dsimp only
    split
    · exact .ok rfl h
    · next f heq =>
      exact .fault (ofBytes_of_error (Array.length_toList.trans hsize) heq) h

end FrameHeader

/-! ## Blocks -/

namespace BlockReader

/-- The two readers differ in their coders only. -/
inductive Abreast {δ : Type} (rel : δ → δ → Prop) : BlockReader δ → BlockReader δ → Prop where
  /-- The readers with these settings and this number of blocks. -/
  | mk {r r' : RankReader δ} (config : Config) (blocks : Nat) (finished : Bool)
    (ranks : RankReader.Abreast rel r r') :
    Abreast rel ⟨r, config, blocks, finished⟩ ⟨r', config, blocks, finished⟩

section

variable {δ : Type} [SymbolReader δ contextCount] {rel : δ → δ → Prop}
  (hrel : ∀ (c : Fin contextCount) (d d' : δ), rel d d' →
    Alike s₀ s₁ Eq rel (SymbolReader.receive c d) (SymbolReader.receive c d'))
  {r r' : RankReader δ}

include hrel

theorem alike_readBytes (config : Config) (label : Nat) (origin : UInt32)
    (h : RankReader.Abreast rel r r') :
    Alike s₀ s₁ Eq (RankReader.Abreast rel) (readBytes config label origin r)
      (readBytes config label origin r') := by
  have honto := RankReader.alike_readOnto hrel RecencyList.decode config.blockSize label .empty h
  rw [readBytes, readBytes, RankReader.readBlock]
  generalize RankReader.readOnto _ _ _ (r, .empty) = x,
    RankReader.readOnto _ _ _ (r', .empty) = x' at honto ⊢
  apply honto.andThen (g := Prod.fst)
  · rintro _ _ ⟨out, h⟩
    exact h
  · exact fun _ _ => ⟨rfl, rfl⟩
  · rintro _ _ _ _ - ⟨column, h⟩
    dsimp only
    split
    · exact .fault trivial h
    · rw [Column.restore]
      by_cases horigin : origin.toNat < column.size
      · rw [dif_pos horigin]
        exact .ok rfl h
      · rw [dif_neg horigin]
        exact .fault trivial h

variable [BlockHash]

theorem alike_readChecksum (config : Config) (label : Nat) (block : ByteArray)
    (h : RankReader.Abreast rel r r') :
    Alike s₀ s₁ Eq (RankReader.Abreast rel) (readChecksum config label block r)
      (readChecksum config label block r') := by
  have hword := RankReader.alike_readWordFrom hrel 0 4 h
  rw [readChecksum, readChecksum, RankReader.readWord]
  split
  · generalize RankReader.readWordFrom 0 4 r = x, RankReader.readWordFrom 0 4 r' = x' at hword ⊢
    apply hword.andThen (g := id) (fun _ _ h => h)
    · exact fun _ _ => ⟨rfl, rfl⟩
    · rintro expected _ r r' rfl h
      dsimp only
      split
      · exact .ok rfl h
      · exact .fault trivial h
  · exact .ok rfl h

/-- **Blocks are read alike** into one buffer. -/
theorem alike_read (buffer : ByteArray) {b b' : BlockReader δ} (h : Abreast rel b b') :
    Alike s₀ s₁ Eq (OnFst (Abreast rel)) (read (b, buffer)) (read (b', buffer)) := by
  obtain @⟨r, r', config, blocks, finished, hr⟩ := h
  rw [read, read]
  split
  · exact .ok rfl (.mk _ (.mk _ _ _ hr))
  split
  · exact .ok rfl (.mk _ (.mk _ _ _ hr))
  have hword := RankReader.alike_readWordFrom hrel 0 4 hr
  rw [RankReader.readWord]
  generalize RankReader.readWordFrom 0 4 r = x, RankReader.readWordFrom 0 4 r' = x' at hword ⊢
  apply hword.andThen (g := fun r => (⟨r, config, blocks, finished⟩, buffer))
    (fun _ _ h => .mk _ (.mk _ _ _ h))
  · exact fun _ _ => ⟨rfl, rfl⟩
  rintro origin _ r r' rfl hr
  dsimp only
  split
  · exact .ok rfl (.mk _ (.mk _ _ _ hr))
  have hbytes := alike_readBytes hrel config blocks origin hr
  generalize readBytes config blocks origin r = x, readBytes config blocks origin r' = x' at hbytes ⊢
  apply hbytes.andThen (g := fun r => (⟨r, config, blocks, finished⟩, buffer))
    (fun _ _ h => .mk _ (.mk _ _ _ h))
  · exact fun _ _ => ⟨rfl, rfl⟩
  rintro block _ r r' rfl hr
  dsimp only
  have hsum := alike_readChecksum hrel config blocks block hr
  generalize readChecksum config blocks block r = x, readChecksum config blocks block r' = x' at hsum ⊢
  apply hsum.andThen
    (g := fun r => (⟨r, config, blocks, finished⟩, Buffer.overlay block buffer))
    (fun _ _ h => .mk _ (.mk _ _ _ h))
  · exact fun _ _ => ⟨rfl, rfl⟩
  · exact fun _ _ _ _ _ hr => .ok rfl (.mk _ (.mk _ _ _ hr))

end

end BlockReader

/-! ## Frames -/

namespace FrameReader

/-- The two readers differ in their sources only, and these are at one position. -/
inductive Abreast (s₀ s₁ : Source) : FrameReader → FrameReader → Prop where
  /-- The readers with this header and this buffer. -/
  | mk {b b' : BlockReader (RangeReader contextCount)} (header : FrameHeader) (buffer : ByteArray)
    (blocks : BlockReader.Abreast (RangeReader.Abreast s₀ s₁) b b') :
    Abreast s₀ s₁ ⟨header, b, buffer⟩ ⟨header, b', buffer⟩

theorem Abreast.sources {r r' : FrameReader} (h : Abreast s₀ s₁ r r') :
    Source.Abreast s₀ s₁ r.source r'.source := by
  obtain ⟨header, buffer, ⟨config, blocks, finished, ⟨list, ahead, ⟨trees, ⟨range, code, hs⟩⟩⟩⟩⟩ := h
  exact hs

/-- **Readers start alike.** -/
theorem alike_start {s s' : Source} (h : Source.Abreast s₀ s₁ s s') :
    Alike s₀ s₁ (Abreast s₀ s₁) (Source.Abreast s₀ s₁) (start s) (start s') := by
  have hheader := FrameHeader.alike_read h
  rw [start, start]
  generalize FrameHeader.read s = x, FrameHeader.read s' = x' at hheader ⊢
  apply hheader.andThen (g := id) (fun _ _ h => h)
  · exact fun _ _ => ⟨rfl, rfl⟩
  rintro header _ s s' rfl h
  have hstart := RangeReader.alike_start contexts h
  dsimp only
  generalize RangeReader.start contexts s = x, RangeReader.start contexts s' = x' at hstart ⊢
  apply hstart.andThen (g := id) (fun _ _ h => h)
  · exact fun _ _ => ⟨rfl, rfl⟩
  rintro coder coder' s s' hcoder hs
  dsimp only [BlockReader.start, Config.check]
  by_cases hvalid : header.config.Valid
  · rw [if_pos hvalid]
    exact .ok (.mk _ _ (.mk _ _ _ (.mk _ _ hcoder))) hs
  · rw [if_neg hvalid]
    exact .fault trivial hs

variable [BlockHash] {r r' : FrameReader}

/-- **Readers read a block alike.** -/
theorem alike_readBlock (h : Abreast s₀ s₁ r r') :
    Alike s₀ s₁ Eq (Abreast s₀ s₁) (readBlock r) (readBlock r') := by
  obtain @⟨b, b', header, buffer, hb⟩ := h
  have hread := BlockReader.alike_read (fun c _ _ => RangeReader.alike_receive c) buffer hb
  rw [readBlock, readBlock]
  generalize BlockReader.read (b, buffer) = x, BlockReader.read (b', buffer) = x' at hread ⊢
  apply hread.andThen (g := fun s => ⟨header, s.1, s.2⟩)
  · rintro _ _ ⟨buffer, hb⟩
    exact .mk _ _ hb
  · exact fun _ _ => ⟨rfl, rfl⟩
  · rintro status _ _ _ rfl ⟨buffer, hb⟩
    cases status with
    | block size => exact .ok rfl (.mk _ _ hb)
    | needsRoom needed => exact .fault trivial (.mk _ _ hb)
    | finished => exact .ok rfl (.mk _ _ hb)

/-- **Readers read all blocks alike.** -/
theorem alike_readAll (out : ByteArray) (h : Abreast s₀ s₁ r r') :
    Alike s₀ s₁ Eq (OnFst (Abreast s₀ s₁)) (readAll (r, out)) (readAll (r', out)) := by
  induction hn : r.source.remaining using Nat.strongRecOn generalizing out r r' with
  | ind n ih =>
    have hblock := alike_readBlock h
    rw [readAll, readAll]
    generalize readBlock r = x, readBlock r' = x' at hblock ⊢
    apply hblock.andThen (g := fun r => (r, out)) (fun _ _ h => .mk _ h)
    · exact fun _ _ => ⟨rfl, rfl⟩
    · rintro answer _ t t' rfl ht
      cases answer with
      | none => exact .ok rfl (.mk _ ht)
      | some block =>
        dsimp only
        -- Both readers go on or both stop: a block uses up bytes of both sources or of neither.
        have hiff := h.sources.remaining_lt_iff ht.sources
        by_cases hlt : t.source.remaining < r.source.remaining
        · rw [dif_pos hlt, dif_pos (hiff.mp hlt)]
          exact ih _ (hn ▸ hlt) _ ht rfl
        · rw [dif_neg hlt, dif_neg (fun hlt' => hlt (hiff.mpr hlt'))]
          exact .ok rfl (.mk _ ht)

end FrameReader

end BlockPress
