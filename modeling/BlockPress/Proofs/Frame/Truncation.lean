import BlockPress.Proofs.Frame.Alike
import BlockPress.Proofs.Frame.RoundTrip

/-!
# Frames that are cut short or followed by more

A source `Delivers` blocks if a reader that starts on it gives these blocks, and then the end of the
stream or a failure.  A source with more bytes than a frame is unpacked as the frame is
(`Frame.unpack_eq_of_heads`); one that ends earlier delivers the first of the blocks until it falls
short (`FrameReader.Due.exists_delivers`); and a device that breaks down delivers what a source that
ends there does (`Frame.Delivers.failsAt`).

Main statement: **no frame that was cut short is taken for another frame** (`Frame.truncation`).  The
end of the stream is found only after all bytes of the frame were read, but perhaps the last.
-/

namespace BlockPress

open Rank

/-- The failure where a device breaks down, for the failure where a source ends. -/
def Failure.brokenOff : Failure → Failure
  | .endOfInput _ => .io Source.deviceReason
  | f => f

theorem Failure.OfBytes.brokenOff_eq {f : Failure} (h : f.OfBytes) : f.brokenOff = f := by
  cases f with
  | endOfInput missing => exact h.elim
  | _ => rfl

/-! ## Sources of the same bytes -/

namespace Source

theorem heads_extract (data : ByteArray) (n : ℕ) : Heads { data } { data := data.extract 0 n } where
  bound_le := by
    change (data.extract 0 n).size ≤ data.size
    rw [ByteArray.size_extract]
    omega
  extract_eq := by
    change (data.extract 0 n).extract 0 (data.extract 0 n).size =
      data.extract 0 (data.extract 0 n).size
    rw [ByteArray.extract_zero_size, ByteArray.size_extract, Nat.sub_zero]
    obtain hle | hle := Nat.le_total n data.size
    · rw [Nat.min_eq_left hle]
    · rw [Nat.min_eq_right hle, extract_eq_of_size_le hle]

theorem heads_append (data more : ByteArray) : Heads { data := data ++ more } { data } where
  bound_le := by
    change data.size ≤ (data ++ more).size
    rw [ByteArray.size_append]
    omega
  extract_eq := by
    change data.extract 0 data.size = (data ++ more).extract 0 data.size
    rw [ByteArray.extract_zero_size, ByteArray.extract_append_eq_left rfl]

theorem heads_failsAt {data : ByteArray} {n : ℕ} (h : n ≤ data.size) :
    Heads { data := data.extract 0 n } { data, failsAt := some n } where
  bound_le := by
    change min n data.size ≤ (data.extract 0 n).size
    rw [ByteArray.size_extract, Nat.sub_zero]
  extract_eq := by
    change data.extract 0 (min n data.size) = (data.extract 0 n).extract 0 (min n data.size)
    rw [Nat.min_eq_left h, ByteArray.extract_extract, Nat.zero_add, Nat.zero_add, Nat.min_self]

/-- Two sources at their start. -/
theorem Heads.abreast {s₀ s₁ : Source} (h : Heads s₀ s₁) (h₀ : s₀.position = 0)
    (h₁ : s₁.position = 0) : Abreast s₀ s₁ s₀ s₁ := by
  obtain ⟨data₀, position₀, failsAt₀⟩ := s₀
  obtain ⟨data₁, position₁, failsAt₁⟩ := s₁
  obtain rfl : position₀ = 0 := h₀
  obtain rfl : position₁ = 0 := h₁
  exact .mk h (Nat.zero_le _)

end Source

section Delivering

variable [BlockHash] {s₀ s₁ : Source}

/-! ## What a source delivers -/

/-- Calls for a block give these blocks, and the next call the end of the stream or a failure. -/
inductive FrameReader.Delivers : FrameReader → List ByteArray → Option Failure → Prop where
  /-- There is no block. -/
  | finished {r r' : FrameReader} (h : readBlock r = .ok none r') : Delivers r [] none
  /-- The call fails. -/
  | failed {r r' : FrameReader} {f : Failure} (h : readBlock r = .error f r') : Delivers r [] (some f)
  /-- There is a block, and then others. -/
  | block {r r' : FrameReader} {b : ByteArray} {bs : List ByteArray} {e : Option Failure}
    (h : readBlock r = .ok (some b) r') (rest : Delivers r' bs e) : Delivers r (b :: bs) e

/-- A reader that starts on the source gives these blocks, and then the end of the stream or a
failure. -/
inductive Frame.Delivers : Source → List ByteArray → Option Failure → Prop where
  /-- No reader starts. -/
  | refused {s s' : Source} {f : Failure} (h : FrameReader.start s = .error f s') :
    Delivers s [] (some f)
  /-- A reader starts. -/
  | started {s s' : Source} {r : FrameReader} {bs : List ByteArray} {e : Option Failure}
    (h : FrameReader.start s = .ok r s') (rest : r.Delivers bs e) : Delivers s bs e

namespace FrameReader

variable {r r' : FrameReader} {bs cs : List ByteArray} {e e' : Option Failure}

theorem Delivers.unique (h : r.Delivers bs e) (h' : r.Delivers cs e') : bs = cs ∧ e = e' := by
  induction h generalizing cs with
  | finished hr =>
    cases h' with
    | finished hr' => exact ⟨rfl, rfl⟩
    | failed hr' => cases hr.symm.trans hr'
    | block hr' => cases hr.symm.trans hr'
  | failed hr =>
    cases h' with
    | finished hr' => cases hr.symm.trans hr'
    | failed hr' =>
      cases hr.symm.trans hr'
      exact ⟨rfl, rfl⟩
    | block hr' => cases hr.symm.trans hr'
  | block hr rest ih =>
    cases h' with
    | finished hr' => cases hr.symm.trans hr'
    | failed hr' => cases hr.symm.trans hr'
    | block hr' rest' =>
      cases hr.symm.trans hr'
      obtain ⟨rfl, rfl⟩ := ih rest'
      exact ⟨rfl, rfl⟩

/-- **A reader whose source ends early gives the first of the blocks**, and all of them only if the
source has all bytes of the frame but the last. -/
theorem Due.exists_delivers {config : Config} {size : ℕ} (hdue : Due config size bs r)
    (hconfig : config.Valid) (h : Abreast s₀ s₁ r r') : ∃ cs e, r'.Delivers cs e ∧ cs <+: bs ∧
      ((∃ n, e = some (s₁.shortage n)) ∧ s₁.bound < s₀.bound ∨
        e = none ∧ cs = bs ∧ size ≤ s₁.bound + 1) := by
  -- Over the whole frame each call succeeds, so the shorter source keeps up or falls short.
  induction bs generalizing r r' with
  | nil =>
    obtain ⟨t, hblock, -, hsize⟩ := hdue.readBlock_nil hconfig
    have hread : Alike s₀ s₁ Eq _ (.ok none t) (readBlock r') := hblock ▸ alike_readBlock h
    obtain ⟨_, t', hblock', rfl, ht⟩ | ⟨n, t', hblock', hbound⟩ := hread.ok_cases
    · have hposition := ht.sources.position_le
      exact ⟨[], none, .finished hblock', List.nil_prefix, .inr ⟨rfl, rfl, by omega⟩⟩
    · exact ⟨[], _, .failed hblock', List.nil_prefix, .inl ⟨⟨n, rfl⟩, hbound⟩⟩
  | cons b bs ih =>
    obtain ⟨t, hblock, hdue, -⟩ := hdue.readBlock_cons hconfig
    have hread : Alike s₀ s₁ Eq _ (.ok (some b) t) (readBlock r') := hblock ▸ alike_readBlock h
    obtain ⟨_, t', hblock', rfl, ht⟩ | ⟨n, t', hblock', hbound⟩ := hread.ok_cases
    · obtain ⟨cs, e, hdelivers, hfirst, hends⟩ := ih hdue ht
      refine ⟨b :: cs, e, .block hblock' hdelivers, (List.prefix_cons_inj b).mpr hfirst, ?_⟩
      exact hends.imp_right fun ⟨he, hcs, hsize⟩ => ⟨he, congrArg (b :: ·) hcs, hsize⟩
    · exact ⟨[], _, .failed hblock', List.nil_prefix, .inl ⟨⟨n, rfl⟩, hbound⟩⟩

/-- **Where a device breaks down a reader gives what it gives where the source ends**, and another
failure. -/
theorem Delivers.brokenOff (hbound : s₀.bound ≤ s₁.bound)
    (hshort : ∀ n, (s₀.shortage n).brokenOff = s₁.shortage n) (h : r.Delivers bs e)
    (hr : Abreast s₀ s₁ r r') : r'.Delivers bs (e.map Failure.brokenOff) := by
  induction h generalizing r' with
  | @finished r t hblock =>
    have hread : Alike s₀ s₁ Eq _ (.ok none t) (readBlock r') := hblock ▸ alike_readBlock hr
    obtain ⟨_, t', hblock', rfl, -⟩ | ⟨n, t', -, hlt⟩ := hread.ok_cases
    · exact .finished hblock'
    · exact absurd hbound (Nat.not_le_of_lt hlt)
  | @failed r t f hblock =>
    have hread : Alike s₀ s₁ Eq _ (.error f t) (readBlock r') := hblock ▸ alike_readBlock hr
    rw [Option.map_some]
    obtain ⟨t', hblock', hf, -⟩ | ⟨n, t', hblock', first⟩ := hread.error_cases
    · rw [hf.brokenOff_eq]
      exact .failed hblock'
    · obtain ⟨rfl, -⟩ := first hbound
      rw [hshort]
      exact .failed hblock'
  | @block r t b bs e hblock rest ih =>
    have hread : Alike s₀ s₁ Eq _ (.ok (some b) t) (readBlock r') := hblock ▸ alike_readBlock hr
    obtain ⟨_, t', hblock', rfl, ht⟩ | ⟨n, t', -, hlt⟩ := hread.ok_cases
    · exact .block hblock' (ih ht)
    · exact absurd hbound (Nat.not_le_of_lt hlt)

end FrameReader

namespace Frame

/-- **A source with more bytes is unpacked to the same data.** -/
theorem unpack_eq_of_heads {whole part data : ByteArray}
    (h : Source.Heads { data := whole } { data := part }) (hpart : unpack part = .ok data) :
    unpack whole = .ok data := by
  have hstart := FrameReader.alike_start (h.abreast rfl rfl)
  rw [unpack] at hpart ⊢
  generalize FrameReader.start { data := whole } = x, FrameReader.start { data := part } = x'
    at hstart hpart ⊢
  cases hstart with
  | ok hr _ =>
    have hall := FrameReader.alike_readAll .empty hr
    dsimp only at hpart ⊢
    generalize FrameReader.readAll _ = y, FrameReader.readAll _ = y' at hall hpart ⊢
    cases hall with
    | ok _ hr =>
      obtain ⟨out, hr⟩ := hr
      exact hpart
    | fault _ _ => cases hpart
    | short _ _ => cases hpart
  | fault _ _ => cases hpart
  | short _ _ => cases hpart

theorem Delivers.unique {s : Source} {bs cs : List ByteArray} {e e' : Option Failure}
    (h : Delivers s bs e) (h' : Delivers s cs e') : bs = cs ∧ e = e' := by
  cases h with
  | refused hs =>
    cases h' with
    | refused hs' =>
      cases hs.symm.trans hs'
      exact ⟨rfl, rfl⟩
    | started hs' => cases hs.symm.trans hs'
  | started hs rest =>
    cases h' with
    | refused hs' => cases hs.symm.trans hs'
    | started hs' rest' =>
      cases hs.symm.trans hs'
      exact rest.unique rest'

/-- **Where a device breaks down is delivered what is delivered where the source ends**, and another
failure. -/
theorem Delivers.brokenOff {bs : List ByteArray} {e : Option Failure} (hbound : s₀.bound ≤ s₁.bound)
    (hshort : ∀ n, (s₀.shortage n).brokenOff = s₁.shortage n)
    (habreast : Source.Abreast s₀ s₁ s₀ s₁) (h : Delivers s₀ bs e) :
    Delivers s₁ bs (e.map Failure.brokenOff) := by
  have hstart := FrameReader.alike_start habreast
  cases h with
  | refused hs =>
    rw [hs] at hstart
    rw [Option.map_some]
    obtain ⟨t', hs', hf, -⟩ | ⟨n, t', hs', first⟩ := hstart.error_cases
    · rw [hf.brokenOff_eq]
      exact .refused hs'
    · obtain ⟨rfl, -⟩ := first hbound
      rw [hshort]
      exact .refused hs'
  | started hs rest =>
    rw [hs] at hstart
    obtain ⟨r', t', hs', hr, -⟩ | ⟨n, t', -, hlt⟩ := hstart.ok_cases
    · exact .started hs' (rest.brokenOff hbound hshort hr)
    · exact absurd hbound (Nat.not_le_of_lt hlt)

/-- A device that breaks down at a position delivers what the bytes up to there do. -/
theorem Delivers.failsAt {data : ByteArray} {n : ℕ} {bs : List ByteArray} {e : Option Failure}
    (h : Delivers { data := data.extract 0 n } bs e) (hn : n ≤ data.size) :
    Delivers { data, failsAt := some n } bs (e.map Failure.brokenOff) := by
  refine h.brokenOff ?_ (fun missing => ?_) ((Source.heads_failsAt hn).abreast rfl rfl)
  · change (data.extract 0 n).size ≤ min n data.size
    rw [ByteArray.size_extract, Nat.sub_zero]
  · change Failure.io Source.deviceReason = if n ≤ data.size then _ else _
    rw [if_pos hn]

/-- The first bytes of a frame deliver the first of its blocks. -/
theorem exists_delivers_extract {config : Config} {frame : ByteArray} {bs : List ByteArray}
    {r : FrameReader} {s : Source} (h : config.Valid)
    (hstart : FrameReader.start { data := frame } = .ok r s)
    (hdue : FrameReader.Due config frame.size bs r) {n : ℕ} (hn : n ≤ frame.size) :
    ∃ cs e, Delivers { data := frame.extract 0 n } cs e ∧ cs <+: bs ∧
      ((∃ missing, e = some (.endOfInput missing)) ∧ n < frame.size ∨
        e = none ∧ cs = bs ∧ frame.size ≤ n + 1) := by
  have hs := FrameReader.alike_start ((Source.heads_extract frame n).abreast rfl rfl)
  have hbound : Source.bound { data := frame.extract 0 n } = n := by
    change (frame.extract 0 n).size = n
    rw [ByteArray.size_extract]
    omega
  rw [hstart] at hs
  obtain ⟨r', s', hstart', hr, -⟩ | ⟨missing, s', hstart', hlt⟩ := hs.ok_cases
  · obtain ⟨cs, e, hdelivers, hfirst, hends⟩ := hdue.exists_delivers h hr
    rw [hbound] at hends
    exact ⟨cs, e, .started hstart' hdelivers, hfirst, hends⟩
  · rw [hbound] at hlt
    exact ⟨[], _, .refused hstart', List.nil_prefix, .inl ⟨⟨missing, rfl⟩, hlt⟩⟩

/-- **No frame that was cut short is taken for another frame.**  Bytes behind the frame of data change
nothing.  The first bytes of the frame deliver the first of the pieces of the data and then fall short;
they may come to the end of the stream, with all pieces, only if at most the last byte is missing.  A
device that breaks down delivers the same, and fails instead of falling short. -/
theorem truncation (data : ByteArray) (config : Config) (h : config.Valid) :
    ∃ frame, pack data config = .ok frame ∧ (∀ more, unpack (frame ++ more) = .ok data) ∧
      ∀ n, n ≤ frame.size → (∃ bs e, Delivers { data := frame.extract 0 n } bs e) ∧
        (∀ bs e, Delivers { data := frame.extract 0 n } bs e →
          bs <+: cut config.blockSize data 0 ∧
          ((∃ missing, e = some (.endOfInput missing)) ∧ n < frame.size ∨
            e = none ∧ bs = cut config.blockSize data 0 ∧ frame.size ≤ n + 1) ∧
          Delivers { data := frame, failsAt := some n } bs (e.map Failure.brokenOff)) ∧
        ∀ data', unpack (frame.extract 0 n) = .ok data' → data' = data := by
  obtain ⟨frame, r, s, hpack, hstart, hdue⟩ := exists_due data h
  have hunpack := unpack_eq_of_due h hstart hdue
  refine ⟨frame, hpack, fun more => unpack_eq_of_heads (Source.heads_append frame more) hunpack,
    fun n hn => ?_⟩
  obtain ⟨cs, e', hdelivers, hfirst, hends⟩ := exists_delivers_extract h hstart hdue hn
  refine ⟨⟨cs, e', hdelivers⟩, fun bs e hbs => ?_, fun data' hdata' => ?_⟩
  · obtain ⟨rfl, rfl⟩ := hdelivers.unique hbs
    exact ⟨hfirst, hends, hbs.failsAt hn⟩
  · have hall := unpack_eq_of_heads (Source.heads_extract frame n) hdata'
    rw [hunpack] at hall
    exact (Except.ok.inj hall).symm

end Frame

end Delivering

/-- Five bytes in blocks of two: two bytes more change nothing, and no part gives other data. -/
theorem Frame.truncation_five : (⟨2, true⟩ : Config).Valid ∧
    ∃ frame, pack ⟨#[98, 97, 110, 97, 110]⟩ ⟨2, true⟩ = .ok frame ∧
      unpack (frame ++ ⟨#[0, 255]⟩) = .ok ⟨#[98, 97, 110, 97, 110]⟩ ∧
      ∀ n, n ≤ frame.size → ∀ data', unpack (frame.extract 0 n) = .ok data' →
        data' = ⟨#[98, 97, 110, 97, 110]⟩ := by
  have hvalid : (⟨2, true⟩ : Config).Valid := by decide
  obtain ⟨frame, hpack, hmore, hparts⟩ := truncation ⟨#[98, 97, 110, 97, 110]⟩ ⟨2, true⟩ hvalid
  exact ⟨hvalid, frame, hpack, hmore _, fun n hn => (hparts n hn).2.2⟩

end BlockPress
