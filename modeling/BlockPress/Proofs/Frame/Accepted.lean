import BlockPress.Proofs.Frame.Header
import BlockPress.Proofs.Runs

/-!
# Which headers are read

Of all ten bytes just those are read that are written for settings a stream can have
(`ofBytes_eq_ok_iff`); in any others the first fault is found, in the order magic bytes, version,
flags, block size (`ofBytes_eq_error_iff`).

Main statement: **a source gives a header exactly if it goes on with the bytes of one, and it is left
behind ten bytes whenever it has them** (`read_decides`).
-/

namespace BlockPress.FrameHeader

/-! ## Bytes of a word -/

/-- The lowest byte comes first. -/
theorem toNat_wordOfBytes (a b c d : UInt8) : (wordOfBytes a b c d).toNat =
    a.toNat + 2 ^ 8 * b.toNat + 2 ^ 16 * c.toNat + 2 ^ 24 * d.toNat := by
  rw [wordOfBytes, UInt32.or_comm, UInt32.or_comm _ (c.toUInt32 <<< 16), UInt32.or_comm a.toUInt32,
    ← UInt32.or_assoc, ← UInt32.or_assoc, toNat_word]
  omega

theorem bytesOfWord_wordOfBytes (a b c d : UInt8) :
    bytesOfWord (wordOfBytes a b c d) = [a, b, c, d] := by
  have hword := toNat_wordOfBytes a b c d
  have ha := a.toNat_lt
  have hb := b.toNat_lt
  have hc := c.toNat_lt
  have hd := d.toNat_lt
  have hbyte {x : UInt8} (s : UInt32) (hs : s.toNat < 32)
      (hx : (wordOfBytes a b c d).toNat / 2 ^ s.toNat % 256 = x.toNat) :
      (wordOfBytes a b c d >>> s).toUInt8 = x := by
    rw [← UInt8.toNat_inj, UInt32.toNat_toUInt8, UInt32.toNat_shiftRight, Nat.mod_eq_of_lt hs,
      Nat.shiftRight_eq_div_pow]
    exact hx
  have ha' : (wordOfBytes a b c d).toUInt8 = a := by
    rw [← UInt8.toNat_inj, UInt32.toNat_toUInt8]
    omega
  have hb' := hbyte (x := b) 8 (by decide) (show _ / 2 ^ 8 % 256 = _ by omega)
  have hc' := hbyte (x := c) 16 (by decide) (show _ / 2 ^ 16 % 256 = _ by omega)
  have hd' := hbyte (x := d) 24 (by decide) (show _ / 2 ^ 24 % 256 = _ by omega)
  rw [bytesOfWord, ha', hb', hc', hd']

set_option maxRecDepth 4096 in
/-- No flag but that of checksums. -/
theorem unknown_flags_eq_zero_iff (flags : UInt8) :
    flags &&& ~~~checksumFlag = 0 ↔ flags = 0 ∨ flags = checksumFlag := by
  have hall : ∀ i : Fin 256, UInt8.ofFin i &&& ~~~checksumFlag = 0 ↔
      UInt8.ofFin i = 0 ∨ UInt8.ofFin i = checksumFlag := by decide
  exact hall flags.toFin

/-! ## Ten bytes -/

/-- What is wrong with ten bytes that are no header, the first fault of those that there are. -/
inductive Refused : List UInt8 → Failure → Prop where
  /-- Other magic bytes. -/
  | magic {found rest : List UInt8} (hlength : found.length = 4) (hne : found ≠ magic) :
    Refused (found ++ rest) (.badMagic magic found)
  /-- Another version. -/
  | version {found : UInt8} {rest : List UInt8} (hne : found ≠ 1) :
    Refused (FrameHeader.magic ++ found :: rest) (.badHeader (.version found))
  /-- A flag without a meaning. -/
  | flags {found : UInt8} {rest : List UInt8} (hne : found ≠ 0 ∧ found ≠ 1) :
    Refused (FrameHeader.magic ++ 1 :: found :: rest) (.badHeader (.flags found))
  /-- No block size, or too great a one. -/
  | blockSize {flags a b c d : UInt8} {found : ℕ} (hflags : flags = 0 ∨ flags = 1)
    (hfound : found = a.toNat + 2 ^ 8 * b.toNat + 2 ^ 16 * c.toNat + 2 ^ 24 * d.toNat)
    (hsize : found = 0 ∨ 16777216 < found) :
    Refused (FrameHeader.magic ++ [1, flags, a, b, c, d]) (.badBlockSize found 16777216)

/-- The header is one of a stream that this version writes. -/
structure Written (h : FrameHeader) : Prop where
  /-- The version is the one that is written. -/
  version_eq : h.version = 1
  /-- A block is not empty. -/
  pos : 1 ≤ h.blockSize.toNat
  /-- A block has at most 16 MiB. -/
  le : h.blockSize.toNat ≤ 16777216

theorem Written.valid {h : FrameHeader} (hw : h.Written) : h.config.Valid := ⟨hw.pos, hw.le⟩

/-- Such a header is that of its settings. -/
theorem Written.ofConfig_config {h : FrameHeader} (hw : h.Written) : ofConfig h.config = h := by
  obtain ⟨version, checksum, blockSize⟩ := h
  obtain rfl : version = 1 := hw.version_eq
  have hsize : blockSize.toNat.toUInt32 = blockSize := UInt32.ofNat_toNat
  rw [ofConfig, config, hsize]
  rfl

theorem written_ofConfig {c : Config} (h : c.Valid) : (ofConfig c).Written := by
  have hsize : (ofConfig c).blockSize.toNat = c.blockSize :=
    congrArg Config.blockSize (config_ofConfig h)
  exact ⟨rfl, hsize ▸ h.1, hsize ▸ h.2⟩

/-- A block size is checked as that of the settings that it gives. -/
theorem check_config_eq_error {h : FrameHeader}
    (hsize : h.blockSize.toNat = 0 ∨ 16777216 < h.blockSize.toNat) :
    h.config.check = .error (.badBlockSize h.blockSize.toNat 16777216) := by
  have hvalid : ¬(0 < h.blockSize.toNat ∧ h.blockSize.toNat ≤ 16777216) := by omega
  exact if_neg hvalid

variable {bytes : List UInt8} {h : FrameHeader} {failure : Failure}

/-- **Ten bytes are those of a header that is written, or there is a first fault.** -/
theorem written_or_refused (hlength : bytes.length = size) :
    (∃ h : FrameHeader, bytes = h.toBytes ∧ h.Written) ∨ ∃ failure, Refused bytes failure := by
  match bytes, hlength with
  | [m₀, m₁, m₂, m₃, version, flags, a, b, c, d], _ =>
    by_cases hmagic : [m₀, m₁, m₂, m₃] = magic
    case neg =>
      have hrefused : Refused ([m₀, m₁, m₂, m₃] ++ [version, flags, a, b, c, d]) _ := .magic rfl hmagic
      exact .inr ⟨_, hrefused⟩
    have hsplit (l : List UInt8) : m₀ :: m₁ :: m₂ :: m₃ :: l = magic ++ l := by
      rw [← hmagic]
      rfl
    rw [hsplit]
    by_cases hversion : version = 1
    case neg => exact .inr ⟨_, .version hversion⟩
    subst hversion
    by_cases hflags : flags = 0 ∨ flags = 1
    case neg => exact .inr ⟨_, .flags (not_or.mp hflags)⟩
    by_cases hsize : (wordOfBytes a b c d).toNat = 0 ∨ 16777216 < (wordOfBytes a b c d).toNat
    case pos => exact .inr ⟨_, .blockSize hflags (toNat_wordOfBytes a b c d) hsize⟩
    refine .inl ⟨⟨1, flags ≠ 0, wordOfBytes a b c d⟩, ?_, rfl, by dsimp only; omega, by dsimp only; omega⟩
    rw [toBytes, bytesOfWord_wordOfBytes]
    obtain rfl | rfl := hflags <;> rfl

theorem ofBytes_of_written (hw : h.Written) : ofBytes h.toBytes = .ok h := by
  rw [← hw.ofConfig_config]
  exact ofBytes_toBytes hw.valid

/-- A fault is found if there is none before it. -/
theorem ofBytes_of_refused (hlength : bytes.length = size) (h : Refused bytes failure) :
    ofBytes bytes = .error failure := by
  cases h with
  | @magic found rest hfound hne =>
    match found, hfound with
    | [m₀, m₁, m₂, m₃], _ =>
      match rest, hlength with
      | [version, flags, a, b, c, d], _ => exact if_pos hne
  | @version found rest hne =>
    match rest, hlength with
    | [flags, a, b, c, d], _ => exact if_pos hne
  | @flags found rest hne =>
    match rest, hlength with
    | [a, b, c, d], _ =>
      exact if_pos (show found &&& ~~~checksumFlag ≠ 0 from by
        rw [Ne, unknown_flags_eq_zero_iff]
        exact not_or.mpr hne)
  | @blockSize flags a b c d found hflags hfound hsize =>
    rw [← toNat_wordOfBytes] at hfound
    subst hfound
    rw [magic, List.cons_append, List.cons_append, List.cons_append, List.cons_append, List.nil_append,
      ofBytes, if_neg (fun hne => hne rfl), if_neg (fun hne => hne rfl),
      if_neg (fun hne => hne ((unknown_flags_eq_zero_iff flags).mpr hflags))]
    dsimp only
    rw [check_config_eq_error hsize]

/-- **Just the bytes of headers that are written are read as headers.** -/
theorem ofBytes_eq_ok_iff (hlength : bytes.length = size) :
    ofBytes bytes = .ok h ↔ bytes = h.toBytes ∧ h.Written := by
  constructor
  · intro hok
    obtain ⟨h', rfl, hwritten⟩ | ⟨failure, hrefused⟩ := written_or_refused hlength
    · cases hok.symm.trans (ofBytes_of_written hwritten)
      exact ⟨rfl, hwritten⟩
    · cases hok.symm.trans (ofBytes_of_refused hlength hrefused)
  · rintro ⟨rfl, hwritten⟩
    exact ofBytes_of_written hwritten

/-- **All others are refused, for their first fault.** -/
theorem ofBytes_eq_error_iff (hlength : bytes.length = size) :
    ofBytes bytes = .error failure ↔ Refused bytes failure := by
  refine ⟨fun herror => ?_, ofBytes_of_refused hlength⟩
  obtain ⟨h, rfl, hwritten⟩ | ⟨failure', hrefused⟩ := written_or_refused hlength
  · cases herror.symm.trans (ofBytes_of_written hwritten)
  · cases herror.symm.trans (ofBytes_of_refused hlength hrefused)
    exact hrefused

/-! ## Sources -/

/-- The ten bytes that a source goes on with. -/
def ahead (s : Source) : List UInt8 := (s.data.extract s.position (s.position + size)).data.toList

/-- The source behind these ten bytes. -/
def behind (s : Source) : Source := { s with position := s.position + size }

variable {s : Source}

theorem length_ahead (hlong : s.position + size ≤ s.bound) : (ahead s).length = size := by
  have hsize := ByteArray.size_extract (a := s.data) (b := s.position) (e := s.position + size)
  have hbound := s.bound_le_size
  rw [ahead, Array.length_toList]
  refine hsize.trans ?_
  omega

/-- A source that has ten bytes is left behind them. -/
theorem read_eq_of_le (hlong : s.position + size ≤ s.bound) :
    read s = match ofBytes (ahead s) with
      | .ok h => .ok h (behind s)
      | .error failure => .error failure (behind s) := by
  have hread : Source.read size s =
      .ok (s.data.extract s.position (s.position + size)) (behind s) := if_pos hlong
  rw [read, hread]
  rfl

/-- One that has less gives nothing. -/
theorem read_eq_of_lt (hshort : s.bound < s.position + size) :
    read s = .error (s.shortage size) { s with position := max s.position s.bound } := by
  have hread : Source.read size s =
      .error (s.shortage size) { s with position := max s.position s.bound } :=
    if_neg (Nat.not_le.mpr hshort)
  rw [read, hread]

theorem read_eq_ok_iff (hlong : s.position + size ≤ s.bound) {t : Source} :
    read s = .ok h t ↔ t = behind s ∧ ahead s = h.toBytes ∧ h.Written := by
  rw [← ofBytes_eq_ok_iff (length_ahead hlong), read_eq_of_le hlong]
  cases ofBytes (ahead s) with
  | ok h' =>
    constructor
    · intro heq
      cases heq
      exact ⟨rfl, rfl⟩
    · rintro ⟨rfl, heq⟩
      cases heq
      rfl
  | error failure =>
    refine ⟨fun heq => ?_, fun heq => ?_⟩
    · cases heq
    · cases heq.2

theorem read_eq_error_iff (hlong : s.position + size ≤ s.bound) {t : Source} :
    read s = .error failure t ↔ t = behind s ∧ Refused (ahead s) failure := by
  rw [← ofBytes_eq_error_iff (length_ahead hlong), read_eq_of_le hlong]
  cases ofBytes (ahead s) with
  | ok h' =>
    refine ⟨fun heq => ?_, fun heq => ?_⟩
    · cases heq
    · cases heq.2
  | error failure' =>
    constructor
    · intro heq
      cases heq
      exact ⟨rfl, rfl⟩
    · rintro ⟨rfl, heq⟩
      cases heq
      rfl

theorem leftBy_read (hlong : s.position + size ≤ s.bound) : leftBy (read s) = behind s := by
  rw [read_eq_of_le hlong]
  cases ofBytes (ahead s) <;> rfl

/-- **Just the headers that are written are read.**  A source that has ten bytes more is left behind
them.  It gives a header exactly if they are its bytes, with the version and a block size that are
written, and then the settings that the header was made of; else it gives their first fault, in the
order magic bytes, version, flags, block size.  A source that has less comes to its end. -/
theorem read_decides (s : Source) :
    (s.position + size ≤ s.bound →
      leftBy (read s) = behind s ∧
      (∀ h t, read s = .ok h t ↔ t = behind s ∧ ahead s = h.toBytes ∧
        h.version = 1 ∧ 1 ≤ h.blockSize.toNat ∧ h.blockSize.toNat ≤ 16777216) ∧
      (∀ c : Config, c.Valid → ahead s = (ofConfig c).toBytes →
        read s = .ok (ofConfig c) (behind s) ∧ (ofConfig c).config = c) ∧
      ∀ failure t, read s = .error failure t ↔ t = behind s ∧ Refused (ahead s) failure) ∧
    (s.bound < s.position + size →
      read s = .error (s.shortage size) { s with position := max s.position s.bound } ∧
      (s.failsAt = none → s.shortage size = .endOfInput 10)) := by
  refine ⟨fun hlong => ⟨leftBy_read hlong, fun h t => ?_, fun c hc hahead => ?_,
      fun failure t => read_eq_error_iff hlong⟩,
    fun hshort => ⟨read_eq_of_lt hshort, fun hnone => ?_⟩⟩
  · rw [read_eq_ok_iff hlong]
    exact and_congr_right fun _ => and_congr_right fun _ =>
      ⟨fun h => ⟨h.version_eq, h.pos, h.le⟩, fun h => ⟨h.1, h.2.1, h.2.2⟩⟩
  · exact ⟨(read_eq_ok_iff hlong).mpr ⟨rfl, hahead, written_ofConfig hc⟩, config_ofConfig hc⟩
  · rw [Source.shortage, hnone]
    rfl

/-- The header of blocks of two bytes is read, one with a flag that has no meaning is refused for it
though there is no block size either, and nine bytes are too few. -/
theorem read_decides_two :
    read { data := ⟨#[0x4F, 0x42, 0x53, 0x43, 1, 1, 2, 0, 0, 0]⟩ } = .ok ⟨1, true, 2⟩
      { data := ⟨#[0x4F, 0x42, 0x53, 0x43, 1, 1, 2, 0, 0, 0]⟩, position := 10 } ∧
    read { data := ⟨#[0x4F, 0x42, 0x53, 0x43, 1, 3, 0, 0, 0, 0]⟩ } = .error (.badHeader (.flags 3))
      { data := ⟨#[0x4F, 0x42, 0x53, 0x43, 1, 3, 0, 0, 0, 0]⟩, position := 10 } ∧
    read { data := ⟨#[0x4F, 0x42, 0x53, 0x43, 1, 1, 2, 0, 0]⟩ } = .error (.endOfInput 10)
      { data := ⟨#[0x4F, 0x42, 0x53, 0x43, 1, 1, 2, 0, 0]⟩, position := 9 } :=
  ⟨(((read_decides _).1 (by decide)).2.2.1 ⟨2, true⟩ (by decide) rfl).1,
    (((read_decides _).1 (by decide)).2.2.2 _ _).mpr ⟨rfl, .flags (by decide)⟩,
    ((read_decides _).2 (by decide)).1⟩

end BlockPress.FrameHeader
