import BlockPress.Frame.Header
import BlockPress.Proofs.Word

/-!
# Headers are read back

**The bytes of the header of valid settings are read as that header** (`ofBytes_toBytes`), and it
describes the settings (`config_ofConfig`): the block size fits four bytes, and the one flag that is
written is the one that is allowed.
-/

namespace BlockPress.FrameHeader

theorem wordOfBytes_bytesOfWord (w : UInt32) :
    wordOfBytes w.toUInt8 (w >>> 8).toUInt8 (w >>> 16).toUInt8 (w >>> 24).toUInt8 = w := by
  have hbyte (s : UInt32) (hs : s.toNat < 32) :
      (w >>> s).toUInt8.toNat = w.toNat / 2 ^ s.toNat % 256 := by
    rw [UInt32.toNat_toUInt8, UInt32.toNat_shiftRight, Nat.mod_eq_of_lt hs, Nat.shiftRight_eq_div_pow]
  have h₁ : (w >>> 8).toUInt8.toNat = w.toNat / 2 ^ 8 % 256 := hbyte 8 (by decide)
  have h₂ : (w >>> 16).toUInt8.toNat = w.toNat / 2 ^ 16 % 256 := hbyte 16 (by decide)
  have h₃ : (w >>> 24).toUInt8.toNat = w.toNat / 2 ^ 24 % 256 := hbyte 24 (by decide)
  have hw := w.toNat_lt
  refine UInt32.toNat_inj.mp ?_
  rw [wordOfBytes, UInt32.or_comm, UInt32.or_comm _ ((w >>> 16).toUInt8.toUInt32 <<< 16),
    UInt32.or_comm w.toUInt8.toUInt32, ← UInt32.or_assoc, ← UInt32.or_assoc, toNat_word, h₁, h₂, h₃,
    UInt32.toNat_toUInt8]
  omega

variable {c : Config}

/-- A header describes the settings that it was made of. -/
theorem config_ofConfig (h : c.Valid) : (ofConfig c).config = c := by
  have hmax : c.blockSize ≤ 16777216 := h.2
  have hsize : c.blockSize.toUInt32.toNat = c.blockSize := by
    rw [Nat.toUInt32_eq, UInt32.toNat_ofNat']
    omega
  rw [ofConfig, config, hsize]

/-- **The bytes of the header of valid settings are read as that header.** -/
theorem ofBytes_toBytes (h : c.Valid) : ofBytes (ofConfig c).toBytes = .ok (ofConfig c) := by
  have hcheck : (ofConfig c).config.check = .ok () := by
    rw [config_ofConfig h]
    exact Config.check_eq_ok_iff.mpr h
  have hflags (b : Bool) : (if b then checksumFlag else 0) &&& ~~~checksumFlag = 0 ∧
      decide ((if b then checksumFlag else 0) &&& checksumFlag ≠ 0) = b := by
    cases b <;> decide
  rw [toBytes, magic, bytesOfWord, List.cons_append, List.cons_append, List.cons_append]
  simp only [List.cons_append, List.nil_append, ofBytes]
  rw [if_neg (fun hne => hne rfl), if_neg (fun hne => hne rfl), if_neg (fun hne => hne (hflags _).1),
    (hflags _).2, wordOfBytes_bytesOfWord]
  have hcheck' : (config ⟨(ofConfig c).version, (ofConfig c).checksum, (ofConfig c).blockSize⟩).check =
      .ok () := hcheck
  rw [hcheck']

theorem length_toBytes (h : FrameHeader) : h.toBytes.length = size := rfl

/-- A source that begins with the header of valid settings gives it. -/
theorem read_eq (h : c.Valid) {data : ByteArray} (hhead : (ofConfig c).toBytes <+: data.data.toList) :
    read { data := data } = .ok (ofConfig c) { data := data, position := size } := by
  have hsize : size ≤ data.size := by
    have hle := hhead.length_le
    rwa [length_toBytes, Array.length_toList] at hle
  have hbytes : (data.extract 0 (0 + size)).data.toList = (ofConfig c).toBytes := by
    rw [ByteArray.data_extract, Array.toList_extract, List.extract_eq_take_drop, List.drop_zero,
      List.prefix_iff_eq_take.mp hhead, length_toBytes]
    simp
  have hread : Source.read size { data := data } =
      .ok (data.extract 0 (0 + size)) { data := data, position := 0 + size } :=
    if_pos (show 0 + size ≤ Source.bound { data := data } from by rwa [Nat.zero_add])
  rw [read, hread]
  dsimp only
  rw [hbytes, ofBytes_toBytes h, Nat.zero_add]

end BlockPress.FrameHeader
