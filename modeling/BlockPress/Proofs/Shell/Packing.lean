import BlockPress.Proofs.Frame.Streaming
import BlockPress.Shell.Command

/-!
# Packing files chunk by chunk

A file is fed to the writer of its frame in chunks, whatever the size of a block is.

Main statement: **chunks of a file make the frame of all its bytes** (`packChunks_eq`).
-/

namespace BlockPress

open Rank

variable [BlockHash]

namespace FrameWriter.Holds

variable {config : Config} {first : BlockWriter (RangeWriter contextCount)}
  {held : ByteArray} {w : FrameWriter}

/-- Chunks from a place on are taken as the bytes from there on. -/
theorem feed (data : ByteArray) (i : ℕ) (h : Holds first held w) (hfirst : BlockWriter.Able config first)
    (hconfig : config.Valid) : ∃ w', Shell.feed data i w = .ok () w' ∧
      Holds first (held ++ data.extract i data.size) w' ∧ w'.bytesIn = w.bytesIn + (data.size - i) := by
  induction hn : data.size - i using Nat.strong_induction_on generalizing i w held with
  | h n ih =>
    rw [Shell.feed]
    by_cases hlt : i < data.size
    · obtain ⟨w₁, hw₁, h₁, hin₁⟩ := h.write hfirst hconfig (data.extract i (i + Shell.chunkSize))
      have hless : data.size - (i + Shell.chunkSize) < n := by
        rw [Shell.chunkSize]
        omega
      obtain ⟨w', hw', h', hin'⟩ := ih _ hless (i + Shell.chunkSize) h₁ rfl
      refine ⟨w', ?_, ?_, ?_⟩
      · rw [if_pos hlt, hw₁]
        exact hw'
      · rwa [ByteArray.append_assoc, ByteArray.extract_append_extract,
          Nat.min_eq_left (Nat.le_add_right i _), extract_eq_of_size_le (Nat.le_max_right _ _)] at h'
      · rw [hin', hin₁, ByteArray.size_extract, Shell.chunkSize]
        omega
    · refine ⟨w, if_neg hlt, ?_, by omega⟩
      rwa [extract_eq_empty (Nat.not_lt.mp hlt), ByteArray.append_empty]

end FrameWriter.Holds

namespace Shell

/-- **Chunks of a file make the frame of all its bytes.** -/
theorem packChunks_eq {config : Config} (h : config.Valid) (data : ByteArray) :
    ∃ frame, Frame.pack data config = .ok frame ∧ packChunks data config = .ok (data.size, frame) := by
  obtain ⟨w₀, s, hstart, hfirst, -, hin₀, hholds⟩ := FrameWriter.exists_holds_start h
  obtain ⟨w, hw, hfed, hin⟩ := hholds.feed data 0 hfirst h
  obtain ⟨w₁, hw₁, hfed₁, hin₁⟩ := hholds.write hfirst h data
  rw [ByteArray.extract_zero_size] at hfed
  obtain rfl : w₁ = w := hfed₁.unique hfed (hin₁.trans hin.symm)
  obtain ⟨w', hw'⟩ := hfed.close hfirst h
  refine ⟨w'.sink.written, ?_, ?_⟩
  · rw [Frame.pack, hstart]
    dsimp only
    rw [hw₁]
    dsimp only
    rw [hw']
  · rw [packChunks, hstart]
    dsimp only
    rw [hw]
    dsimp only
    rw [hw', hin₁, hin₀, Nat.zero_add]

end Shell

end BlockPress
