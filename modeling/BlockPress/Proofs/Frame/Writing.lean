import BlockPress.Frame.Writer
import BlockPress.Proofs.Block.Blocks
import BlockPress.Proofs.Extracts

/-!
# The blocks of a frame

A frame writer cuts data into pieces of the block size, of which only the last one may be shorter
(`cut`).  It sends the symbols of one piece after the other, and then the end of the stream
(`streamSymbols`).

Main statement: **a writer whose coder takes these symbols has written the data**
(`FrameWriter.write_close_eq`), what is pending behind the last full block included.
-/

namespace BlockPress

open Rank Rotation

/-- The pieces of data from a place on. -/
def cut (size : ℕ) (data : ByteArray) (i : ℕ) : List ByteArray :=
  if 0 < size ∧ i < data.size then data.extract i (i + size) :: cut size data (i + size) else []
termination_by data.size - i

theorem size_piece {size : ℕ} {data : ByteArray} {i : ℕ} (hsize : 0 < size) (hi : i < data.size) :
    0 < (data.extract i (i + size)).size ∧ (data.extract i (i + size)).size ≤ size := by
  rw [ByteArray.size_extract]
  omega

theorem cut_eq_nil {size : ℕ} {data : ByteArray} {i : ℕ} (h : data.size ≤ i) :
    cut size data i = [] := by
  rw [cut, if_neg fun hi => absurd hi.2 (Nat.not_lt.mpr h)]

/-- The pieces put behind each other are the data from the place on. -/
theorem foldl_cut {size : ℕ} (hsize : 0 < size) (data : ByteArray) (i : ℕ) (out : ByteArray) :
    (cut size data i).foldl (· ++ ·) out = out ++ data.extract i data.size := by
  fun_induction cut size data i generalizing out with
  | case1 i hi ih =>
    rw [List.foldl_cons, ih, ByteArray.append_assoc]
    rw [ByteArray.extract_append_extract, Nat.min_eq_left (Nat.le_add_right i size),
      extract_eq_of_size_le (Nat.le_max_right _ _)]
  | case2 i hi =>
    have hge : data.size ≤ i := Nat.not_lt.mp fun hlt => hi ⟨hsize, hlt⟩
    rw [List.foldl_nil, extract_eq_empty hge, ByteArray.append_empty]

/-- The piece of data from a place on, if the place lies in the data. -/
def piece (size : ℕ) (data : ByteArray) (i : ℕ) : Option ByteArray :=
  if i < data.size then some (data.extract i (i + size)) else none

/-- The pieces stand one behind the other. -/
theorem getElem?_cut {size : ℕ} (hsize : 0 < size) (data : ByteArray) (i j : ℕ) :
    (cut size data i)[j]? = piece size data (i + j * size) := by
  induction j generalizing i with
  | zero =>
    rw [cut, piece, Nat.zero_mul, Nat.add_zero]
    by_cases hi : i < data.size
    · rw [if_pos ⟨hsize, hi⟩, if_pos hi]
      rfl
    · rw [if_neg fun h => hi h.2, if_neg hi]
      rfl
  | succ j ih =>
    have hnext : i + (j + 1) * size = i + size + j * size := by rw [Nat.succ_mul]; omega
    by_cases hi : i < data.size
    · rw [cut, if_pos ⟨hsize, hi⟩, List.getElem?_cons_succ, ih, hnext]
    · rw [cut_eq_nil (Nat.not_lt.mp hi), List.getElem?_nil, piece, if_neg (by omega)]

/-- No piece is empty or too large. -/
theorem size_of_mem_cut {size : ℕ} (hsize : 0 < size) {data b : ByteArray} {i : ℕ}
    (hb : b ∈ cut size data i) : 0 < b.size ∧ b.size ≤ size := by
  obtain ⟨j, hj⟩ := List.mem_iff_getElem?.mp hb
  rw [getElem?_cut hsize, piece] at hj
  split at hj
  · next hlt =>
    cases hj
    exact size_piece hsize hlt
  · cases hj

variable [BlockHash]

namespace FrameWriter

variable {config : Config} {data : ByteArray} {e f g : RangeWriter contextCount} {l : RecencyList}
  {s : Sorter} {n i bytesIn : ℕ}

/-- Closing without pending bytes ends the stream. -/
theorem close_of_empty (hend : sendAll (streamSymbols config l s []) e = .ok () f)
    (hclose : RangeWriter.close f = .ok () g) :
    ∃ w, close ⟨⟨⟨e, l, 0⟩, config, s, n⟩, .empty, bytesIn⟩ = .ok () w ∧ w.sink = g.sink := by
  have hempty : ByteArray.empty.isEmpty = true := rfl
  refine ⟨⟨⟨⟨g, l, 0⟩, config, s, n⟩, .empty, bytesIn⟩, ?_, rfl⟩
  rw [close, if_pos hempty]
  dsimp only
  rw [BlockWriter.close_eq hend hclose]

/-- Closing writes what is pending as the last block. -/
theorem close_of_pending {piece : ByteArray} (hpos : 0 < piece.size)
    (hfit : piece.size ≤ config.blockSize)
    (h : sendAll (streamSymbols config l s [piece]) e = .ok () f)
    (hclose : RangeWriter.close f = .ok () g) :
    ∃ w, close ⟨⟨⟨e, l, 0⟩, config, s, n⟩, piece, bytesIn⟩ = .ok () w ∧ w.sink = g.sink := by
  have hempty : ¬piece.isEmpty = true := fun h => hpos.ne' (beq_iff_eq.mp h)
  obtain ⟨d, l', s', hwrite, hend⟩ := BlockWriter.write_cons (extract_of_size_le hfit) hpos h
  refine ⟨⟨⟨⟨g, l', 0⟩, config, s', n + 1⟩, .empty, bytesIn⟩, ?_, rfl⟩
  rw [close, if_neg hempty, writePending, hwrite]
  dsimp only
  rw [BlockWriter.close_eq hend hclose]

/-- **A writer whose coder takes the symbols of the pieces has written the data.** -/
theorem write_close_eq
    (h : sendAll (streamSymbols config l s (cut config.blockSize data i)) e = .ok () f)
    (hconfig : config.Valid) (hclose : RangeWriter.close f = .ok () g) :
    ∃ w w', writeFrom data i ⟨⟨⟨e, l, 0⟩, config, s, n⟩, .empty, bytesIn⟩ = .ok () w ∧
      close w = .ok () w' ∧ w'.sink = g.sink := by
  fun_induction cut config.blockSize data i generalizing e l s n with
  | case1 i hi ih =>
    obtain ⟨hpos, hfit⟩ := size_piece hi.1 hi.2
    rw [writeFrom]
    by_cases hfull : i + config.blockSize ≤ data.size
    · obtain ⟨d, l', s', hwrite, hrest⟩ := BlockWriter.write_cons (extract_of_size_le hfit) hpos h
      obtain ⟨w, w', hw, hw', hsink⟩ := ih hrest
      refine ⟨w, w', ?_, hw', hsink⟩
      dsimp only
      rw [if_pos ⟨hi.1, hfull⟩, hwrite]
      exact hw
    · have hlast : data.extract i (i + config.blockSize) = data.extract i data.size :=
        extract_eq_of_size_le (Nat.le_of_not_le hfull)
      rw [cut_eq_nil (by omega), hlast] at h
      rw [hlast] at hpos hfit
      obtain ⟨w, hw, hsink⟩ := close_of_pending hpos hfit h hclose
      refine ⟨_, w, ?_, hw, hsink⟩
      dsimp only
      rw [if_neg fun hc => hfull hc.2, ByteArray.empty_append]
  | case2 i hi =>
    obtain ⟨w, hw, hsink⟩ := close_of_empty h hclose
    refine ⟨_, w, ?_, hw, hsink⟩
    have hge : data.size ≤ i := Nat.not_lt.mp fun hlt => hi ⟨hconfig.1, hlt⟩
    have hpos := hconfig.1
    rw [writeFrom]
    dsimp only
    rw [if_neg (by omega), extract_eq_empty hge, ByteArray.append_empty]

end FrameWriter

end BlockPress
