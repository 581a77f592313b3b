import BlockPress.Proofs.Column
import Mathlib.Dynamics.PeriodicPts.Defs

/-!
# Columns whose links are one cycle

Any bytes are the column of something: the bytes that are met along the links from a row on are the `word`
of that row, and **rows come in the order of their words** (`word_mono`), since the links keep the order of
rows with the same byte.  If the links are a single cycle, no two rows have the same word
(`word_injective`): otherwise the rows met at equal distances would go up forever.

So the words are the rotations of the block that is restored from some row, each row once, and no two of
them tie.

Main statement: **sorting the block that was restored gives the column and the origin back**
(`sort_restore`).
-/

namespace BlockPress.Column

open Counting Function Rotation

variable {column : ByteArray} {r r' : Fin column.size} {j k : ℕ}

/-- The row that a row is linked to. -/
def next (column : ByteArray) : Fin column.size → Fin column.size := (links column).get

/-- The links lead from every row to every other one. -/
def Cyclic (column : ByteArray) : Prop := ∀ r r' : Fin column.size, ∃ k, (next column)^[k] r = r'

/-- The bytes that are met along the links, behind the byte of the row itself. -/
def word (column : ByteArray) (r : Fin column.size) : Word :=
  toLex fun j => byteAt column ((next column)^[j + 1] r)

/-! ## The order of the rows -/

/-- Every row is the place of the row that it is linked to. -/
theorem place_next (r : Fin column.size) : place column (next column r) = r := by
  obtain ⟨i, hi, hplace⟩ := exists_place r.isLt
  have hnext : next column r = ⟨i, hi⟩ := by
    rw [← getElem_links hi]
    exact congrArg _ (Fin.ext hplace.symm)
  rw [hnext, hplace]

theorem byteAt_next_le (h : r ≤ r') : byteAt column (next column r) ≤ byteAt column (next column r') := by
  refine le_of_slot_le (n := column.size) (next column r').isLt ?_
  change place column (next column r) ≤ place column (next column r')
  rwa [place_next, place_next]

/-- **The links keep the order of rows with the same byte.** -/
theorem next_lt (h : r < r') (hbyte : byteAt column (next column r) = byteAt column (next column r')) :
    next column r < next column r' := by
  by_contra hle
  have hcount : Nat.count (byteAt column · = byteAt column (next column r')) (next column r') ≤
      Nat.count (byteAt column · = byteAt column (next column r')) (next column r) :=
    Nat.count_monotone _ (not_lt.mp hle)
  have hplace : place column (next column r') ≤ place column (next column r) := by
    rw [place, place, slot, slot, hbyte]
    exact Nat.add_le_add_left hcount _
  rw [place_next, place_next] at hplace
  exact absurd h (not_lt.mpr hplace)

/-- Rows stay in order for as long as the same bytes are met. -/
theorem iterate_lt (h : r < r') (hbytes : ∀ j < k,
    byteAt column ((next column)^[j + 1] r) = byteAt column ((next column)^[j + 1] r')) :
    (next column)^[k] r < (next column)^[k] r' := by
  induction k with
  | zero => exact h
  | succ k ih =>
    have hbyte := hbytes k k.lt_succ_self
    rw [iterate_succ_apply', iterate_succ_apply'] at hbyte ⊢
    exact next_lt (ih fun j hj => hbytes j (Nat.lt_succ_of_lt hj)) hbyte

/-- **Rows come in the order of their words.** -/
theorem word_mono : Monotone (word column) := by
  intro r r' h
  by_contra hlt
  obtain ⟨k, hk, hbyte⟩ := not_le.mp hlt
  have hne : r ≠ r' := by
    rintro rfl
    exact hlt (le_refl _)
  have hrows := iterate_lt (lt_of_le_of_ne h hne) fun j hj => (hk j hj).symm
  refine absurd hbyte (not_lt.mpr ?_)
  change byteAt column ((next column)^[k + 1] r) ≤ byteAt column ((next column)^[k + 1] r')
  rw [iterate_succ_apply', iterate_succ_apply']
  exact byteAt_next_le hrows.le

/-! ## A single cycle -/

/-- **In a single cycle no two rows have the same word.** -/
theorem word_injective (hcycle : Cyclic column) : Injective (word column) := by
  -- Rows at equal distances along the cycle would go up forever.
  have hne : ∀ r r' : Fin column.size, r < r' → word column r ≠ word column r' := by
    intro r r' hlt heq
    obtain ⟨d, rfl⟩ := hcycle r r'
    have hup : StrictMono fun i => (next column)^[d * i] r := by
      refine strictMono_nat_of_lt_succ fun i => ?_
      rw [Nat.mul_succ, iterate_add_apply]
      exact iterate_lt hlt fun j _ => congrFun heq j
    exact not_injective_infinite_finite _ hup.injective
  intro r r' heq
  obtain hlt | rfl | hgt := lt_trichotomy r r'
  · exact absurd heq (hne r r' hlt)
  · rfl
  · exact absurd heq.symm (hne r' r hgt)

/-- The cycle is as long as the column. -/
theorem minimalPeriod_next (hcycle : Cyclic column) (r : Fin column.size) :
    minimalPeriod (next column) r = column.size := by
  obtain ⟨k, hk⟩ := hcycle (next column r) r
  have hpos : 0 < minimalPeriod (next column) r :=
    minimalPeriod_pos_of_mem_periodicPts (mk_mem_periodicPts k.succ_pos hk)
  let steps (k : Fin (minimalPeriod (next column) r)) : Fin column.size := (next column)^[k] r
  have hinj : Injective steps := fun k k' h =>
    Fin.ext (iterate_injOn_Iio_minimalPeriod k.isLt k'.isLt h)
  have hsurj : Surjective steps := fun r' => by
    obtain ⟨k, rfl⟩ := hcycle r r'
    exact ⟨⟨k % _, Nat.mod_lt k hpos⟩, iterate_mod_minimalPeriod_eq⟩
  simpa using Fintype.card_of_bijective ⟨hinj, hsurj⟩

/-! ## Restoring along the cycle -/

theorem toList_follow (column : ByteArray) (left : ℕ) (r : Fin column.size) (block : ByteArray) :
    (follow column (links column) left r block).data.toList =
      block.data.toList ++ (List.range left).map fun k => column[(next column)^[k] r] := by
  induction left generalizing r block with
  | zero => simp [follow]
  | succ left ih =>
    rw [follow, ih, ByteArray.data_push, Array.toList_push, List.range_succ_eq_map]
    simp only [List.map_cons, List.map_map, List.append_assoc, List.singleton_append]
    rfl

/-- The bytes of a block are those along the cycle, from a row on. -/
structure Restored (column : ByteArray) (origin : Fin column.size) (block : ByteArray) : Prop where
  /-- There are as many bytes as in the column. -/
  size_eq : block.size = column.size
  /-- They come in this order. -/
  byteAt_eq : ∀ k, byteAt block k = byteAt column ((next column)^[k] origin)

theorem exists_restored (hcycle : Cyclic column) (origin : Fin column.size) :
    ∃ block, restore column origin = .ok block ∧ Restored column origin block := by
  have hlist := toList_follow column column.size origin (.emptyWithCapacity column.size)
  rw [restore, dif_pos origin.isLt]
  generalize follow column _ _ _ _ = block at hlist ⊢
  change block.data.toList =
    (List.range column.size).map fun k => column[(next column)^[k] origin] at hlist
  have hsize : block.size = column.size := by
    rw [← ByteArray.size_data, ← Array.length_toList, hlist, List.length_map, List.length_range]
  have hturn := isPeriodicPt_minimalPeriod (next column) origin
  rw [minimalPeriod_next hcycle] at hturn
  refine ⟨block, rfl, hsize, fun k => ?_⟩
  have hlt : k % column.size < block.size := (Nat.mod_lt k origin.pos).trans_eq hsize.symm
  have hget : block[k % column.size] = column[(next column)^[k % column.size] origin] := by
    rw [ByteArray.getElem_eq_getElem_data, ← Array.getElem_toList]
    simp only [hlist, List.getElem_map, List.getElem_range]
  calc byteAt block k = byteAt block (k % column.size) := by rw [← hsize, byteAt_mod]
    _ = block[k % column.size].toNat := (toNat_getElem hlt).symm
    _ = byteAt column ((next column)^[k % column.size] origin) := by
        rw [hget]
        exact toNat_getElem (Fin.isLt _)
    _ = byteAt column ((next column)^[k] origin) := by rw [hturn.iterate_mod_apply]

/-! ## The rows as rotations -/

namespace Restored

variable {origin : Fin column.size} {block : ByteArray}

/-- The row whose byte stands before a rotation of the block. -/
def row (column : ByteArray) (origin : Fin column.size) (a : Fin block.size) : Fin column.size :=
  (next column)^[before a] origin

/-- **A rotation reads as the word of its row.** -/
theorem word_row (h : Restored column origin block) (a : Fin block.size) :
    word column (row column origin a) = endless block a := by
  refine funext fun j => ?_
  change byteAt column ((next column)^[j + 1] ((next column)^[before a] origin)) = byteAt block (a + j)
  rw [← iterate_add_apply, ← h.byteAt_eq, Nat.add_comm (j + 1), byteAt_before_add]

theorem row_bijective (hcycle : Cyclic column) (h : Restored column origin block) :
    Bijective (row column origin : Fin block.size → Fin column.size) := by
  have hinj : Injective (row column origin : Fin block.size → Fin column.size) := fun a b heq => by
    have hlt (c : Fin block.size) : (c : ℕ) < minimalPeriod (next column) origin := by
      rw [minimalPeriod_next hcycle, ← h.size_eq]
      exact c.isLt
    exact before_injective (Fin.ext (iterate_injOn_Iio_minimalPeriod (hlt _) (hlt _) heq))
  exact (Fintype.bijective_iff_injective_and_card _).mpr ⟨hinj, by simp [h.size_eq]⟩

/-- The rotations of the block, by their rows. -/
noncomputable def rotation (hcycle : Cyclic column) (h : Restored column origin block) :
    Fin column.size ≃ Fin block.size := (Equiv.ofBijective _ (h.row_bijective hcycle)).symm

theorem row_rotation (hcycle : Cyclic column) (h : Restored column origin block)
    (r : Fin column.size) : row column origin (h.rotation hcycle r) = r :=
  Equiv.ofBijective_apply_symm_apply _ _ r

theorem endless_rotation (hcycle : Cyclic column) (h : Restored column origin block)
    (r : Fin column.size) : endless block (h.rotation hcycle r) = word column r := by
  rw [← h.word_row, row_rotation]

/-- The index that lists the rotations by their rows. -/
noncomputable def index (hcycle : Cyclic column) (h : Restored column origin block) : Array ℕ :=
  Array.ofFn fun r => (h.rotation hcycle r).val

/-- **The rows list the rotations of the block in order.** -/
theorem listing (hcycle : Cyclic column) (h : Restored column origin block) :
    Listing block (h.index hcycle) where
  perm := by
    rw [index, Array.toList_ofFn]
    have hnodup : (List.ofFn fun r => (h.rotation hcycle r).val).Nodup :=
      List.nodup_ofFn.mpr fun r r' heq => (h.rotation hcycle).injective (Fin.ext heq)
    refine (List.perm_ext_iff_of_nodup hnodup List.nodup_range).mpr fun a => ?_
    rw [List.mem_ofFn, List.mem_range]
    constructor
    · rintro ⟨r, rfl⟩
      exact Fin.isLt _
    · intro ha
      obtain ⟨r, hr⟩ := (h.rotation hcycle).surjective ⟨a, ha⟩
      exact ⟨r, congrArg Fin.val hr⟩
  sorted := by
    rw [index, Array.toList_ofFn, List.pairwise_ofFn]
    intro r r' hlt
    exact (h.endless_rotation hcycle r).trans_le
      ((word_mono hlt.le).trans_eq (h.endless_rotation hcycle r').symm)

/-- **The last bytes of the rotations are the column.** -/
theorem ofIndex_index (hcycle : Cyclic column) (h : Restored column origin block) :
    ofIndex block (h.index hcycle) = column := by
  have hsize : (ofIndex block (h.index hcycle)).size = column.size := by
    rw [size_ofIndex, index, Array.size_ofFn]
  refine ByteArray.ext (Array.ext hsize fun r _ hr => UInt8.toNat_inj.mp ?_)
  have hlast : (ofIndex block (h.index hcycle)).data[r] =
      lastByte block (h.rotation hcycle ⟨r, hr⟩) := by
    simp only [data_ofIndex, Array.getElem_map, index, Array.getElem_ofFn]
  rw [hlast, toNat_lastByte, h.byteAt_eq]
  change byteAt column (row column origin (h.rotation hcycle ⟨r, hr⟩)) = _
  rw [row_rotation]
  exact (toNat_getElem hr).symm

/-- The rotation at offset 1 is that of the row that the block was restored from. -/
theorem row_one (hlt : 1 % block.size < block.size) :
    row column origin (⟨1 % block.size, hlt⟩ : Fin block.size) = origin := by
  have hzero : (before (⟨1 % block.size, hlt⟩ : Fin block.size)).val = 0 := by
    obtain hone | hmany : block.size = 1 ∨ 1 < block.size := by omega
    · omega
    · simp [before, Nat.mod_eq_of_lt hmany]
  rw [row, hzero, iterate_zero, id]

end Restored

/-- **Sorting undoes restoring**: if the links of a column are a single cycle, sorting the block that is
restored from a row, by whatever sorter, gives the column and that row. -/
theorem sort_restore (hcycle : Cyclic column) {origin : ℕ} (horigin : origin < column.size)
    (s : Sorter) :
    ∃ block, restore column origin = .ok block ∧ (s.sort block).column block = column ∧
      (s.sort block).origin = origin := by
  obtain ⟨block, hrestore, h⟩ := exists_restored hcycle ⟨origin, horigin⟩
  have hrows := h.listing hcycle
  have hsort := s.listing_sort block
  refine ⟨block, hrestore, (ofIndex_eq_ofIndex hsort hrows).trans (h.ofIndex_index hcycle), ?_⟩
  obtain ⟨hlt, hfound⟩ := hsort.origin (by rw [h.size_eq]; omega)
  have hone : 1 % block.size < block.size := Nat.mod_lt 1 (Nat.zero_lt_of_lt hlt)
  -- The row that the sorter found and the origin have the same word.
  let o : Fin column.size := ⟨(s.sort block).origin, hlt.trans_eq h.size_eq⟩
  have hsorted : rowAt hsort ⟨_, hlt⟩ = ⟨1 % block.size, hone⟩ :=
    Fin.ext (Array.getElem?_eq_some_iff.mp hfound).2
  have hrow : rowAt hrows ⟨_, hlt⟩ = h.rotation hcycle o :=
    Fin.ext (by simp only [rowAt, Restored.index, Array.getElem_ofFn]; rfl)
  have hread := congrFun (endless_rowAt_eq hsort hrows) ⟨_, hlt⟩
  rw [comp_apply, comp_apply, hsorted, hrow, h.endless_rotation, ← h.word_row, Restored.row_one] at hread
  exact congrArg Fin.val (word_injective hcycle hread).symm

/-- The column of the rotations of "banana", from the third row. -/
theorem sort_restore_banana :
    let column : ByteArray := "nnbaaa".toUTF8
    Cyclic column ∧ 2 < column.size ∧
      ∃ block, restore column 2 = .ok block ∧ (Sorter.fresh.sort block).column block = column ∧
        (Sorter.fresh.sort block).origin = 2 := by
  intro column
  have hcycle : Cyclic column := by
    have hsteps : ∀ r r' : Fin column.size, ∃ k : Fin 6, (next column)^[k] r = r' := by decide +kernel
    intro r r'
    obtain ⟨k, hk⟩ := hsteps r r'
    exact ⟨k, hk⟩
  exact ⟨hcycle, by decide, sort_restore hcycle (by decide) Sorter.fresh⟩

end BlockPress.Column
