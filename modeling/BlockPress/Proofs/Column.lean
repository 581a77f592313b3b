import BlockPress.Column
import BlockPress.Proofs.Counting
import BlockPress.Proofs.Loops
import BlockPress.Proofs.Rotation.Sorted
import Mathlib.Data.Fin.Tuple.Sort

/-!
# The block of a column

The rotations one byte before those of the rows, sorted stably by their first bytes, are in order, so
row by row they read as the rows themselves do (`endless_row_placing`), even where rotations tie.  So
the link of a row leads to one that reads as its rotation does one byte later.

Main statements: **the column and the origin of a block give the block back** (`restore_ofIndex`), and
how an index orders rotations that tie changes neither the column nor that
(`restore_of_sorted_permutation`).
-/

namespace BlockPress.Column

open Counting Rotation

/-! ## Counting -/

section Counting

variable (column : ByteArray)

/-- The row that the byte of a row has in the sorted column. -/
def place (i : ℕ) : ℕ := slot (byteAt column) column.size i

variable {column}

/-- The counts are those of the bytes before a row. -/
def Counted (column : ByteArray) (i : ℕ) (counts : Vector ℕ 256) : Prop :=
  ∀ c, ∀ hc : c < 256, counts[c] = Nat.count (byteAt column · = c) i

theorem Counted.start : Counted column 0 (Vector.replicate 256 0) := fun _ hc =>
  Vector.getElem_replicate hc

theorem Counted.step {i : ℕ} {v : Vector ℕ 256} (h : Counted column i v) (hi : i < column.size) :
    Counted column (i + 1) (v.set column[i].toNat (getElem v column[i].toNat column[i].toNat_lt + 1)
      column[i].toNat_lt) := fun c hc => by
  simp only [Vector.getElem_set, h _ _, Nat.count_succ, toNat_getElem hi]
  split
  · next heq => rw [heq]
  · rfl

theorem counted_counts (column : ByteArray) : Counted column column.size (counts column) :=
  foldlBytes_invariant column (Counted column) .start fun _ hi _ h => h.step hi

/-- The rows of the bytes below one are the first rows, and the sum is the next of them. -/
def Summed (column : ByteArray) (i : ℕ) (s : Vector ℕ 256 × ℕ) : Prop :=
  s.2 = below (byteAt column) column.size i ∧
    ∀ c, ∀ hc : c < 256, c < i → getElem s.1 c hc = below (byteAt column) column.size c

theorem Summed.start : Summed column 0 (Vector.replicate 256 0, 0) :=
  ⟨(below_zero _ _).symm, fun c _ hc => absurd hc (Nat.not_lt_zero c)⟩

theorem Summed.step {i : ℕ} (hi : i < 256) {s : Vector ℕ 256 × ℕ} (h : Summed column i s) :
    Summed column (i + 1) (s.1.set i s.2 hi, s.2 + (counts column)[i]) := by
  obtain ⟨hsum, hrows⟩ := h
  refine ⟨?_, fun c hc hlt => ?_⟩
  · rw [below_succ, ← hsum]
    exact congrArg _ (counted_counts column i hi)
  · simp only [Vector.getElem_set]
    split
    · next heq => rw [hsum, heq]
    · next hne => exact hrows c hc (by omega)

/-- The next rows, of which those of the bytes before a row are taken. -/
def Taken (column : ByteArray) (i : ℕ) (rows : Vector ℕ 256) : Prop :=
  ∀ c, ∀ hc : c < 256,
    rows[c] = below (byteAt column) column.size c + Nat.count (byteAt column · = c) i

theorem Summed.taken {s : Vector ℕ 256 × ℕ} (h : Summed column 256 s) : Taken column 0 s.1 :=
  fun c hc => by
    rw [Nat.count_zero, Nat.add_zero]
    exact h.2 c hc hc

theorem taken_firstRows (column : ByteArray) : Taken column 0 (firstRows (counts column)) := by
  have hfold := finFoldl_invariant (n := 256) (a := (Vector.replicate 256 0, 0))
    (f := fun s b => (s.1.set b.val s.2 b.isLt, s.2 + (counts column).get b)) (Summed column) .start
    fun i _ h => h.step i.isLt
  exact hfold.taken

/-- The next row of a byte is its place. -/
theorem Taken.getElem_eq {i : ℕ} {rows : Vector ℕ 256} (h : Taken column i rows)
    (hi : i < column.size) : getElem rows column[i].toNat column[i].toNat_lt = place column i := by
  simp only [toNat_getElem hi]
  exact h _ (byteAt_lt column i)

theorem Taken.step {i : ℕ} {rows : Vector ℕ 256} (h : Taken column i rows) (hi : i < column.size) :
    Taken column (i + 1) (rows.set column[i].toNat (place column i + 1) column[i].toNat_lt) :=
  fun c hc => by
    simp only [toNat_getElem hi, Vector.getElem_set]
    split
    · next heq => rw [place, slot, Nat.count_succ, heq, if_pos rfl, Nat.add_assoc]
    · next hne => rw [h c hc, Nat.count_succ, if_neg hne, Nat.add_zero]

/-- **The link at the place of a row leads back to it.** -/
theorem getElem_links {i : ℕ} (hi : i < column.size) :
    getElem (links column) (place column i) (slot_lt hi) = ⟨i, hi⟩ := by
  have hfold := fold_invariant (n := column.size)
    (a := (firstRows (counts column), Vector.ofFn fun i => i))
    (f := fun i h (s : Vector ℕ 256 × Vector (Fin column.size) column.size) =>
      have := column[i].toNat_lt
      let c := column[i].toNat
      let row := s.1[c]
      (s.1.set c (row + 1), s.2.setIfInBounds row ⟨i, h⟩))
    (fun j s => Taken column j s.1 ∧
      ∀ i, ∀ hi : i < column.size, i < j → getElem s.2 (place column i) (slot_lt hi) = ⟨i, hi⟩)
    ⟨?_, fun i _ hlt => absurd hlt (Nat.not_lt_zero i)⟩ fun j hj s ih => ?_
  · exact hfold.2 i hi hi
  · dsimp only
    exact taken_firstRows column
  · obtain ⟨hrows, hlinks⟩ := ih
    simp only [hrows.getElem_eq hj]
    refine ⟨hrows.step hj, fun i hi hlt => ?_⟩
    rw [Vector.getElem_setIfInBounds]
    split
    · next heq => exact Fin.ext (slot_injective hj hi heq)
    · next hne =>
      exact hlinks i hi (Nat.lt_of_le_of_ne (Nat.le_of_lt_succ hlt) fun h => hne (by rw [h]))

/-- Every row of the sorted column is the place of a row. -/
theorem exists_place {r : ℕ} (hr : r < column.size) : ∃ i < column.size, place column i = r := by
  have hinjective : Function.Injective fun i : Fin column.size =>
      (⟨place column i, slot_lt i.isLt⟩ : Fin column.size) := fun i j heq =>
    Fin.ext (slot_injective i.isLt j.isLt (congrArg Fin.val heq))
  obtain ⟨i, hi⟩ := Finite.surjective_of_injective hinjective ⟨r, hr⟩
  exact ⟨i, i.isLt, congrArg Fin.val hi⟩

end Counting

/-! ## The rows of a block -/

section Rows

variable {block : ByteArray} {index : Array ℕ}

theorem data_ofIndex (block : ByteArray) (index : Array ℕ) :
    (ofIndex block index).data = index.map (lastByte block) := by
  have hfold (l : List ℕ) (column : ByteArray) :
      (l.foldl (fun column p => column.push (lastByte block p)) column).data.toList =
        column.data.toList ++ l.map (lastByte block) := by
    induction l generalizing column with
    | nil => exact (List.append_nil _).symm
    | cons p l ih =>
      rw [List.foldl_cons, ih, List.map_cons, ByteArray.data_push, Array.toList_push,
        List.append_assoc]
      rfl
  refine Array.toList_inj.mp ?_
  rw [ofIndex, ← Array.foldl_toList, hfold, Array.toList_map]
  rfl

theorem size_ofIndex (block : ByteArray) (index : Array ℕ) :
    (ofIndex block index).size = index.size := by
  rw [← ByteArray.size_data, data_ofIndex, Array.size_map]

/-- The last byte of a rotation is the first one of the rotation before it. -/
theorem toNat_lastByte (p : Fin block.size) :
    (lastByte block p).toNat = byteAt block (before p) := by
  have hp := p.isLt
  rw [lastByte, before]
  by_cases h : p.val = 0
  · rw [if_pos h, dif_pos h, dif_pos (by omega)]
    exact toNat_getElem _
  · rw [if_neg h, dif_neg h, dif_pos (by omega)]
    exact toNat_getElem _

/-- The rotation of a row. -/
def rowAt (h : Listing block index) (r : Fin block.size) : Fin block.size :=
  ⟨(getElem index r.val (r.isLt.trans_eq h.size_eq.symm)), List.mem_range.mp (h.perm.mem_iff.mp
    (Array.getElem_mem_toList _))⟩

theorem rowAt_injective (h : Listing block index) : Function.Injective (rowAt h) := by
  intro r r' heq
  have hnodup : index.toList.Nodup := h.perm.nodup_iff.mpr List.nodup_range
  have hval := congrArg Fin.val heq
  exact Fin.ext ((hnodup.getElem_inj_iff).mp hval)

theorem rowAt_le (h : Listing block index) {r r' : Fin block.size} (hr : r ≤ r') :
    endless block (rowAt h r) ≤ endless block (rowAt h r') := by
  obtain rfl | hlt := eq_or_lt_of_le hr
  · exact le_refl _
  · exact List.pairwise_iff_getElem.mp h.sorted r r' _ _ hlt

theorem size_column (h : Listing block index) : (ofIndex block index).size = block.size :=
  (size_ofIndex block index).trans h.size_eq

theorem byteAt_ofIndex (h : Listing block index) (r : Fin block.size) :
    byteAt (ofIndex block index) r = byteAt block (before (rowAt h r)) := by
  have hr : r.val < (ofIndex block index).size := r.isLt.trans_eq (size_column h).symm
  have hget : (ofIndex block index)[r.val] = lastByte block (rowAt h r) := by
    rw [ByteArray.getElem_eq_getElem_data]
    simp only [data_ofIndex, Array.getElem_map]
    rfl
  rw [← toNat_getElem hr, hget, toNat_lastByte]

/-- The places of the rows in the sorted column. -/
noncomputable def placing (h : Listing block index) : Equiv.Perm (Fin block.size) :=
  Equiv.ofBijective
    (fun r => ⟨place (ofIndex block index) r,
      (slot_lt (r.isLt.trans_eq (size_column h).symm)).trans_eq (size_column h)⟩)
    (Finite.injective_iff_bijective.mp fun r r' heq =>
      Fin.ext (slot_injective (r.isLt.trans_eq (size_column h).symm)
        (r'.isLt.trans_eq (size_column h).symm) (congrArg Fin.val heq)))

/-- **Sorted stably by their first bytes, the rotations before those of the rows are in order.** -/
theorem endless_before_le_of_place_le (h : Listing block index) {r r' : Fin block.size}
    (hle : placing h r ≤ placing h r') :
    endless block (before (rowAt h r)) ≤ endless block (before (rowAt h r')) := by
  have hr' : r'.val < (ofIndex block index).size := r'.isLt.trans_eq (size_column h).symm
  have hbytes := le_of_slot_le hr' (show place _ r ≤ place _ r' from hle)
  rw [byteAt_ofIndex h, byteAt_ofIndex h] at hbytes
  obtain hlt | heq := Nat.lt_or_eq_of_le hbytes
  · exact (reading_lt_iff.mpr ⟨0, fun k hk => absurd hk (Nat.not_lt_zero k), hlt⟩).le
  · refine endless_before_le heq (rowAt_le h (not_lt.mp fun hlt => ?_))
    have hkeys : byteAt (ofIndex block index) r = byteAt (ofIndex block index) r' := by
      rw [byteAt_ofIndex h, byteAt_ofIndex h, heq]
    have hplaces : place (ofIndex block index) r ≤ place (ofIndex block index) r' := hle
    rw [place, place, slot, slot, hkeys] at hplaces
    exact absurd (Nat.le_of_add_le_add_left hplaces)
      (Nat.not_le.mpr (Nat.count_strict_mono (p := (byteAt _ · = byteAt _ r'.val)) rfl hlt))

/-- **At its place in the sorted column a row reads as the rotation before its own.** -/
theorem endless_row_placing (h : Listing block index) (r : Fin block.size) :
    endless block (rowAt h (placing h r)) = endless block (before (rowAt h r)) := by
  let σ : Equiv.Perm (Fin block.size) :=
    Equiv.ofBijective (rowAt h) (Finite.injective_iff_bijective.mp (rowAt_injective h))
  let τ : Equiv.Perm (Fin block.size) := (placing h).symm.trans
    (σ.trans (Equiv.ofBijective before (Finite.injective_iff_bijective.mp before_injective)))
  have hσ : Monotone (endless block ∘ σ) := fun r r' hr => rowAt_le h hr
  have hτ : Monotone (endless block ∘ τ) := fun r r' hr => by
    refine endless_before_le_of_place_le h ?_
    rwa [Equiv.apply_symm_apply, Equiv.apply_symm_apply]
  have heq := congrFun (Tuple.unique_monotone hσ hτ) (placing h r)
  change endless block (rowAt h (placing h r)) =
    endless block (before (rowAt h ((placing h).symm (placing h r)))) at heq
  rwa [Equiv.symm_apply_apply] at heq

/-! ## Following the links -/

theorem byteAt_before (p : Fin block.size) :
    byteAt block (before p) = byteAt block (p + (block.size - 1)) := by
  have hp := p.isLt
  rw [← byteAt_mod block (p + (block.size - 1)), before]
  by_cases h : p.val = 0
  · rw [dif_pos h, h, Nat.zero_add, Nat.mod_eq_of_lt (by omega)]
  · rw [dif_neg h, show p.val + (block.size - 1) = p.val - 1 + block.size by omega,
      Nat.add_mod_right, Nat.mod_eq_of_lt (by omega)]

theorem push_extract {k : ℕ} (hk : k < block.size) :
    (block.extract 0 k).push block[k] = block.extract 0 (k + 1) := by
  refine ByteArray.ext ?_
  rw [ByteArray.data_push, ByteArray.data_extract, ByteArray.data_extract]
  exact Array.push_extract_getElem hk

/-- **Each step along the links reads the next byte.** -/
theorem follow_eq (h : Listing block index) {left k : ℕ} (hk : k + left = block.size)
    (r : Fin block.size) (hr : r.val < (ofIndex block index).size)
    (hread : reading block (rowAt h r) = reading block (k + 1)) :
    follow (ofIndex block index) (links (ofIndex block index)) left ⟨r, hr⟩ (block.extract 0 k) =
      block := by
  induction left generalizing k r with
  | zero =>
    obtain rfl : k = block.size := hk
    rw [follow]
    exact ByteArray.extract_zero_size
  | succ left ih =>
    obtain ⟨i, rfl⟩ := (placing h).surjective r
    have hlt : k < block.size := by omega
    have hi : i.val < (ofIndex block index).size := i.isLt.trans_eq (size_column h).symm
    have hbyte : (ofIndex block index)[(placing h i).val] = block[k] := by
      refine UInt8.toNat_inj.mp ?_
      rw [toNat_getElem hr, toNat_getElem hlt, byteAt_ofIndex h, byteAt_before,
        reading_eq_iff.mp hread, ← byteAt_mod,
        show k + 1 + (block.size - 1) = k + block.size by omega, Nat.add_mod_right, byteAt_mod]
    have hlink : (links (ofIndex block index))[(placing h i).val] = ⟨i, hi⟩ := getElem_links hi
    have hnext : reading block (rowAt h i) = reading block (k + 1 + 1) := by
      rw [← reading_before_add_one]
      exact reading_add_eq ((endless_row_placing h i).symm.trans hread) 1
    rw [follow]
    change follow _ _ left (links (ofIndex block index))[(placing h i).val]
      ((block.extract 0 k).push (ofIndex block index)[(placing h i).val]) = block
    rw [hbyte, hlink, push_extract hlt]
    exact ih (by omega) i hi hnext

/-- **The column and the row of the rotation at offset 1 give the block back.** -/
theorem restore_ofIndex (h : Listing block index) {origin : ℕ}
    (hrow : index[origin]? = some (1 % block.size)) :
    restore (ofIndex block index) origin = .ok block := by
  obtain ⟨hlt, hget⟩ := Array.getElem?_eq_some_iff.mp hrow
  have hr : origin < (ofIndex block index).size := hlt.trans_eq (size_ofIndex block index).symm
  have hn : origin < block.size := hlt.trans_eq h.size_eq
  have hread : reading block (rowAt h ⟨origin, hn⟩) = reading block (0 + 1) := by
    rw [← reading_mod block (0 + 1)]
    exact congrArg (reading block) hget
  have hempty : block.extract 0 0 = .emptyWithCapacity (ofIndex block index).size :=
    ByteArray.extract_same
  rw [restore, dif_pos hr, ← hempty]
  exact congrArg _ (follow_eq h ((Nat.zero_add _).trans (size_column h)) ⟨origin, hn⟩ hr hread)

/-! ## Ties -/

variable {index' : Array ℕ}

/-- Row by row the rotations of two listings read alike, even where they are different ones. -/
theorem endless_rowAt_eq (h : Listing block index) (h' : Listing block index') :
    endless block ∘ rowAt h = endless block ∘ rowAt h' := by
  let σ := Equiv.ofBijective _ (Finite.injective_iff_bijective.mp (rowAt_injective h))
  let τ := Equiv.ofBijective _ (Finite.injective_iff_bijective.mp (rowAt_injective h'))
  have hσ : Monotone (endless block ∘ σ) := fun _ _ hr => rowAt_le h hr
  have hτ : Monotone (endless block ∘ τ) := fun _ _ hr => rowAt_le h' hr
  have heq := Tuple.unique_monotone hσ hτ
  exact heq

/-- **All listings of a block have the same column.** -/
theorem ofIndex_eq_ofIndex (h : Listing block index) (h' : Listing block index') :
    ofIndex block index = ofIndex block index' := by
  have hsize : (ofIndex block index).size = (ofIndex block index').size :=
    (size_column h).trans (size_column h').symm
  refine ByteArray.ext (Array.ext hsize fun r hr hr' => ?_)
  have hrow : r < block.size := hr.trans_eq (size_column h)
  have hread : reading block (rowAt h ⟨r, hrow⟩) = reading block (rowAt h' ⟨r, hrow⟩) :=
    congrFun (endless_rowAt_eq h h') ⟨r, hrow⟩
  refine UInt8.toNat_inj.mp ?_
  calc (ofIndex block index)[r].toNat = byteAt block (before (rowAt h ⟨r, hrow⟩)) :=
        (toNat_getElem hr).trans (byteAt_ofIndex h ⟨r, hrow⟩)
    _ = byteAt block (before (rowAt h' ⟨r, hrow⟩)) := by
        rw [byteAt_before, byteAt_before, reading_eq_iff.mp hread]
    _ = (ofIndex block index')[r].toNat :=
        ((toNat_getElem hr').trans (byteAt_ofIndex h' ⟨r, hrow⟩)).symm

/-- **However ties are broken, the column is the same and gives the block back**, from the one row of the
rotation at offset 1. -/
theorem restore_of_sorted_permutation (hpos : 0 < block.size)
    (hperm : index.toList.Perm (List.range block.size))
    (hsorted : index.toList.IsChain fun p q => compare block p q ≠ .gt) :
    (∀ index' : Array ℕ, index'.toList.Perm (List.range block.size) →
        (index'.toList.IsChain fun p q => compare block p q ≠ .gt) →
        ofIndex block index' = ofIndex block index) ∧
      (∃! row : ℕ, index[row]? = some (1 % block.size)) ∧
      ∀ row : ℕ, index[row]? = some (1 % block.size) →
        restore (ofIndex block index) row = .ok block := by
  have h := Listing.of_compare hperm hsorted
  refine ⟨fun index' hperm' hsorted' => ofIndex_eq_ofIndex (.of_compare hperm' hsorted') h, ?_,
    fun row hrow => restore_ofIndex h hrow⟩
  have hmem : 1 % block.size ∈ index :=
    Array.mem_toList_iff.mp (hperm.mem_iff.mpr (List.mem_range.mpr (Nat.mod_lt 1 hpos)))
  obtain ⟨row, hlt, hrow⟩ := Array.getElem_of_mem hmem
  refine ⟨row, Array.getElem?_eq_some_iff.mpr ⟨hlt, hrow⟩, fun row' hrow' => ?_⟩
  obtain ⟨hlt', heq⟩ := Array.getElem?_eq_some_iff.mp hrow'
  have hnodup : index.toList.Nodup := hperm.nodup_iff.mpr List.nodup_range
  have hrows : index.toList[row'] = index.toList[row] := heq.trans hrow.symm
  exact hnodup.getElem_inj_iff.mp hrows

end Rows

/-- Four bytes that repeat two, with both orders of the rotations that tie. -/
theorem restore_of_sorted_permutation_twice :
    let block : ByteArray := ⟨#[98, 97, 98, 97]⟩
    (#[3, 1, 2, 0].toList.IsChain fun p q => compare block p q ≠ .gt) ∧
      ofIndex block #[1, 3, 0, 2] = ofIndex block #[3, 1, 2, 0] ∧
      restore (ofIndex block #[3, 1, 2, 0]) 1 = .ok block := by
  intro block
  have hsorted : #[3, 1, 2, 0].toList.IsChain fun p q => compare block p q ≠ .gt := by
    decide +kernel
  have hsorted' : #[1, 3, 0, 2].toList.IsChain fun p q => compare block p q ≠ .gt := by
    decide +kernel
  obtain ⟨hsame, -, hrestore⟩ :=
    @restore_of_sorted_permutation block #[3, 1, 2, 0] (by decide) (by decide) hsorted
  exact ⟨hsorted, hsame _ (by decide) hsorted', hrestore 1 rfl⟩

end BlockPress.Column
