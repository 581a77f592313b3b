import BlockPress.Proofs.Rotation.Building
import BlockPress.Proofs.Rotation.Visits

/-!
# Sorted rotations

Short blocks are sorted by insertion and others by groups, but what a `Sorter` leaves behind is the same
for both: an index that lists each rotation once and in order, and the row of the rotation at offset 1.
What the tables held before has no influence.

Main statement: **`Sorter.sort` sorts the rotations of a block** (`Sorter.sort_spec`).
-/

namespace BlockPress.Rotation

open Sorting
open scoped Standard

variable {block : ByteArray}

/-- The index lists each rotation once, in order. -/
structure Listing (block : ByteArray) (index : Array ℕ) : Prop where
  /-- Each rotation once. -/
  perm : index.toList.Perm (List.range block.size)
  /-- A smaller rotation stands before a larger one. -/
  sorted : index.toList.Pairwise fun p q => reading block p ≤ reading block q

namespace Sorter

/-! ## Short blocks -/

theorem respects_compare (block : ByteArray) :
    Respects (compare block) (reading block) fun _ => True := by
  intro a b _ _
  rw [compare_eq_cmp]
  obtain hlt | heq | hgt := lt_trichotomy (reading block a) (reading block b)
  · rw [(cmp_eq_lt_iff _ _).mpr hlt]
    exact hlt.le
  · rw [(cmp_eq_eq_iff _ _).mpr heq]
    exact heq
  · rw [(cmp_eq_gt_iff _ _).mpr hgt]
    exact hgt.le

theorem pairwise_of_sortedOn {α : Type} {m : ℕ} {key : α → Word} {v : Vector α m}
    (h : SortedOn key (Span.all m) v) : v.toList.Pairwise fun p q => key p ≤ key q := by
  refine List.pairwise_iff_getElem.mpr fun i j hi hj hij => ?_
  rw [Vector.length_toList] at hi hj
  rw [Vector.getElem_toList, Vector.getElem_toList]
  exact h i j ⟨Nat.zero_le _, hi⟩ ⟨Nat.zero_le _, hj⟩ hij

theorem listing_sortByInsertion (s : Sorter) : Listing block (s.sortByInsertion block).index where
  perm := by
    have hperm : (insertion (compare block) (Span.all block.size) (Vector.ofFn Fin.val)).toList.Perm
        (Vector.ofFn Fin.val).toList := (rearranges_insertion _).toList_perm
    rwa [Vector.toList_ofFn, List.ofFn_eq_map, List.map_coe_finRange_eq_range] at hperm
  sorted := pairwise_of_sortedOn
    (sortedOn_insertion (respects_compare block) fun _ _ => trivial)

/-! ## Longer blocks -/

/-- All is well before the first visit. -/
theorem sound_start (h : 0 < block.size) (t : GroupTable) (settled : Vector Bool groupCount) :
    Progress.Sound ⟨(byGroups (keyGroup (KeyTable.ofBlock block h)) t).2, KeyTable.ofBlock block h,
      settled.map fun _ => false, Vector.replicate 256 false⟩ where
  arranged := arranged_byGroups (val_keyGroup h) t
  faithful := KeyTable.faithful_ofBlock h
  sorted a b hab := by
    rw [Settled, Vector.getElem_map] at hab
    exact absurd hab Bool.false_ne_true
  settled a ha := absurd (Vector.getElem_replicate a.toNat_lt) ha

theorem listing_of_arranged {index : Vector (Fin block.size) block.size} (ha : Arranged block index)
    (hs : SortedOn (endless block) (Span.all block.size) index) :
    Listing block (index.toArray.map Fin.val) where
  perm := by
    let σ : Equiv.Perm (Fin block.size) := Equiv.ofBijective index.get ⟨ha.injective, ha.surjective⟩
    rw [Array.toList_map, ← List.map_coe_finRange_eq_range, ← List.ofFn_eq_map]
    change (index.toList.map Fin.val).Perm _
    rw [toList_eq_ofFn, List.map_ofFn]
    exact σ.ofFn_comp_perm Fin.val
  sorted := by
    rw [Array.toList_map, List.pairwise_map]
    exact pairwise_of_sortedOn hs

theorem listing_sortByGroups (hn : groupedSize ≤ block.size) (s : Sorter) :
    Listing block (s.sortByGroups block hn).index := by
  obtain ⟨-, starts, settled, keys⟩ := s
  have h : 0 < block.size := Nat.lt_of_lt_of_le (by decide) hn
  have : NeZero block.size := ⟨h.ne'⟩
  rw [sortByGroups, KeyTable.build_eq hn h]
  obtain ⟨ha, hs⟩ :=
    sortedOn_visitAll (sound_start h starts settled) hn (starts_byGroups (val_keyGroup h) starts)
  exact listing_of_arranged ha hs

/-! ## All blocks -/

/-- The index of a sorted block lists its rotations in order. -/
theorem listing_sort (block : ByteArray) (s : Sorter) : Listing block (s.sort block).index := by
  rw [sort]
  split
  · exact listing_sortByInsertion s
  · next h => exact listing_sortByGroups (Nat.not_lt.mp h) s

end Sorter

namespace Listing

variable {s : Sorter}

/-- An index is a listing however it orders rotations that tie. -/
theorem of_compare {index : Array ℕ} (hperm : index.toList.Perm (List.range block.size))
    (hsorted : index.toList.IsChain fun p q => compare block p q ≠ .gt) : Listing block index :=
  ⟨hperm, pairwise_reading_le hsorted⟩

theorem size_eq {index : Array ℕ} (h : Listing block index) : index.size = block.size := by
  rw [← Array.length_toList, h.perm.length_eq, List.length_range]

/-- The row of the rotation at offset 1 is found. -/
theorem origin (h : Listing block s.index) (hsize : 0 < block.size) :
    s.origin < block.size ∧ s.index[s.origin]? = some (1 % block.size) := by
  have hmem : 1 % block.size ∈ s.index :=
    Array.mem_toList_iff.mp (h.perm.mem_iff.mpr (List.mem_range.mpr (Nat.mod_lt 1 hsize)))
  have hfound : (s.index.findIdx? (· == 1 % block.size)).isSome := by
    rw [Array.findIdx?_isSome, Array.any_eq_true']
    exact ⟨_, hmem, beq_self_eq_true _⟩
  obtain ⟨row, hrow⟩ := Option.isSome_iff_exists.mp hfound
  have horigin : s.origin = row := by rw [Sorter.origin, h.size_eq, hrow, Option.getD_some]
  obtain ⟨hlt, heq, -⟩ := Array.findIdx?_eq_some_iff_getElem.mp hrow
  rw [horigin]
  refine ⟨hlt.trans_eq h.size_eq, ?_⟩
  rw [Array.getElem?_eq_getElem hlt]
  exact congrArg some (beq_iff_eq.mp heq)

end Listing

/-- **Sorting lists all rotations in order and finds the row of the one at offset 1.** -/
theorem Sorter.sort_spec (block : ByteArray) (s : Sorter) :
    (s.sort block).index.toList.Perm (List.range block.size) ∧
      ((s.sort block).index.toList.Pairwise fun p q => compare block p q ≠ .gt) ∧
        (0 < block.size → (s.sort block).origin < block.size ∧
          (s.sort block).index[(s.sort block).origin]? = some (1 % block.size)) := by
  have h := listing_sort block s
  refine ⟨h.perm, h.sorted.imp fun hle => ?_, h.origin⟩
  rw [compare_eq_cmp]
  exact fun hgt => absurd ((cmp_eq_gt_iff _ _).mp hgt) (not_lt.mpr hle)

/-- The row of the rotation at offset 1 of three bytes. -/
theorem Sorter.sort_spec_three : 0 < (ByteArray.mk #[98, 97, 98]).size ∧
    (Sorter.fresh.sort ⟨#[98, 97, 98]⟩).index[(Sorter.fresh.sort ⟨#[98, 97, 98]⟩).origin]? = some 1 :=
  ⟨by decide, ((Sorter.sort_spec ⟨#[98, 97, 98]⟩ Sorter.fresh).2.2 (by decide)).2⟩

end BlockPress.Rotation
