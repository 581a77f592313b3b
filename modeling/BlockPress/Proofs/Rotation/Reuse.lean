import BlockPress.Proofs.Rotation.Building

/-!
# Sorters that are used again

A sorter keeps its tables from one block to the next, and a short block leaves in them what a longer one
left before it.  Sorting by groups writes each table afresh before it reads there, so it comes to the same
tables from any others (`sortByGroups_eq`), and sorting by insertion reads none.

Main statement: **nothing of a block is left for the next ones** (`sortEach_alone`).  Also rotations that tie
come in the order that they have when their block is sorted alone.
-/

namespace BlockPress.Rotation

variable {block : ByteArray}

/-! ## Tables that are written afresh -/

/-- Groups are counted from zero. -/
theorem byGroups_eq {n : ℕ} (group : (p : ℕ) → p < n → Fin groupCount) (t t' : GroupTable) :
    byGroups group t = byGroups group t' := by
  have hsizes : t.sizes group = t'.sizes group := by
    rw [GroupTable.sizes, GroupTable.sizes, Vector.map_const', Vector.map_const']
  rw [byGroups, byGroups, hsizes]

namespace Sorter

/-- **A longer block leaves the same tables behind, whatever they held before.** -/
theorem sortByGroups_eq (h : groupedSize ≤ block.size) (s s' : Sorter) :
    s.sortByGroups block h = s'.sortByGroups block h := by
  have hsize : 0 < block.size := Nat.lt_of_lt_of_le (by decide) h
  obtain ⟨-, starts, settled, keys⟩ := s
  obtain ⟨-, starts', settled', keys'⟩ := s'
  rw [sortByGroups, sortByGroups, KeyTable.build_eq h hsize keys, KeyTable.build_eq h hsize keys',
    byGroups_eq _ starts starts', Vector.map_const', Vector.map_const']

/-- A short block is sorted without the tables. -/
theorem index_sortByInsertion (s s' : Sorter) :
    (s.sortByInsertion block).index = (s'.sortByInsertion block).index := rfl

/-- The index of a block is the same in any tables. -/
theorem index_sort (block : ByteArray) (s s' : Sorter) :
    (s.sort block).index = (s'.sort block).index := by
  rw [sort, sort]
  split
  · exact index_sortByInsertion s s'
  · next h => rw [sortByGroups_eq (Nat.not_lt.mp h) s s']

/-! ## Blocks one after the other -/

/-- What sorting a block gives: the row of the rotation at offset 1, and the index. -/
def answer (s : Sorter) : ℕ × Array ℕ := (s.origin, s.index)

theorem answer_sort (block : ByteArray) (s s' : Sorter) :
    (s.sort block).answer = (s'.sort block).answer := by
  rw [answer, answer, origin, origin, index_sort block s s']

/-- Sorts blocks one after the other. -/
def sortEach : List ByteArray → Sorter → List (ℕ × Array ℕ)
  | [], _ => []
  | block :: blocks, s => (s.sort block).answer :: sortEach blocks (s.sort block)

/-- Each block comes out as it does from any other sorter. -/
theorem forall₂_sortEach (blocks : List ByteArray) (s : Sorter) :
    List.Forall₂ (fun block answer => ∀ s' : Sorter, answer = (s'.sort block).answer) blocks
      (sortEach blocks s) := by
  induction blocks generalizing s with
  | nil => exact .nil
  | cons block blocks ih => exact .cons (answer_sort block s) (ih _)

/-- **Nothing of a block is left for the next ones**: each comes out as it does from a sorter of any
capacity that has sorted nothing before. -/
theorem sortEach_alone (capacity : ℕ) (blocks : List ByteArray) :
    List.Forall₂ (fun block answer => ∀ capacity', answer = ((withCapacity capacity').sort block).answer)
      blocks (sortEach blocks (withCapacity capacity)) :=
  (forall₂_sortEach blocks _).imp fun _ _ h _ => h _

end Sorter

end BlockPress.Rotation
