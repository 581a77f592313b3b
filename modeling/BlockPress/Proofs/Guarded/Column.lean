import BlockPress.Proofs.Column
import BlockPress.Proofs.Guarded.Basic

/-!
# The guarded way back from a column

Any column will do, also one that is no block's: its bytes are counted, so the places of its rows are all
the rows, each taken once.  No place is beyond the last row, every link is written, and it leads to a row.

Main statement: **a guarded reader restores what the column restores** (`Guarded.restore_eq`), which has
the size of the column (`Column.size_restore`).
-/

namespace BlockPress

namespace Column

variable {column block : ByteArray}

theorem size_follow (links : Vector (Fin column.size) column.size) (left : ℕ) (row : Fin column.size)
    (block : ByteArray) : (follow column links left row block).size = block.size + left := by
  induction left generalizing row block with
  | zero => rfl
  | succ left ih =>
    rw [follow, ih, ByteArray.size_push]
    omega

theorem size_restore {origin : ℕ} (h : restore column origin = .ok block) :
    block.size = column.size := by
  rw [restore] at h
  split at h
  · cases h
    rw [size_follow]
    exact Nat.zero_add _
  · cases h

end Column

namespace Guarded

open Column Rotation

variable {column : ByteArray}

/-! ## Counting -/

/-- The number of times that each byte occurs, which fits a word. -/
def counts (column : ByteArray) : Option (Vector ℕ 256) :=
  column.foldl
    (fun counts b =>
      have := b.toNat_lt
      counts.bind fun counts =>
        require (counts[b.toNat] + 1 < 2 ^ 32) <| some (counts.set b.toNat (counts[b.toNat] + 1)))
    (some (Vector.replicate 256 0))

theorem counts_eq (hsize : column.size < 2 ^ 32) : counts column = some (Column.counts column) := by
  have hfold := foldlBytes_invariant column
    (fun i (x : Option (Vector ℕ 256)) => ∃ v, x = some v ∧ Counted column i v) ⟨_, rfl, .start⟩
    (f := fun counts b =>
      have := b.toNat_lt
      counts.bind fun counts =>
        require (counts[b.toNat] + 1 < 2 ^ 32) <| some (counts.set b.toNat (counts[b.toNat] + 1)))
    fun i hi x hx => ?_
  · obtain ⟨v, heq, hv⟩ := hfold
    refine heq.trans (congrArg some (Vector.ext fun c hc => ?_))
    rw [hv c hc, counted_counts column c hc]
  · obtain ⟨v, rfl, hv⟩ := hx
    have hcount : getElem v column[i].toNat column[i].toNat_lt ≤ i := by
      rw [hv _ _]
      exact Nat.count_le _
    exact ⟨_, require_eq (by omega) _, hv.step hi⟩

/-- The number of bytes that are less than each byte: each of the sums fits a word. -/
def firstRows (counts : Vector ℕ 256) : Option (Vector ℕ 256) :=
  (Fin.foldl 256
    (fun s ⟨b, hb⟩ => s.bind fun (rows, sum) =>
      require (sum + counts[b] < 2 ^ 32) <| some (rows.set b sum hb, sum + counts[b]))
    (some (Vector.replicate 256 0, 0))).map (·.1)

theorem firstRows_holds (hsize : column.size < 2 ^ 32) :
    ∃ rows, firstRows (Column.counts column) = some rows ∧ Taken column 0 rows := by
  have hfold := finFoldl_invariant (n := 256)
    (fun i (x : Option (Vector ℕ 256 × ℕ)) => ∃ s, x = some s ∧ Summed column i s) ⟨_, rfl, .start⟩
    (f := fun s ⟨b, hb⟩ => s.bind fun (rows, sum) =>
      require (sum + (Column.counts column)[b] < 2 ^ 32) <|
        some (rows.set b sum hb, sum + (Column.counts column)[b]))
    fun b x hx => ?_
  · obtain ⟨s, heq, hs⟩ := hfold
    rw [firstRows, heq]
    exact ⟨s.1, rfl, hs.taken⟩
  · obtain ⟨s, rfl, hs⟩ := hx
    have hnext := hs.step b.isLt
    have hsum : s.2 + (Column.counts column)[b.val] ≤ column.size :=
      hnext.1.trans_le (Counting.below_le _ _ _)
    exact ⟨_, require_eq (by omega) _, hnext⟩

/-! ## Links -/

/-- The links of the rows: each row is one of the table, and the next one fits a word, as the number of
the row that is written does. -/
def links (column : ByteArray) (rows : Vector ℕ 256) : Option (Array ℕ) :=
  (Nat.fold column.size
    (fun i h s => s.bind fun (rows, links) =>
      let b := column[i]
      have hb := b.toNat_lt
      let row := rows[b.toNat]
      require (row < links.size ∧ i < 2 ^ 32 ∧ row + 1 < 2 ^ 32) <|
        some (rows.set b.toNat (row + 1) hb, links.setIfInBounds row i))
    (some (rows, Array.replicate column.size 0))).map (·.2)

theorem links_holds (hsize : column.size < 2 ^ 32) {rows : Vector ℕ 256} (h : Taken column 0 rows) :
    ∃ table, links column rows = some table ∧
      ∀ i < column.size, table[place column i]? = some i := by
  have hfold := fold_invariant (n := column.size)
    (fun j (x : Option (Vector ℕ 256 × Array ℕ)) => ∃ s, x = some s ∧ Taken column j s.1 ∧
      s.2.size = column.size ∧ ∀ i < j, s.2[place column i]? = some i)
    ⟨(rows, Array.replicate column.size 0), rfl, h, Array.size_replicate,
      fun i hi => absurd hi (Nat.not_lt_zero i)⟩
    (f := fun i h s => s.bind fun (rows, links) =>
      let b := column[i]
      have hb := b.toNat_lt
      let row := rows[b.toNat]
      require (row < links.size ∧ i < 2 ^ 32 ∧ row + 1 < 2 ^ 32) <|
        some (rows.set b.toNat (row + 1) hb, links.setIfInBounds row i))
    fun j hj x hx => ?_
  · obtain ⟨s, heq, -, -, hs⟩ := hfold
    rw [links, heq]
    exact ⟨s.2, rfl, hs⟩
  · obtain ⟨⟨rows, table⟩, rfl, hrows, htable, hlinks⟩ := hx
    have hplace : place column j < column.size := Counting.slot_lt hj
    dsimp only [Option.bind_some] at hrows htable hlinks ⊢
    rw [hrows.getElem_eq hj]
    refine ⟨_, require_eq (by omega) _, hrows.step hj, ?_, fun i hi => ?_⟩
    · rw [Array.size_setIfInBounds, htable]
    · rw [Array.getElem?_setIfInBounds]
      split
      · next heq =>
        rw [if_pos (by omega)]
        exact congrArg some (Counting.slot_injective hj (by omega) heq)
      · next hne =>
        exact hlinks i (Nat.lt_of_le_of_ne (Nat.le_of_lt_succ hi) fun h => hne (by rw [h]))

/-- Bytes along the links: each row is one of the column and of the table. -/
def follow (column : ByteArray) (table : Array ℕ) : (left row : ℕ) → ByteArray → Option ByteArray
  | 0, _, block => some block
  | left + 1, row, block =>
    match column.data[row]?, table[row]? with
    | some b, some next => follow column table left next (block.push b)
    | _, _ => none

theorem follow_eq {table : Array ℕ} (h : ∀ i < column.size, table[place column i]? = some i)
    (left : ℕ) (row : Fin column.size) (block : ByteArray) :
    follow column table left row block =
      some (Column.follow column (Column.links column) left row block) := by
  induction left generalizing row block with
  | zero => rfl
  | succ left ih =>
    obtain ⟨i, hi, heq⟩ := exists_place row.isLt
    have hbyte : column.data[row.val]? = some column[row] := Array.getElem?_eq_getElem row.isLt
    have hnext : table[row.val]? = some i := heq ▸ h i hi
    have hlink : (Column.links column)[row] = ⟨i, hi⟩ := by
      have hlinks := getElem_links hi
      simp only [heq] at hlinks
      exact hlinks
    rw [follow, hbyte, hnext, Column.follow, hlink]
    exact ih ⟨i, hi⟩ _

/-- The block of a column. -/
def restore (column : ByteArray) (origin : ℕ) : Option (Except Failure ByteArray) :=
  if origin < column.size then
    (counts column).bind fun counts =>
      (firstRows counts).bind fun rows =>
        (links column rows).bind fun table =>
          (follow column table column.size origin (.emptyWithCapacity column.size)).map .ok
  else some (.error (.badOrigin origin column.size))

/-- **A column is restored as by a guarded reader.** -/
theorem restore_eq (hsize : column.size < 2 ^ 32) (origin : ℕ) :
    restore column origin = some (Column.restore column origin) := by
  rw [restore, Column.restore]
  by_cases h : origin < column.size
  · obtain ⟨rows, hrows, htaken⟩ := firstRows_holds hsize
    obtain ⟨table, htable, hlinks⟩ := links_holds hsize htaken
    rw [if_pos h, dif_pos h, counts_eq hsize, Option.bind_some, hrows, Option.bind_some, htable,
      Option.bind_some]
    exact congrArg _ (follow_eq hlinks column.size ⟨origin, h⟩ _)
  · rw [if_neg h, dif_neg h]

end Guarded

end BlockPress
