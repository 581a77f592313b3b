import BlockPress.Failure
import BlockPress.Rotation.Sorter

/-!
# The last column

The last bytes of a block's sorted rotations make up its *column*.  Together with the *origin*, the
row of the rotation at offset 1, the column gives the block back: a stable counting sort of the
column links each row to the row of the rotation that starts one byte later, and following the links
from the origin reads the block from its first byte on.
-/

namespace BlockPress.Column

/-- The last byte of the rotation at offset `p`. -/
def lastByte (block : ByteArray) (p : Nat) : UInt8 :=
  let i := if p = 0 then block.size - 1 else p - 1
  if h : i < block.size then block[i] else 0

/-- The last bytes of the rotations that an index lists. -/
def ofIndex (block : ByteArray) (index : Array Nat) : ByteArray :=
  index.foldl (fun column p => column.push (lastByte block p))
    (ByteArray.emptyWithCapacity index.size)

/-- The number of times that each byte occurs. -/
def counts (column : ByteArray) : Vector Nat 256 :=
  column.foldl
    (fun counts b =>
      have := b.toNat_lt
      counts.set b.toNat (counts[b.toNat] + 1))
    (Vector.replicate 256 0)

/-- The number of bytes that are less than each byte. -/
def firstRows (counts : Vector Nat 256) : Vector Nat 256 :=
  (Fin.foldl 256 (fun (rows, sum) ⟨b, _⟩ => (rows.set b sum, sum + counts[b]))
    (Vector.replicate 256 0, 0)).1

/-- Links each row of the sorted column to the row that its byte comes from.  Going down the column,
each row takes the next place among the rows of its byte. -/
def links (column : ByteArray) : Vector (Fin column.size) column.size :=
  (Nat.fold column.size
    (fun i h (rows, links) =>
      have := column[i].toNat_lt
      let c := column[i].toNat
      let row := rows[c]
      (rows.set c (row + 1), links.setIfInBounds row ⟨i, h⟩))
    (firstRows (counts column), Vector.ofFn fun i => i)).2

/-- Reads `left` bytes along the links from a row on, behind those of `block`. -/
def follow (column : ByteArray) (links : Vector (Fin column.size) column.size) :
    (left : Nat) → Fin column.size → ByteArray → ByteArray
  | 0, _, block => block
  | left + 1, row, block => follow column links left links[row] (block.push column[row])

/-- The block that has this column and origin.  An origin beyond the last row belongs to none. -/
def restore (column : ByteArray) (origin : Nat) : Except Failure ByteArray :=
  if h : origin < column.size then
    .ok (follow column (links column) column.size ⟨origin, h⟩
      (ByteArray.emptyWithCapacity column.size))
  else .error (.badOrigin origin column.size)

end BlockPress.Column

namespace BlockPress.Rotation.Sorter

/-- The column of the block that was sorted last. -/
def column (s : Sorter) (block : ByteArray) : ByteArray := Column.ofIndex block s.index

end BlockPress.Rotation.Sorter
