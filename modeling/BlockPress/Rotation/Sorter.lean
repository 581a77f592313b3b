import BlockPress.Rotation.Groups
import BlockPress.Rotation.Multikey

/-!
# Sorting the rotations of a block

Short blocks are sorted by insertion.  For others the rotations are divided into the groups of their
first two bytes, and the leading bytes are visited in turn, those with the fewest rotations first.
A visit to byte `s`

* sorts each group `s t` with `t ≠ s` that is not settled yet, from depth 2;
* fills the *twin* group `s s` without a comparison: each of its rotations is `s` before a rotation
  of the range of `s`, and so comes in the same order as that one (`fillUp`, `fillDown`);
* makes the words of the range tags, so later comparisons end there;
* settles each group `c s` of a byte `c` to be visited later, since its rotations are `c` before the
  rotations of the range of `s`, in their order (`seedFrom`).

Both fills read the index that they write.  The tables of a `Sorter` are used again for each block:
short blocks leave all of them but the index as they are.
-/

namespace BlockPress.Rotation

open scoped Standard

/-- The tables that are used for one block after the other. -/
structure Sorter where
  /-- The offsets of the last block's rotations in their order. -/
  index : Array Nat
  /-- Where each group starts in the index. -/
  starts : GroupTable
  /-- The groups that are in their final order. -/
  settled : Vector Bool groupCount
  /-- The storage of the comparison keys. -/
  keys : KeyStore

/-- Tables for blocks of up to `capacity` bytes that have not been used. -/
def Sorter.withCapacity (capacity : Nat) : Sorter where
  index := Array.emptyWithCapacity capacity
  starts := Vector.replicate _ 0
  settled := Vector.replicate _ false
  keys := .withCapacity capacity

/-- Tables that have not been used. -/
def Sorter.fresh : Sorter := .withCapacity 0

/-- The group of the rotation at offset `p`, which is the upper half of its word. -/
def keyGroup {n : Nat} (keys : KeyTable n) (p : Nat) (h : p < n) : Fin groupCount :=
  ⟨(keys.words[p] >>> 16).toNat, by
    have := keys.words[p].toNat_lt
    rw [UInt32.toNat_shiftRight, groupCount]
    change keys.words[p].toNat >>> 16 < _
    rw [Nat.shiftRight_eq_div_pow]
    omega⟩

/-- The state between two visits. -/
structure Progress (n : Nat) where
  /-- The rotations, sorted by their groups and inside the settled ones. -/
  index : Vector (Fin n) n
  /-- The comparison keys, with tags for the bytes that were visited. -/
  keys : KeyTable n
  /-- The groups that are in their final order. -/
  settled : Vector Bool groupCount
  /-- The leading bytes that were visited. -/
  visited : Vector Bool 256

/-- Marks a group as settled. -/
def settle (settled : Vector Bool groupCount) (a b : UInt8) : Vector Bool groupCount :=
  have := pair_lt a b
  settled.set (pair a b) true

/-- Sorts the group of two bytes, unless it is settled already. -/
def sortGroup {n : Nat} [NeZero n] (starts : GroupTable) (a b : UInt8) :
    Progress n → Progress n
  | ⟨index, keys, settled, visited⟩ =>
    have := pair_lt a b
    if settled[pair a b] then ⟨index, keys, settled, visited⟩
    else
      let lo := starts[pair a b]
      let hi := starts[pair a b + 1]
      let settled := settle settled a b
      if h : lo + 1 < hi ∧ hi ≤ n then
        ⟨(keys.multikey 2 ⟨lo, hi, by omega, h.2⟩ index).entries, keys, settled, visited⟩
      else ⟨index, keys, settled, visited⟩

/-- Sorts the groups of a leading byte other than the twin group. -/
def sortGroups {n : Nat} [NeZero n] (starts : GroupTable) (lead : UInt8) (p : Progress n) :
    Progress n :=
  Fin.foldl 256
    (fun p b =>
      if b.val.toUInt8 = lead then p else sortGroup starts lead b.val.toUInt8 p)
    p

/-! ## The twin group -/

/-- Goes up from position `p` to the end of what is filled.  A rotation that has `lead` before it
takes its predecessor to the end, `stop`, which moves up by one. -/
def fillUp (block : ByteArray) (lead : UInt8) (p stop : Nat)
    (index : Vector (Fin block.size) block.size) :
    Nat × Vector (Fin block.size) block.size :=
  if h : p < stop ∧ p < block.size then
    have := h.2
    let k := before index[p]
    if block[k] = lead then fillUp block lead (p + 1) (stop + 1) (index.setIfInBounds stop k)
    else fillUp block lead (p + 1) stop index
  else (stop, index)
termination_by block.size - p

/-- Goes down from position `p` to the start of what is filled.  A rotation that has `lead` before it
takes its predecessor to just before the start, `first`, which moves down by one. -/
def fillDown (block : ByteArray) (lead : UInt8) :
    (p first : Nat) → Vector (Fin block.size) block.size →
      Nat × Vector (Fin block.size) block.size
  | 0, first, index => (first, index)
  | p + 1, first, index =>
    if h : first < p + 1 ∧ p < block.size then
      have := h.2
      let k := before index[p]
      if block[k] = lead then fillDown block lead p (first - 1) (index.setIfInBounds (first - 1) k)
      else fillDown block lead p first index
    else (first, index)

/-- The outcome of filling a twin group. -/
structure Filling (n : Nat) where
  /-- The index. -/
  index : Vector (Fin n) n
  /-- The position behind what was filled from below. -/
  stop : Nat
  /-- The first position that was filled from above. -/
  first : Nat

/-- Fills the twin group of a byte from both sides of its range. -/
def fillTwins (block : ByteArray) (starts : GroupTable) (lead : UInt8)
    (index : Vector (Fin block.size) block.size) : Filling block.size :=
  have := pair_lt lead lead
  let (stop, index) :=
    fillUp block lead (starts.rangeStart lead) starts[pair lead lead] index
  let (first, index) :=
    fillDown block lead (starts.rangeStop lead) starts[pair lead lead + 1] index
  ⟨index, stop, first⟩

/-! ## The groups before the range -/

/-- Goes through the range of a byte from position `p` up to `stop`.  The predecessor of each
rotation takes the next free place of its group, unless its own leading byte was visited. -/
def seedFrom (block : ByteArray) (visited : Vector Bool 256) (stop p : Nat)
    (places : Vector Nat 256) (index : Vector (Fin block.size) block.size) :
    Vector Nat 256 × Vector (Fin block.size) block.size :=
  if h : p < stop ∧ p < block.size then
    have := h.2
    let k := before index[p]
    have := block[k].toNat_lt
    let c := block[k].toNat
    if visited[c] then seedFrom block visited stop (p + 1) places index
    else
      let place := places[c]
      seedFrom block visited stop (p + 1) (places.set c (place + 1)) (index.setIfInBounds place k)
  else (places, index)
termination_by block.size - p

/-- The first place of each group whose second byte is `lead`. -/
def firstPlaces (starts : GroupTable) (lead : UInt8) : Vector Nat 256 :=
  Vector.ofFn fun c =>
    have := pair_lt c.val.toUInt8 lead
    starts[pair c.val.toUInt8 lead]

/-- Marks each group whose second byte is `lead` as settled. -/
def settleAll (settled : Vector Bool groupCount) (lead : UInt8) : Vector Bool groupCount :=
  Fin.foldl 256 (fun settled c => settle settled c.val.toUInt8 lead) settled

/-! ## Visits -/

/-- Visits a leading byte.  After the last visit no comparison follows, so no tags are needed. -/
def visit (block : ByteArray) [NeZero block.size] (starts : GroupTable) (isLast : Bool)
    (lead : UInt8) (p : Progress block.size) : Progress block.size :=
  match sortGroups starts lead p with
  | ⟨index, keys, settled, visited⟩ =>
    have := lead.toNat_lt
    let index := (fillTwins block starts lead index).index
    let visited := visited.set lead.toNat true
    let lo := starts.rangeStart lead
    let hi := starts.rangeStop lead
    let keys := if isLast then keys else keys.tag lead (index.toArray.extract lo hi)
    let (_, index) := seedFrom block visited hi lo (firstPlaces starts lead) index
    ⟨index, keys, settleAll (settle settled lead lead) lead, visited⟩

/-- Visits all leading bytes. -/
def visitAll (block : ByteArray) [NeZero block.size] (starts : GroupTable)
    (p : Progress block.size) : Progress block.size :=
  let order := visitOrder starts
  Fin.foldl 256 (fun p i => visit block starts (i.val == 255) (order.get i) p) p

/-- The number of bytes from which on a block is sorted by groups. -/
def groupedSize : Nat := wrapSize

namespace Sorter

/-- Sorts the rotations of a longer block by groups. -/
def sortByGroups (block : ByteArray) (h : groupedSize ≤ block.size) : Sorter → Sorter
  | ⟨_, starts, settled, keys⟩ =>
    have : NeZero block.size := ⟨Nat.ne_of_gt (Nat.lt_of_lt_of_le (by decide) h)⟩
    let keys := KeyTable.build block h keys
    let (starts, index) := byGroups (keyGroup keys) starts
    let p := visitAll block starts
      { index
        keys
        settled := settled.map fun _ => false
        visited := Vector.replicate 256 false }
    ⟨p.index.toArray.map Fin.val, starts, p.settled, p.keys.store⟩

/-- Sorts the rotations of a block by insertion, which uses the index only. -/
def sortByInsertion (block : ByteArray) : Sorter → Sorter
  | ⟨_, starts, settled, keys⟩ =>
    let offsets : Vector Nat block.size := Vector.ofFn Fin.val
    ⟨(Sorting.insertion (compare block) (Span.all block.size) offsets).toArray, starts, settled, keys⟩

/-- Sorts the rotations of a block. -/
def sort (block : ByteArray) (s : Sorter) : Sorter :=
  if h : block.size < groupedSize then s.sortByInsertion block
  else s.sortByGroups block (Nat.not_lt.mp h)

/-- The row of the rotation at offset 1, whose last byte is the first byte of the block. -/
def origin (s : Sorter) : Nat := (s.index.findIdx? (· == 1 % s.index.size)).getD 0

end Sorter

end BlockPress.Rotation
