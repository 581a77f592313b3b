import BlockPress.Rotation.Order

/-!
# Groups of rotations

Rotations are grouped by their first two bytes, and the groups are numbered in the order of those
bytes.  A `GroupTable` tells where each group starts in a sorted index; the start of the group
behind the last one is the number of rotations.  The groups with one leading byte stand together and
make up the *range* of that byte.
-/

namespace BlockPress.Rotation

/-- The number of groups. -/
def groupCount : Nat := 65536

theorem groupCount_lt : groupCount < groupCount + 1 := Nat.lt_succ_self _

/-- Where each group starts; the last entry is the number of rotations. -/
abbrev GroupTable : Type := Vector Nat (groupCount + 1)

/-- The number of the group of two bytes. -/
def pair (a b : UInt8) : Nat := 256 * a.toNat + b.toNat

theorem pair_lt (a b : UInt8) : pair a b < groupCount := by
  have := a.toNat_lt
  have := b.toNat_lt
  simp only [pair, groupCount]
  omega

namespace GroupTable

/-- The size of each group, in a table that may have held anything before; `group` tells the group of
each of `n` rotations. -/
def sizes {n : Nat} (group : (p : Nat) → p < n → Fin groupCount) (t : GroupTable) : GroupTable :=
  Nat.fold n
    (fun p h t =>
      let k := group p h
      t.set k.val (t[k.val] + 1))
    (t.map fun _ => 0)

/-- Adds up the sizes, which gives the position behind each group. -/
def sums (t : GroupTable) : GroupTable :=
  Nat.fold (groupCount - 1)
    (fun k h t =>
      have : k + 1 < groupCount + 1 := by omega
      t.set (k + 1) (t[k] + t[k + 1]))
    t

/-- The start of the range of a leading byte. -/
def rangeStart (t : GroupTable) (lead : UInt8) : Nat :=
  have : 256 * lead.toNat < groupCount + 1 := by
    have := lead.toNat_lt
    simp only [groupCount]
    omega
  t[256 * lead.toNat]

/-- The position behind the range of a leading byte. -/
def rangeStop (t : GroupTable) (lead : UInt8) : Nat :=
  have : 256 * lead.toNat + 256 < groupCount + 1 := by
    have := lead.toNat_lt
    simp only [groupCount]
    omega
  t[256 * lead.toNat + 256]

/-- The number of rotations that start with a byte. -/
def rangeSize (t : GroupTable) (lead : UInt8) : Nat := t.rangeStop lead - t.rangeStart lead

end GroupTable

/-- Sorts all `n` rotations of a block by their groups, those of one group by offset.  Going down from
the last offset, each rotation takes the last free place of its group, so the position behind a group
comes down to its start. -/
def byGroups {n : Nat} (group : (p : Nat) → p < n → Fin groupCount) (t : GroupTable) :
    GroupTable × Vector (Fin n) n :=
  let (t, index) :=
    Nat.foldRev n
      (fun p h (t, index) =>
        let k := group p h
        let place := t[k.val] - 1
        (t.set k.val place, index.setIfInBounds place ⟨p, h⟩))
      (((t.sizes group).sums : GroupTable), Vector.ofFn fun p => p)
  (t.set groupCount n groupCount_lt, index)

/-! ## The order of visits -/

/-- The gaps of the sort by range size. -/
def gaps : List Nat := [121, 40, 13, 4, 1]

/-- Lets the byte at place `j` sink by steps of `gap`, past the bytes of larger ranges. -/
def sinkByRange (t : GroupTable) (gap : Nat) (order : Vector UInt8 256) (j : Nat) (h : j < 256) :
    Vector UInt8 256 :=
  if hgap : 0 < gap ∧ gap ≤ j then
    if t.rangeSize order[j] < t.rangeSize order[j - gap] then
      sinkByRange t gap (order.swap (j - gap) j) (j - gap) (by omega)
    else order
  else order
termination_by j

/-- Lets all bytes sink by steps of `gap`, from the first to the last. -/
def gapPass (t : GroupTable) (order : Vector UInt8 256) (gap : Nat) : Vector UInt8 256 :=
  Fin.foldl 256 (fun order ⟨j, h⟩ => sinkByRange t gap order j h) order

/-- The bytes ordered by the size of their ranges, the smallest first. -/
def visitOrder (t : GroupTable) : Vector UInt8 256 :=
  gaps.foldl (gapPass t) (Vector.ofFn fun b => b.val.toUInt8)

end BlockPress.Rotation
