/-!
# Recency lists

A `RecencyList` holds the 256 bytes, the one used last in front.  A byte is coded as its rank, the
number of bytes in front of it, and moves to the front.  Coding and decoding move the same byte, so
two lists that start alike stay alike.
-/

namespace BlockPress

/-- The bytes by how recently they were used. -/
structure RecencyList where
  /-- The bytes from the front on. -/
  order : Vector UInt8 256
deriving DecidableEq

namespace RecencyList

/-- The bytes in their own order. -/
def fresh : RecencyList := ⟨Vector.ofFn fun b => b.val.toUInt8⟩

/-- The byte in front. -/
def front (l : RecencyList) : UInt8 := l.order[0]

/-- Takes the entry at `k` to the front, past all those before it. -/
def toFront : (k : Nat) → k < 256 → Vector UInt8 256 → Vector UInt8 256
  | 0, _, order => order
  | k + 1, h, order => toFront k (Nat.lt_of_succ_lt h) (order.swap k (k + 1))

/-- The list with the byte of some rank moved to the front. -/
def promote (l : RecencyList) (rank : Fin 256) : RecencyList :=
  ⟨toFront rank.val rank.isLt l.order⟩

/-- The rank of a byte, from place `k` on. -/
def rankFrom (l : RecencyList) (b : UInt8) (k : Nat) : Option (Fin 256) :=
  if h : k < 256 then
    if l.order[k] = b then some ⟨k, h⟩ else rankFrom l b (k + 1)
  else none
termination_by 256 - k

/-- The rank of a byte, which moves to the front.  A list that has lost the byte stays as it is. -/
def encode (l : RecencyList) (b : UInt8) : UInt8 × RecencyList :=
  match l.rankFrom b 0 with
  | some rank => (rank.val.toUInt8, l.promote rank)
  | none => (0, l)

/-- The byte of a rank, which moves to the front. -/
def decode (l : RecencyList) (rank : UInt8) : UInt8 × RecencyList :=
  have := rank.toNat_lt
  (l.order[rank.toNat], l.promote ⟨rank.toNat, rank.toNat_lt⟩)

end RecencyList

end BlockPress
