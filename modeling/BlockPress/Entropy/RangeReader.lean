import BlockPress.Entropy.BitTree
import BlockPress.Entropy.Coder

/-!
# Reading range-coded symbols

The reader of what a `RangeWriter` wrote, with a bit tree for each of the same contexts.  A symbol
that fails halfway leaves the trees adapted to the bits that were read.
-/

namespace BlockPress

/-- A range coder that reads from a source, with `k` adaptive contexts. -/
structure RangeReader (k : Nat) where
  /-- The window on the number. -/
  register : Register
  /-- The model of each context. -/
  trees : Vector BitTree k

namespace RangeReader

variable {k : Nat}

/-- Reads the start of the number. -/
def start (contexts : Vector Context k) : Action Source (RangeReader k) := fun s =>
  match Register.start s with
  | .ok register s => .ok ⟨register, contexts.map BitTree.fresh⟩ s
  | .error failure s => .error failure s

/-- The source, behind the bytes that were read. -/
def source (r : RangeReader k) : Source := r.register.source

/-- Reads one bit under a chance that the caller keeps, and gives the chance after it. -/
def bit (p : Chance) (shift : Nat) : Action (RangeReader k) (Bool × Chance)
  | ⟨register, trees⟩ =>
    match Register.bit p shift register with
    | .ok answer register => .ok answer ⟨register, trees⟩
    | .error failure register => .error failure ⟨register, trees⟩

/-- Reads `n` bits that were written without a model; of more than 32 the last 32 count. -/
def plain (n : Nat) : Action (RangeReader k) UInt32
  | ⟨register, trees⟩ =>
    match Register.plain 0 n register with
    | .ok value register => .ok value ⟨register, trees⟩
    | .error failure register => .error failure ⟨register, trees⟩

/-- Reads a symbol through a context. -/
def receive (c : Fin k) : Action (RangeReader k) UInt32
  | ⟨register, trees⟩ =>
    match BitTree.decode (trees.get c, register) with
    | .ok symbol (tree, register) => .ok symbol ⟨register, trees.set c tree c.isLt⟩
    | .error failure (tree, register) => .error failure ⟨register, trees.set c tree c.isLt⟩

instance : SymbolReader (RangeReader k) k where
  receive := receive

end RangeReader

end BlockPress
