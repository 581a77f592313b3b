import BlockPress.Device.Sink
import BlockPress.Entropy.BitTree
import BlockPress.Entropy.Coder

/-!
# Writing range-coded symbols

A `RangeWriter` keeps the number under construction, a bit tree for each of its contexts, and the
sink.  Settled bytes are handed to the sink once 64 KiB of them have come together, and at the end.
**A drain that fails keeps its bytes**, so the next one starts with them again.
-/

namespace BlockPress

/-- A range coder that writes to a sink, with `k` adaptive contexts. -/
structure RangeWriter (k : Nat) where
  /-- The number under construction. -/
  code : Code := {}
  /-- The model of each context. -/
  trees : Vector BitTree k
  /-- Where settled bytes go. -/
  sink : Sink
  /-- Whether the number is complete. -/
  closed : Bool := false

namespace RangeWriter

variable {k : Nat}

/-- The number of settled bytes that are handed to the sink together. -/
def drainSize : Nat := 65536

/-- A writer at the start of its number. -/
def start (contexts : Vector Context k) (sink : Sink) : RangeWriter k where
  trees := contexts.map BitTree.fresh
  sink := sink

/-- The number of bytes settled so far, handed on or not. -/
def produced (w : RangeWriter k) : Nat := w.code.produced

/-- Hands the settled bytes to the sink. -/
def drain : Action (RangeWriter k) Unit
  | ⟨code, trees, sink, closed⟩ =>
    if code.settled.isEmpty then .ok () ⟨code, trees, sink, closed⟩
    else
      match Sink.write code.settled sink with
      | .ok () sink => .ok () ⟨{ code with settled := .empty }, trees, sink, closed⟩
      | .error failure sink => .error failure ⟨code, trees, sink, closed⟩

/-- Writes one bit under a chance that the caller keeps, and gives the chance after it. -/
def bit (p : Chance) (shift : Nat) (b : Bool) (w : RangeWriter k) : Chance × RangeWriter k :=
  (p.adapt shift b, { w with code := w.code.narrow p b })

/-- Writes the low `n` bits of `value` without a model. -/
def plain (value : UInt32) (n : Nat) (w : RangeWriter k) : RangeWriter k :=
  { w with code := w.code.plain value.toNat n }

/-- Writes a symbol through a context. -/
def send (c : Fin k) (symbol : UInt32) : Action (RangeWriter k) Unit
  | ⟨code, trees, sink, closed⟩ =>
    let (tree, code) := (trees.get c).encode symbol code
    let w : RangeWriter k := ⟨code, trees.set c tree c.isLt, sink, closed⟩
    if drainSize ≤ w.code.settled.size then drain w else .ok () w

/-- Completes the number and hands over all of it.  A number that is complete is left as it is. -/
def close : Action (RangeWriter k) Unit := fun w =>
  if w.closed then .ok () w
  else drain { w with code := w.code.flush, closed := true }

instance : SymbolWriter (RangeWriter k) k where
  send := send
  close := close

end RangeWriter

end BlockPress
