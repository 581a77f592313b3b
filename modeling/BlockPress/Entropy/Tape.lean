import BlockPress.Entropy.Coder
import BlockPress.Entropy.Context

/-!
# Tapes

A coder that compresses nothing: it records each symbol with the number of its context, and plays
the record back.  A player that is asked through another context than the one recorded fails and
stays where it is, so two sides that disagree about contexts are found out at once.
-/

namespace BlockPress

/-- A symbol and the number of the context it went through. -/
structure Recorded where
  /-- The number of the context. -/
  context : Nat
  /-- The symbol. -/
  symbol : UInt32
deriving DecidableEq, Repr

/-- The recording side of a tape with `k` contexts. -/
structure TapeWriter (k : Nat) where
  /-- The contexts that symbols may go through. -/
  contexts : Vector Context k
  /-- The symbols recorded so far. -/
  symbols : Array Recorded := #[]
  /-- Whether the record is complete. -/
  closed : Bool := false

/-- The playing side of a tape with `k` contexts. -/
structure TapeReader (k : Nat) where
  /-- The symbols of the record. -/
  symbols : Array Recorded
  /-- The number of symbols played. -/
  position : Nat := 0

namespace TapeWriter

variable {k : Nat}

/-- Records a symbol, if its context has it. -/
def send (c : Fin k) (symbol : UInt32) : Action (TapeWriter k) Unit
  | ⟨contexts, symbols, closed⟩ =>
    if symbol.toNat < (contexts.get c).alphabet then
      .ok () ⟨contexts, symbols.push ⟨c, symbol⟩, closed⟩
    else
      .error (.badSymbol symbol (contexts.get c).alphabet) ⟨contexts, symbols, closed⟩

/-- Completes the record. -/
def close : Action (TapeWriter k) Unit := fun w => .ok () { w with closed := true }

instance : SymbolWriter (TapeWriter k) k where
  send := send
  close := close

end TapeWriter

namespace TapeReader

variable {k : Nat}

/-- The number of symbols that were not played yet. -/
def remaining (r : TapeReader k) : Nat := r.symbols.size - r.position

/-- Plays the next symbol, if it was recorded in this context. -/
def receive (c : Fin k) : Action (TapeReader k) UInt32 := fun r =>
  match r.symbols[r.position]? with
  | none => .error (.endOfInput 1) r
  | some recorded =>
    if recorded.context = c then .ok recorded.symbol { r with position := r.position + 1 }
    else .error (.corrupt 0 (.foreignContext r.position recorded.context c)) r

instance : SymbolReader (TapeReader k) k where
  receive := receive

end TapeReader

end BlockPress
