import BlockPress.Failure

/-!
# Entropy coders

The block codec does not look into a model.  It sends symbols through numbered contexts to a
`SymbolWriter`, and takes them from a `SymbolReader` that was made for the same contexts.  The
adaptive range coder and the tape that merely records symbols are the coders of the library.
-/

namespace BlockPress

/-- A coder that takes symbols, each through one of `k` contexts. -/
class SymbolWriter (ε : Type) (k : outParam Nat) where
  /-- Takes a symbol through a context. -/
  send : Fin k → UInt32 → Action ε Unit
  /-- Hands on everything that is still held back; no symbol may follow. -/
  close : Action ε Unit

/-- A coder that gives symbols back, each through one of `k` contexts. -/
class SymbolReader (δ : Type) (k : outParam Nat) where
  /-- Gives the next symbol, which must have been sent through this context. -/
  receive : Fin k → Action δ UInt32

/-- Sends symbols through their contexts, up to the first failure. -/
@[specialize] def sendAll {ε : Type} {k : Nat} [SymbolWriter ε k] :
    List (Fin k × UInt32) → Action ε Unit
  | [] => fun e => .ok () e
  | (c, s) :: rest => fun e =>
    match SymbolWriter.send c s e with
    | .ok () e => sendAll rest e
    | .error failure e => .error failure e

end BlockPress
