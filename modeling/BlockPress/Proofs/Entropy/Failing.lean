import BlockPress.Entropy.RangeReader
import BlockPress.Entropy.Tape
import Mathlib.Data.Nat.Notation

/-!
# What coders fail for

A coder fails for its source, or for a symbol that it cannot give in a context.  Whatever else is wrong
with a stream, such as its header, a block or the origin of one, is found by those who ask the coder.

Main statement: **a range decoder fails for its source or for a symbol, and so does a tape**
(`RangeReader.failsForCoder_receive`, `TapeReader.failsForCoder_receive`).
-/

namespace BlockPress

open scoped Standard

/-- The failure is one of a source or of a symbol. -/
def Failure.OfCoder : Failure → Prop
  | .io _ | .endOfInput _ | .badSymbol _ _ | .corrupt _ (.foreignContext _ _ _) => True
  | _ => False

/-- If an action fails, then for its coder. -/
def FailsForCoder {σ α : Type} : EStateM.Result Failure σ α → Prop
  | .ok _ _ => True
  | .error f _ => f.OfCoder

/-! ## Range decoders -/

theorem Source.ofCoder_shortage (s : Source) (n : ℕ) : (s.shortage n).OfCoder := by
  rw [shortage]
  split
  · exact trivial
  · split <;> exact trivial

theorem Source.failsForCoder_next (s : Source) : FailsForCoder s.next := by
  rw [next]
  split
  · exact trivial
  · exact s.ofCoder_shortage 1

namespace Register

theorem failsForCoder_refill (r : Register) : FailsForCoder r.refill := by
  fun_induction refill r with
  | case1 r hlt b s heq ih => exact ih
  | case2 r hlt failure s heq =>
    have hnext := r.source.failsForCoder_next
    rwa [heq] at hnext
  | case3 r hge => exact trivial

theorem failsForCoder_bit (p : Chance) (shift : ℕ) (r : Register) :
    FailsForCoder (r.bit p shift) := by
  have hrefill := r.failsForCoder_refill
  rw [bit]
  dsimp only
  generalize r.refill = x at hrefill ⊢
  cases x with
  | error f r => exact hrefill
  | ok _ r =>
    dsimp only
    split <;> exact trivial

theorem failsForCoder_half (r : Register) : FailsForCoder r.half := by
  have hrefill := r.failsForCoder_refill
  rw [half]
  dsimp only
  generalize r.refill = x at hrefill ⊢
  cases x with
  | error f r => exact hrefill
  | ok _ r =>
    dsimp only
    split <;> exact trivial

theorem failsForCoder_plain (value : UInt32) (n : ℕ) (r : Register) :
    FailsForCoder (plain value n r) := by
  induction n generalizing value r with
  | zero => exact trivial
  | succ n ih =>
    have hhalf := r.failsForCoder_half
    rw [plain]
    dsimp only
    generalize r.half = x at hhalf ⊢
    cases x with
    | error f r => exact hhalf
    | ok b r => exact ih _ r

end Register

namespace BitTree

theorem failsForCoder_read {size shift n node : ℕ} (h : (node + 1) * 2 ^ n ≤ 2 * size)
    (s : Vector Chance size × Register) : FailsForCoder (read shift n node h s) := by
  induction n generalizing node s with
  | zero => exact trivial
  | succ n ih =>
    obtain ⟨chances, register⟩ := s
    have hbit := register.failsForCoder_bit (chances.get ⟨node, lt_of_walk h⟩) shift
    rw [read]
    dsimp only
    generalize register.bit _ shift = x at hbit ⊢
    cases x with
    | error f r => exact hbit
    | ok a r => exact ih _ _

theorem failsForCoder_decode (s : BitTree × Register) : FailsForCoder (decode s) := by
  obtain ⟨⟨context, chances⟩, register⟩ := s
  have hread : FailsForCoder (read context.shift context.modeledBits 1 _ (chances, register)) :=
    failsForCoder_read (Nat.le_refl _) _
  rw [decode]
  generalize read context.shift context.modeledBits 1 _ (chances, register) = x at hread ⊢
  cases x with
  | error f s => exact hread
  | ok node s =>
    have hplain := s.2.failsForCoder_plain (node - 2 ^ context.modeledBits).toUInt32 context.plainBits
    dsimp only
    generalize Register.plain _ context.plainBits s.2 = y at hplain ⊢
    cases y with
    | error f r => exact hplain
    | ok symbol r =>
      dsimp only
      split <;> exact trivial

end BitTree

/-- **A range decoder fails for its source or for a symbol.** -/
theorem RangeReader.failsForCoder_receive {k : ℕ} (c : Fin k) (r : RangeReader k) :
    FailsForCoder (SymbolReader.receive c r) := by
  change FailsForCoder (receive c r)
  obtain ⟨register, trees⟩ := r
  have hdecode := BitTree.failsForCoder_decode (trees.get c, register)
  rw [receive]
  generalize BitTree.decode _ = x at hdecode ⊢
  cases x with
  | error f s => exact hdecode
  | ok symbol s => exact trivial

/-! ## Tapes -/

/-- **A tape fails at its end or for a symbol of another context.** -/
theorem TapeReader.failsForCoder_receive {k : ℕ} (c : Fin k) (r : TapeReader k) :
    FailsForCoder (SymbolReader.receive c r) := by
  change FailsForCoder (receive c r)
  rw [receive]
  split
  · exact trivial
  · split <;> exact trivial

end BlockPress
