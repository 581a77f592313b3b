/-!
# Standard instances

The program knows no library but Lean's own, and its theory knows more.  So that `2 ^ k` and the like
are the same terms for both, these instances come before others wherever `Standard` is open.
-/

namespace BlockPress.Standard

/-- Powers of naturals. -/
scoped instance (priority := 1100) powNat : Pow Nat Nat := instPowNat

/-- The zero of naturals. -/
scoped instance (priority := 1100) zeroNat : Zero Nat := ⟨0⟩

/-- Comparing bytes. -/
scoped instance (priority := 1100) decidableEqBytes : DecidableEq ByteArray := ByteArray.instDecidableEq

end BlockPress.Standard
