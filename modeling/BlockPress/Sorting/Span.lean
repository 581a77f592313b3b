/-!
# Spans of a vector

A `Span m` is a half-open range of positions of a vector with `m` entries.  The sorts of the library
work in place on spans, and keep the spans that are still to be sorted on a stack.
-/

namespace BlockPress

/-- A half-open range of positions in a vector with `m` entries. -/
structure Span (m : Nat) where
  /-- The first position. -/
  lo : Nat
  /-- The position behind the last one. -/
  hi : Nat
  /-- The range is not reversed. -/
  lo_le_hi : lo ≤ hi := by omega
  /-- The range lies inside the vector. -/
  hi_le : hi ≤ m := by omega
deriving DecidableEq

namespace Span

variable {m : Nat}

/-- The number of positions. -/
def size (s : Span m) : Nat := s.hi - s.lo

/-- All positions of the vector. -/
def all (m : Nat) : Span m := ⟨0, m, Nat.zero_le m, Nat.le_refl m⟩

theorem half_lt (s : Span m) (h : 0 < s.size) : s.size / 2 < s.size := Nat.div_lt_self h (by decide)

theorem last_lt (s : Span m) (h : 0 < s.size) : s.size - 1 < s.size := Nat.sub_one_lt_of_lt h

/-- A position inside a span. -/
abbrev Position (s : Span m) : Type := { k : Nat // s.lo ≤ k ∧ k < s.hi }

/-- The positions of a span lie inside the vector. -/
theorem Position.lt {s : Span m} (k : s.Position) : k.val < m :=
  Nat.lt_of_lt_of_le k.property.2 s.hi_le

/-- The position `i` places into the span. -/
def place (s : Span m) (i : Nat) (h : i < s.size) : s.Position :=
  ⟨s.lo + i, by simp only [size] at h; omega⟩

end Span

end BlockPress
