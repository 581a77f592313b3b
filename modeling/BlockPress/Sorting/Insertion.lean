import BlockPress.Sorting.Span

/-!
# Insertion sort

Sorts a span by letting each entry sink, swap by swap, past the greater ones below it.  Entries that
compare equal are never exchanged, so their order is kept.
-/

namespace BlockPress.Sorting

variable {α : Type} {m : Nat}

/-- Lets the entry at `j` sink toward `lo`, past every entry that is greater. -/
@[specialize] def sinkTo (cmp : α → α → Ordering) (lo : Nat) :
    (j : Nat) → j < m → Vector α m → Vector α m
  | 0, _, v => v
  | j + 1, h, v =>
    if lo ≤ j ∧ cmp v[j] v[j + 1] = .gt then
      sinkTo cmp lo j (Nat.lt_of_succ_lt h) (v.swap j (j + 1))
    else v

/-- Lets the entries from `i` on sink, one after the other. -/
@[specialize] def insertFrom (cmp : α → α → Ordering) (s : Span m) (i : Nat) (v : Vector α m) :
    Vector α m :=
  if h : i < s.hi then
    insertFrom cmp s (i + 1) (sinkTo cmp s.lo i (Nat.lt_of_lt_of_le h s.hi_le) v)
  else v
termination_by s.hi - i

/-- Sorts a span. -/
@[inline] def insertion (cmp : α → α → Ordering) (s : Span m) (v : Vector α m) : Vector α m :=
  insertFrom cmp s (s.lo + 1) v

end BlockPress.Sorting
