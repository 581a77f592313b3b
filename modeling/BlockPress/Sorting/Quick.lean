import BlockPress.Sorting.Insertion
import BlockPress.Sorting.Partition
import BlockPress.Standard

/-!
# Quicksort with a bounded stack

The sort keeps the spans that it still has to sort on a stack.  It always goes on with the smaller
zone of a partition, so the stack stays logarithmic in the length of the span; a `Run` tells how
high it grew.  Spans of fewer than eight entries go to insertion sort.

The loop ends because the level zone of a partition holds its pivot and is not put back
(`load_pend_lt`).
-/

namespace BlockPress.Sorting

open scoped Standard

variable {α : Type} {m : Nat}

/-- The outcome of a sort that keeps its pending work on a stack. -/
structure Run (α : Type) (m : Nat) where
  /-- The entries. -/
  entries : Vector α m
  /-- The greatest number of pieces of work that were pending at a time. -/
  peak : Nat

/-- Puts a span on the stack, unless there is nothing to sort in it. -/
def pend (s : Span m) (stack : List (Span m)) : List (Span m) :=
  if 1 < s.size then s :: stack else stack

/-- The work that is pending on a stack of spans. -/
def load (stack : List (Span m)) : Nat := (stack.map fun s => 2 * s.size + 1).sum

theorem load_cons (s : Span m) (stack : List (Span m)) :
    load (s :: stack) = 2 * s.size + 1 + load stack := rfl

theorem load_pend_le (s : Span m) (stack : List (Span m)) :
    load (pend s stack) ≤ 2 * s.size + 1 + load stack := by
  unfold pend
  split
  · exact Nat.le_refl _
  · omega

/-- Ranges shorter than this are left to insertion sort. -/
def insertionSize : Nat := 8

/-- Puts the outer zones of a partition on the stack, the smaller one on top. -/
def pendOuter {s : Span m} (z : Zones α s) (stack : List (Span m)) : List (Span m) :=
  if z.above.size < z.below.size then pend z.above (pend z.below stack)
  else pend z.below (pend z.above stack)

theorem load_pendOuter_lt {s : Span m} (z : Zones α s) (stack : List (Span m))
    (h : 0 < z.level.size) : load (pendOuter z stack) < load (s :: stack) := by
  have hsize := z.size_add_size_add_size
  have h₁ := load_pend_le z.above (pend z.below stack)
  have h₂ := load_pend_le z.below stack
  have h₃ := load_pend_le z.below (pend z.above stack)
  have h₄ := load_pend_le z.above stack
  rw [load_cons]
  unfold pendOuter
  split <;> omega

/-- The middle one of the first, the middle and the last entry of a span, by position. -/
@[inline] def pivot (cmp : α → α → Ordering) (s : Span m) (h : 0 < s.size) (v : Vector α m) :
    s.Position :=
  median (fun a b : s.Position => cmp (v.get ⟨a.val, a.lt⟩) (v.get ⟨b.val, b.lt⟩))
    (s.place 0 h) (s.place (s.size / 2) (s.half_lt h)) (s.place (s.size - 1) (s.last_lt h))

/-- Sorts the spans of a stack. -/
@[specialize] def quickFrom (cmp : α → α → Ordering) (refl : ∀ a, cmp a a = .eq)
    (stack : List (Span m)) (peak : Nat) (v : Vector α m) : Run α m :=
  match stack with
  | [] => ⟨v, peak⟩
  | s :: stack =>
    if h : s.size < insertionSize then quickFrom cmp refl stack peak (insertion cmp s v)
    else
      let k := pivot cmp s (by simp only [insertionSize] at h; omega) v
      let p := v.get ⟨k.val, k.lt⟩
      let z := partition (cmp · p) s v
      have hz : 0 < z.level.size := size_level_pos k (refl p)
      let stack := pendOuter z stack
      quickFrom cmp refl stack (max peak stack.length) z.entries
termination_by load stack
decreasing_by
  · rw [load_cons]; omega
  · exact load_pendOuter_lt z _ hz

/-- Sorts a span. -/
@[inline] def quick (cmp : α → α → Ordering) (refl : ∀ a, cmp a a = .eq) (s : Span m)
    (v : Vector α m) : Run α m :=
  quickFrom cmp refl [s] 1 v

end BlockPress.Sorting
