import BlockPress.Rotation.KeyTable
import BlockPress.Sorting.Quick

/-!
# Sorting rotations word by word

`KeyTable.multikey` sorts a span of offsets whose rotations agree on their first bytes.  It divides
a span by one word: the zone that is level in it goes on one word deeper, or one byte deeper if the
word is a tag.  Short spans and deep ones are sorted by whole rotations.

The loop ends because the zone that is level in the pivot's word is never empty, and the depth at
which a span is still divided is bounded (`load_pendAll_lt`).
-/

namespace BlockPress.KeyTable

open Sorting
open scoped Standard

variable {n m : Nat}

/-- A span of offsets whose rotations agree on their first `depth` bytes. -/
structure Frame (m : Nat) where
  /-- The span. -/
  span : Span m
  /-- The number of leading bytes that agree. -/
  depth : Nat

/-- Spans up to this size are sorted by whole rotations. -/
def smallSize : Nat := 20

/-- From this depth on, spans are sorted by whole rotations. -/
def deepDepth : Nat := 16

/-- Spans above this size take their pivot from nine entries. -/
def wideSize : Nat := 30

/-- Puts a frame on the stack, unless there is nothing to sort in it. -/
def pendFrame (stack : List (Frame m)) (f : Frame m) : List (Frame m) :=
  if 1 < f.span.size then f :: stack else stack

/-- The work that a frame stands for. -/
def Frame.load (f : Frame m) : Nat := 3 * f.span.size * (17 - f.depth) + 1

/-- The work that is pending on a stack of frames. -/
def load (stack : List (Frame m)) : Nat := (stack.map Frame.load).sum

/-- The frames with the larger spans first, and otherwise in their order. -/
def largerFirst (frames : List (Frame m)) : List (Frame m) :=
  frames.mergeSort fun f g => decide (g.span.size ≤ f.span.size)

/-- Puts frames on the stack, the one with the smallest span on top. -/
def pendAll (frames : List (Frame m)) (stack : List (Frame m)) : List (Frame m) :=
  (largerFirst frames).foldl pendFrame stack

theorem load_cons (f : Frame m) (stack : List (Frame m)) :
    load (f :: stack) = f.load + load stack := rfl

theorem load_foldl_pendFrame_le (frames stack : List (Frame m)) :
    load (frames.foldl pendFrame stack) ≤ load frames + load stack := by
  induction frames generalizing stack with
  | nil => simp [load]
  | cons f frames ih =>
    have h : load (pendFrame stack f) ≤ f.load + load stack := by
      unfold pendFrame
      split
      · exact Nat.le_refl _
      · omega
    have := ih (pendFrame stack f)
    simp only [List.foldl_cons, load_cons]
    omega

theorem load_pendAll_le (frames stack : List (Frame m)) :
    load (pendAll frames stack) ≤ load frames + load stack := by
  have h := load_foldl_pendFrame_le (largerFirst frames) stack
  have hperm : (largerFirst frames).Perm frames := List.mergeSort_perm _ _
  have hload : load (largerFirst frames) = load frames :=
    (hperm.map Frame.load).sum_nat
  rw [hload] at h
  exact h

/-- The depth at which the rotations of the level zone agree, given the pivot's word. -/
def deeper (t : KeyTable n) (depth : Nat) (word : UInt32) : Nat := depth + t.stride word

/-- The frames of the zones of a partition at some depth. -/
def framesOf {s : Span m} (z : Zones (Fin n) s) (depth next : Nat) : List (Frame m) :=
  [⟨z.below, depth⟩, ⟨z.level, next⟩, ⟨z.above, depth⟩]

theorem load_pendAll_lt {s : Span m} (z : Zones (Fin n) s) (stack : List (Frame m))
    {depth next : Nat} (hdepth : depth < deepDepth) (hnext : depth < next)
    (hlevel : 0 < z.level.size) :
    load (pendAll (framesOf z depth next) stack) < load (⟨s, depth⟩ :: stack) := by
  have hle := load_pendAll_le (framesOf z depth next) stack
  have hsize := z.size_add_size_add_size
  have hframes : load (framesOf z depth next) < (⟨s, depth⟩ : Frame m).load := by
    simp only [framesOf, load, List.map_cons, List.map_nil, List.sum_cons, List.sum_nil, Frame.load]
    simp only [deepDepth] at hdepth
    have hstep : 3 * z.level.size * (17 - next) + 3 * z.level.size ≤
        3 * z.level.size * (17 - depth) := by
      rw [← Nat.mul_succ]
      exact Nat.mul_le_mul_left _ (by omega)
    have hsum : 3 * s.size * (17 - depth) =
        3 * z.below.size * (17 - depth) + 3 * z.level.size * (17 - depth) +
          3 * z.above.size * (17 - depth) := by
      rw [← hsize, Nat.mul_add, Nat.mul_add, Nat.add_mul, Nat.add_mul]
    omega
  rw [load_cons]
  omega

/-- How a rotation compares with a word at some depth. -/
@[inline] def wordOf [NeZero n] (t : KeyTable n) (depth : Nat) (word : UInt32) (a : Fin n) :
    Ordering :=
  compareOfLessAndEq (t.key a.val depth) word

theorem wordOf_key [NeZero n] (t : KeyTable n) (depth : Nat) (a : Fin n) :
    t.wordOf depth (t.key a.val depth) a = .eq := by
  rw [wordOf, compareOfLessAndEq, if_neg (UInt32.lt_irrefl _), if_pos rfl]

/-- How the rotations at two positions compare by one word. -/
@[inline] def wordOrder [NeZero n] (t : KeyTable n) (depth : Nat) (v : Vector (Fin n) m)
    {s : Span m} (a b : s.Position) : Ordering :=
  t.wordOf depth (t.key (v.get ⟨b.val, b.lt⟩) depth) (v.get ⟨a.val, a.lt⟩)

/-- The position of the pivot: the median by word of three entries, or of three such medians. -/
def pivot [NeZero n] (t : KeyTable n) (depth : Nat) (v : Vector (Fin n) m) (s : Span m)
    (h : 0 < s.size) : s.Position :=
  let mid := s.size / 2
  let last := s.size - 1
  if hw : wideSize < s.size then
    have : 30 < s.size := hw
    let step := s.size / 8
    let first :=
      median (t.wordOrder depth v) (s.place 0 h) (s.place step (by omega))
        (s.place (2 * step) (by omega))
    let second :=
      median (t.wordOrder depth v) (s.place (mid - step) (by omega)) (s.place mid (s.half_lt h))
        (s.place (mid + step) (by omega))
    let third :=
      median (t.wordOrder depth v) (s.place (last - 2 * step) (by omega))
        (s.place (last - step) (by omega)) (s.place last (s.last_lt h))
    median (t.wordOrder depth v) first second third
  else
    median (t.wordOrder depth v) (s.place 0 h) (s.place mid (s.half_lt h)) (s.place last (s.last_lt h))

/-- Sorts a span of offsets by whole rotations, which agree on their first `depth` bytes. -/
def quick [NeZero n] (t : KeyTable n) (depth : Nat) (s : Span m) (v : Vector (Fin n) m) :
    Run (Fin n) m :=
  Sorting.quick (fun a b => t.compare depth a.val b.val) (fun a => t.compare_self depth a.val) s v

/-- The outcome of a sort by words. -/
structure MultikeyRun (n m : Nat) where
  /-- The offsets. -/
  entries : Vector (Fin n) m
  /-- The greatest number of frames that were pending at a time. -/
  peak : Nat
  /-- The greatest number of spans that were pending in one of the sorts by whole rotations. -/
  quickPeak : Nat

/-- Sorts the frames of a stack. -/
def multikeyFrom [NeZero n] (t : KeyTable n) (stack : List (Frame m)) (peak quickPeak : Nat)
    (v : Vector (Fin n) m) : MultikeyRun n m :=
  match stack with
  | [] => ⟨v, peak, quickPeak⟩
  | ⟨s, depth⟩ :: stack =>
    if h : s.size ≤ smallSize ∨ deepDepth ≤ depth then
      let run := t.quick depth s v
      multikeyFrom t stack peak (max quickPeak run.peak) run.entries
    else
      have hs : 0 < s.size := by simp only [smallSize] at h; omega
      let k := t.pivot depth v s hs
      let word := t.key (v.get ⟨k.val, k.lt⟩) depth
      let z := partition (t.wordOf depth word) s v
      have hlevel : 0 < z.level.size := size_level_pos k (t.wordOf_key depth _)
      let stack := pendAll (framesOf z depth (t.deeper depth word)) stack
      multikeyFrom t stack (max peak stack.length) quickPeak z.entries
termination_by load stack
decreasing_by
  · simp only [load_cons, Frame.load]
    omega
  · exact load_pendAll_lt z _ (by omega) (Nat.lt_add_of_pos_right (t.stride_pos _)) hlevel

/-- Sorts a span of offsets whose rotations agree on their first `depth` bytes. -/
def multikey [NeZero n] (t : KeyTable n) (depth : Nat) (s : Span m) (v : Vector (Fin n) m) :
    MultikeyRun n m :=
  multikeyFrom t [⟨s, depth⟩] 1 0 v

end BlockPress.KeyTable
