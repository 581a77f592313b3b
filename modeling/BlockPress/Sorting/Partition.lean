import BlockPress.Sorting.Span

/-!
# Medians and partitions

`median cmp a b c` picks the middle one of three values.  `partition ord s v` rearranges a span into
three zones: the entries below what `ord` compares with, those level with it, and those above.

Main statement: **an entry that is level leaves the middle zone nonempty**
(`size_level_pos`), so a sort that takes one of its own entries as the pivot makes progress.
-/

namespace BlockPress.Sorting

variable {α : Type} {m : Nat}

/-- The middle one of three values. -/
@[specialize] def median (cmp : α → α → Ordering) (a b c : α) : α :=
  if cmp a b = .lt then
    if cmp b c = .lt then b else if cmp a c = .lt then c else a
  else
    if cmp a c = .lt then a else if cmp b c = .lt then c else b

/-- A vector with one of its spans divided into three zones. -/
structure Zones (α : Type) {m : Nat} (s : Span m) where
  /-- The entries. -/
  entries : Vector α m
  /-- The first position of the middle zone. -/
  lo : Nat
  /-- The position behind the middle zone. -/
  hi : Nat
  /-- The zone below starts where the span does. -/
  start_le_lo : s.lo ≤ lo
  /-- The zones are in order. -/
  lo_le_hi : lo ≤ hi
  /-- The zone above ends where the span does. -/
  hi_le_stop : hi ≤ s.hi

namespace Zones

variable {s : Span m}

/-- The zone of the smaller entries. -/
def below (z : Zones α s) : Span m :=
  ⟨s.lo, z.lo, z.start_le_lo, Nat.le_trans z.lo_le_hi (Nat.le_trans z.hi_le_stop s.hi_le)⟩

/-- The zone of the level entries. -/
def level (z : Zones α s) : Span m :=
  ⟨z.lo, z.hi, z.lo_le_hi, Nat.le_trans z.hi_le_stop s.hi_le⟩

/-- The zone of the greater entries. -/
def above (z : Zones α s) : Span m := ⟨z.hi, s.hi, z.hi_le_stop, s.hi_le⟩

/-- The zones cover the span. -/
theorem size_add_size_add_size (z : Zones α s) :
    z.below.size + z.level.size + z.above.size = s.size := by
  have := z.start_le_lo
  have := z.lo_le_hi
  have := z.hi_le_stop
  simp only [below, level, above, Span.size]
  omega

end Zones

/-- Sorts the entries from `i` to `hi` into the zones: the entries before `lo` are below, those from
`lo` to `i` are level, and those from `hi` on are above. -/
@[specialize] def partitionFrom (ord : α → Ordering) (s : Span m) (v : Vector α m) (lo i hi : Nat)
    (h₀ : s.lo ≤ lo) (h₁ : lo ≤ i) (h₂ : i ≤ hi) (h₃ : hi ≤ s.hi) : Zones α s :=
  have := s.hi_le
  if h : i < hi then
    match ord v[i] with
    | .lt =>
      partitionFrom ord s (v.swap lo i) (lo + 1) (i + 1) hi (by omega) (by omega) (by omega) h₃
    | .gt =>
      partitionFrom ord s (v.swap i (hi - 1)) lo i (hi - 1) h₀ h₁ (by omega) (by omega)
    | .eq => partitionFrom ord s v lo (i + 1) hi h₀ (by omega) (by omega) h₃
  else ⟨v, lo, hi, h₀, by omega, h₃⟩
termination_by hi - i

/-- Divides a span into the entries that `ord` takes to be below, level and above. -/
@[inline] def partition (ord : α → Ordering) (s : Span m) (v : Vector α m) : Zones α s :=
  partitionFrom ord s v s.lo s.lo s.hi (Nat.le_refl _) (Nat.le_refl _) s.lo_le_hi (Nat.le_refl _)

theorem lo_lt_hi_partitionFrom (ord : α → Ordering) (s : Span m) (v : Vector α m) (lo i hi : Nat)
    (h₀ : s.lo ≤ lo) (h₁ : lo ≤ i) (h₂ : i ≤ hi) (h₃ : hi ≤ s.hi)
    (h : lo < i ∨ ∃ k, ∃ hk : k < m, i ≤ k ∧ k < hi ∧ ord v[k] = .eq) :
    (partitionFrom ord s v lo i hi h₀ h₁ h₂ h₃).lo <
      (partitionFrom ord s v lo i hi h₀ h₁ h₂ h₃).hi := by
  fun_induction partitionFrom ord s v lo i hi h₀ h₁ h₂ h₃ with
  | case1 v lo i hi h₀ h₁ h₂ h₃ _ hlt hord ih =>
    apply ih
    rcases h with h | ⟨k, hk, h₄, h₅, h₆⟩
    · exact .inl (by omega)
    · refine .inr ⟨k, hk, ?_, h₅, ?_⟩
      · have : k ≠ i := by rintro rfl; simp [hord] at h₆
        omega
      · have : k ≠ i := by rintro rfl; simp [hord] at h₆
        rwa [Vector.getElem_swap_of_ne (by omega) (by omega)]
  | case2 v lo i hi h₀ h₁ h₂ h₃ _ hlt hord ih =>
    apply ih
    rcases h with h | ⟨k, hk, h₄, h₅, h₆⟩
    · exact .inl h
    · have hki : k ≠ i := by rintro rfl; simp [hord] at h₆
      by_cases hlast : k = hi - 1
      · subst hlast
        exact .inr ⟨i, by omega, Nat.le_refl _, by omega, by simpa using h₆⟩
      · refine .inr ⟨k, hk, h₄, by omega, ?_⟩
        rwa [Vector.getElem_swap_of_ne (by omega) (by omega)]
  | case3 v lo i hi h₀ h₁ h₂ h₃ _ hlt hord ih =>
    exact ih (.inl (by omega))
  | case4 v lo i hi h₀ h₁ h₂ h₃ _ hge =>
    rcases h with h | ⟨k, _, h₄, h₅, _⟩
    · show lo < hi
      omega
    · omega

/-- A level entry leaves the middle zone nonempty. -/
theorem size_level_pos {ord : α → Ordering} {s : Span m} {v : Vector α m} (k : s.Position)
    (h : ord (v.get ⟨k.val, k.lt⟩) = .eq) : 0 < (partition ord s v).level.size := by
  have := lo_lt_hi_partitionFrom ord s v s.lo s.lo s.hi (Nat.le_refl _) (Nat.le_refl _) s.lo_le_hi
    (Nat.le_refl _) (.inr ⟨k.val, k.lt, k.property.1, k.property.2, h⟩)
  simp only [Zones.level, Span.size]
  exact Nat.sub_pos_of_lt this

end BlockPress.Sorting
