import BlockPress.Proofs.Runs
import BlockPress.Proofs.Sorting.Rearranging
import BlockPress.Sorting.Partition

/-!
# Rounds of a partition

A partition looks at one entry in each round.  Its three cursors cut the span into four zones: the entries
that were found below, those that were found level, those that were not looked at yet, and those that were
found above (`Cursors.Found`).  A round takes the next entry into the zone that `ord` tells
(`Cursors.Found.take`), and so the third zone gets shorter by one (`Cursors.left_take`).

Main statement: **whatever `ord` says, a partition ends after one round for each entry, permutes its span,
and leaves in each zone just the entries that `ord` tells to be there** (`partition_exact`).
-/

namespace BlockPress.Sorting

variable {α : Type} {m : ℕ} {ord : α → Ordering} {s : Span m} {v : Vector α m} {z : Zones α s}

/-! ## Zones -/

/-- A position of a divided span is in one of the zones. -/
theorem Zones.mem_cases (z : Zones α s) {i : ℕ} (hi : i ∈ s) :
    i ∈ z.below ∨ i ∈ z.level ∨ i ∈ z.above := by
  obtain h | h := Nat.lt_or_ge i z.lo
  · exact .inl ⟨hi.1, h⟩
  obtain h' | h' := Nat.lt_or_ge i z.hi
  · exact .inr (.inl ⟨h, h'⟩)
  · exact .inr (.inr ⟨h', hi.2⟩)

/-- The zones are what `ord` takes them to be. -/
structure Divided (ord : α → Ordering) {s : Span m} (z : Zones α s) : Prop where
  /-- The entries of the zone below. -/
  below : AllOn (ord · = .lt) z.below z.entries
  /-- The entries of the middle zone. -/
  level : AllOn (ord · = .eq) z.level z.entries
  /-- The entries of the zone above. -/
  above : AllOn (ord · = .gt) z.above z.entries

/-- **Which zone an entry is in tells what `ord` takes it to be**, and the other way round. -/
theorem Divided.mem_iff (h : Divided ord z) {i : ℕ} (hi : i ∈ s) :
    (ord (getElem z.entries i (Span.lt_of_mem hi)) = .lt ↔ i ∈ z.below) ∧
      (ord (getElem z.entries i (Span.lt_of_mem hi)) = .eq ↔ i ∈ z.level) ∧
      (ord (getElem z.entries i (Span.lt_of_mem hi)) = .gt ↔ i ∈ z.above) := by
  have hle := z.lo_le_hi
  simp only [Span.mem_iff, Zones.below, Zones.level, Zones.above] at hi ⊢
  obtain hz | hz | hz := z.mem_cases hi
  · have hord : ord (getElem z.entries i (Span.lt_of_mem hi)) = .lt := h.below i hz
    have : i < z.lo := hz.2
    simp only [hord, reduceCtorEq, true_iff, false_iff]
    omega
  · have hord : ord (getElem z.entries i (Span.lt_of_mem hi)) = .eq := h.level i hz
    have : z.lo ≤ i ∧ i < z.hi := hz
    simp only [hord, reduceCtorEq, true_iff, false_iff]
    omega
  · have hord : ord (getElem z.entries i (Span.lt_of_mem hi)) = .gt := h.above i hz
    have : z.hi ≤ i := hz.1
    simp only [hord, reduceCtorEq, true_iff, false_iff]
    omega

/-! ## Cursors -/

/-- Three cursors that cut a span into four zones. -/
structure Cut (s : Span m) (lo next hi : ℕ) : Prop where
  /-- The zone below starts where the span does. -/
  start_le_lo : s.lo ≤ lo
  /-- The level entries were looked at. -/
  lo_le_next : lo ≤ next
  /-- The entries not looked at come before those above. -/
  next_le_hi : next ≤ hi
  /-- The zone above ends where the span does. -/
  hi_le_stop : hi ≤ s.hi

namespace Cut

variable {lo next hi : ℕ}

theorem start (s : Span m) : Cut s s.lo s.lo s.hi :=
  ⟨Nat.le_refl _, Nat.le_refl _, s.lo_le_hi, Nat.le_refl _⟩

theorem next_mem (h : Cut s lo next hi) (hlt : next < hi) : next ∈ s :=
  ⟨Nat.le_trans h.start_le_lo h.lo_le_next, Nat.lt_of_lt_of_le hlt h.hi_le_stop⟩

theorem lo_mem (h : Cut s lo next hi) (hlt : next < hi) : lo ∈ s :=
  ⟨h.start_le_lo, Nat.lt_of_le_of_lt h.lo_le_next (h.next_mem hlt).2⟩

theorem last_mem (h : Cut s lo next hi) (hlt : next < hi) : hi - 1 ∈ s := by
  have hnext := h.next_mem hlt
  have hstop := h.hi_le_stop
  rw [Span.mem_iff] at hnext ⊢
  omega

theorem below (h : Cut s lo next hi) (hlt : next < hi) : Cut s (lo + 1) (next + 1) hi :=
  ⟨Nat.le_succ_of_le h.start_le_lo, Nat.succ_le_succ h.lo_le_next, hlt, h.hi_le_stop⟩

theorem level (h : Cut s lo next hi) (hlt : next < hi) : Cut s lo (next + 1) hi :=
  ⟨h.start_le_lo, Nat.le_succ_of_le h.lo_le_next, hlt, h.hi_le_stop⟩

theorem above (h : Cut s lo next hi) (hlt : next < hi) : Cut s lo next (hi - 1) :=
  ⟨h.start_le_lo, h.lo_le_next, Nat.le_sub_one_of_lt hlt, Nat.le_trans (Nat.sub_le _ _) h.hi_le_stop⟩

end Cut

/-- A partition between two rounds. -/
structure Cursors (α : Type) {m : ℕ} (s : Span m) where
  /-- The entries. -/
  entries : Vector α m
  /-- The first position of the entries that are level. -/
  lo : ℕ
  /-- The position that is looked at next. -/
  next : ℕ
  /-- The first position of the entries that are above. -/
  hi : ℕ
  /-- The zones are inside the span and in order. -/
  cut : Cut s lo next hi

namespace Cursors

/-- Nothing was looked at. -/
def start (s : Span m) (v : Vector α m) : Cursors α s := ⟨v, s.lo, s.lo, s.hi, .start s⟩

variable {c : Cursors α s}

/-- The number of entries that were not looked at. -/
def left (c : Cursors α s) : ℕ := c.hi - c.next

/-- What `ord` says of the next entry. -/
def look (ord : α → Ordering) (c : Cursors α s) (h : c.next < c.hi) : Ordering :=
  ord (getElem c.entries c.next (Span.lt_of_mem (c.cut.next_mem h)))

/-- Takes the next entry into a zone. -/
def take (c : Cursors α s) (h : c.next < c.hi) : Ordering → Cursors α s
  | .lt =>
    ⟨c.entries.swap c.lo c.next (Span.lt_of_mem (c.cut.lo_mem h)) (Span.lt_of_mem (c.cut.next_mem h)),
      c.lo + 1, c.next + 1, c.hi, c.cut.below h⟩
  | .eq => ⟨c.entries, c.lo, c.next + 1, c.hi, c.cut.level h⟩
  | .gt =>
    ⟨c.entries.swap c.next (c.hi - 1) (Span.lt_of_mem (c.cut.next_mem h))
        (Span.lt_of_mem (c.cut.last_mem h)),
      c.lo, c.next, c.hi - 1, c.cut.above h⟩

/-- The zones when nothing is left to look at. -/
def zones (c : Cursors α s) : Zones α s :=
  ⟨c.entries, c.lo, c.hi, c.cut.start_le_lo, Nat.le_trans c.cut.lo_le_next c.cut.next_le_hi,
    c.cut.hi_le_stop⟩

/-- Each round looks at one entry. -/
theorem left_take (h : c.next < c.hi) (o : Ordering) : (c.take h o).left + 1 = c.left := by
  cases o <;> simp only [take, left] <;> omega

/-! ## Rounds -/

/-- Each entry that was looked at is in its zone. -/
structure Found (ord : α → Ordering) (v : Vector α m) (c : Cursors α s) : Prop where
  /-- Only entries of the span were moved. -/
  rearranges : Rearranges s v c.entries
  /-- The entries before the level ones are below. -/
  below : ∀ i, ∀ hi : i < m, s.lo ≤ i → i < c.lo → ord c.entries[i] = .lt
  /-- The entries from there on, as far as they were looked at, are level. -/
  level : ∀ i, ∀ hi : i < m, c.lo ≤ i → i < c.next → ord c.entries[i] = .eq
  /-- The last entries are above. -/
  above : ∀ i, ∀ hi : i < m, c.hi ≤ i → i < s.hi → ord c.entries[i] = .gt

namespace Found

theorem start (ord : α → Ordering) (s : Span m) (v : Vector α m) : (Cursors.start s v).Found ord v where
  rearranges := Rearranges.refl s v
  below _ _ hle hlt := absurd hlt (Nat.not_lt.mpr hle)
  level _ _ hle hlt := absurd hlt (Nat.not_lt.mpr hle)
  above _ _ hle hlt := absurd hlt (Nat.not_lt.mpr hle)

/-- A smaller entry changes places with the first level one. -/
theorem take_lt (hc : c.Found ord v) (h : c.next < c.hi) (hord : c.look ord h = .lt) :
    (c.take h .lt).Found ord v := by
  have hlo := c.cut.lo_le_next
  refine {
    rearranges := hc.rearranges.trans (Rearranges.swap _ (c.cut.lo_mem h) (c.cut.next_mem h))
    below := fun i hi hle hlt => ?below
    level := fun i hi hle hlt => ?level
    above := fun i hi hle hlt => ?above } <;>
    simp only [take, Vector.getElem_swap] at hle hlt ⊢
  case below =>
    split
    · exact hord
    · rw [if_neg (by omega)]
      exact hc.below i hi hle (by omega)
  case level =>
    rw [if_neg (by omega)]
    split
    · exact hc.level c.lo (by omega) (Nat.le_refl _) (by omega)
    · exact hc.level i hi (by omega) (by omega)
  case above =>
    rw [if_neg (by omega), if_neg (by omega)]
    exact hc.above i hi hle hlt

/-- A level entry stays where it is. -/
theorem take_eq (hc : c.Found ord v) (h : c.next < c.hi) (hord : c.look ord h = .eq) :
    (c.take h .eq).Found ord v := by
  refine ⟨hc.rearranges, hc.below, fun i hi hle hlt => ?_, hc.above⟩
  obtain hlt | rfl := Nat.lt_or_eq_of_le (Nat.le_of_lt_succ hlt)
  · exact hc.level i hi hle hlt
  · exact hord

/-- A greater entry changes places with the last one that was not looked at. -/
theorem take_gt (hc : c.Found ord v) (h : c.next < c.hi) (hord : c.look ord h = .gt) :
    (c.take h .gt).Found ord v := by
  have hlo := c.cut.lo_le_next
  refine {
    rearranges := hc.rearranges.trans (Rearranges.swap _ (c.cut.next_mem h) (c.cut.last_mem h))
    below := fun i hi hle hlt => ?below
    level := fun i hi hle hlt => ?level
    above := fun i hi hle hlt => ?above } <;>
    simp only [take, Vector.getElem_swap] at hle hlt ⊢
  case below =>
    rw [if_neg (by omega), if_neg (by omega)]
    exact hc.below i hi hle hlt
  case level =>
    rw [if_neg (by omega), if_neg (by omega)]
    exact hc.level i hi hle hlt
  case above =>
    by_cases hlast : i = c.hi - 1
    -- the entry that was last comes to stand where the greater one was, unless they are the same
    · by_cases hnext : i = c.next
      · rw [if_pos hnext]
        simp only [← hlast, hnext]
        exact hord
      · rw [if_neg hnext, if_pos hlast]
        exact hord
    · rw [if_neg (by omega), if_neg hlast]
      exact hc.above i hi (by omega) hlt

/-- **A round finds the zone of one more entry.** -/
theorem take (hc : c.Found ord v) (h : c.next < c.hi) : (c.take h (c.look ord h)).Found ord v := by
  cases hord : c.look ord h with
  | lt => exact hc.take_lt h hord
  | eq => exact hc.take_eq h hord
  | gt => exact hc.take_gt h hord

/-- When nothing is left to look at, the span is divided. -/
theorem divided (hc : c.Found ord v) (h : ¬c.next < c.hi) : Divided ord c.zones where
  below i hi := hc.below i _ hi.1 hi.2
  level i hi := hc.level i _ hi.1 (Nat.lt_of_lt_of_le hi.2 (Nat.not_lt.mp h))
  above i hi := hc.above i _ hi.1 hi.2

end Found

/-- What a partition comes to from here. -/
def result (ord : α → Ordering) (c : Cursors α s) : Zones α s :=
  partitionFrom ord s c.entries c.lo c.next c.hi c.cut.start_le_lo c.cut.lo_le_next c.cut.next_le_hi
    c.cut.hi_le_stop

/-- A round does not change what a partition comes to. -/
theorem result_take (h : c.next < c.hi) : c.result ord = (c.take h (c.look ord h)).result ord := by
  conv_lhs => rw [result, partitionFrom, dif_pos h]
  split <;> next hord =>
    rw [show c.look ord h = _ from hord]
    rfl

theorem result_of_le (h : ¬c.next < c.hi) : c.result ord = c.zones := by
  rw [result, partitionFrom, dif_neg h]
  rfl

end Cursors

/-- A round of a partition: one entry is taken into its zone. -/
def partitionRound (ord : α → Ordering) (c : Cursors α s) : Cursors α s ⊕ Zones α s :=
  if h : c.next < c.hi then .inl (c.take h (c.look ord h)) else .inr c.zones

/-- What is known of the entries that were looked at, a round keeps. -/
theorem Cursors.Found.round {c c' : Cursors α s} (hc : c.Found ord v)
    (h : partitionRound ord c = .inl c') : c'.Found ord v := by
  rw [partitionRound] at h
  split at h
  · next hnext =>
    cases h
    exact hc.take hnext
  · cases h

/-- **A partition ends when it has looked at each entry once.** -/
theorem Cursors.ends_result (c : Cursors α s) :
    Ends (partitionRound ord) (c.left + 1) c (c.result ord) := by
  induction hleft : c.left generalizing c with
  | zero =>
    have h : ¬c.next < c.hi := Nat.not_lt.mpr (Nat.le_of_sub_eq_zero hleft)
    rw [result_of_le h]
    exact .last (dif_neg h)
  | succ n ih =>
    have h : c.next < c.hi := by
      rw [left] at hleft
      omega
    rw [result_take h]
    refine .again (dif_pos h) (ih _ ?_)
    have := left_take h (c.look ord h)
    omega

theorem ends_partition (ord : α → Ordering) (s : Span m) (v : Vector α m) :
    Ends (partitionRound ord) (s.size + 1) (.start s v) (partition ord s v) :=
  Cursors.ends_result (.start s v)

/-! ## Whole partitions -/

theorem partition_spec : Rearranges s v (partition ord s v).entries ∧ Divided ord (partition ord s v) := by
  refine (ends_partition ord s v).invariant (P := Cursors.Found ord v)
    (Q := fun z => Rearranges s v z.entries ∧ Divided ord z) (fun _ _ hc => hc.round)
    (fun c z hc h => ?_) (.start ord s v)
  rw [partitionRound] at h
  split at h
  · cases h
  · next hnext =>
    cases h
    exact ⟨hc.rearranges, hc.divided hnext⟩

theorem rearranges_partition : Rearranges s v (partition ord s v).entries := partition_spec.1

/-- **A partition divides its span.** -/
theorem divided_partition : Divided ord (partition ord s v) := partition_spec.2

/-- The middle zone is that of the entries that were level before. -/
theorem lo_lt_hi_partition_iff : (partition ord s v).lo < (partition ord s v).hi ↔
    ∃ i, ∃ hi : i ∈ s, ord (getElem v i (Span.lt_of_mem hi)) = .eq := by
  constructor
  · intro hlt
    have hlo : (partition ord s v).lo ∈ (partition ord s v).level := ⟨Nat.le_refl _, hlt⟩
    have hmem : (partition ord s v).lo ∈ s :=
      ⟨(partition ord s v).start_le_lo, Nat.lt_of_lt_of_le hlt (partition ord s v).hi_le_stop⟩
    obtain ⟨i, hi, heq⟩ := rearranges_partition.exists_mem hmem
    exact ⟨i, hi, heq ▸ divided_partition.level _ hlo⟩
  · rintro ⟨i, hi, hord⟩
    exact Nat.lt_of_sub_pos (size_level_pos ⟨i, hi⟩ hord)

/-- **Whatever `ord` says, a partition ends, and its zones are exact.**  It takes one round for each entry
and one to find that none is left; on its way the entries that it has looked at are in their zones.  In the
end the entries of the span are permuted, the smaller ones, the level ones and the greater ones stand in this
order, and the middle zone is not empty if there was a level one. -/
theorem partition_exact (ord : α → Ordering) (s : Span m) (v : Vector α m) :
    let z := partition ord s v
    Ends (partitionRound ord) (s.size + 1) (.start s v) z ∧
      (∀ c, Leads (partitionRound ord) (.start s v) c → c.Found ord v) ∧
      Rearranges s v z.entries ∧
      (s.lo ≤ z.lo ∧ z.lo ≤ z.hi ∧ z.hi ≤ s.hi) ∧
      (∀ i, ∀ hi : i ∈ s,
        (ord (getElem z.entries i (Span.lt_of_mem hi)) = .lt ↔ i < z.lo) ∧
        (ord (getElem z.entries i (Span.lt_of_mem hi)) = .eq ↔ z.lo ≤ i ∧ i < z.hi) ∧
        (ord (getElem z.entries i (Span.lt_of_mem hi)) = .gt ↔ z.hi ≤ i)) ∧
      (z.lo < z.hi ↔ ∃ i, ∃ hi : i ∈ s, ord (getElem v i (Span.lt_of_mem hi)) = .eq) := by
  intro z
  have hdiv : Divided ord z := divided_partition
  refine ⟨ends_partition ord s v, fun c h => ?_, rearranges_partition,
    ⟨z.start_le_lo, z.lo_le_hi, z.hi_le_stop⟩, fun i hi => ?_, lo_lt_hi_partition_iff⟩
  · exact h.invariant (fun _ _ hc => hc.round) (.start ord s v)
  · obtain ⟨hlt, heq, hgt⟩ := hdiv.mem_iff hi
    exact ⟨hlt.trans (and_iff_right hi.1), heq, hgt.trans (and_iff_left hi.2)⟩

example :
    let z := partition (compare · 5) (.all 7) #v[5, 1, 9, 5, 3, 7, 5]
    (z.lo, z.hi, z.entries.toList) = (2, 5, [1, 3, 5, 5, 5, 7, 9]) := by cbv

end BlockPress.Sorting
