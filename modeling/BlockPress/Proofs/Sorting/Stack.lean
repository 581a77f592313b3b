import BlockPress.Proofs.Runs
import BlockPress.Proofs.Sorting.Quick
import Mathlib.Order.MinMax

/-!
# How high a stack of pending work grows

A sort that works on the top of a stack holds, above each piece that is pending, what this piece turns into
when its time comes.  If a bound on that is known for each piece, one is known for the whole stack
(`growth`), and it is enough that no round of the sort makes it greater.

Main statements: **whatever its comparison says, quicksort comes to an end** (`ends_quick`), **permutes its
span** (`bounded_quick`) **and never has more spans pending than `quickBound` allows**
(`bounded_of_leads_quick`).
-/

namespace BlockPress.Sorting

open scoped Standard

/-! ## Stacks -/

section Growth

variable {β : Type} {need : β → ℕ} {stack stack' : List β}

/-- The height that a stack comes to at most, if the work in each piece takes up `need` places. -/
def growth (need : β → ℕ) : List β → ℕ
  | [] => 0
  | x :: stack => max (stack.length + need x) (growth need stack)

theorem length_le_growth (hneed : ∀ x, 0 < need x) : stack.length ≤ growth need stack := by
  cases stack with
  | nil => exact Nat.le_refl 0
  | cons x stack => exact le_max_of_le_left (Nat.add_le_add_left (hneed x) _)

/-- Work that is left out makes room. -/
theorem growth_le_of_sublist (h : stack.Sublist stack') : growth need stack ≤ growth need stack' := by
  induction h with
  | slnil => exact Nat.le_refl 0
  | cons x _ ih => exact le_max_of_le_right ih
  | cons_cons x h ih => exact max_le_max (Nat.add_le_add_right h.length_le _) ih

end Growth

/-! ## The bound of quicksort -/

/-- The number of pending spans that halving a size accounts for, if there were `frames` before. -/
def quickBoundFrom (frames size : ℕ) : ℕ :=
  if insertionSize ≤ size then quickBoundFrom (if frames = 0 then 2 else frames + 1) (size / 2)
  else frames
termination_by size
decreasing_by
  simp only [insertionSize] at *
  omega

/-- The greatest number of spans that quicksort has pending in a span of some size. -/
def quickBound (size : ℕ) : ℕ := max (quickBoundFrom 0 size) 1

theorem le_quickBoundFrom (frames size : ℕ) : frames ≤ quickBoundFrom frames size := by
  fun_induction quickBoundFrom frames size with
  | case1 frames size h ih =>
    by_cases hframes : frames = 0
    · rw [hframes]
      exact Nat.zero_le _
    · rw [dif_neg hframes] at ih
      rw [if_neg hframes]
      exact (Nat.le_succ frames).trans ih
  | case2 frames size h => exact Nat.le_refl frames

theorem quickBoundFrom_succ {frames : ℕ} (hframes : frames ≠ 0) (size : ℕ) :
    quickBoundFrom (frames + 1) size = quickBoundFrom frames size + 1 := by
  fun_induction quickBoundFrom frames size with
  | case1 frames size h ih =>
    rw [dif_neg hframes] at ih
    rw [quickBoundFrom, if_pos h, if_neg (Nat.succ_ne_zero frames), if_neg hframes]
    exact ih (Nat.succ_ne_zero frames)
  | case2 frames size h => rw [quickBoundFrom, if_neg h]

theorem quickBound_of_lt {size : ℕ} (h : size < insertionSize) : quickBound size = 1 := by
  rw [quickBound, quickBoundFrom, if_neg (Nat.not_le.mpr h)]
  rfl

/-- A span that is divided has one more span pending than the smaller one of two halves. -/
theorem quickBound_of_le {size : ℕ} (h : insertionSize ≤ size) :
    quickBound size = quickBound (size / 2) + 1 := by
  have hle := le_quickBoundFrom 2 (size / 2)
  have hhalf : quickBound size = quickBoundFrom 2 (size / 2) := by
    rw [quickBound, quickBoundFrom, if_pos h, if_pos rfl]
    omega
  rw [hhalf]
  obtain hlt | hge := Nat.lt_or_ge (size / 2) insertionSize
  · rw [quickBound_of_lt hlt, quickBoundFrom, if_neg (Nat.not_le.mpr hlt)]
  · have hle' := le_quickBoundFrom 2 (size / 2 / 2)
    have hfrom : quickBoundFrom 2 (size / 2) = quickBoundFrom 2 (size / 2 / 2) + 1 := by
      rw [quickBoundFrom, if_pos hge, if_neg (by decide), quickBoundFrom_succ (by decide)]
    have hbound : quickBound (size / 2) = max (quickBoundFrom 2 (size / 2 / 2)) 1 := by
      rw [quickBound, quickBoundFrom, if_pos hge, if_pos rfl]
    omega

theorem quickBound_pos (size : ℕ) : 0 < quickBound size := Nat.lt_of_lt_of_le Nat.one_pos (le_max_right _ _)

theorem quickBound_mono : Monotone quickBound := by
  intro a b hab
  induction b using Nat.strongRecOn generalizing a with
  | ind b ih =>
    obtain ha | ha := Nat.lt_or_ge a insertionSize
    · rw [quickBound_of_lt ha]
      exact quickBound_pos b
    · have hb : insertionSize ≤ b := ha.trans hab
      have hlt : b / 2 < b := Nat.div_lt_self (Nat.lt_of_lt_of_le (by decide) hb) (by decide)
      rw [quickBound_of_le ha, quickBound_of_le hb]
      exact Nat.succ_le_succ (ih (b / 2) hlt (Nat.div_le_div_right hab))

/-- Each doubling of the size costs one more pending span. -/
theorem quickBound_le {size k : ℕ} (h : size < insertionSize * 2 ^ k) : quickBound size ≤ k + 1 := by
  induction k generalizing size with
  | zero => rw [quickBound_of_lt (by omega)]
  | succ k ih =>
    obtain hlt | hge := Nat.lt_or_ge size insertionSize
    · rw [quickBound_of_lt hlt]
      omega
    · rw [quickBound_of_le hge]
      refine Nat.succ_le_succ (ih ?_)
      rw [Nat.pow_succ, ← Nat.mul_assoc] at h
      omega

/-! ## Rounds -/

variable {α : Type} {m : ℕ}

/-- The state of quicksort between two rounds. -/
structure QuickState (α : Type) (m : ℕ) where
  /-- The spans that are pending. -/
  stack : List (Span m)
  /-- The greatest number of spans that were pending. -/
  peak : ℕ
  /-- The entries. -/
  entries : Vector α m

theorem size_pos_of_not_lt {s : Span m} (h : ¬s.size < insertionSize) : 0 < s.size :=
  Nat.lt_of_lt_of_le (by decide) (Nat.not_lt.mp h)

/-- A round of quicksort: the span on top of the stack is sorted or divided. -/
def quickRound (cmp : α → α → Ordering) : QuickState α m → QuickState α m ⊕ Run α m
  | ⟨[], peak, v⟩ => .inr ⟨v, peak⟩
  | ⟨s :: stack, peak, v⟩ =>
    if h : s.size < insertionSize then .inl ⟨stack, peak, insertion cmp s v⟩
    else
      let k := pivot cmp s (size_pos_of_not_lt h) v
      let z := partition (cmp · (v.get ⟨k.val, k.lt⟩)) s v
      let stack := pendOuter z stack
      .inl ⟨stack, max peak stack.length, z.entries⟩

/-- The state in which a span is the only one that is pending. -/
def QuickState.start (s : Span m) (v : Vector α m) : QuickState α m := ⟨[s], 1, v⟩

variable {cmp : α → α → Ordering} {refl : ∀ a, cmp a a = .eq} {s u : Span m} {stack : List (Span m)}
  {v : Vector α m} {st st' : QuickState α m} {run : Run α m}

theorem pend_sublist (s : Span m) (stack : List (Span m)) : (pend s stack).Sublist (s :: stack) := by
  rw [pend]
  split
  · exact List.Sublist.refl _
  · exact List.sublist_cons_self s stack

theorem pend_pend_sublist (s u : Span m) (stack : List (Span m)) :
    (pend s (pend u stack)).Sublist (s :: u :: stack) :=
  (pend_sublist s _).trans ((pend_sublist u stack).cons_cons s)

theorem mem_of_mem_pendOuter {z : Zones α s} (h : u ∈ pendOuter z stack) :
    u ∈ [z.below, z.level, z.above] ∨ u ∈ stack := by
  rw [pendOuter] at h
  split at h
  · have hmem := (pend_pend_sublist z.above z.below stack).mem h
    simp only [List.mem_cons] at hmem ⊢
    tauto
  · have hmem := (pend_pend_sublist z.below z.above stack).mem h
    simp only [List.mem_cons] at hmem ⊢
    tauto

/-- **Dividing the span on top does not let the stack grow higher than the span did.** -/
theorem growth_pendOuter_le (z : Zones α s) (stack : List (Span m)) (h : insertionSize ≤ s.size) :
    growth (fun s => quickBound s.size) (pendOuter z stack) ≤
      growth (fun s => quickBound s.size) (s :: stack) := by
  have hsize := z.size_add_size_add_size
  have hbound := quickBound_of_le h
  -- the larger zone waits below the smaller one, which is at most half of the span
  have hgrowth {larger smaller : Span m} (hlarger : larger.size ≤ s.size)
      (hsmaller : smaller.size ≤ s.size / 2) :
      growth (fun s => quickBound s.size) (smaller :: larger :: stack) ≤
        growth (fun s => quickBound s.size) (s :: stack) := by
    have h₁ := quickBound_mono hlarger
    have h₂ := quickBound_mono hsmaller
    simp only [growth, List.length_cons]
    omega
  rw [pendOuter]
  split
  · exact (growth_le_of_sublist (pend_pend_sublist _ _ _)).trans (hgrowth (by omega) (by omega))
  · exact (growth_le_of_sublist (pend_pend_sublist _ _ _)).trans (hgrowth (by omega) (by omega))

/-- What every round of quicksort keeps, whatever the comparison says. -/
structure QuickState.Bounded (s : Span m) (v : Vector α m) (st : QuickState α m) : Prop where
  /-- Nothing outside the span is pending. -/
  inside : ∀ u ∈ st.stack, u ⊆ s
  /-- The entries of the span were permuted and no others. -/
  rearranges : Rearranges s v st.entries
  /-- The stack does not come to more than the span allows. -/
  growth_le : growth (fun s => quickBound s.size) st.stack ≤ quickBound s.size
  /-- It did not before. -/
  peak_le : st.peak ≤ quickBound s.size

theorem QuickState.Bounded.length_le (h : st.Bounded s v) : st.stack.length ≤ quickBound s.size :=
  (length_le_growth fun _ => quickBound_pos _).trans h.growth_le

theorem QuickState.bounded_start (s : Span m) (v : Vector α m) : (start s v).Bounded s v where
  inside u hu := List.mem_singleton.mp hu ▸ Span.subset_refl s
  rearranges := Rearranges.refl s v
  growth_le := by simp [start, growth]
  peak_le := quickBound_pos _

/-- A round that goes on takes work from the stack. -/
theorem quickRound_eq_inl (h : quickRound cmp st = .inl st') :
    quickFrom cmp refl st.stack st.peak st.entries =
        quickFrom cmp refl st'.stack st'.peak st'.entries ∧ load st'.stack < load st.stack := by
  obtain ⟨stack, peak, w⟩ := st
  cases stack with
  | nil => cases h
  | cons u stack =>
    rw [quickRound] at h
    split at h
    · next hsize =>
      cases h
      refine ⟨?_, ?_⟩
      · rw [quickFrom, dif_pos hsize]
      · exact Nat.lt_add_of_pos_left (Nat.succ_pos _)
    · next hsize =>
      cases h
      refine ⟨?_, ?_⟩
      · rw [quickFrom, dif_neg hsize]
      · exact load_pendOuter_lt _ _ (size_level_pos _ (refl _))

/-- The loop ends when nothing is pending. -/
theorem quickRound_eq_inr (h : quickRound cmp st = .inr run) :
    st.stack = [] ∧ run = ⟨st.entries, st.peak⟩ := by
  obtain ⟨stack, peak, w⟩ := st
  cases stack with
  | nil =>
    cases h
    exact ⟨rfl, rfl⟩
  | cons u stack =>
    rw [quickRound] at h
    split at h <;> cases h

/-- A round that goes on sorts the span on top, or divides it. -/
theorem quickRound_cases (h : quickRound cmp st = .inl st') : ∃ u stack, st.stack = u :: stack ∧
    ((st'.stack = stack ∧ st'.peak = st.peak ∧ st'.entries = insertion cmp u st.entries) ∨
      (insertionSize ≤ u.size ∧ ∃ ord, st'.stack = pendOuter (partition ord u st.entries) stack ∧
        st'.peak = max st.peak st'.stack.length ∧
        st'.entries = (partition ord u st.entries).entries)) := by
  obtain ⟨stack, peak, w⟩ := st
  cases stack with
  | nil => cases h
  | cons u stack =>
    refine ⟨u, stack, rfl, ?_⟩
    rw [quickRound] at h
    split at h
    · cases h
      exact .inl ⟨rfl, rfl, rfl⟩
    · next hsize =>
      cases h
      exact .inr ⟨Nat.not_lt.mp hsize, _, rfl, rfl, rfl⟩

/-- **A round of quicksort keeps its bounds.** -/
theorem QuickState.Bounded.round (hst : st.Bounded s v) (h : quickRound cmp st = .inl st') :
    st'.Bounded s v := by
  obtain ⟨u, stack, hstack, hcase⟩ := quickRound_cases h
  have hinside := hst.inside
  have hgrowth := hst.growth_le
  rw [hstack] at hinside hgrowth
  have hus : u ⊆ s := hinside u List.mem_cons_self
  obtain ⟨hstack', hpeak, hentries⟩ | ⟨hsize, ord, hstack', hpeak, hentries⟩ := hcase
  · refine ⟨?_, ?_, ?_, hpeak ▸ hst.peak_le⟩
    · rw [hstack']
      exact fun x hx => hinside x (List.mem_cons_of_mem u hx)
    · rw [hentries]
      exact hst.rearranges.trans ((rearranges_insertion _).mono hus)
    · rw [hstack']
      exact (growth_le_of_sublist (List.sublist_cons_self u stack)).trans hgrowth
  · have hgrowth' : growth (fun s => quickBound s.size) st'.stack ≤ quickBound s.size :=
      hstack' ▸ (growth_pendOuter_le _ stack hsize).trans hgrowth
    refine ⟨fun x hx => ?_, ?_, hgrowth', ?_⟩
    · rw [hstack'] at hx
      obtain hx | hx := mem_of_mem_pendOuter hx
      · exact fun i hi => hus i (Zones.subset _ x hx i hi)
      · exact hinside x (List.mem_cons_of_mem u hx)
    · rw [hentries]
      exact hst.rearranges.trans (rearranges_partition.mono hus)
    · rw [hpeak]
      exact max_le hst.peak_le ((length_le_growth fun _ => quickBound_pos _).trans hgrowth')

/-! ## Whole runs -/

/-- **Quicksort comes to an end.** -/
theorem ends_quick (refl : ∀ a, cmp a a = .eq) (s : Span m) (v : Vector α m) :
    ∃ n, Ends (quickRound cmp) n (.start s v) (quick cmp refl s v) := by
  have hstop (st : QuickState α m) (run : Run α m) (h : quickRound cmp st = .inr run) :
      quickFrom cmp refl st.stack st.peak st.entries = run := by
    obtain ⟨hstack, rfl⟩ := quickRound_eq_inr h
    rw [hstack, quickFrom]
  obtain ⟨n, -, hends⟩ := Ends.of_decreasing (fun st => load st.stack)
    (fun _ _ h => quickRound_eq_inl h) hstop (.start s v)
  exact ⟨n, hends⟩

/-- **On its way quicksort never has more spans pending than the bound allows.** -/
theorem bounded_of_leads_quick (h : Leads (quickRound cmp) (.start s v) st) :
    st.stack.length ≤ quickBound s.size ∧ st.peak ≤ quickBound s.size := by
  have hst := h.invariant (fun _ _ hst => hst.round) (QuickState.bounded_start s v)
  exact ⟨hst.length_le, hst.peak_le⟩

/-- **Quicksort permutes its span**, and tells no greater number of pending spans either. -/
theorem bounded_quick (refl : ∀ a, cmp a a = .eq) (s : Span m) (v : Vector α m) :
    Rearranges s v (quick cmp refl s v).entries ∧ (quick cmp refl s v).peak ≤ quickBound s.size := by
  obtain ⟨n, hends⟩ := ends_quick refl s v
  refine hends.invariant (P := QuickState.Bounded s v)
    (Q := fun run => Rearranges s v run.entries ∧ run.peak ≤ quickBound s.size)
    (fun _ _ hst => hst.round) (fun st run hst h => ?_) (QuickState.bounded_start s v)
  obtain ⟨-, rfl⟩ := quickRound_eq_inr h
  exact ⟨hst.rearranges, hst.peak_le⟩

end BlockPress.Sorting
