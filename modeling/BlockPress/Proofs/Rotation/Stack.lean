import BlockPress.Block.Config
import BlockPress.Proofs.Rotation.Multikey
import BlockPress.Proofs.Sorting.Listed
import BlockPress.Proofs.Sorting.Stack

/-!
# How high the stack of the sort by words grows

Of the three zones of a partition the smallest is on top of the stack: it has at most a third of the
offsets, and the next one at most a half.  So thirds cost two more frames and halves one (`multikeyBound`).
The zone that is level in a word may be the whole span again, but then it is deeper, and from a depth of 16
on it is left to quicksort.

Main statement: **with any keys, whatever they say, the sorts come to an end and permute their span, and
their stacks stay within their bounds**, which are 27 and 23 for 16 MiB (`stacks_bounded`).
-/

namespace BlockPress.KeyTable

open Sorting
open scoped Standard

/-! ## The bound -/

/-- The number of frames that thirds and halves of a size account for. -/
def framesAbove (size : ℕ) : ℕ :=
  if size ≤ smallSize then 0
  else max (max 3 (2 + framesAbove (size / 3))) (1 + framesAbove (size / 2))
termination_by size
decreasing_by
  all_goals
    simp only [smallSize] at *
    omega

/-- The greatest number of frames that the sort by words has pending in a span of some size. -/
def multikeyBound (size : ℕ) : ℕ := max (framesAbove size) 1

theorem framesAbove_of_le {size : ℕ} (h : size ≤ smallSize) : framesAbove size = 0 := by
  rw [framesAbove, if_pos h]

theorem framesAbove_of_lt {size : ℕ} (h : smallSize < size) : framesAbove size =
    max (max 3 (2 + framesAbove (size / 3))) (1 + framesAbove (size / 2)) := by
  rw [framesAbove, if_neg (Nat.not_le.mpr h)]

theorem framesAbove_mono : Monotone framesAbove := by
  intro a b hab
  induction b using Nat.strongRecOn generalizing a with
  | ind b ih =>
    obtain ha | ha := (Nat.lt_or_ge smallSize a).symm
    · rw [framesAbove_of_le ha]
      exact Nat.zero_le _
    · have hb : smallSize < b := ha.trans_le hab
      have hpos : 0 < b := Nat.zero_lt_of_lt hb
      have hthird := ih (b / 3) (Nat.div_lt_self hpos (by decide)) (Nat.div_le_div_right hab)
      have hhalf := ih (b / 2) (Nat.div_lt_self hpos (by decide)) (Nat.div_le_div_right hab)
      rw [framesAbove_of_lt ha, framesAbove_of_lt hb]
      omega

theorem multikeyBound_pos (size : ℕ) : 0 < multikeyBound size :=
  Nat.lt_of_lt_of_le Nat.one_pos (le_max_right _ _)

theorem multikeyBound_mono : Monotone multikeyBound := fun _ _ h =>
  max_le_max (framesAbove_mono h) (Nat.le_refl 1)

/-- A span that is divided has room for two frames below a third of it, and for one below a half. -/
theorem multikeyBound_of_lt {size : ℕ} (h : smallSize < size) :
    2 + multikeyBound (size / 3) ≤ multikeyBound size ∧
      1 + multikeyBound (size / 2) ≤ multikeyBound size := by
  have hsize := framesAbove_of_lt h
  simp only [multikeyBound]
  omega

/-- Two more frames are enough for three times the size. -/
theorem framesAbove_le (k : ℕ) : (∀ size < 42 * 3 ^ k, framesAbove size ≤ 2 * k + 3) ∧
    ∀ size < 63 * 3 ^ k, framesAbove size ≤ 2 * k + 4 := by
  induction k with
  | zero =>
    have hsmall : ∀ size ≤ smallSize, framesAbove size = 0 := fun _ => framesAbove_of_le
    have hfirst (size : ℕ) (hsize : size < 42) : framesAbove size ≤ 3 := by
      obtain h | h := (Nat.lt_or_ge smallSize size).symm
      · exact (hsmall size h).trans_le (Nat.zero_le 3)
      · rw [framesAbove_of_lt h, hsmall (size / 3) (by simp only [smallSize]; omega),
          hsmall (size / 2) (by simp only [smallSize]; omega)]
        decide
    refine ⟨hfirst, fun size hsize => ?_⟩
    obtain h | h := (Nat.lt_or_ge smallSize size).symm
    · exact (hsmall size h).trans_le (Nat.zero_le _)
    · have hhalf := hfirst (size / 2) (by omega)
      rw [framesAbove_of_lt h, hsmall (size / 3) (by simp only [smallSize]; omega)]
      omega
  | succ k ih =>
    obtain ⟨hodd, heven⟩ := ih
    have hpow : 3 ^ (k + 1) = 3 * 3 ^ k := Nat.pow_succ'
    have hodd' (size : ℕ) (hsize : size < 42 * 3 ^ (k + 1)) : framesAbove size ≤ 2 * k + 5 := by
      obtain h | h := (Nat.lt_or_ge smallSize size).symm
      · exact (framesAbove_of_le h).trans_le (Nat.zero_le _)
      · have hthird := hodd (size / 3) (by omega)
        have hhalf := heven (size / 2) (by omega)
        rw [framesAbove_of_lt h]
        omega
    refine ⟨hodd', fun size hsize => ?_⟩
    obtain h | h := (Nat.lt_or_ge smallSize size).symm
    · exact (framesAbove_of_le h).trans_le (Nat.zero_le _)
    · have hthird := heven (size / 3) (by omega)
      have hhalf := hodd' (size / 2) (by omega)
      rw [framesAbove_of_lt h]
      omega

/-! ## Stacks of frames -/

variable {n m : ℕ} {stack : List (Frame m)} {s : Span m}

/-- The height that a stack of frames comes to at most. -/
def frameGrowth (stack : List (Frame m)) : ℕ := growth (fun f => multikeyBound f.span.size) stack

theorem length_le_frameGrowth : stack.length ≤ frameGrowth stack :=
  length_le_growth fun _ => multikeyBound_pos _

theorem foldl_pendFrame_sublist (frames stack : List (Frame m)) :
    (frames.foldl pendFrame stack).Sublist (frames.reverse ++ stack) := by
  induction frames generalizing stack with
  | nil => exact List.Sublist.refl stack
  | cons f frames ih =>
    have hpend : (pendFrame stack f).Sublist (f :: stack) := by
      rw [pendFrame]
      split
      · exact List.Sublist.refl _
      · exact List.sublist_cons_self f stack
    rw [List.foldl_cons, List.reverse_cons, List.append_assoc]
    exact (ih (pendFrame stack f)).trans (hpend.append_left frames.reverse)

/-- Of three frames with the larger spans first, the second span has at most half of the positions, and the
third one at most a third. -/
theorem exists_largerFirst_framesOf (z : Zones (Fin n) s) (depth next : ℕ) :
    ∃ f₁ f₂ f₃, largerFirst (framesOf z depth next) = [f₁, f₂, f₃] ∧ f₁.span.size ≤ s.size ∧
      f₂.span.size ≤ s.size / 2 ∧ f₃.span.size ≤ s.size / 3 := by
  have hperm : (largerFirst (framesOf z depth next)).Perm (framesOf z depth next) :=
    List.mergeSort_perm _ _
  have hsorted : (largerFirst (framesOf z depth next)).Pairwise
      fun f g => decide (g.span.size ≤ f.span.size) = true := by
    refine List.pairwise_mergeSort (fun f g h hfg hgh => ?_) (fun f g => ?_) _
    · simp only [decide_eq_true_eq] at *
      exact hgh.trans hfg
    · simp only [Bool.or_eq_true, decide_eq_true_eq]
      exact Nat.le_total _ _
  obtain ⟨f₁, f₂, f₃, heq⟩ := List.length_eq_three.mp hperm.length_eq
  have hsum := (hperm.map fun f => f.span.size).sum_nat
  have hsize := z.size_add_size_add_size
  rw [heq] at hsum hsorted
  simp only [framesOf, List.map_cons, List.map_nil, List.sum_cons, List.sum_nil] at hsum
  simp only [List.pairwise_cons, List.mem_cons, List.not_mem_nil, or_false, decide_eq_true_eq] at hsorted
  have h₂₁ := hsorted.1 f₂ (.inl rfl)
  have h₃₂ := hsorted.2.1 f₃ rfl
  exact ⟨f₁, f₂, f₃, heq, by omega, by omega, by omega⟩

/-- **Dividing the frame on top does not let the stack grow higher than the frame did.** -/
theorem frameGrowth_pendAll_le (z : Zones (Fin n) s) (stack : List (Frame m)) (depth next : ℕ)
    (h : smallSize < s.size) :
    frameGrowth (pendAll (framesOf z depth next) stack) ≤ frameGrowth (⟨s, depth⟩ :: stack) := by
  obtain ⟨f₁, f₂, f₃, heq, h₁, h₂, h₃⟩ := exists_largerFirst_framesOf z depth next
  have hsublist := foldl_pendFrame_sublist (largerFirst (framesOf z depth next)) stack
  rw [heq] at hsublist
  rw [pendAll, heq]
  refine (growth_le_of_sublist hsublist).trans ?_
  have hbound := multikeyBound_of_lt h
  have hbound₁ := multikeyBound_mono h₁
  have hbound₂ := multikeyBound_mono h₂
  have hbound₃ := multikeyBound_mono h₃
  simp only [frameGrowth, List.reverse_cons, List.reverse_nil, List.nil_append, List.cons_append,
    growth, List.length_cons]
  omega

/-! ## Rounds -/

/-- The state of the sort by words between two rounds. -/
structure MultikeyState (n m : ℕ) where
  /-- The frames that are pending. -/
  stack : List (Frame m)
  /-- The greatest number of frames that were pending. -/
  peak : ℕ
  /-- The greatest number of spans that were pending in one of the sorts by whole rotations. -/
  quickPeak : ℕ
  /-- The offsets. -/
  entries : Vector (Fin n) m

/-- The state in which a span is the only one that is pending. -/
def MultikeyState.start (s : Span m) (depth : ℕ) (v : Vector (Fin n) m) : MultikeyState n m :=
  ⟨[⟨s, depth⟩], 1, 0, v⟩

variable {t : KeyTable n} {depth : ℕ} {v : Vector (Fin n) m} {st st' : MultikeyState n m}
  {run : MultikeyRun n m}

/-- What every round of the sort by words keeps, whatever the keys say. -/
structure MultikeyState.Bounded (s : Span m) (v : Vector (Fin n) m) (st : MultikeyState n m) : Prop where
  /-- Nothing outside the span is pending. -/
  inside : ∀ f ∈ st.stack, f.span ⊆ s
  /-- The entries of the span were permuted and no others. -/
  rearranges : Rearranges s v st.entries
  /-- The stack does not come to more than the span allows. -/
  growth_le : frameGrowth st.stack ≤ multikeyBound s.size
  /-- It did not before. -/
  peak_le : st.peak ≤ multikeyBound s.size
  /-- Neither did the stacks of the sorts by whole rotations. -/
  quickPeak_le : st.quickPeak ≤ quickBound s.size

theorem MultikeyState.Bounded.length_le (h : st.Bounded s v) :
    st.stack.length ≤ multikeyBound s.size :=
  length_le_frameGrowth.trans h.growth_le

theorem MultikeyState.bounded_start (s : Span m) (depth : ℕ) (v : Vector (Fin n) m) :
    (start s depth v).Bounded s v where
  inside f hf := List.mem_singleton.mp hf ▸ Span.subset_refl s
  rearranges := Rearranges.refl s v
  growth_le := by simp [start, frameGrowth, growth]
  peak_le := multikeyBound_pos _
  quickPeak_le := Nat.zero_le _

/-- A span that is divided is not empty. -/
theorem size_pos_of_not_small {s : Span m} {depth : ℕ} (h : ¬(s.size ≤ smallSize ∨ deepDepth ≤ depth)) :
    0 < s.size := Nat.zero_lt_of_lt (Nat.not_le.mp fun hle => h (.inl hle))

variable [NeZero n]

/-- A round of the sort by words: the frame on top is left to quicksort or divided. -/
def multikeyRound (t : KeyTable n) : MultikeyState n m → MultikeyState n m ⊕ MultikeyRun n m
  | ⟨[], peak, quickPeak, v⟩ => .inr ⟨v, peak, quickPeak⟩
  | ⟨⟨s, depth⟩ :: stack, peak, quickPeak, v⟩ =>
    if h : s.size ≤ smallSize ∨ deepDepth ≤ depth then
      let run := t.quick depth s v
      .inl ⟨stack, peak, max quickPeak run.peak, run.entries⟩
    else
      let k := t.pivot depth v s (size_pos_of_not_small h)
      let word := t.key (v.get ⟨k.val, k.lt⟩) depth
      let z := partition (t.wordOf depth word) s v
      let stack := pendAll (framesOf z depth (t.deeper depth word)) stack
      .inl ⟨stack, max peak stack.length, quickPeak, z.entries⟩

/-- A round that goes on takes work from the stack. -/
theorem multikeyRound_eq_inl (h : multikeyRound t st = .inl st') :
    multikeyFrom t st.stack st.peak st.quickPeak st.entries =
        multikeyFrom t st'.stack st'.peak st'.quickPeak st'.entries ∧
      load st'.stack < load st.stack := by
  obtain ⟨stack, peak, quickPeak, w⟩ := st
  cases stack with
  | nil => cases h
  | cons f stack =>
    obtain ⟨u, depth⟩ := f
    rw [multikeyRound] at h
    split at h
    · next hsmall =>
      cases h
      refine ⟨?_, ?_⟩
      · rw [multikeyFrom, dif_pos hsmall]
      · exact Nat.lt_add_of_pos_left (Nat.succ_pos _)
    · next hbig =>
      cases h
      refine ⟨?_, ?_⟩
      · rw [multikeyFrom, dif_neg hbig]
      · exact load_pendAll_lt _ _ (Nat.not_le.mp fun hle => hbig (.inr hle))
          (Nat.lt_add_of_pos_right (t.stride_pos _)) (size_level_pos _ (t.wordOf_key depth _))

/-- The loop ends when nothing is pending. -/
theorem multikeyRound_eq_inr (h : multikeyRound t st = .inr run) :
    st.stack = [] ∧ run = ⟨st.entries, st.peak, st.quickPeak⟩ := by
  obtain ⟨stack, peak, quickPeak, w⟩ := st
  cases stack with
  | nil =>
    cases h
    exact ⟨rfl, rfl⟩
  | cons f stack =>
    rw [multikeyRound] at h
    split at h <;> cases h

/-- A round that goes on sorts the span on top, or divides it. -/
theorem multikeyRound_cases (h : multikeyRound t st = .inl st') : ∃ u depth stack,
    st.stack = ⟨u, depth⟩ :: stack ∧
    ((st'.stack = stack ∧ st'.peak = st.peak ∧
        st'.quickPeak = max st.quickPeak (t.quick depth u st.entries).peak ∧
        st'.entries = (t.quick depth u st.entries).entries) ∨
      (smallSize < u.size ∧ ∃ ord next,
        st'.stack = pendAll (framesOf (partition ord u st.entries) depth next) stack ∧
        st'.peak = max st.peak st'.stack.length ∧ st'.quickPeak = st.quickPeak ∧
        st'.entries = (partition ord u st.entries).entries)) := by
  obtain ⟨stack, peak, quickPeak, w⟩ := st
  cases stack with
  | nil => cases h
  | cons f stack =>
    obtain ⟨u, depth⟩ := f
    refine ⟨u, depth, stack, rfl, ?_⟩
    rw [multikeyRound] at h
    split at h
    · cases h
      exact .inl ⟨rfl, rfl, rfl, rfl⟩
    · next hbig =>
      cases h
      exact .inr ⟨Nat.not_le.mp fun hle => hbig (.inl hle), _, _, rfl, rfl, rfl, rfl⟩

theorem size_le_of_subset {u s : Span m} (h : u ⊆ s) : u.size ≤ s.size := by
  obtain hempty | hpos := Nat.eq_zero_or_pos u.size
  · rw [hempty]
    exact Nat.zero_le _
  · rw [Span.size] at hpos
    have hfirst := h u.lo ⟨Nat.le_refl _, by omega⟩
    have hlast := h (u.hi - 1) ⟨by omega, by omega⟩
    rw [Span.mem_iff] at hfirst hlast
    simp only [Span.size]
    omega

/-- **A round of the sort by words keeps its bounds.** -/
theorem MultikeyState.Bounded.round (hst : st.Bounded s v) (h : multikeyRound t st = .inl st') :
    st'.Bounded s v := by
  obtain ⟨u, depth, stack, hstack, hcase⟩ := multikeyRound_cases h
  have hinside := hst.inside
  have hgrowth := hst.growth_le
  rw [hstack] at hinside hgrowth
  have hus : u ⊆ s := hinside ⟨u, depth⟩ List.mem_cons_self
  obtain ⟨hstack', hpeak, hquick, hentries⟩ | ⟨hsize, ord, next, hstack', hpeak, hquick, hentries⟩ := hcase
  · have hbounded : Rearranges u st.entries (t.quick depth u st.entries).entries ∧
        (t.quick depth u st.entries).peak ≤ quickBound u.size := bounded_quick _ u st.entries
    refine ⟨?_, ?_, ?_, hpeak ▸ hst.peak_le, ?_⟩
    · rw [hstack']
      exact fun f hf => hinside f (List.mem_cons_of_mem _ hf)
    · rw [hentries]
      exact hst.rearranges.trans (hbounded.1.mono hus)
    · rw [hstack']
      exact (growth_le_of_sublist (List.sublist_cons_self _ stack)).trans hgrowth
    · rw [hquick]
      exact max_le hst.quickPeak_le (hbounded.2.trans (quickBound_mono (size_le_of_subset hus)))
  · have hgrowth' : frameGrowth st'.stack ≤ multikeyBound s.size :=
      hstack' ▸ (frameGrowth_pendAll_le _ stack depth next hsize).trans hgrowth
    refine ⟨fun f hf => ?_, ?_, hgrowth', ?_, hquick ▸ hst.quickPeak_le⟩
    · rw [hstack'] at hf
      obtain hf | hf := mem_of_mem_pendAll hf
      · have hspan : f.span ∈ [(partition ord u st.entries).below, (partition ord u st.entries).level,
            (partition ord u st.entries).above] := List.mem_map_of_mem hf
        exact fun i hi => hus i (Zones.subset _ f.span hspan i hi)
      · exact hinside f (List.mem_cons_of_mem _ hf)
    · rw [hentries]
      exact hst.rearranges.trans (rearranges_partition.mono hus)
    · rw [hpeak]
      exact max_le hst.peak_le (length_le_frameGrowth.trans hgrowth')

/-! ## Whole runs -/

/-- **The sort by words comes to an end.** -/
theorem ends_multikey (t : KeyTable n) (depth : ℕ) (s : Span m) (v : Vector (Fin n) m) :
    ∃ k, Ends (multikeyRound t) k (.start s depth v) (t.multikey depth s v) := by
  have hstop (st : MultikeyState n m) (run : MultikeyRun n m) (h : multikeyRound t st = .inr run) :
      multikeyFrom t st.stack st.peak st.quickPeak st.entries = run := by
    obtain ⟨hstack, rfl⟩ := multikeyRound_eq_inr h
    rw [hstack, multikeyFrom]
  obtain ⟨k, -, hends⟩ := Ends.of_decreasing (fun st => load st.stack)
    (fun _ _ h => multikeyRound_eq_inl h) hstop (.start s depth v)
  exact ⟨k, hends⟩

/-- **On its way the sort by words never has more frames pending than the bound allows.** -/
theorem bounded_of_leads_multikey (h : Leads (multikeyRound t) (.start s depth v) st) :
    st.stack.length ≤ multikeyBound s.size ∧ st.peak ≤ multikeyBound s.size ∧
      st.quickPeak ≤ quickBound s.size := by
  have hst := h.invariant (fun _ _ hst => hst.round) (MultikeyState.bounded_start s depth v)
  exact ⟨hst.length_le, hst.peak_le, hst.quickPeak_le⟩

/-- **The sort by words permutes its span**, and tells no greater numbers of pending work either. -/
theorem bounded_multikey (t : KeyTable n) (depth : ℕ) (s : Span m) (v : Vector (Fin n) m) :
    Rearranges s v (t.multikey depth s v).entries ∧
      (t.multikey depth s v).peak ≤ multikeyBound s.size ∧
      (t.multikey depth s v).quickPeak ≤ quickBound s.size := by
  obtain ⟨k, hends⟩ := ends_multikey t depth s v
  refine hends.invariant (P := MultikeyState.Bounded s v)
    (Q := fun run => Rearranges s v run.entries ∧ run.peak ≤ multikeyBound s.size ∧
      run.quickPeak ≤ quickBound s.size)
    (fun _ _ hst => hst.round) (fun st run hst h => ?_) (MultikeyState.bounded_start s depth v)
  obtain ⟨-, rfl⟩ := multikeyRound_eq_inr h
  exact ⟨hst.rearranges, hst.peak_le, hst.quickPeak_le⟩

theorem compare_val_self (t : KeyTable n) (depth : ℕ) (a : Fin n) :
    t.compare depth a.val a.val = .eq := t.compare_self depth a.val

/-- **For 16 MiB the bounds are 27 frames and 23 spans.** -/
theorem bounds_le {size : ℕ} (h : size ≤ Config.maxBlockSize) :
    multikeyBound size ≤ 27 ∧ quickBound size ≤ 23 := by
  have hsize : size ≤ 2 ^ 24 := h
  refine ⟨max_le ?_ (by decide), ?_⟩
  · exact (framesAbove_le 12).1 size (by omega)
  · exact quickBound_le (k := 22) (by simp only [insertionSize]; omega)

/-- **Whatever the keys say, the sorts come to an end, permute their span and stay within the bounds of
their stacks.**  For a span of up to 16 MiB these are 27 frames and 23 spans, and each stack has room
for 32 from the start. -/
theorem stacks_bounded (t : KeyTable n) (depth : ℕ) {s : Span m} (hsize : s.size ≤ Config.maxBlockSize)
    (v : Vector (Fin n) m) :
    let run := t.multikey depth s v
    let quickRun := t.quick depth s v
    let byRotations := quickRound fun a b : Fin n => t.compare depth a.val b.val
    ((∃ k, Ends (multikeyRound t) k (.start s depth v) run) ∧
      (s.listed run.entries).Perm (s.listed v) ∧
      (∀ st, Leads (multikeyRound t) (.start s depth v) st →
        st.stack.length ≤ multikeyBound s.size ∧ st.peak ≤ multikeyBound s.size ∧
          st.quickPeak ≤ quickBound s.size) ∧
      run.peak ≤ multikeyBound s.size ∧ run.quickPeak ≤ quickBound s.size) ∧
    ((∃ k, Ends byRotations k (.start s v) quickRun) ∧
      (s.listed quickRun.entries).Perm (s.listed v) ∧
      (∀ st, Leads byRotations (.start s v) st →
        st.stack.length ≤ quickBound s.size ∧ st.peak ≤ quickBound s.size) ∧
      quickRun.peak ≤ quickBound s.size) ∧
    multikeyBound s.size ≤ 27 ∧ quickBound s.size ≤ 23 := by
  intro run quickRun byRotations
  obtain ⟨hmultikey, hpeak, hquickPeak⟩ := bounded_multikey t depth s v
  have hrefl := t.compare_val_self depth
  obtain ⟨hquick, hpeak'⟩ : Rearranges s v quickRun.entries ∧ quickRun.peak ≤ quickBound s.size :=
    bounded_quick hrefl s v
  exact ⟨⟨ends_multikey t depth s v, hmultikey.listed_perm, fun st => bounded_of_leads_multikey, hpeak,
    hquickPeak⟩, ⟨ends_quick hrefl s v, hquick.listed_perm, fun st => bounded_of_leads_quick, hpeak'⟩,
    bounds_le hsize⟩

/-- Offsets that repeat, under keys that are all alike but for some tags of a group that is not one. -/
theorem stacks_bounded_repeats :
    let t : KeyTable 64 := (blank 64).tag 7 #[5, 5, 3]
    let v : Vector (Fin 64) 24 := .ofFn fun i => ⟨i.val % 5, by omega⟩
    (Span.all 24).size ≤ Config.maxBlockSize ∧
      ((Span.all 24).listed (t.multikey 3 (Span.all 24) v).entries).Perm ((Span.all 24).listed v) ∧
      (t.multikey 3 (Span.all 24) v).peak ≤ multikeyBound 24 ∧
      ((Span.all 24).listed (t.quick 3 (Span.all 24) v).entries).Perm ((Span.all 24).listed v) ∧
      (t.quick 3 (Span.all 24) v).peak ≤ quickBound 24 := by
  intro t v
  obtain ⟨⟨-, hperm, -, hpeak, -⟩, ⟨-, hperm', -, hpeak'⟩, -⟩ :=
    stacks_bounded t 3 (show (Span.all 24).size ≤ Config.maxBlockSize by decide) v
  exact ⟨by decide, hperm, hpeak, hperm', hpeak'⟩

end BlockPress.KeyTable
