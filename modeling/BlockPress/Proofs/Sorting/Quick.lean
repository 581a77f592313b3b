import BlockPress.Proofs.Sorting.Partition
import BlockPress.Sorting.Quick

/-!
# Sorting with pending spans

A sort that keeps spans on a stack is done but for these: two entries are in order, or both are in one
span that is still pending (`Pending`).  Pending spans are apart, so working on one of them can be
looked at alone (`Pending.step`).  A partition leaves its three zones pending
(`Divided.pending`).

Main statement: **quicksort sorts a span by every key that its comparison respects**
(`sortedOn_quick`).
-/

namespace BlockPress.Sorting

variable {α κ : Type} {m : ℕ}

/-! ## Pending spans -/

/-- The entries of a span are in the order of a key but for those that share a pending span. -/
structure Pending [LE κ] (key : α → κ) (s : Span m) (stack : List (Span m)) (v : Vector α m) :
    Prop where
  /-- Nothing outside the span is pending. -/
  inside : ∀ t ∈ stack, t ⊆ s
  /-- No entry is pending twice. -/
  apart : stack.Pairwise Span.Apart
  /-- Entries are in order or share a pending span. -/
  ordered : ∀ i j, ∀ hi : i ∈ s, ∀ hj : j ∈ s, i < j →
    key (getElem v i (Span.lt_of_mem hi)) ≤ key (getElem v j (Span.lt_of_mem hj)) ∨
      ∃ t ∈ stack, i ∈ t ∧ j ∈ t

namespace Pending

variable [LE κ] {key : α → κ} {s t : Span m} {stack stack' new : List (Span m)} {v w : Vector α m}

theorem start : Pending key s [s] v :=
  ⟨fun _ ht => List.mem_singleton.mp ht ▸ Span.subset_refl s, List.pairwise_singleton _ _,
    fun _ _ hi hj _ => .inr ⟨s, List.mem_singleton.mpr rfl, hi, hj⟩⟩

theorem sortedOn (h : Pending key s [] v) : SortedOn key s v := by
  intro i j hi hj hij
  obtain hle | ⟨t, ht, -⟩ := h.ordered i j hi hj hij
  · exact hle
  · exact absurd ht List.not_mem_nil

theorem of_sortedOn (h : SortedOn key s v) : Pending key s [] v :=
  ⟨fun _ ht => absurd ht List.not_mem_nil, List.Pairwise.nil,
    fun i j hi hj hij => .inl (h i j hi hj hij)⟩

theorem perm (h : Pending key s stack v) (hp : stack.Perm stack') : Pending key s stack' v where
  inside t ht := h.inside t (hp.mem_iff.mpr ht)
  apart := (hp.pairwise_iff fun h => h.symm).mp h.apart
  ordered i j hi hj hij := by
    obtain hle | ⟨t, ht, hit, hjt⟩ := h.ordered i j hi hj hij
    · exact .inl hle
    · exact .inr ⟨t, hp.mem_iff.mp ht, hit, hjt⟩

/-- A span of at most one entry need not be pending. -/
theorem tail (h : Pending key s (t :: stack) v) (ht : t.size ≤ 1) : Pending key s stack v where
  inside u hu := h.inside u (List.mem_cons_of_mem t hu)
  apart := h.apart.of_cons
  ordered i j hi hj hij := by
    obtain hle | ⟨u, hu, hiu, hju⟩ := h.ordered i j hi hj hij
    · exact .inl hle
    obtain rfl | hu := List.mem_cons.mp hu
    · rw [Span.mem_iff] at hiu hju
      rw [Span.size] at ht
      omega
    · exact .inr ⟨u, hu, hiu, hju⟩

theorem pend (h : Pending key s (t :: stack) v) : Pending key s (pend t stack) v := by
  rw [Sorting.pend]
  split
  · exact h
  · exact h.tail (by omega)

theorem pend_pend {u : Span m} (h : Pending key s (t :: u :: stack) v) :
    Pending key s (Sorting.pend t (Sorting.pend u stack)) v := by
  rw [Sorting.pend.eq_def u]
  split
  · exact h.pend
  · exact ((h.perm (List.Perm.swap _ _ _)).tail (by omega)).pend

/-- **A pending span can be worked on alone.** -/
theorem step (h : Pending key s (t :: stack) v) (hw : Rearranges t v w) (hnew : Pending key t new w) :
    Pending key s (new ++ stack) w := by
  have hts : t ⊆ s := h.inside t List.mem_cons_self
  have hapart : ∀ u ∈ stack, t.Apart u := (List.pairwise_cons.mp h.apart).1
  refine ⟨fun u hu => ?_, ?_, fun i j hi hj hij => ?_⟩
  · obtain hu | hu := List.mem_append.mp hu
    · exact fun i hi => hts i (hnew.inside u hu i hi)
    · exact h.inside u (List.mem_cons_of_mem t hu)
  · refine List.pairwise_append.mpr ⟨hnew.apart, h.apart.of_cons, fun u hu u' hu' i hi => ?_⟩
    exact hapart u' hu' i (hnew.inside u hu i hi)
  -- an entry of `t` may come from elsewhere in `t`, which does not matter to an entry outside
  · by_cases hit : i ∈ t
    · by_cases hjt : j ∈ t
      · obtain hle | ⟨u, hu, hiu, hju⟩ := hnew.ordered i j hit hjt hij
        · exact .inl hle
        · exact .inr ⟨u, List.mem_append_left _ hu, hiu, hju⟩
      · obtain ⟨i', hi', heq⟩ := hw.exists_mem hit
        simp only [heq, hw.getElem_eq (Span.lt_of_mem hj) hjt]
        have hij' : i' < j := by
          rw [Span.mem_iff] at hit hjt hi'
          omega
        obtain hle | ⟨u, hu, hiu, hju⟩ := h.ordered i' j (hts i' hi') hj hij'
        · exact .inl hle
        · obtain rfl | hu := List.mem_cons.mp hu
          · exact absurd hju hjt
          · exact absurd hiu (hapart u hu i' hi')
    · by_cases hjt : j ∈ t
      · obtain ⟨j', hj', heq⟩ := hw.exists_mem hjt
        simp only [heq, hw.getElem_eq (Span.lt_of_mem hi) hit]
        have hij' : i < j' := by
          rw [Span.mem_iff] at hit hjt hj'
          omega
        obtain hle | ⟨u, hu, hiu, hju⟩ := h.ordered i j' hi (hts j' hj') hij'
        · exact .inl hle
        · obtain rfl | hu := List.mem_cons.mp hu
          · exact absurd hiu hit
          · exact absurd hju (hapart u hu j' hj')
      · simp only [hw.getElem_eq (Span.lt_of_mem hi) hit, hw.getElem_eq (Span.lt_of_mem hj) hjt]
        obtain hle | ⟨u, hu, hiu, hju⟩ := h.ordered i j hi hj hij
        · exact .inl hle
        · obtain rfl | hu := List.mem_cons.mp hu
          · exact absurd hiu hit
          · exact .inr ⟨u, List.mem_append_right _ hu, hiu, hju⟩

end Pending

section Zones

variable {s : Span m}

theorem Zones.subset (z : Zones α s) : ∀ t ∈ [z.below, z.level, z.above], t ⊆ s := by
  have h₀ := z.start_le_lo
  have h₁ := z.lo_le_hi
  have h₂ := z.hi_le_stop
  intro t ht i hi
  simp only [List.mem_cons, List.not_mem_nil, or_false] at ht
  rw [Span.mem_iff] at hi ⊢
  obtain rfl | rfl | rfl := ht <;> simp only [below, level, above] at hi <;> omega

theorem Zones.apart (z : Zones α s) : [z.below, z.level, z.above].Pairwise Span.Apart := by
  have h₁ := z.lo_le_hi
  have hapart {t u : Span m} (h : t.hi ≤ u.lo) : t.Apart u := fun i ht hu => by
    rw [Span.mem_iff] at ht hu
    omega
  refine List.pairwise_cons.mpr ⟨fun u hu => ?_, List.pairwise_pair.mpr (hapart (Nat.le_refl z.hi))⟩
  simp only [List.mem_cons, List.not_mem_nil, or_false] at hu
  obtain rfl | rfl := hu
  · exact hapart (Nat.le_refl z.lo)
  · exact hapart h₁

/-- **A partition leaves its zones pending**, if `ord` does not contradict the key. -/
theorem Divided.pending [LE κ] {ord : α → Ordering} {key : α → κ} {P : α → Prop} {z : Zones α s}
    (h : Divided ord z) (hP : AllOn P s z.entries)
    (hlow : ∀ a b, P a → P b → ord a = .lt → ord b ≠ .lt → key a ≤ key b)
    (hhigh : ∀ a b, P a → P b → ord a ≠ .gt → ord b = .gt → key a ≤ key b) :
    Pending key s [z.below, z.level, z.above] z.entries := by
  refine ⟨z.subset, z.apart, fun i j hi hj hij => ?_⟩
  obtain hi' | hi' | hi' := z.mem_cases hi <;> obtain hj' | hj' | hj' := z.mem_cases hj
  · exact .inr ⟨z.below, by simp, hi', hj'⟩
  · exact .inl (hlow _ _ (hP i hi) (hP j hj) (h.below i hi') (by rw [h.level j hj']; decide))
  · exact .inl (hlow _ _ (hP i hi) (hP j hj) (h.below i hi') (by rw [h.above j hj']; decide))
  · exact absurd hij (Nat.not_lt.mpr (Nat.le_of_lt (Nat.lt_of_lt_of_le hj'.2 hi'.1)))
  · exact .inr ⟨z.level, by simp, hi', hj'⟩
  · exact .inl (hhigh _ _ (hP i hi) (hP j hj) (by rw [h.level i hi']; decide) (h.above j hj'))
  · have hle := Nat.le_trans (Nat.le_of_lt hj'.2) (Nat.le_trans z.lo_le_hi hi'.1)
    exact absurd hij (Nat.not_lt.mpr hle)
  · exact absurd hij (Nat.not_lt.mpr (Nat.le_of_lt (Nat.lt_of_lt_of_le hj'.2 hi'.1)))
  · exact .inr ⟨z.above, by simp, hi', hj'⟩

end Zones

/-! ## Quicksort -/

section Quick

variable [Preorder κ] {cmp : α → α → Ordering} {key : α → κ} {P : α → Prop} {s t : Span m}
  {stack : List (Span m)} {v : Vector α m}

/-- The middle zone of a quicksort partition holds nothing but equals of the pivot. -/
theorem Pending.pendOuter (hcmp : Respects cmp key P) {p : α} (hp : P p) {z : Zones α t}
    (hz : Divided (cmp · p) z) (hP : AllOn P t z.entries)
    (h : Pending key s (z.below :: z.level :: z.above :: stack) z.entries) :
    Pending key s (pendOuter z stack) z.entries := by
  have hlevel : SortedOn key z.level z.entries := by
    have heq : AllOn (key · = key p) z.level z.entries := fun i hi =>
      (hcmp _ _ (hP i (z.subset z.level (by simp) i hi)) hp).eq_of_eq (hz.level i hi)
    intro i j hi hj _
    exact ((heq i hi).trans (heq j hj).symm).le
  have h' : Pending key s (z.below :: z.above :: stack) z.entries :=
    (h.perm (List.Perm.swap _ _ _)).step (Rearranges.refl _ _) (Pending.of_sortedOn hlevel)
  rw [Sorting.pendOuter]
  split
  · exact (h'.perm (List.Perm.swap _ _ _)).pend_pend
  · exact h'.pend_pend

/-- **Quicksort finishes what is pending.** -/
theorem quickFrom_spec (hcmp : Respects cmp key P) {refl : ∀ a, cmp a a = .eq} {peak : ℕ}
    (hP : AllOn P s v) (h : Pending key s stack v) :
    Rearranges s v (quickFrom cmp refl stack peak v).entries ∧
      SortedOn key s (quickFrom cmp refl stack peak v).entries := by
  fun_induction quickFrom cmp refl stack peak v with
  | case1 peak v => exact ⟨Rearranges.refl s v, h.sortedOn⟩
  | case2 peak v t stack hsize ih =>
    have hts : t ⊆ s := h.inside t List.mem_cons_self
    have hw : Rearranges t v (insertion cmp t v) := rearranges_insertion v
    have hsorted := sortedOn_insertion hcmp (hP.mono hts)
    obtain ⟨h₁, h₂⟩ := ih (hP.rearrange (hw.mono hts)) (h.step hw (Pending.of_sortedOn hsorted))
    exact ⟨(hw.mono hts).trans h₁, h₂⟩
  | case3 peak v t stack hsize k p z hz stack' ih =>
    have hts : t ⊆ s := h.inside t List.mem_cons_self
    have hw : Rearranges t v z.entries := rearranges_partition
    have hP' : AllOn P t z.entries := (hP.mono hts).rearrange hw
    have hp : P p := hP k.val (hts k.val k.property)
    have hdiv : Divided (cmp · p) z := divided_partition
    have hnew : Pending key t [z.below, z.level, z.above] z.entries := hdiv.pending hP'
      (fun a b ha hb hlt hne => ((hcmp a p ha hp).le_of_ne_gt (by rw [hlt]; decide)).trans
        ((hcmp b p hb hp).ge_of_ne_lt hne))
      (fun a b ha hb hne hgt => ((hcmp a p ha hp).le_of_ne_gt hne).trans
        ((hcmp b p hb hp).ge_of_ne_lt (by rw [hgt]; decide)))
    obtain ⟨h₁, h₂⟩ := ih (hP.rearrange (hw.mono hts)) ((h.step hw hnew).pendOuter hcmp hp hdiv hP')
    exact ⟨(hw.mono hts).trans h₁, h₂⟩

theorem rearranges_quick (hcmp : Respects cmp key P) {refl : ∀ a, cmp a a = .eq} (hP : AllOn P s v) :
    Rearranges s v (quick cmp refl s v).entries :=
  (quickFrom_spec hcmp hP Pending.start).1

/-- **Quicksort sorts a span by every key that its comparison respects.** -/
theorem sortedOn_quick (hcmp : Respects cmp key P) {refl : ∀ a, cmp a a = .eq} (hP : AllOn P s v) :
    SortedOn key s (quick cmp refl s v).entries :=
  (quickFrom_spec hcmp hP Pending.start).2

end Quick

end BlockPress.Sorting
