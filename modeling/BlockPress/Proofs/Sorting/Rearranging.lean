import BlockPress.Sorting.Insertion
import Mathlib.Data.List.FinRange
import Mathlib.Order.Defs.LinearOrder

/-!
# Rearranging and sorting a span

A sort may do no more than permute the entries of its span: it `Rearranges` the vector.  What holds of
all entries of the span before holds of them behind, and the other entries keep their places.

The comparison of a sort need not be an order, and entries of equal rank may compare in any way: it is
enough that it `Respects` a key.  **Insertion sort sorts a span by every key that its comparison
respects** (`sortedOn_insertion`).
-/

namespace BlockPress

variable {α κ : Type} {m : ℕ}

namespace Span

instance : Membership ℕ (Span m) := ⟨fun s i => s.lo ≤ i ∧ i < s.hi⟩

instance : HasSubset (Span m) := ⟨fun s t => ∀ i, i ∈ s → i ∈ t⟩

variable {s t : Span m} {i : ℕ}

theorem mem_iff : i ∈ s ↔ s.lo ≤ i ∧ i < s.hi := Iff.rfl

theorem lt_of_mem (h : i ∈ s) : i < m := Nat.lt_of_lt_of_le h.2 s.hi_le

theorem subset_refl (s : Span m) : s ⊆ s := fun _ h => h

theorem size_le (s : Span m) : s.size ≤ m := (Nat.sub_le s.hi s.lo).trans s.hi_le

/-- Spans without a common position. -/
def Apart (s t : Span m) : Prop := ∀ i, i ∈ s → i ∉ t

theorem Apart.symm (h : Apart s t) : Apart t s := fun i ht hs => h i hs ht

end Span

namespace Sorting

/-! ## Rearranging -/

theorem toList_eq_ofFn (v : Vector α m) : v.toList = List.ofFn v.get :=
  List.ext_getElem (by rw [Vector.length_toList, List.length_ofFn]) fun i h₁ h₂ => by
    rw [Vector.getElem_toList, List.getElem_ofFn]
    rfl

/-- The second vector is the first one with the entries of a span permuted. -/
def Rearranges (s : Span m) (v w : Vector α m) : Prop :=
  ∃ σ : Equiv.Perm (Fin m), (∀ i, i.val ∉ s → σ i = i) ∧ ∀ i, w.get i = v.get (σ i)

namespace Rearranges

variable {s t : Span m} {u v w : Vector α m}

theorem refl (s : Span m) (v : Vector α m) : Rearranges s v v :=
  ⟨Equiv.refl _, fun _ _ => rfl, fun _ => rfl⟩

theorem trans (h₁ : Rearranges s u v) (h₂ : Rearranges s v w) : Rearranges s u w := by
  obtain ⟨σ, hσ, hv⟩ := h₁
  obtain ⟨τ, hτ, hw⟩ := h₂
  refine ⟨τ.trans σ, fun i hi => ?_, fun i => ?_⟩
  · rw [Equiv.trans_apply, hτ i hi, hσ i hi]
  · rw [hw, hv]
    rfl

theorem mono (h : Rearranges s v w) (hst : s ⊆ t) : Rearranges t v w := by
  obtain ⟨σ, hσ, hw⟩ := h
  exact ⟨σ, fun i hi => hσ i fun hs => hi (hst i hs), hw⟩

theorem get_eq (v : Vector α m) (i : Fin m) : v.get i = v[i.val] := rfl

theorem swap (v : Vector α m) {i j : ℕ} (hi : i ∈ s) (hj : j ∈ s) :
    Rearranges s v (v.swap i j (Span.lt_of_mem hi) (Span.lt_of_mem hj)) := by
  refine ⟨Equiv.swap ⟨i, Span.lt_of_mem hi⟩ ⟨j, Span.lt_of_mem hj⟩, fun k hk => ?_, fun k => ?_⟩
  · refine Equiv.swap_apply_of_ne_of_ne ?_ ?_
    · rintro rfl
      exact hk hi
    · rintro rfl
      exact hk hj
  · simp only [get_eq, Vector.getElem_swap, Equiv.swap_apply_def, Fin.ext_iff]
    split
    · rfl
    · split <;> rfl

/-- Entries outside the span keep their places. -/
theorem getElem_eq (h : Rearranges s v w) {i : ℕ} (hi : i < m) (hs : i ∉ s) : w[i] = v[i] := by
  obtain ⟨σ, hσ, hw⟩ := h
  have hget := hw ⟨i, hi⟩
  rwa [hσ ⟨i, hi⟩ hs] at hget

/-- Entries of the span come from the span. -/
theorem exists_mem (h : Rearranges s v w) {i : ℕ} (hs : i ∈ s) :
    ∃ j, ∃ hj : j ∈ s, getElem w i (Span.lt_of_mem hs) = getElem v j (Span.lt_of_mem hj) := by
  obtain ⟨σ, hσ, hw⟩ := h
  refine ⟨σ ⟨i, Span.lt_of_mem hs⟩, ?_, hw ⟨i, Span.lt_of_mem hs⟩⟩
  by_contra hnot
  have hfix : σ ⟨i, Span.lt_of_mem hs⟩ = ⟨i, Span.lt_of_mem hs⟩ := σ.injective (hσ _ hnot)
  rw [hfix] at hnot
  exact hnot hs

theorem get_injective (h : Rearranges s v w) (hv : Function.Injective v.get) :
    Function.Injective w.get := by
  obtain ⟨σ, -, hw⟩ := h
  intro i j hij
  exact σ.injective (hv ((hw i).symm.trans (hij.trans (hw j))))

/-- No entry is lost. -/
theorem exists_get (h : Rearranges s v w) (i : Fin m) : ∃ j, w.get j = v.get i := by
  obtain ⟨σ, -, hw⟩ := h
  exact ⟨σ.symm i, by rw [hw, Equiv.apply_symm_apply]⟩

theorem toList_perm (h : Rearranges s v w) : w.toList.Perm v.toList := by
  obtain ⟨σ, -, hw⟩ := h
  rw [toList_eq_ofFn, toList_eq_ofFn, show w.get = v.get ∘ σ from funext hw]
  exact σ.ofFn_comp_perm _

end Rearranges

/-! ## Facts about all entries of a span -/

/-- A property of all entries of a span. -/
def AllOn (P : α → Prop) (s : Span m) (v : Vector α m) : Prop :=
  ∀ i, ∀ hi : i ∈ s, P (getElem v i (Span.lt_of_mem hi))

theorem AllOn.rearrange {P : α → Prop} {s : Span m} {v w : Vector α m} (h : AllOn P s v)
    (hw : Rearranges s v w) : AllOn P s w := by
  intro i hi
  obtain ⟨j, hj, hij⟩ := hw.exists_mem hi
  exact hij ▸ h j hj

theorem AllOn.mono {P : α → Prop} {s t : Span m} {v : Vector α m} (h : AllOn P s v) (hst : t ⊆ s) :
    AllOn P t v := fun i hi => h i (hst i hi)

/-- Rearranging a span does not touch the spans apart from it. -/
theorem AllOn.of_apart {P : α → Prop} {s t : Span m} {v w : Vector α m} (h : AllOn P s v)
    (hw : Rearranges t v w) (hst : t.Apart s) : AllOn P s w := by
  intro i hi
  rw [hw.getElem_eq (Span.lt_of_mem hi) fun ht => hst i ht hi]
  exact h i hi

/-- The entries of a span are in the order of a key. -/
def SortedOn [LE κ] (key : α → κ) (s : Span m) (v : Vector α m) : Prop :=
  ∀ i j, ∀ hi : i ∈ s, ∀ hj : j ∈ s, i < j →
    key (getElem v i (Span.lt_of_mem hi)) ≤ key (getElem v j (Span.lt_of_mem hj))

theorem SortedOn.congr [LE κ] {key : α → κ} {s : Span m} {v w : Vector α m} (h : SortedOn key s v)
    (heq : ∀ i, ∀ hi : i ∈ s, getElem w i (Span.lt_of_mem hi) = (getElem v i (Span.lt_of_mem hi))) :
    SortedOn key s w := by
  intro i j hi hj hij
  rw [heq i hi, heq j hj]
  exact h i j hi hj hij

theorem SortedOn.of_apart [LE κ] {key : α → κ} {s t : Span m} {v w : Vector α m}
    (h : SortedOn key s v) (hw : Rearranges t v w) (hst : t.Apart s) : SortedOn key s w :=
  h.congr fun i hi => hw.getElem_eq (Span.lt_of_mem hi) fun ht => hst i ht hi

theorem SortedOn.mono [LE κ] {key : α → κ} {s t : Span m} {v : Vector α m} (h : SortedOn key s v)
    (hst : t ⊆ s) : SortedOn key t v :=
  fun i j hi hj => h i j (hst i hi) (hst j hj)

/-- The outcome of a comparison does not contradict two keys. -/
def Fits [LE κ] : Ordering → κ → κ → Prop
  | .lt, a, b => a ≤ b
  | .eq, a, b => a = b
  | .gt, a, b => b ≤ a

/-- Where `P` holds, a comparison never contradicts a key. -/
def Respects [LE κ] (cmp : α → α → Ordering) (key : α → κ) (P : α → Prop) : Prop :=
  ∀ a b, P a → P b → Fits (cmp a b) (key a) (key b)

namespace Fits

variable [Preorder κ] {o : Ordering} {a b : κ}

theorem le_of_ne_gt (h : Fits o a b) (ho : o ≠ .gt) : a ≤ b := by
  cases o with
  | lt => exact h
  | eq => exact le_of_eq h
  | gt => exact absurd rfl ho

theorem ge_of_ne_lt (h : Fits o a b) (ho : o ≠ .lt) : b ≤ a := by
  cases o with
  | lt => exact absurd rfl ho
  | eq => exact ge_of_eq h
  | gt => exact h

theorem eq_of_eq (h : Fits o a b) (ho : o = .eq) : a = b := by
  subst ho
  exact h

end Fits

/-! ## Insertion sort -/

section Insertion

variable {cmp : α → α → Ordering} {s : Span m}

theorem rearranges_sinkTo {v : Vector α m} {j : ℕ} (hj : j ∈ s) :
    Rearranges s v (sinkTo cmp s.lo j (Span.lt_of_mem hj) v) := by
  induction j generalizing v with
  | zero => exact Rearranges.refl s v
  | succ j ih =>
    rw [sinkTo]
    split
    · next h =>
      have hj' : j ∈ s := ⟨h.1, Nat.lt_of_succ_lt hj.2⟩
      exact (Rearranges.swap v hj' hj).trans (ih hj')
    · exact Rearranges.refl s v

theorem rearranges_insertFrom (i : ℕ) (hi : s.lo ≤ i) (v : Vector α m) :
    Rearranges s v (insertFrom cmp s i v) := by
  fun_induction insertFrom cmp s i v with
  | case1 i v h ih => exact (rearranges_sinkTo (s := s) ⟨hi, h⟩).trans (ih (by omega))
  | case2 i v h => exact Rearranges.refl s v

theorem rearranges_insertion (v : Vector α m) : Rearranges s v (insertion cmp s v) :=
  rearranges_insertFrom _ (Nat.le_succ _) v

variable [Preorder κ] {key : α → κ} {P : α → Prop}

/-- The entries of `s` before `hi` are in order, except that the one at `j` may be too small for its
place. -/
def SortedBut (key : α → κ) (s : Span m) (hi j : ℕ) (v : Vector α m) : Prop :=
  ∀ a b, ∀ ha : a ∈ s, ∀ hb : b ∈ s, a < b → b < hi → b ≠ j →
    key (getElem v a (Span.lt_of_mem ha)) ≤ key (getElem v b (Span.lt_of_mem hb))

/-- Sinking puts the last of some entries in its place. -/
theorem SortedBut.sinkTo (hcmp : Respects cmp key P) {v : Vector α m} {hi j : ℕ} (hj : j ∈ s)
    (hlt : j < hi) (hP : AllOn P s v) (h : SortedBut key s hi j v) :
    SortedBut key s hi hi (sinkTo cmp s.lo j (Span.lt_of_mem hj) v) := by
  induction j generalizing v with
  | zero =>
    intro a b ha hb hab hb' _
    exact h a b ha hb hab hb' (by omega)
  | succ j ih =>
    rw [Sorting.sinkTo]
    split
    · next hgt =>
      have hj' : j ∈ s := ⟨hgt.1, Nat.lt_of_succ_lt hj.2⟩
      have hswap := Rearranges.swap v hj' hj
      refine ih hj' (by omega) (hP.rearrange hswap) fun a b ha hb hab hb' hne => ?_
      have hge := (hcmp _ _ (hP j hj') (hP (j + 1) hj)).ge_of_ne_lt (by rw [hgt.2]; decide)
      simp only [Vector.getElem_swap]
      by_cases hbj : b = j + 1
      · subst hbj
        rw [if_neg (show j + 1 ≠ j by omega), if_pos rfl]
        by_cases haj : a = j
        · simp only [haj, if_true]
          exact hge
        · rw [if_neg haj, if_neg (by omega)]
          exact h a j ha hj' (by omega) (by omega) (by omega)
      · rw [if_neg hne, if_neg hbj]
        split
        · exact h (j + 1) b hj hb (by omega) hb' hbj
        · split
          · exact h j b hj' hb (by omega) hb' hbj
          · exact h a b ha hb hab hb' hbj
    · next hngt =>
      intro a b ha hb hab hb' _
      by_cases hbj : b = j + 1
      · subst hbj
        have hj' : j ∈ s := ⟨Nat.le_trans ha.1 (by omega), Nat.lt_of_succ_lt hj.2⟩
        have hle := (hcmp _ _ (hP j hj') (hP (j + 1) hj)).le_of_ne_gt fun hgt => hngt ⟨hj'.1, hgt⟩
        obtain rfl | hlt' := Nat.eq_or_lt_of_le (Nat.le_of_lt_succ hab)
        · exact hle
        · exact (h a j ha hj' hlt' (by omega) (by omega)).trans hle
      · exact h a b ha hb hab hb' hbj

theorem sortedOn_insertFrom (hcmp : Respects cmp key P) {i : ℕ} (hi : s.lo ≤ i) {v : Vector α m}
    (hP : AllOn P s v) (h : SortedBut key s i i v) : SortedOn key s (insertFrom cmp s i v) := by
  fun_induction insertFrom cmp s i v with
  | case1 i v hlt ih =>
    have hmem : i ∈ s := ⟨hi, hlt⟩
    refine ih (by omega) (hP.rearrange (rearranges_sinkTo hmem)) ?_
    refine SortedBut.sinkTo hcmp hmem (by omega) hP fun a b ha hb hab hb' hne => ?_
    exact h a b ha hb hab (by omega) hne
  | case2 i v hlt =>
    intro a b ha hb hab
    exact h a b ha hb hab (by have := hb.2; omega) (by have := hb.2; omega)

/-- **Insertion sort sorts a span by every key that its comparison respects.** -/
theorem sortedOn_insertion (hcmp : Respects cmp key P) {v : Vector α m} (hP : AllOn P s v) :
    SortedOn key s (insertion cmp s v) := by
  refine sortedOn_insertFrom hcmp (Nat.le_succ _) hP fun a b ha hb hab hb' _ => ?_
  have := ha.1
  omega

end Insertion

end Sorting

end BlockPress
