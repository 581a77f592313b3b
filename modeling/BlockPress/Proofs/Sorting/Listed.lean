import BlockPress.Proofs.Sorting.Rearranging

/-!
# The entries of a span as a list

What a sort does to a span is told by a list: **rearranging permutes the list of the span**
(`Rearranges.listed_perm`) and **sorting it puts the list in order** (`SortedOn.pairwise_listed`).
-/

namespace BlockPress

variable {α κ : Type} {m : ℕ} {s : Span m} {v w : Vector α m} {a : α}

namespace Span

/-- The entries of a span. -/
def listed (s : Span m) (v : Vector α m) : List α := (v.toArray.extract s.lo s.hi).toList

@[simp]
theorem length_listed (s : Span m) (v : Vector α m) : (s.listed v).length = s.size := by
  rw [listed, Array.length_toList, Array.size_extract, Vector.size_toArray, Nat.min_eq_left s.hi_le,
    size]

theorem add_mem {i : ℕ} (h : i < (s.listed v).length) : s.lo + i ∈ s := by
  rw [length_listed, size] at h
  exact ⟨Nat.le_add_right _ _, Nat.add_lt_of_lt_sub' h⟩

theorem getElem_listed {i : ℕ} (h : i < (s.listed v).length) :
    (s.listed v)[i] = getElem v (s.lo + i) (lt_of_mem (add_mem h)) := by
  simp only [listed, Array.getElem_toList, Array.getElem_extract, Vector.getElem_toArray]

theorem mem_listed_iff :
    a ∈ s.listed v ↔ ∃ i, ∃ hi : i ∈ s, getElem v i (lt_of_mem hi) = a := by
  rw [List.mem_iff_getElem]
  constructor
  · rintro ⟨i, hi, rfl⟩
    exact ⟨s.lo + i, add_mem hi, (getElem_listed hi).symm⟩
  · rintro ⟨i, hi, rfl⟩
    have hsub : s.lo + (i - s.lo) = i := Nat.add_sub_of_le hi.1
    have hlt : i - s.lo < (s.listed v).length := by
      rw [length_listed, size]
      exact Nat.sub_lt_sub_right hi.1 hi.2
    refine ⟨i - s.lo, hlt, ?_⟩
    rw [getElem_listed]
    simp only [hsub]

/-- If all entries are known, those in a span are known by what they are. -/
theorem mem_listed_iff_of_surjective (hv : Function.Surjective v.get) {P : α → Prop}
    (hP : ∀ p : Fin m, p.val ∈ s ↔ P (v.get p)) : a ∈ s.listed v ↔ P a := by
  rw [mem_listed_iff]
  constructor
  · rintro ⟨i, hi, rfl⟩
    exact (hP ⟨i, lt_of_mem hi⟩).mp hi
  · intro ha
    obtain ⟨p, rfl⟩ := hv a
    exact ⟨p, (hP p).mpr ha, rfl⟩

/-- Relations between entries of a span are those between entries of its list. -/
theorem pairwise_listed {R : α → α → Prop} (h : ∀ i j, ∀ hi : i ∈ s, ∀ hj : j ∈ s, i < j →
    R (getElem v i (lt_of_mem hi)) (getElem v j (lt_of_mem hj))) : (s.listed v).Pairwise R := by
  refine List.pairwise_iff_getElem.mpr fun i j hi hj hij => ?_
  rw [getElem_listed, getElem_listed]
  exact h _ _ (add_mem hi) (add_mem hj) (Nat.add_lt_add_left hij _)

theorem nodup_listed (h : Function.Injective v.get) : (s.listed v).Nodup :=
  pairwise_listed fun _ _ _ _ hij heq => hij.ne (congrArg Fin.val (h heq))

/-- A vector is its entries before a span, those in it and those behind it. -/
theorem toList_eq_append (s : Span m) (v : Vector α m) :
    v.toList = v.toList.take s.lo ++ s.listed v ++ v.toList.drop s.hi := by
  have hdrop : v.toList.drop s.hi = (v.toList.drop s.lo).drop (s.hi - s.lo) := by
    rw [List.drop_drop, Nat.add_sub_of_le s.lo_le_hi]
  rw [listed, Array.toList_extract, List.extract_eq_take_drop, hdrop, List.append_assoc]
  change _ = _ ++ ((v.toList.drop s.lo).take _ ++ _)
  rw [List.take_append_drop, List.take_append_drop]

end Span

namespace Sorting

theorem allOn_iff {P : α → Prop} : AllOn P s v ↔ ∀ a ∈ s.listed v, P a := by
  constructor
  · intro h a ha
    obtain ⟨i, hi, rfl⟩ := Span.mem_listed_iff.mp ha
    exact h i hi
  · intro h i hi
    exact h _ (Span.mem_listed_iff.mpr ⟨i, hi, rfl⟩)

theorem SortedOn.pairwise_listed [LE κ] {key : α → κ} (h : SortedOn key s v) :
    (s.listed v).Pairwise fun a b => key a ≤ key b := Span.pairwise_listed h

/-- **Rearranging a span permutes its list.** -/
theorem Rearranges.listed_perm (h : Rearranges s v w) : (s.listed w).Perm (s.listed v) := by
  have hperm := h.toList_perm
  have hfront : w.toList.take s.lo = v.toList.take s.lo := by
    refine List.ext_getElem (by simp) fun i hi _ => ?_
    rw [List.length_take, Vector.length_toList] at hi
    simp only [List.getElem_take, Vector.getElem_toList]
    exact h.getElem_eq (by omega) fun hs => absurd hs.1 (by omega)
  have hback : w.toList.drop s.hi = v.toList.drop s.hi := by
    refine List.ext_getElem (by simp) fun i hi _ => ?_
    rw [List.length_drop, Vector.length_toList] at hi
    simp only [List.getElem_drop, Vector.getElem_toList]
    exact h.getElem_eq (by omega) fun hs => absurd hs.2 (by omega)
  rw [s.toList_eq_append w, s.toList_eq_append v, hfront, hback] at hperm
  exact (List.perm_append_left_iff _).mp ((List.perm_append_right_iff _).mp hperm)

end Sorting

end BlockPress
