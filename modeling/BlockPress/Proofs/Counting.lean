import Mathlib.Data.Nat.Count

/-!
# Counting sort

Entries with keys are sorted by counting: the place of an entry is the number of entries with smaller
keys and of those with its own key before it (`slot`).  **No two entries have the same place**
(`slot_injective`), and those with one key fill the places from `below` the key on.
-/

namespace BlockPress.Counting

variable (g : ℕ → ℕ) (n : ℕ)

/-- The number of entries with a key less than `x`. -/
def below (x : ℕ) : ℕ := Nat.count (g · < x) n

/-- The place of an entry among all entries sorted by their keys. -/
def slot (p : ℕ) : ℕ := below g n (g p) + Nat.count (g · = g p) p

theorem below_succ (x : ℕ) : below g n (x + 1) = below g n x + Nat.count (g · = x) n := by
  induction n with
  | zero => rfl
  | succ n ih =>
    rw [below, below] at ih ⊢
    rw [Nat.count_succ, Nat.count_succ, Nat.count_succ, ih]
    obtain hlt | heq | hgt := Nat.lt_trichotomy (g n) x
    · rw [if_pos (by omega), if_pos hlt, if_neg (by omega)]
      omega
    · rw [if_pos (by omega), if_neg (by omega), if_pos heq]
      omega
    · rw [if_neg (by omega), if_neg (by omega), if_neg (by omega)]
      rfl

theorem below_zero : below g n 0 = 0 :=
  Nat.count_iff_forall_not.mpr fun p _ => Nat.not_lt_zero (g p)

theorem below_le (x : ℕ) : below g n x ≤ n := Nat.count_le _

variable {g n}

theorem below_mono {x y : ℕ} (h : x ≤ y) : below g n x ≤ below g n y :=
  Nat.count_mono_left fun _ _ hk => Nat.lt_of_lt_of_le hk h

theorem below_eq {x : ℕ} (h : ∀ p < n, g p < x) : below g n x = n := Nat.count_iff_forall.mpr h

theorem below_le_slot (p : ℕ) : below g n (g p) ≤ slot g n p := Nat.le_add_right _ _

theorem slot_lt_below {p : ℕ} (hp : p < n) : slot g n p < below g n (g p + 1) := by
  rw [slot, below_succ]
  exact Nat.add_lt_add_left (Nat.count_strict_mono (p := (g · = g p)) rfl hp) _

theorem slot_lt {p : ℕ} (hp : p < n) : slot g n p < n :=
  Nat.lt_of_lt_of_le (slot_lt_below hp) (below_le g n _)

/-- Places tell keys apart. -/
theorem le_of_slot_le {p q : ℕ} (hq : q < n) (h : slot g n p ≤ slot g n q) : g p ≤ g q := by
  by_contra hlt
  have h₁ : below g n (g q + 1) ≤ below g n (g p) := below_mono (by omega)
  have h₂ := slot_lt_below (g := g) hq
  have h₃ := below_le_slot (g := g) (n := n) p
  omega

/-- **No two entries have the same place.** -/
theorem slot_injective {p q : ℕ} (hp : p < n) (hq : q < n) (h : slot g n p = slot g n q) : p = q := by
  have hkey : g p = g q := Nat.le_antisymm (le_of_slot_le hq h.le) (le_of_slot_le hp h.ge)
  rw [slot, slot, hkey] at h
  exact Nat.count_injective (p := (g · = g q)) hkey rfl (Nat.add_left_cancel h)

end BlockPress.Counting
