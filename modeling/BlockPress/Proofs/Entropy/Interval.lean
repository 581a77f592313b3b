import BlockPress.Entropy.Chance
import Mathlib.Tactic.Ring

/-!
# Arithmetic coding without bounds

An `Interval` is the state of an arithmetic coder whose number may grow without limit: each binary
`Decision` cuts the interval, and a range below `2 ^ 24` is widened, together with the number, byte by
byte.  The range coder with its cached byte and its carries computes the same number.

Every decision narrows the interval that the final number lies in (`within_run`), which is what a
reader relies on, and **the number never grows past four bytes more than were shifted**
(`Sound.low_lt`).
-/

namespace BlockPress

/-! ## Chances -/

namespace Chance

/-- Both bits are possible: neither has all the parts. -/
def Open (p : Chance) : Prop := 0 < p.parts.toNat ∧ p.parts.toNat < 2048

instance (p : Chance) : Decidable p.Open := inferInstanceAs (Decidable (_ ∧ _))

theorem open_even : even.Open := by decide

theorem toNat_shiftRight (x : UInt16) {shift : Nat} (h : shift ≤ 15) :
    (x >>> shift.toUInt16).toNat = x.toNat / 2 ^ shift := by
  have hshift : shift.toUInt16.toNat % 16 = shift := by
    rw [Nat.toUInt16_eq, UInt16.toNat_ofNat']
    omega
  rw [UInt16.toNat_shiftRight, hshift, Nat.shiftRight_eq_div_pow]

/-- A one bit takes a part of the chance away. -/
theorem toNat_adapt_true (p : Chance) {shift : Nat} (h : shift ≤ 15) :
    (p.adapt shift true).parts.toNat = p.parts.toNat - p.parts.toNat / 2 ^ shift := by
  have hshift := toNat_shiftRight p.parts h
  have hle : p.parts >>> shift.toUInt16 ≤ p.parts :=
    UInt16.le_iff_toNat_le.mpr (hshift ▸ Nat.div_le_self _ _)
  rw [adapt, if_pos rfl, UInt16.toNat_sub_of_le _ _ hle, hshift]

/-- A zero bit adds a part of what the chance lacks. -/
theorem toNat_adapt_false {p : Chance} (hp : p.parts.toNat ≤ 2048) {shift : Nat} (h : shift ≤ 15) :
    (p.adapt shift false).parts.toNat = p.parts.toNat + (2048 - p.parts.toNat) / 2 ^ shift := by
  have hwhole : whole.toNat = 2048 := rfl
  have hlack : (whole - p.parts).toNat = 2048 - p.parts.toNat :=
    UInt16.toNat_sub_of_le _ _ (UInt16.le_iff_toNat_le.mpr hp)
  have hle := Nat.div_le_self (2048 - p.parts.toNat) (2 ^ shift)
  rw [adapt, if_neg Bool.false_ne_true, UInt16.toNat_add, toNat_shiftRight _ h, hlack]
  exact Nat.mod_eq_of_lt (by omega)

/-- **No history of bits makes a bit impossible.** -/
theorem Open.adapt {p : Chance} (h : p.Open) {shift : Nat} (h₁ : 1 ≤ shift) (h₂ : shift ≤ 15)
    (bit : Bool) : (p.adapt shift bit).Open := by
  obtain ⟨hpos, hlt⟩ := h
  have hhalf (x : Nat) : x / 2 ^ shift ≤ x / 2 :=
    Nat.div_le_div_left (Nat.le_self_pow (by omega) 2) (by omega)
  cases bit with
  | true =>
    have hle := hhalf p.parts.toNat
    rw [Open, toNat_adapt_true p h₂]
    generalize p.parts.toNat / 2 ^ shift = part at hle ⊢
    omega
  | false =>
    have hle := hhalf (2048 - p.parts.toNat)
    rw [Open, toNat_adapt_false hlt.le h₂]
    generalize (2048 - p.parts.toNat) / 2 ^ shift = part at hle ⊢
    omega

/-- The part of a zero bit, computed in words, is exact. -/
theorem toNat_share {p : Chance} (h : p.Open) (range : UInt32) :
    (p.share range).toNat = range.toNat / 2048 * p.parts.toNat := by
  have hr := range.toNat_lt
  have hdiv : (range >>> 11).toNat = range.toNat / 2048 := by
    rw [UInt32.toNat_shiftRight, Nat.shiftRight_eq_div_pow]
    rfl
  have hle : range.toNat / 2048 * p.parts.toNat ≤ range.toNat / 2048 * 2048 :=
    Nat.mul_le_mul_left _ (Nat.le_of_lt h.2)
  rw [share, UInt32.toNat_mul, hdiv, UInt16.toNat_toUInt32, Nat.mod_eq_of_lt (by omega)]

end Chance

/-! ## Decisions -/

/-- A bit that a coder writes or reads. -/
inductive Decision where
  /-- A bit under a chance. -/
  | chance (p : Chance) (bit : Bool)
  /-- A bit that stands for one of two halves. -/
  | half (bit : Bool)
deriving DecidableEq

/-- Both bits are possible. -/
def Decision.Open : Decision → Prop
  | .chance p _ => p.Open
  | .half _ => True

/-! ## Intervals -/

/-- The interval of the numbers that an arithmetic coder may still write. -/
structure Interval where
  /-- The least number. -/
  low : Nat := 0
  /-- The width. -/
  range : Nat := 0xFFFFFFFF
  /-- The number of bytes by which the interval was widened. -/
  shifts : Nat := 0
deriving DecidableEq

namespace Interval

/-- Widens the interval by a byte. -/
def widen (i : Interval) : Interval := ⟨256 * i.low, 256 * i.range, i.shifts + 1⟩

/-- Widens the interval until its range is `2 ^ 24` or more.  An empty range cannot be widened. -/
def normalize (i : Interval) : Interval :=
  if i.range < 2 ^ 24 ∧ i.range ≠ 0 then normalize i.widen else i
termination_by 2 ^ 24 - i.range
decreasing_by
  simp only [widen]
  omega

/-- Cuts the interval down to the part of a decision. -/
def cut (i : Interval) : Decision → Interval
  | .chance p false => { i with range := i.range / 2048 * p.parts.toNat }
  | .chance p true =>
    { i with
      low := i.low + i.range / 2048 * p.parts.toNat
      range := i.range - i.range / 2048 * p.parts.toNat }
  | .half false => { i with range := i.range / 2 }
  | .half true => { i with low := i.low + i.range / 2, range := i.range / 2 }

/-- Takes a decision. -/
def step (i : Interval) (d : Decision) : Interval := (i.cut d).normalize

/-- Takes decisions one after the other. -/
def run (ds : List Decision) (i : Interval) : Interval := ds.foldl step i

/-- Takes decisions one after the other, and widens the interval only before a decision and not
behind it, as a reader does. -/
def cutAll : List Decision → Interval → Interval
  | [], i => i
  | d :: ds, i => cutAll ds (i.normalize.cut d)

@[simp] theorem shifts_cut (i : Interval) (d : Decision) : (i.cut d).shifts = i.shifts := by
  rcases d with ⟨p, _ | _⟩ | _ | _ <;> rfl

theorem run_append (ds es : List Decision) (i : Interval) :
    run (ds ++ es) i = run es (run ds i) := List.foldl_append

theorem cutAll_append (ds es : List Decision) (i : Interval) :
    cutAll (ds ++ es) i = cutAll es (cutAll ds i) := by
  induction ds generalizing i with
  | nil => rfl
  | cons d ds ih => exact ih _

/-! ## Widening -/

theorem normalize_of_le {i : Interval} (h : 2 ^ 24 ≤ i.range) : i.normalize = i := by
  rw [normalize, if_neg (by omega)]

theorem normalize_of_lt {i : Interval} (h : i.range < 2 ^ 24) (h₀ : 0 < i.range) :
    i.normalize = i.widen.normalize := by
  rw [normalize, if_pos ⟨h, by omega⟩]

/-- A range that is not empty is widened to `2 ^ 24` or more, and stays a word. -/
theorem range_normalize {i : Interval} (h₀ : 0 < i.range) (h : i.range < 2 ^ 32) :
    2 ^ 24 ≤ i.normalize.range ∧ i.normalize.range < 2 ^ 32 := by
  fun_induction normalize i with
  | case1 i hi ih => exact ih (by simp only [widen]; omega) (by simp only [widen]; omega)
  | case2 i hi => omega

/-- **Widening late comes to the same.** -/
theorem normalize_cutAll (ds : List Decision) (i : Interval) :
    (cutAll ds i).normalize = run ds i.normalize := by
  induction ds generalizing i with
  | nil => rfl
  | cons d ds ih =>
    rw [cutAll, ih]
    rfl

/-! ## The numbers that are left -/

/-- All numbers of `j` continue numbers of `i`. -/
def Within (j i : Interval) : Prop :=
  ∃ n, j.shifts = i.shifts + n ∧ i.low * 256 ^ n ≤ j.low ∧
    j.low + j.range ≤ (i.low + i.range) * 256 ^ n

namespace Within

theorem refl (i : Interval) : i.Within i := ⟨0, by simp, by simp, by simp⟩

theorem trans {i j k : Interval} (h : k.Within j) (h' : j.Within i) : k.Within i := by
  obtain ⟨n, hn, hlow, hhigh⟩ := h
  obtain ⟨m, hm, hlow', hhigh'⟩ := h'
  refine ⟨m + n, by omega, ?_, ?_⟩
  · rw [Nat.pow_add, ← Nat.mul_assoc]
    exact Nat.le_trans (Nat.mul_le_mul_right _ hlow') hlow
  · rw [Nat.pow_add, ← Nat.mul_assoc]
    exact Nat.le_trans hhigh (Nat.mul_le_mul_right _ hhigh')

end Within

theorem within_widen (i : Interval) : i.widen.Within i :=
  ⟨1, rfl, by simp only [widen]; omega, by simp only [widen]; omega⟩

theorem within_normalize (i : Interval) : i.normalize.Within i := by
  fun_induction normalize i with
  | case1 i hi ih => exact ih.trans i.within_widen
  | case2 i hi => exact .refl i

/-- The part of a zero bit is no more than all of the range. -/
theorem share_le {p : Chance} (h : p.Open) (range : Nat) : range / 2048 * p.parts.toNat ≤ range :=
  Nat.le_trans (Nat.mul_le_mul_left _ (Nat.le_of_lt h.2)) (Nat.div_mul_le_self _ _)

/-- A cut takes a part of the interval. -/
theorem cut_bounds (i : Interval) {d : Decision} (h : d.Open) :
    i.low ≤ (i.cut d).low ∧ (i.cut d).low + (i.cut d).range ≤ i.low + i.range := by
  rcases d with ⟨p, _ | _⟩ | _ | _
  · have := share_le h i.range
    simp only [cut]
    omega
  · have := share_le h i.range
    simp only [cut]
    omega
  · simp only [cut]
    omega
  · simp only [cut]
    omega

theorem within_cut (i : Interval) {d : Decision} (h : d.Open) : (i.cut d).Within i := by
  obtain ⟨hlow, hhigh⟩ := i.cut_bounds h
  exact ⟨0, by simp, by simpa using hlow, by simpa using hhigh⟩

/-- **The final number lies in every interval before it.** -/
theorem within_run {ds : List Decision} (h : ∀ d ∈ ds, d.Open) (i : Interval) :
    (run ds i).Within i := by
  induction ds generalizing i with
  | nil => exact .refl i
  | cons d ds ih =>
    obtain ⟨hd, hds⟩ := List.forall_mem_cons.mp h
    exact (ih hds _).trans ((within_normalize _).trans (within_cut i hd))

/-- **Data read late lies in the same intervals.** -/
theorem within_cutAll {ds : List Decision} (h : ∀ d ∈ ds, d.Open) (i : Interval) :
    (cutAll ds i).Within i := by
  induction ds generalizing i with
  | nil => exact .refl i
  | cons d ds ih =>
    obtain ⟨hd, hds⟩ := List.forall_mem_cons.mp h
    exact (ih hds _).trans ((within_cut _ hd).trans (within_normalize i))

/-! ## Soundness -/

/-- The range is one that a decision can cut, and the interval lies inside the one of the start. -/
structure Sound (i : Interval) : Prop where
  /-- The range is wide enough. -/
  le_range : 2 ^ 24 ≤ i.range
  /-- The range is a word. -/
  range_lt : i.range < 2 ^ 32
  /-- The interval lies inside the one of the start. -/
  high_le : i.low + i.range ≤ (2 ^ 32 - 1) * 256 ^ i.shifts

theorem sound_start : Sound {} := ⟨by decide, by decide, by decide⟩

/-- A cut leaves `2 ^ 13` or more of the range. -/
theorem le_range_cut {i : Interval} (hi : 2 ^ 24 ≤ i.range) {d : Decision} (h : d.Open) :
    2 ^ 13 ≤ (i.cut d).range := by
  have hunit : 2 ^ 13 ≤ i.range / 2048 := by omega
  rcases d with ⟨p, _ | _⟩ | _ | _
  · exact hunit.trans (Nat.le_mul_of_pos_right _ h.1)
  · have hle : i.range / 2048 * (p.parts.toNat + 1) ≤ i.range / 2048 * 2048 :=
      Nat.mul_le_mul_left _ h.2
    rw [Nat.mul_succ] at hle
    simp only [cut]
    omega
  · simp only [cut]
    omega
  · simp only [cut]
    omega

/-- A cut leaves part of the range. -/
theorem range_cut {i : Interval} (hi : 2 ^ 24 ≤ i.range) {d : Decision} (h : d.Open) :
    0 < (i.cut d).range ∧ (i.cut d).range ≤ i.range := by
  have hle := le_range_cut hi h
  have hbounds := i.cut_bounds h
  omega

namespace Sound

variable {i : Interval}

theorem high_le_of_within {j : Interval} (h : i.Sound) (hj : j.Within i) :
    j.low + j.range ≤ (2 ^ 32 - 1) * 256 ^ j.shifts := by
  obtain ⟨n, hn, -, hhigh⟩ := hj
  rw [hn, Nat.pow_add, ← Nat.mul_assoc]
  exact Nat.le_trans hhigh (Nat.mul_le_mul_right _ h.high_le)

theorem step (h : i.Sound) {d : Decision} (hd : d.Open) : (i.step d).Sound := by
  obtain ⟨hpos, hle⟩ := range_cut h.le_range hd
  obtain ⟨h₁, h₂⟩ := range_normalize hpos (Nat.lt_of_le_of_lt hle h.range_lt)
  exact ⟨h₁, h₂, h.high_le_of_within ((within_normalize _).trans (within_cut i hd))⟩

theorem run (h : i.Sound) {ds : List Decision} (hds : ∀ d ∈ ds, d.Open) : (i.run ds).Sound := by
  induction ds generalizing i with
  | nil => exact h
  | cons d ds ih =>
    obtain ⟨hd, hds⟩ := List.forall_mem_cons.mp hds
    exact ih (h.step hd) hds

/-- **The number has at most four bytes more than were shifted.** -/
theorem low_lt (h : i.Sound) : i.low < 256 ^ (i.shifts + 4) := by
  have hle := h.high_le
  have hpos := h.le_range
  have hpow : 256 ^ (i.shifts + 4) = 2 ^ 32 * 256 ^ i.shifts := by
    rw [Nat.pow_add, Nat.mul_comm]
    rfl
  have hmul : (2 ^ 32 - 1) * 256 ^ i.shifts ≤ 2 ^ 32 * 256 ^ i.shifts :=
    Nat.mul_le_mul_right _ (by omega)
  omega

end Sound

end Interval

end BlockPress
