import BlockPress.Proofs.Guarded.Sorter
import BlockPress.Proofs.Rotation.VisitOrder
import BlockPress.Proofs.Runs

/-!
# The guarded order of visits

The gaps of the passes grow from one on until they are greater than the number of bytes (`widenRound`); from
there each pass takes a third of the gap before it, and the loop ends behind the pass whose gap is one
(`Guarded.gapRound`).  A pass moves bytes within one table: it takes a byte out, moves those of larger ranges
up, and puts the byte into the place that is free then (`Guarded.putByRange`).  The size of a range is a
difference of two starts, which is checked.

Main statement: **where the starts ascend, no check fails, and the gap loop ends with each byte once, those of
smaller ranges first** (`Rotation.visitOrder_ascending`).
-/

namespace BlockPress

namespace Rotation

/-- A round of the search for the first gap. -/
def widenRound (gap : ℕ) : ℕ ⊕ ℕ := if gap ≤ 256 then .inl (widen gap) else .inr gap

/-- The first gap is five steps above one. -/
theorem ends_widenRound : Ends widenRound 6 1 (gapAt 5) :=
  .again rfl (.again rfl (.again rfl (.again rfl (.again rfl (.last rfl)))))

theorem third_gapAt (k : ℕ) : gapAt (k + 1) / 3 = gapAt k := by
  rw [gapAt, widen]
  omega

theorem gapAt_ne_one (k : ℕ) : gapAt (k + 1) ≠ 1 := by
  cases k with
  | zero => decide
  | succ k =>
    rw [gapAt, gapAt, widen, widen]
    omega

end Rotation

namespace Guarded

open Rotation

variable {t : GroupTable} {gap : ℕ}

/-! ## Sizes of ranges -/

theorem Ascending.le (h : Ascending t) {i j : ℕ} (hij : i ≤ j) (hj : j < groupCount + 1) :
    getElem t i (Nat.lt_of_le_of_lt hij hj) ≤ t[j] := by
  induction j, hij using Nat.le_induction with
  | base => exact Nat.le_refl _
  | succ j hij ih => exact (ih (Nat.lt_of_succ_lt hj)).trans (h j (Nat.lt_of_succ_lt_succ hj))

/-- The size of the range of a byte, which may not be below zero. -/
def rangeSize (t : GroupTable) (lead : UInt8) : Option ℕ :=
  require (t.rangeStart lead ≤ t.rangeStop lead) <| some (t.rangeSize lead)

theorem rangeSize_eq (h : Ascending t) (lead : UInt8) : rangeSize t lead = some (t.rangeSize lead) :=
  require_eq (h.le (Nat.le_add_right _ _) _) _

/-! ## A pass in place -/

/-- The place a gap below. -/
def down (j : Fin 256) (gap : ℕ) : Fin 256 := ⟨j.val - gap, Nat.lt_of_le_of_lt (Nat.sub_le _ _) j.isLt⟩

/-- Puts a byte into place `j`, which is free.  While the byte a gap below has a larger range, that one moves
up first, and its place is free instead. -/
def putByRange (t : GroupTable) (gap : ℕ) (byte : UInt8) (size : ℕ) (j : Fin 256)
    (order : Vector UInt8 256) : Option (Vector UInt8 256) :=
  if h : 0 < gap ∧ gap ≤ j.val then
    let other := order.get (down j gap)
    (rangeSize t other).bind fun larger =>
      if size < larger then putByRange t gap byte size (down j gap) (order.set j other)
      else some (order.set j byte)
  else some (order.set j byte)
termination_by j.val
decreasing_by exact Nat.sub_lt_self h.1 h.2

/-- Puts the bytes from place `i` on into their places, one after the other. -/
def passFrom (t : GroupTable) (gap i : ℕ) (order : Vector UInt8 256) : Option (Vector UInt8 256) :=
  if h : i < 256 then
    (rangeSize t order[i]).bind fun size =>
      (putByRange t gap order[i] size ⟨i, h⟩ order).bind (passFrom t gap (i + 1))
  else some order
termination_by 256 - i

/-- Two bytes change places if one moves up and the other one is put into its place. -/
theorem set_set_eq_swap {α : Type} {n i j : ℕ} {order : Vector α n} (hi : i < n) (hj : j < n) (hne : i ≠ j)
    (byte : α) : (order.set j order[i]).set i byte = (order.set j byte).swap i j := by
  refine Vector.ext fun k hk => ?_
  simp only [Vector.getElem_set, Vector.getElem_swap, if_true, if_neg hne.symm]
  obtain rfl | hki := eq_or_ne k i
  · rw [if_pos rfl, if_pos rfl]
  · rw [if_neg hki.symm, if_neg hki]
    obtain rfl | hkj := eq_or_ne k j
    · rw [if_pos rfl, if_pos rfl]
    · rw [if_neg hkj.symm, if_neg hkj, if_neg hkj.symm]

/-- A byte is put where it sinks to. -/
theorem putByRange_eq (h : Ascending t) (byte : UInt8) (j : Fin 256) (order : Vector UInt8 256) :
    putByRange t gap byte (t.rangeSize byte) j order =
      some (sinkByRange t gap (order.set j byte) j j.isLt) := by
  fun_induction putByRange t gap byte (t.rangeSize byte) j order with
  | case1 j order hgap other ih =>
    have hne : j.val - gap ≠ j.val := by omega
    rw [rangeSize_eq h, Option.bind_some, sinkByRange, dif_pos hgap, Vector.getElem_set_self,
      Vector.getElem_set_ne j.isLt _ hne.symm]
    split
    · next hlt =>
      have hswap : (order.set j other).set (down j gap) byte = (order.set j byte).swap (j.val - gap) j :=
        set_set_eq_swap (down j gap).isLt j.isLt hne byte
      rw [ih, hswap]
      exact congrArg some (if_pos hlt).symm
    · next hge => exact congrArg some (if_neg hge).symm
  | case2 j order hgap => rw [sinkByRange, dif_neg hgap]

/-- A pass in place lets one byte after the other sink. -/
theorem passFrom_of_lt (h : Ascending t) {i : ℕ} (hi : i < 256) (order : Vector UInt8 256) :
    passFrom t gap i order = passFrom t gap (i + 1) (sinkByRange t gap order i hi) := by
  rw [passFrom, dif_pos hi, rangeSize_eq h, Option.bind_some, putByRange_eq h, Option.bind_some,
    Vector.set_getElem_self]

/-- A pass in place does what a pass does, although it leaves out the bytes that have nothing a gap below
them. -/
theorem passFrom_eq (h : Ascending t) (gap : ℕ) (order : Vector UInt8 256) :
    passFrom t gap gap order = some (gapPass t order gap) := by
  have hinv : passFrom t gap (max gap 256) (gapPass t order gap) = passFrom t gap gap order := by
    refine finFoldl_invariant (fun i w => passFrom t gap (max gap i) w = passFrom t gap gap order)
      (by rw [Nat.max_zero]) fun i w ih => ?_
    change passFrom t gap _ (sinkByRange t gap w i.val i.isLt) = _
    rw [← ih]
    obtain hlt | hge := Nat.lt_or_ge i.val gap
    · rw [sinkByRange, dif_neg (by omega), Nat.max_eq_left hlt, Nat.max_eq_left hlt.le]
    · rw [Nat.max_eq_right hge, Nat.max_eq_right (Nat.le_succ_of_le hge), passFrom_of_lt h i.isLt]
  rw [← hinv, passFrom, dif_neg (by omega)]

/-! ## The gap loop -/

/-- A round of the gap loop: a pass with a third of the gap, the last one if that is one. -/
def gapRound (t : GroupTable) :
    ℕ × Vector UInt8 256 → (ℕ × Vector UInt8 256) ⊕ Option (Vector UInt8 256)
  | (gap, order) =>
    match passFrom t (gap / 3) (gap / 3) order with
    | some order => if gap / 3 = 1 then .inr (some order) else .inl (gap / 3, order)
    | none => .inr none

theorem gapRound_gapAt (h : Ascending t) (k : ℕ) (order : Vector UInt8 256) :
    gapRound t (gapAt (k + 1), order) = if gapAt k = 1 then .inr (some (gapPass t order (gapAt k)))
      else .inl (gapAt k, gapPass t order (gapAt k)) := by
  rw [gapRound, third_gapAt, passFrom_eq h]

/-- **From every gap above one, the gap loop ends behind the pass with gap one.** -/
theorem ends_gapRound (h : Ascending t) (k : ℕ) (order : Vector UInt8 256) :
    Ends (gapRound t) (k + 1) (gapAt (k + 1), order)
      (some ((gapsBelow (k + 1)).foldl (gapPass t) order)) := by
  induction k generalizing order with
  | zero =>
    refine .last ?_
    rw [gapRound_gapAt h, gapAt, if_pos rfl, gapsBelow, gapsBelow, List.foldl_cons, List.foldl_nil, gapAt]
  | succ k ih =>
    rw [gapsBelow, List.foldl_cons]
    refine .again ?_ (ih _)
    rw [gapRound_gapAt h, if_neg (gapAt_ne_one k)]

end Guarded

namespace Rotation

/-- The table of five rotations that start with byte 3 and ten that start with byte 7. -/
def twoRanges : GroupTable := .ofFn fun k => if 2048 ≤ k.val then 15 else if 1024 ≤ k.val then 5 else 0

theorem ascending_twoRanges : Guarded.Ascending twoRanges := by
  intro k hk
  simp only [twoRanges, Vector.getElem_ofFn]
  split_ifs <;> omega

theorem rangeSize_twoRanges (b : UInt8) :
    twoRanges.rangeSize b = if b = 7 then 10 else if b = 3 then 5 else 0 := by
  have h₇ : b = 7 ↔ b.toNat = 7 := UInt8.toNat_inj.symm
  have h₃ : b = 3 ↔ b.toNat = 3 := UInt8.toNat_inj.symm
  simp only [GroupTable.rangeSize, GroupTable.rangeStart, GroupTable.rangeStop, twoRanges,
    Vector.getElem_ofFn, h₇, h₃]
  split_ifs <;> omega

/-- **Where the starts ascend, the bytes of smaller ranges are visited first.**  The gaps grow until one is
greater than the number of bytes; from there the gap loop ends behind its fifth pass, which has gap one, and
no difference of starts was below zero.  It leaves each byte once, and the ranges by their sizes. -/
theorem visitOrder_ascending (t : GroupTable) (h : Guarded.Ascending t) :
    (∃ gap, Ends widenRound 6 1 gap ∧
      Ends (Guarded.gapRound t) 5 (gap, bytesInOrder) (some (visitOrder t))) ∧
    Function.Bijective (visitOrder t).get ∧
    Monotone fun i => t.rangeSize ((visitOrder t).get i) := by
  refine ⟨⟨gapAt 5, ends_widenRound, ?_⟩, bijective_visitOrder t, monotone_visitOrder t⟩
  rw [visitOrder_eq]
  exact Guarded.ends_gapRound h 4 bytesInOrder

/-- The two bytes are visited last, the one with the greater range behind the other one. -/
theorem visitOrder_ascending_two : Guarded.Ascending twoRanges ∧
    (visitOrder twoRanges).get 254 = 3 ∧ (visitOrder twoRanges).get 255 = 7 := by
  obtain ⟨-, hbij, hmono⟩ := visitOrder_ascending twoRanges ascending_twoRanges
  obtain ⟨i, hi⟩ := hbij.surjective 3
  obtain ⟨j, hj⟩ := hbij.surjective 7
  have hlast : (visitOrder twoRanges).get 255 = 7 := by
    have hle := hmono (show j ≤ 255 from Fin.le_last j)
    by_contra hne
    simp only [hj, rangeSize_twoRanges, if_neg hne] at hle
    split_ifs at hle <;> omega
  have hi' : i ≤ 254 := by
    have hne : i ≠ 255 := fun h => absurd (hlast.symm.trans (h ▸ hi)) (by decide)
    omega
  have hle := hmono hi'
  have hne : (visitOrder twoRanges).get 254 ≠ 7 := fun h =>
    absurd (hbij.injective (h.trans hlast.symm)) (by decide)
  refine ⟨ascending_twoRanges, ?_, hlast⟩
  by_contra hne'
  simp only [hi, rangeSize_twoRanges, if_neg hne, if_neg hne'] at hle
  exact absurd hle (by decide)

end Rotation

end BlockPress
