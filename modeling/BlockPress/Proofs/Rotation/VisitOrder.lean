import BlockPress.Proofs.Rotation.Visits

/-!
# The bytes of smaller ranges first

The leading bytes are put in order in passes, each of which lets all bytes sink by steps of a gap.  The gaps
go down to one, each of them three times the next one and one more (`gapsBelow`).  A pass with gap one is
insertion sort (`sinkByRange_one`) and needs nothing of the passes before it: they only make it fast.

Main statements: **each byte is visited once** (`bijective_visitOrder`), **those of smaller ranges first**
(`monotone_visitOrder`).
-/

namespace BlockPress.Rotation

open Sorting

variable {t : GroupTable}

/-! ## The last pass -/

theorem respects_compareOn (t : GroupTable) :
    Respects (compareOn t.rangeSize) t.rangeSize fun _ => True := by
  intro a b _ _
  cases h : compareOn t.rangeSize a b with
  | lt => exact (Nat.compare_eq_lt.mp h).le
  | eq => exact Nat.compare_eq_eq.mp h
  | gt => exact (Nat.compare_eq_gt.mp h).le

/-- With gap one, a byte sinks as in insertion sort. -/
theorem sinkByRange_one (order : Vector UInt8 256) (j : ℕ) (hj : j < 256) :
    sinkByRange t 1 order j hj = sinkTo (compareOn t.rangeSize) 0 j hj order := by
  induction j generalizing order with
  | zero => rw [sinkByRange, dif_neg (by omega), sinkTo]
  | succ j ih =>
    rw [sinkByRange, dif_pos ⟨Nat.one_pos, Nat.le_add_left 1 j⟩, sinkTo]
    simp only [Nat.add_sub_cancel, ih]
    exact if_congr (by simp [compareOn, Nat.compare_eq_gt]) rfl rfl

/-- **The pass with gap one puts the bytes in order**, however they stand. -/
theorem sortedOn_gapPass_one (order : Vector UInt8 256) :
    SortedOn t.rangeSize (Span.all 256) (gapPass t order 1) := by
  have hinv : SortedBut t.rangeSize (Span.all 256) 256 256 (gapPass t order 1) := by
    refine finFoldl_invariant (fun i w => SortedBut t.rangeSize (Span.all 256) i i w)
      (fun _ b _ _ _ hb => absurd hb (Nat.not_lt_zero b)) fun i w h => ?_
    change SortedBut _ _ _ _ (sinkByRange t 1 w i.val i.isLt)
    have hi : i.val ∈ Span.all 256 := ⟨Nat.zero_le _, i.isLt⟩
    rw [sinkByRange_one]
    exact SortedBut.sinkTo (respects_compareOn t) hi (Nat.lt_succ_self _) (fun _ _ => trivial)
      fun a b ha hb hab hb' hne => h a b ha hb hab (by omega) hne
  exact fun i j hi hj hij => hinv i j hi hj hij hj.2 hj.2.ne

/-! ## All passes -/

/-- The gap above a gap. -/
def widen (gap : ℕ) : ℕ := 3 * gap + 1

/-- The gap `k` steps above one. -/
def gapAt : ℕ → ℕ
  | 0 => 1
  | k + 1 => widen (gapAt k)

/-- The gaps that are fewer than `k` steps above one, the greatest first. -/
def gapsBelow : ℕ → List ℕ
  | 0 => []
  | k + 1 => gapAt k :: gapsBelow k

/-- The bytes from 0 on. -/
def bytesInOrder : Vector UInt8 256 := .ofFn fun b => b.val.toUInt8

theorem visitOrder_eq (t : GroupTable) :
    visitOrder t = (gapsBelow 5).foldl (gapPass t) bytesInOrder := by
  rw [visitOrder, show gaps = gapsBelow 5 from rfl, bytesInOrder]

/-- Passes with all gaps from some gap down to one put the bytes in order. -/
theorem sortedOn_gapPasses (k : ℕ) (order : Vector UInt8 256) :
    SortedOn t.rangeSize (Span.all 256) ((gapsBelow (k + 1)).foldl (gapPass t) order) := by
  induction k generalizing order with
  | zero =>
    rw [gapsBelow, gapsBelow, List.foldl_cons, List.foldl_nil, gapAt]
    exact sortedOn_gapPass_one order
  | succ k ih =>
    rw [gapsBelow, List.foldl_cons]
    exact ih _

theorem rearranges_visitOrder (t : GroupTable) :
    Rearranges (Span.all 256) bytesInOrder (visitOrder t) := rearranges_gapPasses gaps bytesInOrder

/-- **Each byte is visited once.** -/
theorem bijective_visitOrder (t : GroupTable) : Function.Bijective (visitOrder t).get := by
  refine ⟨(rearranges_visitOrder t).get_injective fun a b h => ?_, exists_visitOrder t⟩
  have hbytes (c : Fin 256) : (bytesInOrder.get c).toNat = c.val := by
    rw [Rearranges.get_eq, bytesInOrder, Vector.getElem_ofFn]
    exact UInt8.toNat_ofNat_of_lt' c.isLt
  exact Fin.ext ((hbytes a).symm.trans ((congrArg UInt8.toNat h).trans (hbytes b)))

/-- **The bytes of smaller ranges are visited first.** -/
theorem monotone_visitOrder (t : GroupTable) :
    Monotone fun i => t.rangeSize ((visitOrder t).get i) := by
  intro i j hij
  obtain rfl | hlt := eq_or_lt_of_le hij
  · exact Nat.le_refl _
  · rw [visitOrder_eq]
    exact sortedOn_gapPasses 4 _ i j ⟨Nat.zero_le _, i.isLt⟩ ⟨Nat.zero_le _, j.isLt⟩ hlt

end BlockPress.Rotation
