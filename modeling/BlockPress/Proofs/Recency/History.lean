import BlockPress.Proofs.Recency
import Mathlib.Data.List.Nodup

/-!
# Recency lists with a history

However a list was used, it holds each byte once (`complete_iff_perm`).  So coding may look for its
byte without asking where the list ends, and carry the entries that it passes on by one place (`sift`),
while decoding may move the entries before its rank as one block (`lift`).  **Both come to the byte in
front of the others, which keep their order** (`Complete.toList_promote`).

Main statement: **after any history, coding and decoding undo each other and leave the same list
behind** (`undone_of_history`).
-/

namespace BlockPress.RecencyList

variable {l : RecencyList} {b : UInt8}

/-! ## Moving on -/

/-- The entries up to a place moved on by one: the entry of that place is lost, and the first one stands
twice. -/
def moveOn (k : ℕ) (order : Vector UInt8 256) : Vector UInt8 256 :=
  .ofFn fun i => if i.val = 0 ∨ k < i.val then order.get i else order.get ⟨i.val - 1, by omega⟩

theorem getElem_moveOn {k i : ℕ} (hi : i < 256) (order : Vector UInt8 256) :
    (moveOn k order)[i] = if i = 0 ∨ k < i then order[i] else order[i - 1] :=
  Vector.getElem_ofFn hi

theorem moveOn_zero (order : Vector UInt8 256) : moveOn 0 order = order := by
  refine Vector.ext fun i hi => ?_
  rw [getElem_moveOn hi, if_pos (Nat.eq_zero_or_pos i)]

/-- One more entry is carried on. -/
theorem set_moveOn {k : ℕ} (hk : k < 256) (hnext : k + 1 < 256) (order : Vector UInt8 256) :
    (moveOn k order).set (k + 1) order[k] = moveOn (k + 1) order := by
  refine Vector.ext fun i hi => ?_
  rw [Vector.getElem_set, getElem_moveOn hi, getElem_moveOn hi]
  by_cases heq : k + 1 = i
  · subst heq
    rw [if_pos rfl, if_neg (by omega)]
    rfl
  · rw [if_neg heq]
    by_cases hfar : i = 0 ∨ k < i
    · rw [if_pos hfar, if_pos (by omega)]
    · rw [if_neg hfar, if_neg (by omega)]

/-- Taking an entry to the front moves those before it on. -/
theorem toFront_eq {k : ℕ} (hk : k < 256) (order : Vector UInt8 256) :
    toFront k hk order = (moveOn k order).set 0 order[k] := by
  induction k generalizing order with
  | zero =>
    rw [toFront, moveOn_zero]
    exact (Vector.set_getElem_self _).symm
  | succ k ih =>
    rw [toFront, ih (Nat.lt_of_succ_lt hk)]
    refine Vector.ext fun i hi => ?_
    simp only [Vector.getElem_set, getElem_moveOn hi, Vector.getElem_swap]
    by_cases hfirst : 0 = i
    · rw [if_pos hfirst, if_pos hfirst, if_pos trivial]
    · rw [if_neg hfirst, if_neg hfirst]
      obtain hlt | rfl | hgt := Nat.lt_trichotomy i (k + 1)
      · rw [if_neg (show ¬(i = 0 ∨ k < i) by omega), if_neg (show ¬(i = 0 ∨ k + 1 < i) by omega),
          if_neg (by omega), if_neg (by omega)]
      · rw [if_pos (show k + 1 = 0 ∨ k < k + 1 by omega), if_neg (show ¬k + 1 = k by omega), if_pos rfl,
          if_neg (by omega)]
        rfl
      · rw [if_pos (show i = 0 ∨ k < i by omega), if_pos (show i = 0 ∨ k + 1 < i by omega),
          if_neg (by omega), if_neg (by omega)]

/-! ## Coding and decoding in place -/

/-- Looks for a byte behind place `k` and carries the entries that it passes on by one place, `held` first.
Gives the number of places, and nothing if the list comes to its end. -/
def siftFrom (b held : UInt8) (k : ℕ) (order : Vector UInt8 256) : Option (ℕ × Vector UInt8 256) :=
  if h : k + 1 < 256 then
    let next := order[k + 1]
    let order := order.set (k + 1) held
    if next = b then some (k + 1, order) else siftFrom b next (k + 1) order
  else none
termination_by 256 - k

/-- A list has a front. -/
theorem front_lt : 0 < 256 := by decide

/-- Codes a byte in place: the number of places that were passed is its rank. -/
def sift (l : RecencyList) (b : UInt8) : Option (ℕ × RecencyList) :=
  if l.front = b then some (0, l)
  else (siftFrom b l.front 0 l.order).map fun found => (found.1, ⟨found.2.set 0 b front_lt⟩)

/-- Decodes a rank in place. -/
def lift (l : RecencyList) (rank : UInt8) : UInt8 × RecencyList :=
  have := rank.toNat_lt
  (l.order[rank.toNat], ⟨(moveOn rank.toNat l.order).set 0 l.order[rank.toNat]⟩)

theorem lift_eq (l : RecencyList) (rank : UInt8) : l.lift rank = l.decode rank := by
  rw [lift, decode, promote, toFront_eq]

/-- The search ends at the first place of the byte. -/
theorem siftFrom_eq {order : Vector UInt8 256} {rank : ℕ} (hrank : rank < 256)
    (hbefore : ∀ j, ∀ hj : j < rank, order[j] ≠ b) (hb : order[rank] = b) {k : ℕ} (hk : k < rank) :
    siftFrom b order[k] k (moveOn k order) = some (rank, moveOn rank order) := by
  -- the places before the byte become fewer
  induction hleft : rank - k generalizing k with
  | zero => omega
  | succ left ih =>
    have hnext : (moveOn k order)[k + 1] = order[k + 1] := by
      rw [getElem_moveOn, if_pos (by omega)]
    rw [siftFrom, dif_pos (by omega)]
    simp only [hnext, set_moveOn (show k < 256 by omega) (show k + 1 < 256 by omega)]
    obtain heq | hlt := Nat.eq_or_lt_of_le hk
    · have heq : k + 1 = rank := heq
      subst heq
      rw [if_pos hb]
    · rw [if_neg (hbefore (k + 1) hlt)]
      exact ih hlt (show rank - (k + 1) = left by omega)

/-- **The search finds every byte**, at its rank and within the list. -/
theorem Complete.sift_eq (h : l.Complete) (b : UInt8) :
    l.sift b = some ((l.encode b).1.toNat, (l.encode b).2) := by
  obtain ⟨rank, heq, hb⟩ := h.exists_encode b
  have hrank : rank.val.toUInt8.toNat = rank.val := UInt8.toNat_ofNat_of_lt' rank.isLt
  have hbefore (j : ℕ) (hj : j < rank.val) : l.order[j] ≠ b := by
    intro hj'
    have hget : l.order.get ⟨j, hj.trans rank.isLt⟩ = l.order.get rank := hj'.trans hb.symm
    exact hj.ne (congrArg Fin.val (h.get_injective hget))
  rw [heq, hrank, sift]
  obtain hzero | hpos := Nat.eq_zero_or_pos rank.val
  · obtain rfl : rank = 0 := Fin.ext hzero
    rw [if_pos (show l.front = b from hb)]
    rfl
  · have hsift := siftFrom_eq rank.isLt hbefore hb hpos
    rw [moveOn_zero] at hsift
    rw [if_neg (show l.front ≠ b from hbefore 0 hpos)]
    change (siftFrom b l.order[0] 0 l.order).map _ = _
    rw [hsift, RecencyList.promote, toFront_eq]
    exact congrArg (fun c => some (rank.val, (⟨(moveOn rank.val l.order).set 0 c⟩ : RecencyList))) hb.symm

/-! ## Every byte once -/

theorem Complete.nodup (h : l.Complete) : l.order.toList.Nodup := by
  rw [Sorting.toList_eq_ofFn]
  exact List.nodup_ofFn.mpr h.get_injective

/-- **A list holds every byte if it holds each of them once**, in whatever order. -/
theorem complete_iff_perm : l.Complete ↔ l.order.toList.Perm fresh.order.toList := by
  have hmem (l : RecencyList) : l.Complete ↔ ∀ b, b ∈ l.order.toList := by
    simp only [Complete, Sorting.toList_eq_ofFn, List.mem_ofFn]
  constructor
  · intro h
    refine (List.perm_ext_iff_of_nodup h.nodup complete_fresh.nodup).mpr fun b => ?_
    exact iff_of_true ((hmem l).mp h b) ((hmem fresh).mp complete_fresh b)
  · intro h
    exact (hmem l).mpr fun b => h.mem_iff.mpr ((hmem fresh).mp complete_fresh b)

/-- **The byte that moves is in front, and the others keep their order.** -/
theorem Complete.toList_promote (h : l.Complete) (rank : Fin 256) :
    (l.promote rank).order.toList = l.order.get rank :: l.order.toList.erase (l.order.get rank) := by
  have hidx : l.order.toList.idxOf (l.order.get rank) = rank.val := by
    have hget : l.order.get rank = l.order.toList[rank.val] := (Vector.getElem_toList _).symm
    rw [hget]
    exact List.Nodup.idxOf_getElem h.nodup _ _
  rw [List.erase_eq_eraseIdx_of_idxOf hidx, RecencyList.promote, toFront_eq]
  refine List.ext_getElem ?_ fun i hi _ => ?_
  · rw [List.length_cons, List.length_eraseIdx_of_lt, Vector.length_toList, Vector.length_toList]
    rw [Vector.length_toList]
    exact rank.isLt
  · rw [Vector.length_toList] at hi
    rw [Vector.getElem_toList, Vector.getElem_set]
    cases i with
    | zero => rfl
    | succ i =>
      rw [if_neg (Nat.succ_ne_zero i).symm, getElem_moveOn hi, List.getElem_cons_succ,
        List.getElem_eraseIdx]
      by_cases hlt : i < rank.val
      · rw [if_neg (by omega), dif_pos hlt, Vector.getElem_toList]
        rfl
      · rw [if_pos (by omega), dif_neg hlt, Vector.getElem_toList]

/-! ## Histories -/

/-- A use of a recency list. -/
inductive Use where
  /-- A byte is coded. -/
  | encode (b : UInt8)
  /-- A rank is decoded. -/
  | decode (rank : UInt8)

/-- Uses a list in place; there is nothing left of one that was searched beyond its end. -/
def Use.apply : Use → RecencyList → Option RecencyList
  | .encode b, l => (l.sift b).map Prod.snd
  | .decode rank, l => some (l.lift rank).2

/-- The list that is left by one use after the other of a fresh one. -/
def history (uses : List Use) : Option RecencyList := uses.foldlM (fun l use => use.apply l) fresh

/-- A use leaves a list that holds every byte. -/
theorem Complete.exists_apply (h : l.Complete) (use : Use) : ∃ l', use.apply l = some l' ∧ l'.Complete := by
  cases use with
  | encode b =>
    refine ⟨(l.encode b).2, ?_, h.encode b⟩
    rw [Use.apply, h.sift_eq, Option.map_some]
  | decode rank =>
    refine ⟨(l.decode rank).2, ?_, h.decode rank⟩
    rw [Use.apply, lift_eq]

/-- **No history loses a byte.** -/
theorem exists_history (uses : List Use) : ∃ l, history uses = some l ∧ l.Complete := by
  have hfold : ∀ l : RecencyList, l.Complete →
      ∃ l', uses.foldlM (fun l use => use.apply l) l = some l' ∧ l'.Complete := by
    induction uses with
    | nil => exact fun l h => ⟨l, rfl, h⟩
    | cons use uses ih =>
      intro l h
      obtain ⟨l', happly, h'⟩ := h.exists_apply use
      rw [List.foldlM_cons, happly]
      exact ih l' h'
  exact hfold fresh complete_fresh

/-- **After any history a list holds each byte once, and coding and decoding undo each other.**  Coding
finds its byte within the list, after as many places as its rank says; either of them moves one byte to
the front, leaves the others in their order, and so the same list behind. -/
theorem undone_of_history (uses : List Use) : ∃ l, history uses = some l ∧
    l.order.toList.Perm fresh.order.toList ∧
    (∀ b, l.sift b = some ((l.encode b).1.toNat, (l.encode b).2) ∧
      l.lift (l.encode b).1 = (b, (l.encode b).2) ∧
      (l.encode b).2.order.toList = b :: l.order.toList.erase b) ∧
    ∀ rank, l.lift rank = l.decode rank ∧
      l.sift (l.decode rank).1 = some (rank.toNat, (l.decode rank).2) ∧
      (l.decode rank).2.order.toList = (l.decode rank).1 :: l.order.toList.erase (l.decode rank).1 := by
  obtain ⟨l, hl, h⟩ := exists_history uses
  refine ⟨l, hl, complete_iff_perm.mp h, fun b => ⟨h.sift_eq b, ?_, ?_⟩,
    fun rank => ⟨lift_eq l rank, ?_, ?_⟩⟩
  · rw [lift_eq, h.decode_encode b]
  · obtain ⟨rank, heq, rfl⟩ := h.exists_encode b
    rw [heq]
    exact h.toList_promote rank
  · rw [h.sift_eq, h.encode_decode rank]
  · exact h.toList_promote _

end BlockPress.RecencyList
