import BlockPress.Proofs.Sorting.Rearranging
import BlockPress.Recency
import Mathlib.Data.Fintype.EquivFin

/-!
# Recency lists hold every byte

Moving a byte to the front loses none, so a list that starts with all bytes keeps them all
(`Complete`), and every byte has a rank.  **Decoding that rank gives the byte back and leaves the same
list behind** (`decode_encode`), and coding a byte that was decoded gives its rank back
(`encode_decode`).
-/

namespace BlockPress.RecencyList

open Sorting

/-- The list holds every byte. -/
def Complete (l : RecencyList) : Prop := ∀ b, ∃ k, l.order.get k = b

theorem complete_fresh : Complete fresh := by
  intro b
  refine ⟨⟨b.toNat, b.toNat_lt⟩, ?_⟩
  change (getElem (Vector.ofFn fun b : Fin 256 => b.val.toUInt8) b.toNat b.toNat_lt) = b
  rw [Vector.getElem_ofFn]
  exact UInt8.ofNat_toNat

theorem rearranges_toFront (k : ℕ) (hk : k < 256) (v : Vector UInt8 256) :
    Rearranges (Span.all 256) v (toFront k hk v) := by
  induction k generalizing v with
  | zero => exact Rearranges.refl _ v
  | succ k ih =>
    rw [toFront]
    exact (Rearranges.swap v ⟨Nat.zero_le _, Nat.lt_of_succ_lt hk⟩ ⟨Nat.zero_le _, hk⟩).trans (ih _ _)

theorem Complete.promote {l : RecencyList} (h : l.Complete) (rank : Fin 256) :
    (l.promote rank).Complete := by
  intro b
  obtain ⟨k, rfl⟩ := h b
  exact (rearranges_toFront rank.val rank.isLt l.order).exists_get k

/-- A byte is found at its rank. -/
theorem exists_rankFrom {l : RecencyList} {b : UInt8} {k : ℕ} (j : Fin 256) (hj : k ≤ j.val)
    (hb : l.order.get j = b) : ∃ rank, l.rankFrom b k = some rank ∧ l.order.get rank = b := by
  fun_induction rankFrom l b k with
  | case1 k hk heq => exact ⟨⟨k, hk⟩, rfl, heq⟩
  | case2 k hk hne ih =>
    refine ih (Nat.lt_of_le_of_ne hj fun heq => hne ?_)
    obtain rfl : (⟨k, hk⟩ : Fin 256) = j := Fin.ext heq
    exact hb
  | case3 k hk =>
    have := j.isLt
    omega

/-- Every byte has a rank, and moves to the front. -/
theorem Complete.exists_encode {l : RecencyList} (h : l.Complete) (b : UInt8) :
    ∃ rank, l.encode b = (rank.val.toUInt8, l.promote rank) ∧ l.order.get rank = b := by
  obtain ⟨j, hj⟩ := h b
  obtain ⟨rank, hrank, hb⟩ := exists_rankFrom j (Nat.zero_le _) hj
  exact ⟨rank, by rw [encode, hrank], hb⟩

theorem Complete.encode {l : RecencyList} (h : l.Complete) (b : UInt8) : (l.encode b).2.Complete := by
  obtain ⟨rank, heq, -⟩ := h.exists_encode b
  rw [heq]
  exact h.promote rank

/-- **The rank of a byte gives the byte back and leaves the same list behind.** -/
theorem Complete.decode_encode {l : RecencyList} (h : l.Complete) (b : UInt8) :
    l.decode (l.encode b).1 = (b, (l.encode b).2) := by
  obtain ⟨rank, heq, hb⟩ := h.exists_encode b
  have hrank : rank.val.toUInt8.toNat = rank.val := UInt8.toNat_ofNat_of_lt' rank.isLt
  rw [heq, decode]
  simp only [hrank]
  exact congrArg (·, _) hb

/-- No byte is in the list twice: it would not hold every byte otherwise. -/
theorem Complete.get_injective {l : RecencyList} (h : l.Complete) :
    Function.Injective l.order.get := by
  let place (k : Fin 256) : Fin 256 := ⟨(l.order.get k).toNat, (l.order.get k).toNat_lt⟩
  have hsurjective : Function.Surjective place := fun i => by
    obtain ⟨k, hk⟩ := h i.val.toUInt8
    refine ⟨k, Fin.ext ?_⟩
    change (l.order.get k).toNat = i.val
    rw [hk]
    exact UInt8.toNat_ofNat_of_lt' i.isLt
  have hinjective : Function.Injective place := Finite.injective_iff_surjective.mpr hsurjective
  exact fun j k heq => hinjective (Fin.ext (congrArg UInt8.toNat heq))

theorem Complete.decode {l : RecencyList} (h : l.Complete) (rank : UInt8) :
    (l.decode rank).2.Complete := h.promote _

/-- **The byte of a rank gives the rank back and leaves the same list behind.** -/
theorem Complete.encode_decode {l : RecencyList} (h : l.Complete) (rank : UInt8) :
    l.encode (l.decode rank).1 = (rank, (l.decode rank).2) := by
  obtain ⟨k, heq, hb⟩ := h.exists_encode (l.decode rank).1
  obtain rfl : k = ⟨rank.toNat, rank.toNat_lt⟩ := h.get_injective hb
  rw [heq]
  exact congrArg (·, _) UInt8.ofNat_toNat

end BlockPress.RecencyList
