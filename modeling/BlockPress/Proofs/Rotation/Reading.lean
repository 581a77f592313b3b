import BlockPress.Rotation.Order
import Mathlib.Data.Fintype.EquivFin
import Mathlib.Order.PiLex

/-!
# Rotations as endless words

Read on and on, the rotation at an offset is an endless word, and endless words are ordered
lexicographically.  A prefix that two words have in common does not matter for their order
(`reading_lt_iff_of_agree`), and words that agree on as many bytes as the block has are equal
(`reading_eq_of_agree`).

Main statement: **`compare` compares the words of two rotations** (`compare_eq_cmp`).
-/

namespace BlockPress.Rotation

/-- The byte at a position of a block that is repeated without end. -/
def byteAt (block : ByteArray) (p : ℕ) : ℕ := (block.data.getD (p % block.size) 0).toNat

/-- Endless words. -/
def Word : Type := Lex (ℕ → ℕ)

noncomputable instance : LinearOrder Word := inferInstanceAs (LinearOrder (Lex (ℕ → ℕ)))

/-- The endless word of the rotation at an offset. -/
def reading (block : ByteArray) (a : ℕ) : Word := toLex fun k => byteAt block (a + k)

/-- The word of a rotation, as a key to sort by. -/
def endless (block : ByteArray) (a : Fin block.size) : Word := reading block a

/-- The words of two offsets agree on their first `d` bytes. -/
def Agree (block : ByteArray) (d a b : ℕ) : Prop :=
  ∀ k < d, byteAt block (a + k) = byteAt block (b + k)

variable {block : ByteArray} {a b d : ℕ}

/-! ## Bytes -/

theorem byteAt_mod (block : ByteArray) (p : ℕ) : byteAt block (p % block.size) = byteAt block p := by
  rw [byteAt, Nat.mod_mod, byteAt]

theorem byteAt_add_mod (block : ByteArray) (p k : ℕ) :
    byteAt block (p % block.size + k) = byteAt block (p + k) := by
  rw [byteAt, Nat.mod_add_mod, byteAt]

theorem byteAt_lt (block : ByteArray) (p : ℕ) : byteAt block p < 256 := UInt8.toNat_lt _

theorem toNat_getElem {p : ℕ} (h : p < block.size) : block[p].toNat = byteAt block p := by
  rw [byteAt, Nat.mod_eq_of_lt h, Array.getD, dif_pos (show p < block.data.size from h)]
  rfl

theorem toNat_byte (a k : ℕ) (h : 0 < block.size) :
    (byte block a k h).toNat = byteAt block (a + k) := by
  rw [← byteAt_mod, ← toNat_getElem (Nat.mod_lt _ h)]
  rfl

/-- The next byte of the rotation before an offset is the first one of the rotation there. -/
theorem before_add_one {n : ℕ} (a : Fin n) : ((before a).val + 1) % n = a.val := by
  have ha := a.isLt
  rw [before]
  split
  · next h => rw [h, Nat.sub_add_cancel (by omega), Nat.mod_self]
  · rw [Nat.sub_add_cancel (by omega), Nat.mod_eq_of_lt ha]

theorem before_injective {n : ℕ} : Function.Injective (before (n := n)) := by
  intro a b h
  rw [Fin.ext_iff, ← before_add_one a, ← before_add_one b, h]

theorem before_surjective {n : ℕ} : Function.Surjective (before (n := n)) :=
  Finite.injective_iff_surjective.mp before_injective

/-! ## Words -/

theorem reading_lt_iff : reading block a < reading block b ↔
    ∃ k, Agree block k a b ∧ byteAt block (a + k) < byteAt block (b + k) := Iff.rfl

theorem reading_mod (block : ByteArray) (a : ℕ) : reading block (a % block.size) = reading block a :=
  funext fun k => byteAt_add_mod block a k

theorem reading_eq_iff : reading block a = reading block b ↔
    ∀ k, byteAt block (a + k) = byteAt block (b + k) := funext_iff

theorem reading_add_eq (h : reading block a = reading block b) (d : ℕ) :
    reading block (a + d) = reading block (b + d) := by
  rw [reading_eq_iff] at h ⊢
  intro k
  rw [Nat.add_assoc, Nat.add_assoc]
  exact h (d + k)

/-- Words that agree on a whole turn are equal. -/
theorem reading_eq_of_agree (h : Agree block d a b) (hd : block.size ≤ d) :
    reading block a = reading block b := by
  rw [reading_eq_iff]
  intro k
  obtain hsize | hsize := Nat.eq_zero_or_pos block.size
  · have hempty : block = .empty := ByteArray.size_eq_zero_iff.mp hsize
    subst hempty
    rfl
  have hlt := Nat.mod_lt k hsize
  have hk := h (k % block.size) (by omega)
  rw [byteAt, Nat.add_mod_mod, byteAt, Nat.add_mod_mod] at hk
  exact hk

theorem Agree.symm (h : Agree block d a b) : Agree block d b a := fun k hk => (h k hk).symm

theorem Agree.trans {c : ℕ} (h : Agree block d a b) (h' : Agree block d b c) : Agree block d a c :=
  fun k hk => (h k hk).trans (h' k hk)

theorem Agree.mono (h : Agree block d a b) {c : ℕ} (hc : c ≤ d) : Agree block c a b :=
  fun k hk => h k (by omega)

theorem Agree.add (h : Agree block d a b) {c : ℕ} (h' : Agree block c (a + d) (b + d)) :
    Agree block (d + c) a b := by
  intro k hk
  obtain hlt | hle := Nat.lt_or_ge k d
  · exact h k hlt
  · obtain ⟨j, rfl⟩ := Nat.exists_eq_add_of_le hle
    rw [← Nat.add_assoc, ← Nat.add_assoc]
    exact h' j (by omega)

theorem Agree.congr (h : Agree block d a b) {x y : ℕ} (hx : reading block x = reading block a)
    (hy : reading block y = reading block b) : Agree block d x y := by
  intro k hk
  rw [reading_eq_iff.mp hx, reading_eq_iff.mp hy]
  exact h k hk

/-- The first difference of two words that agree on `d` bytes is that of their rests. -/
theorem reading_lt_iff_of_agree (h : Agree block d a b) :
    reading block a < reading block b ↔ reading block (a + d) < reading block (b + d) := by
  rw [reading_lt_iff, reading_lt_iff]
  constructor
  · rintro ⟨k, hk, hlt⟩
    have hdk : d ≤ k := by
      by_contra hlt'
      exact absurd (h k (by omega)) hlt.ne
    obtain ⟨j, rfl⟩ := Nat.exists_eq_add_of_le hdk
    refine ⟨j, fun i hi => ?_, ?_⟩
    · rw [Nat.add_assoc, Nat.add_assoc]
      exact hk (d + i) (by omega)
    · rwa [Nat.add_assoc, Nat.add_assoc]
  · rintro ⟨k, hk, hlt⟩
    exact ⟨d + k, h.add hk, by rwa [← Nat.add_assoc, ← Nat.add_assoc]⟩

theorem reading_le_iff_of_agree (h : Agree block d a b) :
    reading block a ≤ reading block b ↔ reading block (a + d) ≤ reading block (b + d) := by
  rw [← not_lt, reading_lt_iff_of_agree h.symm, not_lt]

/-! ## The rotation before another one -/

theorem byteAt_before_add (b : Fin block.size) (k : ℕ) :
    byteAt block ((before b).val + (k + 1)) = byteAt block (b + k) := by
  rw [Nat.add_comm k, ← Nat.add_assoc, ← byteAt_add_mod, before_add_one]

theorem byteAt_before_add_one (b : Fin block.size) :
    byteAt block ((before b).val + 1) = byteAt block b := byteAt_before_add b 0

theorem reading_before_add_one (b : Fin block.size) :
    reading block ((before b).val + 1) = reading block b := by
  rw [← reading_mod, before_add_one]

/-- **Rotations with the same byte before them come in the order of those before them.** -/
theorem endless_before_le {a b : Fin block.size}
    (h : byteAt block (before a) = byteAt block (before b)) (hab : endless block a ≤ endless block b) :
    endless block (before a) ≤ endless block (before b) := by
  have hagree : Agree block 1 (before a) (before b) := fun k hk => by
    obtain rfl : k = 0 := by omega
    exact h
  refine (reading_le_iff_of_agree hagree).mpr ?_
  rwa [reading_before_add_one, reading_before_add_one]

/-! ## Comparing -/

theorem compareFrom_eq_cmp (k : ℕ) (h : Agree block k a b) :
    compareFrom block a b k = cmp (reading block a) (reading block b) := by
  fun_induction compareFrom block a b k with
  | case1 k hk x y hxy ih =>
    refine ih (h.add fun j hj => ?_)
    obtain rfl : j = 0 := by omega
    rw [Nat.add_zero, Nat.add_zero, ← toNat_byte a k (by omega), ← toNat_byte b k (by omega)]
    exact congrArg UInt8.toNat hxy
  | case2 k hk x y hxy hlt =>
    refine (cmp_eq_lt_iff _ _).mpr (reading_lt_iff.mpr ⟨k, h, ?_⟩) |>.symm
    rw [← toNat_byte a k (by omega), ← toNat_byte b k (by omega)]
    exact hlt
  | case3 k hk x y hxy hlt =>
    refine (cmp_eq_gt_iff _ _).mpr (reading_lt_iff.mpr ⟨k, h.symm, ?_⟩) |>.symm
    rw [← toNat_byte a k (by omega), ← toNat_byte b k (by omega)]
    have hne : x.toNat ≠ y.toNat := fun h => hxy (UInt8.toNat_inj.mp h)
    have hge : ¬x.toNat < y.toNat := hlt
    exact lt_of_le_of_ne (Nat.not_lt.mp hge) hne.symm
  | case4 k hk =>
    exact ((cmp_eq_eq_iff _ _).mpr (reading_eq_of_agree h (by omega))).symm

/-- **`compare` compares the words of two rotations.** -/
theorem compare_eq_cmp (block : ByteArray) (a b : ℕ) :
    compare block a b = cmp (reading block a) (reading block b) :=
  compareFrom_eq_cmp 0 fun k hk => absurd hk (Nat.not_lt_zero k)

theorem compare_ne_gt_iff : compare block a b ≠ .gt ↔ reading block a ≤ reading block b := by
  rw [compare_eq_cmp, ne_eq, cmp_eq_gt_iff, not_lt]

/-- Where no rotation is greater than the next one, none is greater than a later one. -/
theorem pairwise_reading_le {α : Type} {offset : α → ℕ} {l : List α}
    (h : l.IsChain fun p q => compare block (offset p) (offset q) ≠ .gt) :
    l.Pairwise fun p q => reading block (offset p) ≤ reading block (offset q) := by
  have hle := h.imp fun _ _ => compare_ne_gt_iff.mp
  have : Trans (fun p q => reading block (offset p) ≤ reading block (offset q))
      (fun p q => reading block (offset p) ≤ reading block (offset q))
      fun p q => reading block (offset p) ≤ reading block (offset q) := ⟨le_trans⟩
  exact hle.pairwise

end BlockPress.Rotation
