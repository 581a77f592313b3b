import BlockPress.Proofs.Counting
import BlockPress.Proofs.Loops
import BlockPress.Proofs.Rotation.Reading
import BlockPress.Proofs.Sorting.Rearranging
import BlockPress.Rotation.Groups

/-!
# Rotations by their groups

An index is `Arranged` when it lists every rotation, each between the start of its group and that of
the next one.

Main statement: **`byGroups` arranges an index and tells where each group starts**
(`arranged_byGroups`, `starts_byGroups`).
-/

namespace BlockPress.Rotation

open Counting Sorting

/-- The group of the rotation at a position. -/
def groupAt (block : ByteArray) (p : ℕ) : ℕ := 256 * byteAt block p + byteAt block (p + 1)

/-- The number of rotations in the groups before a group. -/
def startOf (block : ByteArray) (k : ℕ) : ℕ := below (groupAt block) block.size k

variable {block : ByteArray}

theorem groupAt_lt (block : ByteArray) (p : ℕ) : groupAt block p < groupCount := by
  have := byteAt_lt block p
  have := byteAt_lt block (p + 1)
  rw [groupAt, groupCount]
  omega

theorem startOf_groupCount (block : ByteArray) : startOf block groupCount = block.size :=
  below_eq fun p _ => groupAt_lt block p

/-- A table that tells where each group starts. -/
def Starts (block : ByteArray) (t : GroupTable) : Prop :=
  ∀ k, ∀ hk : k < groupCount + 1, t[k] = startOf block k

/-- An index of all rotations, each inside its group. -/
structure Arranged (block : ByteArray) (index : Vector (Fin block.size) block.size) : Prop where
  /-- No rotation is listed twice. -/
  injective : Function.Injective index.get
  /-- A rotation does not stand before its group. -/
  start_le : ∀ p, startOf block (groupAt block (index.get p)) ≤ p.val
  /-- A rotation does not stand behind its group. -/
  lt_start : ∀ p, p.val < startOf block (groupAt block (index.get p) + 1)

/-- The places of the rotations of a group. -/
def slice (block : ByteArray) (k : ℕ) : Span block.size where
  lo := startOf block k
  hi := startOf block (k + 1)
  lo_le_hi := below_mono (Nat.le_succ k)
  hi_le := below_le _ _ _

/-- An index is arranged if every rotation stands among those of its group. -/
theorem Arranged.of_slices {index : Vector (Fin block.size) block.size}
    (h : ∀ a : Fin block.size, ∃ p, p.val ∈ slice block (groupAt block a) ∧ index.get p = a) :
    Arranged block index := by
  have hinj : Function.Injective index.get :=
    Finite.injective_iff_surjective.mpr fun a => (h a).imp fun _ hp => hp.2
  have hmem (p : Fin block.size) : p.val ∈ slice block (groupAt block (index.get p)) := by
    obtain ⟨p', hp', hget⟩ := h (index.get p)
    exact hinj hget ▸ hp'
  exact ⟨hinj, fun p => (hmem p).1, fun p => (hmem p).2⟩

section Grouping

variable {group : (p : ℕ) → p < block.size → Fin groupCount}
  (hgroup : ∀ p, ∀ hp : p < block.size, (group p hp).val = groupAt block p)

include hgroup

/-! ## Sizes and starts -/

theorem getElem_sizes (t : GroupTable) {k : ℕ} (hk : k < groupCount + 1) :
    (t.sizes group)[k] = Nat.count (groupAt block · = k) block.size := by
  rw [GroupTable.sizes]
  refine fold_invariant (fun p t => ∀ k, ∀ hk : k < groupCount + 1,
    t[k] = Nat.count (groupAt block · = k) p) (fun k hk => ?_) (fun p hp t ih k hk => ?_) k hk
  · rw [Vector.getElem_map]
    rfl
  · simp only [Vector.getElem_set, hgroup, Nat.count_succ, ih]
    split
    · next heq => rw [heq]
    · rfl

theorem getElem_sums (t : GroupTable) {k : ℕ} (hk : k < groupCount) :
    (t.sizes group).sums[k] = startOf block (k + 1) := by
  rw [GroupTable.sums]
  have hsum : ∀ k, ∀ hk : k < groupCount + 1, (t.sizes group)[k] + startOf block k =
      startOf block (k + 1) := fun k hk => by
    rw [getElem_sizes hgroup, startOf, startOf, below_succ, Nat.add_comm]
  have hinv := fold_invariant (n := groupCount - 1) (a := t.sizes group)
    (f := fun k h t =>
      have : k + 1 < groupCount + 1 := by omega
      t.set (k + 1) (t[k] + t[k + 1]))
    (fun j t' => ∀ k, ∀ hk : k < groupCount + 1,
      t'[k] = if k ≤ j then startOf block (k + 1) else (t.sizes group)[k])
    (fun k hk => ?_) fun j hj t' ih k hk => ?_
  · exact (hinv k (by omega)).trans (if_pos (by omega))
  · split
    · next hle =>
      obtain rfl : k = 0 := by omega
      have hzero : startOf block 0 = 0 := below_zero _ _
      have hone := hsum 0 hk
      omega
    · rfl
  · simp only [Vector.getElem_set, ih]
    by_cases heq : j + 1 = k
    · subst heq
      rw [if_pos rfl, if_pos (Nat.le_refl j), if_neg (by omega), if_pos (Nat.le_refl _), Nat.add_comm,
        hsum]
    · rw [if_neg heq]
      exact if_congr (by omega) rfl rfl

/-! ## Arranging -/

/-- What `byGroups` has done when it has come down to `p`. -/
structure Placed (block : ByteArray) (p : ℕ) (t : GroupTable)
    (index : Vector (Fin block.size) block.size) : Prop where
  /-- The free places of a group are those of its rotations before `p`. -/
  free : ∀ k, ∀ hk : k < groupCount,
    t[k] = startOf block k + Nat.count (groupAt block · = k) p
  /-- The rotations from `p` on are in their places. -/
  placed : ∀ q, ∀ hq : q < block.size, p ≤ q →
    getElem index (slot (groupAt block) block.size q) (slot_lt hq) = ⟨q, hq⟩

theorem placed_byGroups (t : GroupTable) :
    ∃ t' index, byGroups group t = (t'.set groupCount block.size groupCount_lt, index) ∧
      Placed block 0 t' index := by
  have hinv := foldRev_invariant (n := block.size)
    (f := fun p h (s : GroupTable × Vector (Fin block.size) block.size) =>
      let k := group p h
      let place := s.1[k.val] - 1
      (s.1.set k.val place, s.2.setIfInBounds place ⟨p, h⟩))
    (a := ((t.sizes group).sums, Vector.ofFn fun p => p))
    (fun p s => Placed block p s.1 s.2) ⟨fun k hk => ?_, fun q hq hle => ?_⟩ fun p hp s ih => ?_
  · exact ⟨_, _, rfl, hinv⟩
  · rw [getElem_sums hgroup t hk, startOf, below_succ]
    rfl
  · exact absurd hq (Nat.not_lt.mpr hle)
  · have hplace : s.1[(group p hp).val] - 1 = slot (groupAt block) block.size p := by
      rw [ih.free _ (group p hp).isLt, hgroup, Nat.count_succ, if_pos rfl, slot, startOf]
      omega
    refine ⟨fun k hk => ?_, fun q hq hle => ?_⟩
    · simp only [Vector.getElem_set, hplace]
      split
      · next heq =>
        rw [hgroup] at heq
        rw [slot, heq, startOf]
      · next hne =>
        rw [hgroup] at hne
        rw [ih.free k hk, Nat.count_succ, if_neg hne, Nat.add_zero]
    · simp only [hplace, Vector.getElem_setIfInBounds]
      split
      · next heq => exact Fin.ext (slot_injective hp hq heq)
      · next hne =>
        refine ih.placed q hq (Nat.lt_of_le_of_ne hle fun heq => hne ?_)
        rw [heq]

/-- **The table tells where each group starts.** -/
theorem starts_byGroups (t : GroupTable) : Starts block (byGroups group t).1 := by
  obtain ⟨t', index, heq, h⟩ := placed_byGroups hgroup t
  intro k hk
  rw [heq, Vector.getElem_set]
  split
  · next heq => rw [← heq, startOf_groupCount]
  · next hne =>
    rw [h.free k (by omega)]
    rfl

/-- **The index is arranged.** -/
theorem arranged_byGroups (t : GroupTable) : Arranged block (byGroups group t).2 := by
  obtain ⟨t', index, heq, h⟩ := placed_byGroups hgroup t
  rw [heq]
  refine Arranged.of_slices fun q => ⟨⟨slot (groupAt block) block.size q, slot_lt q.isLt⟩, ?_, ?_⟩
  · exact ⟨below_le_slot _, slot_lt_below q.isLt⟩
  · exact h.placed q q.isLt (Nat.zero_le _)

end Grouping

/-! ## Arranged indices -/

theorem startOf_mono {x y : ℕ} (h : x ≤ y) : startOf block x ≤ startOf block y := below_mono h

theorem startOf_le (block : ByteArray) (x : ℕ) : startOf block x ≤ block.size := below_le _ _ _

/-- A rotation that starts with two given bytes is in their group. -/
theorem groupAt_eq_pair_iff {p : ℕ} {a b : UInt8} : groupAt block p = pair a b ↔
    byteAt block p = a.toNat ∧ byteAt block (p + 1) = b.toNat := by
  have := byteAt_lt block (p + 1)
  have := b.toNat_lt
  rw [groupAt, pair]
  omega

/-- A rotation of a smaller group is smaller. -/
theorem endless_lt_of_groupAt_lt {a b : Fin block.size} (h : groupAt block a < groupAt block b) :
    endless block a < endless block b := by
  have := byteAt_lt block (a + 1)
  have := byteAt_lt block (b + 1)
  rw [groupAt, groupAt] at h
  refine reading_lt_iff.mpr ?_
  by_cases hfirst : byteAt block a = byteAt block b
  · refine ⟨1, fun k hk => ?_, by omega⟩
    obtain rfl : k = 0 := by omega
    exact hfirst
  · exact ⟨0, fun k hk => absurd hk (Nat.not_lt_zero k), by simp only [Nat.add_zero]; omega⟩

namespace Arranged

variable {index : Vector (Fin block.size) block.size}

theorem surjective (h : Arranged block index) : Function.Surjective index.get :=
  Finite.injective_iff_surjective.mp h.injective

/-- **Where a rotation stands tells its group.** -/
theorem startOf_le_iff (h : Arranged block index) (p : Fin block.size) {x : ℕ} :
    startOf block x ≤ p ↔ x ≤ groupAt block (index.get p) := by
  constructor
  · intro hle
    by_contra hlt
    have h₁ : p.val < startOf block (groupAt block (index.get p) + 1) := h.lt_start p
    have h₂ : startOf block (groupAt block (index.get p) + 1) ≤ startOf block x :=
      startOf_mono (by omega)
    omega
  · intro hle
    exact (startOf_mono hle).trans (h.start_le p)

theorem mem_slice_iff (h : Arranged block index) (p : Fin block.size) {k : ℕ} :
    p.val ∈ slice block k ↔ groupAt block (index.get p) = k := by
  rw [Span.mem_iff]
  change startOf block k ≤ p ∧ p.val < startOf block (k + 1) ↔ _
  rw [← Nat.not_le, h.startOf_le_iff, h.startOf_le_iff]
  omega

theorem slice_apart (h : Arranged block index) {k k' : ℕ} (hne : k ≠ k') :
    (slice block k).Apart (slice block k') := by
  intro p hp hp'
  refine hne ?_
  rw [← (h.mem_slice_iff ⟨p, Span.lt_of_mem hp⟩).mp hp, (h.mem_slice_iff ⟨p, Span.lt_of_mem hp⟩).mp hp']

/-- The rotations of a group agree on two bytes. -/
theorem agree (ha : Arranged block index) {a b : UInt8} {x : ℕ} (hx : x ∈ slice block (pair a b)) :
    AllOn (fun r : Fin block.size => Agree block 2 r (getElem index x (Span.lt_of_mem hx)))
      (slice block (pair a b)) index := by
  have hbytes {i : ℕ} (hi : i ∈ slice block (pair a b)) :=
    groupAt_eq_pair_iff.mp ((ha.mem_slice_iff ⟨i, Span.lt_of_mem hi⟩).mp hi)
  intro i hi k hk
  obtain rfl | rfl : k = 0 ∨ k = 1 := by omega
  · exact (hbytes hi).1.trans (hbytes hx).1.symm
  · exact (hbytes hi).2.trans (hbytes hx).2.symm

/-- Rearranging a group leaves an index arranged. -/
theorem rearrange (h : Arranged block index) {k : ℕ} {w : Vector (Fin block.size) block.size}
    (hw : Rearranges (slice block k) index w) : Arranged block w := by
  have hgroup (p : Fin block.size) : groupAt block (w.get p) = groupAt block (index.get p) := by
    by_cases hp : p.val ∈ slice block k
    · obtain ⟨q, hq, heq⟩ := hw.exists_mem hp
      have heq' : w.get p = index.get ⟨q, Span.lt_of_mem hq⟩ := heq
      rw [heq', (h.mem_slice_iff ⟨q, _⟩).mp hq, (h.mem_slice_iff p).mp hp]
    · have heq : w.get p = index.get p := hw.getElem_eq p.isLt hp
      rw [heq]
  refine ⟨hw.get_injective h.injective, fun p => ?_, fun p => ?_⟩
  · rw [hgroup]
    exact h.start_le p
  · rw [hgroup]
    exact h.lt_start p

/-- **An index whose groups are in order is in order.** -/
theorem sortedOn (h : Arranged block index) {s : Span block.size}
    (hs : ∀ k, s.lo < startOf block (k + 1) → startOf block k < s.hi →
      SortedOn (endless block) (slice block k) index) : SortedOn (endless block) s index := by
  intro p q hp hq hpq
  let p' : Fin block.size := ⟨p, Span.lt_of_mem hp⟩
  let q' : Fin block.size := ⟨q, Span.lt_of_mem hq⟩
  have hle : groupAt block (index.get p') ≤ groupAt block (index.get q') := by
    rw [← h.startOf_le_iff q']
    exact ((h.startOf_le_iff p').mpr (Nat.le_refl _)).trans hpq.le
  obtain hlt | heq := Nat.lt_or_eq_of_le hle
  · exact (endless_lt_of_groupAt_lt hlt).le
  · have hp' := (h.mem_slice_iff p').mpr rfl
    have hq' := (h.mem_slice_iff q').mpr heq.symm
    refine hs _ ?_ ?_ p q hp' hq' hpq
    · exact Nat.lt_of_le_of_lt hp.1 hp'.2
    · exact Nat.lt_of_le_of_lt hp'.1 hp.2

end Arranged

end BlockPress.Rotation
