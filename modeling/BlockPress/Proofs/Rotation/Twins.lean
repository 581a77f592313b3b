import BlockPress.Proofs.Rotation.Groups
import BlockPress.Rotation.Sorter
import Mathlib.Order.Interval.Finset.Nat

/-!
# Filling the twin group

A rotation of the range of a byte reads that byte some times and then leaves it for another one
(`Leaves`), a smaller or a greater one.  The rotations that leave it for a smaller byte make up the
lower `Side` of the range, the others the upper one, and the two fills are alike: positions are taken
from the outside to the inside, and each rotation of the side that has the leading byte before it puts
its predecessor in the next free place.

`Swept` is what holds between two passes of a fill.  It says that **the filled places list rotations of
the side in order and none twice**, so there is room for them, and at the end that none is missing
(`Swept.complete`).
-/

namespace BlockPress.Rotation

variable {block : ByteArray} {lead : UInt8} {κ : Type}

/-! ## Leaving a byte -/

/-- The rotation reads a byte until it meets one of another kind. -/
def Leaves (block : ByteArray) (lead : UInt8) (beyond : ℕ → Prop) (a : ℕ) : Prop :=
  ∃ k, (∀ j < k, byteAt block (a + j) = lead.toNat) ∧ beyond (byteAt block (a + k))

/-- The rotation starts with a byte twice. -/
def Twin (block : ByteArray) (lead : UInt8) (a : ℕ) : Prop :=
  byteAt block a = lead.toNat ∧ byteAt block (a + 1) = lead.toNat

/-- A rotation leaves a byte as the one behind it does. -/
theorem leaves_before_iff {beyond : ℕ → Prop} (hlead : ¬beyond lead.toNat) {b : Fin block.size}
    (h : byteAt block (before b) = lead.toNat) :
    Leaves block lead beyond (before b) ↔ Leaves block lead beyond b := by
  constructor
  · rintro ⟨k, hk, hbeyond⟩
    cases k with
    | zero => exact absurd (h ▸ hbeyond) hlead
    | succ k =>
      rw [byteAt_before_add] at hbeyond
      refine ⟨k, fun j hj => ?_, hbeyond⟩
      rw [← byteAt_before_add]
      exact hk (j + 1) (by omega)
  · rintro ⟨k, hk, hbeyond⟩
    refine ⟨k + 1, fun j hj => ?_, ?_⟩
    · cases j with
      | zero => exact h
      | succ j =>
        rw [byteAt_before_add]
        exact hk j (by omega)
    · rwa [byteAt_before_add]

/-- A rotation that leaves a byte for nothing greater is not greater than one that leaves it for nothing
smaller. -/
theorem endless_le_of_leaves {a b : Fin block.size} (ha : ¬Leaves block lead (lead.toNat < ·) a)
    (hb : ¬Leaves block lead (· < lead.toNat) b) : endless block a ≤ endless block b := by
  by_contra hlt
  obtain ⟨k, hk, hlt⟩ := reading_lt_iff.mp (not_le.mp hlt)
  have hlead : ∀ j < k, byteAt block (a + j) = lead.toNat := by
    intro j
    induction j using Nat.strongRecOn with
    | ind j ih =>
      intro hj
      have hbefore (l : ℕ) (hl : l < j) : byteAt block (a + l) = lead.toNat := ih l hl (hl.trans hj)
      obtain hless | heq | hgreater := Nat.lt_trichotomy (byteAt block (a + j)) lead.toNat
      · refine absurd ⟨j, fun l hl => ?_, ?_⟩ hb
        · rw [hk l (hl.trans hj)]
          exact hbefore l hl
        · rwa [hk j hj]
      · exact heq
      · exact absurd ⟨j, hbefore, hgreater⟩ ha
  by_cases hless : byteAt block (b + k) < lead.toNat
  · exact hb ⟨k, fun j hj => (hk j hj).trans (hlead j hj), hless⟩
  · exact ha ⟨k, hlead, show lead.toNat < _ by omega⟩

/-- A rotation that never leaves its leading byte belongs to a block of that byte alone. -/
theorem byteAt_eq_of_not_leaves {a : Fin block.size} (hless : ¬Leaves block lead (· < lead.toNat) a)
    (hgreater : ¬Leaves block lead (lead.toNat < ·) a) (p : ℕ) : byteAt block p = lead.toNat := by
  have hlead : ∀ k, byteAt block (a + k) = lead.toNat := by
    intro k
    induction k using Nat.strongRecOn with
    | ind k ih =>
      obtain hlt | heq | hgt := Nat.lt_trichotomy (byteAt block (a + k)) lead.toNat
      · exact absurd ⟨k, ih, hlt⟩ hless
      · exact heq
      · exact absurd ⟨k, ih, hgt⟩ hgreater
  have hmod : (a + (p + (block.size - a))) % block.size = p % block.size := by
    rw [show a.val + (p + (block.size - a)) = p + block.size by omega, Nat.add_mod_right]
  rw [← byteAt_mod, ← hmod, byteAt_mod]
  exact hlead _

/-! ## Sides -/

/-- One side of the range of a byte, looked at from its end to the inside. -/
structure Side (block : ByteArray) (κ : Type) where
  /-- What the byte is like that a rotation of the side leaves the leading byte for. -/
  beyond : ℕ → Prop
  /-- A key by which the rotations of the side come in order. -/
  key : Fin block.size → κ
  /-- The positions of the side. -/
  place : ℕ → Fin block.size
  /-- The number of positions outside the twin group. -/
  outer : ℕ
  /-- The number of positions up to the other end of the range. -/
  room : ℕ

namespace Side

/-- A rotation of the range that belongs to the side. -/
def Member (S : Side block κ) (lead : UInt8) (a : Fin block.size) : Prop :=
  byteAt block a = lead.toNat ∧ Leaves block lead S.beyond a

open Classical in
/-- The twins of the side. -/
noncomputable def twins (S : Side block κ) (lead : UInt8) : Finset (Fin block.size) :=
  Finset.univ.filter fun a => Twin block lead a ∧ Leaves block lead S.beyond a

open Classical in
theorem mem_twins {S : Side block κ} {a : Fin block.size} :
    a ∈ S.twins lead ↔ Twin block lead a ∧ Leaves block lead S.beyond a := by
  rw [twins, Finset.mem_filter]
  exact and_iff_right (Finset.mem_univ a)

/-- Outside the twin group an index lists the rotations that leave the leading byte at once. -/
structure Listed (S : Side block κ) (lead : UInt8) (index : Vector (Fin block.size) block.size) :
    Prop where
  /-- There are no others. -/
  first : ∀ q < S.outer, byteAt block (index.get (S.place q)) = lead.toNat ∧
    S.beyond (byteAt block (index.get (S.place q) + 1))
  /-- None is missing. -/
  complete : ∀ a : Fin block.size, byteAt block a = lead.toNat → S.beyond (byteAt block (a + 1)) →
    ∃ q < S.outer, index.get (S.place q) = a
  /-- None is listed twice. -/
  distinct : ∀ q q', q < q' → q' < S.outer → index.get (S.place q) ≠ index.get (S.place q')

/-- An index of all rotations lists those of the side if it has them in the right places. -/
theorem Listed.of_iff {S : Side block κ} {index : Vector (Fin block.size) block.size}
    (hinj : Function.Injective index.get)
    (hplace : ∀ q < S.outer, ∀ q' < S.outer, S.place q = S.place q' → q = q')
    (hiff : ∀ p, (∃ q < S.outer, S.place q = p) ↔
      byteAt block (index.get p) = lead.toNat ∧ S.beyond (byteAt block (index.get p + 1))) :
    S.Listed lead index where
  first q hq := (hiff _).mp ⟨q, hq, rfl⟩
  complete a hfirst hbeyond := by
    obtain ⟨p, rfl⟩ := Finite.injective_iff_surjective.mp hinj a
    obtain ⟨q, hq, rfl⟩ := (hiff p).mpr ⟨hfirst, hbeyond⟩
    exact ⟨q, hq, rfl⟩
  distinct q q' hqq hq' heq := by
    have := hplace q (hqq.trans hq') q' hq' (hinj heq)
    omega

/-- A side that can be filled: its rotations outside the twin group are listed in order. -/
structure Ready [LE κ] (S : Side block κ) (lead : UInt8)
    (index : Vector (Fin block.size) block.size) : Prop extends S.Listed lead index where
  /-- The leading byte does not leave itself. -/
  not_beyond : ¬S.beyond lead.toNat
  /-- Rotations before others come in their order. -/
  key_before : ∀ a b : Fin block.size, byteAt block (before a) = lead.toNat →
    byteAt block (before b) = lead.toNat → S.key a ≤ S.key b → S.key (before a) ≤ S.key (before b)
  /-- The positions are different ones. -/
  place_injective : ∀ q < S.room, ∀ q' < S.room, S.place q = S.place q' → q = q'
  /-- The twins of the side fit the range. -/
  room_le : S.outer + (S.twins lead).card ≤ S.room
  /-- The rotations outside the twin group are in order. -/
  sorted : ∀ q q', q < q' → q' < S.outer →
    S.key (index.get (S.place q)) ≤ S.key (index.get (S.place q'))
  /-- The twins come behind them. -/
  outer_le : ∀ a b : Fin block.size, byteAt block a = lead.toNat → S.beyond (byteAt block (a + 1)) →
    Twin block lead b → S.key a ≤ S.key b

namespace Ready

variable [LE κ] {S : Side block κ} {index w : Vector (Fin block.size) block.size}

/-- Only the positions outside the twin group matter. -/
theorem congr (h : S.Ready lead index) (hw : ∀ q < S.outer, w.get (S.place q) = index.get (S.place q)) :
    S.Ready lead w := by
  refine { h with
    first := fun q hq => ?_
    complete := fun a h₁ h₂ => ?_
    distinct := fun q q' hqq hq' => ?_
    sorted := fun q q' hqq hq' => ?_ }
  · rw [hw q hq]
    exact h.first q hq
  · obtain ⟨q, hq, heq⟩ := h.complete a h₁ h₂
    exact ⟨q, hq, (hw q hq).trans heq⟩
  · rw [hw q (hqq.trans hq'), hw q' hq']
    exact h.distinct q q' hqq hq'
  · rw [hw q (hqq.trans hq'), hw q' hq']
    exact h.sorted q q' hqq hq'

/-- Outside the twin group there are rotations of the side. -/
theorem outer_member (h : S.Ready lead index) {q : ℕ} (hq : q < S.outer) :
    S.Member lead (index.get (S.place q)) ∧ ¬Twin block lead (index.get (S.place q)) := by
  obtain ⟨hfirst, hbeyond⟩ := h.first q hq
  refine ⟨⟨hfirst, 1, fun k hk => ?_, hbeyond⟩, fun htwin => h.not_beyond (htwin.2 ▸ hbeyond)⟩
  obtain rfl : k = 0 := by omega
  exact hfirst

/-- All rotations of the side but the twins are there. -/
theorem outer_complete (h : S.Ready lead index) {a : Fin block.size} (ha : S.Member lead a)
    (hnot : ¬Twin block lead a) : ∃ q < S.outer, index.get (S.place q) = a := by
  obtain ⟨hfirst, k, hk, hbeyond⟩ := ha
  match k with
  | 0 => exact absurd (hfirst ▸ hbeyond) h.not_beyond
  | 1 => exact h.complete a hfirst hbeyond
  | k + 2 => exact absurd ⟨hfirst, hk 1 (by omega)⟩ hnot

end Ready

end Side

/-! ## Sweeping a side -/

/-- What holds when `i` positions of a side were taken and `j` are filled. -/
structure Swept [LE κ] (S : Side block κ) (lead : UInt8)
    (index : Vector (Fin block.size) block.size) (i j : ℕ)
    (w : Vector (Fin block.size) block.size) : Prop where
  /-- Only filled positions are taken. -/
  le_filled : i ≤ j
  /-- The positions outside the twin group are filled from the start. -/
  outer_le : S.outer ≤ j
  /-- Only the twins of the side are filled in. -/
  filled_le : j ≤ S.outer + (S.twins lead).card
  /-- Other positions keep their entries. -/
  frame : ∀ p, (∀ q, S.outer ≤ q → q < j → S.place q ≠ p) → w.get p = index.get p
  /-- What was filled in comes before an entry that was taken. -/
  source : ∀ q, S.outer ≤ q → q < j → ∃ q' < i, w.get (S.place q) = before (w.get (S.place q')) ∧
    byteAt block (w.get (S.place q)) = lead.toNat
  /-- What comes before an entry that was taken was filled in. -/
  target : ∀ q < i, byteAt block (before (w.get (S.place q))) = lead.toNat →
    ∃ q' < j, w.get (S.place q') = before (w.get (S.place q))
  /-- All entries belong to the side. -/
  member : ∀ q < j, S.Member lead (w.get (S.place q))
  /-- No entry stands twice. -/
  distinct : ∀ q q', q < q' → q' < j → w.get (S.place q) ≠ w.get (S.place q')
  /-- The entries are in order. -/
  sorted : ∀ q q', q < q' → q' < j → S.key (w.get (S.place q)) ≤ S.key (w.get (S.place q'))
  /-- What is still to be filled in comes behind. -/
  next_le : ∀ q q', S.outer ≤ q → q < j → i ≤ q' → q' < j →
    byteAt block (before (w.get (S.place q'))) = lead.toNat →
      S.key (w.get (S.place q)) ≤ S.key (before (w.get (S.place q')))

namespace Swept

variable [Preorder κ] {S : Side block κ} {index w : Vector (Fin block.size) block.size} {i j : ℕ}

theorem start (h : S.Ready lead index) : Swept S lead index 0 S.outer index where
  le_filled := Nat.zero_le _
  outer_le := Nat.le_refl _
  filled_le := Nat.le_add_right _ _
  frame _ _ := rfl
  source _ h₁ h₂ := absurd h₂ (Nat.not_lt.mpr h₁)
  target _ hq := absurd hq (Nat.not_lt_zero _)
  member _ hq := (h.outer_member hq).1
  distinct := h.distinct
  sorted := h.sorted
  next_le _ _ h₁ h₂ := absurd h₂ (Nat.not_lt.mpr h₁)

theorem lt_room (hr : S.Ready lead index) (h : Swept S lead index i j w) {q : ℕ} (hq : q < j) :
    q < S.room := by
  have h₁ := h.filled_le
  have h₂ := hr.room_le
  omega

theorem place_ne (hr : S.Ready lead index) (h : Swept S lead index i j w) {q q' : ℕ} (hq : q < j)
    (hq' : q' < j) (hne : q ≠ q') : S.place q ≠ S.place q' :=
  fun heq => hne (hr.place_injective q (h.lt_room hr hq) q' (h.lt_room hr hq') heq)

/-- Outside the twin group nothing was changed. -/
theorem get_outer (hr : S.Ready lead index) (h : Swept S lead index i j w) {q : ℕ} (hq : q < S.outer) :
    w.get (S.place q) = index.get (S.place q) :=
  h.frame _ fun q' h₁ h₂ => h.place_ne hr h₂ (Nat.lt_of_lt_of_le hq h.outer_le) (by omega)

/-- What comes before an entry, if the leading byte does, is a twin of the side. -/
theorem before_mem_twins (hr : S.Ready lead index) (h : Swept S lead index i j w) {q : ℕ} (hq : q < j)
    (hlead : byteAt block (before (w.get (S.place q))) = lead.toNat) :
    before (w.get (S.place q)) ∈ S.twins lead := by
  obtain ⟨hfirst, hleaves⟩ := h.member q hq
  refine Side.mem_twins.mpr ⟨⟨hlead, ?_⟩, (leaves_before_iff hr.not_beyond hlead).mpr hleaves⟩
  exact (byteAt_before_add_one _).trans hfirst

theorem mem_twins (hr : S.Ready lead index) (h : Swept S lead index i j w) {q : ℕ} (h₁ : S.outer ≤ q)
    (h₂ : q < j) : w.get (S.place q) ∈ S.twins lead := by
  obtain ⟨q', hq', heq, hlead⟩ := h.source q h₁ h₂
  have hle := h.le_filled
  rw [heq] at hlead ⊢
  exact h.before_mem_twins hr (by omega) hlead

/-- What comes before the next entry is new. -/
theorem before_ne (hr : S.Ready lead index) (h : Swept S lead index i j w) (hlt : i < j)
    (hlead : byteAt block (before (w.get (S.place i))) = lead.toNat) {q : ℕ} (hq : q < j) :
    w.get (S.place q) ≠ before (w.get (S.place i)) := by
  intro heq
  obtain hout | hin := Nat.lt_or_ge q S.outer
  · have htwin := (Side.mem_twins.mp (h.before_mem_twins hr hlt hlead)).1
    rw [← heq, h.get_outer hr hout] at htwin
    exact (hr.outer_member hout).2 htwin
  · obtain ⟨q', hq', hsource, -⟩ := h.source q hin hq
    exact h.distinct q' i hq' hlt (before_injective (hsource.symm.trans heq))

/-- **There is a free place for it.** -/
theorem lt_room_of_lead (hr : S.Ready lead index) (h : Swept S lead index i j w) (hlt : i < j)
    (hlead : byteAt block (before (w.get (S.place i))) = lead.toNat) :
    j + 1 ≤ S.outer + (S.twins lead).card := by
  have hinj : Set.InjOn (fun q => w.get (S.place q)) (Finset.Ico S.outer j) := by
    intro q hq q' hq' heq
    rw [Finset.coe_Ico, Set.mem_Ico] at hq hq'
    obtain hlt | heq' | hgt := Nat.lt_trichotomy q q'
    · exact absurd heq (h.distinct q q' hlt hq'.2)
    · exact heq'
    · exact absurd heq.symm (h.distinct q' q hgt hq.2)
  have hcard := Finset.card_image_of_injOn hinj
  have hnot : before (w.get (S.place i)) ∉ (Finset.Ico S.outer j).image fun q => w.get (S.place q) := by
    intro hmem
    obtain ⟨q, hq, heq⟩ := Finset.mem_image.mp hmem
    exact h.before_ne hr hlt hlead (Finset.mem_Ico.mp hq).2 heq
  have hsub : insert (before (w.get (S.place i)))
      ((Finset.Ico S.outer j).image fun q => w.get (S.place q)) ⊆ S.twins lead := by
    intro a ha
    obtain rfl | ha := Finset.mem_insert.mp ha
    · exact h.before_mem_twins hr hlt hlead
    · obtain ⟨q, hq, rfl⟩ := Finset.mem_image.mp ha
      exact h.mem_twins hr (Finset.mem_Ico.mp hq).1 (Finset.mem_Ico.mp hq).2
  have hle := Finset.card_le_card hsub
  rw [Finset.card_insert_of_notMem hnot, hcard, Nat.card_Ico] at hle
  have := h.outer_le
  omega

theorem get_set_of_lt (hr : S.Ready lead index) (hj : j < S.outer + (S.twins lead).card)
    (a : Fin block.size) {q : ℕ} (hq : q < j) :
    (w.set (S.place j) a (S.place j).isLt).get (S.place q) = w.get (S.place q) := by
  have hroom := hr.room_le
  refine (get_set _ _ _ _).trans (if_neg fun heq => ?_)
  have := hr.place_injective j (by omega) q (by omega) heq
  omega

/-- What is filled in next is behind what was filled in before. -/
theorem key_le_before (hr : S.Ready lead index) (h : Swept S lead index i j w) (hlt : i < j)
    (hlead : byteAt block (before (w.get (S.place i))) = lead.toNat) {q : ℕ} (hq : q < j) :
    S.key (w.get (S.place q)) ≤ S.key (before (w.get (S.place i))) := by
  obtain hout | hin := Nat.lt_or_ge q S.outer
  · obtain ⟨hfirst, hbeyond⟩ := hr.first q hout
    rw [h.get_outer hr hout]
    exact hr.outer_le _ _ hfirst hbeyond (Side.mem_twins.mp (h.before_mem_twins hr hlt hlead)).1
  · exact h.next_le q i hin hq (Nat.le_refl i) hlt hlead

/-- **A pass that finds the leading byte before its entry fills the next place.** -/
theorem take (hr : S.Ready lead index) (h : Swept S lead index i j w) (hlt : i < j)
    (hlead : byteAt block (before (w.get (S.place i))) = lead.toNat) :
    Swept S lead index (i + 1) (j + 1) (w.set (S.place j) (before (w.get (S.place i)))) := by
  have hroom := h.lt_room_of_lead hr hlt hlead
  have houter := h.outer_le
  have htwin := Side.mem_twins.mp (h.before_mem_twins hr hlt hlead)
  have hold {q : ℕ} (hq : q < j) :
      (w.set (S.place j) (before (w.get (S.place i)))).get (S.place q) = w.get (S.place q) :=
    get_set_of_lt hr hroom _ hq
  have hnew : (w.set (S.place j) (before (w.get (S.place i)))).get (S.place j) =
      before (w.get (S.place i)) := (get_set _ _ _ _).trans (if_pos rfl)
  refine {
    le_filled := by omega
    outer_le := by omega
    filled_le := hroom
    frame := fun p hp => ?frame
    source := fun q h₁ h₂ => ?source
    target := fun q hq hq' => ?target
    member := fun q hq => ?member
    distinct := fun q q' hqq hq' => ?distinct
    sorted := fun q q' hqq hq' => ?sorted
    next_le := fun q q' h₁ h₂ h₃ h₄ hq' => ?next_le }
  case frame =>
    rw [get_set, if_neg (hp j houter (Nat.lt_succ_self j))]
    exact h.frame p fun q h₁ h₂ => hp q h₁ (by omega)
  case source =>
    obtain hq | rfl := Nat.lt_or_eq_of_le (Nat.le_of_lt_succ h₂)
    · obtain ⟨q', hq', hsource⟩ := h.source q h₁ hq
      refine ⟨q', by omega, ?_⟩
      rwa [hold hq, hold (by omega)]
    · refine ⟨i, by omega, ?_⟩
      rw [hnew, hold hlt]
      exact ⟨rfl, hlead⟩
  case target =>
    obtain hq | rfl := Nat.lt_or_eq_of_le (Nat.le_of_lt_succ hq)
    · rw [hold (by omega)] at hq' ⊢
      obtain ⟨q', hlt', htarget⟩ := h.target q hq hq'
      exact ⟨q', by omega, by rwa [hold hlt']⟩
    · rw [hold hlt] at hq' ⊢
      exact ⟨j, by omega, hnew⟩
  case member =>
    obtain hq | rfl := Nat.lt_or_eq_of_le (Nat.le_of_lt_succ hq)
    · rw [hold hq]
      exact h.member q hq
    · rw [hnew]
      exact ⟨hlead, htwin.2⟩
  case distinct =>
    obtain hq' | rfl := Nat.lt_or_eq_of_le (Nat.le_of_lt_succ hq')
    · rw [hold (by omega), hold hq']
      exact h.distinct q q' hqq hq'
    · rw [hold hqq, hnew]
      exact h.before_ne hr hlt hlead hqq
  case sorted =>
    obtain hq' | rfl := Nat.lt_or_eq_of_le (Nat.le_of_lt_succ hq')
    · rw [hold (by omega), hold hq']
      exact h.sorted q q' hqq hq'
    · rw [hold hqq, hnew]
      exact h.key_le_before hr hlt hlead hqq
  case next_le =>
    have hlast := h.key_le_before hr hlt hlead hlt
    obtain hq | rfl := Nat.lt_or_eq_of_le (Nat.le_of_lt_succ h₂)
    · rw [hold hq]
      obtain hqj | rfl := Nat.lt_or_eq_of_le (Nat.le_of_lt_succ h₄)
      · rw [hold hqj] at hq' ⊢
        exact h.next_le q q' h₁ hq (by omega) hqj hq'
      · rw [hnew] at hq' ⊢
        exact (h.key_le_before hr hlt hlead hq).trans (hr.key_before _ _ hlead hq' hlast)
    · rw [hnew]
      obtain hqj | rfl := Nat.lt_or_eq_of_le (Nat.le_of_lt_succ h₄)
      · rw [hold hqj] at hq' ⊢
        exact hr.key_before _ _ hlead hq' (h.sorted i q' (by omega) hqj)
      · rw [hnew] at hq' ⊢
        exact hr.key_before _ _ hlead hq' hlast

/-- A pass that does not find the leading byte there fills nothing. -/
theorem skip (h : Swept S lead index i j w) (hlt : i < j)
    (hlead : byteAt block (before (w.get (S.place i))) ≠ lead.toNat) :
    Swept S lead index (i + 1) j w := by
  refine { h with
    le_filled := hlt
    source := fun q h₁ h₂ => ?_
    target := fun q hq hq' => ?_
    next_le := fun q q' h₁ h₂ h₃ h₄ hq' => h.next_le q q' h₁ h₂ (by omega) h₄ hq' }
  · obtain ⟨q', hq', hsource⟩ := h.source q h₁ h₂
    exact ⟨q', by omega, hsource⟩
  · obtain hq | rfl := Nat.lt_or_eq_of_le (Nat.le_of_lt_succ hq)
    · exact h.target q hq hq'
    · exact absurd hq' hlead

/-- **When all filled positions were taken, the side is complete.** -/
theorem complete (hr : S.Ready lead index) (h : Swept S lead index j j w) {a : Fin block.size}
    (ha : S.Member lead a) : ∃ q < j, w.get (S.place q) = a := by
  obtain ⟨hfirst, k, hk, hbeyond⟩ := ha
  induction k generalizing a with
  | zero => exact absurd (hfirst ▸ hbeyond) hr.not_beyond
  | succ k ih =>
    by_cases htwin : Twin block lead a
    · obtain ⟨b, rfl⟩ := before_surjective a
      have hnext (l : ℕ) := byteAt_before_add b l
      have hb : byteAt block b = lead.toNat := (byteAt_before_add_one b).symm.trans htwin.2
      obtain ⟨q, hq, hget⟩ := ih hb (fun l hl => by rw [← hnext]; exact hk (l + 1) (by omega))
        (by rwa [← hnext])
      obtain ⟨q', hq', hget'⟩ := h.target q hq (by rw [hget]; exact hfirst)
      exact ⟨q', hq', by rw [hget', hget]⟩
    · obtain ⟨q, hq, hget⟩ := hr.outer_complete ⟨hfirst, k + 1, hk, hbeyond⟩ htwin
      exact ⟨q, Nat.lt_of_lt_of_le hq h.outer_le, by rw [h.get_outer hr hq, hget]⟩

end Swept

end BlockPress.Rotation
