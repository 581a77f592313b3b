import BlockPress.Proofs.Rotation.Twins

/-!
# The range of a byte after both fills

The two sides of the range of a byte are `Ready` to be swept when its groups other than the twin group
are in order, `fillUp` sweeps the lower side and `fillDown` the upper one, and together the twins of
both sides just fit the twin group.

Main statement: **`fillTwins` puts the range in order** and leaves the index arranged
(`fillTwins_spec`).
-/

namespace BlockPress.Rotation

open Sorting

variable {block : ByteArray} {lead : UInt8}

/-- The first place of the range of a byte. -/
def rangeLo (block : ByteArray) (lead : UInt8) : ℕ := startOf block (256 * lead.toNat)

/-- The place behind the range of a byte. -/
def rangeHi (block : ByteArray) (lead : UInt8) : ℕ := startOf block (256 * lead.toNat + 256)

/-- The first place of the twin group. -/
def twinLo (block : ByteArray) (lead : UInt8) : ℕ := startOf block (pair lead lead)

/-- The place behind the twin group. -/
def twinHi (block : ByteArray) (lead : UInt8) : ℕ := startOf block (pair lead lead + 1)

theorem range_bounds (block : ByteArray) (lead : UInt8) : rangeLo block lead ≤ twinLo block lead ∧
    twinLo block lead ≤ twinHi block lead ∧ twinHi block lead ≤ rangeHi block lead ∧
      rangeHi block lead ≤ block.size := by
  have hlead := lead.toNat_lt
  refine ⟨startOf_mono ?_, startOf_mono (Nat.le_succ _), startOf_mono ?_, startOf_le block _⟩
  all_goals rw [pair]; omega

/-- The places of the range of a byte. -/
def rangeSpan (block : ByteArray) (lead : UInt8) : Span block.size where
  lo := rangeLo block lead
  hi := rangeHi block lead
  lo_le_hi := startOf_mono (Nat.le_add_right _ _)
  hi_le := startOf_le block _

/-- In the range of a byte stand the rotations that start with it. -/
theorem Arranged.mem_rangeSpan_iff {index : Vector (Fin block.size) block.size}
    (h : Arranged block index) (p : Fin block.size) :
    p.val ∈ rangeSpan block lead ↔ byteAt block (index.get p) = lead.toNat := by
  have := byteAt_lt block (index.get p + 1)
  rw [Span.mem_iff]
  change rangeLo block lead ≤ p ∧ p.val < rangeHi block lead ↔ _
  rw [rangeLo, rangeHi, ← Nat.not_le, h.startOf_le_iff, h.startOf_le_iff, groupAt]
  omega

/-- The lower side of the range of a byte. -/
def lowerSide (block : ByteArray) (lead : UInt8) (h : 0 < block.size) : Side block Word where
  beyond t := t < lead.toNat
  key := endless block
  place q := ⟨min (rangeLo block lead + q) (block.size - 1), by omega⟩
  outer := twinLo block lead - rangeLo block lead
  room := rangeHi block lead - rangeLo block lead

/-- The upper side of the range of a byte. -/
def upperSide (block : ByteArray) (lead : UInt8) (h : 0 < block.size) : Side block Wordᵒᵈ where
  beyond t := lead.toNat < t
  key a := OrderDual.toDual (endless block a)
  place q := ⟨rangeHi block lead - 1 - q, by have := (range_bounds block lead).2.2.2; omega⟩
  outer := rangeHi block lead - twinHi block lead
  room := rangeHi block lead - rangeLo block lead

/-! ## The fills -/

section Fills

variable {h₀ : 0 < block.size} {index w : Vector (Fin block.size) block.size} {i j : ℕ}

theorem val_place_lower {q : ℕ} (hq : q < (lowerSide block lead h₀).room) :
    ((lowerSide block lead h₀).place q).val = rangeLo block lead + q := by
  have hbounds := range_bounds block lead
  change q < rangeHi block lead - rangeLo block lead at hq
  change min (rangeLo block lead + q) (block.size - 1) = _
  omega

theorem toNat_getElem_before {k : Fin block.size} :
    block.get k.val k.isLt = lead ↔ byteAt block k = lead.toNat := by
  rw [← toNat_getElem k.isLt, UInt8.toNat_inj]
  rfl

theorem setIfInBounds_eq {v : Vector (Fin block.size) block.size} {p : Fin block.size} {q : ℕ}
    (h : p.val = q) (a : Fin block.size) : v.setIfInBounds q a = v.set p a := by
  subst h
  exact Vector.ext fun k hk => by rw [Vector.getElem_setIfInBounds, Vector.getElem_set]

/-- **Going up sweeps the lower side.** -/
theorem fillUp_swept (hr : (lowerSide block lead h₀).Ready lead index)
    (h : Swept (lowerSide block lead h₀) lead index i j w) :
    ∃ j' w', fillUp block lead (rangeLo block lead + i) (rangeLo block lead + j) w =
        (rangeLo block lead + j', w') ∧ Swept (lowerSide block lead h₀) lead index j' j' w' := by
  generalize hp : rangeLo block lead + i = p
  generalize hstop : rangeLo block lead + j = stop
  fun_induction fillUp block lead p stop w generalizing i j with
  | case1 p stop w hlt _ k hlead =>
    rename_i ih
    have hij : i < j := by omega
    have hget : w.get ((lowerSide block lead h₀).place i) = w[p] := by
      rw [Fin.ext ((val_place_lower (h.lt_room hr hij)).trans hp) (b := ⟨p, hlt.2⟩)]
      rfl
    have hlead' : byteAt block (before (w.get ((lowerSide block lead h₀).place i))) = lead.toNat := by
      rw [hget]
      exact toNat_getElem_before.mp hlead
    have htake := h.take hr hij hlead'
    rw [hget, ← setIfInBounds_eq ((val_place_lower (htake.lt_room hr j.lt_succ_self)).trans hstop)]
      at htake
    exact ih htake (by omega) (by omega)
  | case2 p stop w hlt _ k hlead =>
    rename_i ih
    have hij : i < j := by omega
    have hget : w.get ((lowerSide block lead h₀).place i) = w[p] := by
      rw [Fin.ext ((val_place_lower (h.lt_room hr hij)).trans hp) (b := ⟨p, hlt.2⟩)]
      rfl
    refine ih (h.skip hij ?_) (by omega) hstop
    rw [hget]
    exact fun heq => hlead (toNat_getElem_before.mpr heq)
  | case3 p stop w hge =>
    have hbounds := range_bounds block lead
    have hle := h.le_filled
    have hroom : j ≤ rangeHi block lead - rangeLo block lead := h.filled_le.trans hr.room_le
    obtain rfl : i = j := by omega
    exact ⟨i, w, by rw [hstop], h⟩

theorem val_place_upper {q : ℕ} :
    ((upperSide block lead h₀).place q).val = rangeHi block lead - 1 - q := rfl

/-- **Going down sweeps the upper side.** -/
theorem fillDown_swept (hr : (upperSide block lead h₀).Ready lead index)
    (h : Swept (upperSide block lead h₀) lead index i j w) :
    ∃ j' w', fillDown block lead (rangeHi block lead - i) (rangeHi block lead - j) w =
        (rangeHi block lead - j', w') ∧ Swept (upperSide block lead h₀) lead index j' j' w' := by
  have hbounds := range_bounds block lead
  generalize hp : rangeHi block lead - i = p
  generalize hfirst : rangeHi block lead - j = first
  induction p generalizing i j w first with
  | zero =>
    have hle := h.le_filled
    have hroom : j ≤ rangeHi block lead - rangeLo block lead := h.filled_le.trans hr.room_le
    obtain rfl : i = j := by omega
    exact ⟨i, w, by rw [fillDown, hfirst], h⟩
  | succ p ih =>
    rw [fillDown]
    have hle := h.le_filled
    have hroom : j ≤ rangeHi block lead - rangeLo block lead := h.filled_le.trans hr.room_le
    by_cases hlt : first < p + 1 ∧ p < block.size
    · have hij : i < j := by omega
      have hplace : (upperSide block lead h₀).place i = ⟨p, hlt.2⟩ :=
        Fin.ext (val_place_upper.trans (show _ = p by omega))
      have hget : w.get ((upperSide block lead h₀).place i) = w[p] := by
        rw [hplace]
        rfl
      rw [dif_pos hlt]
      by_cases hlead : block[before w[p]] = lead
      · have hlead' : byteAt block (before (w.get ((upperSide block lead h₀).place i))) =
            lead.toNat := by
          rw [hget]
          exact toNat_getElem_before.mp hlead
        have htake := h.take hr hij hlead'
        rw [hget, ← setIfInBounds_eq (val_place_upper.trans (show _ = first - 1 by omega))] at htake
        simp only [if_pos hlead]
        exact ih htake (by omega) _ (by omega)
      · simp only [if_neg hlead]
        refine ih (h.skip hij ?_) (by omega) _ hfirst
        rw [hget]
        exact fun heq => hlead (toNat_getElem_before.mpr heq)
    · obtain rfl : i = j := by omega
      exact ⟨i, w, by rw [dif_neg hlt, hfirst], h⟩

end Fills

/-! ## The sides are ready -/

section Ready

variable (h₀ : 0 < block.size) {index : Vector (Fin block.size) block.size}

theorem twin_iff {a : ℕ} : Twin block lead a ↔ groupAt block a = pair lead lead :=
  groupAt_eq_pair_iff.symm

/-- **The twins of both sides fit the twin group.** -/
theorem card_twins_add_card_twins (lead : UInt8) : ((lowerSide block lead h₀).twins lead).card +
    ((upperSide block lead h₀).twins lead).card ≤ twinHi block lead - twinLo block lead := by
  have hdisj :
      Disjoint ((lowerSide block lead h₀).twins lead) ((upperSide block lead h₀).twins lead) := by
    rw [Finset.disjoint_left]
    intro a ha ha'
    obtain ⟨-, k, hk, hlow⟩ := Side.mem_twins.mp ha
    obtain ⟨-, l, hl, hhigh⟩ := Side.mem_twins.mp ha'
    change byteAt block (a + k) < lead.toNat at hlow
    change lead.toNat < byteAt block (a + l) at hhigh
    obtain hlt | rfl | hlt := Nat.lt_trichotomy k l
    · exact absurd (hl k hlt) hlow.ne
    · omega
    · exact absurd (hk l hlt) hhigh.ne'
  have hcard : twinHi block lead - twinLo block lead =
      ((Finset.range block.size).filter (groupAt block · = pair lead lead)).card := by
    rw [twinHi, startOf, Counting.below_succ, ← Nat.count_eq_card_filter_range]
    exact Nat.add_sub_cancel_left _ _
  rw [← Finset.card_union_of_disjoint hdisj, hcard]
  refine Finset.card_le_card_of_injOn Fin.val (fun a ha => ?_) fun a _ b _ hab => Fin.ext hab
  have htwin : Twin block lead a := by
    obtain ha | ha := Finset.mem_union.mp ha
    · exact (Side.mem_twins.mp ha).1
    · exact (Side.mem_twins.mp ha).1
  exact Finset.mem_filter.mpr ⟨Finset.mem_range.mpr a.isLt, twin_iff.mp htwin⟩

variable {h₀}

/-- The groups of the range are in order but for the twin group. -/
def OuterSorted (block : ByteArray) (lead : UInt8)
    (index : Vector (Fin block.size) block.size) : Prop :=
  ∀ b : UInt8, b ≠ lead → SortedOn (endless block) (slice block (pair lead b)) index

theorem lt_of_startOf_lt {x y : ℕ} (h : startOf block x < startOf block y) : x < y := by
  by_contra hle
  exact absurd h (Nat.not_lt.mpr (startOf_mono (Nat.not_lt.mp hle)))

/-- Groups of the range are in order together, if the twin group is not among them. -/
theorem sortedOn_groups (ha : Arranged block index) (hs : OuterSorted block lead index)
    {s : Span block.size} {x y : ℕ} (hlo : s.lo = startOf block x) (hhi : s.hi = startOf block y)
    (hx : 256 * lead.toNat ≤ x) (hy : y ≤ 256 * lead.toNat + 256)
    (hne : ∀ k, x ≤ k → k < y → k ≠ pair lead lead) :
    SortedOn (endless block) s index := by
  refine ha.sortedOn fun k h₁ h₂ => ?_
  rw [hlo] at h₁
  rw [hhi] at h₂
  have hxk := lt_of_startOf_lt h₁
  have hky := lt_of_startOf_lt h₂
  have hne' := hne k (by omega) hky
  have hbyte : (k - 256 * lead.toNat).toUInt8.toNat = k - 256 * lead.toNat :=
    UInt8.toNat_ofNat_of_lt' (show _ < 256 by omega)
  have hk : k = pair lead (k - 256 * lead.toNat).toUInt8 := by
    rw [pair, hbyte]
    omega
  rw [hk]
  refine hs _ fun heq => hne' ?_
  rwa [heq] at hk

/-- What stands between the start of the range and the twin group. -/
theorem lower_iff (ha : Arranged block index) (p : Fin block.size) :
    rangeLo block lead ≤ p ∧ p < twinLo block lead ↔
      byteAt block (index.get p) = lead.toNat ∧ byteAt block (index.get p + 1) < lead.toNat := by
  have := byteAt_lt block (index.get p + 1)
  have := lead.toNat_lt
  rw [rangeLo, twinLo, ← Nat.not_le, ha.startOf_le_iff, ha.startOf_le_iff, groupAt, pair]
  omega

/-- What stands between the twin group and the end of the range. -/
theorem upper_iff (ha : Arranged block index) (p : Fin block.size) :
    twinHi block lead ≤ p ∧ p < rangeHi block lead ↔
      byteAt block (index.get p) = lead.toNat ∧ lead.toNat < byteAt block (index.get p + 1) := by
  have := byteAt_lt block (index.get p + 1)
  have := lead.toNat_lt
  rw [rangeHi, twinHi, ← Nat.not_le, ha.startOf_le_iff, ha.startOf_le_iff, groupAt, pair]
  omega

theorem ready_lowerSide (ha : Arranged block index) (hs : OuterSorted block lead index) :
    (lowerSide block lead h₀).Ready lead index := by
  have hbounds := range_bounds block lead
  have hcard := card_twins_add_card_twins h₀ lead
  have hplace {q : ℕ} (hq : q < twinLo block lead - rangeLo block lead) :
      ((lowerSide block lead h₀).place q).val = rangeLo block lead + q :=
    val_place_lower (show q < rangeHi block lead - rangeLo block lead by omega)
  refine {
    toListed := .of_iff ha.injective (fun q hq q' hq' heq => ?distinct) fun p => ?listed
    not_beyond := Nat.lt_irrefl _
    key_before := fun a b h₁ h₂ => endless_before_le (h₁.trans h₂.symm)
    place_injective := fun q hq q' hq' heq => ?place_injective
    room_le := ?room_le
    sorted := fun q q' hqq hq' => ?sorted
    outer_le := fun a b hfirst hbeyond htwin => ?outer_le }
  case distinct =>
    have hval := congrArg Fin.val heq
    rw [hplace hq, hplace hq'] at hval
    omega
  case listed =>
    refine Iff.trans ⟨?_, fun hp => ?_⟩ (lower_iff ha p)
    · rintro ⟨q, hq, rfl⟩
      change q < twinLo block lead - rangeLo block lead at hq
      rw [hplace hq]
      omega
    · have hq : p.val - rangeLo block lead < twinLo block lead - rangeLo block lead := by omega
      exact ⟨p.val - rangeLo block lead, hq, Fin.ext (by rw [hplace hq]; omega)⟩
  case place_injective =>
    have hval := congrArg Fin.val heq
    rw [val_place_lower hq, val_place_lower hq'] at hval
    omega
  case room_le =>
    change twinLo block lead - rangeLo block lead + _ ≤ rangeHi block lead - rangeLo block lead
    omega
  case sorted =>
    change q' < twinLo block lead - rangeLo block lead at hq'
    have hsorted : SortedOn (endless block)
        ⟨rangeLo block lead, twinLo block lead, hbounds.1, by omega⟩ index :=
      sortedOn_groups ha hs rfl rfl (Nat.le_refl _)
        (by have := lead.toNat_lt; rw [pair]; omega) fun k _ hk => hk.ne
    have h₁ := hplace (hqq.trans hq')
    have h₂ := hplace hq'
    exact hsorted ((lowerSide block lead h₀).place q) ((lowerSide block lead h₀).place q')
      (Span.mem_iff.mpr ⟨show rangeLo block lead ≤ _ by omega, show _ < twinLo block lead by omega⟩)
      (Span.mem_iff.mpr ⟨show rangeLo block lead ≤ _ by omega, show _ < twinLo block lead by omega⟩)
      (by omega)
  case outer_le =>
    refine (endless_lt_of_groupAt_lt ?_).le
    change _ < lead.toNat at hbeyond
    rw [groupAt, groupAt, htwin.1, htwin.2, hfirst]
    omega

theorem ready_upperSide (ha : Arranged block index) (hs : OuterSorted block lead index) :
    (upperSide block lead h₀).Ready lead index := by
  have hbounds := range_bounds block lead
  have hcard := card_twins_add_card_twins h₀ lead
  have hplace : ∀ q < rangeHi block lead - rangeLo block lead,
      ∀ q' < rangeHi block lead - rangeLo block lead,
        (upperSide block lead h₀).place q = (upperSide block lead h₀).place q' → q = q' := by
    intro q hq q' hq' heq
    have hval := congrArg Fin.val heq
    rw [val_place_upper, val_place_upper] at hval
    omega
  refine {
    toListed := .of_iff ha.injective (fun q hq q' hq' => ?distinct) fun p => ?listed
    not_beyond := Nat.lt_irrefl _
    key_before := fun a b h₁ h₂ => endless_before_le (h₂.trans h₁.symm)
    place_injective := hplace
    room_le := ?room_le
    sorted := fun q q' hqq hq' => ?sorted
    outer_le := fun a b hfirst hbeyond htwin => ?outer_le }
  case distinct =>
    change _ < rangeHi block lead - twinHi block lead at hq hq'
    exact hplace q (by omega) q' (by omega)
  case listed =>
    refine Iff.trans ⟨?_, fun hp => ?_⟩ (upper_iff ha p)
    · rintro ⟨q, hq, rfl⟩
      change q < rangeHi block lead - twinHi block lead at hq
      rw [val_place_upper]
      omega
    · have hq : rangeHi block lead - 1 - p.val < rangeHi block lead - twinHi block lead := by omega
      exact ⟨rangeHi block lead - 1 - p.val, hq, Fin.ext (by rw [val_place_upper]; omega)⟩
  case room_le =>
    change rangeHi block lead - twinHi block lead + _ ≤ rangeHi block lead - rangeLo block lead
    omega
  case sorted =>
    change q' < rangeHi block lead - twinHi block lead at hq'
    have hsorted : SortedOn (endless block)
        ⟨twinHi block lead, rangeHi block lead, hbounds.2.2.1, hbounds.2.2.2⟩ index :=
      sortedOn_groups ha hs rfl rfl (by rw [pair]; omega) (Nat.le_refl _)
        fun k hk _ => by omega
    have h₁ : ((upperSide block lead h₀).place q).val = _ := val_place_upper
    have h₂ : ((upperSide block lead h₀).place q').val = _ := val_place_upper
    have hle := hsorted ((upperSide block lead h₀).place q') ((upperSide block lead h₀).place q)
      (Span.mem_iff.mpr ⟨show twinHi block lead ≤ _ by omega, show _ < rangeHi block lead by omega⟩)
      (Span.mem_iff.mpr ⟨show twinHi block lead ≤ _ by omega, show _ < rangeHi block lead by omega⟩)
      (by omega)
    exact OrderDual.toDual_le_toDual.mpr hle
  case outer_le =>
    refine (endless_lt_of_groupAt_lt ?_).le
    change lead.toNat < _ at hbeyond
    rw [groupAt, groupAt, htwin.1, htwin.2, hfirst]
    omega

end Ready

/-! ## Both fills -/

/-- What the two fills leave behind: first `j₁` positions of the lower side were filled, then `j₂` of
the upper one. -/
structure BothSwept (block : ByteArray) (lead : UInt8) (h₀ : 0 < block.size) (j₁ j₂ : ℕ)
    (index w₁ w : Vector (Fin block.size) block.size) : Prop where
  /-- The lower side could be filled. -/
  ready₁ : (lowerSide block lead h₀).Ready lead index
  /-- The lower side is filled. -/
  swept₁ : Swept (lowerSide block lead h₀) lead index j₁ j₁ w₁
  /-- The upper side could be filled. -/
  ready₂ : (upperSide block lead h₀).Ready lead w₁
  /-- The upper side is filled. -/
  swept₂ : Swept (upperSide block lead h₀) lead w₁ j₂ j₂ w

theorem bothSwept_fillTwins {starts : GroupTable} {index : Vector (Fin block.size) block.size}
    (h₀ : 0 < block.size) (hstarts : Starts block starts) (ha : Arranged block index)
    (hs : OuterSorted block lead index) :
    ∃ j₁ j₂ w₁, BothSwept block lead h₀ j₁ j₂ index w₁ (fillTwins block starts lead index).index ∧
      (fillTwins block starts lead index).stop = rangeLo block lead + j₁ ∧
      (fillTwins block starts lead index).first = rangeHi block lead - j₂ := by
  have hlead := lead.toNat_lt
  have hbounds := range_bounds block lead
  have hr₁ : (lowerSide block lead h₀).Ready lead index := ready_lowerSide ha hs
  obtain ⟨j₁, w₁, hup, h₁⟩ := fillUp_swept hr₁ (Swept.start hr₁)
  have hr₂ : (upperSide block lead h₀).Ready lead w₁ := by
    refine (ready_upperSide ha hs).congr fun q hq => h₁.frame _ fun q' hq' hlt heq => ?_
    have hval := congrArg Fin.val heq
    rw [val_place_lower (h₁.lt_room hr₁ hlt), val_place_upper] at hval
    change q < rangeHi block lead - twinHi block lead at hq
    have hfilled := h₁.filled_le
    change j₁ ≤ twinLo block lead - rangeLo block lead + _ at hfilled
    have hcard := card_twins_add_card_twins h₀ lead
    omega
  obtain ⟨j₂, w, hdown, h₂⟩ := fillDown_swept hr₂ (Swept.start hr₂)
  have hlo : rangeLo block lead + (lowerSide block lead h₀).outer = twinLo block lead :=
    Nat.add_sub_of_le hbounds.1
  have hhi : rangeHi block lead - (upperSide block lead h₀).outer = twinHi block lead :=
    Nat.sub_sub_self hbounds.2.2.1
  rw [Nat.add_zero, hlo] at hup
  rw [Nat.sub_zero, hhi] at hdown
  have hrangeLo : starts.rangeStart lead = rangeLo block lead := hstarts _ _
  have hrangeHi : starts.rangeStop lead = rangeHi block lead := hstarts _ _
  have htwin := pair_lt lead lead
  have htwinLo : starts[pair lead lead] = twinLo block lead := hstarts _ _
  have htwinHi : starts[pair lead lead + 1] = twinHi block lead := hstarts _ _
  have hfill : fillTwins block starts lead index =
      ⟨w, rangeLo block lead + j₁, rangeHi block lead - j₂⟩ := by
    simp only [fillTwins, hrangeLo, hrangeHi, htwinLo, htwinHi, hup, hdown]
  rw [hfill]
  exact ⟨j₁, j₂, w₁, ⟨hr₁, h₁, hr₂, h₂⟩, rfl, rfl⟩

namespace BothSwept

variable {h₀ : 0 < block.size} {j₁ j₂ : ℕ} {index w₁ w : Vector (Fin block.size) block.size}

/-- The two sides do not meet. -/
theorem add_le (h : BothSwept block lead h₀ j₁ j₂ index w₁ w) :
    rangeLo block lead + j₁ + j₂ ≤ rangeHi block lead := by
  have hbounds := range_bounds block lead
  have hcard := card_twins_add_card_twins h₀ lead
  have h₁ := h.swept₁.filled_le
  have h₂ := h.swept₂.filled_le
  change j₁ ≤ twinLo block lead - rangeLo block lead + _ at h₁
  change j₂ ≤ rangeHi block lead - twinHi block lead + _ at h₂
  omega

/-- The second fill does not touch the lower side. -/
theorem get_lower (h : BothSwept block lead h₀ j₁ j₂ index w₁ w) {q : ℕ} (hq : q < j₁) :
    w.get ((lowerSide block lead h₀).place q) = w₁.get ((lowerSide block lead h₀).place q) := by
  have hle := h.add_le
  refine h.swept₂.frame _ fun q' _ hlt heq => ?_
  have hval := congrArg Fin.val heq
  rw [val_place_lower (h.swept₁.lt_room h.ready₁ hq), val_place_upper] at hval
  omega

/-- Outside the twin group nothing was changed. -/
theorem get_eq (h : BothSwept block lead h₀ j₁ j₂ index w₁ w) {p : Fin block.size}
    (hp : p.val ∉ slice block (pair lead lead)) : w.get p = index.get p := by
  have hbounds := range_bounds block lead
  have hle := h.add_le
  have houter₁ := h.swept₁.outer_le
  have houter₂ := h.swept₂.outer_le
  change twinLo block lead - rangeLo block lead ≤ j₁ at houter₁
  change rangeHi block lead - twinHi block lead ≤ j₂ at houter₂
  have hout : p.val < twinLo block lead ∨ twinHi block lead ≤ p.val := by
    by_contra hin
    exact hp (Span.mem_iff.mpr
      ⟨show twinLo block lead ≤ _ by omega, show _ < twinHi block lead by omega⟩)
  refine (h.swept₂.frame p fun q hq hlt heq => ?_).trans (h.swept₁.frame p fun q hq hlt heq => ?_)
  · have hval := congrArg Fin.val heq
    rw [val_place_upper] at hval
    change rangeHi block lead - twinHi block lead ≤ q at hq
    omega
  · have hval := congrArg Fin.val heq
    rw [val_place_lower (h.swept₁.lt_room h.ready₁ hlt)] at hval
    change twinLo block lead - rangeLo block lead ≤ q at hq
    omega

/-- A group other than the twin group stays in order. -/
theorem sortedOn_of_apart (h : BothSwept block lead h₀ j₁ j₂ index w₁ w) {s : Span block.size}
    (hs : SortedOn (endless block) s index) (hst : (slice block (pair lead lead)).Apart s) :
    SortedOn (endless block) s w :=
  hs.congr fun x hx => h.get_eq (p := ⟨x, Span.lt_of_mem hx⟩) fun ht => hst x ht hx

/-- If no rotation leaves the leading byte, there is nothing to fill in. -/
theorem filled_of_steady (h : BothSwept block lead h₀ j₁ j₂ index w₁ w)
    (hsteady : ∀ p, byteAt block p = lead.toNat) :
    j₁ = twinLo block lead - rangeLo block lead ∧ j₂ = rangeHi block lead - twinHi block lead := by
  have hempty {κ : Type} (S : Side block κ) (hlead : ¬S.beyond lead.toNat) :
      (S.twins lead).card = 0 := by
    rw [Finset.card_eq_zero, Finset.eq_empty_iff_forall_notMem]
    intro a ha
    obtain ⟨-, k, -, hbeyond⟩ := Side.mem_twins.mp ha
    exact hlead (hsteady _ ▸ hbeyond)
  have hfilled₁ := h.swept₁.filled_le
  have hfilled₂ := h.swept₂.filled_le
  rw [hempty _ h.ready₁.not_beyond] at hfilled₁
  rw [hempty _ h.ready₂.not_beyond] at hfilled₂
  exact ⟨Nat.le_antisymm hfilled₁ h.swept₁.outer_le, Nat.le_antisymm hfilled₂ h.swept₂.outer_le⟩

/-- Then the index stays as it is. -/
theorem get_eq_of_steady (h : BothSwept block lead h₀ j₁ j₂ index w₁ w)
    (hsteady : ∀ p, byteAt block p = lead.toNat) (p : Fin block.size) : w.get p = index.get p := by
  obtain ⟨rfl, rfl⟩ := h.filled_of_steady hsteady
  exact (h.swept₂.frame p fun q hq hlt => absurd hlt (Nat.not_lt.mpr hq)).trans
    (h.swept₁.frame p fun q hq hlt => absurd hlt (Nat.not_lt.mpr hq))

/-- **No rotation is lost.** -/
theorem surjective (h : BothSwept block lead h₀ j₁ j₂ index w₁ w) (ha : Arranged block index) :
    Function.Surjective w.get := by
  intro a
  by_cases htwin : Twin block lead a
  · by_cases hless : Leaves block lead (· < lead.toNat) a
    · obtain ⟨q, hq, hget⟩ := h.swept₁.complete h.ready₁ ⟨htwin.1, hless⟩
      exact ⟨_, (h.get_lower hq).trans hget⟩
    by_cases hgreater : Leaves block lead (lead.toNat < ·) a
    · obtain ⟨q, hq, hget⟩ := h.swept₂.complete h.ready₂ ⟨htwin.1, hgreater⟩
      exact ⟨_, hget⟩
    · obtain ⟨p, hp⟩ := ha.surjective a
      exact ⟨p, (h.get_eq_of_steady (byteAt_eq_of_not_leaves hless hgreater) p).trans hp⟩
  · obtain ⟨p, rfl⟩ := ha.surjective a
    exact ⟨p, h.get_eq fun hp => htwin (twin_iff.mpr ((ha.mem_slice_iff p).mp hp))⟩

/-- The index is still arranged: the twins are where they were, in another order. -/
theorem arranged (h : BothSwept block lead h₀ j₁ j₂ index w₁ w) (ha : Arranged block index) :
    Arranged block w := by
  have hinj : Function.Injective w.get := Finite.injective_iff_surjective.mpr (h.surjective ha)
  have hgroup (p : Fin block.size) : groupAt block (w.get p) = groupAt block (index.get p) := by
    by_cases hp : p.val ∈ slice block (pair lead lead)
    · rw [(ha.mem_slice_iff p).mp hp]
      by_contra hne
      obtain ⟨p', hp'⟩ := ha.surjective (w.get p)
      have hout : p'.val ∉ slice block (pair lead lead) := fun hin => by
        have := (ha.mem_slice_iff p').mp hin
        rw [hp'] at this
        exact hne this
      obtain rfl : p' = p := hinj ((h.get_eq hout).trans hp')
      exact hout hp
    · rw [h.get_eq hp]
  refine ⟨hinj, fun p => ?_, fun p => ?_⟩
  · rw [hgroup]
    exact ha.start_le p
  · rw [hgroup]
    exact ha.lt_start p

/-- What leaves the leading byte for a smaller one stands where the lower side was filled. -/
theorem lt_stop (h : BothSwept block lead h₀ j₁ j₂ index w₁ w) (ha : Arranged block index)
    {p : Fin block.size} (hp : p.val ∈ rangeSpan block lead)
    (hless : Leaves block lead (· < lead.toNat) (w.get p)) : p.val < rangeLo block lead + j₁ := by
  have hw := h.arranged ha
  obtain ⟨q, hq, hget⟩ := h.swept₁.complete h.ready₁ ⟨(hw.mem_rangeSpan_iff p).mp hp, hless⟩
  obtain rfl := hw.injective ((h.get_lower hq).trans hget)
  rw [val_place_lower (h.swept₁.lt_room h.ready₁ hq)]
  exact Nat.add_lt_add_left hq _

/-- What leaves it for a greater one stands where the upper side was filled. -/
theorem first_le (h : BothSwept block lead h₀ j₁ j₂ index w₁ w) (ha : Arranged block index)
    {p : Fin block.size} (hp : p.val ∈ rangeSpan block lead)
    (hgreater : Leaves block lead (lead.toNat < ·) (w.get p)) : rangeHi block lead - j₂ ≤ p.val := by
  have hw := h.arranged ha
  obtain ⟨q, hq, hget⟩ := h.swept₂.complete h.ready₂ ⟨(hw.mem_rangeSpan_iff p).mp hp, hgreater⟩
  obtain rfl := hw.injective hget
  rw [val_place_upper, Nat.sub_sub]
  exact Nat.sub_le_sub_left (by omega) _

/-- **The range is in order.** -/
theorem sortedOn (h : BothSwept block lead h₀ j₁ j₂ index w₁ w) (ha : Arranged block index) :
    SortedOn (endless block) (rangeSpan block lead) w := by
  intro p p' hp hp' hpp
  let a : Fin block.size := ⟨p, Span.lt_of_mem hp⟩
  let a' : Fin block.size := ⟨p', Span.lt_of_mem hp'⟩
  have hlo : rangeLo block lead ≤ p := hp.1
  have hhi : p' < rangeHi block lead := hp'.2
  change endless block (w.get a) ≤ endless block (w.get a')
  by_cases hless : Leaves block lead (· < lead.toNat) (w.get a')
  · have hstop : p' < rangeLo block lead + j₁ := h.lt_stop ha (p := a') hp' hless
    have hplace {x : Fin block.size} (hx : rangeLo block lead ≤ x) (hx' : x < rangeLo block lead + j₁) :
        (lowerSide block lead h₀).place (x - rangeLo block lead) = x := by
      have hroom := h.swept₁.lt_room h.ready₁ (q := x - rangeLo block lead) (by omega)
      exact Fin.ext ((val_place_lower hroom).trans (Nat.add_sub_of_le hx))
    have hsorted := h.swept₁.sorted (p - rangeLo block lead) (p' - rangeLo block lead) (by omega)
      (by omega)
    rwa [← h.get_lower (by omega), ← h.get_lower (by omega), hplace (x := a) hlo (hpp.trans hstop),
      hplace (x := a') (hlo.trans hpp.le) hstop] at hsorted
  by_cases hgreater : Leaves block lead (lead.toNat < ·) (w.get a)
  · have hfirst : rangeHi block lead - j₂ ≤ p := h.first_le ha (p := a) hp hgreater
    have hplace {x : Fin block.size} (hx : x < rangeHi block lead) :
        (upperSide block lead h₀).place (rangeHi block lead - 1 - x) = x :=
      Fin.ext (val_place_upper.trans (by omega))
    have hsorted := h.swept₂.sorted (rangeHi block lead - 1 - p') (rangeHi block lead - 1 - p) (by omega)
      (by omega)
    rw [hplace (x := a) (hpp.trans hhi), hplace (x := a') hhi] at hsorted
    exact hsorted
  · exact endless_le_of_leaves hgreater hless

/-- **The two fills meet**, if not all bytes are the leading one. -/
theorem meet (h : BothSwept block lead h₀ j₁ j₂ index w₁ w) (ha : Arranged block index)
    (hsome : ∃ p, byteAt block p ≠ lead.toNat) :
    rangeLo block lead + j₁ = rangeHi block lead - j₂ := by
  have hle := h.add_le
  have hbounds := range_bounds block lead
  by_contra hne
  -- A rotation between them would leave the leading byte on neither side.
  let p : Fin block.size := ⟨rangeLo block lead + j₁, by omega⟩
  have hp : p.val ∈ rangeSpan block lead :=
    ⟨Nat.le_add_right _ _, show rangeLo block lead + j₁ < rangeHi block lead by omega⟩
  obtain ⟨q, hq⟩ := hsome
  refine hq (byteAt_eq_of_not_leaves (a := w.get p) (fun hless => ?_) (fun hgreater => ?_) q)
  · exact absurd (h.lt_stop ha hp hless) (Nat.lt_irrefl _)
  · have hfirst : rangeHi block lead - j₂ ≤ rangeLo block lead + j₁ := h.first_le ha hp hgreater
    omega

/-- The places that were filled are those of the twin group. -/
theorem stop_bounds (h : BothSwept block lead h₀ j₁ j₂ index w₁ w) :
    twinLo block lead ≤ rangeLo block lead + j₁ ∧ rangeHi block lead - j₂ ≤ twinHi block lead := by
  have hbounds := range_bounds block lead
  have hlower : twinLo block lead - rangeLo block lead ≤ j₁ := h.swept₁.outer_le
  have hupper : rangeHi block lead - twinHi block lead ≤ j₂ := h.swept₂.outer_le
  omega

end BothSwept

end BlockPress.Rotation
