import BlockPress.Proofs.Rotation.Filling

/-!
# The groups before a range

When the range of a byte is in order, so are the rotations that stand before those of the range: sorted
by their own first byte they keep the order of the range.  `seedFrom` gives each of them the next
place of its group, which is a counting sort once more.

Main statement: **`seedFrom` puts the groups it writes in order**, and leaves the index arranged
(`Seeded.arranged`, `Seeded.sortedOn`).
-/

namespace BlockPress.Rotation

open Sorting

variable {block : ByteArray} {lead : UInt8} {visited : Vector Bool 256}
  {index w : Vector (Fin block.size) block.size}

/-- The rotation before the one at a place of the range starts with a byte. -/
def Precedes (block : ByteArray) (lead c : UInt8) (index : Vector (Fin block.size) block.size)
    (q : ℕ) : Prop :=
  ∃ h : q < block.size, q ∈ rangeSpan block lead ∧
    byteAt block (before (index.get ⟨q, h⟩)) = c.toNat

instance (q : ℕ) (s : Span block.size) : Decidable (q ∈ s) :=
  inferInstanceAs (Decidable (s.lo ≤ q ∧ q < s.hi))

instance (c : UInt8) : DecidablePred (Precedes block lead c index) := fun q =>
  inferInstanceAs (Decidable (∃ h : q < block.size, q ∈ rangeSpan block lead ∧
    byteAt block (before (index.get ⟨q, h⟩)) = c.toNat))

/-- The place in its group for what stands before the rotation at a place of the range. -/
def seat (block : ByteArray) (lead c : UInt8) (index : Vector (Fin block.size) block.size) (q : ℕ) :
    ℕ :=
  startOf block (pair c lead) + Nat.count (Precedes block lead c index) q

/-- The byte was not visited. -/
def Unvisited (visited : Vector Bool 256) (c : UInt8) : Prop :=
  have := c.toNat_lt
  visited[c.toNat] = false

/-- What `seedFrom` has done when it has come up to `p`. -/
structure Seeded (block : ByteArray) (lead : UInt8) (visited : Vector Bool 256)
    (index : Vector (Fin block.size) block.size) (p : ℕ) (places : Vector Nat 256)
    (w : Vector (Fin block.size) block.size) : Prop where
  /-- The next place of each group. -/
  next : ∀ c : UInt8, Unvisited visited c →
    getElem places c.toNat c.toNat_lt = seat block lead c index p
  /-- What stands before the rotations of the range up to `p` is in its place. -/
  seated : ∀ c : UInt8, Unvisited visited c → ∀ q < p, ∀ h : Precedes block lead c index q,
    ∃ x : Fin block.size, x.val = seat block lead c index q ∧ w.get x = before (index.get ⟨q, h.1⟩)
  /-- The other groups were not touched. -/
  frame : ∀ x : Fin block.size, (∀ c : UInt8, Unvisited visited c → x.val ∉ slice block (pair c lead)) →
    w.get x = index.get x

theorem before_group (ha : Arranged block index) {c : UInt8} {q : ℕ}
    (h : Precedes block lead c index q) :
    groupAt block (before (index.get ⟨q, h.1⟩)) = pair c lead := by
  have hsecond := (ha.mem_rangeSpan_iff ⟨q, h.1⟩).mp h.2.1
  exact groupAt_eq_pair_iff.mpr ⟨h.2.2, (byteAt_before_add_one _).trans hsecond⟩

/-- **There are as many places as rotations to be seated.** -/
theorem count_precedes_le (ha : Arranged block index) (c : UInt8) :
    Nat.count (Precedes block lead c index) block.size ≤
      Nat.count (groupAt block · = pair c lead) block.size := by
  rw [Nat.count_eq_card_filter_range, Nat.count_eq_card_filter_range]
  refine Finset.card_le_card_of_injOn
    (fun q => if h : q < block.size then (before (index.get ⟨q, h⟩)).val else q)
    (fun q hq => ?_) fun q hq q' hq' heq => ?_
  · obtain ⟨-, h⟩ := Finset.mem_filter.mp hq
    simp only [dif_pos h.1]
    exact Finset.mem_filter.mpr ⟨Finset.mem_range.mpr (Fin.isLt _), before_group ha h⟩
  · obtain ⟨-, h⟩ := Finset.mem_filter.mp hq
    obtain ⟨-, h'⟩ := Finset.mem_filter.mp hq'
    simp only [dif_pos h.1, dif_pos h'.1] at heq
    exact congrArg Fin.val (ha.injective (before_injective (Fin.ext heq)))

theorem seat_mem (ha : Arranged block index) {c : UInt8} {q : ℕ}
    (h : Precedes block lead c index q) : seat block lead c index q ∈ slice block (pair c lead) := by
  refine ⟨Nat.le_add_right _ _, ?_⟩
  change seat block lead c index q < startOf block (pair c lead + 1)
  rw [seat, startOf, startOf, Counting.below_succ]
  exact Nat.add_lt_add_left ((Nat.count_strict_mono h h.1).trans_le (count_precedes_le ha c)) _

theorem seat_lt {c : UInt8} {q q' : ℕ} (h : Precedes block lead c index q) (hqq : q < q') :
    seat block lead c index q < seat block lead c index q' :=
  Nat.add_lt_add_left (Nat.count_strict_mono h hqq) _

theorem seat_succ_of_not {c : UInt8} {p : ℕ} (h : ¬Precedes block lead c index p) :
    seat block lead c index (p + 1) = seat block lead c index p := by
  rw [seat, Nat.count_succ, if_neg h, Nat.add_zero, seat]

theorem precedes_unique {c c' : UInt8} {q : ℕ} (h : Precedes block lead c index q)
    (h' : Precedes block lead c' index q) : c = c' :=
  UInt8.toNat_inj.mp (h.2.2.symm.trans h'.2.2)

theorem slice_unique (ha : Arranged block index) {c c' : UInt8} {x : ℕ}
    (h : x ∈ slice block (pair c lead)) (h' : x ∈ slice block (pair c' lead)) : c = c' := by
  have hgroup := (ha.mem_slice_iff ⟨x, Span.lt_of_mem h⟩).mp h
  rw [(ha.mem_slice_iff ⟨x, Span.lt_of_mem h⟩).mp h', pair, pair] at hgroup
  exact UInt8.toNat_inj.mp (by omega)

/-! ## The loop -/

namespace Seeded

variable {p : ℕ} {places : Vector Nat 256}

theorem start {starts : GroupTable} (hstarts : Starts block starts) :
    Seeded block lead visited index (rangeLo block lead) (firstPlaces starts lead) index where
  next c _ := by
    have hnone : Nat.count (Precedes block lead c index) (rangeLo block lead) = 0 :=
      Nat.count_iff_forall_not.mpr fun q hq h => absurd h.2.1.1 (Nat.not_le.mpr hq)
    have hbyte : c.toNat.toUInt8 = c := UInt8.ofNat_toNat
    rw [seat, hnone, firstPlaces, Vector.getElem_ofFn]
    simp only [hbyte]
    exact hstarts _ _
  seated c _ q hq h := absurd h.2.1.1 (Nat.not_le.mpr hq)
  frame _ _ := rfl

/-- The range itself is not touched. -/
theorem get_range (ha : Arranged block index) (hlead : ¬Unvisited visited lead)
    (h : Seeded block lead visited index p places w) {x : Fin block.size}
    (hx : x.val ∈ rangeSpan block lead) : w.get x = index.get x := by
  refine h.frame x fun c hc hslice => hlead ?_
  have hfirst := (ha.mem_rangeSpan_iff x).mp hx
  have hgroup := (ha.mem_slice_iff x).mp hslice
  rw [groupAt_eq_pair_iff] at hgroup
  obtain rfl : c = lead := UInt8.toNat_inj.mp (hgroup.1.symm.trans hfirst)
  exact hc

/-- A rotation behind one that starts with a visited byte is passed over. -/
theorem skip (h : Seeded block lead visited index p places w)
    (hnot : ∀ c, Unvisited visited c → ¬Precedes block lead c index p) :
    Seeded block lead visited index (p + 1) places w where
  next c hc := by rw [seat_succ_of_not (hnot c hc), h.next c hc]
  seated c hc q hq hprec := by
    obtain hq | rfl := Nat.lt_or_eq_of_le (Nat.le_of_lt_succ hq)
    · exact h.seated c hc q hq hprec
    · exact absurd hprec (hnot c hc)
  frame := h.frame

/-- Another one takes the next place. -/
theorem take (ha : Arranged block index) (h : Seeded block lead visited index p places w) {c : UInt8}
    (hc : Unvisited visited c) (hprec : Precedes block lead c index p) :
    Seeded block lead visited index (p + 1)
      (places.set c.toNat ((getElem places c.toNat c.toNat_lt) + 1) c.toNat_lt)
      (w.setIfInBounds (getElem places c.toNat c.toNat_lt) (before (index.get ⟨p, hprec.1⟩))) := by
  have hplace := h.next c hc
  have hmem := seat_mem ha hprec
  have hset := setIfInBounds_eq (v := w) (p := ⟨_, Span.lt_of_mem hmem⟩) hplace.symm
    (before (index.get ⟨p, hprec.1⟩))
  rw [hset]
  refine ⟨fun c' hc' => ?_, fun c' hc' q hq hprec' => ?_, fun x hx => ?_⟩
  · rw [Vector.getElem_set]
    split
    · next heq =>
      obtain rfl : c = c' := UInt8.toNat_inj.mp heq
      rw [hplace, seat, seat, Nat.count_succ, if_pos hprec, Nat.add_assoc]
    · next hne =>
      rw [seat_succ_of_not fun h' => hne (congrArg UInt8.toNat (precedes_unique hprec h')),
        h.next c' hc']
  · obtain hq | rfl := Nat.lt_or_eq_of_le (Nat.le_of_lt_succ hq)
    · obtain ⟨x, hx, hget⟩ := h.seated c' hc' q hq hprec'
      refine ⟨x, hx, ?_⟩
      rw [get_set, if_neg ?_, hget]
      rintro rfl
      have hmem' := seat_mem ha hprec'
      change seat block lead c index p = _ at hx
      obtain rfl : c = c' := slice_unique ha hmem (hx ▸ hmem')
      exact absurd hx (seat_lt hprec' hq).ne'
    · obtain rfl := precedes_unique hprec hprec'
      exact ⟨_, rfl, by rw [get_set, if_pos rfl]⟩
  · rw [get_set, if_neg ?_]
    · exact h.frame x hx
    · rintro rfl
      exact hx c hc hmem

end Seeded

/-- **Going through the range seats all that comes before it.** -/
theorem seeded_seedFrom (ha : Arranged block index) (hlead : ¬Unvisited visited lead) {p : ℕ}
    {places : Vector Nat 256} (hlo : rangeLo block lead ≤ p)
    (hhi : p ≤ rangeHi block lead) (h : Seeded block lead visited index p places w) :
    Seeded block lead visited index (rangeHi block lead)
      (seedFrom block visited (rangeHi block lead) p places w).1
      (seedFrom block visited (rangeHi block lead) p places w).2 := by
  fun_induction seedFrom block visited (rangeHi block lead) p places w with
  | case1 p places w hlt _ k _ c hvisited ih =>
    have hmem : p ∈ rangeSpan block lead := ⟨hlo, hlt.1⟩
    have hk : k = before (index.get ⟨p, hlt.2⟩) :=
      congrArg before (h.get_range ha hlead (x := ⟨p, hlt.2⟩) hmem)
    refine ih (by omega) hlt.1 (h.skip fun c' hc' hprec => ?_)
    have hbyte : c = c'.toNat := (toNat_getElem k.isLt).trans (hk ▸ hprec.2.2)
    simp only [Unvisited, ← hbyte] at hc'
    rw [hc'] at hvisited
    exact absurd hvisited (by decide)
  | case2 p places w hlt _ k _ c hvisited place ih =>
    have hmem : p ∈ rangeSpan block lead := ⟨hlo, hlt.1⟩
    have hk : k = before (index.get ⟨p, hlt.2⟩) :=
      congrArg before (h.get_range ha hlead (x := ⟨p, hlt.2⟩) hmem)
    have hprec : Precedes block lead block[k] index p :=
      ⟨hlt.2, hmem, by rw [← hk]; exact (toNat_getElem k.isLt).symm⟩
    have htake := h.take ha (Bool.eq_false_iff.mpr hvisited) hprec
    rw [← hk] at htake
    exact ih (by omega) hlt.1 htake
  | case3 p places w hge =>
    have hle : rangeHi block lead ≤ block.size := startOf_le block _
    obtain rfl : p = rangeHi block lead := by omega
    exact h

/-! ## When the range is through -/

namespace Seeded

variable {places : Vector Nat 256}

/-- Every rotation before one of the range is seated. -/
theorem exists_seat (ha : Arranged block index)
    (h : Seeded block lead visited index (rangeHi block lead) places w) {a : Fin block.size} {c : UInt8}
    (hc : Unvisited visited c) (hgroup : groupAt block a = pair c lead) :
    ∃ q, ∃ hq : Precedes block lead c index q, before (index.get ⟨q, hq.1⟩) = a ∧
      ∃ x : Fin block.size, x.val = seat block lead c index q ∧ w.get x = a := by
  obtain ⟨hfirst, hsecond⟩ := groupAt_eq_pair_iff.mp hgroup
  obtain ⟨b, rfl⟩ := before_surjective a
  obtain ⟨q, rfl⟩ := ha.surjective b
  have hmem := (ha.mem_rangeSpan_iff q).mpr ((byteAt_before_add_one _).symm.trans hsecond)
  have hprec : Precedes block lead c index q := ⟨q.isLt, hmem, hfirst⟩
  exact ⟨q, hprec, rfl, h.seated c hc q hmem.2 hprec⟩

theorem arranged (ha : Arranged block index)
    (h : Seeded block lead visited index (rangeHi block lead) places w) : Arranged block w := by
  refine Arranged.of_slices fun a => ?_
  by_cases hopen : ∃ c, Unvisited visited c ∧ groupAt block a = pair c lead
  · obtain ⟨c, hc, hgroup⟩ := hopen
    obtain ⟨q, hq, -, x, hx, hget⟩ := h.exists_seat ha hc hgroup
    refine ⟨x, ?_, hget⟩
    rw [hx, hgroup]
    exact seat_mem ha hq
  · obtain ⟨x, rfl⟩ := ha.surjective a
    have hframe : w.get x = index.get x := h.frame x fun c hc hx =>
      hopen ⟨c, hc, (ha.mem_slice_iff x).mp hx⟩
    exact ⟨x, (ha.mem_slice_iff x).mpr rfl, hframe⟩

/-- **The next place of a group comes to its end.** -/
theorem next_eq (ha : Arranged block index)
    (h : Seeded block lead visited index (rangeHi block lead) places w) {c : UInt8}
    (hc : Unvisited visited c) :
    getElem places c.toNat c.toNat_lt = startOf block (pair c lead + 1) := by
  have hcount : Nat.count (Precedes block lead c index) (rangeHi block lead) ≤
      Nat.count (groupAt block · = pair c lead) block.size :=
    (Nat.count_monotone _ (startOf_le block _)).trans (count_precedes_le ha c)
  have hstop : startOf block (pair c lead + 1) =
      startOf block (pair c lead) + Nat.count (groupAt block · = pair c lead) block.size :=
    Counting.below_succ _ _ _
  have hle : seat block lead c index (rangeHi block lead) ≤ startOf block (pair c lead + 1) := by
    rw [seat, hstop]
    exact Nat.add_le_add_left hcount _
  rw [h.next c hc]
  refine Nat.le_antisymm hle (Nat.not_lt.mp fun hlt => ?_)
  -- A place that is left over would be that of a rotation before the range.
  have hmem : seat block lead c index (rangeHi block lead) ∈ slice block (pair c lead) :=
    ⟨Nat.le_add_right _ _, hlt⟩
  let x : Fin block.size := ⟨_, Span.lt_of_mem hmem⟩
  obtain ⟨q, hq, -, y, hy, hget⟩ :=
    h.exists_seat ha hc (((h.arranged ha).mem_slice_iff x).mp hmem)
  have hseat : seat block lead c index q = seat block lead c index (rangeHi block lead) :=
    hy.symm.trans (congrArg Fin.val ((h.arranged ha).injective hget))
  exact absurd hseat (seat_lt hq hq.2.1.2).ne

/-- **A group that was seated is in order.** -/
theorem sortedOn (ha : Arranged block index)
    (hs : SortedOn (endless block) (rangeSpan block lead) index)
    (h : Seeded block lead visited index (rangeHi block lead) places w) {c : UInt8}
    (hc : Unvisited visited c) : SortedOn (endless block) (slice block (pair c lead)) w := by
  have hw := h.arranged ha
  intro x x' hx hx' hxx
  obtain ⟨q, hq, hget, y, hy, hy'⟩ := h.exists_seat ha hc
    ((hw.mem_slice_iff ⟨x, Span.lt_of_mem hx⟩).mp hx)
  obtain ⟨q', hq', hget', y', hz, hz'⟩ := h.exists_seat ha hc
    ((hw.mem_slice_iff ⟨x', Span.lt_of_mem hx'⟩).mp hx')
  have hval : x = seat block lead c index q := (congrArg Fin.val (hw.injective hy')).symm.trans hy
  have hval' : x' = seat block lead c index q' := (congrArg Fin.val (hw.injective hz')).symm.trans hz
  have hqq : q < q' := by
    by_contra hle
    obtain hlt | rfl := Nat.lt_or_eq_of_le (Nat.not_lt.mp hle)
    · have := seat_lt hq' hlt
      omega
    · omega
  change endless block (w.get ⟨x, _⟩) ≤ endless block (w.get ⟨x', _⟩)
  rw [← hget, ← hget']
  exact endless_before_le (hq.2.2.trans hq'.2.2.symm) (hs q q' hq.2.1 hq'.2.1 hqq)

/-- A group that was not seated stays as it is. -/
theorem sortedOn_of_frame {p : ℕ} (h : Seeded block lead visited index p places w) {s : Span block.size}
    (hs : SortedOn (endless block) s index)
    (hframe : ∀ c, Unvisited visited c → s.Apart (slice block (pair c lead))) :
    SortedOn (endless block) s w :=
  hs.congr fun x hx => h.frame ⟨x, Span.lt_of_mem hx⟩ fun c hc => hframe c hc x hx

end Seeded

end BlockPress.Rotation
