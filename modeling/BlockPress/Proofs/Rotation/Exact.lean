import BlockPress.Proofs.Rotation.Sorted

/-!
# Groups that are filled without comparing

A visit reads the index while it writes into it: the twin group is filled from its own first entries on,
and the groups before the range take the places of what stood there.  Still **no group ever loses a
rotation or lists one twice, and what is settled is in order** (`Progress.Sound.exactVisit`): the two fills
of the twin group meet inside it, and the next place of each group that is seated comes to its end.

The one exception is a block of one byte that is repeated.  All of its rotations are twins, so there is
nothing to fill from, and the twin group stays as it is.
-/

namespace BlockPress.Rotation

open Sorting
open scoped Standard

theorem pair_lt_succ (a b : UInt8) : pair a b < groupCount + 1 := Nat.lt_succ_of_lt (pair_lt a b)

theorem pair_succ_lt (a b : UInt8) : pair a b + 1 < groupCount + 1 := Nat.succ_lt_succ (pair_lt a b)

namespace GroupTable

/-- The first place of the group of two bytes. -/
def groupStart (starts : GroupTable) (a b : UInt8) : ℕ := getElem starts (pair a b) (pair_lt_succ a b)

/-- The place behind the group of two bytes. -/
def groupStop (starts : GroupTable) (a b : UInt8) : ℕ := getElem starts (pair a b + 1) (pair_succ_lt a b)

/-- The part of an index that a table gives to the group of two bytes. -/
def part {n : ℕ} (starts : GroupTable) (a b : UInt8) (index : Vector (Fin n) n) : List (Fin n) :=
  (index.toArray.extract (starts.groupStart a b) (starts.groupStop a b)).toList

end GroupTable

/-- The rotations that start with two bytes, each once. -/
structure Exact (block : ByteArray) (a b : UInt8) (part : List (Fin block.size)) : Prop where
  /-- No rotation is listed twice. -/
  nodup : part.Nodup
  /-- None is missing, and there are no others. -/
  mem_iff : ∀ o : Fin block.size,
    o ∈ part ↔ byteAt block o = a.toNat ∧ byteAt block (o + 1) = b.toNat

/-- No rotation is greater than a later one. -/
def InOrder (block : ByteArray) (part : List (Fin block.size)) : Prop :=
  part.Pairwise fun o o' : Fin block.size => compare block o o' ≠ .gt

/-- What a visit to a byte finds, what its two fills leave behind, and what it makes of that. -/
structure ExactVisit (block : ByteArray) [NeZero block.size] (starts : GroupTable) (lead : UInt8)
    (p : Progress block.size) : Prop where
  /-- Every group holds its rotations. -/
  groups : ∀ a b, Exact block a b (starts.part a b p.index)
  /-- Settled groups are in order. -/
  settled : ∀ a b, Settled p.settled a b → InOrder block (starts.part a b p.index)
  /-- The fills of the twin group meet in it. -/
  met : (∃ o, byteAt block o ≠ lead.toNat) →
    (filling block starts lead p).stop = (filling block starts lead p).first ∧
      starts.groupStart lead lead ≤ (filling block starts lead p).stop ∧
      (filling block starts lead p).stop ≤ starts.groupStop lead lead
  /-- If there are no other bytes, the twin group is the whole index and stays as it is. -/
  steady : (∀ o, byteAt block o = lead.toNat) →
    starts.groupStart lead lead = 0 ∧ starts.groupStop lead lead = block.size ∧
      filling block starts lead p = ⟨(sortGroups starts lead p).index, 0, block.size⟩
  /-- The twin group holds its rotations, in order. -/
  twins : Exact block lead lead (starts.part lead lead (filling block starts lead p).index) ∧
    InOrder block (starts.part lead lead (filling block starts lead p).index)
  /-- The next place of a group that is seated comes to its end, and the group holds its rotations, in
  order. -/
  seeded : ∀ c, Unvisited p.visited c → c ≠ lead →
    getElem (seeding block starts lead p).1 c.toNat c.toNat_lt = starts.groupStop c lead ∧
      Exact block c lead (starts.part c lead (seeding block starts lead p).2) ∧
      InOrder block (starts.part c lead (seeding block starts lead p).2)
  /-- The visit leaves the index behind that, and tags for the range as it stood before groups were seated. -/
  visit_eq : ∀ isLast, visit block starts isLast lead p =
    { index := (seeding block starts lead p).2
      keys := if isLast then (sortGroups starts lead p).keys
        else (sortGroups starts lead p).keys.tag lead ((filling block starts lead p).index.toArray.extract
          (starts.rangeStart lead) (starts.rangeStop lead))
      settled := settleAll (settle (sortGroups starts lead p).settled lead lead) lead
      visited := (sortGroups starts lead p).visited.set lead.toNat true lead.toNat_lt }

section Visit

variable {block : ByteArray} {starts : GroupTable} {index : Vector (Fin block.size) block.size}
  {lead : UInt8}

/-! ## The parts of an index -/

theorem Starts.groupStart_eq (hstarts : Starts block starts) (a b : UInt8) :
    starts.groupStart a b = (slice block (pair a b)).lo := hstarts _ _

theorem Starts.groupStop_eq (hstarts : Starts block starts) (a b : UInt8) :
    starts.groupStop a b = (slice block (pair a b)).hi := hstarts _ _

theorem Starts.part_eq (hstarts : Starts block starts) (a b : UInt8) :
    starts.part a b index = (slice block (pair a b)).listed index := by
  rw [GroupTable.part, hstarts.groupStart_eq, hstarts.groupStop_eq]
  rfl

/-- **In an arranged index every group holds its rotations.** -/
theorem Arranged.exact (ha : Arranged block index) (hstarts : Starts block starts) (a b : UInt8) :
    Exact block a b (starts.part a b index) where
  nodup := hstarts.part_eq a b ▸ Span.nodup_listed ha.injective
  mem_iff o := by
    rw [hstarts.part_eq, Span.mem_listed_iff_of_surjective
      (P := fun o => groupAt block o = pair a b) ha.surjective fun p => ha.mem_slice_iff p,
      groupAt_eq_pair_iff]

theorem Starts.inOrder (hstarts : Starts block starts) {a b : UInt8}
    (hs : SortedOn (endless block) (slice block (pair a b)) index) :
    InOrder block (starts.part a b index) := by
  rw [InOrder, hstarts.part_eq]
  exact hs.pairwise_listed.imp compare_ne_gt_iff.mpr

/-! ## One byte that is repeated -/

theorem twinLo_eq_zero (hsteady : ∀ o, byteAt block o = lead.toNat) : twinLo block lead = 0 :=
  Nat.count_iff_forall_not.mpr fun o _ hlt => absurd hlt
    (groupAt_eq_pair_iff.mpr ⟨hsteady o, hsteady (o + 1)⟩).not_lt

theorem twinHi_eq_size (hsteady : ∀ o, byteAt block o = lead.toNat) :
    twinHi block lead = block.size :=
  Counting.below_eq fun o _ => Nat.lt_succ_of_le
    (groupAt_eq_pair_iff.mpr ⟨hsteady o, hsteady (o + 1)⟩).le

/-! ## Visits -/

variable [NeZero block.size] {p : Progress block.size}

/-- Where there are other bytes, the fills of the twin group meet in it. -/
theorem Progress.Sound.filling_meet (h : p.Sound) (hstarts : Starts block starts)
    (hsome : ∃ o, byteAt block o ≠ lead.toNat) :
    (filling block starts lead p).stop = (filling block starts lead p).first ∧
      twinLo block lead ≤ (filling block starts lead p).stop ∧
      (filling block starts lead p).stop ≤ twinHi block lead := by
  obtain ⟨j₁, j₂, w₁, hboth, hstop, hfirst⟩ :=
    h.bothSwept hstarts lead (Nat.pos_of_ne_zero (NeZero.ne _))
  have hmeet := hboth.meet (h.sortGroups hstarts lead).1.arranged hsome
  obtain ⟨hle, hge⟩ := hboth.stop_bounds
  rw [hstop, hfirst]
  exact ⟨hmeet, hle, hmeet.trans_le hge⟩

/-- Where there are none, neither fill does anything. -/
theorem Progress.Sound.filling_of_steady (h : p.Sound) (hstarts : Starts block starts)
    (hsteady : ∀ o, byteAt block o = lead.toNat) :
    filling block starts lead p = ⟨(Rotation.sortGroups starts lead p).index, 0, block.size⟩ := by
  obtain ⟨j₁, j₂, w₁, hboth, hstop, hfirst⟩ :=
    h.bothSwept hstarts lead (Nat.pos_of_ne_zero (NeZero.ne _))
  have hlow := twinLo_eq_zero hsteady
  have hhigh := twinHi_eq_size hsteady
  have hbounds := range_bounds block lead
  obtain ⟨rfl, rfl⟩ := hboth.filled_of_steady hsteady
  have hindex : (filling block starts lead p).index = (Rotation.sortGroups starts lead p).index :=
    Vector.ext fun i hi => hboth.get_eq_of_steady hsteady ⟨i, hi⟩
  generalize filling block starts lead p = f at *
  obtain ⟨w, stop, first⟩ := f
  obtain rfl : w = _ := hindex
  obtain rfl : stop = 0 := by
    have : stop = rangeLo block lead + (twinLo block lead - rangeLo block lead) := hstop
    omega
  obtain rfl : first = block.size := by
    have : first = rangeHi block lead - (rangeHi block lead - twinHi block lead) := hfirst
    omega
  rfl

/-- **A visit fills the groups that it should with what they should hold.** -/
theorem Progress.Sound.exactVisit (h : p.Sound) (hstarts : Starts block starts) (lead : UInt8) :
    ExactVisit block starts lead p := by
  obtain ⟨ha, hrange⟩ := h.filled hstarts lead
  have hseeded := h.seeded hstarts lead
  refine {
    groups := h.arranged.exact hstarts
    settled := fun a b hab => hstarts.inOrder (h.sorted a b hab)
    met := fun hsome => ?met
    steady := fun hsteady => ?steady
    twins := ⟨ha.exact hstarts lead lead, hstarts.inOrder (hrange.mono (slice_subset _ _))⟩
    seeded := fun c hc hne => ?seeded
    visit_eq := fun isLast => Rotation.visit_eq isLast lead }
  case met =>
    rw [hstarts.groupStart_eq, hstarts.groupStop_eq]
    exact h.filling_meet hstarts hsome
  case steady =>
    rw [hstarts.groupStart_eq, hstarts.groupStop_eq]
    exact ⟨twinLo_eq_zero hsteady, twinHi_eq_size hsteady, h.filling_of_steady hstarts hsteady⟩
  case seeded =>
    have hvisited := (h.sortGroups hstarts lead).2.1
    have hopen : Unvisited ((Rotation.sortGroups starts lead p).visited.set lead.toNat true
        lead.toNat_lt) c := unvisited_set_iff.mpr ⟨hne.symm, hvisited.symm ▸ hc⟩
    exact ⟨(hseeded.next_eq ha hopen).trans (hstarts.groupStop_eq c lead).symm,
      (hseeded.arranged ha).exact hstarts c lead, hstarts.inOrder (hseeded.sortedOn ha hrange hopen)⟩

end Visit

/-! ## From visit to visit -/

theorem neZero_of_groupedSize_le {block : ByteArray} (h : groupedSize ≤ block.size) :
    NeZero block.size := ⟨Nat.ne_of_gt (Nat.lt_of_lt_of_le (by decide) h)⟩

/-- The state when the first bytes of the order were visited. -/
def visits (block : ByteArray) [NeZero block.size] (starts : GroupTable) (p : Progress block.size)
    (i : ℕ) : Progress block.size :=
  ((List.finRange 256).take i).foldl
    (fun p i => visit block starts (i.val == 255) ((visitOrder starts).get i) p) p

section Visits

variable {block : ByteArray} [NeZero block.size] {starts : GroupTable} {p : Progress block.size}

theorem visits_succ (i : Fin 256) : visits block starts p (i + 1) =
    visit block starts (i.val == 255) ((visitOrder starts).get i) (visits block starts p i) := by
  have hi : i.val < (List.finRange 256).length := i.isLt.trans_eq List.length_finRange.symm
  rw [visits, List.take_succ_eq_append_getElem hi, List.foldl_append, List.getElem_finRange,
    List.foldl_cons, List.foldl_nil, Fin.cast_mk, Fin.eta, visits]

theorem visits_all : visits block starts p 256 = visitAll block starts p :=
  (finFoldl_invariant (fun i q => q = visits block starts p i) rfl fun i q hq => by
    rw [hq, visits_succ]).symm

theorem Progress.Sound.visits (h : p.Sound) (hn : wrapSize ≤ block.size)
    (hstarts : Starts block starts) {i : ℕ} (hi : i ≤ 256) : (visits block starts p i).Sound := by
  induction i with
  | zero => exact h
  | succ i ih =>
    rw [visits_succ ⟨i, hi⟩]
    exact ((ih (Nat.le_of_succ_le hi)).visit hn hstarts _ _).1

end Visits

namespace Sorter

/-- The table of groups, and the state before the first visit. -/
def presort (block : ByteArray) (h : groupedSize ≤ block.size) (s : Sorter) :
    GroupTable × Progress block.size :=
  let keys := KeyTable.build block h s.keys
  let (starts, index) := byGroups (keyGroup keys) s.starts
  (starts, {
    index
    keys
    settled := s.settled.map fun _ => false
    visited := Vector.replicate 256 false })

variable {block : ByteArray}

theorem sortByGroups_eq_visitAll (h : groupedSize ≤ block.size) (s : Sorter) [NeZero block.size] :
    s.sortByGroups block h =
      { index := (visitAll block (s.presort block h).1 (s.presort block h).2).index.toArray.map Fin.val
        starts := (s.presort block h).1
        settled := (visitAll block (s.presort block h).1 (s.presort block h).2).settled
        keys := (visitAll block (s.presort block h).1 (s.presort block h).2).keys.store } := by
  rw [sortByGroups, presort]

theorem starts_presort (h : groupedSize ≤ block.size) (s : Sorter) :
    Starts block (s.presort block h).1 := by
  have hsize : 0 < block.size := Nat.lt_of_lt_of_le (by decide) h
  simp only [presort, KeyTable.build_eq h hsize]
  exact starts_byGroups (val_keyGroup hsize) s.starts

theorem sound_presort (h : groupedSize ≤ block.size) (s : Sorter) :
    (s.presort block h).2.Sound := by
  have hsize : 0 < block.size := Nat.lt_of_lt_of_le (by decide) h
  simp only [presort, KeyTable.build_eq h hsize]
  exact sound_start hsize s.starts s.settled

/-- **Every visit is exact.** -/
theorem exactVisit (h : groupedSize ≤ block.size) (s : Sorter) [NeZero block.size] (i : Fin 256) :
    ExactVisit block (s.presort block h).1 ((visitOrder (s.presort block h).1).get i)
      (visits block (s.presort block h).1 (s.presort block h).2 i) :=
  ((s.sound_presort h).visits h (s.starts_presort h) i.isLt.le).exactVisit (s.starts_presort h) _

end Sorter

end BlockPress.Rotation
