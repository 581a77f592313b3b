import BlockPress.Proofs.Guarded.Stack
import BlockPress.Proofs.Rotation.Exact

/-!
# The guarded sorter

A sorter checks its own work: that a block is long enough for its keys, that the starts of the groups
ascend, that the sorts of a group look at no word behind the block and do not outgrow their stacks, that the
fills of each twin group have met, that the next places of the groups that were seated have come to their
ends, and behind all that the index is a permutation.  A guarded sorter comes to nothing where one of these
checks fails.

Main statement: **every visit is exact, and so no check ever fails** (`Rotation.Sorter.sort_exact`).
-/

namespace BlockPress

open scoped Standard

namespace Guarded

open Rotation

/-! ## Permutations -/

/-- Whether a list names no position twice, and only those that were not seen before. -/
def allNew (seen : Array Bool) : List ℕ → Bool
  | [] => true
  | p :: ps => if h : p < seen.size then !seen[p] && allNew (seen.set p true) ps else false

/-- Whether an index is a permutation. -/
def isPermutation (index : Array ℕ) : Bool :=
  allNew (Array.replicate index.size false) index.toList

theorem allNew_iff {seen : Array Bool} {ps : List ℕ} :
    allNew seen ps = true ↔ ps.Nodup ∧ ∀ p ∈ ps, seen[p]? = some false := by
  induction ps generalizing seen with
  | nil => simp [allNew]
  | cons p ps ih =>
    rw [allNew, List.nodup_cons, List.forall_mem_cons]
    split
    · next hp =>
      have hset (q : ℕ) : (seen.set p true)[q]? = some false ↔ q ≠ p ∧ seen[q]? = some false := by
        rw [Array.getElem?_set]
        split
        · next heq => simp [heq]
        · next hne => simp [Ne.symm hne]
      simp only [Bool.and_eq_true, Bool.not_eq_true', ih, hset, Array.getElem?_eq_getElem hp,
        Option.some.injEq]
      constructor
      · rintro ⟨hseen, hnodup, hall⟩
        exact ⟨⟨fun hmem => (hall p hmem).1 rfl, hnodup⟩, hseen, fun q hq => (hall q hq).2⟩
      · rintro ⟨⟨hnot, hnodup⟩, hseen, hall⟩
        exact ⟨hseen, hnodup, fun q hq => ⟨fun heq => hnot (heq ▸ hq), hall q hq⟩⟩
    · next hp => simp [Array.getElem?_eq_none (Nat.not_lt.mp hp)]

/-- **An index is a permutation if it names different positions of itself.** -/
theorem isPermutation_iff {index : Array ℕ} :
    isPermutation index = true ↔ index.toList.Nodup ∧ ∀ p ∈ index.toList, p < index.size := by
  simp [isPermutation, allNew_iff, Array.getElem?_replicate]

theorem isPermutation_of_listing {block : ByteArray} {index : Array ℕ} (h : Listing block index) :
    isPermutation index = true := by
  refine isPermutation_iff.mpr ⟨h.perm.nodup_iff.mpr List.nodup_range, fun p hp => ?_⟩
  rw [h.size_eq]
  exact List.mem_range.mp (h.perm.mem_iff.mp hp)

/-! ## Groups -/

section Groups

variable {n room : ℕ} [NeZero n] {starts : GroupTable}

/-- Sorts the group of two bytes, unless it is settled already. -/
def sortGroup (room : ℕ) (starts : GroupTable) (a b : UInt8) : Progress n → Option (Progress n)
  | ⟨index, keys, settled, visited⟩ =>
    if getElem settled (pair a b) (pair_lt a b) then some ⟨index, keys, settled, visited⟩
    else
      let lo := starts.groupStart a b
      let hi := starts.groupStop a b
      let settled := Rotation.settle settled a b
      if h : lo + 1 < hi ∧ hi ≤ n then
        (multikey room keys 2 ⟨lo, hi, Nat.le_of_succ_le (Nat.le_of_lt h.1), h.2⟩ index).map fun run =>
          ⟨run.entries, keys, settled, visited⟩
      else some ⟨index, keys, settled, visited⟩

theorem sortGroup_eq (hn : KeyTable.deepDepth ≤ n) (hroom : Fits room n) (a b : UInt8) (p : Progress n) :
    sortGroup room starts a b p = some (Rotation.sortGroup starts a b p) := by
  obtain ⟨index, keys, settled, visited⟩ := p
  rw [sortGroup, Rotation.sortGroup]
  split
  · rfl
  · dsimp only [GroupTable.groupStart, GroupTable.groupStop]
    split
    · next h =>
      rw [multikey_eq hn (hroom.mono (Span.size_le _)), Option.map_some]
    · rfl

/-- Sorts the groups of a leading byte other than the twin group. -/
def sortGroups (room : ℕ) (starts : GroupTable) (lead : UInt8) (p : Progress n) : Option (Progress n) :=
  Fin.foldl 256
    (fun p b => p.bind fun p =>
      if b.val.toUInt8 = lead then some p else sortGroup room starts lead b.val.toUInt8 p)
    (some p)

theorem sortGroups_eq (hn : KeyTable.deepDepth ≤ n) (hroom : Fits room n) (lead : UInt8)
    (p : Progress n) :
    sortGroups room starts lead p = some (Rotation.sortGroups starts lead p) := by
  refine finFoldl_bind_some (fun p b => ?_) p
  split
  · rfl
  · exact sortGroup_eq hn hroom _ _ p

end Groups

/-! ## Visits -/

/-- The two fills have met, or the twin group is the whole index and nothing was filled. -/
def Filled (n : ℕ) (fill twin range : ℕ × ℕ) : Prop :=
  fill.1 = fill.2 ∨ fill = range ∧ twin = range ∧ range.2 - range.1 = n

instance (n : ℕ) (fill twin range : ℕ × ℕ) : Decidable (Filled n fill twin range) :=
  inferInstanceAs (Decidable (_ ∨ _))

/-- The next place of each group that was to be seated is the place behind it. -/
def Closed (starts : GroupTable) (lead : UInt8) (visited : Vector Bool 256) (places : Vector ℕ 256) :
    Prop :=
  ∀ c : Fin 256, visited.get c = true ∨ places.get c = starts.groupStop c.val.toUInt8 lead

instance (starts : GroupTable) (lead : UInt8) (visited : Vector Bool 256) (places : Vector ℕ 256) :
    Decidable (Closed starts lead visited places) :=
  inferInstanceAs (Decidable (∀ _ : Fin 256, _ ∨ _))

section Visit

variable {room : ℕ} {block : ByteArray} [NeZero block.size] {starts : GroupTable} {lead : UInt8}
  {p : Progress block.size}

/-- Visits a leading byte.  Both fills are checked. -/
def visit (room : ℕ) (block : ByteArray) [NeZero block.size] (starts : GroupTable) (isLast : Bool)
    (lead : UInt8) (p : Progress block.size) : Option (Progress block.size) :=
  (sortGroups room starts lead p).bind fun p =>
  let lo := starts.rangeStart lead
  let hi := starts.rangeStop lead
  let twins := fillTwins block starts lead p.index
  require (Filled block.size (twins.stop, twins.first)
    (starts.groupStart lead lead, starts.groupStop lead lead) (lo, hi)) <|
  let visited := p.visited.set lead.toNat true lead.toNat_lt
  let seats := seedFrom block visited hi lo (firstPlaces starts lead) twins.index
  require (Closed starts lead visited seats.1) <|
  some {
    index := seats.2
    keys := if isLast then p.keys else p.keys.tag lead (twins.index.toArray.extract lo hi)
    settled := settleAll (Rotation.settle p.settled lead lead) lead
    visited }

theorem filled_of_exactVisit (hstarts : Starts block starts) (h : ExactVisit block starts lead p) :
    Filled block.size ((filling block starts lead p).stop, (filling block starts lead p).first)
      (starts.groupStart lead lead, starts.groupStop lead lead)
      (starts.rangeStart lead, starts.rangeStop lead) := by
  by_cases hsteady : ∀ o, byteAt block o = lead.toNat
  · obtain ⟨hfirst, hlast, hfill⟩ := h.steady hsteady
    have hlow := twinLo_eq_zero hsteady
    have hhigh := twinHi_eq_size hsteady
    have hbounds := range_bounds block lead
    have hrange : (starts.rangeStart lead, starts.rangeStop lead) = (0, block.size) :=
      Prod.ext ((hstarts _ _).trans (show rangeLo block lead = 0 by omega))
        ((hstarts _ _).trans (show rangeHi block lead = block.size by omega))
    rw [hfill, hfirst, hlast, hrange]
    exact .inr ⟨rfl, rfl, rfl⟩
  · exact .inl (h.met (not_forall.mp hsteady)).1

theorem closed_of_exactVisit (h : ExactVisit block starts lead p) :
    Closed starts lead ((Rotation.sortGroups starts lead p).visited.set lead.toNat true lead.toNat_lt)
      (seeding block starts lead p).1 := by
  intro c
  have hbyte : c.val.toUInt8.toNat = c.val := UInt8.toNat_ofNat_of_lt' c.isLt
  have hvisited : (Rotation.sortGroups starts lead p).visited = p.visited := visited_sortGroups lead
  by_cases hopen : Unvisited (p.visited.set lead.toNat true lead.toNat_lt) c.val.toUInt8
  · obtain ⟨hne, hc⟩ := unvisited_set_iff.mp hopen
    have hnext := (h.seeded _ hc hne.symm).1
    simp only [hbyte] at hnext
    exact .inr hnext
  · simp only [Unvisited, hbyte, Bool.not_eq_false] at hopen
    rw [hvisited]
    exact .inl hopen

theorem visit_eq (hn : KeyTable.deepDepth ≤ block.size) (hroom : Fits room block.size)
    (hstarts : Starts block starts) (h : ExactVisit block starts lead p) (isLast : Bool) :
    visit room block starts isLast lead p = some (Rotation.visit block starts isLast lead p) := by
  rw [visit, sortGroups_eq hn hroom, Option.bind_some, h.visit_eq]
  exact (require_eq (filled_of_exactVisit hstarts h) _).trans (require_eq (closed_of_exactVisit h) _)

/-- Visits all leading bytes. -/
def visitAll (room : ℕ) (block : ByteArray) [NeZero block.size] (starts : GroupTable)
    (p : Progress block.size) : Option (Progress block.size) :=
  Fin.foldl 256
    (fun p i => p.bind (visit room block starts (i.val == 255) ((visitOrder starts).get i))) (some p)

theorem visitAll_eq (hn : KeyTable.deepDepth ≤ block.size) (hroom : Fits room block.size)
    (hstarts : Starts block starts)
    (h : ∀ i : Fin 256, ExactVisit block starts ((visitOrder starts).get i) (visits block starts p i)) :
    visitAll room block starts p = some (Rotation.visitAll block starts p) := by
  rw [visitAll, ← visits_all]
  refine finFoldl_invariant (fun i q => q = some (visits block starts p i)) rfl fun i q hq => ?_
  rw [hq, Option.bind_some, visit_eq hn hroom hstarts (h i), visits_succ]

end Visit

/-! ## Sorting -/

/-- No group starts behind the next one. -/
def Ascending (starts : GroupTable) : Prop :=
  ∀ k, ∀ hk : k < groupCount, getElem starts k (Nat.lt_succ_of_lt hk) ≤ starts[k + 1]

instance (starts : GroupTable) : Decidable (Ascending starts) :=
  inferInstanceAs (Decidable (∀ k, ∀ _ : k < groupCount, _ ≤ _))

theorem ascending_of_starts {block : ByteArray} {starts : GroupTable} (h : Starts block starts) :
    Ascending starts := by
  intro k hk
  rw [h, h]
  exact startOf_mono (Nat.le_succ k)

/-- Builds the keys of a block that is long enough to have them. -/
def build (block : ByteArray) (store : KeyStore) : Option (KeyTable block.size) :=
  if h : wrapSize ≤ block.size then some (KeyTable.build block h store) else none

/-- Sorts the rotations of a longer block. -/
def sortByGroups (room : ℕ) (block : ByteArray) [NeZero block.size] (s : Sorter) : Option Sorter :=
  (build block s.keys).bind fun keys =>
  let groups := byGroups (keyGroup keys) s.starts
  require (Ascending groups.1) <|
  let start : Progress block.size :=
    ⟨groups.2, keys, s.settled.map fun _ => false, Vector.replicate 256 false⟩
  (visitAll room block groups.1 start).map fun p =>
    ⟨p.index.toArray.map Fin.val, groups.1, p.settled, p.keys.store⟩

/-- Sorts the rotations of a block, with stacks of limited room. -/
def sort (room : ℕ) (block : ByteArray) (s : Sorter) : Option Sorter :=
  (if h : groupedSize ≤ block.size then
    have := neZero_of_groupedSize_le h
    sortByGroups room block s
  else some (s.sortByInsertion block)).bind fun s =>
  require (isPermutation s.index = true) <| some s

end Guarded

namespace Rotation.Sorter

variable {block : ByteArray} {room : ℕ}

theorem guarded_sortByGroups_eq (hroom : Guarded.Fits room block.size) (h : groupedSize ≤ block.size)
    [NeZero block.size] (s : Sorter) :
    Guarded.sortByGroups room block s = some (s.sortByGroups block h) := by
  have hn : KeyTable.deepDepth ≤ block.size := Nat.le_trans (by decide) h
  have hwrap : wrapSize ≤ block.size := h
  have hstarts := s.starts_presort h
  have hall := Guarded.visitAll_eq hn hroom hstarts (s.exactVisit h)
  rw [sortByGroups_eq_visitAll, Guarded.sortByGroups, Guarded.build, dif_pos hwrap, Option.bind_some]
  rw [presort] at hstarts hall ⊢
  generalize byGroups _ _ = groups at *
  obtain ⟨starts, index⟩ := groups
  dsimp only at hstarts hall ⊢
  rw [Guarded.require_eq (Guarded.ascending_of_starts hstarts), hall, Option.map_some]

theorem guarded_sort_eq (block : ByteArray) (hroom : Guarded.Fits room block.size) (s : Sorter) :
    Guarded.sort room block s = some (s.sort block) := by
  have hperm := Guarded.isPermutation_of_listing (s.listing_sort block)
  rw [sort] at hperm
  rw [Guarded.sort, sort]
  split at hperm
  · next h =>
    rw [dif_pos h, dif_neg (Nat.not_le.mpr h), Option.bind_some, Guarded.require_eq hperm]
  · next h =>
    have := neZero_of_groupedSize_le (Nat.not_lt.mp h)
    rw [dif_neg h, dif_pos (Nat.not_lt.mp h), guarded_sortByGroups_eq hroom (Nat.not_lt.mp h),
      Option.bind_some, Guarded.require_eq hperm]

/-- **Every visit is exact**: before it the groups hold their rotations, the fills of the twin group meet, and
the groups that are seated are full and in order; what it leaves is made of just that, up to the index behind
the last visit.  **So no check of the sorter ever fails**, whatever the block, as long as its stacks have the
room that its size asks for, and up to 16 MiB they do. -/
theorem sort_exact (block : ByteArray) (s : Sorter) :
    (∀ h : groupedSize ≤ block.size,
      have := neZero_of_groupedSize_le h
      let starts := (s.presort block h).1
      let lead (i : Fin 256) := (visitOrder starts).get i
      let state := visits block starts (s.presort block h).2
      state 0 = (s.presort block h).2 ∧
      (∀ i : Fin 256, ExactVisit block starts (lead i) (state i) ∧
        state (i + 1) = visit block starts (i.val == 255) (lead i) (state i)) ∧
      (s.sort block).index = (state 256).index.toArray.map Fin.val) ∧
    (∀ room, Guarded.Fits room block.size → Guarded.sort room block s = some (s.sort block)) ∧
    (block.size ≤ Config.maxBlockSize → Guarded.sort Guarded.stackRoom block s = some (s.sort block)) := by
  refine ⟨fun h => ?_, fun room hroom => s.guarded_sort_eq block hroom, fun hsize => ?_⟩
  · have := neZero_of_groupedSize_le h
    refine ⟨rfl, fun i => ⟨s.exactVisit h i, visits_succ i⟩, ?_⟩
    rw [sort, dif_neg (Nat.not_lt.mpr h), sortByGroups_eq_visitAll, visits_all]
  · exact s.guarded_sort_eq block (Guarded.fits_stackRoom hsize)

/-- 64 bytes with pairs of twos before a one and before a three.  The visits to the three and to the one seat
the twos in front of them; in the visit to the two the rotation at 0 comes into the twin group from below and
the one at 3 from above, and the fills meet. -/
theorem sort_exact_twos :
    let block : ByteArray := ⟨Array.ofFn fun i : Fin 64 =>
      if i.val % 6 = 2 then 1 else if i.val % 6 = 5 then 3 else 2⟩
    (List.range 7).map (byteAt block) = [2, 2, 1, 2, 2, 3, 2] ∧ ∃ h : groupedSize ≤ block.size,
      have := neZero_of_groupedSize_le h
      let starts := (Sorter.fresh.presort block h).1
      let lead (i : Fin 256) := (visitOrder starts).get i
      let state := visits block starts (Sorter.fresh.presort block h).2
      (∀ i : Fin 256, ExactVisit block starts (lead i) (state i) ∧
        (filling block starts (lead i) (state i)).stop = (filling block starts (lead i) (state i)).first) ∧
      block.size ≤ Config.maxBlockSize ∧
      Guarded.sort Guarded.stackRoom block .fresh = some (Sorter.fresh.sort block) := by
  intro block
  have h : groupedSize ≤ block.size := by decide
  have := neZero_of_groupedSize_le h
  have hsize : block.size ≤ Config.maxBlockSize := by decide
  obtain ⟨hvisits, -, hguarded⟩ := sort_exact block Sorter.fresh
  obtain ⟨-, hexact, -⟩ := hvisits h
  have hsome (lead : UInt8) : ∃ o, byteAt block o ≠ lead.toNat := by
    by_contra hsteady
    rw [not_exists_not] at hsteady
    exact absurd ((hsteady 0).trans (hsteady 2).symm) (by decide)
  exact ⟨by decide, h, fun i => ⟨(hexact i).1, ((hexact i).1.met (hsome _)).1⟩, hsize, hguarded hsize⟩

end Rotation.Sorter

end BlockPress
