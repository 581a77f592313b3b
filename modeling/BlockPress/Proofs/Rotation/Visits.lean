import BlockPress.Proofs.Rotation.Multikey
import BlockPress.Proofs.Rotation.Seeding
import BlockPress.Proofs.Sorting.Listed

/-!
# Visiting the leading bytes

Between two visits the index is arranged, the keys are faithful, settled groups are in order, and all
groups of a visited byte are settled (`Progress.Sound`).  A visit keeps that and adds its byte, so
**when all bytes were visited the whole index is in order** (`sortedOn_visitAll`).
-/

namespace BlockPress.Rotation

open Sorting
open scoped Standard

variable {block : ByteArray}

theorem pair_injective {a b a' b' : UInt8} (h : pair a b = pair a' b') : a = a' ∧ b = b' := by
  have := b.toNat_lt
  have := b'.toNat_lt
  rw [pair, pair] at h
  exact ⟨UInt8.toNat_inj.mp (by omega), UInt8.toNat_inj.mp (by omega)⟩

/-- The group of two bytes is settled. -/
def Settled (settled : Vector Bool groupCount) (a b : UInt8) : Prop :=
  getElem settled (pair a b) (pair_lt a b) = true

theorem settled_settle_iff {settled : Vector Bool groupCount} {a b a' b' : UInt8} :
    Settled (settle settled a b) a' b' ↔ (a = a' ∧ b = b') ∨ Settled settled a' b' := by
  rw [Settled, settle, Vector.getElem_set]
  split
  · next heq => exact iff_of_true rfl (.inl (pair_injective heq))
  · next hne =>
    refine ⟨.inr, fun h => h.resolve_left ?_⟩
    rintro ⟨rfl, rfl⟩
    exact hne rfl

/-- What holds between two visits. -/
structure Progress.Sound (p : Progress block.size) : Prop where
  /-- Every rotation stands among those of its group. -/
  arranged : Arranged block p.index
  /-- The keys do not contradict the order of the rotations. -/
  faithful : p.keys.Faithful block
  /-- Settled groups are in order. -/
  sorted : ∀ a b, Settled p.settled a b → SortedOn (endless block) (slice block (pair a b)) p.index
  /-- The groups of a visited byte are settled. -/
  settled : ∀ a, ¬Unvisited p.visited a → ∀ b, Settled p.settled a b

/-! ## Sorting a group -/

/-- Putting a group in order by rearranging it settles it. -/
theorem Progress.Sound.of_group {p : Progress block.size} (h : p.Sound) {a b : UInt8}
    {w : Vector (Fin block.size) block.size} (hw : Rearranges (slice block (pair a b)) p.index w)
    (hs : SortedOn (endless block) (slice block (pair a b)) w) :
    Sound ⟨w, p.keys, settle p.settled a b, p.visited⟩ where
  arranged := h.arranged.rearrange hw
  faithful := h.faithful
  sorted a' b' hsettled := by
    by_cases heq : pair a' b' = pair a b
    · rw [heq]
      exact hs
    · obtain ⟨rfl, rfl⟩ | hsettled := settled_settle_iff.mp hsettled
      · exact absurd rfl heq
      · exact (h.sorted a' b' hsettled).of_apart hw (h.arranged.slice_apart (Ne.symm heq))
  settled a' ha' b' := settled_settle_iff.mpr (.inr (h.settled a' ha' b'))

section Groups

variable [NeZero block.size] {starts : GroupTable} {p : Progress block.size}

/-- Sorting a group settles it. -/
theorem settled_sortGroup (a b a' b' : UInt8) :
    Settled (sortGroup starts a b p).settled a' b' ↔
      (a = a' ∧ b = b') ∨ Settled p.settled a' b' := by
  obtain ⟨index, keys, settled, visited⟩ := p
  rw [sortGroup]
  split
  · next h =>
    refine ⟨.inr, fun h' => h'.elim ?_ id⟩
    rintro ⟨rfl, rfl⟩
    exact h
  · simp only
    split <;> exact settled_settle_iff

theorem visited_sortGroup (a b : UInt8) : (sortGroup starts a b p).visited = p.visited := by
  obtain ⟨index, keys, settled, visited⟩ := p
  rw [sortGroup]
  split
  · rfl
  · simp only
    split <;> rfl

theorem visited_sortGroups (lead : UInt8) : (sortGroups starts lead p).visited = p.visited := by
  refine finFoldl_invariant (fun _ (q : Progress block.size) => q.visited = p.visited) rfl fun i q hq => ?_
  split
  · exact hq
  · exact (visited_sortGroup _ _).trans hq

/-- **Sorting a group puts it in order and touches nothing else.** -/
theorem Progress.Sound.sortGroup (h : p.Sound) (hstarts : Starts block starts) (a b : UInt8) :
    (sortGroup starts a b p).Sound := by
  have hlt := pair_lt a b
  have hlo : starts[pair a b] = (slice block (pair a b)).lo := hstarts _ _
  have hhi : starts[pair a b + 1] = (slice block (pair a b)).hi := hstarts _ _
  obtain ⟨index, keys, settled, visited⟩ := p
  rw [Rotation.sortGroup]
  split
  · exact h
  · simp only [hlo, hhi]
    split
    · next hsize =>
      have hx := h.arranged.agree (x := (slice block (pair a b)).lo) (a := a) (b := b)
        ⟨Nat.le_refl _, by omega⟩
      exact h.of_group (KeyTable.rearranges_multikey h.faithful hx)
        (KeyTable.sortedOn_multikey h.faithful hx)
    · next hsize =>
      refine h.of_group (Rearranges.refl _ _) fun i j hi hj hij => absurd ?_ hsize
      have := (slice block (pair a b)).hi_le
      rw [Span.mem_iff] at hi hj
      omega

/-- Sorting the groups of a byte settles all of them but the twin group. -/
theorem Progress.Sound.sortGroups (h : p.Sound) (hstarts : Starts block starts) (lead : UInt8) :
    (sortGroups starts lead p).Sound ∧ (sortGroups starts lead p).visited = p.visited ∧
      ∀ b, b ≠ lead → Settled (sortGroups starts lead p).settled lead b := by
  have hfold := finFoldl_invariant (n := 256) (a := p)
    (f := fun p b =>
      if b.val.toUInt8 = lead then p else Rotation.sortGroup starts lead b.val.toUInt8 p)
    (fun i (q : Progress block.size) => q.Sound ∧
      ∀ b : UInt8, b.toNat < i → b ≠ lead → Settled q.settled lead b)
    ⟨h, fun b hb => absurd hb (Nat.not_lt_zero _)⟩ fun i q ih => ?_
  · obtain ⟨hsound, hsettled⟩ := hfold
    exact ⟨hsound, visited_sortGroups lead, fun b hb => hsettled b b.toNat_lt hb⟩
  · obtain ⟨hq, hs⟩ := ih
    have hlast (b : UInt8) (hb : b.toNat < i + 1) : b.toNat < i ∨ b = i.val.toUInt8 := by
      obtain hlt | heq := Nat.lt_or_eq_of_le (Nat.le_of_lt_succ hb)
      · exact .inl hlt
      · exact .inr (by rw [← heq]; exact UInt8.ofNat_toNat.symm)
    split
    · next heq =>
      refine ⟨hq, fun b hb hne => ?_⟩
      obtain hlt | rfl := hlast b hb
      · exact hs b hlt hne
      · exact absurd heq hne
    · refine ⟨hq.sortGroup hstarts _ _, fun b hb hne => ?_⟩
      obtain hlt | rfl := hlast b hb
      · exact (settled_sortGroup _ _ _ _).mpr (.inr (hs b hlt hne))
      · exact (settled_sortGroup _ _ _ _).mpr (.inl ⟨rfl, rfl⟩)

end Groups

/-! ## A visit -/

variable {lead : UInt8}

/-- The range of a byte lists its rotations in order. -/
theorem lists_range {index : Vector (Fin block.size) block.size} (ha : Arranged block index)
    (hs : SortedOn (endless block) (rangeSpan block lead) index) :
    KeyTable.Lists block lead
      (index.toArray.extract (rangeLo block lead) (rangeHi block lead)).toList where
  nodup := Span.nodup_listed (s := rangeSpan block lead) ha.injective
  mem_iff _ := Span.mem_listed_iff_of_surjective (s := rangeSpan block lead)
    (P := fun o => byteAt block o = lead.toNat) ha.surjective ha.mem_rangeSpan_iff
  sorted := hs.pairwise_listed

theorem settled_settleAll_iff {settled : Vector Bool groupCount} {a b : UInt8} :
    Settled (settleAll settled lead) a b ↔ b = lead ∨ Settled settled a b := by
  have hfold := finFoldl_invariant (n := 256)
    (f := fun settled c => settle settled c.val.toUInt8 lead) (a := settled)
    (fun i s => ∀ a b, Settled s a b ↔ (a.toNat < i ∧ b = lead) ∨ Settled settled a b)
    (fun a b => (or_iff_right fun h => absurd h.1 (Nat.not_lt_zero _)).symm) fun i s ih a b => ?_
  · rw [settleAll, hfold]
    exact or_congr_left (and_iff_right a.toNat_lt)
  · have hi : i.val.toUInt8 = a ↔ a.toNat = i.val := by
      constructor
      · rintro rfl
        exact UInt8.toNat_ofNat_of_lt' i.isLt
      · intro heq
        rw [← heq]
        exact UInt8.ofNat_toNat
    rw [settled_settle_iff, ih, hi, ← or_assoc, Nat.lt_succ_iff_lt_or_eq]
    refine or_congr_left ⟨?_, ?_⟩
    · rintro (⟨h₁, h₂⟩ | ⟨h₁, h₂⟩)
      · exact ⟨.inr h₁, h₂.symm⟩
      · exact ⟨.inl h₁, h₂⟩
    · rintro ⟨h₁ | h₁, h₂⟩
      · exact .inr ⟨h₁, h₂⟩
      · exact .inl ⟨h₁, h₂.symm⟩

theorem unvisited_set_iff {visited : Vector Bool 256} {c : UInt8} :
    Unvisited (visited.set lead.toNat true lead.toNat_lt) c ↔ lead ≠ c ∧ Unvisited visited c := by
  rw [Unvisited, Vector.getElem_set]
  split
  · next heq => exact iff_of_false (by decide) fun h => h.1 (UInt8.toNat_inj.mp heq)
  · next hne => exact (and_iff_right fun heq => hne (congrArg UInt8.toNat heq)).symm

/-- A group of the range of a byte stands in it. -/
theorem slice_subset (lead b : UInt8) : slice block (pair lead b) ⊆ rangeSpan block lead := by
  have hb := b.toNat_lt
  rintro x ⟨hlo, hhi⟩
  exact ⟨(startOf_mono (Nat.le_add_right _ _)).trans hlo,
    hhi.trans_le (startOf_mono (by rw [pair]; omega))⟩

section Visit

variable [NeZero block.size] {starts : GroupTable} {p : Progress block.size}

/-- The filling of the twin group in a visit. -/
def filling (block : ByteArray) [NeZero block.size] (starts : GroupTable) (lead : UInt8)
    (p : Progress block.size) : Filling block.size :=
  fillTwins block starts lead (sortGroups starts lead p).index

/-- The next places and the index when a visit has gone through its range. -/
def seeding (block : ByteArray) [NeZero block.size] (starts : GroupTable) (lead : UInt8)
    (p : Progress block.size) : Vector ℕ 256 × Vector (Fin block.size) block.size :=
  seedFrom block ((sortGroups starts lead p).visited.set lead.toNat true lead.toNat_lt)
    (starts.rangeStop lead) (starts.rangeStart lead) (firstPlaces starts lead)
    (filling block starts lead p).index

theorem visit_eq (isLast : Bool) (lead : UInt8) : visit block starts isLast lead p =
    { index := (seeding block starts lead p).2
      keys := if isLast then (sortGroups starts lead p).keys
        else (sortGroups starts lead p).keys.tag lead ((filling block starts lead p).index.toArray.extract
          (starts.rangeStart lead) (starts.rangeStop lead))
      settled := settleAll (settle (sortGroups starts lead p).settled lead lead) lead
      visited := (sortGroups starts lead p).visited.set lead.toNat true lead.toNat_lt } := by
  simp only [visit, seeding, filling]

theorem not_unvisited_set (visited : Vector Bool 256) (lead : UInt8) :
    ¬Unvisited (visited.set lead.toNat true lead.toNat_lt) lead :=
  fun hu => (unvisited_set_iff.mp hu).1 rfl

namespace Progress.Sound

/-- **The twin group is filled from both sides.** -/
theorem bothSwept (h : p.Sound) (hstarts : Starts block starts) (lead : UInt8)
    (h₀ : 0 < block.size) :
    ∃ j₁ j₂ w₁, BothSwept block lead h₀ j₁ j₂ (Rotation.sortGroups starts lead p).index w₁
        (filling block starts lead p).index ∧
      (filling block starts lead p).stop = rangeLo block lead + j₁ ∧
      (filling block starts lead p).first = rangeHi block lead - j₂ := by
  obtain ⟨hq, -, hsettled⟩ := h.sortGroups hstarts lead
  exact bothSwept_fillTwins h₀ hstarts hq.arranged fun b hb => hq.sorted lead b (hsettled b hb)

/-- When the twin group is filled, the range is in order. -/
theorem filled (h : p.Sound) (hstarts : Starts block starts) (lead : UInt8) :
    Arranged block (filling block starts lead p).index ∧
      SortedOn (endless block) (rangeSpan block lead) (filling block starts lead p).index := by
  have ha := (h.sortGroups hstarts lead).1.arranged
  obtain ⟨j₁, j₂, w₁, hboth, -⟩ := h.bothSwept hstarts lead (Nat.pos_of_ne_zero (NeZero.ne _))
  exact ⟨hboth.arranged ha, hboth.sortedOn ha⟩

/-- When the visit has gone through it, all that comes before it is seated. -/
theorem seeded (h : p.Sound) (hstarts : Starts block starts) (lead : UInt8) :
    Seeded block lead ((Rotation.sortGroups starts lead p).visited.set lead.toNat true lead.toNat_lt)
      (filling block starts lead p).index (rangeHi block lead)
      (seeding block starts lead p).1 (seeding block starts lead p).2 := by
  have hlo : starts.rangeStart lead = rangeLo block lead := hstarts _ _
  have hhi : starts.rangeStop lead = rangeHi block lead := hstarts _ _
  rw [seeding, hlo, hhi]
  exact seeded_seedFrom (h.filled hstarts lead).1 (not_unvisited_set _ _) (Nat.le_refl _)
    (startOf_mono (Nat.le_add_right _ _)) (Seeded.start hstarts)

/-- **A visit settles the groups of its byte.** -/
theorem visit (h : p.Sound) (hn : wrapSize ≤ block.size) (hstarts : Starts block starts)
    (isLast : Bool) (lead : UInt8) :
    (visit block starts isLast lead p).Sound ∧
      (visit block starts isLast lead p).visited = p.visited.set lead.toNat true lead.toNat_lt := by
  obtain ⟨hq, hvisited, hsettled⟩ := h.sortGroups hstarts lead
  obtain ⟨j₁, j₂, w₁, hboth, -⟩ := h.bothSwept hstarts lead (Nat.pos_of_ne_zero (NeZero.ne _))
  obtain ⟨ha, hrange⟩ := h.filled hstarts lead
  have hseeded := h.seeded hstarts lead
  have hlo : starts.rangeStart lead = rangeLo block lead := hstarts _ _
  have hhi : starts.rangeStop lead = rangeHi block lead := hstarts _ _
  rw [visit_eq, ← hvisited]
  generalize filling block starts lead p = f at *
  generalize seeding block starts lead p = seeds at *
  generalize Rotation.sortGroups starts lead p = q at *
  refine ⟨{
    arranged := hseeded.arranged ha
    faithful := ?faithful
    sorted := fun a b hab => ?sorted
    settled := fun a hua b => ?settled }, rfl⟩
  case faithful =>
    simp only [hlo, hhi]
    split
    · exact hq.faithful
    · exact hq.faithful.tag hn (lists_range ha hrange)
  case sorted =>
    obtain rfl | hb := eq_or_ne b lead
    · by_cases hua : Unvisited (q.visited.set b.toNat true b.toNat_lt) a
      · exact hseeded.sortedOn ha hrange hua
      · refine hseeded.sortedOn_of_frame ?_ fun c hc => ha.slice_apart fun heq => ?_
        · obtain rfl | hne := eq_or_ne a b
          · exact hrange.mono (slice_subset _ _)
          · have hua' : ¬Unvisited q.visited a :=
              fun hu => hua (unvisited_set_iff.mpr ⟨hne.symm, hu⟩)
            exact hboth.sortedOn_of_apart (hq.sorted a b (hq.settled a hua' b))
              (hq.arranged.slice_apart fun heq => hne (pair_injective heq).1.symm)
        · exact hua ((pair_injective heq).1 ▸ hc)
    · dsimp only at hab
      have hab' : Settled q.settled a b := by
        refine (settled_settle_iff.mp ((settled_settleAll_iff.mp hab).resolve_left hb)).resolve_left ?_
        exact fun h => hb h.2.symm
      refine hseeded.sortedOn_of_frame (hboth.sortedOn_of_apart (hq.sorted a b hab') ?_) fun c _ => ?_
      · exact hq.arranged.slice_apart fun heq => hb (pair_injective heq).2.symm
      · exact ha.slice_apart fun heq => hb (pair_injective heq).2
  case settled =>
    dsimp only at hua ⊢
    refine settled_settleAll_iff.mpr ?_
    obtain rfl | hb := eq_or_ne b lead
    · exact .inl rfl
    · refine .inr (settled_settle_iff.mpr (.inr ?_))
      obtain rfl | hne := eq_or_ne a lead
      · exact hsettled b hb
      · exact hq.settled a (fun hu => hua (unvisited_set_iff.mpr ⟨hne.symm, hu⟩)) b

end Progress.Sound

end Visit

/-! ## The order of visits -/

section Order

variable {t : GroupTable}

theorem rearranges_sinkByRange (gap : ℕ) (v : Vector UInt8 256) (j : ℕ) (hj : j < 256) :
    Rearranges (Span.all 256) v (sinkByRange t gap v j hj) := by
  fun_induction sinkByRange t gap v j hj with
  | case1 v j hj hgap _ ih =>
    exact (Rearranges.swap v ⟨Nat.zero_le _, show j - gap < 256 by omega⟩ ⟨Nat.zero_le _, hj⟩).trans ih
  | case2 v => exact Rearranges.refl _ v
  | case3 v => exact Rearranges.refl _ v

theorem rearranges_gapPass (v : Vector UInt8 256) (gap : ℕ) :
    Rearranges (Span.all 256) v (gapPass t v gap) :=
  finFoldl_invariant (fun _ w => Rearranges (Span.all 256) v w) (Rearranges.refl _ v)
    fun j w ih => ih.trans (rearranges_sinkByRange gap w j j.isLt)

theorem rearranges_gapPasses (gaps : List ℕ) (v : Vector UInt8 256) :
    Rearranges (Span.all 256) v (gaps.foldl (gapPass t) v) := by
  induction gaps generalizing v with
  | nil => exact Rearranges.refl _ v
  | cons gap gaps ih =>
    rw [List.foldl_cons]
    exact (rearranges_gapPass v gap).trans (ih _)

/-- **No byte is left out.** -/
theorem exists_visitOrder (t : GroupTable) (c : UInt8) : ∃ i : Fin 256, (visitOrder t).get i = c := by
  have hpasses := rearranges_gapPasses (t := t) gaps (Vector.ofFn fun b => b.val.toUInt8)
  obtain ⟨i, hi⟩ := hpasses.exists_get ⟨c.toNat, c.toNat_lt⟩
  refine ⟨i, hi.trans ?_⟩
  rw [Rearranges.get_eq, Vector.getElem_ofFn]
  exact UInt8.ofNat_toNat

end Order

/-- **When all bytes were visited the whole index is in order.** -/
theorem sortedOn_visitAll [NeZero block.size] {starts : GroupTable} {p : Progress block.size}
    (h : p.Sound) (hn : wrapSize ≤ block.size) (hstarts : Starts block starts) :
    Arranged block (visitAll block starts p).index ∧
      SortedOn (endless block) (Span.all block.size) (visitAll block starts p).index := by
  have hfold := finFoldl_invariant (n := 256) (a := p)
    (f := fun p i => visit block starts (i.val == 255) ((visitOrder starts).get i) p)
    (fun i (q : Progress block.size) => q.Sound ∧
      ∀ k : Fin 256, k.val < i → ¬Unvisited q.visited ((visitOrder starts).get k))
    ⟨h, fun k hk => absurd hk (Nat.not_lt_zero _)⟩ fun i q ih => ?_
  · obtain ⟨hsound, hvisited⟩ := hfold
    refine ⟨hsound.arranged, hsound.arranged.sortedOn fun k hlo hhi => ?_⟩
    have hk : k < groupCount := lt_of_startOf_lt (hhi.trans_eq (startOf_groupCount block).symm)
    obtain ⟨a, b, rfl⟩ : ∃ a b, k = pair a b := by
      rw [groupCount] at hk
      refine ⟨(k / 256).toUInt8, (k % 256).toUInt8, ?_⟩
      rw [pair, Nat.toUInt8_eq, Nat.toUInt8_eq, UInt8.toNat_ofNat', UInt8.toNat_ofNat']
      omega
    obtain ⟨i, rfl⟩ := exists_visitOrder starts a
    exact hsound.sorted _ b (hsound.settled _ (hvisited i i.isLt) b)
  · obtain ⟨hq, hvisited⟩ := ih
    obtain ⟨hsound, hset⟩ := hq.visit hn hstarts (i.val == 255) ((visitOrder starts).get i)
    refine ⟨hsound, fun k hk hu => ?_⟩
    rw [hset] at hu
    obtain ⟨hne, hu'⟩ := unvisited_set_iff.mp hu
    obtain hlt | heq := Nat.lt_or_eq_of_le (Nat.le_of_lt_succ hk)
    · exact hvisited k hlt hu'
    · obtain rfl := Fin.ext heq
      exact hne rfl

end BlockPress.Rotation
