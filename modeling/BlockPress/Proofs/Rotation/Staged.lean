import BlockPress.Proofs.Rotation.Building
import BlockPress.Proofs.Rotation.Multikey
import BlockPress.Proofs.Rotation.Tagging
import BlockPress.Proofs.Sorting.Listed

/-!
# Sorting while groups become tags

The sorts of a span compare by words, by tags, or by both at different depths, and tags may tell rotations
apart that tie.  None of that shows in the outcome: keys at any stage of tagging are faithful
(`faithful_tagAll_build`), and faithful keys are all that a sort needs.

Main statement: **at every stage of tagging, the sort by words and quicksort sort the offsets of a span**,
and touch no others (`sorts_tagAll`).
-/

namespace BlockPress.KeyTable

open Rotation Sorting
open scoped Standard

variable {block : ByteArray} {m : ℕ} {s : Span m} {v w : Vector (Fin block.size) m}

/-- The rotations that start with a byte, in their final order. -/
structure Final (block : ByteArray) (lead : UInt8) (group : Array (Fin block.size)) : Prop where
  /-- No rotation is listed twice. -/
  nodup : group.toList.Nodup
  /-- None is missing, and there are no others. -/
  mem_iff : ∀ o : Fin block.size, o ∈ group ↔ byteAt block o = lead.toNat
  /-- None is greater than the next one. -/
  ordered : group.toList.IsChain fun o o' : Fin block.size => Rotation.compare block o o' ≠ .gt

theorem Final.lists {lead : UInt8} {group : Array (Fin block.size)} (h : Final block lead group) :
    Lists block lead group.toList where
  nodup := h.nodup
  mem_iff o := Array.mem_toList_iff.trans (h.mem_iff o)
  sorted := pairwise_reading_le h.ordered

/-- The offsets of a span are sorted by their rotations, and those outside stay. -/
structure Sorts (block : ByteArray) (s : Span m) (v w : Vector (Fin block.size) m) : Prop where
  /-- The offsets are the same ones. -/
  perm : (s.listed w).Perm (s.listed v)
  /-- No rotation is greater than a later one. -/
  ordered : (s.listed w).Pairwise fun a b : Fin block.size => Rotation.compare block a b ≠ .gt
  /-- Outside the span nothing was changed. -/
  frame : ∀ i, ∀ hi : i < m, i ∉ s → w[i] = v[i]

theorem Sorts.of_rearranges (h : Rearranges s v w) (hs : SortedOn (endless block) s w) :
    Sorts block s v w where
  perm := h.listed_perm
  ordered := hs.pairwise_listed.imp fun hle => compare_ne_gt_iff.mpr hle
  frame _ hi hnot := h.getElem_eq hi hnot

/-- **Keys are faithful at every stage of tagging.** -/
theorem faithful_tagAll_build (hn : wrapSize ≤ block.size) (store : KeyStore)
    {groups : List (UInt8 × Array (Fin block.size))} (hgroups : ∀ g ∈ groups, Final block g.1 g.2) :
    ((build block hn store).tagAll groups).Faithful block := by
  have hsize : 0 < block.size := Nat.lt_of_lt_of_le (by decide) hn
  rw [build_eq hn hsize]
  exact (faithful_ofBlock hsize).tagAll hn fun g hg => (hgroups g hg).lists

/-- Rotations that agree with each other agree with one of them. -/
theorem exists_allOn_agree {depth : ℕ}
    (h : ∀ a ∈ s.listed v, ∀ b ∈ s.listed v, Agree block depth a b) :
    ∃ x, AllOn (fun a : Fin block.size => Agree block depth a x) s v := by
  simp only [allOn_iff]
  cases hlist : s.listed v with
  | nil => exact ⟨0, fun _ ha => absurd ha List.not_mem_nil⟩
  | cons x l =>
    rw [hlist] at h
    exact ⟨x, fun a ha => h a ha x List.mem_cons_self⟩

/-- **At every stage of tagging, the offsets of a span are sorted**, by words as well as by whole
rotations, if their rotations agree on as many bytes as the sort skips. -/
theorem sorts_tagAll [NeZero block.size] (hn : wrapSize ≤ block.size) (store : KeyStore)
    {groups : List (UInt8 × Array (Fin block.size))} (hgroups : ∀ g ∈ groups, Final block g.1 g.2)
    {depth : ℕ} (hagree : ∀ a ∈ s.listed v, ∀ b ∈ s.listed v, Agree block depth a b) :
    let t := (build block hn store).tagAll groups
    Sorts block s v (t.multikey depth s v).entries ∧ Sorts block s v (t.quick depth s v).entries := by
  intro t
  have hfaithful : t.Faithful block := faithful_tagAll_build hn store hgroups
  obtain ⟨x, hx⟩ := exists_allOn_agree hagree
  have hcmp := respects_compare hfaithful depth x
  exact ⟨.of_rearranges (rearranges_multikey hfaithful hx) (sortedOn_multikey hfaithful hx),
    .of_rearranges (rearranges_quick hcmp hx) (sortedOn_quick hcmp hx)⟩

/-- Four of the rotations of 62 zeros and two ones that start with a zero, when those that start with a one
are tags. -/
theorem sorts_tagAll_two_ones :
    let block : ByteArray := ⟨Array.replicate 62 0 ++ #[1, 1]⟩
    have : NeZero block.size := ⟨by decide⟩
    ∃ hn : wrapSize ≤ block.size,
      let t := (build block hn (.withCapacity 0)).tagAll [(1, #[⟨63, by decide⟩, ⟨62, by decide⟩])]
      let v : Vector (Fin block.size) 4 :=
        #v[⟨61, by decide⟩, ⟨5, by decide⟩, ⟨60, by decide⟩, ⟨0, by decide⟩]
      Sorts block (Span.all 4) v (t.multikey 1 (Span.all 4) v).entries ∧
        Sorts block (Span.all 4) v (t.quick 1 (Span.all 4) v).entries := by
  intro block _
  refine ⟨by decide, ?_⟩
  intro t v
  have hgroups : ∀ g ∈ [((1 : UInt8), #[(⟨63, by decide⟩ : Fin block.size), ⟨62, by decide⟩])],
      Final block g.1 g.2 := by
    intro g hg
    obtain rfl := List.mem_singleton.mp hg
    exact ⟨by decide, by decide +kernel, by decide +kernel⟩
  have hzero : ∀ a ∈ (Span.all 4).listed v, byteAt block a = 0 := by decide +kernel
  refine sorts_tagAll (by decide) _ hgroups fun a ha b hb k hk => ?_
  obtain rfl : k = 0 := by omega
  exact (hzero a ha).trans (hzero b hb).symm

end BlockPress.KeyTable
