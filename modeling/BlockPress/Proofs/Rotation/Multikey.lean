import BlockPress.Proofs.Rotation.Keys
import BlockPress.Proofs.Sorting.Quick
import BlockPress.Rotation.Multikey

/-!
# Correctness of the sort by words

The rotations of each frame on the stack agree on as many bytes as the frame says (`Frame.Level`), and
all others are in order: the spans of the frames are pending.  A partition by one word keeps that, with
the rotations of the middle zone agreeing further.

Main statement: **`multikey` sorts a span of rotations that agree on their first bytes**, given keys
that are faithful (`sortedOn_multikey`).
-/

namespace BlockPress.KeyTable

open Rotation Sorting
open scoped Standard

variable {block : ByteArray} {m : ℕ}

/-- The rotations of a frame agree on their first bytes. -/
def Frame.Level (block : ByteArray) (f : Frame m) (v : Vector (Fin block.size) m) : Prop :=
  ∃ x, AllOn (fun a : Fin block.size => Agree block f.depth a x) f.span v

variable {t : KeyTable block.size} {s : Span m} {v : Vector (Fin block.size) m} {depth x : ℕ}

theorem Frame.Level.of_apart {f : Frame m} {w : Vector (Fin block.size) m} (h : f.Level block v)
    {u : Span m} (hw : Rearranges u v w) (hu : u.Apart f.span) : f.Level block w := by
  obtain ⟨x, hx⟩ := h
  exact ⟨x, hx.of_apart hw hu⟩

/-! ## Stacks of frames -/

theorem mem_of_mem_pendAll {f : Frame m} {frames stack : List (Frame m)}
    (h : f ∈ pendAll frames stack) : f ∈ frames ∨ f ∈ stack := by
  have hfold (frames : List (Frame m)) :
      ∀ stack, f ∈ frames.foldl pendFrame stack → f ∈ frames ∨ f ∈ stack := by
    induction frames with
    | nil => exact fun stack h => .inr h
    | cons g frames ih =>
      intro stack h
      obtain h | h := ih _ h
      · exact .inl (List.mem_cons_of_mem g h)
      · rw [pendFrame] at h
        split at h
        · obtain rfl | h := List.mem_cons.mp h
          · exact .inl List.mem_cons_self
          · exact .inr h
        · exact .inr h
  obtain h | h := hfold _ _ h
  · exact .inl ((List.mergeSort_perm _ _).mem_iff.mp h)
  · exact .inr h

theorem pending_pendAll {key : Fin block.size → Word} {frames stack : List (Frame m)}
    (h : Pending key s (frames.map Frame.span ++ stack.map Frame.span) v) :
    Pending key s ((pendAll frames stack).map Frame.span) v := by
  have hfold (frames : List (Frame m)) : ∀ stack,
      Pending key s (frames.map Frame.span ++ stack.map Frame.span) v →
        Pending key s ((frames.foldl pendFrame stack).map Frame.span) v := by
    induction frames with
    | nil => exact fun stack h => h
    | cons f frames ih =>
      intro stack h
      refine ih _ ?_
      rw [pendFrame]
      split
      · exact h.perm List.perm_middle.symm
      · exact h.tail (by omega)
  exact hfold _ _ (h.perm (((List.mergeSort_perm _ _).symm.map _).append_right _))

/-! ## One frame -/

/-- Comparing rotations that agree with `x` respects their order. -/
theorem respects_compare [NeZero block.size] (h : t.Faithful block) (depth x : ℕ) :
    Respects (fun a b : Fin block.size => t.compare depth a.val b.val) (endless block)
      fun a => Agree block depth a x :=
  fun _ _ ha hb => h.fits_compare (ha.trans hb.symm)

section Frame

variable [NeZero block.size] {z : Zones (Fin block.size) s} {word : UInt32}

theorem wordOf_eq_lt {a : Fin block.size} : t.wordOf depth word a = .lt ↔ t.key a depth < word :=
  compareOfLessAndEq_eq_lt

theorem wordOf_eq_eq {a : Fin block.size} : t.wordOf depth word a = .eq ↔ t.key a depth = word :=
  compareOfLessAndEq_eq_eq UInt32.le_refl UInt32.not_le

theorem wordOf_eq_gt {a : Fin block.size} : t.wordOf depth word a = .gt ↔ word < t.key a depth :=
  compareOfLessAndEq_eq_gt UInt32.le_antisymm UInt32.le_total UInt32.not_le _ _

/-- **Dividing by a word leaves the zones pending.** -/
theorem pending_wordOf (h : t.Faithful block) (hz : Divided (t.wordOf depth word) z)
    (hP : AllOn (fun a : Fin block.size => Agree block depth a x) s z.entries) :
    Pending (endless block) s [z.below, z.level, z.above] z.entries := by
  refine hz.pending hP (fun a b ha hb hlt hnlt => ?_) fun a b ha hb hngt hgt => ?_
  · rw [Ne, wordOf_eq_lt, UInt32.not_lt] at hnlt
    rw [wordOf_eq_lt] at hlt
    exact h.le_of_key_lt (ha.trans hb.symm) (UInt32.lt_of_lt_of_le hlt hnlt)
  · rw [Ne, wordOf_eq_gt, UInt32.not_lt] at hngt
    rw [wordOf_eq_gt] at hgt
    exact h.le_of_key_lt (ha.trans hb.symm) (UInt32.lt_of_le_of_lt hngt hgt)

/-- The rotations of the zones agree, those of the middle zone further than the others. -/
theorem level_framesOf (h : t.Faithful block) {p : Fin block.size} (hp : Agree block depth p x)
    (hz : Divided (t.wordOf depth (t.key p depth)) z)
    (hP : AllOn (fun a : Fin block.size => Agree block depth a x) s z.entries) :
    ∀ f ∈ framesOf z depth (t.deeper depth (t.key p depth)), f.Level block z.entries := by
  intro f hf
  simp only [framesOf, List.mem_cons, List.not_mem_nil, or_false] at hf
  obtain rfl | rfl | rfl := hf
  · exact ⟨x, hP.mono (z.subset z.below (by simp))⟩
  · refine ⟨p, fun i hi => ?_⟩
    have heq := wordOf_eq_eq.mp (hz.level i hi)
    have hdeep := h.agree_deeper ((hP i (z.subset z.level (by simp) i hi)).trans hp.symm) heq
    rwa [heq] at hdeep
  · exact ⟨x, hP.mono (z.subset z.above (by simp))⟩

end Frame

/-! ## The whole sort -/

section Run

variable [NeZero block.size] {stack : List (Frame m)}

/-- **The sort by words finishes what is pending.** -/
theorem multikeyFrom_spec (h : t.Faithful block) {peak quickPeak : ℕ}
    (hlevel : ∀ f ∈ stack, f.Level block v)
    (hpending : Pending (endless block) s (stack.map Frame.span) v) :
    Rearranges s v (multikeyFrom t stack peak quickPeak v).entries ∧
      SortedOn (endless block) s (multikeyFrom t stack peak quickPeak v).entries := by
  fun_induction multikeyFrom t stack peak quickPeak v with
  | case1 peak quickPeak v => exact ⟨Rearranges.refl s v, hpending.sortedOn⟩
  | case2 peak quickPeak v u depth stack hsmall run ih =>
    obtain ⟨x, hx⟩ := hlevel ⟨u, depth⟩ List.mem_cons_self
    have hus : u ⊆ s := hpending.inside u (by simp)
    have hw : Rearranges u v run.entries := rearranges_quick (respects_compare h depth x) hx
    have hsorted : SortedOn (endless block) u run.entries :=
      sortedOn_quick (respects_compare h depth x) hx
    have hapart := (List.pairwise_cons.mp hpending.apart).1
    obtain ⟨h₁, h₂⟩ := ih
      (fun f hf => (hlevel f (List.mem_cons_of_mem _ hf)).of_apart hw
        (hapart f.span (List.mem_map_of_mem hf)))
      (hpending.step hw (Pending.of_sortedOn hsorted))
    exact ⟨(hw.mono hus).trans h₁, h₂⟩
  | case3 peak quickPeak v u depth stack hbig hs k word z hlevel' stack' ih =>
    obtain ⟨x, hx⟩ := hlevel ⟨u, depth⟩ List.mem_cons_self
    have hus : u ⊆ s := hpending.inside u (by simp)
    have hw : Rearranges u v z.entries := rearranges_partition
    have hdiv : Divided (t.wordOf depth word) z := divided_partition
    have hP := hx.rearrange hw
    have hapart := (List.pairwise_cons.mp hpending.apart).1
    obtain ⟨h₁, h₂⟩ := ih
      (fun f hf => by
        obtain hf | hf := mem_of_mem_pendAll hf
        · exact level_framesOf h (hx k.val k.property) hdiv hP f hf
        · exact (hlevel f (List.mem_cons_of_mem _ hf)).of_apart hw
            (hapart f.span (List.mem_map_of_mem hf)))
      (pending_pendAll (hpending.step hw (pending_wordOf h hdiv hP)))
    exact ⟨(hw.mono hus).trans h₁, h₂⟩

theorem rearranges_multikey (h : t.Faithful block)
    (hx : AllOn (fun a : Fin block.size => Agree block depth a x) s v) :
    Rearranges s v (t.multikey depth s v).entries :=
  (multikeyFrom_spec h (fun _ hf => List.mem_singleton.mp hf ▸ ⟨x, hx⟩) Pending.start).1

/-- **Sorting by words sorts rotations that agree on their first bytes.** -/
theorem sortedOn_multikey (h : t.Faithful block)
    (hx : AllOn (fun a : Fin block.size => Agree block depth a x) s v) :
    SortedOn (endless block) s (t.multikey depth s v).entries :=
  (multikeyFrom_spec h (fun _ hf => List.mem_singleton.mp hf ▸ ⟨x, hx⟩) Pending.start).2

end Run

end BlockPress.KeyTable
