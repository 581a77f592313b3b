import BlockPress.Proofs.Guarded.Basic
import BlockPress.Proofs.Rotation.Stack

/-!
# Guarded stacks

A sort that keeps its pending work on a stack checks after each round that no more pieces were ever pending
than the stack has had room for from the start.  The sort by words also checks the depth at which it looks
at words: that has to be less than the number of bytes in the block.

Main statements: **a stack that has the room which the size of a span asks for is never too small**, neither
for quicksort (`quick_eq`) nor for the sort by words (`multikey_eq`), and 32 places are enough for 16 MiB
(`fits_stackRoom`).  None of this depends on what the keys say.
-/

namespace BlockPress.Guarded

open KeyTable Sorting
open scoped Standard

/-! ## Room -/

/-- The number of pieces of work that each stack has room for from the start. -/
def stackRoom : ℕ := 32

/-- A stack has room for what the sorts of so many entries have pending. -/
def Fits (room size : ℕ) : Prop := multikeyBound size ≤ room ∧ quickBound size ≤ room

variable {room size size' : ℕ}

theorem Fits.mono (h : Fits room size) (hle : size' ≤ size) : Fits room size' :=
  ⟨(multikeyBound_mono hle).trans h.1, (quickBound_mono hle).trans h.2⟩

/-- **The stacks have room for the largest block.** -/
theorem fits_stackRoom (h : size ≤ Config.maxBlockSize) : Fits stackRoom size := by
  obtain ⟨hmultikey, hquick⟩ := bounds_le h
  rw [Fits, stackRoom]
  omega

/-! ## Quicksort -/

section Quick

variable {α : Type} {m : ℕ}

/-- Sorts the spans of a stack. -/
def quickFrom (room : ℕ) (cmp : α → α → Ordering) (refl : ∀ a, cmp a a = .eq) (stack : List (Span m))
    (peak : ℕ) (v : Vector α m) : Option (Run α m) :=
  match stack with
  | [] => some ⟨v, peak⟩
  | s :: stack =>
    if h : s.size < insertionSize then quickFrom room cmp refl stack peak (insertion cmp s v)
    else
      let k := Sorting.pivot cmp s (size_pos_of_not_lt h) v
      let p := v.get ⟨k.val, k.lt⟩
      let z := partition (cmp · p) s v
      let stack := pendOuter z stack
      let peak := max peak stack.length
      require (peak ≤ room) (quickFrom room cmp refl stack peak z.entries)
termination_by Sorting.load stack
decreasing_by
  · exact Nat.lt_add_of_pos_left (Nat.succ_pos _)
  · exact load_pendOuter_lt _ _ (size_level_pos _ (refl _))

/-- Sorts a span. -/
def quick (room : ℕ) (cmp : α → α → Ordering) (refl : ∀ a, cmp a a = .eq) (s : Span m) (v : Vector α m) :
    Option (Run α m) :=
  quickFrom room cmp refl [s] 1 v

variable {cmp : α → α → Ordering} {s : Span m} {v : Vector α m} {st st' : QuickState α m}

/-- A round inside the bounds passes its check. -/
theorem quickFrom_round (refl : ∀ a, cmp a a = .eq) (hst : st.Bounded s v)
    (hroom : quickBound s.size ≤ room) (h : quickRound cmp st = .inl st') :
    quickFrom room cmp refl st.stack st.peak st.entries =
      quickFrom room cmp refl st'.stack st'.peak st'.entries := by
  have hpeak : st'.peak ≤ room := (hst.round h).peak_le.trans hroom
  obtain ⟨stack, peak, w⟩ := st
  cases stack with
  | nil => cases h
  | cons u stack =>
    rw [quickRound] at h
    split at h
    · next hsize =>
      cases h
      rw [quickFrom, dif_pos hsize]
    · next hsize =>
      cases h
      rw [quickFrom, dif_neg hsize]
      exact require_eq hpeak _

/-- **Quicksort never outgrows a stack that has the room.** -/
theorem quick_eq (refl : ∀ a, cmp a a = .eq) (hroom : quickBound s.size ≤ room) (v : Vector α m) :
    quick room cmp refl s v = some (Sorting.quick cmp refl s v) := by
  obtain ⟨n, hends⟩ := ends_quick refl s v
  refine hends.invariant (P := fun st => st.Bounded s v ∧
      quick room cmp refl s v = quickFrom room cmp refl st.stack st.peak st.entries)
    (Q := fun run => quick room cmp refl s v = some run) (fun st st' hst h => ?_) (fun st run hst h => ?_)
    ⟨QuickState.bounded_start s v, rfl⟩
  · exact ⟨hst.1.round h, hst.2.trans (quickFrom_round refl hst.1 hroom h)⟩
  · obtain ⟨hstack, rfl⟩ := quickRound_eq_inr h
    rw [hst.2, hstack, quickFrom]

end Quick

/-! ## The sort by words -/

section Multikey

variable {n m : ℕ} [NeZero n]

/-- Sorts a span of offsets by whole rotations. -/
def quickBy (room : ℕ) (t : KeyTable n) (depth : ℕ) (s : Span m) (v : Vector (Fin n) m) :
    Option (Run (Fin n) m) :=
  quick room (fun a b => t.compare depth a.val b.val) (t.compare_val_self depth) s v

/-- Sorts the frames of a stack.  A frame that is divided looks at words at its depth. -/
def multikeyFrom (room : ℕ) (t : KeyTable n) (stack : List (Frame m)) (peak quickPeak : ℕ)
    (v : Vector (Fin n) m) : Option (MultikeyRun n m) :=
  match stack with
  | [] => some ⟨v, peak, quickPeak⟩
  | ⟨s, depth⟩ :: stack =>
    if h : s.size ≤ smallSize ∨ deepDepth ≤ depth then
      (quickBy room t depth s v).bind fun run =>
      multikeyFrom room t stack peak (max quickPeak run.peak) run.entries
    else
      require (depth < n) <|
      let k := t.pivot depth v s (size_pos_of_not_small h)
      let word := t.key (v.get ⟨k.val, k.lt⟩) depth
      let z := partition (t.wordOf depth word) s v
      let stack := pendAll (framesOf z depth (t.deeper depth word)) stack
      let peak := max peak stack.length
      require (peak ≤ room) (multikeyFrom room t stack peak quickPeak z.entries)
termination_by KeyTable.load stack
decreasing_by
  · exact Nat.lt_add_of_pos_left (Nat.succ_pos _)
  · exact load_pendAll_lt z _ (Nat.not_le.mp fun hle => h (.inr hle))
      (Nat.lt_add_of_pos_right (t.stride_pos _)) (size_level_pos _ (t.wordOf_key depth _))

/-- Sorts a span of offsets whose rotations agree on their first `depth` bytes. -/
def multikey (room : ℕ) (t : KeyTable n) (depth : ℕ) (s : Span m) (v : Vector (Fin n) m) :
    Option (MultikeyRun n m) :=
  multikeyFrom room t [⟨s, depth⟩] 1 0 v

variable {t : KeyTable n} {s : Span m} {v : Vector (Fin n) m} {st st' : MultikeyState n m}

/-- A round inside the bounds passes its checks. -/
theorem multikeyFrom_round (hn : deepDepth ≤ n) (hst : st.Bounded s v) (hroom : Fits room s.size)
    (h : multikeyRound t st = .inl st') :
    multikeyFrom room t st.stack st.peak st.quickPeak st.entries =
      multikeyFrom room t st'.stack st'.peak st'.quickPeak st'.entries := by
  have hpeak : st'.peak ≤ room := (hst.round h).peak_le.trans hroom.1
  have hinside := hst.inside
  obtain ⟨stack, peak, quickPeak, w⟩ := st
  cases stack with
  | nil => cases h
  | cons f stack =>
    obtain ⟨u, depth⟩ := f
    have hu : Fits room u.size := hroom.mono (size_le_of_subset (hinside _ List.mem_cons_self))
    rw [multikeyRound] at h
    split at h
    · next hsmall =>
      cases h
      rw [multikeyFrom, dif_pos hsmall, quickBy, quick_eq _ hu.2, Option.bind_some]
      rfl
    · next hbig =>
      cases h
      have hdepth : depth < n := (Nat.not_le.mp fun hle => hbig (.inr hle)).trans_le hn
      rw [multikeyFrom, dif_neg hbig, require_eq hdepth]
      exact require_eq hpeak _

/-- **The sort by words never outgrows a stack that has the room**, and looks at no word too deep. -/
theorem multikey_eq (hn : deepDepth ≤ n) (hroom : Fits room s.size) (depth : ℕ) (v : Vector (Fin n) m) :
    multikey room t depth s v = some (t.multikey depth s v) := by
  obtain ⟨k, hends⟩ := ends_multikey t depth s v
  refine hends.invariant (P := fun st => st.Bounded s v ∧ multikey room t depth s v =
      multikeyFrom room t st.stack st.peak st.quickPeak st.entries)
    (Q := fun run => multikey room t depth s v = some run) (fun st st' hst h => ?_)
    (fun st run hst h => ?_) ⟨MultikeyState.bounded_start s depth v, rfl⟩
  · exact ⟨hst.1.round h, hst.2.trans (multikeyFrom_round hn hst.1 hroom h)⟩
  · obtain ⟨hstack, rfl⟩ := multikeyRound_eq_inr h
    rw [hst.2, hstack, multikeyFrom]

end Multikey

end BlockPress.Guarded
