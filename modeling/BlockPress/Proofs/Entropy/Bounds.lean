import BlockPress.Proofs.Entropy.Delivery
import BlockPress.Proofs.Entropy.RoundTrip

/-!
# The bounds of a range coder

A caller of a range coder takes steps and closes, in any order and also after failures: a list of
`CoderCall`s.  Three bounds lean on each other along the way.  A chance that adapts by a shift `s` keeps
`2 ^ s - 1` parts on both sides (`Chance.Within.adapt`), so a decision leaves `2 ^ 13` or more of a range
of `2 ^ 24`; such a range is widened twice at most, and is `2 ^ 24` or more again (`Code.Ready.step`).

Main statement: **calls keep the bounds, and every byte that they move out of `low` is counted**
(`CoderCall.Sound.takeAll`).
-/

namespace BlockPress

variable {k m : ℕ}

/-! ## Chances -/

/-- Where there are `k - 1` or more, as many are left when a `k`-th part, rounded down, is taken away. -/
theorem le_sub_div {k x : ℕ} (h : k - 1 ≤ x) : k - 1 ≤ x - x / k := by
  obtain hlt | hle := Nat.lt_or_ge x k
  · rwa [Nat.div_eq_of_lt hlt, Nat.sub_zero]
  · obtain rfl | hk := Nat.eq_zero_or_pos k
    · exact Nat.zero_le _
    · have hquotient : 0 < x / k := Nat.div_pos hle hk
      have hrest : k - 1 ≤ (k - 1) * (x / k) := Nat.le_mul_of_pos_right _ hquotient
      have hall : k * (x / k) ≤ x := Nat.mul_div_le x k
      rw [Nat.sub_one_mul] at hrest
      omega

namespace Chance

/-- Neither bit has fewer than `2 ^ shift - 1` parts. -/
def Within (shift : ℕ) (p : Chance) : Prop :=
  2 ^ shift - 1 ≤ p.parts.toNat ∧ p.parts.toNat ≤ 2049 - 2 ^ shift

theorem two_pow_le {shift : ℕ} (h : shift ≤ 8) : 2 ^ shift ≤ 256 := Nat.pow_le_pow_right (by decide) h

theorem within_even {shift : ℕ} (h : shift ≤ 8) : even.Within shift := by
  have hpow := two_pow_le h
  have heven : even.parts.toNat = 1024 := rfl
  rw [Within, heven]
  omega

namespace Within

variable {p : Chance} {shift : ℕ}

theorem opened (h : p.Within shift) (hpos : 1 ≤ shift) : p.Open := by
  obtain ⟨hmin, hmax⟩ := h
  have hpow : 2 ≤ 2 ^ shift := Nat.le_self_pow (by omega) 2
  rw [Open]
  omega

/-- **A chance that adapts never comes nearer to certainty than its shift allows.** -/
theorem adapt (h : p.Within shift) (hle : shift ≤ 8) (bit : Bool) : (p.adapt shift bit).Within shift := by
  obtain ⟨hmin, hmax⟩ := h
  have hpow := two_pow_le hle
  have hpos := Nat.two_pow_pos shift
  cases bit with
  | true =>
    have hone := le_sub_div hmin
    have hpart := toNat_adapt_true p (hle.trans (by decide))
    rw [Within, hpart]
    generalize p.parts.toNat / 2 ^ shift = part at hone ⊢
    omega
  | false =>
    -- What the chance lacks loses the part that it gains.
    have hzero := le_sub_div (k := 2 ^ shift) (x := 2048 - p.parts.toNat) (by omega)
    have hpart := toNat_adapt_false (p := p) (by omega) (hle.trans (by decide))
    have hself := Nat.div_le_self (2048 - p.parts.toNat) (2 ^ shift)
    rw [Within, hpart]
    generalize (2048 - p.parts.toNat) / 2 ^ shift = part at hzero hself ⊢
    omega

end Within

end Chance

namespace BitTree

/-- All chances of the tree are as far from certainty as its shift keeps them. -/
def Within (t : BitTree) : Prop := ∀ p ∈ t.chances, p.Within t.context.shift

theorem shift_le_eight (c : Context) : c.shift ≤ 8 := Nat.min_le_left _ _

theorem within_fresh (context : Context) : (fresh context).Within := by
  intro p hp
  rw [Vector.eq_of_mem_replicate hp]
  exact Chance.within_even (shift_le_eight context)

namespace Within

variable {t : BitTree}

theorem opened (h : t.Within) : t.Open := fun p hp => (h p hp).opened (shift_bounds _).1

theorem learn (h : t.Within) (symbol : UInt32) : (t.learn symbol).Within :=
  forall_adapted (fun _ hp b => hp.adapt (shift_le_eight _) b) _ _ _ _ h

end Within

end BitTree

namespace CoderStep

/-- A bit under a chance of the caller adapts it by the one shift of that chance. -/
def KeepsShift (shifts : Fin m → ℕ) : CoderStep k m → Prop
  | .bit slot shift _ => shift = shifts slot
  | _ => True

instance (shifts : Fin m → ℕ) : (s : CoderStep k m) → Decidable (s.KeepsShift shifts)
  | .symbol _ _ => inferInstanceAs (Decidable True)
  | .bit slot shift _ => inferInstanceAs (Decidable (shift = shifts slot))
  | .plain _ _ => inferInstanceAs (Decidable True)

theorem KeepsShift.shiftInRange {shifts : Fin m → ℕ} {s : CoderStep k m} (h : s.KeepsShift shifts)
    (hshifts : ∀ slot, 1 ≤ shifts slot ∧ shifts slot ≤ 8) : s.ShiftInRange := by
  cases s with
  | symbol c s => trivial
  | bit slot shift b =>
    obtain rfl : shift = shifts slot := h
    exact ⟨(hshifts slot).1, (hshifts slot).2.trans (by decide)⟩
  | plain value count => trivial

end CoderStep

namespace Models

/-- The trees are those of the contexts, and all chances are as far from certainty as their shifts keep
them. -/
structure Within (contexts : Vector Context k) (shifts : Fin m → ℕ) (ms : Models k m) : Prop where
  /-- The trees are those of the contexts. -/
  for_contexts : ms.For contexts
  /-- The chances of the trees. -/
  trees : ∀ c, (ms.trees.get c).Within
  /-- The chances of the caller. -/
  slots : ∀ s, (ms.slots.get s).Within (shifts s)

variable {contexts : Vector Context k} {shifts : Fin m → ℕ}

theorem within_fresh (contexts : Vector Context k) (hshifts : ∀ s, shifts s ≤ 8) :
    (fresh contexts m).Within contexts shifts where
  for_contexts := for_fresh contexts m
  trees c := by
    rw [fresh, get_fresh]
    exact BitTree.within_fresh _
  slots s := by
    have hget : (fresh contexts m).slots.get s = Chance.even := Vector.getElem_replicate s.isLt
    exact hget ▸ Chance.within_even (hshifts s)

namespace Within

variable {ms : Models k m}

theorem opened (h : ms.Within contexts shifts) (hshifts : ∀ s, 1 ≤ shifts s) : ms.Open :=
  ⟨fun c => (h.trees c).opened, fun s => (h.slots s).opened (hshifts s)⟩

theorem learn (h : ms.Within contexts shifts) (hshifts : ∀ s, shifts s ≤ 8) {s : CoderStep k m}
    (hs : s.KeepsShift shifts) : (s.learn ms).Within contexts shifts := by
  have hcontexts := h.for_contexts.learn s
  cases s with
  | symbol c s => exact ⟨hcontexts, forall_get_set h.trees ((h.trees c).learn s), h.slots⟩
  | bit slot shift b =>
    obtain rfl : shift = shifts slot := hs
    exact ⟨hcontexts, h.trees, forall_get_set h.slots ((h.slots slot).adapt (hshifts slot) b)⟩
  | plain value count => exact h

end Within

end Models

namespace Code

/-! ## Widening -/

variable {c : Code}

theorem widenings_of_le (h : 2 ^ 24 ≤ c.range.toNat) : c.widenings = [] := by
  rw [widenings, dif_neg fun hc => Nat.not_lt.mpr h hc.1]

theorem widenings_of_lt (h : c.range.toNat < 2 ^ 24) (hpos : 0 < c.range.toNat) :
    c.widenings = c.wider :: c.wider.shiftLow.widenings := by
  rw [widenings, dif_pos ⟨h, range_ne_zero hpos⟩]

theorem normalize_of_le (h : 2 ^ 24 ≤ c.range.toNat) : c.normalize = c := by
  rw [normalize, dif_neg fun hc => Nat.not_lt.mpr h hc.1]

theorem normalize_of_lt (h : c.range.toNat < 2 ^ 24) (hpos : 0 < c.range.toNat) :
    c.normalize = c.wider.shiftLow.normalize := by
  rw [normalize, dif_pos ⟨h, range_ne_zero hpos⟩]
  rfl

/-- Widening moves a byte out of each of these codes, and out of no other. -/
theorem normalize_eq_foldl (c : Code) : c.normalize = c.widenings.foldl (fun _ d => d.shiftLow) c := by
  fun_induction normalize c with
  | case1 c h ih =>
    rw [widenings, dif_pos h, List.foldl_cons]
    exact ih
  | case2 c h => rw [widenings, dif_neg h, List.foldl_nil]

/-- Behind a byte that was moved out of it, `low` has no carry. -/
theorem low_normalize_lt (h : c.widenings ≠ []) : c.normalize.low.toNat < 2 ^ 32 := by
  obtain ⟨l, d, hl⟩ := (List.eq_nil_or_concat c.widenings).resolve_left h
  rw [normalize_eq_foldl, hl, List.concat_eq_append, List.foldl_append, List.foldl_cons, List.foldl_nil,
    toNat_low_shiftLow]
  omega

/-- A range that is at most `n` bytes short is widened at most `n` times. -/
theorem length_widenings_le {n : ℕ} (h : 2 ^ 24 ≤ c.range.toNat * 256 ^ n) : c.widenings.length ≤ n := by
  induction n generalizing c with
  | zero =>
    rw [Nat.pow_zero, Nat.mul_one] at h
    rw [widenings_of_le h, List.length_nil]
  | succ n ih =>
    obtain hlt | hge := Nat.lt_or_ge c.range.toNat (2 ^ 24)
    · have hpos : 0 < c.range.toNat := Nat.pos_of_mul_pos_right (h.trans_lt' (by decide))
      rw [widenings_of_lt hlt hpos, List.length_cons]
      refine Nat.succ_le_succ (ih ?_)
      rwa [range_shiftLow, toNat_range_wider hlt, Nat.mul_assoc, ← Nat.pow_succ']
    · rw [widenings_of_le hge]
      exact Nat.zero_le _

theorem ready_start : Ready {} := ⟨represents_start.tame, by decide⟩

theorem Tame.shifts_normalize (h : c.Tame) :
    c.normalize.shifts = c.shifts + c.widenings.length := by
  fun_induction Code.normalize c with
  | case1 c hc ih =>
    have hshift := shifts_shiftLow (c := c.wider) h.held_pos
    have hwider : c.wider.shifts = c.shifts := rfl
    rw [widenings, dif_pos hc, List.length_cons]
    refine (ih (h.shiftLow_wider hc.1)).trans ?_
    change c.wider.shiftLow.shifts + c.wider.shiftLow.widenings.length = _
    omega
  | case2 c hc => rw [widenings, dif_neg hc, List.length_nil, Nat.add_zero]

/-! ## Decisions -/

theorem shifts_cut (c : Code) (d : Decision) : (c.cut d).shifts = c.shifts := by
  rw [cut_eq]
  rfl

theorem moved_append (ds es : List Decision) (c : Code) :
    moved (ds ++ es) c = moved ds c ++ moved es (c.run ds) := by
  induction ds generalizing c with
  | nil => rfl
  | cons d ds ih =>
    rw [List.cons_append, moved, ih, moved, List.append_assoc]
    rfl

/-- The numbers of a code are inside their bounds. -/
structure Bounded (c : Code) : Prop where
  /-- The range is wide enough for a decision. -/
  le_range : 2 ^ 24 ≤ c.range.toNat
  /-- The range is a word. -/
  range_lt : c.range.toNat < 2 ^ 32
  /-- There is room for one carry. -/
  low_lt : c.low.toNat < 2 ^ 33
  /-- Bytes are held back. -/
  held_pos : 1 ≤ c.held

/-- A decision stays inside the bounds. -/
structure Splits (c : Code) (d : Decision) : Prop where
  /-- Both bits get a part of the range. -/
  share : ∀ p b, d = .chance p b → 0 < (p.share c.range).toNat ∧ (p.share c.range).toNat < c.range.toNat
  /-- The range is widened at most twice. -/
  length_widenings : (c.cut d).widenings.length ≤ 2
  /-- If it was widened, no carry is left. -/
  low_lt : (c.cut d).widenings ≠ [] → (c.step d).low.toNat < 2 ^ 32
  /-- The next code is inside its bounds. -/
  bounded : (c.step d).Bounded

/-- A byte is moved out of the code inside the bounds. -/
structure Moves (c : Code) : Prop where
  /-- Bytes are held back. -/
  held_pos : 1 ≤ c.held
  /-- There is at most one carry. -/
  low_lt : c.low.toNat < 2 ^ 33
  /-- Behind the move there is none. -/
  low_shiftLow_lt : c.shiftLow.low.toNat < 2 ^ 32

theorem CarryFits.moves (h : c.CarryFits) : c.Moves := by
  refine ⟨h.held_pos, h.low_lt, ?_⟩
  rw [toNat_low_shiftLow]
  omega

/-! ## Flushing -/

theorem range_flush (c : Code) : c.flush.range = c.range := by simp only [flush, range_shiftLow]

theorem toNat_low_flush (c : Code) : c.flush.low.toNat = 0 := by
  simp only [flush, toNat_low_shiftLow]
  omega

theorem shifts_flush (h : 0 < c.held) : c.flush.shifts = c.shifts + c.flushed.length := by
  simp only [flush, shifts_shiftLow, held_shiftLow_pos, h, flushed, List.length_cons, List.length_nil]

/-! ## Readiness -/

namespace Ready

theorem bounded (h : c.Ready) : c.Bounded :=
  ⟨h.le_range, c.range.toNat_lt, h.tame.carryFits.low_lt, h.tame.held_pos⟩

/-- What is settled does not matter. -/
theorem resettled (h : c.Ready) (settled : ByteArray) : Ready { c with settled } :=
  ⟨⟨h.tame.held_pos, h.tame.range_pos, h.tame.high_le, h.tame.high_le_of_max⟩, h.le_range⟩

theorem share (h : c.Ready) {p : Chance} (hp : p.Open) :
    0 < (p.share c.range).toNat ∧ (p.share c.range).toNat < c.range.toNat := by
  have hle := h.le_range
  have hshare := Chance.toNat_share hp c.range
  have hpos : 0 < c.range.toNat / 2048 * p.parts.toNat := Nat.mul_pos (by omega) hp.1
  have hlt : c.range.toNat / 2048 * p.parts.toNat < c.range.toNat / 2048 * 2048 :=
    Nat.mul_lt_mul_of_pos_left hp.2 (by omega)
  omega

/-- **Two bytes are all that a decision can take.** -/
theorem length_widenings_cut (h : c.Ready) {d : Decision} (hd : d.Open) :
    (c.cut d).widenings.length ≤ 2 := by
  let i : Interval := ⟨c.low.toNat, c.range.toNat, 0⟩
  obtain ⟨hrange, -⟩ := toNat_cut h.tame.high_le hd (i := i) rfl
  have hle := Interval.le_range_cut (i := i) h.le_range hd
  refine length_widenings_le ?_
  omega

theorem shifts_step (h : c.Ready) {d : Decision} (hd : d.Open) :
    (c.step d).shifts = c.shifts + (c.cut d).widenings.length := by
  rw [Code.step, (h.tame.cut h.le_range hd).shifts_normalize, shifts_cut]

theorem splits (h : c.Ready) {d : Decision} (hd : d.Open) : c.Splits d where
  share := by
    rintro p b rfl
    exact h.share hd
  length_widenings := h.length_widenings_cut hd
  low_lt := low_normalize_lt
  bounded := (h.step hd).bounded

theorem run (h : c.Ready) {ds : List Decision} (hds : ∀ d ∈ ds, d.Open) :
    (c.run ds).Ready ∧ (c.run ds).shifts = c.shifts + (moved ds c).length := by
  induction ds generalizing c with
  | nil => exact ⟨h, rfl⟩
  | cons d ds ih =>
    obtain ⟨hd, hds⟩ := List.forall_mem_cons.mp hds
    obtain ⟨hready, hshifts⟩ := ih (h.step hd) hds
    refine ⟨hready, hshifts.trans ?_⟩
    rw [h.shifts_step hd, moved, List.length_append, Nat.add_assoc]

theorem splits_of_mem_taken (h : c.Ready) {ds : List Decision} (hds : ∀ d ∈ ds, d.Open) :
    ∀ x ∈ taken ds c, Splits x.1 x.2 := by
  intro x hx
  obtain ⟨hready, hopen⟩ := h.of_mem_taken hds x hx
  exact hready.splits hopen

/-- **A flushed code may go on**, with an interval from zero. -/
theorem flush (h : c.Ready) : c.flush.Ready := by
  have hrange := range_flush c
  have hlow := toNat_low_flush c
  have hle := h.le_range
  have hlt := c.range.toNat_lt
  rw [← hrange] at hle hlt
  exact ⟨⟨held_shiftLow_pos _, by omega, by omega, fun _ => by omega⟩, hle⟩

end Ready

end Code

/-! ## Calls -/

namespace RangeWriter

/-- A drain, whether it succeeds or not, changes nothing but what is settled and the sink. -/
theorem exists_drain_eq (w : RangeWriter k) :
    ∃ settled sink, leftBy (drain w) = { w with code := { w.code with settled }, sink } := by
  obtain ⟨code, trees, sink, closed⟩ := w
  rw [drain]
  split
  · exact ⟨code.settled, sink, rfl⟩
  · cases Sink.write code.settled sink with
    | ok _ sink => exact ⟨.empty, sink, rfl⟩
    | error f sink => exact ⟨code.settled, sink, rfl⟩

theorem exists_send_eq (c : Fin k) (s : UInt32) (w : RangeWriter k) :
    ∃ settled sink, leftBy (send c s w) =
      { w with
        code := { w.code.run ((w.trees.get c).decisions s) with settled }
        trees := w.trees.set c ((w.trees.get c).learn s) c.isLt
        sink } := by
  obtain ⟨code, trees, sink, closed⟩ := w
  rw [send]
  simp only [BitTree.encode_eq]
  split
  · exact exists_drain_eq _
  · exact ⟨_, sink, rfl⟩

/-- A close brings out everything that `low` still holds, whether it succeeds or not. -/
theorem exists_close_eq {w : RangeWriter k} (h : w.closed = false) :
    ∃ settled sink, leftBy w.close =
      { w with code := { w.code.flush with settled }, sink, closed := true } := by
  rw [close_of_open h]
  exact exists_drain_eq _

end RangeWriter

namespace CoderStep

/-- **A step takes its decisions and learns from them**, also if it fails. -/
theorem exists_write_eq (s : CoderStep k m) (w : RangeWriter k) (slots : Vector Chance m) :
    ∃ settled sink, leftBy (s.write (w, slots)) =
      ({ w with
          code := { w.code.run (s.decisions ⟨w.trees, slots⟩) with settled }
          trees := (s.learn ⟨w.trees, slots⟩).trees
          sink },
        (s.learn ⟨w.trees, slots⟩).slots) := by
  cases s with
  | symbol c s =>
    obtain ⟨settled, sink, hsend⟩ := w.exists_send_eq c s
    refine ⟨settled, sink, ?_⟩
    rw [write]
    generalize RangeWriter.send c s w = x at hsend ⊢
    cases x with
    | ok _ w' => exact Prod.ext hsend rfl
    | error f w' => exact Prod.ext hsend rfl
  | bit slot shift b => exact ⟨_, w.sink, by rw [write, RangeWriter.bit, Code.narrow_eq]; rfl⟩
  | plain value count =>
    exact ⟨_, w.sink, by rw [write, RangeWriter.plain, Code.plain_eq_run]; rfl⟩

end CoderStep

/-- A call of a range coder by a caller with `m` chances of its own, who goes on after failures and also
behind a close. -/
inductive CoderCall (k m : ℕ) where
  /-- A step. -/
  | step (s : CoderStep k m)
  /-- A close. -/
  | close

namespace CoderCall

/-- What a call leaves behind. -/
def take : CoderCall k m → RangeWriter k × Vector Chance m → RangeWriter k × Vector Chance m
  | .step s, e => leftBy (s.write e)
  | .close, (w, slots) => (leftBy w.close, slots)

/-- What calls leave behind. -/
def takeAll (calls : List (CoderCall k m)) (e : RangeWriter k × Vector Chance m) :
    RangeWriter k × Vector Chance m := calls.foldl (fun e call => call.take e) e

/-- The decisions that a call takes, each with the code that it meets. -/
def taken : CoderCall k m → RangeWriter k × Vector Chance m → List (Code × Decision)
  | .step s, (w, slots) => Code.taken (s.decisions ⟨w.trees, slots⟩) w.code
  | .close, _ => []

/-- The codes that a byte is moved out of during a call. -/
def moved : CoderCall k m → RangeWriter k × Vector Chance m → List Code
  | .step s, (w, slots) => Code.moved (s.decisions ⟨w.trees, slots⟩) w.code
  | .close, (w, _) => if w.closed then [] else w.code.flushed

/-- What comes up during calls, one after the other. -/
def along {α : Type} (f : CoderCall k m → RangeWriter k × Vector Chance m → List α) :
    List (CoderCall k m) → RangeWriter k × Vector Chance m → List α
  | [], _ => []
  | call :: calls, e => f call e ++ along f calls (call.take e)

/-- Bits adapt the chances of the caller by their shifts. -/
def KeepsShift (shifts : Fin m → ℕ) : CoderCall k m → Prop
  | .step s => s.KeepsShift shifts
  | .close => True

instance (shifts : Fin m → ℕ) : (call : CoderCall k m) → Decidable (call.KeepsShift shifts)
  | .step s => inferInstanceAs (Decidable (s.KeepsShift shifts))
  | .close => inferInstanceAs (Decidable True)

/-- All numbers are inside their bounds. -/
structure Sound (contexts : Vector Context k) (shifts : Fin m → ℕ) (e : RangeWriter k × Vector Chance m) :
    Prop where
  /-- The chances are. -/
  models : Models.Within contexts shifts ⟨e.1.trees, e.2⟩
  /-- The code is. -/
  ready : e.1.code.Ready

variable {contexts : Vector Context k} {shifts : Fin m → ℕ} {e : RangeWriter k × Vector Chance m}

theorem sound_start (contexts : Vector Context k) (sink : Sink) (hshifts : ∀ s, shifts s ≤ 8) :
    Sound contexts shifts (RangeWriter.start contexts sink, Vector.replicate m Chance.even) :=
  ⟨Models.within_fresh contexts hshifts, Code.ready_start⟩

namespace Sound

theorem decisions (h : Sound contexts shifts e) (hshifts : ∀ s, 1 ≤ shifts s) (s : CoderStep k m) :
    ∀ d ∈ s.decisions ⟨e.1.trees, e.2⟩, d.Open := (h.models.opened hshifts).decisions s

/-- **A call keeps the bounds**, and counts what it moves. -/
theorem take (h : Sound contexts shifts e) (hshifts : ∀ s, 1 ≤ shifts s ∧ shifts s ≤ 8)
    {call : CoderCall k m} (hcall : call.KeepsShift shifts) :
    Sound contexts shifts (call.take e) ∧
      (call.take e).1.code.shifts = e.1.code.shifts + (call.moved e).length := by
  obtain ⟨w, slots⟩ := e
  cases call with
  | step s =>
    obtain ⟨settled, sink, hwrite⟩ := s.exists_write_eq w slots
    obtain ⟨hready, hmoved⟩ := h.ready.run (h.decisions (fun s => (hshifts s).1) s)
    have hmodels := h.models.learn (fun s => (hshifts s).2) hcall
    rw [CoderCall.take, hwrite]
    exact ⟨⟨hmodels, hready.resettled settled⟩, hmoved⟩
  | close =>
    cases hclosed : w.closed with
    | true =>
      rw [CoderCall.take, RangeWriter.close_of_closed hclosed, moved, if_pos hclosed]
      exact ⟨h, rfl⟩
    | false =>
      obtain ⟨settled, sink, hclose⟩ := RangeWriter.exists_close_eq hclosed
      rw [CoderCall.take, hclose, moved, hclosed, if_neg Bool.false_ne_true]
      exact ⟨⟨h.models, h.ready.flush.resettled settled⟩, Code.shifts_flush h.ready.tame.held_pos⟩

/-- **Calls keep the bounds**, and count what they move. -/
theorem takeAll (h : Sound contexts shifts e) (hshifts : ∀ s, 1 ≤ shifts s ∧ shifts s ≤ 8)
    {calls : List (CoderCall k m)} (hcalls : ∀ call ∈ calls, call.KeepsShift shifts) :
    Sound contexts shifts (takeAll calls e) ∧
      (CoderCall.takeAll calls e).1.code.shifts = e.1.code.shifts + (along moved calls e).length := by
  induction calls generalizing e with
  | nil => exact ⟨h, rfl⟩
  | cons call calls ih =>
    obtain ⟨hcall, hcalls⟩ := List.forall_mem_cons.mp hcalls
    obtain ⟨hsound, hshift⟩ := h.take hshifts hcall
    obtain ⟨hsound', hshift'⟩ := ih hsound hcalls
    refine ⟨hsound', hshift'.trans ?_⟩
    rw [hshift, along, List.length_append, Nat.add_assoc]

/-- What holds of all that comes up during one call holds of all that comes up during calls. -/
theorem forall_along (h : Sound contexts shifts e) (hshifts : ∀ s, 1 ≤ shifts s ∧ shifts s ≤ 8) {α : Type}
    {f : CoderCall k m → RangeWriter k × Vector Chance m → List α} {P : α → Prop}
    (hf : ∀ e, Sound contexts shifts e → ∀ call : CoderCall k m, ∀ x ∈ f call e, P x)
    {calls : List (CoderCall k m)} (hcalls : ∀ call ∈ calls, call.KeepsShift shifts) :
    ∀ x ∈ along f calls e, P x := by
  induction calls generalizing e with
  | nil => exact List.forall_mem_nil _
  | cons call calls ih =>
    obtain ⟨hcall, hcalls⟩ := List.forall_mem_cons.mp hcalls
    exact List.forall_mem_append.mpr ⟨hf e h call, ih (h.take hshifts hcall).1 hcalls⟩

theorem splits (h : Sound contexts shifts e) (hshifts : ∀ s, 1 ≤ shifts s) (call : CoderCall k m) :
    ∀ x ∈ call.taken e, Code.Splits x.1 x.2 := by
  obtain ⟨w, slots⟩ := e
  cases call with
  | step s => exact h.ready.splits_of_mem_taken (h.decisions hshifts s)
  | close => exact List.forall_mem_nil _

theorem moves (h : Sound contexts shifts e) (hshifts : ∀ s, 1 ≤ shifts s) (call : CoderCall k m) :
    ∀ c ∈ call.moved e, c.Moves := by
  obtain ⟨w, slots⟩ := e
  cases call with
  | step s => exact fun c hc => (h.ready.carryFits_moved (h.decisions hshifts s) c hc).moves
  | close =>
    intro c hc
    rw [moved] at hc
    split at hc
    · exact absurd hc List.not_mem_nil
    · exact (h.ready.tame.carryFits_flushed c hc).moves

end Sound

end CoderCall

end BlockPress
