import BlockPress.Proofs.Entropy.Carry

/-!
# The code and its number

A `Code` runs through the same decisions as an `Interval`, with words in place of unbounded numbers.
`Represents` ties the two together: the bytes handed on, settled and held back, followed by `low`, are
the number of the interval.  The relation holds at the start, survives every decision
(`represents_run`) and every drain (`Represents.drained`), and **a flushed code has written the
big-endian form of the number** (`bytes_flush`).

`Tame` is the invariant of the carry.  After a carry the cached byte may be `0xff`; the interval then
ends before the next carry, and it can only shrink.
-/

namespace BlockPress.Code

/-! ## Decisions -/

/-- Cuts the interval down to the part of a decision, without widening it. -/
def cut (c : Code) : Decision → Code
  | .chance p false => { c with range := p.share c.range }
  | .chance p true =>
    { c with low := c.low + (p.share c.range).toUInt64, range := c.range - p.share c.range }
  | .half false => { c with range := c.range >>> 1 }
  | .half true =>
    { c with low := c.low + (c.range >>> 1).toUInt64, range := c.range >>> 1 }

/-- Writes a decision. -/
def step (c : Code) (d : Decision) : Code := (c.cut d).normalize

/-- Writes decisions one after the other. -/
def run (ds : List Decision) (c : Code) : Code := ds.foldl step c

theorem narrow_eq (c : Code) (p : Chance) (b : Bool) : c.narrow p b = c.step (.chance p b) := by
  cases b <;> rfl

theorem halve_eq (c : Code) (b : Bool) : c.halve b = c.step (.half b) := by
  cases b <;> rfl

theorem run_append (ds es : List Decision) (c : Code) : c.run (ds ++ es) = (c.run ds).run es :=
  List.foldl_append

/-- The decisions of the low `n` bits of a number that goes without a model. -/
def plainDecisions (value : Nat) : Nat → List Decision
  | 0 => []
  | n + 1 => .half (value.testBit n) :: plainDecisions value n

theorem plain_eq_run (value n : Nat) (c : Code) : c.plain value n = c.run (plainDecisions value n) := by
  induction n generalizing c with
  | zero => rfl
  | succ n ih =>
    rw [plain, ih, halve_eq]
    rfl

/-- The last of them is a half. -/
theorem exists_plainDecisions_eq_concat (value n : Nat) :
    ∃ ds b, plainDecisions value (n + 1) = ds ++ [.half b] := by
  induction n with
  | zero => exact ⟨[], _, rfl⟩
  | succ n ih =>
    obtain ⟨ds, b, h⟩ := ih
    exact ⟨_ :: ds, b, congrArg (_ :: ·) h⟩

/-! ## The invariant of the carry -/

/-- Every carry that can still come is taken by the cached byte. -/
structure Tame (c : Code) : Prop where
  /-- Bytes are held back. -/
  held_pos : 0 < c.held
  /-- The interval is not empty. -/
  range_pos : 0 < c.range.toNat
  /-- The interval ends before a second carry. -/
  high_le : c.low.toNat + c.range.toNat ≤ 2 ^ 33
  /-- Behind a cached `0xff` the interval ends before a carry. -/
  high_le_of_max : c.cache = 0xFF → c.low.toNat + c.range.toNat ≤ 2 ^ 32

/-- **A carry fits the cached byte.** -/
theorem Tame.carryFits {c : Code} (h : c.Tame) : c.CarryFits where
  held_pos := h.held_pos
  low_lt := by
    have := h.high_le
    have := h.range_pos
    omega
  cache_add_le := by
    have hpos := h.range_pos
    have hle := h.high_le
    have hcache := c.cache.toNat_lt
    have hcarry := c.toNat_carry
    by_cases hmax : c.cache = 0xFF
    · have := h.high_le_of_max hmax
      omega
    · have : c.cache.toNat ≠ 255 := fun h255 => hmax (UInt8.toNat_inj.mp h255)
      omega

/-- A cut changes nothing but the interval. -/
theorem cut_eq (c : Code) (d : Decision) :
    c.cut d = { c with low := (c.cut d).low, range := (c.cut d).range } := by
  rcases d with ⟨p, _ | _⟩ | _ | _ <;> rfl

/-- **Words are cut as unbounded numbers are.** -/
theorem toNat_cut {c : Code} (hhigh : c.low.toNat + c.range.toNat ≤ 2 ^ 33) {d : Decision} (hd : d.Open)
    {i : Interval} (hi : c.range.toNat = i.range) :
    (c.cut d).range.toNat = (i.cut d).range ∧
      (c.cut d).low.toNat + i.low = c.low.toNat + (i.cut d).low := by
  have hhalf : (c.range >>> 1).toNat = i.range / 2 := by
    rw [UInt32.toNat_shiftRight, Nat.shiftRight_eq_div_pow, hi]
    rfl
  have hadd (x : UInt32) (hx : x.toNat ≤ c.range.toNat) :
      (c.low + x.toUInt64).toNat = c.low.toNat + x.toNat := by
    rw [UInt64.toNat_add, UInt32.toNat_toUInt64]
    omega
  rcases d with ⟨p, _ | _⟩ | _ | _
  · have hshare := Chance.toNat_share hd c.range
    rw [hi] at hshare
    exact ⟨hshare, rfl⟩
  · have hshare := Chance.toNat_share hd c.range
    have hle := Interval.share_le hd i.range
    rw [hi] at hshare
    have hrange : (c.range - p.share c.range).toNat = c.range.toNat - (p.share c.range).toNat :=
      UInt32.toNat_sub_of_le _ _ (UInt32.le_iff_toNat_le.mpr (by omega))
    have hlow := hadd (p.share c.range) (by omega)
    simp only [cut, Interval.cut]
    omega
  · exact ⟨hhalf, rfl⟩
  · have hlow := hadd (c.range >>> 1) (by omega)
    simp only [cut, Interval.cut]
    omega

theorem range_ne_zero {c : Code} (h : 0 < c.range.toNat) : c.range ≠ 0 :=
  mt (congrArg UInt32.toNat) h.ne'

theorem Tame.cut {c : Code} (h : c.Tame) (hr : 2 ^ 24 ≤ c.range.toNat) {d : Decision} (hd : d.Open) :
    (c.cut d).Tame := by
  let i : Interval := ⟨c.low.toNat, c.range.toNat, 0⟩
  obtain ⟨hrange, hlow⟩ := toNat_cut h.high_le hd (i := i) rfl
  obtain ⟨-, hhigh⟩ := i.cut_bounds hd
  have hpos := (Interval.range_cut (i := i) hr hd).1
  have hle : (c.cut d).low.toNat + (c.cut d).range.toNat ≤ c.low.toNat + c.range.toNat := by
    simp only [i] at hrange hlow hhigh
    omega
  refine ⟨?_, hrange ▸ hpos, hle.trans h.high_le, fun hmax => hle.trans (h.high_le_of_max ?_)⟩
  · rw [cut_eq]
    exact h.held_pos
  · rwa [cut_eq] at hmax

/-- The code with a range that is a byte wider, before a byte is moved out of `low`. -/
def wider (c : Code) : Code := { c with range := c.range <<< 8 }

theorem toNat_range_wider {c : Code} (h : c.range.toNat < 2 ^ 24) :
    c.wider.range.toNat = c.range.toNat * 256 :=
  toNat_shiftLeft_eight_of_lt_top h

/-- A byte that is moved out of `low` leaves an interval that ends before a second carry, and before
a carry if the cached byte has become `0xff`. -/
theorem Tame.shiftLow_wider {c : Code} (h : c.Tame) (hr : c.range.toNat < 2 ^ 24) :
    c.wider.shiftLow.Tame := by
  have hlow : c.wider.shiftLow.low.toNat = c.low.toNat % 2 ^ 24 * 256 := toNat_low_shiftLow _
  have hrange : c.wider.shiftLow.range.toNat = c.range.toNat * 256 := by
    rw [range_shiftLow, toNat_range_wider hr]
  have hpos := h.range_pos
  have hle := h.high_le
  refine ⟨held_shiftLow_pos _, by omega, by omega, fun hmax => ?_⟩
  by_cases hs : c.wider.low.toNat < 0xFF000000 ∨ 0xFFFFFFFF < c.wider.low.toNat
  · have hcache : c.low.toNat / 2 ^ 24 % 256 = 255 := by
      rw [shiftLow_of_settles hs] at hmax
      rw [← show c.wider.settle.cache.toNat = 255 from congrArg UInt8.toNat hmax]
      exact (toNat_cache_settle _).symm
    have hs' : c.low.toNat < 0xFF000000 ∨ 0xFFFFFFFF < c.low.toNat := hs
    omega
  · have hcache : c.cache = 0xFF := by rwa [shiftLow_of_holds hs] at hmax
    have := h.high_le_of_max hcache
    have hs' : ¬(c.low.toNat < 0xFF000000 ∨ 0xFFFFFFFF < c.low.toNat) := hs
    omega

/-! ## The number of the interval -/

/-- The bytes handed on and the code are at the number of the interval. -/
structure Represents (before : List UInt8) (c : Code) (i : Interval) : Prop where
  /-- No carry will be lost. -/
  tame : c.Tame
  /-- The ranges are the same. -/
  range_eq : c.range.toNat = i.range
  /-- The numbers are the same. -/
  value_eq : c.value before = i.low
  /-- There is a byte for each shift, and one more. -/
  length_eq : before.length + c.settled.size + c.held = i.shifts + 1
  /-- All settled bytes are counted, those handed on included. -/
  produced_eq : c.produced = before.length + c.settled.size

theorem represents_start : Represents [] {} {} where
  tame := ⟨by decide, by decide, by decide, fun _ => by decide⟩
  range_eq := rfl
  value_eq := rfl
  length_eq := rfl
  produced_eq := rfl

namespace Represents

variable {before : List UInt8} {c : Code} {i : Interval}

/-- The code counts the shifts of the interval, and the byte at the start. -/
theorem shifts_eq (h : Represents before c i) : c.shifts = i.shifts + 1 := by
  rw [shifts, h.produced_eq, h.length_eq]

theorem widen (h : Represents before c i) (hr : i.range < 2 ^ 24) :
    Represents before c.wider.shiftLow i.widen := by
  have hr' : c.range.toNat < 2 ^ 24 := h.range_eq ▸ hr
  have hfits : c.wider.CarryFits :=
    ⟨h.tame.held_pos, h.tame.carryFits.low_lt, h.tame.carryFits.cache_add_le⟩
  have hsize := size_settled_shiftLow (c := c.wider) h.tame.held_pos
  have hshifts := shifts_shiftLow (c := c.wider) h.tame.held_pos
  have hlength := h.length_eq
  have hproduced := h.produced_eq
  refine ⟨h.tame.shiftLow_wider hr', ?_, ?_, ?_, ?_⟩
  · rw [range_shiftLow, toNat_range_wider hr', h.range_eq, Nat.mul_comm]
    rfl
  · rw [value_shiftLow hfits]
    exact congrArg (256 * ·) h.value_eq
  · simp only [wider] at hsize ⊢
    simp only [Interval.widen]
    omega
  · simp only [shifts, wider] at hsize hshifts ⊢
    omega

theorem normalize (h : Represents before c i) : Represents before c.normalize i.normalize := by
  fun_induction Code.normalize c generalizing i with
  | case1 c hc ih =>
    have hr : i.range < 2 ^ 24 := h.range_eq ▸ hc.1
    rw [Interval.normalize_of_lt hr (h.range_eq ▸ h.tame.range_pos)]
    exact ih (h.widen hr)
  | case2 c hc =>
    have hr : ¬c.range.toNat < 2 ^ 24 := fun hlt => hc ⟨hlt, range_ne_zero h.tame.range_pos⟩
    rwa [Interval.normalize_of_le (h.range_eq ▸ Nat.le_of_not_lt hr)]

theorem cut (h : Represents before c i) (hi : 2 ^ 24 ≤ i.range) {d : Decision} (hd : d.Open) :
    Represents before (c.cut d) (i.cut d) := by
  obtain ⟨hrange, hlow⟩ := toNat_cut h.tame.high_le hd h.range_eq
  have htame := h.tame.cut (h.range_eq ▸ hi) hd
  have hvalue := h.value_eq
  rw [cut_eq] at htame hrange hlow ⊢
  refine ⟨htame, hrange, ?_, ?_, h.produced_eq⟩
  · simp only [value, bytes, heldBytes] at hvalue hlow ⊢
    omega
  · rw [Interval.shifts_cut]
    exact h.length_eq

theorem step (h : Represents before c i) (hi : i.Sound) {d : Decision} (hd : d.Open) :
    Represents before (c.step d) (i.step d) :=
  (h.cut hi.le_range hd).normalize

/-- Handing on the settled bytes leaves the number. -/
theorem drained (h : Represents before c i) :
    Represents (before ++ c.settled.data.toList) { c with settled := .empty } i := by
  have hlength := h.length_eq
  have hproduced := h.produced_eq
  have hsize : c.settled.data.toList.length = c.settled.size := Array.length_toList
  refine ⟨⟨h.tame.held_pos, h.tame.range_pos, h.tame.high_le, h.tame.high_le_of_max⟩, h.range_eq, ?_,
    ?_, ?_⟩
  · rw [← h.value_eq]
    simp only [value, bytes, heldBytes, ByteArray.data_empty, Array.toList_empty, List.append_nil]
  · rw [List.length_append, hsize]
    exact hlength
  · rw [List.length_append, hsize]
    exact hproduced

end Represents

/-- **A code that takes decisions follows arithmetic coding without bounds.** -/
theorem represents_run {before : List UInt8} {c : Code} {i : Interval} (h : Represents before c i)
    (hi : i.Sound) {ds : List Decision} (hds : ∀ d ∈ ds, d.Open) :
    Represents before (c.run ds) (i.run ds) := by
  induction ds generalizing c i with
  | nil => exact h
  | cons d ds ih =>
    obtain ⟨hd, hds⟩ := List.forall_mem_cons.mp hds
    exact ih (h.step hi hd) (hi.step hd) hds

/-! ## Flushing -/

/-- A byte that is moved out of `low` leaves no carry behind. -/
theorem carryFits_shiftLow (c : Code) : c.shiftLow.CarryFits where
  held_pos := held_shiftLow_pos c
  low_lt := by
    rw [toNat_low_shiftLow]
    omega
  cache_add_le := by
    have hlt := c.shiftLow.cache.toNat_lt
    rw [toNat_carry, toNat_low_shiftLow]
    omega

/-- An empty `low` settles all bytes held back. -/
theorem settled_shiftLow_of_low_eq_zero {c : Code} (h : c.low.toNat = 0) :
    c.shiftLow.settled.data.toList = c.settled.data.toList ++ c.heldBytes := by
  have hcarry : c.carry = 0 := UInt8.toNat_inj.mp (by rw [toNat_carry, h]; rfl)
  rw [shiftLow_of_settles (Or.inl (by omega))]
  refine (toList_settled_settle c).trans ?_
  rw [hcarry, UInt8.add_zero, UInt8.add_zero, heldBytes]

/-- **A flushed code has written the big-endian form of the number**, in five bytes more than were
shifted. -/
theorem bytes_flush {before : List UInt8} {c : Code} {i : Interval} (h : Represents before c i) :
    before ++ c.flush.settled.data.toList = bigEndian (i.shifts + 5) i.low := by
  have hlow : c.shiftLow.shiftLow.shiftLow.shiftLow.low.toNat = 0 := by
    simp only [toNat_low_shiftLow]
    omega
  have hvalue : c.shiftLow.shiftLow.shiftLow.shiftLow.value before = 256 ^ 4 * i.low := by
    rw [value_shiftLow (carryFits_shiftLow _), value_shiftLow (carryFits_shiftLow _),
      value_shiftLow (carryFits_shiftLow _), value_shiftLow h.tame.carryFits, h.value_eq]
    omega
  have hbytes : before ++ c.flush.settled.data.toList =
      c.shiftLow.shiftLow.shiftLow.shiftLow.bytes before := by
    rw [flush, settled_shiftLow_of_low_eq_zero hlow, bytes, List.append_assoc]
  have hlength : (c.shiftLow.shiftLow.shiftLow.shiftLow.bytes before).length = i.shifts + 5 := by
    have hsize := h.length_eq
    have h₁ := size_settled_shiftLow h.tame.held_pos
    have h₂ := size_settled_shiftLow (held_shiftLow_pos c)
    have h₃ := size_settled_shiftLow (held_shiftLow_pos c.shiftLow)
    have h₄ := size_settled_shiftLow (held_shiftLow_pos c.shiftLow.shiftLow)
    have hheld := held_shiftLow_pos c.shiftLow.shiftLow.shiftLow
    simp only [bytes, heldBytes, List.length_append, List.length_cons, List.length_replicate,
      Array.length_toList]
    change before.length + c.shiftLow.shiftLow.shiftLow.shiftLow.settled.size + _ = _
    omega
  have hnumber : number (c.shiftLow.shiftLow.shiftLow.shiftLow.bytes before) = i.low := by
    rw [value, hlow] at hvalue
    omega
  rw [hbytes, ← hlength, ← hnumber, bigEndian_number]

end BlockPress.Code
