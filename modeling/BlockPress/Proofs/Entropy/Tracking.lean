import BlockPress.Entropy.Register
import BlockPress.Proofs.Entropy.Symbol

/-!
# Following the number

A reader of coded data follows the interval of the writer: its `code` is the distance of the bytes read
so far from the lower end (`Register.Tracks`).  As long as the data lies in the interval that the next
decision leaves (`Lies`), **the reader takes that decision** (`bit_eq`, `half_eq`), and it reads the
bytes of a widening only when the next decision asks for them.
-/

namespace BlockPress

/-- The number of the first `m` bytes of coded data that starts at `base`. -/
def window (data : ByteArray) (base m : Nat) : Nat := number ((data.data.toList.drop base).take m)

theorem window_succ {data : ByteArray} {base m : Nat} (h : base + m < data.size) :
    window data base (m + 1) = 256 * window data base m + data[base + m].toNat := by
  have hlen : m < (data.data.toList.drop base).length := by
    rw [List.length_drop, Array.length_toList]
    change m < data.size - base
    omega
  have hget : (data.data.toList.drop base)[m] = data[base + m] := by
    rw [List.getElem_drop, Array.getElem_toList]
    rfl
  rw [window, List.take_succ_eq_append_getElem hlen, number_concat, hget]
  rfl

/-- The coded data lies in the interval, and is there as far as the interval was shifted. -/
structure Lies (data : ByteArray) (base : Nat) (i : Interval) : Prop where
  /-- The bytes are there. -/
  size_le : base + (i.shifts + 5) ≤ data.size
  /-- They are not below the interval. -/
  low_le : i.low ≤ window data base (i.shifts + 5)
  /-- They are not above it. -/
  lt_high : window data base (i.shifts + 5) < i.low + i.range

/-- Each byte more multiplies the number and adds less than a unit. -/
theorem window_add {data : ByteArray} {base m n : Nat} (h : base + (m + n) ≤ data.size) :
    window data base m * 256 ^ n ≤ window data base (m + n) ∧
      window data base (m + n) < (window data base m + 1) * 256 ^ n := by
  induction n with
  | zero => simp
  | succ n ih =>
    obtain ⟨h₁, h₂⟩ := ih (by omega)
    have hlt : base + (m + n) < data.size := by omega
    have hstep := window_succ hlt
    have hbyte := (data[base + (m + n)]).toNat_lt
    rw [← Nat.add_assoc, hstep, Nat.pow_succ, ← Nat.mul_assoc, ← Nat.mul_assoc]
    omega

/-- **Data that lies in a later interval lies in every interval before it.** -/
theorem Lies.of_within {data : ByteArray} {base : Nat} {i j : Interval} (h : Lies data base j)
    (hj : j.Within i) : Lies data base i := by
  obtain ⟨n, hn, hlow, hhigh⟩ := hj
  have hsize := h.size_le
  have hshifts : j.shifts + 5 = i.shifts + 5 + n := by omega
  have hle : base + (i.shifts + 5 + n) ≤ data.size := by omega
  obtain ⟨h₁, h₂⟩ := window_add hle
  have hpow : 0 < 256 ^ n := Nat.pow_pos (by omega)
  have hl := h.low_le
  have hh := h.lt_high
  rw [hshifts] at hl hh
  refine ⟨by omega, ?_, ?_⟩
  · have : i.low * 256 ^ n < (window data base (i.shifts + 5) + 1) * 256 ^ n := by omega
    exact Nat.le_of_lt_succ (Nat.lt_of_mul_lt_mul_right this)
  · have : window data base (i.shifts + 5) * 256 ^ n < (i.low + i.range) * 256 ^ n := by omega
    exact Nat.lt_of_mul_lt_mul_right this

theorem Lies.range_pos {data : ByteArray} {base : Nat} {i : Interval} (h : Lies data base i) :
    0 < i.range := by
  have := h.low_le
  have := h.lt_high
  omega

namespace Register

/-- The register holds the distance of the data read so far from the lower end of the interval. -/
structure Tracks (data : ByteArray) (base : Nat) (i : Interval) (r : Register) : Prop where
  /-- The source is behind the bytes of the interval. -/
  source_eq : r.source = { data := data, position := base + (i.shifts + 5) }
  /-- The ranges are the same. -/
  range_eq : r.range.toNat = i.range
  /-- The code is the distance from the lower end. -/
  code_eq : i.low + r.code.toNat = window data base (i.shifts + 5)

namespace Tracks

variable {data : ByteArray} {base : Nat} {i : Interval} {r : Register}

theorem code_lt (h : Tracks data base i r) (hl : Lies data base i) : r.code.toNat < i.range := by
  have := h.code_eq
  have := hl.lt_high
  omega

end Tracks

theorem next_eq {data : ByteArray} {p : Nat} (h : p < data.size) :
    Source.next { data := data, position := p } = .ok data[p] { data := data, position := p + 1 } := by
  rw [Source.next, dif_pos (show p < Source.bound { data := data, position := p } from h)]

theorem toNat_shift_byte {x y : UInt32} (hx : x.toNat < 2 ^ 24) (hy : y.toNat < 2 ^ 8) :
    (x <<< 8 ||| y).toNat = 256 * x.toNat + y.toNat := by
  rw [UInt32.toNat_or, Code.toNat_shiftLeft_eight_of_lt_top hx, Nat.mul_comm]
  exact (Nat.two_pow_add_eq_or_of_lt hy x.toNat).symm

/-- **Before a decision the reader widens as the writer did.** -/
theorem refill_eq {data : ByteArray} {base : Nat} {i : Interval} {r : Register}
    (h : Tracks data base i r) (hl : Lies data base i.normalize) :
    ∃ r', r.refill = .ok () r' ∧ Tracks data base i.normalize r' := by
  fun_induction Interval.normalize i generalizing r with
  | case1 i hi ih =>
    have hw : Lies data base i.widen := hl.of_within (Interval.within_normalize _)
    have hcode := h.code_lt (hw.of_within (Interval.within_widen i))
    have hsize : base + (i.shifts + 5) < data.size := by
      have := hw.size_le
      simp only [Interval.widen] at this
      omega
    have hr : r.range < top := UInt32.lt_iff_toNat_lt.mpr (h.range_eq ▸ hi.1)
    let b := data[base + (i.shifts + 5)]
    have hwin := window_succ hsize
    have hc := h.code_eq
    have hlt : r.code.toNat < 2 ^ 24 := by omega
    have hread : Tracks data base i.widen
        ⟨{ data := data, position := base + (i.shifts + 5) + 1 }, r.range <<< 8,
          r.code <<< 8 ||| b.toUInt32⟩ := by
      refine ⟨rfl, ?_, ?_⟩
      · rw [Code.toNat_shiftLeft_eight_of_lt_top hr, h.range_eq, Nat.mul_comm]
        rfl
      · have hbyte : b.toUInt32.toNat < 2 ^ 8 := b.toNat_lt
        rw [toNat_shift_byte hlt hbyte, UInt8.toNat_toUInt32]
        simp only [Interval.widen]
        rw [hwin, ← hc]
        ring
    obtain ⟨r', hr', ht⟩ := ih hread hl
    refine ⟨r', ?_, ht⟩
    rw [refill, if_pos hr]
    split
    · next b' s' heq =>
      rw [h.source_eq, next_eq hsize] at heq
      cases heq
      exact hr'
    · next heq =>
      rw [h.source_eq, next_eq hsize] at heq
      cases heq
  | case2 i hi =>
    have hr : ¬r.range < top := by
      intro hlt
      have hlt' : r.range.toNat < 2 ^ 24 := UInt32.lt_iff_toNat_lt.mp hlt
      have := hl.range_pos
      exact hi ⟨h.range_eq ▸ hlt', by omega⟩
    exact ⟨r, by rw [refill, if_neg hr], h⟩

/-- **The reader takes a decision under a chance.** -/
theorem bit_eq {data : ByteArray} {base : Nat} {i : Interval} {r : Register}
    (h : Tracks data base i r) {p : Chance} (hp : p.Open) (shift : Nat) {b : Bool}
    (hl : Lies data base (i.normalize.cut (.chance p b))) :
    ∃ r', bit p shift r = .ok (b, p.adapt shift b) r' ∧
      Tracks data base (i.normalize.cut (.chance p b)) r' := by
  have hn : Lies data base i.normalize := hl.of_within (Interval.within_cut _ hp)
  obtain ⟨r', hr', ht⟩ := refill_eq h hn
  have hshare := Chance.toNat_share hp r'.range
  rw [ht.range_eq] at hshare
  have hc := ht.code_eq
  have hsharele := Interval.share_le hp i.normalize.range
  cases b with
  | false =>
    have hhigh := hl.lt_high
    simp only [Interval.cut] at hhigh
    have hlt : r'.code < p.share r'.range := UInt32.lt_iff_toNat_lt.mpr (by omega)
    refine ⟨{ r' with range := p.share r'.range }, ?_, ht.source_eq, hshare, hc⟩
    simp only [bit, hr', if_pos hlt]
  | true =>
    have hlow := hl.low_le
    simp only [Interval.cut] at hlow
    have hle : p.share r'.range ≤ r'.code := UInt32.le_iff_toNat_le.mpr (by omega)
    have hle' : p.share r'.range ≤ r'.range :=
      UInt32.le_iff_toNat_le.mpr (by have := ht.range_eq; omega)
    have hlt : ¬r'.code < p.share r'.range := fun hlt => by
      have := UInt32.lt_iff_toNat_lt.mp hlt
      omega
    refine ⟨{ r' with range := r'.range - p.share r'.range, code := r'.code - p.share r'.range }, ?_,
      ht.source_eq, ?_, ?_⟩
    · simp only [bit, hr', if_neg hlt]
    · rw [UInt32.toNat_sub_of_le _ _ hle', hshare, ht.range_eq]
      rfl
    · rw [UInt32.toNat_sub_of_le _ _ hle, hshare]
      simp only [Interval.cut]
      have := UInt32.le_iff_toNat_le.mp hle
      omega

/-- **The reader takes a decision between halves**: the sign of the wrapped difference is the bit. -/
theorem half_eq {data : ByteArray} {base : Nat} {i : Interval} {r : Register}
    (h : Tracks data base i r) {b : Bool} (hl : Lies data base (i.normalize.cut (.half b))) :
    ∃ r', half r = .ok b r' ∧ Tracks data base (i.normalize.cut (.half b)) r' := by
  have hn : Lies data base i.normalize :=
    hl.of_within (Interval.within_cut (d := .half b) _ trivial)
  obtain ⟨r', hr', ht⟩ := refill_eq h hn
  have hc := ht.code_eq
  have hcode := ht.code_lt hn
  have hrange := ht.range_eq
  have hrlt := r'.range.toNat_lt
  have hhalf : (r'.range >>> 1).toNat = r'.range.toNat / 2 := by
    rw [UInt32.toNat_shiftRight, Nat.shiftRight_eq_div_pow]
    rfl
  have hsub : (r'.code - r'.range >>> 1).toNat =
      (2 ^ 32 - r'.range.toNat / 2 + r'.code.toNat) % 2 ^ 32 := by
    rw [UInt32.toNat_sub, hhalf]
  have hsign : (0x80000000 : UInt32).toNat = 2 ^ 31 := rfl
  have hclt := r'.code.toNat_lt
  cases b with
  | false =>
    have hhigh := hl.lt_high
    simp only [Interval.cut] at hhigh
    have hnlt : ¬r'.code - r'.range >>> 1 < 0x80000000 := fun hlt => by
      have := UInt32.lt_iff_toNat_lt.mp hlt
      omega
    refine ⟨{ r' with range := r'.range >>> 1, code := r'.code - r'.range >>> 1 + r'.range >>> 1 }, ?_,
      ht.source_eq, ?_, ?_⟩
    · simp only [half, hr', if_neg hnlt]
    · rw [hhalf, hrange]
      rfl
    · rw [UInt32.sub_add_cancel]
      exact hc
  | true =>
    have hlow := hl.low_le
    simp only [Interval.cut] at hlow
    have hlt : r'.code - r'.range >>> 1 < 0x80000000 := UInt32.lt_iff_toNat_lt.mpr (by omega)
    refine ⟨{ r' with range := r'.range >>> 1, code := r'.code - r'.range >>> 1 }, ?_,
      ht.source_eq, ?_, ?_⟩
    · simp only [half, hr', if_pos hlt]
    · rw [hhalf, hrange]
      rfl
    · rw [hsub]
      simp only [Interval.cut]
      omega

/-! ## Reading numbers -/

/-- One bit more behind a word; what leaves the word at the top is lost. -/
theorem toNat_shift_bit (x : UInt32) (b : Bool) :
    (x <<< 1 ||| b.toUInt32).toNat = (2 * x.toNat + b.toNat) % 2 ^ 32 := by
  have hx := x.toNat_lt
  have hshift : (x <<< 1).toNat = 2 ^ 1 * (x.toNat % 2 ^ 31) := by
    rw [UInt32.toNat_shiftLeft, Nat.shiftLeft_eq]
    change x.toNat * 2 % 2 ^ 32 = _
    omega
  have hb : b.toUInt32.toNat = b.toNat := by cases b <;> rfl
  have hb1 := b.toNat_le
  rw [UInt32.toNat_or, hshift, hb, ← Nat.two_pow_add_eq_or_of_lt (by omega)]
  omega

theorem mod_two_pow_succ (value n : Nat) :
    value % 2 ^ (n + 1) = (value.testBit n).toNat * 2 ^ n + value % 2 ^ n := by
  rw [Nat.mod_pow_succ, Nat.toNat_testBit, Nat.add_comm, Nat.mul_comm]

/-- **Reading plain bits gives their number**, behind the bits read before. -/
theorem plain_eq {data : ByteArray} {base : Nat} (value n : Nat) {i : Interval} {r : Register}
    (h : Tracks data base i r) (v : UInt32)
    (hl : Lies data base (i.cutAll (Code.plainDecisions value n))) :
    ∃ r', plain v n r = .ok (UInt32.ofNat (v.toNat * 2 ^ n + value % 2 ^ n)) r' ∧
      Tracks data base (i.cutAll (Code.plainDecisions value n)) r' := by
  induction n generalizing i r v with
  | zero =>
    refine ⟨r, ?_, h⟩
    rw [plain, Nat.pow_zero, Nat.mul_one, Nat.mod_one, Nat.add_zero, UInt32.ofNat_toNat]
  | succ n ih =>
    have hopen := BitTree.open_plainDecisions value n
    obtain ⟨r', hr', ht⟩ := half_eq h (hl.of_within (Interval.within_cutAll hopen _))
    obtain ⟨r'', hr'', ht'⟩ := ih ht (v <<< 1 ||| (value.testBit n).toUInt32) hl
    refine ⟨r'', ?_, ht'⟩
    have hvalue :
        UInt32.ofNat ((2 * v.toNat + (value.testBit n).toNat) % 2 ^ 32 * 2 ^ n + value % 2 ^ n) =
        UInt32.ofNat (v.toNat * 2 ^ (n + 1) + value % 2 ^ (n + 1)) := by
      rw [UInt32.ofNat_add, UInt32.ofNat_mul, UInt32.ofNat_mod_size, ← UInt32.ofNat_mul,
        ← UInt32.ofNat_add, mod_two_pow_succ, Nat.pow_succ]
      congr 1
      ring
    rw [plain]
    simp only [hr', hr'', toNat_shift_bit, hvalue]

end Register

end BlockPress
