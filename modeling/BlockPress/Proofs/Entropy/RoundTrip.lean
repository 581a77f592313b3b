import BlockPress.Entropy.RangeReader
import BlockPress.Proofs.Entropy.Steps
import BlockPress.Proofs.Entropy.Tracking
import BlockPress.Proofs.Word

/-!
# The round trip of the range coder

A reader that is asked for the same steps as the writer gets every symbol, bit and value back, and its
models stay those of the writer (`read_written`).  It runs one widening behind: **what it leaves of the
writer's bytes is what the last decision has moved out** (`lastWidening`).
-/

namespace BlockPress

/-! ## Reading symbols -/

namespace BitTree

open Register

variable {data : ByteArray} {base : Nat}

/-- **Going down the tree along the decisions of a value reads the value**, and the chances adapt as on
the writing side. -/
theorem read_eq {size shift : Nat} (h₁ : 1 ≤ shift) (h₂ : shift ≤ 15) (value n node : Nat)
    (h : (node + 1) * 2 ^ n ≤ 2 * size) {chances : Vector Chance size}
    (ho : ∀ p ∈ chances, p.Open) {i : Interval} {r : Register} (ht : Tracks data base i r)
    (hl : Lies data base (i.cutAll (path shift value n node h chances))) :
    ∃ r', read shift n node h (chances, r) =
        .ok (node * 2 ^ n + value % 2 ^ n) (adapted shift value n node h chances, r') ∧
      Tracks data base (i.cutAll (path shift value n node h chances)) r' := by
  induction n generalizing node chances i r with
  | zero =>
    refine ⟨r, ?_, ht⟩
    rw [read, Nat.pow_zero, Nat.mul_one, Nat.mod_one, Nat.add_zero, adapted]
  | succ n ih =>
    have hnode : node < size := lt_of_walk h
    have hp : chances[node].Open := ho _ (Vector.getElem_mem hnode)
    have ho' := forall_set ho hnode (hp.adapt h₁ h₂ (value.testBit n))
    have hpath := open_path h₁ h₂ value n (2 * node + (value.testBit n).toNat) (walk_step h _) ho'
    obtain ⟨r', hr', ht'⟩ :=
      bit_eq ht hp shift (b := value.testBit n) (hl.of_within (Interval.within_cutAll hpath _))
    obtain ⟨r'', hr'', ht''⟩ := ih _ (walk_step h _) ho' ht' hl
    refine ⟨r'', ?_, ht''⟩
    have hvalue : (2 * node + (value.testBit n).toNat) * 2 ^ n + value % 2 ^ n =
        node * 2 ^ (n + 1) + value % 2 ^ (n + 1) := by
      rw [mod_two_pow_succ, Nat.pow_succ]
      ring
    rw [← hvalue, read]
    simp only [hr']
    exact hr''

theorem lt_two_pow_symbolBits {c : Context} {symbol : UInt32} (h : symbol.toNat < c.size) :
    symbol.toNat < 2 ^ c.symbolBits := by
  have hle := c.alphabet_le_two_pow
  have hpos := Nat.two_pow_pos c.symbolBits
  rw [Context.size] at h
  omega

/-- **Reading along the decisions of a symbol gives the symbol.** -/
theorem decode_eq {t : BitTree} (ho : t.Open) {symbol : UInt32}
    (hs : symbol.toNat < t.context.size) {i : Interval} {r : Register} (ht : Tracks data base i r)
    (hl : Lies data base (i.cutAll (t.decisions symbol))) :
    ∃ r', decode (t, r) = .ok symbol (t.learn symbol, r') ∧
      Tracks data base (i.cutAll (t.decisions symbol)) r' := by
  obtain ⟨h₁, h₂⟩ := shift_bounds t.context
  rw [decisions, Interval.cutAll_append] at hl
  have hplain := open_plainDecisions symbol.toNat t.context.plainBits
  obtain ⟨r', hr', ht'⟩ := read_eq h₁ h₂ _ _ _ _ ho ht
    (hl.of_within (Interval.within_cutAll hplain _))
  obtain ⟨r'', hr'', ht''⟩ := plain_eq symbol.toNat t.context.plainBits ht'
    (symbol.toNat >>> t.context.plainBits).toUInt32 hl
  refine ⟨r'', ?_, by rw [decisions, Interval.cutAll_append]; exact ht''⟩
  have hhigh : symbol.toNat >>> t.context.plainBits < 2 ^ t.context.modeledBits := by
    have hlt := lt_two_pow_symbolBits hs
    rw [← Context.plainBits_add_modeledBits, Nat.pow_add, Nat.mul_comm] at hlt
    rw [Nat.shiftRight_eq_div_pow]
    exact Nat.div_lt_of_lt_mul (by rwa [Nat.mul_comm])
  have hsub : 1 * 2 ^ t.context.modeledBits +
      (symbol.toNat >>> t.context.plainBits) % 2 ^ t.context.modeledBits -
        2 ^ t.context.modeledBits = symbol.toNat >>> t.context.plainBits := by
    rw [Nat.mod_eq_of_lt hhigh, Nat.one_mul, Nat.add_sub_cancel_left]
  have hword : (symbol.toNat >>> t.context.plainBits).toUInt32.toNat =
      symbol.toNat >>> t.context.plainBits := by
    have hle : symbol.toNat >>> t.context.plainBits ≤ symbol.toNat := Nat.shiftRight_le _ _
    have hlt := symbol.toNat_lt
    rw [Nat.toUInt32_eq, UInt32.toNat_ofNat']
    omega
  have hsymbol : UInt32.ofNat ((symbol.toNat >>> t.context.plainBits).toUInt32.toNat *
      2 ^ t.context.plainBits + symbol.toNat % 2 ^ t.context.plainBits) = symbol := by
    rw [hword, Nat.shiftRight_eq_div_pow, Nat.div_add_mod', UInt32.ofNat_toNat]
  rw [hsymbol] at hr''
  rw [decode]
  simp only [hr', hsub, hr'', if_pos hs]
  rfl

end BitTree

/-! ## Reading steps -/

/-- What a reader is asked for: the step of the writer without its symbol, bit or value. -/
inductive CoderQuery (k m : Nat) where
  /-- A symbol through a context. -/
  | symbol (c : Fin k)
  /-- A bit under a chance of the caller. -/
  | bit (slot : Fin m) (shift : Nat)
  /-- The number of `count` plain bits. -/
  | plain (count : Nat)

variable {k m : Nat}

namespace CoderQuery

/-- Takes a step on the reading side. -/
def read : CoderQuery k m → Action (RangeReader k × Vector Chance m) UInt32
  | .symbol c, (r, slots) =>
    match RangeReader.receive c r with
    | .ok s r => .ok s (r, slots)
    | .error failure r => .error failure (r, slots)
  | .bit slot shift, (r, slots) =>
    match RangeReader.bit (slots.get slot) shift r with
    | .ok (b, p) r => .ok b.toUInt32 (r, slots.set slot p slot.isLt)
    | .error failure r => .error failure (r, slots)
  | .plain count, (r, slots) =>
    match RangeReader.plain count r with
    | .ok v r => .ok v (r, slots)
    | .error failure r => .error failure (r, slots)

/-- Takes steps on the reading side, up to the first failure. -/
def readAll : List (CoderQuery k m) → Action (RangeReader k × Vector Chance m) (List UInt32)
  | [], e => .ok [] e
  | q :: rest, e =>
    match q.read e with
    | .error failure e => .error failure e
    | .ok answer e =>
      match readAll rest e with
      | .ok answers e => .ok (answer :: answers) e
      | .error failure e => .error failure e

end CoderQuery

namespace CoderStep

/-- The same step on the reading side. -/
def query : CoderStep k m → CoderQuery k m
  | .symbol c _ => .symbol c
  | .bit slot shift _ => .bit slot shift
  | .plain _ count => .plain count

/-- What the reading side should get: the symbol, the bit, or the low bits of the value. -/
def answer : CoderStep k m → UInt32
  | .symbol _ s => s
  | .bit _ _ b => b.toUInt32
  | .plain value count => UInt32.ofNat (value.toNat % 2 ^ count)

/-- The symbol is in the alphabet of its context, the shift is one that a chance can adapt by, and no
more bits are asked for than a value has. -/
def Valid (contexts : Vector Context k) : CoderStep k m → Prop
  | .symbol c s => s.toNat < (contexts.get c).size
  | .bit _ shift _ => 1 ≤ shift ∧ shift ≤ 15
  | .plain _ count => count ≤ 32

instance (contexts : Vector Context k) : (s : CoderStep k m) → Decidable (s.Valid contexts)
  | .symbol c s => inferInstanceAs (Decidable (s.toNat < (contexts.get c).size))
  | .bit _ shift _ => inferInstanceAs (Decidable (1 ≤ shift ∧ shift ≤ 15))
  | .plain _ count => inferInstanceAs (Decidable (count ≤ 32))

theorem Valid.shiftInRange {contexts : Vector Context k} {s : CoderStep k m} (h : s.Valid contexts) :
    s.ShiftInRange := by
  cases s with
  | symbol c s => trivial
  | bit slot shift b => exact h
  | plain value count => trivial

end CoderStep

/-! ## Starting to read -/

namespace Register

/-- **The start of the number is accepted** where the coded data lies in the interval of the start:
its first byte is zero. -/
theorem start_eq {data : ByteArray} {base : Nat} (h : Lies data base {}) :
    ∃ r, start { data := data, position := base } = .ok r r.source ∧ Tracks data base {} r := by
  have hsize : base + 5 ≤ data.size := h.size_le
  have hbound : base + 5 ≤ Source.bound { data := data, position := base } := hsize
  let b (i : Nat) (hi : i < 5 := by omega) : UInt8 := data[base + i]
  have hwindow : window data base 5 = 2 ^ 32 * (b 0).toNat +
      (2 ^ 24 * (b 1).toNat + 2 ^ 16 * (b 2).toNat + 2 ^ 8 * (b 3).toNat + (b 4).toNat) := by
    rw [window_succ (by omega), window_succ (by omega), window_succ (by omega),
      window_succ (by omega), window_succ (by omega)]
    simp only [window, List.take_zero, number_nil, Nat.mul_zero, Nat.zero_add, b, Nat.add_zero]
    omega
  have hzero : b 0 = 0 := by
    have hlt : window data base 5 < 0 + 0xFFFFFFFF := h.lt_high
    exact UInt8.toNat_inj.mp (show (b 0).toNat = 0 by omega)
  have hget (i : Nat) (hi : i < 5) :
      (data.extract base (base + 5)).data.getD i 0 = b i hi := by
    have hlt : i < (data.extract base (base + 5)).data.size := by
      rw [ByteArray.size_data, ByteArray.size_extract]
      omega
    rw [Array.getD, dif_pos hlt]
    exact ByteArray.getElem_extract (by simpa using hlt)
  refine ⟨⟨{ data := data, position := base + 5 }, 0xFFFFFFFF,
    (b 1).toUInt32 <<< 24 ||| (b 2).toUInt32 <<< 16 ||| (b 3).toUInt32 <<< 8 ||| (b 4).toUInt32⟩,
    ?_, rfl, rfl, ?_⟩
  · rw [start, Source.read, if_pos hbound]
    simp only [hget 0 (by omega), hget 1 (by omega), hget 2 (by omega), hget 3 (by omega),
      hget 4 (by omega), hzero]
    rfl
  · rw [toNat_word, hwindow, hzero]
    simp

end Register

/-! ## Following the steps -/

/-- The trees are those of the contexts. -/
def Models.For (contexts : Vector Context k) (ms : Models k m) : Prop :=
  ∀ c : Fin k, (ms.trees.get c).context = contexts.get c

theorem Models.for_fresh (contexts : Vector Context k) (m : Nat) :
    (fresh contexts m).For contexts := by
  intro c
  rw [fresh, get_fresh, BitTree.fresh]

theorem Models.For.learn {contexts : Vector Context k} {ms : Models k m} (h : ms.For contexts)
    (s : CoderStep k m) : (s.learn ms).For contexts := by
  cases s with
  | symbol c s =>
    have hlearn : ((ms.trees.get c).learn s).context = contexts.get c := h c
    exact forall_get_set (P := fun c (t : BitTree) => t.context = contexts.get c) h hlearn
  | bit slot shift b => exact h
  | plain value count => exact h

theorem Models.For.learnAll {contexts : Vector Context k} {ms : Models k m} (h : ms.For contexts)
    (steps : List (CoderStep k m)) : (CoderStep.learnAll ms steps).For contexts := by
  induction steps generalizing ms with
  | nil => exact h
  | cons s steps ih => exact ih (h.learn s)

namespace RangeReader

variable {data : ByteArray} {base : Nat}

/-- The reader starts where the writer did, with the same models. -/
theorem start_eq (contexts : Vector Context k) (h : Lies data base {}) :
    ∃ r, start contexts { data := data, position := base } = .ok r r.source ∧
      r.trees = contexts.map BitTree.fresh ∧ Register.Tracks data base {} r.register := by
  obtain ⟨r, hr, ht⟩ := Register.start_eq h
  exact ⟨⟨r, contexts.map BitTree.fresh⟩, by rw [start, hr]; rfl, rfl, ht⟩

/-- **Receiving along the decisions of a symbol gives the symbol**, and teaches its tree. -/
theorem receive_eq {r : RangeReader k} {i : Interval} (ht : Register.Tracks data base i r.register)
    {c : Fin k} (ho : (r.trees.get c).Open) {s : UInt32} (hs : s.toNat < (r.trees.get c).context.size)
    (hl : Lies data base (i.cutAll ((r.trees.get c).decisions s))) :
    ∃ r', receive c r = .ok s r' ∧ r'.trees = r.trees.set c ((r.trees.get c).learn s) c.isLt ∧
      Register.Tracks data base (i.cutAll ((r.trees.get c).decisions s)) r'.register := by
  obtain ⟨register, hr, ht'⟩ := BitTree.decode_eq ho hs ht hl
  exact ⟨⟨register, r.trees.set c ((r.trees.get c).learn s) c.isLt⟩, by rw [receive, hr], rfl, ht'⟩

end RangeReader

namespace CoderStep

variable {data : ByteArray} {base : Nat} {contexts : Vector Context k}

/-- **A step on the reading side gives the answer of the step**, as long as the data lies in the
interval that it leaves. -/
theorem read_eq {r : RangeReader k} {slots : Vector Chance m} {i : Interval}
    (ht : Register.Tracks data base i r.register) (ho : Models.Open ⟨r.trees, slots⟩)
    (hf : Models.For contexts ⟨r.trees, slots⟩) {s : CoderStep k m} (hs : s.Valid contexts)
    (hl : Lies data base (i.cutAll (s.decisions ⟨r.trees, slots⟩))) :
    ∃ r' slots', s.query.read (r, slots) = .ok s.answer (r', slots') ∧
      ⟨r'.trees, slots'⟩ = s.learn ⟨r.trees, slots⟩ ∧
      Register.Tracks data base (i.cutAll (s.decisions ⟨r.trees, slots⟩)) r'.register := by
  cases s with
  | symbol c s =>
    have hs' : s.toNat < (r.trees.get c).context.size := (congrArg Context.size (hf c)).symm ▸ hs
    obtain ⟨r', hr', htrees, ht'⟩ := RangeReader.receive_eq ht (ho.trees c) hs' hl
    exact ⟨r', slots, by rw [query, CoderQuery.read, hr']; rfl, by rw [htrees, learn], ht'⟩
  | bit slot shift b =>
    obtain ⟨register, hr, ht'⟩ := Register.bit_eq ht (ho.slots slot) shift hl
    refine ⟨⟨register, r.trees⟩, _, ?_, rfl, ht'⟩
    rw [query, CoderQuery.read, RangeReader.bit, hr]
    rfl
  | plain value count =>
    obtain ⟨register, hr, ht'⟩ := Register.plain_eq value.toNat count ht 0 hl
    have hvalue : (0 : UInt32).toNat * 2 ^ count + value.toNat % 2 ^ count =
        value.toNat % 2 ^ count := by
      rw [show (0 : UInt32).toNat = 0 from rfl, Nat.zero_mul, Nat.zero_add]
    refine ⟨⟨register, r.trees⟩, slots, ?_, rfl, ht'⟩
    rw [query, CoderQuery.read, RangeReader.plain, hr, hvalue]
    rfl

theorem readAll_eq {r : RangeReader k} {slots : Vector Chance m} {i : Interval}
    (ht : Register.Tracks data base i r.register) (ho : Models.Open ⟨r.trees, slots⟩)
    (hf : Models.For contexts ⟨r.trees, slots⟩) {steps : List (CoderStep k m)}
    (hs : ∀ s ∈ steps, s.Valid contexts)
    (hl : Lies data base (i.cutAll (script ⟨r.trees, slots⟩ steps))) :
    ∃ r' slots', CoderQuery.readAll (steps.map query) (r, slots) = .ok (steps.map answer) (r', slots') ∧
      ⟨r'.trees, slots'⟩ = learnAll ⟨r.trees, slots⟩ steps ∧
      Register.Tracks data base (i.cutAll (script ⟨r.trees, slots⟩ steps)) r'.register := by
  induction steps generalizing r slots i with
  | nil => exact ⟨r, slots, rfl, rfl, ht⟩
  | cons s steps ih =>
    have hs₀ := hs s List.mem_cons_self
    have hs₁ : ∀ t ∈ steps, t.Valid contexts := fun t ht => hs t (List.mem_cons_of_mem _ ht)
    have ho₁ := ho.learn hs₀.shiftInRange
    rw [script, Interval.cutAll_append] at hl
    obtain ⟨r₁, slots₁, hr₁, hms, ht₁⟩ := read_eq ht ho hf hs₀
      (hl.of_within (Interval.within_cutAll (ho₁.script fun t ht => (hs₁ t ht).shiftInRange) _))
    obtain ⟨r', slots', hr', hms', ht'⟩ := ih ht₁ (hms ▸ ho₁) (hms ▸ hf.learn s) hs₁ (hms ▸ hl)
    refine ⟨r', slots', ?_, ?_, ?_⟩
    · simp only [List.map_cons, CoderQuery.readAll, hr₁, hr']
    · rw [hms', hms]
      rfl
    · rw [script, Interval.cutAll_append, ← hms]
      exact ht'

end CoderStep

/-! ## The bytes of the last decision -/

/-- The number of bytes that widening the range moved out behind the last of some decisions. -/
def lastWidening (ds : List Decision) : Nat :=
  (Code.run ds {}).shifts - (Code.run ds.dropLast {}).shifts

/-- The coder has held back one byte from the start, and moves out a byte with every widening. -/
theorem shifts_run_start {ds : List Decision} (h : ∀ d ∈ ds, d.Open) :
    (Code.run ds {}).shifts = (Interval.run ds {}).shifts + 1 :=
  (Code.represents_run Code.represents_start Interval.sound_start h).shifts_eq

/-- The reader is behind the writer by the widening of the last decision. -/
theorem shifts_cutAll_add_lastWidening {ds : List Decision} (h : ∀ d ∈ ds, d.Open) :
    (Interval.cutAll ds {}).shifts + lastWidening ds = (Interval.run ds {}).shifts := by
  have hstart : Interval.normalize {} = {} := Interval.normalize_of_le (by decide)
  obtain rfl | ⟨es, d, rfl⟩ := List.eq_nil_or_concat' ds
  · rfl
  have hes : ∀ d ∈ es, d.Open := fun e he => h e (by simp [he])
  have hcut : (Interval.cutAll (es ++ [d]) {}).shifts = (Interval.run es {}).shifts := by
    rw [Interval.cutAll_append]
    change ((Interval.cutAll es {}).normalize.cut d).shifts = _
    rw [Interval.shifts_cut, Interval.normalize_cutAll, hstart]
  have hle : (Interval.run es {}).shifts ≤ (Interval.run (es ++ [d]) {}).shifts := by
    have hd : ∀ e ∈ [d], e.Open := fun e he => h e (by simp_all)
    obtain ⟨n, hn, -, -⟩ := Interval.within_run hd (Interval.run es {})
    rw [Interval.run_append]
    omega
  rw [lastWidening, shifts_run_start h, List.dropLast_concat, shifts_run_start hes, hcut]
  omega

/-- **Behind a decision between halves at most one byte is moved out**: half of a wide range is at least
`2 ^ 23`. -/
theorem lastWidening_concat_half_le {ds : List Decision} (h : ∀ d ∈ ds, d.Open) (b : Bool) :
    lastWidening (ds ++ [.half b]) ≤ 1 := by
  have hopen : ∀ d ∈ ds ++ [.half b], d.Open := by
    intro d hd
    obtain hd | hd := List.mem_append.mp hd
    · exact h d hd
    · rw [List.mem_singleton.mp hd]
      trivial
  have hwide := (Interval.sound_start.run h).le_range
  have hhalf (i : Interval) : (i.cut (.half b)).range = i.range / 2 := by cases b <;> rfl
  have hstep : (Interval.run (ds ++ [.half b]) {}).shifts ≤ (Interval.run ds {}).shifts + 1 := by
    rw [Interval.run_append]
    change ((Interval.run ds {}).cut (.half b)).normalize.shifts ≤ _
    by_cases hle : 2 ^ 24 ≤ ((Interval.run ds {}).cut (.half b)).range
    · rw [Interval.normalize_of_le hle, Interval.shifts_cut]
      omega
    · rw [hhalf] at hle
      rw [Interval.normalize_of_lt (by rw [hhalf]; omega) (by rw [hhalf]; omega),
        Interval.normalize_of_le (by simp only [Interval.widen]; rw [hhalf]; omega)]
      simp only [Interval.widen, Interval.shifts_cut]
      omega
  rw [lastWidening, shifts_run_start hopen, List.dropLast_concat, shifts_run_start h]
  omega

/-! ## The round trip -/

/-- Written bytes with anything behind them lie in the final interval. -/
theorem lies_written {i : Interval} (hi : i.Sound) {head : List UInt8} {written rest : ByteArray}
    (h : written.data.toList = head ++ bigEndian (i.shifts + 5) i.low) :
    Lies (written ++ rest) head.length i := by
  have hsize : written.size = head.length + (i.shifts + 5) := by
    rw [← ByteArray.size_data, ← Array.length_toList, h, List.length_append, length_bigEndian]
  have hwindow : window (written ++ rest) head.length (i.shifts + 5) = i.low := by
    have hlow := hi.low_lt
    have hpow : 256 ^ (i.shifts + 4) ≤ 256 ^ (i.shifts + 5) :=
      Nat.pow_le_pow_right (by omega) (by omega)
    rw [window, ByteArray.data_append, Array.toList_append, h, List.append_assoc, List.drop_left,
      List.take_left' (length_bigEndian _ _), number_bigEndian, Nat.mod_eq_of_lt (by omega)]
  have hrange := hi.le_range
  exact ⟨by rw [ByteArray.size_append]; omega, Nat.le_of_eq hwindow.symm, by omega⟩

namespace CoderStep

/-- A reader on written bytes keeps track of the writer, whatever the sink held before and whatever
stands behind the bytes. -/
theorem exists_reading (contexts : Vector Context k) {steps : List (CoderStep k m)}
    (hs : ∀ s ∈ steps, s.Valid contexts) (sink : Sink) (hsink : sink.capacity = none)
    (rest : ByteArray) :
    let ms := Models.fresh contexts m
    let final := Interval.run (script ms steps) {}
    ∃ w slots w' r, writeAll steps (RangeWriter.start contexts sink, ms.slots) = .ok () (w, slots) ∧
      ⟨w.trees, slots⟩ = learnAll ms steps ∧ RangeWriter.close w = .ok () w' ∧
      w'.sink.written.data.toList =
        sink.written.data.toList ++ bigEndian (final.shifts + 5) final.low ∧
      RangeReader.start contexts
        { data := w'.sink.written ++ rest, position := sink.written.size } = .ok r r.source ∧
      r.trees = ms.trees ∧
      ∀ n, ∃ r' slots', CoderQuery.readAll ((steps.take n).map query) (r, ms.slots) =
          .ok ((steps.take n).map answer) (r', slots') ∧
        ⟨r'.trees, slots'⟩ = learnAll ms (steps.take n) ∧
        Register.Tracks (w'.sink.written ++ rest) sink.written.size
          (Interval.cutAll (script ms (steps.take n)) {}) r'.register := by
  intro ms final
  have ho : ms.Open := Models.open_fresh contexts m
  have hshift : ∀ s ∈ steps, s.ShiftInRange := fun s h => (hs s h).shiftInRange
  have hscript : ∀ d ∈ script ms steps, d.Open := ho.script hshift
  obtain ⟨w, slots, hw, hms, h⟩ :=
    writeAll_eq (RangeWriter.writes_start contexts sink hsink) ho hshift
  obtain ⟨w', hw', -, hbytes⟩ := h.close
  have hbase : sink.written.data.toList.length = sink.written.size := Array.length_toList
  have hlies : Lies (w'.sink.written ++ rest) sink.written.size final :=
    hbase ▸ lies_written h.sound hbytes
  have hnorm : (Interval.cutAll (script ms steps) {}).normalize = final := by
    rw [Interval.normalize_cutAll, Interval.normalize_of_le (by decide)]
  have hlate : Lies (w'.sink.written ++ rest) sink.written.size
      (Interval.cutAll (script ms steps) {}) :=
    Lies.of_within (hnorm.symm ▸ hlies) (Interval.within_normalize _)
  obtain ⟨r, hr, htrees, ht⟩ := RangeReader.start_eq contexts
    (hlate.of_within (Interval.within_cutAll hscript _))
  refine ⟨w, slots, w', r, hw, hms, hw', hbytes, hr, htrees, fun n => ?_⟩
  have hl : Lies (w'.sink.written ++ rest) sink.written.size
      (Interval.cutAll (script ms (steps.take n)) {}) := by
    have hsplit := script_append ms (steps.take n) (steps.drop n)
    rw [List.take_append_drop] at hsplit
    rw [hsplit, Interval.cutAll_append] at hlate
    refine hlate.of_within (Interval.within_cutAll (fun d hd => hscript d ?_) _)
    exact hsplit ▸ List.mem_append_right _ hd
  have hstart : (⟨r.trees, ms.slots⟩ : Models k m) = ms := by rw [htrees]; rfl
  have hvalid : ∀ s ∈ steps.take n, s.Valid contexts := fun s h => hs s (List.mem_of_mem_take h)
  have ho' : Models.Open ⟨r.trees, ms.slots⟩ := hstart ▸ ho
  have hf : Models.For contexts ⟨r.trees, ms.slots⟩ := by
    rw [hstart]
    exact Models.for_fresh contexts m
  have hread := readAll_eq ht ho' hf hvalid (hstart ▸ hl)
  rwa [hstart] at hread

/-- **What was written is read back**, whatever stands behind it: every step is answered with its
symbol, its bit or the low bits of its value, and after each step the models are those of the writer.
Of the writer's bytes the last step leaves those that the last decision has moved out. -/
theorem read_written (contexts : Vector Context k) (steps : List (CoderStep k m))
    (hs : ∀ s ∈ steps, s.Valid contexts) (rest : ByteArray) :
    let slots := Vector.replicate m Chance.even
    let start := (RangeWriter.start contexts {}, slots)
    ∃ w slots₁ w' r, writeAll steps start = .ok () (w, slots₁) ∧ RangeWriter.close w = .ok () w' ∧
      RangeReader.start contexts { data := w'.sink.written ++ rest } = .ok r r.source ∧
      (∀ n, ∃ wₙ rₙ slotsₙ,
        writeAll (steps.take n) start = .ok () (wₙ, slotsₙ) ∧
        CoderQuery.readAll ((steps.take n).map query) (r, slots) =
          .ok ((steps.take n).map answer) (rₙ, slotsₙ) ∧
        rₙ.trees = wₙ.trees) ∧
      ∃ r', CoderQuery.readAll (steps.map query) (r, slots) = .ok (steps.map answer) (r', slots₁) ∧
        r'.trees = w.trees ∧ r'.source.data = w'.sink.written ++ rest ∧
        r'.source.position + lastWidening (script (Models.fresh contexts m) steps) =
          w'.sink.written.size := by
  intro slots start
  have ho := Models.open_fresh contexts m
  have hshift : ∀ s ∈ steps, s.ShiftInRange := fun s h => (hs s h).shiftInRange
  obtain ⟨w, slots₁, w', r, hw, hms, hw', hbytes, hr, -, hread⟩ :=
    exists_reading contexts hs {} rfl rest
  refine ⟨w, slots₁, w', r, hw, hw', hr, fun n => ?_, ?_⟩
  · have hshiftₙ : ∀ s ∈ steps.take n, s.ShiftInRange := fun s h => hshift s (List.mem_of_mem_take h)
    obtain ⟨wₙ, slotsₙ, hwₙ, hmsₙ, -⟩ :=
      writeAll_eq (RangeWriter.writes_start contexts {} rfl) ho hshiftₙ
    obtain ⟨rₙ, slots', hrₙ, hms', -⟩ := hread n
    obtain ⟨hmt, rfl⟩ := Models.mk.inj (hms'.trans hmsₙ.symm)
    exact ⟨wₙ, rₙ, slots', hwₙ, hrₙ, hmt⟩
  · obtain ⟨r', slots', hr', hms', ht'⟩ := hread steps.length
    rw [List.take_length] at hr' hms' ht'
    obtain ⟨hmt, rfl⟩ := Models.mk.inj (hms'.trans hms.symm)
    refine ⟨r', hr', hmt, congrArg Source.data ht'.source_eq, ?_⟩
    have hposition : r'.source.position =
        0 + ((Interval.cutAll (script (Models.fresh contexts m) steps) {}).shifts + 5) :=
      congrArg Source.position ht'.source_eq
    have hlast := shifts_cutAll_add_lastWidening (ho.script hshift)
    have hsize : w'.sink.written.size =
        (Interval.run (script (Models.fresh contexts m) steps) {}).shifts + 5 := by
      rw [← ByteArray.size_data, ← Array.length_toList, hbytes, List.length_append, length_bigEndian]
      exact Nat.zero_add _
    rw [hsize, hposition]
    omega

/-- A symbol, a bit and eight plain bits, with two bytes behind what was written. -/
theorem read_symbol_bit_plain :
    let contexts : Vector Context 1 := #v[⟨11, 0, 32⟩]
    let steps : List (CoderStep 1 6) := [.symbol 0 7, .bit 5 4 true, .plain 0x1A5 8]
    let slots := Vector.replicate 6 Chance.even
    (∀ s ∈ steps, s.Valid contexts) ∧
      ∃ w slots₁ w' r r',
        writeAll steps (RangeWriter.start contexts {}, slots) = .ok () (w, slots₁) ∧
        RangeWriter.close w = .ok () w' ∧
        RangeReader.start contexts { data := w'.sink.written ++ ⟨#[1, 2]⟩ } = .ok r r.source ∧
        CoderQuery.readAll (steps.map query) (r, slots) = .ok [7, 1, 0xA5] (r', slots₁) := by
  intro contexts steps slots
  have hs : ∀ s ∈ steps, s.Valid contexts := by decide
  obtain ⟨w, slots₁, w', r, hw, hw', hr, -, r', hr', -⟩ :=
    read_written contexts steps hs ⟨#[1, 2]⟩
  exact ⟨hs, w, slots₁, w', r, r', hw, hw', hr, hr'⟩

end CoderStep

end BlockPress
