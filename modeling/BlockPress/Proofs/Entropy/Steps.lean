import BlockPress.Entropy.RangeWriter
import BlockPress.Proofs.Entropy.Symbol
import BlockPress.Proofs.Loops

/-!
# Coding step by step

A caller of a range coder sends symbols through contexts, bits under chances of its own, and plain
bits, in any order: a list of `CoderStep`s.  The models, which are the trees of the contexts and the
caller's chances, adapt to the steps alone, so a list of steps fixes a list of decisions (`script`).

Main statement: **what a writer has written when it is closed is the number of arithmetic coding
without bounds** (`written_eq_bigEndian`), whatever was drained on the way.
-/

namespace BlockPress

variable {k m : Nat}

/-- A call of a range coder with `k` contexts by a caller with `m` chances of its own. -/
inductive CoderStep (k m : Nat) where
  /-- A symbol through a context. -/
  | symbol (c : Fin k) (symbol : UInt32)
  /-- A bit under a chance of the caller. -/
  | bit (slot : Fin m) (shift : Nat) (b : Bool)
  /-- The low `count` bits of a value, without a model. -/
  | plain (value : UInt32) (count : Nat)

/-- What a coder and its caller have learned. -/
structure Models (k m : Nat) where
  /-- The models of the contexts. -/
  trees : Vector BitTree k
  /-- The chances of the caller. -/
  slots : Vector Chance m

/-- The models at the start. -/
def Models.fresh (contexts : Vector Context k) (m : Nat) : Models k m :=
  ⟨contexts.map BitTree.fresh, Vector.replicate m Chance.even⟩

/-- Under each chance of the models both bits are possible. -/
structure Models.Open (ms : Models k m) : Prop where
  /-- The chances of the trees. -/
  trees : ∀ c : Fin k, (ms.trees.get c).Open
  /-- The chances of the caller. -/
  slots : ∀ s : Fin m, (ms.slots.get s).Open

namespace CoderStep

/-- The decisions of a step. -/
def decisions (ms : Models k m) : CoderStep k m → List Decision
  | .symbol c s => (ms.trees.get c).decisions s
  | .bit slot _ b => [.chance (ms.slots.get slot) b]
  | .plain value count => Code.plainDecisions value.toNat count

/-- The models after a step. -/
def learn (ms : Models k m) : CoderStep k m → Models k m
  | .symbol c s => { ms with trees := ms.trees.set c ((ms.trees.get c).learn s) c.isLt }
  | .bit slot shift b =>
    { ms with slots := ms.slots.set slot ((ms.slots.get slot).adapt shift b) slot.isLt }
  | .plain _ _ => ms

/-- The shift of a bit is one that a chance can adapt by. -/
def ShiftInRange : CoderStep k m → Prop
  | .bit _ shift _ => 1 ≤ shift ∧ shift ≤ 15
  | _ => True

instance : (s : CoderStep k m) → Decidable s.ShiftInRange
  | .symbol _ _ => inferInstanceAs (Decidable True)
  | .bit _ shift _ => inferInstanceAs (Decidable (1 ≤ shift ∧ shift ≤ 15))
  | .plain _ _ => inferInstanceAs (Decidable True)

/-- Takes a step on the writing side. -/
def write : CoderStep k m → Action (RangeWriter k × Vector Chance m) Unit
  | .symbol c s, (w, slots) =>
    match RangeWriter.send c s w with
    | .ok () w => .ok () (w, slots)
    | .error failure w => .error failure (w, slots)
  | .bit slot shift b, (w, slots) =>
    let (p, w) := w.bit (slots.get slot) shift b
    .ok () (w, slots.set slot p slot.isLt)
  | .plain value count, (w, slots) => .ok () (w.plain value count, slots)

/-- Takes steps on the writing side, up to the first failure. -/
def writeAll : List (CoderStep k m) → Action (RangeWriter k × Vector Chance m) Unit
  | [], e => .ok () e
  | s :: rest, e =>
    match s.write e with
    | .ok () e => writeAll rest e
    | .error failure e => .error failure e

/-- The models after some steps. -/
def learnAll (ms : Models k m) (steps : List (CoderStep k m)) : Models k m := steps.foldl learn ms

/-- The decisions of some steps. -/
def script : Models k m → List (CoderStep k m) → List Decision
  | _, [] => []
  | ms, s :: rest => s.decisions ms ++ script (s.learn ms) rest

theorem script_append (ms : Models k m) (steps rest : List (CoderStep k m)) :
    script ms (steps ++ rest) = script ms steps ++ script (learnAll ms steps) rest := by
  induction steps generalizing ms with
  | nil => rfl
  | cons s steps ih =>
    rw [List.cons_append, script, ih, script, List.append_assoc]
    rfl

end CoderStep

/-! ## Open models -/

namespace Models

theorem get_fresh (contexts : Vector Context k) (c : Fin k) :
    (contexts.map BitTree.fresh).get c = BitTree.fresh (contexts.get c) :=
  Vector.getElem_map BitTree.fresh c.isLt

theorem open_fresh (contexts : Vector Context k) (m : Nat) : (fresh contexts m).Open where
  trees c := by
    rw [fresh, get_fresh]
    exact BitTree.open_fresh _
  slots s := by
    have hget : (fresh contexts m).slots.get s = Chance.even := Vector.getElem_replicate s.isLt
    exact hget ▸ Chance.open_even

variable {ms : Models k m}

theorem Open.decisions (h : ms.Open) (s : CoderStep k m) : ∀ d ∈ s.decisions ms, d.Open := by
  cases s with
  | symbol c s => exact (h.trees c).decisions s
  | bit slot shift b =>
    intro d hd
    rw [List.mem_singleton.mp hd]
    exact h.slots slot
  | plain value count => exact BitTree.open_plainDecisions _ _

theorem Open.learn (h : ms.Open) {s : CoderStep k m} (hs : s.ShiftInRange) : (s.learn ms).Open := by
  cases s with
  | symbol c s => exact ⟨forall_get_set h.trees ((h.trees c).learn s), h.slots⟩
  | bit slot shift b => exact ⟨h.trees, forall_get_set h.slots ((h.slots slot).adapt hs.1 hs.2 b)⟩
  | plain value count => exact h

theorem Open.script (h : ms.Open) {steps : List (CoderStep k m)}
    (hs : ∀ s ∈ steps, s.ShiftInRange) : ∀ d ∈ CoderStep.script ms steps, d.Open := by
  induction steps generalizing ms with
  | nil => exact List.forall_mem_nil _
  | cons s steps ih =>
    obtain ⟨hfirst, hrest⟩ := List.forall_mem_cons.mp hs
    exact List.forall_mem_append.mpr ⟨h.decisions s, ih (h.learn hfirst) hrest⟩

end Models

/-! ## Writers -/

namespace RangeWriter

/-- A writer on an unlimited sink that is open at the number of an interval, behind the bytes `head`
that the sink had before. -/
structure Writes (head : List UInt8) (w : RangeWriter k) (i : Interval) : Prop where
  /-- What was handed on behind those bytes and the code are at the number. -/
  represents : ∃ sent, w.sink.written.data.toList = head ++ sent ∧ Code.Represents sent w.code i
  /-- The sink takes everything. -/
  unlimited : w.sink.capacity = none
  /-- The number is not complete. -/
  not_closed : w.closed = false
  /-- The number is inside its bounds. -/
  sound : i.Sound

theorem writes_start (contexts : Vector Context k) (sink : Sink) (h : sink.capacity = none) :
    (start contexts sink).Writes sink.written.data.toList {} :=
  ⟨⟨[], (List.append_nil _).symm, Code.represents_start⟩, h, rfl, Interval.sound_start⟩

variable {head : List UInt8}

/-- Draining an unlimited sink hands on what is settled and changes nothing else. -/
theorem drain_eq {w : RangeWriter k} (h : w.sink.capacity = none) :
    drain w = .ok () { w with
      code := { w.code with settled := .empty }
      sink := ⟨w.sink.written ++ w.code.settled, none⟩ } := by
  obtain ⟨code, trees, ⟨written, capacity⟩, closed⟩ := w
  obtain rfl : capacity = none := h
  by_cases hempty : code.settled.isEmpty = true
  · obtain ⟨settled, range, low, cache, held, produced⟩ := code
    obtain rfl : settled = .empty := ByteArray.size_eq_zero_iff.mp (beq_iff_eq.mp hempty)
    rw [ByteArray.append_empty]
    rfl
  · rw [drain, if_neg hempty, Sink.write]

theorem Writes.drained {w : RangeWriter k} {i : Interval} (h : w.Writes head i) :
    ∃ w', drain w = .ok () w' ∧ w'.trees = w.trees ∧ w'.Writes head i := by
  obtain ⟨sent, hsent, hrep⟩ := h.represents
  refine ⟨_, drain_eq h.unlimited, rfl, ⟨sent ++ w.code.settled.data.toList, ?_, hrep.drained⟩, rfl,
    h.not_closed, h.sound⟩
  simp only [ByteArray.data_append, Array.toList_append, hsent, List.append_assoc]

theorem Writes.run {w : RangeWriter k} {i : Interval} (h : w.Writes head i) {ds : List Decision}
    (hds : ∀ d ∈ ds, d.Open) (trees : Vector BitTree k) :
    Writes head { w with code := w.code.run ds, trees } (i.run ds) := by
  obtain ⟨sent, hsent, hrep⟩ := h.represents
  exact ⟨⟨sent, hsent, Code.represents_run hrep h.sound hds⟩, h.unlimited, h.not_closed,
    h.sound.run hds⟩

/-- **Sending a symbol takes its decisions**, and teaches its tree. -/
theorem Writes.send {w : RangeWriter k} {i : Interval} (h : w.Writes head i) (c : Fin k) (s : UInt32)
    (ht : (w.trees.get c).Open) :
    ∃ w', RangeWriter.send c s w = .ok () w' ∧
      w'.trees = w.trees.set c ((w.trees.get c).learn s) c.isLt ∧
      w'.Writes head (i.run ((w.trees.get c).decisions s)) := by
  have hrun := h.run (ht.decisions s) (w.trees.set c ((w.trees.get c).learn s) c.isLt)
  rw [RangeWriter.send]
  simp only [BitTree.encode_eq]
  split
  · exact hrun.drained
  · exact ⟨_, rfl, rfl, hrun⟩

/-- **A closed writer has written the big-endian form of the number.** -/
theorem Writes.close {w : RangeWriter k} {i : Interval} (h : w.Writes head i) :
    ∃ w', RangeWriter.close w = .ok () w' ∧ w'.trees = w.trees ∧
      w'.sink.written.data.toList = head ++ bigEndian (i.shifts + 5) i.low := by
  obtain ⟨sent, hsent, hrep⟩ := h.represents
  have hdrain := drain_eq (w := { w with code := w.code.flush, closed := true }) h.unlimited
  rw [RangeWriter.close, if_neg (by rw [h.not_closed]; decide)]
  refine ⟨_, hdrain, rfl, ?_⟩
  simp only [ByteArray.data_append, Array.toList_append, hsent, List.append_assoc]
  exact congrArg _ (Code.bytes_flush hrep)

end RangeWriter

namespace CoderStep

variable {head : List UInt8}

/-- **A step on the writing side takes the decisions of the step.** -/
theorem write_eq {w : RangeWriter k} {slots : Vector Chance m} {i : Interval} (h : w.Writes head i)
    (ho : Models.Open ⟨w.trees, slots⟩) (s : CoderStep k m) :
    ∃ w' slots', s.write (w, slots) = .ok () (w', slots') ∧
      ⟨w'.trees, slots'⟩ = s.learn ⟨w.trees, slots⟩ ∧
      w'.Writes head (i.run (s.decisions ⟨w.trees, slots⟩)) := by
  cases s with
  | symbol c s =>
    obtain ⟨w', hw', htrees, hwrites⟩ := h.send c s (ho.trees c)
    exact ⟨w', slots, by rw [write, hw'], by rw [htrees, learn], hwrites⟩
  | bit slot shift b =>
    have hrun := h.run (ho.decisions (.bit slot shift b)) w.trees
    refine ⟨_, _, rfl, rfl, ?_⟩
    simp only [Code.narrow_eq]
    exact hrun
  | plain value count =>
    have hrun := h.run (ho.decisions (.plain value count)) w.trees
    refine ⟨_, _, rfl, rfl, ?_⟩
    simp only [RangeWriter.plain, Code.plain_eq_run]
    exact hrun

theorem writeAll_eq {w : RangeWriter k} {slots : Vector Chance m} {i : Interval} (h : w.Writes head i)
    (ho : Models.Open ⟨w.trees, slots⟩) {steps : List (CoderStep k m)}
    (hs : ∀ s ∈ steps, s.ShiftInRange) :
    ∃ w' slots', writeAll steps (w, slots) = .ok () (w', slots') ∧
      ⟨w'.trees, slots'⟩ = learnAll ⟨w.trees, slots⟩ steps ∧
      w'.Writes head (i.run (script ⟨w.trees, slots⟩ steps)) := by
  induction steps generalizing w slots i with
  | nil => exact ⟨w, slots, rfl, rfl, h⟩
  | cons s steps ih =>
    obtain ⟨hfirst, hrest⟩ := List.forall_mem_cons.mp hs
    obtain ⟨w₁, slots₁, hw₁, hms, h₁⟩ := write_eq h ho s
    have ho₁ : Models.Open ⟨w₁.trees, slots₁⟩ := hms ▸ ho.learn hfirst
    obtain ⟨w', slots', hw', hms', h'⟩ := ih h₁ ho₁ hrest
    refine ⟨w', slots', ?_, ?_, ?_⟩
    · rw [writeAll, hw₁]
      exact hw'
    · rw [hms', hms]
      rfl
    · rw [script, Interval.run_append, ← hms]
      exact h'

end CoderStep

/-! ## Where carries go -/

namespace Code

/-- The codes that a byte is moved out of while the range is widened. -/
def widenings (c : Code) : List Code :=
  if _h : c.range < top ∧ c.range ≠ 0 then c.wider :: widenings c.wider.shiftLow else []
termination_by top.toNat - c.range.toNat
decreasing_by
  have hpos : c.range.toNat ≠ 0 := fun h0 => _h.2 (UInt32.toNat_inj.1 h0)
  have hlt : c.range.toNat < top.toNat := _h.1
  simp only [range_shiftLow, toNat_range_wider (show c.range.toNat < 2 ^ 24 from hlt)]
  omega

/-- The codes that a byte is moved out of while decisions are written. -/
def moved : List Decision → Code → List Code
  | [], _ => []
  | d :: ds, c => (c.cut d).widenings ++ moved ds (c.step d)

/-- The codes that a byte is moved out of when a code is flushed. -/
def flushed (c : Code) : List Code :=
  [c, c.shiftLow, c.shiftLow.shiftLow, c.shiftLow.shiftLow.shiftLow,
    c.shiftLow.shiftLow.shiftLow.shiftLow]

theorem Tame.carryFits_widenings {c : Code} (h : c.Tame) : ∀ d ∈ c.widenings, d.CarryFits := by
  fun_induction widenings c with
  | case1 c hc ih =>
    have hfits : c.wider.CarryFits := ⟨h.held_pos, h.carryFits.low_lt, h.carryFits.cache_add_le⟩
    exact List.forall_mem_cons.mpr ⟨hfits, ih (h.shiftLow_wider hc.1)⟩
  | case2 c hc => exact List.forall_mem_nil _

/-- The decisions of a list, each with the code that it meets. -/
def taken : List Decision → Code → List (Code × Decision)
  | [], _ => []
  | d :: ds, c => (c, d) :: taken ds (c.step d)

theorem moved_eq_flatMap (ds : List Decision) (c : Code) :
    moved ds c = (taken ds c).flatMap fun x => (x.1.cut x.2).widenings := by
  induction ds generalizing c with
  | nil => rfl
  | cons d ds ih => rw [moved, taken, List.flatMap_cons, ih]

/-- A decision may be taken: no carry will be lost, and the range is wide enough. -/
structure Ready (c : Code) : Prop where
  /-- No carry will be lost. -/
  tame : c.Tame
  /-- The range is wide enough. -/
  le_range : 2 ^ 24 ≤ c.range.toNat

theorem Represents.ready {before : List UInt8} {c : Code} {i : Interval} (h : Represents before c i)
    (hi : i.Sound) : c.Ready := ⟨h.tame, h.range_eq ▸ hi.le_range⟩

theorem Tame.normalize {c : Code} (h : c.Tame) : c.normalize.Ready := by
  fun_induction Code.normalize c with
  | case1 c hc ih => exact ih (h.shiftLow_wider hc.1)
  | case2 c hc => exact ⟨h, Nat.not_lt.mp fun hlt => hc ⟨hlt, range_ne_zero h.range_pos⟩⟩

namespace Ready

variable {c : Code}

/-- **A decision leaves a code that is ready for the next one.** -/
theorem step (h : c.Ready) {d : Decision} (hd : d.Open) : (c.step d).Ready :=
  (h.tame.cut h.le_range hd).normalize

/-- **Every decision meets a code that is ready for it.** -/
theorem of_mem_taken (h : c.Ready) {ds : List Decision} (hds : ∀ d ∈ ds, d.Open) :
    ∀ x ∈ taken ds c, x.1.Ready ∧ x.2.Open := by
  induction ds generalizing c with
  | nil => exact List.forall_mem_nil _
  | cons d ds ih =>
    obtain ⟨hd, hds⟩ := List.forall_mem_cons.mp hds
    exact List.forall_mem_cons.mpr ⟨⟨h, hd⟩, ih (h.step hd) hds⟩

theorem carryFits_moved (h : c.Ready) {ds : List Decision} (hds : ∀ d ∈ ds, d.Open) :
    ∀ d ∈ moved ds c, d.CarryFits := by
  intro d hd
  rw [moved_eq_flatMap, List.mem_flatMap] at hd
  obtain ⟨x, hx, hd⟩ := hd
  obtain ⟨hready, hopen⟩ := h.of_mem_taken hds x hx
  exact (hready.tame.cut hready.le_range hopen).carryFits_widenings d hd

end Ready

theorem Tame.carryFits_flushed {c : Code} (h : c.Tame) : ∀ d ∈ c.flushed, d.CarryFits := by
  intro d hd
  simp only [flushed, List.mem_cons, List.not_mem_nil, or_false] at hd
  obtain rfl | rfl | rfl | rfl | rfl := hd
  · exact h.carryFits
  · exact carryFits_shiftLow _
  · exact carryFits_shiftLow _
  · exact carryFits_shiftLow _
  · exact carryFits_shiftLow _

end Code

namespace CoderStep

/-- The codes that a byte is moved out of while a writer takes steps and is closed. -/
def moved : List (CoderStep k m) → RangeWriter k × Vector Chance m → List Code
  | [], (w, _) => w.code.flushed
  | s :: rest, (w, slots) =>
    Code.moved (s.decisions ⟨w.trees, slots⟩) w.code ++
      match s.write (w, slots) with
      | .ok () e => moved rest e
      | .error _ _ => []

theorem carryFits_moved {w : RangeWriter k} {slots : Vector Chance m} {i : Interval}
    (h : w.Writes head i) (ho : Models.Open ⟨w.trees, slots⟩) {steps : List (CoderStep k m)}
    (hs : ∀ s ∈ steps, s.ShiftInRange) : ∀ c ∈ moved steps (w, slots), c.CarryFits := by
  induction steps generalizing w slots i with
  | nil =>
    obtain ⟨sent, -, hrep⟩ := h.represents
    exact hrep.tame.carryFits_flushed
  | cons s steps ih =>
    obtain ⟨hfirst, hrest⟩ := List.forall_mem_cons.mp hs
    obtain ⟨w₁, slots₁, hw₁, hms, h₁⟩ := write_eq h ho s
    have ho₁ : Models.Open ⟨w₁.trees, slots₁⟩ := hms ▸ ho.learn hfirst
    obtain ⟨sent, -, hrep⟩ := h.represents
    rw [moved, hw₁]
    exact List.forall_mem_append.mpr
      ⟨(hrep.ready h.sound).carryFits_moved (ho.decisions s), ih h₁ ho₁ hrest⟩

/-- **The bytes of a closed writer are the number of arithmetic coding without bounds**, in five
bytes more than it was shifted.  The number needs one byte less, so nothing of it is cut off and the first
byte is zero, and no carry on the way exceeds one or wraps the cached byte around.

A caller may send up to 32 plain bits at a time, the bits of a word; more of them are outside of what a
coder is made for, but nothing here depends on that. -/
theorem written_eq_bigEndian (contexts : Vector Context k) (steps : List (CoderStep k m))
    (hs : ∀ s ∈ steps, s.ShiftInRange) :
    let i := Interval.run (script (Models.fresh contexts m) steps) {}
    let e := (RangeWriter.start contexts {}, Vector.replicate m Chance.even)
    ∃ w slots w', writeAll steps e = .ok () (w, slots) ∧ RangeWriter.close w = .ok () w' ∧
      i.low < 256 ^ (i.shifts + 4) ∧ w'.sink.written.data.toList = bigEndian (i.shifts + 5) i.low ∧
      w'.sink.written.data.toList.head? = some 0 ∧
      ∀ c ∈ moved steps e, c.low.toNat / 2 ^ 32 ≤ 1 ∧ c.cache.toNat + c.carry.toNat ≤ 255 := by
  intro i e
  have ho : Models.Open ⟨(RangeWriter.start contexts {}).trees, Vector.replicate m Chance.even⟩ :=
    Models.open_fresh contexts m
  have hstart := RangeWriter.writes_start contexts {} rfl
  obtain ⟨w, slots, hw, -, h⟩ := writeAll_eq hstart ho hs
  obtain ⟨w', hw', -, hbytes⟩ := h.close
  have hi : i.Sound := h.sound
  change w'.sink.written.data.toList = bigEndian (i.shifts + 5) i.low at hbytes
  refine ⟨w, slots, w', hw, hw', hi.low_lt, hbytes, ?_, fun c hc => ?_⟩
  · have hlen : (bigEndian (i.shifts + 5) i.low).length = i.shifts + 4 + 1 := length_bigEndian _ _
    rw [hbytes]
    refine head?_eq_zero_of_number_lt hlen (Nat.lt_of_le_of_lt ?_ hi.low_lt)
    rw [number_bigEndian]
    exact Nat.mod_le _ _
  · have hfits := carryFits_moved hstart ho hs c hc
    have hlt := hfits.low_lt
    exact ⟨by omega, hfits.cache_add_le⟩

/-- A symbol, a bit and eight plain bits. -/
theorem written_symbol_bit_plain :
    let contexts : Vector Context 1 := #v[⟨11, 0, 32⟩]
    let steps : List (CoderStep 1 6) := [.symbol 0 7, .bit 5 4 true, .plain 0xA5 8]
    (∀ s ∈ steps, s.ShiftInRange) ∧
      ∃ w slots w',
        writeAll steps (RangeWriter.start contexts {}, Vector.replicate 6 Chance.even) =
          .ok () (w, slots) ∧
        RangeWriter.close w = .ok () w' ∧ w'.sink.written.data.toList.head? = some 0 := by
  intro contexts steps
  have hs : ∀ s ∈ steps, s.ShiftInRange := by decide
  obtain ⟨w, slots, w', hw, hw', -, -, hhead, -⟩ := written_eq_bigEndian contexts steps hs
  exact ⟨hs, w, slots, w', hw, hw', hhead⟩

end CoderStep

end BlockPress
