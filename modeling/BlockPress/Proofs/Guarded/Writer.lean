import BlockPress.Proofs.Entropy.Bounds
import BlockPress.Proofs.Guarded.Coder

/-!
# Guarded range writers

A guarded range writer checks its words: that what it counts stays below a limit, that no product, sum or
shift is too large for its word, and that nothing is taken from what is smaller.  It widens a range as long
as that is below `2 ^ 24`, whether it is empty or not, but comes to nothing if it has to do so a third time.

Main statement: **a writer stays inside its bounds, and so no check ever fails**
(`CoderCall.takeAll_bounded`).  Its counts stay below any limit that is greater than the number of bytes
that were moved out of `low`, and nothing else depends on the limit.
-/

namespace BlockPress

variable {k m : ℕ}

namespace Context

/-- Symbols below `2 ^ n` have `n` bits. -/
theorem symbolBits_le {c : Context} {n : ℕ} (h : c.alphabet ≤ 2 ^ n) : c.symbolBits ≤ n := by
  rw [symbolBits]
  split
  · exact Nat.zero_le n
  · next hlarge => exact (Nat.log2_lt (by omega)).mpr (by omega)

end Context

namespace CoderStep

/-- Plain bits are bits of a word, of which there are 32. -/
def FitsWord : CoderStep k m → Prop
  | .plain _ count => count ≤ 32
  | _ => True

instance : (s : CoderStep k m) → Decidable s.FitsWord
  | .symbol _ _ => inferInstanceAs (Decidable True)
  | .bit _ _ _ => inferInstanceAs (Decidable True)
  | .plain _ count => inferInstanceAs (Decidable (count ≤ 32))

end CoderStep

namespace Guarded

variable {limit : ℕ}

/-! ## Bytes -/

/-- Settles the bytes held back, one after the other. -/
def settleEach (limit : ℕ) (carry : UInt8) : (held : ℕ) → UInt8 → Code → Option Code
  | 0, _, _ => none
  | held + 1, b, c =>
    require (c.produced + 1 < limit) <|
      let c := { c with settled := c.settled.push (b + carry), held, produced := c.produced + 1 }
      if held = 0 then some c else settleEach limit carry held 0xFF c

theorem settleEach_succ {carry b : UInt8} {held : ℕ} {c : Code} (hlimit : c.produced + (held + 1) < limit) :
    settleEach limit carry (held + 1) b c = some { c with
      settled := Buffer.pushMany (c.settled.push (b + carry)) (0xFF + carry) held
      held := 0
      produced := c.produced + (held + 1) } := by
  induction held generalizing b c with
  | zero => rw [settleEach, require_eq hlimit, if_pos rfl, Buffer.pushMany]
  | succ held ih =>
    have hproduced : c.produced + 1 + (held + 1) = c.produced + (held + 1 + 1) :=
      Nat.add_right_comm _ _ _
    rw [settleEach, require_eq (by omega), if_neg (Nat.succ_ne_zero held), ih (hproduced ▸ hlimit),
      hproduced, Buffer.pushMany]

/-- Settles the bytes held back, and holds back the next one. -/
def settle (limit : ℕ) (c : Code) : Option Code :=
  (settleEach limit c.carry c.held c.cache c).map fun settled =>
    { settled with cache := (c.low >>> 24).toUInt8 }

theorem settle_eq {c : Code} (hheld : 0 < c.held) (hlimit : c.shifts < limit) :
    settle limit c = some c.settle := by
  obtain ⟨held, hsucc⟩ : ∃ n, c.held = n + 1 := ⟨c.held - 1, by omega⟩
  rw [Code.shifts, hsucc] at hlimit
  rw [settle, hsucc, settleEach_succ hlimit, Option.map_some, Code.settle, hsucc,
    Nat.max_eq_left (Nat.succ_pos held)]
  rfl

/-- Moves one byte out of `low`. -/
def shiftLow (limit : ℕ) (c : Code) : Option Code :=
  (if c.low < 0xFF000000 ∨ 0xFFFFFFFF < c.low then settle limit c else some c).bind fun c =>
    require (c.held + 1 < limit ∧ c.low.toNat * 2 ^ 8 < 2 ^ 64) <|
      some { c with held := c.held + 1, low := (c.low <<< 8) &&& 0xFFFFFFFF }

theorem shiftLow_eq {c : Code} (h : c.CarryFits) (hlimit : c.shifts + 1 < limit) :
    shiftLow limit c = some c.shiftLow := by
  have hheld := h.held_pos
  have hlow := h.low_lt
  rw [shiftLow, Code.shiftLow]
  split
  · have hcheck : c.settle.held + 1 < limit ∧ c.settle.low.toNat * 2 ^ 8 < 2 ^ 64 := by
      simp only [Code.settle]
      omega
    rw [settle_eq hheld (by omega), Option.bind_some, require_eq hcheck]
  · rw [Code.shifts] at hlimit
    rw [Option.bind_some, require_eq ⟨by omega, by omega⟩]

/-! ## Widening -/

/-- Widens the range until it is `2 ^ 24` or more, at most `n` times. -/
def normalize (limit : ℕ) : (n : ℕ) → Code → Option Code
  | 0, c => require (Code.top ≤ c.range) (some c)
  | n + 1, c =>
    if c.range < Code.top then
      require (c.range.toNat * 2 ^ 8 < 2 ^ 32) <|
        (shiftLow limit { c with range := c.range <<< 8 }).bind (normalize limit n)
    else some c

theorem normalize_eq {n : ℕ} {c : Code} (h : c.Tame) (hn : c.widenings.length ≤ n)
    (hlimit : c.shifts + c.widenings.length < limit) : normalize limit n c = some c.normalize := by
  induction n generalizing c with
  | zero =>
    obtain hlt | hge := Nat.lt_or_ge c.range.toNat (2 ^ 24)
    · rw [Code.widenings_of_lt hlt h.range_pos] at hn
      exact absurd hn (Nat.not_succ_le_zero _)
    · rw [normalize, require_eq (show Code.top ≤ c.range from hge), Code.normalize_of_le hge]
  | succ n ih =>
    rw [normalize]
    obtain hlt | hge := Nat.lt_or_ge c.range.toNat (2 ^ 24)
    · rw [Code.widenings_of_lt hlt h.range_pos, List.length_cons] at hn hlimit
      have hfits : c.wider.CarryFits := ⟨h.held_pos, h.carryFits.low_lt, h.carryFits.cache_add_le⟩
      have hshifts : c.wider.shiftLow.shifts = c.shifts + 1 := Code.shifts_shiftLow hfits.held_pos
      have hshift : shiftLow limit { c with range := c.range <<< 8 } = some c.wider.shiftLow :=
        shiftLow_eq (c := c.wider) hfits (show c.shifts + 1 < limit by omega)
      rw [if_pos (show c.range < Code.top from hlt), require_eq (by omega), hshift, Option.bind_some,
        Code.normalize_of_lt hlt h.range_pos]
      exact ih (h.shiftLow_wider hlt) (by omega) (by omega)
    · rw [if_neg (show ¬c.range < Code.top from Nat.not_lt.mpr hge), Code.normalize_of_le hge]

/-- **A decision widens the range at most twice.** -/
theorem normalize_cut_eq {c : Code} (h : c.Ready) {d : Decision} (hd : d.Open)
    (hlimit : c.shifts + (c.cut d).widenings.length < limit) :
    normalize limit 2 (c.cut d) = some (c.step d) :=
  normalize_eq (h.tame.cut h.le_range hd) (h.length_widenings_cut hd) (by rwa [Code.shifts_cut])

/-! ## Decisions -/

/-- Narrows the interval to the part of a bit, under a chance that adapts to it. -/
def narrow (limit : ℕ) (c : Code) (p : Chance) (shift : ℕ) (bit : Bool) : Option Code :=
  let bound := p.share c.range
  require ((c.range.toNat >>> 11) * p.parts.toNat < 2 ^ 32 ∧ Adapts p shift bit) <|
    if bit then
      require (bound ≤ c.range ∧ c.low.toNat + bound.toNat < 2 ^ 64) <|
        normalize limit 2 { c with low := c.low + bound.toUInt64, range := c.range - bound }
    else normalize limit 2 { c with range := bound }

theorem narrow_eq {c : Code} (h : c.Ready) {p : Chance} (hp : p.Open) {shift : ℕ} (hshift : shift ≤ 15)
    {bit : Bool} (hlimit : c.shifts + (c.cut (.chance p bit)).widenings.length < limit) :
    narrow limit c p shift bit = some (c.narrow p bit) := by
  have hstep := normalize_cut_eq h (d := .chance p bit) hp hlimit
  have hshare := (h.share hp).2
  have hhigh := h.tame.high_le
  have hlt := c.range.toNat_lt
  have hproduct : (c.range.toNat >>> 11) * p.parts.toNat = (p.share c.range).toNat := by
    rw [Nat.shiftRight_eq_div_pow, Chance.toNat_share hp]
  rw [narrow, require_eq ⟨by omega, adapts hp hshift bit⟩, Code.narrow_eq]
  cases bit with
  | true =>
    rw [if_pos rfl, require_eq ⟨UInt32.le_iff_toNat_le.mpr hshare.le, by omega⟩]
    exact hstep
  | false =>
    rw [if_neg Bool.false_ne_true]
    exact hstep

/-- Narrows the interval to one of its halves. -/
def halve (limit : ℕ) (c : Code) (bit : Bool) : Option Code :=
  let half := c.range >>> 1
  require (c.low.toNat + half.toNat < 2 ^ 64) <|
    normalize limit 2
      { c with range := half, low := if bit then c.low + half.toUInt64 else c.low }

theorem halve_eq {c : Code} (h : c.Ready) {bit : Bool}
    (hlimit : c.shifts + (c.cut (.half bit)).widenings.length < limit) :
    halve limit c bit = some (c.halve bit) := by
  have hstep := normalize_cut_eq h (d := .half bit) trivial hlimit
  have hlow := h.tame.carryFits.low_lt
  have hhalf := (c.range >>> 1).toNat_lt
  rw [halve, require_eq (by omega), Code.halve_eq, ← hstep]
  cases bit <;> rfl

/-- Writes the low `n` bits of a word without a model. -/
def plain (limit value : ℕ) : (n : ℕ) → Code → Option Code
  | 0, c => some c
  | n + 1, c => require (n < 32) <| (halve limit c (value.testBit n)).bind (plain limit value n)

theorem plain_eq {value n : ℕ} (hn : n ≤ 32) {c : Code} (h : c.Ready)
    (hlimit : c.shifts + (Code.moved (Code.plainDecisions value n) c).length < limit) :
    plain limit value n c = some (c.plain value n) := by
  induction n generalizing c with
  | zero => rfl
  | succ n ih =>
    have hopen : (Decision.half (value.testBit n)).Open := trivial
    have hshifts := h.shifts_step hopen
    rw [Code.plainDecisions, Code.moved, List.length_append] at hlimit
    rw [plain, require_eq (Nat.lt_of_succ_le hn), halve_eq h (by omega), Option.bind_some, Code.plain,
      Code.halve_eq]
    exact ih (by omega) (h.step hopen) (by omega)

/-! ## Trees -/

/-- Writes the low `n` bits of a word, going down from `node`: each node has a chance, and its number fits a
word. -/
def writeBits {size : ℕ} (limit shift value : ℕ) :
    (n node : ℕ) → Vector Chance size → Code → Option (Vector Chance size × Code)
  | 0, _, chances, code => some (chances, code)
  | n + 1, node, chances, code =>
    if h : node < size then
      let p := chances[node]
      let b := value.testBit n
      require (n < 32 ∧ 2 * node + b.toNat < 2 ^ 64) <|
        (narrow limit code p shift b).bind
          (writeBits limit shift value n (2 * node + b.toNat) (chances.set node (p.adapt shift b)))
    else none

theorem writeBits_eq {size shift value n node : ℕ} (h₁ : 1 ≤ shift) (h₂ : shift ≤ 15) (hn : n ≤ 32)
    (hsize : size ≤ 2 ^ 32) (hnode : (node + 1) * 2 ^ n ≤ 2 * size) {chances : Vector Chance size}
    (hopen : ∀ p ∈ chances, p.Open) {code : Code} (h : code.Ready)
    (hlimit : code.shifts +
      (Code.moved (BitTree.path shift value n node hnode chances) code).length < limit) :
    writeBits limit shift value n node chances code =
      some (BitTree.write shift value n node hnode chances code) := by
  induction n generalizing node chances code with
  | zero => rfl
  | succ n ih =>
    have hlt : node < size := BitTree.lt_of_walk hnode
    have hp : chances[node].Open := hopen _ (Vector.getElem_mem hlt)
    have hb := (value.testBit n).toNat_le
    have hshifts := h.shifts_step (d := .chance chances[node] (value.testBit n)) hp
    rw [BitTree.path, Code.moved, List.length_append] at hlimit
    rw [writeBits, dif_pos hlt]
    dsimp only
    rw [require_eq ⟨hn, by omega⟩, narrow_eq h hp h₂ (by omega), Option.bind_some, BitTree.write,
      Code.narrow_eq]
    exact ih (by omega) (BitTree.walk_step hnode _) (BitTree.forall_set hopen hlt (hp.adapt h₁ h₂ _))
      (h.step hp) (by omega)

/-- Writes a symbol. -/
def encode (limit : ℕ) (symbol : UInt32) : BitTree → Code → Option (BitTree × Code)
  | ⟨context, chances⟩, code =>
    require (context.plainBits < 32) <|
      (writeBits limit context.shift (symbol.toNat >>> context.plainBits) context.modeledBits 1 chances
        code).bind fun (chances, code) =>
      (plain limit symbol.toNat context.plainBits code).map fun code => (⟨context, chances⟩, code)

theorem encode_eq {t : BitTree} (ht : t.Open) (hbits : t.context.symbolBits ≤ 31) {symbol : UInt32}
    {code : Code} (h : code.Ready)
    (hlimit : code.shifts + (Code.moved (t.decisions symbol) code).length < limit) :
    encode limit symbol t code = some (t.encode symbol code) := by
  obtain ⟨context, chances⟩ := t
  have hopen : ∀ p ∈ chances, p.Open := ht
  obtain ⟨h₁, h₂⟩ := BitTree.shift_bounds context
  have hplain : context.plainBits < 32 := (Nat.sub_le _ _).trans_lt (Nat.lt_succ_of_le hbits)
  have hmodeled : context.modeledBits ≤ 32 := (Nat.sub_le _ _).trans (Nat.le_succ_of_le hbits)
  have hsize : 2 ^ context.modeledBits ≤ 2 ^ 32 := Nat.pow_le_pow_right (by decide) hmodeled
  obtain ⟨hready, hshifts⟩ := h.run (BitTree.open_path h₁ h₂ (symbol.toNat >>> context.plainBits)
    context.modeledBits 1 (Nat.le_refl _) hopen)
  simp only [BitTree.decisions, Code.moved_append, List.length_append] at hlimit
  rw [encode, require_eq hplain, writeBits_eq h₁ h₂ hmodeled hsize (Nat.le_refl _) hopen h (by omega),
    Option.bind_some, BitTree.write_eq]
  dsimp only
  rw [plain_eq hplain.le hready (by omega), Option.map_some, BitTree.encode, BitTree.write_eq]

/-! ## Writers -/

/-- A writer at the start of its number: the trees have sizes that are words. -/
def startWriter (contexts : Vector Context k) (sink : Sink) : Option (RangeWriter k) :=
  require (∀ c : Fin k, (contexts.get c).modeledBits ≤ (contexts.get c).symbolBits ∧
      (contexts.get c).modeledBits < 64) <|
    some (RangeWriter.start contexts sink)

/-- Sends a symbol through a context. -/
def send (limit : ℕ) (c : Fin k) (symbol : UInt32) : Guarded (RangeWriter k) Unit
  | ⟨code, trees, sink, closed⟩ =>
    (encode limit symbol (trees.get c) code).map fun (tree, code) =>
      let w : RangeWriter k := ⟨code, trees.set c tree c.isLt, sink, closed⟩
      if RangeWriter.drainSize ≤ w.code.settled.size then w.drain else .ok () w

/-- Brings out everything that `low` still holds. -/
def flush (limit : ℕ) (c : Code) : Option Code :=
  ((((shiftLow limit c).bind (shiftLow limit)).bind (shiftLow limit)).bind (shiftLow limit)).bind
    (shiftLow limit)

theorem flush_eq {c : Code} (h : c.CarryFits) (hlimit : c.shifts + 5 < limit) :
    flush limit c = some c.flush := by
  have hnext (d : Code) : d.shiftLow.shiftLow.shifts = d.shiftLow.shifts + 1 :=
    Code.shifts_shiftLow (Code.held_shiftLow_pos d)
  have h₁ := Code.shifts_shiftLow h.held_pos
  have h₂ := hnext c
  have h₃ := hnext c.shiftLow
  have h₄ := hnext c.shiftLow.shiftLow
  rw [flush, shiftLow_eq h (by omega), Option.bind_some,
    shiftLow_eq (Code.carryFits_shiftLow _) (by omega), Option.bind_some,
    shiftLow_eq (Code.carryFits_shiftLow _) (by omega), Option.bind_some,
    shiftLow_eq (Code.carryFits_shiftLow _) (by omega), Option.bind_some,
    shiftLow_eq (Code.carryFits_shiftLow _) (by omega), Code.flush]

/-- Completes a number. -/
def close (limit : ℕ) : Guarded (RangeWriter k) Unit := fun w =>
  if w.closed then some (.ok () w)
  else (flush limit w.code).map fun code => RangeWriter.drain { w with code, closed := true }

theorem close_eq {w : RangeWriter k} (h : w.code.CarryFits)
    (hlimit : w.closed = false → w.code.shifts + 5 < limit) : close limit w = some w.close := by
  cases hclosed : w.closed with
  | true => rw [close, if_pos hclosed, RangeWriter.close_of_closed hclosed]
  | false =>
    rw [close, hclosed, if_neg Bool.false_ne_true, flush_eq h (hlimit hclosed), Option.map_some,
      RangeWriter.close_of_open hclosed]

/-- Takes a step. -/
def write (limit : ℕ) : CoderStep k m → Guarded (RangeWriter k × Vector Chance m) Unit
  | .symbol c s, (w, slots) =>
    (send limit c s w).map fun
      | .ok () w => .ok () (w, slots)
      | .error failure w => .error failure (w, slots)
  | .bit slot shift b, (w, slots) =>
    (narrow limit w.code (slots.get slot) shift b).map fun code =>
      .ok () ({ w with code }, slots.set slot ((slots.get slot).adapt shift b) slot.isLt)
  | .plain value count, (w, slots) =>
    (plain limit value.toNat count w.code).map fun code => .ok () ({ w with code }, slots)

/-- **No check of a step fails.** -/
theorem write_eq {w : RangeWriter k} {slots : Vector Chance m} (h : w.code.Ready)
    (hopen : Models.Open ⟨w.trees, slots⟩) (hbits : ∀ c, (w.trees.get c).context.symbolBits ≤ 31)
    {s : CoderStep k m} (hshift : s.ShiftInRange) (hfits : s.FitsWord)
    (hlimit : w.code.shifts + (Code.moved (s.decisions ⟨w.trees, slots⟩) w.code).length < limit) :
    write limit s (w, slots) = some (s.write (w, slots)) := by
  cases s with
  | symbol c s =>
    have hencode := encode_eq (hopen.trees c) (hbits c) h hlimit
    obtain ⟨code, trees, sink, closed⟩ := w
    rw [write, send]
    dsimp only at hencode ⊢
    rw [hencode]
    rfl
  | bit slot shift b =>
    simp only [CoderStep.decisions, Code.moved, List.append_nil] at hlimit
    rw [write, narrow_eq h (hopen.slots slot) hshift.2 hlimit]
    rfl
  | plain value count =>
    rw [write, plain_eq hfits h hlimit]
    rfl

/-- Makes a call. -/
def call (limit : ℕ) : CoderCall k m → RangeWriter k × Vector Chance m →
    Option (RangeWriter k × Vector Chance m)
  | .step s, e => (write limit s e).map leftBy
  | .close, (w, slots) => (close limit w).map fun result => (leftBy result, slots)

/-- Makes calls, whatever fails. -/
def callEach (limit : ℕ) : List (CoderCall k m) → RangeWriter k × Vector Chance m →
    Option (RangeWriter k × Vector Chance m)
  | [], e => some e
  | c :: cs, e => (call limit c e).bind (callEach limit cs)

end Guarded

namespace CoderCall

/-- Plain bits are bits of a word. -/
def FitsWord : CoderCall k m → Prop
  | .step s => s.FitsWord
  | .close => True

instance : (call : CoderCall k m) → Decidable call.FitsWord
  | .step s => inferInstanceAs (Decidable s.FitsWord)
  | .close => inferInstanceAs (Decidable True)

namespace Sound

variable {contexts : Vector Context k} {shifts : Fin m → ℕ} {e : RangeWriter k × Vector Chance m}
  {limit : ℕ}

/-- **No check of a call fails.** -/
theorem call_eq (h : Sound contexts shifts e) (hcontexts : ∀ c, (contexts.get c).alphabet ≤ 2 ^ 31)
    (hshifts : ∀ s, 1 ≤ shifts s ∧ shifts s ≤ 8) {call : CoderCall k m} (hcall : call.KeepsShift shifts)
    (hfits : call.FitsWord) (hlimit : e.1.code.shifts + (call.moved e).length < limit) :
    Guarded.call limit call e = some (call.take e) := by
  obtain ⟨w, slots⟩ := e
  cases call with
  | step s =>
    have hbits (c : Fin k) : (w.trees.get c).context.symbolBits ≤ 31 :=
      h.models.for_contexts c ▸ Context.symbolBits_le (hcontexts c)
    rw [Guarded.call, Guarded.write_eq h.ready (h.models.opened fun s => (hshifts s).1) hbits
      (hcall.shiftInRange hshifts) hfits hlimit]
    rfl
  | close =>
    rw [Guarded.call, Guarded.close_eq h.ready.tame.carryFits fun hclosed => ?_]
    · rfl
    · rwa [moved, hclosed, if_neg Bool.false_ne_true] at hlimit

theorem callEach_eq (h : Sound contexts shifts e) (hcontexts : ∀ c, (contexts.get c).alphabet ≤ 2 ^ 31)
    (hshifts : ∀ s, 1 ≤ shifts s ∧ shifts s ≤ 8) {calls : List (CoderCall k m)}
    (hcalls : ∀ call ∈ calls, call.KeepsShift shifts) (hfits : ∀ call ∈ calls, call.FitsWord)
    (hlimit : e.1.code.shifts + (along moved calls e).length < limit) :
    Guarded.callEach limit calls e = some (CoderCall.takeAll calls e) := by
  induction calls generalizing e with
  | nil => rfl
  | cons call calls ih =>
    obtain ⟨hcall, hcalls⟩ := List.forall_mem_cons.mp hcalls
    obtain ⟨hfit, hfits⟩ := List.forall_mem_cons.mp hfits
    obtain ⟨hsound, hshift⟩ := h.take hshifts hcall
    rw [along, List.length_append] at hlimit
    rw [Guarded.callEach, h.call_eq hcontexts hshifts hcall hfit (by omega), Option.bind_some]
    exact ih hsound hcalls hfits (by omega)

end Sound

theorem startWriter_eq {contexts : Vector Context k}
    (hcontexts : ∀ c, (contexts.get c).alphabet ≤ 2 ^ 31) (sink : Sink) :
    Guarded.startWriter contexts sink = some (RangeWriter.start contexts sink) := by
  rw [Guarded.startWriter, Guarded.require_eq]
  intro c
  have hsum := (contexts.get c).plainBits_add_modeledBits
  have hbits := Context.symbolBits_le (hcontexts c)
  omega

/-- **A range writer stays inside its bounds**, whatever calls are made: its chances keep away from
certainty, its range, its `low` and its counts are what a decision needs, every byte that is moved out of
`low` is counted, and a decision moves out two at most.  **So no check fails**, and every range is widened
until it is wide enough.

The checks need two things that the bounds do not.  `limit` is where the words of the counts end, which is
`2 ^ 64`: as long as fewer bytes than that were moved, no count wraps around.  `FitsWord` is what a caller of
the coder keeps to, at most 32 plain bits at a time, since they are shifted out of a word; the symbols of
these contexts never send more of them. -/
theorem takeAll_bounded (contexts : Vector Context k) (shifts : Fin m → ℕ) (sink : Sink)
    (calls : List (CoderCall k m)) (hcontexts : ∀ c, (contexts.get c).alphabet ≤ 2 ^ 31)
    (hshifts : ∀ s, 1 ≤ shifts s ∧ shifts s ≤ 8) (hcalls : ∀ call ∈ calls, call.KeepsShift shifts) :
    let slots := Vector.replicate m Chance.even
    let start := (RangeWriter.start contexts sink, slots)
    let e := takeAll calls start
    let moves := along moved calls start
    Models.Within contexts shifts ⟨e.1.trees, e.2⟩ ∧ e.1.code.Bounded ∧
      e.1.produced + e.1.code.held = 1 + moves.length ∧ (∀ c ∈ moves, c.Moves) ∧
      (∀ x ∈ along taken calls start, Code.Splits x.1 x.2) ∧
      ∀ limit, 1 + moves.length < limit → (∀ call ∈ calls, call.FitsWord) →
        ((Guarded.startWriter contexts sink).bind fun w => Guarded.callEach limit calls (w, slots)) =
          some e := by
  intro slots start e moves
  have hstart : Sound contexts shifts start := sound_start contexts sink fun s => (hshifts s).2
  obtain ⟨hsound, hcount⟩ := hstart.takeAll hshifts hcalls
  refine ⟨hsound.models, hsound.ready.bounded, hcount, ?_, ?_, fun limit hlimit hfits => ?_⟩
  · exact hstart.forall_along hshifts (fun _ h => h.moves fun s => (hshifts s).1) hcalls
  · exact hstart.forall_along hshifts (fun _ h => h.splits fun s => (hshifts s).1) hcalls
  · rw [startWriter_eq hcontexts, Option.bind_some]
    exact hstart.callEach_eq hcontexts hshifts hcalls hfits hlimit

/-- A symbol, a bit, eight plain bits and two closes, in words of 64 bits. -/
theorem takeAll_bounded_five :
    let contexts : Vector Context 1 := #v[⟨11, 0, 32⟩]
    let calls : List (CoderCall 1 6) :=
      [.step (.symbol 0 7), .step (.bit 5 4 true), .step (.plain 0xA5 8), .close, .close]
    let start := (RangeWriter.start contexts {}, Vector.replicate 6 Chance.even)
    let moves := along moved calls start
    (∀ c, (contexts.get c).alphabet ≤ 2 ^ 31) ∧ (∀ call ∈ calls, call.KeepsShift fun _ => 4) ∧
      (takeAll calls start).1.produced + (takeAll calls start).1.code.held = 1 + moves.length ∧
      1 + moves.length < 2 ^ 64 ∧ (∀ call ∈ calls, call.FitsWord) ∧
      Guarded.callEach (2 ^ 64) calls start = some (takeAll calls start) := by
  intro contexts calls start moves
  have hcontexts : ∀ c, (contexts.get c).alphabet ≤ 2 ^ 31 := by decide
  have hcalls : ∀ call ∈ calls, call.KeepsShift fun _ => 4 := by decide
  have hlimit : 1 + moves.length < 2 ^ 64 := by decide +kernel
  have hfits : ∀ call ∈ calls, call.FitsWord := by decide
  obtain ⟨-, -, hcount, -, -, hguarded⟩ :=
    takeAll_bounded contexts (fun _ => 4) {} calls hcontexts (by decide) hcalls
  have hrun := hguarded (2 ^ 64) hlimit hfits
  rw [startWriter_eq hcontexts, Option.bind_some] at hrun
  exact ⟨hcontexts, hcalls, hcount, hlimit, hfits, hrun⟩

end CoderCall

end BlockPress
