import BlockPress.Proofs.Entropy.Capacity

/-!
# Delivery

A caller of a range coder goes on after failures, and closes.  On a sink that takes everything no step
fails, and each byte that was produced is in the sink or settled (`RangeWriter.Keeps`).  On a sink that
takes `L` bytes the caller comes to the same coder, or to one whose sink is full (`CoderStep.rationed_goOn`).

Main statement: **the first close tells whether everything was delivered** (`RangeWriter.close_delivers`).
A close that fails has marked the number as complete before it drains, so the next one succeeds all the
same and delivers nothing (`RangeWriter.close_again_undelivered`).
-/

namespace BlockPress

open Carrier

variable {k m : ℕ}

instance : Carrier (RangeWriter k × Vector Chance m) k where
  coder := Prod.fst
  ration n e := (ration n e.1, e.2)

namespace RangeWriter

/-! ## What becomes of the bytes -/

/-- The sink takes everything, and every byte that was produced is in the sink or settled. -/
structure Keeps (w : RangeWriter k) : Prop where
  /-- The sink takes everything. -/
  unlimited : w.sink.capacity = none
  /-- No byte is lost. -/
  size_eq : w.sink.written.size + w.code.settled.size = w.produced

theorem keeps_start (contexts : Vector Context k) : (start contexts {}).Keeps := ⟨rfl, rfl⟩

variable {w : RangeWriter k}

theorem Keeps.settles (h : w.Keeps) {code : Code} (hcode : Code.Settles w.code code)
    (trees : Vector BitTree k) (closed : Bool) : Keeps { w with code, trees, closed } := by
  obtain ⟨n, hsettled, hproduced⟩ := hcode
  obtain ⟨hunlimited, hsize⟩ := h
  refine ⟨hunlimited, ?_⟩
  rw [produced] at hsize ⊢
  dsimp only
  omega

/-- **A drain delivers everything that was produced.** -/
theorem Keeps.drain (h : w.Keeps) :
    ∃ w', RangeWriter.drain w = .ok () w' ∧ w'.Keeps ∧ w'.sink.written.size = w'.produced := by
  have hall : (w.sink.written ++ w.code.settled).size = w.produced :=
    ByteArray.size_append.trans h.size_eq
  exact ⟨_, drain_eq h.unlimited, ⟨rfl, hall⟩, hall⟩

theorem Keeps.send (h : w.Keeps) (c : Fin k) (s : UInt32) :
    ∃ w', RangeWriter.send c s w = .ok () w' ∧ w'.Keeps := by
  obtain ⟨code, trees, sink, closed⟩ := w
  have hencode := Code.settles_encode (trees.get c) s code
  rw [RangeWriter.send]
  generalize (trees.get c).encode s code = x at hencode ⊢
  obtain ⟨tree, code'⟩ := x
  have hkeeps := h.settles hencode (trees.set c tree c.isLt) closed
  dsimp only at hkeeps ⊢
  split
  · obtain ⟨w', hdrain, hkeeps', -⟩ := hkeeps.drain
    exact ⟨w', hdrain, hkeeps'⟩
  · exact ⟨_, rfl, hkeeps⟩

/-! ## Complete numbers -/

/-- A complete number is closed again without an effect. -/
theorem close_of_closed (h : w.closed = true) : close w = .ok () w := if_pos h

theorem close_of_open (h : w.closed = false) :
    close w = RangeWriter.drain { w with code := w.code.flush, closed := true } :=
  if_neg (by rw [h]; exact Bool.false_ne_true)

theorem closed_drain (w : RangeWriter k) : (leftBy (drain w)).closed = w.closed := by
  obtain ⟨code, trees, sink, closed⟩ := w
  rw [drain]
  split
  · rfl
  · cases Sink.write code.settled sink with
    | ok _ sink => rfl
    | error f sink => rfl

theorem closed_send (c : Fin k) (s : UInt32) (w : RangeWriter k) :
    (leftBy (send c s w)).closed = w.closed := by
  obtain ⟨code, trees, sink, closed⟩ := w
  rw [send]
  dsimp only
  split
  · exact closed_drain _
  · rfl

/-- **A close leaves a complete number behind**, whether it succeeds or not. -/
theorem closed_close (w : RangeWriter k) : (leftBy (close w)).closed = true := by
  cases hclosed : w.closed with
  | true => rw [close_of_closed hclosed]; exact hclosed
  | false => rw [close_of_open hclosed]; exact closed_drain _

theorem Keeps.close (h : w.Keeps) (hclosed : w.closed = false) :
    ∃ w', RangeWriter.close w = .ok () w' ∧ w'.sink.written.size = w'.produced := by
  obtain ⟨w', hdrain, -, hall⟩ := (h.settles (Code.settles_flush w.code) w.trees true).drain
  exact ⟨w', (close_of_open hclosed).trans hdrain, hall⟩

/-- A coder that is stuck is not closed, and its sink stays as it is. -/
theorem Stuck.close {held : ByteArray} (h : w.Stuck held) (hclosed : w.closed = false) :
    ∃ f w', RangeWriter.close w = .error f w' ∧ w'.sink.written = held := by
  rw [close_of_open hclosed]
  obtain ⟨code, trees, sink, closed⟩ := w
  obtain ⟨hsink, hmany⟩ := h
  dsimp only at hsink hmany
  subst hsink
  have hflush := (Code.settles_flush code).settled_le
  have hpos : 0 < code.flush.settled.size := (hmany.trans hflush).trans_lt' (by decide)
  obtain ⟨f, hdrain⟩ := drain_full hpos
  exact ⟨f, _, hdrain, rfl⟩

end RangeWriter

namespace CoderStep

open RangeWriter

/-! ## Steps -/

/-- Takes steps on the writing side, all of them, whatever fails. -/
def goOn (steps : List (CoderStep k m)) (e : RangeWriter k × Vector Chance m) :
    RangeWriter k × Vector Chance m := steps.foldl (fun e s => leftBy (s.write e)) e

theorem goOn_cons (s : CoderStep k m) (steps : List (CoderStep k m)) (e : RangeWriter k × Vector Chance m) :
    goOn (s :: steps) e = goOn steps (leftBy (s.write e)) := rfl

theorem keeps_write {e : RangeWriter k × Vector Chance m} (h : e.1.Keeps) (s : CoderStep k m) :
    (leftBy (s.write e)).1.Keeps := by
  obtain ⟨w, slots⟩ := e
  cases s with
  | symbol c s =>
    obtain ⟨w', hsend, hkeeps⟩ := h.send c s
    rw [write, hsend]
    exact hkeeps
  | bit slot shift b =>
    refine h.settles ?_ w.trees w.closed
    rw [Code.narrow_eq]
    exact Code.settles_step _ _
  | plain value count =>
    refine h.settles ?_ w.trees w.closed
    rw [Code.plain_eq_run]
    exact Code.settles_run _ _

theorem closed_write (s : CoderStep k m) (e : RangeWriter k × Vector Chance m) :
    (leftBy (s.write e)).1.closed = e.1.closed := by
  obtain ⟨w, slots⟩ := e
  cases s with
  | symbol c s =>
    have hclosed := closed_send c s w
    rw [write]
    generalize RangeWriter.send c s w = x at hclosed ⊢
    cases x with
    | ok _ w' => exact hclosed
    | error f w' => exact hclosed
  | bit slot shift b => rfl
  | plain value count => rfl

/-- **A step is rationed.** -/
theorem rations_write (s : CoderStep k m) : Rations Stuck s.write := by
  intro L e he hL
  obtain ⟨w, slots⟩ := e
  cases s with
  | symbol c s =>
    have hsend := rations_send c s L w he hL
    change Rationed L Stuck (written w) (write (.symbol c s) (w, slots))
      (write (.symbol c s) (ration L w, slots))
    rw [write, write]
    generalize RangeWriter.send c s w = x, RangeWriter.send c s (ration L w) = x' at hsend ⊢
    apply hsend.andThen (g := fun w => (w, slots)) (fun _ _ => rfl) (fun _ => rfl)
    exact fun L' _ w hw hL => .same hw rfl hL
  | bit slot shift b => exact .same he rfl hL
  | plain value count => exact .same he rfl hL

theorem stuck_write {held : ByteArray} {e : RangeWriter k × Vector Chance m} (h : e.1.Stuck held)
    (s : CoderStep k m) : (leftBy (s.write e)).1.Stuck held := by
  obtain ⟨w, slots⟩ := e
  cases s with
  | symbol c s =>
    obtain ⟨f, w', hsend, hstuck⟩ := h.send c s
    rw [write, hsend]
    exact hstuck
  | bit slot shift b =>
    have hnarrow := (Code.settles_step w.code (.chance (slots.get slot) b)).settled_le
    rw [← Code.narrow_eq] at hnarrow
    exact ⟨h.sink_eq, h.drainSize_le.trans hnarrow⟩
  | plain value count =>
    have hplain := (Code.settles_run (Code.plainDecisions value.toNat count) w.code).settled_le
    rw [← Code.plain_eq_run] at hplain
    exact ⟨h.sink_eq, h.drainSize_le.trans hplain⟩

/-! ## A caller that goes on -/

theorem keeps_goOn (steps : List (CoderStep k m)) {e : RangeWriter k × Vector Chance m}
    (h : e.1.Keeps) : (goOn steps e).1.Keeps := by
  induction steps generalizing e with
  | nil => exact h
  | cons s steps ih => exact ih (keeps_write h s)

theorem closed_goOn (steps : List (CoderStep k m)) (e : RangeWriter k × Vector Chance m) :
    (goOn steps e).1.closed = e.1.closed := by
  induction steps generalizing e with
  | nil => rfl
  | cons s steps ih => exact (ih _).trans (closed_write s e)

theorem stuck_goOn (steps : List (CoderStep k m)) {held : ByteArray}
    {e : RangeWriter k × Vector Chance m} (h : e.1.Stuck held) : (goOn steps e).1.Stuck held := by
  induction steps generalizing e with
  | nil => exact h
  | cons s steps ih => exact ih (stuck_write h s)

/-- **A caller that goes on comes to the same coder on a sink that takes `L` bytes, or to one whose sink
is full** of the first `L` bytes. -/
theorem rationed_goOn (steps : List (CoderStep k m)) {L : ℕ} {e : RangeWriter k × Vector Chance m}
    (he : e.1.sink.capacity = none) (hL : (written e).size ≤ L) :
    Follows (written e) (goOn steps e) ∧
      ((written (goOn steps e)).size ≤ L ∧ goOn steps (ration L e) = ration L (goOn steps e) ∨
        L < (written (goOn steps e)).size ∧
          (goOn steps (ration L e)).1.Stuck ((written (goOn steps e)).extract 0 L)) := by
  induction steps generalizing L e with
  | nil => exact ⟨.refl he, .inl ⟨hL, rfl⟩⟩
  | cons s steps ih =>
    have hwrite := rations_write s L e he hL
    rw [goOn_cons, goOn_cons]
    generalize s.write e = x, s.write (ration L e) = x' at hwrite ⊢
    cases hwrite with
    | @fits _ t follows size_le =>
      obtain ⟨hrest, hor⟩ := ih follows.unlimited size_le
      exact ⟨follows.trans hrest, hor⟩
    | @full _ t t' f follows lt_size left =>
      obtain ⟨hrest, -⟩ := ih follows.unlimited le_rfl
      refine ⟨follows.trans hrest, .inr ⟨lt_size.trans_le hrest.size_le, ?_⟩⟩
      rw [← hrest.extract_eq lt_size.le] at left
      exact stuck_goOn steps left

end CoderStep

namespace RangeWriter

open CoderStep

/-- Behind steps of a caller that goes on, a close delivers all bytes, or fails with the first `L` of them
in the sink. -/
theorem close_goOn (steps : List (CoderStep k m)) {L : ℕ} {e : RangeWriter k × Vector Chance m}
    (he : e.1.Keeps) (hclosed : e.1.closed = false) (hL : (written e).size ≤ L) :
    ∃ all, close (goOn steps e).1 = .ok () all ∧ all.sink.written.size = all.produced ∧
      match close (goOn steps (ration L e)).1 with
      | .ok _ w' => w'.sink.written = all.sink.written ∧ w'.produced = all.produced
      | .error _ w' => w'.sink.written = all.sink.written.extract 0 L ∧ L < all.produced := by
  have hkeeps := keeps_goOn steps he
  obtain ⟨all, hall, hsize⟩ := hkeeps.close ((closed_goOn steps e).trans hclosed)
  refine ⟨all, hall, hsize, ?_⟩
  obtain ⟨-, ⟨hfits, heq⟩ | ⟨hlt, hstuck⟩⟩ := rationed_goOn steps he.unlimited hL
  · have hclose := rations_close L (goOn steps e).1 hkeeps.unlimited hfits
    rw [hall] at hclose
    rw [heq]
    change match close (ration L (goOn steps e).1) with | .ok _ w' => _ | .error _ w' => _
    generalize close (ration L (goOn steps e).1) = x at hclose ⊢
    cases hclose with
    | fits _ _ => exact ⟨rfl, rfl⟩
    | full _ lt_size left => exact ⟨left, lt_size.trans_eq hsize⟩
  · have hfollows : Follows (written (goOn steps e)) all := rations_close.follows hkeeps.unlimited hall
    obtain ⟨f, w', hclose, hwritten⟩ :=
      hstuck.close ((closed_goOn steps (ration L e)).trans hclosed)
    rw [hclose]
    exact ⟨hwritten.trans (hfollows.extract_eq hlt.le).symm, hlt.trans_le (hfollows.size_le.trans_eq hsize)⟩

/-- **The first close tells whether everything was delivered.**  Whatever steps were taken before, also
after failures, on a sink that takes `L` bytes: a close that succeeds has delivered all bytes that were
produced, and one that fails has delivered the first `L` of them, and there are more.  Every other close
succeeds, and changes nothing. -/
theorem close_delivers (contexts : Vector Context k) (slots : Vector Chance m)
    (steps : List (CoderStep k m)) (L : ℕ) :
    let w := (goOn steps (start contexts { capacity := some L }, slots)).1
    (∃ all, close (goOn steps (start contexts {}, slots)).1 = .ok () all ∧
      all.sink.written.size = all.produced ∧
      match close w with
      | .ok _ w' => w'.sink.written = all.sink.written ∧ w'.produced = all.produced
      | .error _ w' => w'.sink.written = all.sink.written.extract 0 L ∧ L < all.produced) ∧
    close (leftBy (close w)) = .ok () (leftBy (close w)) :=
  ⟨close_goOn steps (keeps_start contexts) rfl (Nat.zero_le L), close_of_closed (closed_close _)⟩

/-- A writer on a sink that takes nothing: the second close succeeds, and the sink is still empty. -/
theorem close_again_undelivered : ∃ (f : Failure) (w : RangeWriter 0),
    close (start #v[] { capacity := some 0 }) = .error f w ∧ close w = .ok () w ∧
      w.sink.written.size < w.produced := by
  refine ⟨.io Sink.fullReason, _, rfl, rfl, ?_⟩
  decide

end RangeWriter

end BlockPress
