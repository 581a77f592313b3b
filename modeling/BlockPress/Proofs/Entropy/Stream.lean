import BlockPress.Proofs.Entropy.RoundTrip

/-!
# Streams of symbols

The block codec sends symbols one after the other and takes them back the same way: a reader `Gives`
symbols if it returns each of them when asked through its context.  What a writer was sent in two parts
it was sent at once (`sendAll_append`), and what a reader gives at once it gives in two parts
(`gives_append`).

Main statement: **a range coder gives back the symbols that one was sent** (`RangeReader.exists_gives`),
from a sink that may have held bytes before.
-/

namespace BlockPress

variable {k : ℕ}

/-! ## Two parts -/

section Parts

variable {ε δ : Type} [SymbolWriter ε k] [SymbolReader δ k] {xs ys : List (Fin k × UInt32)}

theorem sendAll_cons {c : Fin k} {s : UInt32} {e f : ε} : sendAll ((c, s) :: xs) e = .ok () f ↔
    ∃ d, SymbolWriter.send c s e = .ok () d ∧ sendAll xs d = .ok () f := by
  rw [sendAll]
  dsimp only
  cases SymbolWriter.send c s e with
  | ok _ d =>
    refine ⟨fun h => ⟨d, rfl, h⟩, ?_⟩
    rintro ⟨d', hd, hf⟩
    cases hd
    exact hf
  | error failure d =>
    refine ⟨fun h => (nomatch h), ?_⟩
    rintro ⟨d', hd, -⟩
    cases hd

theorem sendAll_append {e f : ε} :
    sendAll (xs ++ ys) e = .ok () f ↔ ∃ d, sendAll xs e = .ok () d ∧ sendAll ys d = .ok () f := by
  induction xs generalizing e with
  | nil =>
    refine ⟨fun h => ⟨e, rfl, h⟩, ?_⟩
    rintro ⟨d, hd, hf⟩
    cases hd
    exact hf
  | cons x xs ih =>
    obtain ⟨c, s⟩ := x
    rw [List.cons_append, sendAll_cons]
    constructor
    · rintro ⟨d, hd, h⟩
      obtain ⟨d', hxs, hys⟩ := ih.mp h
      exact ⟨d', sendAll_cons.mpr ⟨d, hd, hxs⟩, hys⟩
    · rintro ⟨d', h, hys⟩
      obtain ⟨d, hd, hxs⟩ := sendAll_cons.mp h
      exact ⟨d, hd, ih.mpr ⟨d', hxs, hys⟩⟩

/-- The reader gives the symbols, each through its context, and is left behind the last one. -/
inductive Gives : List (Fin k × UInt32) → δ → δ → Prop where
  /-- Nothing was asked for. -/
  | nil (d : δ) : Gives [] d d
  /-- A symbol, and then the others. -/
  | cons {c : Fin k} {s : UInt32} {xs : List (Fin k × UInt32)} {d e f : δ}
    (receive : SymbolReader.receive c d = .ok s e) (rest : Gives xs e f) : Gives ((c, s) :: xs) d f

theorem gives_cons {c : Fin k} {s : UInt32} {d f : δ} (h : Gives ((c, s) :: xs) d f) :
    ∃ e, SymbolReader.receive c d = .ok s e ∧ Gives xs e f := by
  cases h with
  | cons receive rest => exact ⟨_, receive, rest⟩

theorem gives_nil {d f : δ} (h : Gives ([] : List (Fin k × UInt32)) d f) : d = f := by
  cases h
  rfl

theorem gives_append {d f : δ} (h : Gives (xs ++ ys) d f) : ∃ e, Gives xs d e ∧ Gives ys e f := by
  induction xs generalizing d with
  | nil => exact ⟨d, .nil d, h⟩
  | cons x xs ih =>
    obtain ⟨c, s⟩ := x
    obtain ⟨e, hreceive, hrest⟩ := gives_cons h
    obtain ⟨e', hxs, hys⟩ := ih hrest
    exact ⟨e', .cons hreceive hxs, hys⟩

theorem Gives.append {d e f : δ} (hxs : Gives xs d e) (hys : Gives ys e f) : Gives (xs ++ ys) d f := by
  induction hxs with
  | nil d => exact hys
  | cons receive _ ih => exact .cons receive (ih hys)

end Parts

/-! ## Range coders -/

section RangeCoders

variable {m : ℕ} {slots slots' : Vector Chance m} {xs : List (Fin k × UInt32)}

/-- The steps of sending symbols. -/
def symbolSteps (m : ℕ) (xs : List (Fin k × UInt32)) : List (CoderStep k m) :=
  xs.map fun (c, s) => .symbol c s

theorem RangeWriter.sendAll_of_writeAll {w w' : RangeWriter k}
    (h : CoderStep.writeAll (symbolSteps m xs) (w, slots) = .ok () (w', slots')) :
    sendAll xs w = .ok () w' := by
  induction xs generalizing w with
  | nil =>
    cases h
    rfl
  | cons x xs ih =>
    obtain ⟨c, s⟩ := x
    rw [symbolSteps, List.map_cons, CoderStep.writeAll, CoderStep.write] at h
    cases heq : RangeWriter.send c s w with
    | ok _ e =>
      rw [heq] at h
      exact sendAll_cons.mpr ⟨e, heq, ih h⟩
    | error failure e =>
      rw [heq] at h
      cases h

theorem RangeReader.gives_of_readAll {r r' : RangeReader k}
    (h : CoderQuery.readAll ((symbolSteps m xs).map CoderStep.query) (r, slots) =
      .ok ((symbolSteps m xs).map CoderStep.answer) (r', slots')) : Gives xs r r' := by
  induction xs generalizing r with
  | nil =>
    cases h
    exact .nil _
  | cons x xs ih =>
    obtain ⟨c, s⟩ := x
    simp only [symbolSteps, List.map_cons, CoderStep.query, CoderStep.answer, CoderQuery.readAll,
      CoderQuery.read] at h
    cases hreceive : RangeReader.receive c r with
    | error failure e =>
      rw [hreceive] at h
      cases h
    | ok t e =>
      simp only [hreceive] at h
      cases hrest : CoderQuery.readAll ((symbolSteps m xs).map CoderStep.query) (e, slots) with
      | error failure f =>
        simp only [symbolSteps] at hrest
        rw [hrest] at h
        cases h
      | ok answers f =>
        have hrest' := hrest
        simp only [symbolSteps] at hrest
        rw [hrest] at h
        cases h
        exact .cons hreceive (ih hrest')

/-- The decisions of symbols end with a half if the last symbol has a bit without a model. -/
theorem exists_script_eq_concat_half {contexts : Vector Context k} {ms : Models k m}
    (hms : ms.For contexts) (xs : List (Fin k × UInt32)) {c : Fin k}
    (hc : 0 < (contexts.get c).plainBits) (s : UInt32) :
    ∃ ds b, CoderStep.script ms (symbolSteps m (xs ++ [(c, s)])) = ds ++ [.half b] := by
  let learned := CoderStep.learnAll ms (symbolSteps m xs)
  have hbits : 0 < (learned.trees.get c).context.plainBits := (hms.learnAll _ c).symm ▸ hc
  obtain ⟨n, hn⟩ := Nat.exists_eq_succ_of_ne_zero hbits.ne'
  obtain ⟨ds, b, hlast⟩ := Code.exists_plainDecisions_eq_concat s.toNat n
  have hsteps : symbolSteps m (xs ++ [(c, s)]) = symbolSteps m xs ++ [.symbol c s] := List.map_append
  obtain ⟨es, hes⟩ : ∃ es, (learned.trees.get c).decisions s = es ++ [.half b] := by
    rw [BitTree.decisions, hn, hlast, ← List.append_assoc]
    exact ⟨_, rfl⟩
  refine ⟨CoderStep.script ms (symbolSteps m xs) ++ es, b, ?_⟩
  rw [hsteps, CoderStep.script_append, CoderStep.script, CoderStep.script, List.append_nil,
    CoderStep.decisions, hes, List.append_assoc]

/-- **A range coder gives back the symbols that one was sent**, behind what the sink held before.  If the
last symbol has a bit without a model, this takes all bytes but one at most. -/
theorem RangeReader.exists_gives (contexts : Vector Context k) (xs : List (Fin k × UInt32))
    (hxs : ∀ x ∈ xs, x.2.toNat < (contexts.get x.1).size) (sink : Sink) (hsink : sink.capacity = none) :
    ∃ w w' r r', sendAll xs (RangeWriter.start contexts sink) = .ok () w ∧
      RangeWriter.close w = .ok () w' ∧
      sink.written.data.toList <+: w'.sink.written.data.toList ∧
      RangeReader.start contexts { data := w'.sink.written, position := sink.written.size } =
        .ok r r.source ∧
      r.trees = contexts.map BitTree.fresh ∧ Gives xs r r' ∧
      ∀ ys c s, xs = ys ++ [(c, s)] → 0 < (contexts.get c).plainBits →
        w'.sink.written.size ≤ r'.source.position + 1 := by
  have hvalid : ∀ s ∈ symbolSteps 0 xs, s.Valid contexts := by
    intro s hs
    obtain ⟨x, hx, rfl⟩ := List.mem_map.mp hs
    exact hxs x hx
  obtain ⟨w, slots, w', r, hw, -, hw', hbytes, hr, htrees, hread⟩ :=
    CoderStep.exists_reading contexts hvalid sink hsink .empty
  obtain ⟨r', slots', hr', -, htracks⟩ := hread (symbolSteps 0 xs).length
  obtain rfl : slots' = _ := Vector.eq_empty
  rw [List.take_length] at hr' htracks
  rw [ByteArray.append_empty] at hr
  refine ⟨w, w', r, r', RangeWriter.sendAll_of_writeAll hw, hw', hbytes ▸ List.prefix_append _ _, hr,
    htrees, gives_of_readAll hr', fun ys c s hlast hc => ?_⟩
  have hopen := (Models.open_fresh contexts 0).script fun s hs => (hvalid s hs).shiftInRange
  obtain ⟨ds, b, hscript⟩ :=
    exists_script_eq_concat_half (Models.for_fresh contexts 0) ys hc s
  rw [← hlast] at hscript
  rw [hscript] at hopen hbytes htracks
  have hwidening := lastWidening_concat_half_le (fun d hd => hopen d (List.mem_append_left _ hd)) b
  have hshifts := shifts_cutAll_add_lastWidening hopen
  have hposition : r'.source.position =
      sink.written.size + ((Interval.cutAll (ds ++ [.half b]) {}).shifts + 5) :=
    congrArg Source.position htracks.source_eq
  have hsize : w'.sink.written.size =
      sink.written.size + ((Interval.run (ds ++ [.half b]) {}).shifts + 5) := by
    have hlength := congrArg List.length hbytes
    rwa [List.length_append, length_bigEndian, Array.length_toList, Array.length_toList] at hlength
  omega

end RangeCoders

end BlockPress
