import BlockPress.Entropy.Tape
import BlockPress.Proofs.Entropy.Stream

/-!
# Tapes as coders

A tape takes any symbols of the alphabets and only adds them to its record (`TapeWriter.sendAll_eq`), and
**it gives symbols exactly where they stand in the record** (`TapeReader.gives_iff`).  So what was sent is
given again, whatever was recorded behind it (`TapeReader.gives_append`).
-/

namespace BlockPress

variable {k : ℕ} {xs : List (Fin k × UInt32)}

/-- The record of symbols. -/
def recorded (xs : List (Fin k × UInt32)) : List Recorded := xs.map fun x => ⟨x.1, x.2⟩

theorem length_recorded (xs : List (Fin k × UInt32)) : (recorded xs).length = xs.length :=
  List.length_map _

/-! ## Recording -/

/-- **A tape records what it is sent.** -/
theorem TapeWriter.sendAll_eq {w : TapeWriter k}
    (h : ∀ x ∈ xs, x.2.toNat < (w.contexts.get x.1).alphabet) :
    sendAll xs w = .ok () { w with symbols := w.symbols ++ (recorded xs).toArray } := by
  induction xs generalizing w with
  | nil =>
    obtain ⟨contexts, symbols, closed⟩ := w
    rw [recorded, List.map_nil, Array.append_empty]
    rfl
  | cons x xs ih =>
    obtain ⟨c, s⟩ := x
    have hs : s.toNat < (w.contexts.get c).alphabet := h (c, s) List.mem_cons_self
    have hsend : SymbolWriter.send c s w = .ok () { w with symbols := w.symbols.push ⟨c, s⟩ } :=
      if_pos hs
    have hrest := ih (w := { w with symbols := w.symbols.push ⟨c, s⟩ }) fun x hx =>
      h x (List.mem_cons_of_mem _ hx)
    have hsymbols : w.symbols.push ⟨c, s⟩ ++ (recorded xs).toArray =
        w.symbols ++ (recorded ((c, s) :: xs)).toArray := by
      rw [← Array.append_singleton, Array.append_assoc, ← List.toArray_cons]
      rfl
    dsimp only at hrest
    rw [hsymbols] at hrest
    rw [sendAll]
    dsimp only
    rw [hsend]
    exact hrest

/-! ## Playing -/

namespace TapeReader

variable {r r' : TapeReader k}

theorem receive_eq_ok_iff {c : Fin k} {s : UInt32} : SymbolReader.receive c r = .ok s r' ↔
    r.symbols[r.position]? = some ⟨c, s⟩ ∧ r' = { r with position := r.position + 1 } := by
  change receive c r = .ok s r' ↔ _
  rw [receive]
  cases hget : r.symbols[r.position]? with
  | none => exact ⟨fun h => (nomatch h), fun h => (nomatch h.1)⟩
  | some x =>
    obtain ⟨context, symbol⟩ := x
    dsimp only
    by_cases hc : context = c
    · rw [if_pos hc]
      constructor
      · intro h
        cases h
        exact ⟨hc ▸ rfl, rfl⟩
      · rintro ⟨hx, rfl⟩
        obtain ⟨-, rfl⟩ := Recorded.mk.inj (Option.some.inj hx)
        rfl
    · rw [if_neg hc]
      refine ⟨fun h => (nomatch h), fun h => absurd ?_ hc⟩
      exact congrArg Recorded.context (Option.some.inj h.1)

/-- **A tape gives symbols exactly where they stand in its record.** -/
theorem gives_iff : Gives xs r r' ↔ recorded xs <+: r.symbols.toList.drop r.position ∧
    r' = { r with position := r.position + xs.length } := by
  induction xs generalizing r with
  | nil =>
    refine ⟨fun h => ⟨List.nil_prefix, (gives_nil h).symm⟩, ?_⟩
    rintro ⟨-, rfl⟩
    exact .nil r
  | cons x xs ih =>
    obtain ⟨c, s⟩ := x
    have hlength : ((c, s) :: xs).length = xs.length + 1 := rfl
    have hrecorded : recorded ((c, s) :: xs) = ⟨c, s⟩ :: recorded xs := rfl
    rw [hlength, hrecorded]
    constructor
    · intro h
      obtain ⟨e, hreceive, hrest⟩ := gives_cons h
      obtain ⟨hget, rfl⟩ := receive_eq_ok_iff.mp hreceive
      obtain ⟨hfirst, rfl⟩ := ih.mp hrest
      obtain ⟨hlt, hx⟩ := Array.getElem?_eq_some_iff.mp hget
      have hlt' : r.position < r.symbols.toList.length := hlt
      rw [List.drop_eq_getElem_cons hlt', Array.getElem_toList, hx]
      refine ⟨(List.prefix_cons_inj _).mpr hfirst, ?_⟩
      rw [Nat.add_assoc, Nat.add_comm 1]
    · rintro ⟨hfirst, rfl⟩
      have hlt : r.position < r.symbols.toList.length := by
        by_contra hge
        rw [List.drop_eq_nil_of_le (Nat.not_lt.mp hge)] at hfirst
        exact List.cons_ne_nil _ _ (List.prefix_nil.mp hfirst)
      rw [List.drop_eq_getElem_cons hlt, List.cons_prefix_cons] at hfirst
      obtain ⟨hx, hfirst⟩ := hfirst
      have hget : r.symbols[r.position]? = some ⟨c, s⟩ :=
        Array.getElem?_eq_some_iff.mpr ⟨hlt, hx.symm⟩
      refine .cons (receive_eq_ok_iff.mpr ⟨hget, rfl⟩) (ih.mpr ⟨hfirst, ?_⟩)
      rw [Nat.add_assoc, Nat.add_comm 1]

/-- What was recorded is given, whatever stands behind it. -/
theorem gives_append (front : Array Recorded) (xs : List (Fin k × UInt32)) (more : Array Recorded) :
    Gives xs (⟨front ++ (recorded xs).toArray ++ more, front.size⟩ : TapeReader k)
      ⟨front ++ (recorded xs).toArray ++ more, front.size + xs.length⟩ := by
  refine gives_iff.mpr ⟨?_, rfl⟩
  rw [Array.append_assoc, Array.toList_append, ← Array.length_toList, List.drop_left,
    Array.toList_append]
  exact List.prefix_append _ _

end TapeReader

end BlockPress
