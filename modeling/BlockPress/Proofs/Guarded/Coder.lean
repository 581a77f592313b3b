import BlockPress.Entropy.RangeReader
import BlockPress.Proofs.Entropy.Consuming
import BlockPress.Proofs.Guarded.Basic
import BlockPress.Proofs.Rank.Code

/-!
# Guarded range decoders

No bytes make a range decoder go wrong: whatever its window holds, the share of an open chance is a part
of the range, and an open chance stays open.  A walk down a tree of `n` levels stays among the nodes and
ends at one of the `2 ^ n` that lie `n` levels further down.

Main statement: **a guarded decoder receives what the decoder receives**, a symbol of the alphabet if
any, and may go on from what either answer or failure leaves behind (`Guarded.receive_holds`).
-/

namespace BlockPress

open Rank

namespace Source

/-- The source has `size` bytes, of which at most `left` were not read yet. -/
structure Within (size left : ℕ) (s : Source) : Prop where
  /-- The number of its bytes. -/
  size_eq : s.data.size = size
  /-- The number of those that were not read. -/
  remaining_le : s.remaining ≤ left

theorem reachable_shortage (s : Source) (n : ℕ) : (s.shortage n).Reachable := by
  rw [shortage]
  split
  · exact trivial
  · split <;> exact trivial

end Source

namespace Guarded

variable {size left : ℕ}

/-! ## Windows -/

theorem refill_holds {r : Register} (h : r.source.Within size left) :
    Holds (fun _ r' => r'.source.Within size left) (fun r' => r'.source.Within size left)
      (some r.refill) r.refill := by
  fun_induction Register.refill r with
  | case1 r hlt b s heq ih =>
    have hdata : s.data = r.source.data := by
      rw [Source.next] at heq
      split at heq
      · cases heq
        rfl
      · cases heq
    exact ih ⟨hdata ▸ h.size_eq, (Source.remaining_next heq).le.trans h.remaining_le⟩
  | case2 r hlt failure s heq =>
    rw [Source.next] at heq
    split at heq
    · cases heq
    · cases heq
      exact .error (Source.reachable_shortage _ 1) h
  | case3 r hge => exact .ok h

/-- The arithmetic of moving a chance fits words of 16 bits. -/
def Adapts (p : Chance) (shift : ℕ) (bit : Bool) : Prop :=
  shift < 16 ∧ if bit then p.parts.toNat >>> shift ≤ p.parts.toNat
    else p.parts.toNat ≤ Chance.whole.toNat ∧
      p.parts.toNat + (Chance.whole.toNat - p.parts.toNat) >>> shift < 2 ^ 16

instance (p : Chance) (shift : ℕ) (bit : Bool) : Decidable (Adapts p shift bit) :=
  inferInstanceAs (Decidable (_ ∧ _))

theorem adapts {p : Chance} (h : p.Open) {shift : ℕ} (hshift : shift ≤ 15) (bit : Bool) :
    Adapts p shift bit := by
  have hwhole : Chance.whole.toNat = 2048 := rfl
  have hlt := h.2
  refine ⟨Nat.lt_succ_of_le hshift, ?_⟩
  cases bit with
  | true =>
    rw [if_pos rfl, Nat.shiftRight_eq_div_pow]
    exact Nat.div_le_self _ _
  | false =>
    have hle : (Chance.whole.toNat - p.parts.toNat) >>> shift ≤ Chance.whole.toNat - p.parts.toNat := by
      rw [Nat.shiftRight_eq_div_pow]
      exact Nat.div_le_self _ _
    rw [if_neg Bool.false_ne_true]
    omega

/-- A bit under a chance: the share fits a word, and neither the range nor the code falls below zero. -/
def bit (p : Chance) (shift : ℕ) : Guarded Register (Bool × Chance) := fun r =>
  match r.refill with
  | .error failure r => some (.error failure r)
  | .ok () r =>
    let bound := p.share r.range
    require ((r.range.toNat >>> 11) * p.parts.toNat < 2 ^ 32) <|
      if r.code < bound then
        require (Adapts p shift false) <|
          some (.ok (false, p.adapt shift false) { r with range := bound })
      else
        require (bound ≤ r.range ∧ bound ≤ r.code ∧ Adapts p shift true) <|
          some (.ok (true, p.adapt shift true)
            { r with range := r.range - bound, code := r.code - bound })

theorem bit_holds {p : Chance} (hp : p.Open) {shift : ℕ} (h₁ : 1 ≤ shift) (h₂ : shift ≤ 15)
    {r : Register} (h : r.source.Within size left) :
    Holds (fun a r' => a.2.Open ∧ r'.source.Within size left) (fun r' => r'.source.Within size left)
      (bit p shift r) (r.bit p shift) := by
  have hrefill := refill_holds h
  rw [bit, Register.bit]
  dsimp only
  generalize r.refill = y at hrefill ⊢
  cases hrefill with
  | error reachable h => exact .error reachable h
  | @ok _ r h =>
    have hshare := Chance.toNat_share hp r.range
    have hrange := r.range.toNat_lt
    have hproduct : r.range.toNat / 2048 * p.parts.toNat ≤ r.range.toNat / 2048 * 2048 :=
      Nat.mul_le_mul_left _ hp.2.le
    have hfit : (r.range.toNat >>> 11) * p.parts.toNat < 2 ^ 32 := by
      rw [Nat.shiftRight_eq_div_pow]
      change r.range.toNat / 2048 * p.parts.toNat < 2 ^ 32
      omega
    refine .require hfit ?_
    dsimp only
    split
    · refine .require (adapts hp h₂ false) (.ok ?_)
      exact ⟨hp.adapt h₁ h₂ false, h⟩
    · next hcode =>
      have hle : p.share r.range ≤ r.range := UInt32.le_iff_toNat_le.mpr (by omega)
      refine .require ⟨hle, UInt32.not_lt.mp hcode, adapts hp h₂ true⟩ (.ok ?_)
      exact ⟨hp.adapt h₁ h₂ true, h⟩

/-- Bits without a model wrap where they are meant to. -/
theorem half_holds {r : Register} (h : r.source.Within size left) :
    Holds (fun _ r' => r'.source.Within size left) (fun r' => r'.source.Within size left)
      (some r.half) r.half := by
  have hrefill := refill_holds h
  rw [Register.half]
  dsimp only
  generalize r.refill = y at hrefill ⊢
  cases hrefill with
  | error reachable h => exact .error reachable h
  | ok h =>
    dsimp only
    split
    · exact .ok h
    · exact .ok h

theorem plain_holds {r : Register} (v : UInt32) (n : ℕ) (h : r.source.Within size left) :
    Holds (fun _ r' => r'.source.Within size left) (fun r' => r'.source.Within size left)
      (some (Register.plain v n r)) (Register.plain v n r) := by
  induction n generalizing v r with
  | zero => exact .ok h
  | succ n ih =>
    have hhalf := half_holds h
    rw [Register.plain]
    dsimp only
    generalize r.half = y at hhalf ⊢
    cases hhalf with
    | error reachable h => exact .error reachable h
    | ok h => exact ih _ h

/-! ## Trees -/

/-- A walk down a tree: each node has a chance, and its number fits a word. -/
def walk {m : ℕ} (shift : ℕ) : (n node : ℕ) → Guarded (Vector Chance m × Register) ℕ
  | 0, node => fun s => some (.ok node s)
  | n + 1, node => fun (chances, register) =>
    if h : node < m then
      match bit chances[node] shift register with
      | none => none
      | some (.error failure register) => some (.error failure (chances, register))
      | some (.ok (b, p) register) =>
        require (2 * node + b.toNat < 2 ^ 64) <|
          walk shift n (2 * node + b.toNat) (chances.set node p, register)
    else none

/-- **A walk of `n` levels ends `n` levels further down.** -/
theorem walk_holds {m shift n node : ℕ} (h₁ : 1 ≤ shift) (h₂ : shift ≤ 15) (hm : m ≤ 2 ^ 16)
    (hnode : (node + 1) * 2 ^ n ≤ 2 * m) {chances : Vector Chance m} (hopen : ∀ p ∈ chances, p.Open)
    {r : Register} (h : r.source.Within size left) :
    Holds (fun v s => (node * 2 ^ n ≤ v ∧ v < (node + 1) * 2 ^ n) ∧ (∀ p ∈ s.1, p.Open) ∧
        s.2.source.Within size left)
      (fun s => (∀ p ∈ s.1, p.Open) ∧ s.2.source.Within size left)
      (walk shift n node (chances, r)) (BitTree.read shift n node hnode (chances, r)) := by
  induction n generalizing node chances r with
  | zero =>
    refine .ok ⟨?_, hopen, h⟩
    rw [Nat.pow_zero, Nat.mul_one, Nat.mul_one]
    exact ⟨Nat.le_refl _, Nat.lt_succ_self _⟩
  | succ n ih =>
    have hlt : node < m := BitTree.lt_of_walk hnode
    have hbit := bit_holds (hopen _ (Vector.getElem_mem hlt)) h₁ h₂ h
    rw [walk, BitTree.read]
    dsimp only
    rw [dif_pos hlt]
    generalize bit chances[node] shift r = x, r.bit chances[node] shift = y at hbit ⊢
    cases hbit with
    | error reachable h => exact .error reachable ⟨hopen, h⟩
    | @ok a r h =>
      obtain ⟨b, p⟩ := a
      obtain ⟨hp, h⟩ := h
      have hb := b.toNat_le
      have hstep := ih (BitTree.walk_step hnode b) (BitTree.forall_set hopen hlt hp) h
      refine .require (by omega) (hstep.mono (fun v s _ hv => ⟨?_, hv.2⟩) fun _ hs => hs)
      obtain ⟨⟨hfirst, hlast⟩, -⟩ := hv
      have hlow : node * 2 ^ (n + 1) ≤ (2 * node + b.toNat) * 2 ^ n := by
        rw [Nat.pow_succ', ← Nat.mul_assoc, Nat.mul_comm node]
        exact Nat.mul_le_mul_right _ (Nat.le_add_right _ _)
      have hhigh : (2 * node + b.toNat + 1) * 2 ^ n ≤ (node + 1) * 2 ^ (n + 1) := by
        rw [Nat.pow_succ', ← Nat.mul_assoc]
        exact Nat.mul_le_mul_right _ (by omega)
      exact ⟨hlow.trans hfirst, hlast.trans_le hhigh⟩

/-- A symbol: the node that was reached lies on the last level, and the shifts are by less than a word. -/
def decode : Guarded (BitTree × Register) UInt32
  | (⟨context, chances⟩, register) =>
    match walk context.shift context.modeledBits 1 (chances, register) with
    | none => none
    | some (.error failure (chances, register)) => some (.error failure (⟨context, chances⟩, register))
    | some (.ok node (chances, register)) =>
      require (node < 2 ^ 32 ∧ context.modeledBits < 32 ∧ 2 ^ context.modeledBits ≤ node ∧
          context.plainBits < 32) <|
        let high := (node - 2 ^ context.modeledBits).toUInt32
        match Register.plain high context.plainBits register with
        | .error failure register => some (.error failure (⟨context, chances⟩, register))
        | .ok symbol register =>
          if symbol.toNat < context.size then some (.ok symbol (⟨context, chances⟩, register))
          else some (.error (.badSymbol symbol context.size) (⟨context, chances⟩, register))

theorem decode_holds {t : BitTree} (ht : t.Open) (hmodeled : t.context.modeledBits ≤ 16)
    (hplain : t.context.plainBits < 32) {r : Register} (h : r.source.Within size left) :
    Holds (fun symbol s => symbol.toNat < t.context.size ∧ s.1.context = t.context ∧ s.1.Open ∧
        s.2.source.Within size left)
      (fun s => s.1.context = t.context ∧ s.1.Open ∧ s.2.source.Within size left)
      (decode (t, r)) (BitTree.decode (t, r)) := by
  obtain ⟨context, chances⟩ := t
  dsimp only at hmodeled hplain ⊢
  have hsize : 2 ^ context.modeledBits ≤ 2 ^ 16 := Nat.pow_le_pow_right (by decide) hmodeled
  obtain ⟨h₁, h₂⟩ := BitTree.shift_bounds context
  have hwalk := walk_holds h₁ h₂ hsize (Nat.le_refl _) ht h
  rw [decode, BitTree.decode]
  generalize walk _ _ _ (chances, r) = x, BitTree.read _ _ _ _ (chances, r) = y at hwalk ⊢
  cases hwalk with
  | error reachable h => exact .error reachable ⟨rfl, h⟩
  | @ok node s h =>
    obtain ⟨chances, r⟩ := s
    obtain ⟨⟨hfirst, hlast⟩, hopen, h⟩ := h
    rw [Nat.one_mul] at hfirst
    have hbits := plain_holds (node - 2 ^ context.modeledBits).toUInt32 context.plainBits h
    refine .require ⟨by omega, by omega, hfirst, hplain⟩ ?_
    dsimp only
    generalize Register.plain _ _ r = y at hbits ⊢
    cases hbits with
    | error reachable h => exact .error reachable ⟨rfl, hopen, h⟩
    | ok h =>
      dsimp only
      split
      · next hsymbol => exact .ok ⟨hsymbol, rfl, hopen, h⟩
      · exact .error trivial ⟨rfl, hopen, h⟩

/-! ## Decoders -/

/-- A decoder that may go on: it has the contexts of rank streams, and all their chances are open. -/
structure Decodes (size left : ℕ) (d : RangeReader contextCount) : Prop where
  /-- The contexts are those of rank streams. -/
  context_eq : ∀ c, (d.trees.get c).context = contexts.get c
  /-- Both bits are possible under every chance. -/
  opened : ∀ c, (d.trees.get c).Open
  /-- The source. -/
  within : d.source.Within size left

theorem Decodes.mono {left' : ℕ} {d : RangeReader contextCount} (h : Decodes size left d)
    (hleft : left ≤ left') : Decodes size left' d :=
  ⟨h.context_eq, h.opened, h.within.size_eq, h.within.remaining_le.trans hleft⟩

/-- A symbol through a context, which is in its alphabet. -/
def receive (c : Fin contextCount) : Guarded (RangeReader contextCount) UInt32
  | ⟨register, trees⟩ =>
    match decode (trees.get c, register) with
    | none => none
    | some (.error failure (tree, register)) => some (.error failure ⟨register, trees.set c tree c.isLt⟩)
    | some (.ok symbol (tree, register)) =>
      require (symbol.toNat < (contexts.get c).alphabet) <|
        some (.ok symbol ⟨register, trees.set c tree c.isLt⟩)

theorem bits_contexts : ∀ c : Fin contextCount,
    (contexts.get c).modeledBits ≤ 16 ∧ (contexts.get c).plainBits < 32 := by decide

theorem Decodes.set {r : Register} {trees : Vector BitTree contextCount} {c : Fin contextCount}
    (h : Decodes size left ⟨r, trees⟩) {t : BitTree} (hcontext : t.context = (trees.get c).context)
    (ht : t.Open) {r' : Register} (hr : r'.source.Within size left) :
    Decodes size left ⟨r', trees.set c t c.isLt⟩ := by
  have hcontexts := forall_get_set (P := fun c (t : BitTree) => t.context = contexts.get c)
    h.context_eq (hcontext.trans (h.context_eq c))
  exact ⟨hcontexts, forall_get_set h.opened ht, hr⟩

/-- **A symbol is received as by a guarded decoder.** -/
theorem receive_holds {d : RangeReader contextCount} (h : Decodes size left d) (c : Fin contextCount) :
    Holds (fun symbol d' => symbol.toNat < (contexts.get c).alphabet ∧ Decodes size left d')
      (Decodes size left) (receive c d) (d.receive c) := by
  obtain ⟨register, trees⟩ := d
  have hcontext : (trees.get c).context = contexts.get c := h.context_eq c
  obtain ⟨hmodeled, hplain⟩ := bits_contexts c
  rw [← hcontext] at hmodeled hplain
  have hdecode := decode_holds (h.opened c) hmodeled hplain h.within
  rw [receive, RangeReader.receive]
  generalize decode _ = x, BitTree.decode _ = y at hdecode ⊢
  cases hdecode with
  | error reachable hs => exact .error reachable (h.set hs.1 hs.2.1 hs.2.2)
  | ok hs =>
    obtain ⟨hsymbol, hs⟩ := hs
    have halphabet := hsymbol
    rw [hcontext, size_eq_alphabet] at halphabet
    exact .require halphabet (.ok ⟨halphabet, h.set hs.1 hs.2.1 hs.2.2⟩)

end Guarded

end BlockPress
