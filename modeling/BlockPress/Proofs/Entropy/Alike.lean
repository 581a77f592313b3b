import BlockPress.Entropy.RangeReader
import BlockPress.Proofs.Device.Alike

/-!
# Range decoders over two sources

A decoder looks at its source only to refill its window.  So two decoders that differ in the source
only, where one source has the first bytes of the other, **give the same symbols until the shorter
source ends** (`RangeReader.alike_receive`).
-/

namespace BlockPress

open scoped Standard

variable {s₀ s₁ : Source}

/-! ## Windows -/

namespace Register

/-- The two windows differ in their sources only, and these are at one position. -/
inductive Abreast (s₀ s₁ : Source) : Register → Register → Prop where
  /-- The windows of this range and this code. -/
  | mk {s s' : Source} (range code : UInt32) (sources : Source.Abreast s₀ s₁ s s') :
    Abreast s₀ s₁ ⟨s, range, code⟩ ⟨s', range, code⟩

theorem alike_start {s s' : Source} (h : Source.Abreast s₀ s₁ s s') :
    Alike s₀ s₁ (Abreast s₀ s₁) (Source.Abreast s₀ s₁) (start s) (start s') := by
  have hread := h.read 5
  rw [start, start]
  generalize Source.read 5 s = x, Source.read 5 s' = x' at hread ⊢
  apply hread.andThen (g := id) (fun _ _ h => h)
  · exact fun _ _ => ⟨rfl, rfl⟩
  · rintro head _ s s' ⟨rfl, -⟩ h
    dsimp only
    split
    · exact .fault trivial h
    · exact .ok (.mk _ _ h) h

variable {r r' : Register}

/-- What refilling a narrow window is, without the reason why it ends. -/
theorem refill_of_lt (h : r.range < top) : r.refill =
    match r.source.next with
    | .ok b s => refill ⟨s, r.range <<< 8, r.code <<< 8 ||| b.toUInt32⟩
    | .error failure s => .error failure { r with source := s } := by
  rw [refill, if_pos h]
  cases r.source.next <;> rfl

/-- **Windows are refilled alike.** -/
theorem alike_refill (h : Abreast s₀ s₁ r r') :
    Alike s₀ s₁ Eq (Abreast s₀ s₁) r.refill r'.refill := by
  -- The induction is on the first window: the second takes the same bytes until its source ends.
  fun_induction Register.refill r generalizing r' with
  | case1 r hlt b s heq ih =>
    obtain @⟨_, s', range, code, hs⟩ := h
    have hnext : Alike s₀ s₁ Eq _ (.ok b s) s'.next := heq ▸ hs.next
    rw [refill_of_lt (r := ⟨s', range, code⟩) hlt]
    obtain ⟨_, t', ht', rfl, hs⟩ | ⟨n, t', ht', hbound⟩ := hnext.ok_cases
    · rw [ht']
      exact ih (.mk _ _ hs)
    · rw [ht']
      exact .short n fun hle => absurd hle (Nat.not_le_of_lt hbound)
  | case2 r hlt failure s heq =>
    obtain @⟨_, s', range, code, hs⟩ := h
    have hnext : Alike s₀ s₁ Eq _ (.error failure s) s'.next := heq ▸ hs.next
    rw [refill_of_lt (r := ⟨s', range, code⟩) hlt]
    obtain ⟨t', ht', hf, hs⟩ | ⟨n, t', ht', first⟩ := hnext.error_cases
    · rw [ht']
      exact .fault hf (.mk _ _ hs)
    · rw [ht']
      refine .short n fun hle => ?_
      obtain ⟨rfl, hs⟩ := first hle
      exact ⟨_, rfl, .mk _ _ hs⟩
  | case3 r hge =>
    have hge' : ¬r'.range < top := by
      obtain ⟨range, code, hs⟩ := h
      exact hge
    rw [refill, if_neg hge']
    exact .ok rfl h

theorem alike_bit (p : Chance) (shift : Nat) (h : Abreast s₀ s₁ r r') :
    Alike s₀ s₁ Eq (Abreast s₀ s₁) (bit p shift r) (bit p shift r') := by
  have hrefill := alike_refill h
  rw [bit, bit]
  generalize r.refill = x, r'.refill = x' at hrefill ⊢
  apply hrefill.andThen (g := id) (fun _ _ h => h)
  · exact fun _ _ => ⟨rfl, rfl⟩
  · rintro _ _ _ _ - ⟨range, code, hs⟩
    dsimp only
    split
    · exact .ok rfl (.mk _ _ hs)
    · exact .ok rfl (.mk _ _ hs)

theorem alike_half (h : Abreast s₀ s₁ r r') :
    Alike s₀ s₁ Eq (Abreast s₀ s₁) (half r) (half r') := by
  have hrefill := alike_refill h
  rw [half, half]
  generalize r.refill = x, r'.refill = x' at hrefill ⊢
  apply hrefill.andThen (g := id) (fun _ _ h => h)
  · exact fun _ _ => ⟨rfl, rfl⟩
  · rintro _ _ _ _ - ⟨range, code, hs⟩
    dsimp only
    split
    · exact .ok rfl (.mk _ _ hs)
    · exact .ok rfl (.mk _ _ hs)

theorem alike_plain (v : UInt32) (n : Nat) (h : Abreast s₀ s₁ r r') :
    Alike s₀ s₁ Eq (Abreast s₀ s₁) (plain v n r) (plain v n r') := by
  induction n generalizing v r r' with
  | zero => exact .ok rfl h
  | succ n ih =>
    have hhalf := alike_half h
    simp only [plain]
    generalize half r = x, half r' = x' at hhalf ⊢
    apply hhalf.andThen (g := id) (fun _ _ h => h)
    · exact fun _ _ => ⟨rfl, rfl⟩
    · rintro b _ r r' rfl h
      exact ih _ h

end Register

/-! ## Trees -/

namespace BitTree

variable {r r' : Register}

theorem alike_read (shift : Nat) {size n node : Nat} (h : (node + 1) * 2 ^ n ≤ 2 * size)
    (chances : Vector Chance size) (hr : Register.Abreast s₀ s₁ r r') :
    Alike s₀ s₁ Eq (OnSnd (Register.Abreast s₀ s₁)) (read shift n node h (chances, r))
      (read shift n node h (chances, r')) := by
  induction n generalizing node chances r r' with
  | zero => exact .ok rfl (.mk _ hr)
  | succ n ih =>
    have hbit := Register.alike_bit (getElem chances node (lt_of_walk h)) shift hr
    simp only [read]
    generalize r.bit (getElem chances node (lt_of_walk h)) shift = x,
      r'.bit (getElem chances node (lt_of_walk h)) shift = x' at hbit ⊢
    apply hbit.andThen (g := fun r => (chances, r)) (fun _ _ h => .mk _ h)
    · exact fun _ _ => ⟨rfl, rfl⟩
    · rintro a _ r r' rfl hr
      exact ih _ _ hr

theorem alike_decode (tree : BitTree) (hr : Register.Abreast s₀ s₁ r r') :
    Alike s₀ s₁ Eq (OnSnd (Register.Abreast s₀ s₁)) (decode (tree, r)) (decode (tree, r')) := by
  obtain ⟨context, chances⟩ := tree
  have hread := alike_read context.shift (Nat.le_refl _) chances hr
  rw [decode, decode]
  generalize read _ _ _ _ (chances, r) = x, read _ _ _ _ (chances, r') = x' at hread ⊢
  apply hread.andThen (g := fun s => (⟨context, s.1⟩, s.2))
  · rintro _ _ ⟨chances, h⟩
    exact .mk _ h
  · exact fun _ _ => ⟨rfl, rfl⟩
  · rintro node _ _ _ rfl @⟨r, r', chances, h⟩
    dsimp only
    have hplain := Register.alike_plain (node - 2 ^ context.modeledBits).toUInt32 context.plainBits h
    generalize Register.plain _ _ r = x, Register.plain _ _ r' = x' at hplain ⊢
    apply hplain.andThen (g := fun r => (⟨context, chances⟩, r)) (fun _ _ h => .mk _ h)
    · exact fun _ _ => ⟨rfl, rfl⟩
    · rintro symbol _ r r' rfl h
      dsimp only
      split
      · exact .ok rfl (.mk _ h)
      · exact .fault trivial (.mk _ h)

end BitTree

/-! ## Decoders -/

namespace RangeReader

variable {k : Nat}

/-- The two decoders differ in their sources only, and these are at one position. -/
inductive Abreast (s₀ s₁ : Source) : RangeReader k → RangeReader k → Prop where
  /-- The decoders with these trees. -/
  | mk {r r' : Register} (trees : Vector BitTree k) (registers : Register.Abreast s₀ s₁ r r') :
    Abreast s₀ s₁ ⟨r, trees⟩ ⟨r', trees⟩

theorem alike_start (contexts : Vector Context k) {s s' : Source} (h : Source.Abreast s₀ s₁ s s') :
    Alike s₀ s₁ (Abreast s₀ s₁) (Source.Abreast s₀ s₁) (start contexts s) (start contexts s') := by
  have hstart := Register.alike_start h
  rw [start, start]
  generalize Register.start s = x, Register.start s' = x' at hstart ⊢
  apply hstart.andThen (g := id) (fun _ _ h => h)
  · exact fun _ _ => ⟨rfl, rfl⟩
  · exact fun _ _ _ _ hr hs => .ok (.mk _ hr) hs

/-- **Symbols are received alike.** -/
theorem alike_receive (c : Fin k) {d d' : RangeReader k} (h : Abreast s₀ s₁ d d') :
    Alike s₀ s₁ Eq (Abreast s₀ s₁) (receive c d) (receive c d') := by
  obtain @⟨r, r', trees, hr⟩ := h
  have hdecode := BitTree.alike_decode (trees.get c) hr
  rw [receive, receive]
  generalize BitTree.decode (trees.get c, r) = x, BitTree.decode (trees.get c, r') = x' at hdecode ⊢
  apply hdecode.andThen (g := fun s => ⟨s.2, trees.set c s.1 c.isLt⟩)
  · rintro _ _ ⟨tree, hr⟩
    exact .mk _ hr
  · exact fun _ _ => ⟨rfl, rfl⟩
  · rintro symbol _ _ _ rfl ⟨tree, hr⟩
    exact .ok rfl (.mk _ hr)

end RangeReader

end BlockPress
