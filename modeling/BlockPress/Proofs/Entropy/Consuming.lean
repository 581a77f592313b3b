import BlockPress.Proofs.Entropy.Stream

/-!
# What reading uses up

A decoder that stays where it is on its source narrows its range, and cannot do so for long: **two bytes
without a model use up at least one byte of the source** (`RangeReader.remaining_lt_of_gives`).  Nothing
that is read is given back to the source.
-/

namespace BlockPress

namespace Register

variable {r r' : Register}

/-- Widening leaves a wide range as it is and reads on otherwise. -/
theorem refill_cases (h : r.refill = .ok () r') : (r' = r ∧ 2 ^ 24 ≤ r.range.toNat) ∨
    r'.source.remaining < r.source.remaining := by
  fun_induction refill r with
  | case1 r hlt b s heq ih =>
    have hnext := Source.remaining_next heq
    obtain ⟨rfl, -⟩ | hless := ih h
    · exact .inr hnext
    · exact .inr (hless.trans hnext)
  | case2 r hlt failure s heq => cases h
  | case3 r hge =>
    cases h
    exact .inl ⟨rfl, Nat.not_lt.mp fun hlt => hge (UInt32.lt_iff_toNat_lt.mpr hlt)⟩

theorem remaining_bit_le {p : Chance} {shift : ℕ} {a : Bool × Chance} (h : bit p shift r = .ok a r') :
    r'.source.remaining ≤ r.source.remaining := by
  rw [bit] at h
  dsimp only at h
  cases hrefill : r.refill with
  | error failure e =>
    rw [hrefill] at h
    cases h
  | ok _ e =>
    have hle : e.source.remaining ≤ r.source.remaining := by
      obtain ⟨rfl, -⟩ | hlt := refill_cases hrefill
      · exact Nat.le_refl _
      · exact hlt.le
    rw [hrefill] at h
    dsimp only at h
    split at h
    · cases h
      exact hle
    · cases h
      exact hle

theorem half_cases {b : Bool} (h : half r = .ok b r') :
    (r'.source = r.source ∧ r'.range.toNat = r.range.toNat / 2 ∧ 2 ^ 24 ≤ r.range.toNat) ∨
      r'.source.remaining < r.source.remaining := by
  rw [half] at h
  dsimp only at h
  cases hrefill : r.refill with
  | error failure e =>
    rw [hrefill] at h
    cases h
  | ok _ e =>
    have hhalf : (e.range >>> 1).toNat = e.range.toNat / 2 := by
      rw [UInt32.toNat_shiftRight, Nat.shiftRight_eq_div_pow]
      rfl
    rw [hrefill] at h
    dsimp only at h
    obtain ⟨rfl, hwide⟩ | hlt := refill_cases hrefill
    · refine .inl ?_
      split at h
      · cases h
        exact ⟨rfl, hhalf, hwide⟩
      · cases h
        exact ⟨rfl, hhalf, hwide⟩
    · refine .inr ?_
      split at h
      · cases h
        exact hlt
      · cases h
        exact hlt

/-- **Bits without a model halve the range or read on.** -/
theorem plain_cases {n : ℕ} {v w : UInt32} (h : plain v n r = .ok w r') :
    (r'.source = r.source ∧ r'.range.toNat * 2 ^ n ≤ r.range.toNat ∧ (0 < n → 2 ^ 24 ≤ r.range.toNat)) ∨
      r'.source.remaining < r.source.remaining := by
  induction n generalizing r v with
  | zero =>
    cases h
    exact .inl ⟨rfl, by rw [Nat.pow_zero, Nat.mul_one], fun h => absurd h (Nat.lt_irrefl 0)⟩
  | succ n ih =>
    rw [plain] at h
    dsimp only at h
    cases hhalf : half r with
    | error failure e =>
      rw [hhalf] at h
      cases h
    | ok b e =>
      rw [hhalf] at h
      dsimp only at h
      obtain ⟨hsource, hrange, hwide⟩ | hlt := half_cases hhalf
      · obtain ⟨hsource', hrange', -⟩ | hlt' := ih h
        · refine .inl ⟨hsource'.trans hsource, ?_, fun _ => hwide⟩
          rw [Nat.pow_succ, ← Nat.mul_assoc]
          omega
        · exact .inr (hsource ▸ hlt')
      · obtain ⟨hsource', -⟩ | hlt' := ih h
        · exact .inr (hsource' ▸ hlt)
        · exact .inr (hlt'.trans hlt)

theorem remaining_plain_le {n : ℕ} {v w : UInt32} (h : plain v n r = .ok w r') :
    r'.source.remaining ≤ r.source.remaining := by
  obtain ⟨hsource, -⟩ | hlt := plain_cases h
  · exact hsource ▸ Nat.le_refl _
  · exact hlt.le

end Register

namespace BitTree

variable {r r' : Register}

theorem remaining_read_le {size shift n node v : ℕ} {h : (node + 1) * 2 ^ n ≤ 2 * size}
    {chances chances' : Vector Chance size}
    (hread : read shift n node h (chances, r) = .ok v (chances', r')) :
    r'.source.remaining ≤ r.source.remaining := by
  induction n generalizing node chances r with
  | zero =>
    cases hread
    exact Nat.le_refl _
  | succ n ih =>
    rw [read] at hread
    dsimp only at hread
    cases hbit : r.bit (getElem chances node (lt_of_walk h)) shift with
    | error failure e =>
      rw [hbit] at hread
      cases hread
    | ok a e =>
      rw [hbit] at hread
      exact (ih hread).trans (Register.remaining_bit_le hbit)

/-- A tree without modelled bits reads nothing. -/
theorem register_eq_of_read {size shift n node v : ℕ} {h : (node + 1) * 2 ^ n ≤ 2 * size}
    {chances chances' : Vector Chance size} (hn : n = 0)
    (hread : read shift n node h (chances, r) = .ok v (chances', r')) : r' = r := by
  subst hn
  cases hread
  rfl

theorem decode_cases {t t' : BitTree} {s : UInt32} (h : decode (t, r) = .ok s (t', r')) :
    t'.context = t.context ∧ s.toNat < t.context.size ∧ ∃ node chances e v,
      read t.context.shift t.context.modeledBits 1 (Nat.le_refl _) (t.chances, r) =
        .ok node (chances, e) ∧
      Register.plain v t.context.plainBits e = .ok s r' := by
  obtain ⟨context, chances⟩ := t
  rw [decode] at h
  cases hread : read context.shift context.modeledBits 1 (Nat.le_refl _) (chances, r) with
  | error failure e =>
    rw [hread] at h
    cases h
  | ok node e =>
    obtain ⟨chances', e⟩ := e
    rw [hread] at h
    dsimp only at h
    cases hplain : Register.plain (node - 2 ^ context.modeledBits).toUInt32 context.plainBits e with
    | error failure f =>
      rw [hplain] at h
      cases h
    | ok symbol f =>
      rw [hplain] at h
      dsimp only at h
      split at h
      · next hsize =>
        cases h
        exact ⟨rfl, hsize, node, chances', e, _, rfl, hplain⟩
      · cases h

end BitTree

namespace RangeReader

variable {k : ℕ} {r r' : RangeReader k}

theorem receive_cases {c : Fin k} {s : UInt32} (h : receive c r = .ok s r') :
    ∃ tree, BitTree.decode (r.trees.get c, r.register) = .ok s (tree, r'.register) ∧
      r'.trees = r.trees.set c tree c.isLt := by
  obtain ⟨register, trees⟩ := r
  rw [receive] at h
  cases hdecode : BitTree.decode (trees.get c, register) with
  | error failure e =>
    rw [hdecode] at h
    cases h
  | ok symbol e =>
    rw [hdecode] at h
    cases h
    exact ⟨e.1, rfl, rfl⟩

/-- Receiving a symbol keeps the contexts and gives nothing back to the source. -/
theorem receive_spec {c : Fin k} {s : UInt32} (h : receive c r = .ok s r') :
    (∀ c' : Fin k, (r'.trees.get c').context = (r.trees.get c').context) ∧
      r'.source.remaining ≤ r.source.remaining := by
  obtain ⟨tree, hdecode, htrees⟩ := receive_cases h
  obtain ⟨hcontext, -, node, chances, e, v, hread, hplain⟩ := BitTree.decode_cases hdecode
  refine ⟨?_, (Register.remaining_plain_le hplain).trans (BitTree.remaining_read_le hread)⟩
  rw [htrees]
  exact forall_get_set (P := fun c' (t : BitTree) => t.context = (r.trees.get c').context) (fun _ => rfl)
    hcontext

theorem gives_spec {xs : List (Fin k × UInt32)} (h : Gives xs r r') :
    (∀ c : Fin k, (r'.trees.get c).context = (r.trees.get c).context) ∧
      r'.source.remaining ≤ r.source.remaining := by
  induction h with
  | nil d => exact ⟨fun _ => rfl, Nat.le_refl _⟩
  | cons hreceive rest ih =>
    obtain ⟨hcontexts, hle⟩ := receive_spec hreceive
    exact ⟨fun c => (ih.1 c).trans (hcontexts c), ih.2.trans hle⟩

/-- A byte without a model halves the range eight times or reads on. -/
theorem receive_plain_cases {c : Fin k} (hc : (r.trees.get c).context = Context.plain 8) {s : UInt32}
    (h : receive c r = .ok s r') : (r'.source = r.source ∧
        r'.register.range.toNat * 2 ^ 8 ≤ r.register.range.toNat ∧ 2 ^ 24 ≤ r.register.range.toNat) ∨
      r'.source.remaining < r.source.remaining := by
  obtain ⟨tree, hdecode, -⟩ := receive_cases h
  obtain ⟨-, -, node, chances, e, v, hread, hplain⟩ := BitTree.decode_cases hdecode
  have hmodeled : (r.trees.get c).context.modeledBits = 0 := by rw [hc]; decide
  have hbits : (r.trees.get c).context.plainBits = 8 := by rw [hc]; decide
  obtain rfl := BitTree.register_eq_of_read hmodeled hread
  rw [hbits] at hplain
  obtain ⟨hsource, hrange, hwide⟩ | hlt := Register.plain_cases hplain
  · exact .inl ⟨hsource, hrange, hwide (by decide)⟩
  · exact .inr hlt

/-- **Two bytes without a model use up at least one byte of the source.** -/
theorem remaining_lt_of_gives {c : Fin k} (hc : (r.trees.get c).context = Context.plain 8)
    {s t : UInt32} {xs : List (Fin k × UInt32)} (h : Gives ((c, s) :: (c, t) :: xs) r r') :
    r'.source.remaining < r.source.remaining := by
  obtain ⟨e, hs, h⟩ := gives_cons h
  obtain ⟨f, ht, h⟩ := gives_cons h
  have hrest := (gives_spec h).2
  have he := (receive_spec hs).1 c
  have hr := r.register.range.toNat_lt
  obtain ⟨hsource, hrange, -⟩ | hlt := receive_plain_cases hc hs
  · obtain ⟨-, -, hwide⟩ | hlt' := receive_plain_cases (he.trans hc) ht
    · omega
    · exact hrest.trans_lt (hsource ▸ hlt')
  · exact (hrest.trans (receive_spec ht).2).trans_lt hlt

end RangeReader

end BlockPress
