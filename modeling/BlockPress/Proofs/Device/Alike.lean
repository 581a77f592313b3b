import BlockPress.Device.Source

/-!
# Two sources with the same first bytes

The same work is done over two sources, where the second hands out the first bytes of the first
(`Source.Heads`).  As long as the second has enough bytes, nothing tells them apart: **the two runs come
to the same, in states that differ in their source only, or the second source falls short** (`Alike`).
If the first source reaches no further, it falls short in the same place, with a reason of its own.

Two runs that come to alike ends go on alike (`Alike.andThen`), so each action is compared by comparing
the actions that it is made of.
-/

namespace BlockPress

/-- The failure is about the bytes that were read, and not about a source that ended or broke down. -/
def Failure.OfBytes : Failure → Prop
  | .io _ => False
  | .endOfInput _ => False
  | _ => True

namespace Source

/-- The second source hands out the first bytes of the first one. -/
structure Heads (s₀ s₁ : Source) : Prop where
  /-- It reaches no further. -/
  bound_le : s₁.bound ≤ s₀.bound
  /-- As far as it reaches it has the same bytes. -/
  extract_eq : s₁.data.extract 0 s₁.bound = s₀.data.extract 0 s₁.bound

theorem Heads.extract_extract_eq {s₀ s₁ : Source} (h : Heads s₀ s₁) {i j : Nat} (hj : j ≤ s₁.bound) :
    s₁.data.extract i j = s₀.data.extract i j := by
  have heq := congrArg (ByteArray.extract · i j) h.extract_eq
  simp only [ByteArray.extract_extract, Nat.zero_add] at heq
  rwa [Nat.min_eq_left hj] at heq

theorem Heads.getElem_eq {s₀ s₁ : Source} (h : Heads s₀ s₁) {i : Nat} (hi : i < s₁.bound)
    (h₁ : i < s₁.data.size) (h₀ : i < s₀.data.size) : s₁.data[i] = s₀.data[i] := by
  have hsize₁ : i < (s₁.data.extract 0 s₁.bound).size := by
    rw [ByteArray.size_extract]
    omega
  have hsize₀ : i < (s₀.data.extract 0 s₁.bound).size := by
    rw [ByteArray.size_extract]
    omega
  have heq : (s₁.data.extract 0 s₁.bound)[i] = (s₀.data.extract 0 s₁.bound)[i] := by
    simp only [h.extract_eq]
  simpa only [ByteArray.getElem_extract, Nat.zero_add] using heq

/-- The two sources at one position, which both of them reach. -/
inductive Abreast (s₀ s₁ : Source) : Source → Source → Prop where
  /-- The position `p`. -/
  | mk {p : Nat} (heads : Heads s₀ s₁) (h : p ≤ s₁.bound) :
    Abreast s₀ s₁ { s₀ with position := p } { s₁ with position := p }

end Source

open Source

/-! ## Alike ends -/

variable {s₀ s₁ : Source} {σ τ α β : Type}

/-- What two runs come to, the first over the source `s₀` and the second over `s₁`: answers and states
that are related, or the same failure, or the second source falls short.  The first one falls short
with it unless it reaches further. -/
inductive Alike (s₀ s₁ : Source) (ans : α → α → Prop) (rel : σ → σ → Prop) :
    EStateM.Result Failure σ α → EStateM.Result Failure σ α → Prop where
  /-- Both come to an answer. -/
  | ok {a a' : α} {t t' : σ} (answers : ans a a') (states : rel t t') :
    Alike s₀ s₁ ans rel (.ok a t) (.ok a' t')
  /-- Both find the same fault in the bytes. -/
  | fault {f : Failure} {t t' : σ} (ofBytes : f.OfBytes) (states : rel t t') :
    Alike s₀ s₁ ans rel (.error f t) (.error f t')
  /-- The second source falls short. -/
  | short {x : EStateM.Result Failure σ α} {t' : σ} (n : Nat) (first : s₀.bound ≤ s₁.bound →
    ∃ t, x = .error (s₀.shortage n) t ∧ rel t t') : Alike s₀ s₁ ans rel x (.error (s₁.shortage n) t')

namespace Alike

variable {ans : α → α → Prop} {rel : σ → σ → Prop} {x' : EStateM.Result Failure σ α}

/-- Where the first run comes to an answer, so does the second, or its source falls short. -/
theorem ok_cases {a : α} {t : σ} (h : Alike s₀ s₁ ans rel (.ok a t) x') :
    (∃ a' t', x' = .ok a' t' ∧ ans a a' ∧ rel t t') ∨
      ∃ n t', x' = .error (s₁.shortage n) t' ∧ s₁.bound < s₀.bound := by
  cases h with
  | ok answers states => exact .inl ⟨_, _, rfl, answers, states⟩
  | short n first => exact .inr ⟨n, _, rfl, Nat.lt_of_not_le fun hle => (nomatch first hle)⟩

/-- Where the first run fails, so does the second, or its source falls short. -/
theorem error_cases {f : Failure} {t : σ} (h : Alike s₀ s₁ ans rel (.error f t) x') :
    (∃ t', x' = .error f t' ∧ f.OfBytes ∧ rel t t') ∨
      ∃ n t', x' = .error (s₁.shortage n) t' ∧
        (s₀.bound ≤ s₁.bound → f = s₀.shortage n ∧ rel t t') := by
  cases h with
  | fault ofBytes states => exact .inl ⟨_, rfl, ofBytes, states⟩
  | short n first =>
    refine .inr ⟨n, _, rfl, fun hle => ?_⟩
    obtain ⟨t, ht, states⟩ := first hle
    cases ht
    exact ⟨rfl, states⟩

end Alike

/-- **Runs that came to alike ends go on alike**, if both pass failures on. -/
theorem Alike.andThen {ans : α → α → Prop} {rel : σ → σ → Prop} {ans' : β → β → Prop}
    {rel' : τ → τ → Prop} {x x' : EStateM.Result Failure σ α}
    {F F' : EStateM.Result Failure σ α → EStateM.Result Failure τ β} {g : σ → τ}
    (h : Alike s₀ s₁ ans rel x x') (hg : ∀ t t', rel t t' → rel' (g t) (g t'))
    (pass : ∀ f t, F (.error f t) = .error f (g t) ∧ F' (.error f t) = .error f (g t))
    (ok : ∀ a a' t t', ans a a' → rel t t' → Alike s₀ s₁ ans' rel' (F (.ok a t)) (F' (.ok a' t'))) :
    Alike s₀ s₁ ans' rel' (F x) (F' x') := by
  cases h with
  | ok answers states => exact ok _ _ _ _ answers states
  | fault ofBytes states =>
    rw [(pass _ _).1, (pass _ _).2]
    exact .fault ofBytes (hg _ _ states)
  | short n first =>
    rw [(pass _ _).2]
    refine .short n fun hle => ?_
    obtain ⟨t, rfl, states⟩ := first hle
    exact ⟨g t, (pass _ _).1, hg _ _ states⟩

/-- Pairs with one first part and related second parts. -/
inductive OnSnd (rel : τ → τ → Prop) : σ × τ → σ × τ → Prop where
  /-- The pairs with this first part. -/
  | mk {t t' : τ} (a : σ) (h : rel t t') : OnSnd rel (a, t) (a, t')

/-- Pairs with related first parts and one second part. -/
inductive OnFst (rel : τ → τ → Prop) : τ × σ → τ × σ → Prop where
  /-- The pairs with this second part. -/
  | mk {t t' : τ} (a : σ) (h : rel t t') : OnFst rel (t, a) (t', a)

/-! ## Reading bytes -/

namespace Source.Abreast

variable {s s' : Source}

/-- **A byte is read from both sources or the second falls short.** -/
theorem next (h : Abreast s₀ s₁ s s') :
    Alike s₀ s₁ Eq (Abreast s₀ s₁) (Source.next s) (Source.next s') := by
  obtain @⟨p, hs, hp⟩ := h
  by_cases hlt : p < s₁.bound
  · have hlt₀ : p < s₀.bound := Nat.lt_of_lt_of_le hlt hs.bound_le
    have h₁ : Source.next { s₁ with position := p } = _ := dif_pos hlt
    have h₀ : Source.next { s₀ with position := p } = _ := dif_pos hlt₀
    rw [h₀, h₁]
    exact .ok (hs.getElem_eq hlt _ _).symm (.mk hs hlt)
  · have h₁ : Source.next { s₁ with position := p } = _ := dif_neg hlt
    rw [h₁]
    refine .short 1 fun hle => ⟨_, dif_neg fun hlt₀ => hlt (Nat.lt_of_lt_of_le hlt₀ hle), .mk hs hp⟩

/-- **Bytes are read from both sources or the second falls short.** -/
theorem read (n : Nat) (h : Abreast s₀ s₁ s s') :
    Alike s₀ s₁ (fun b b' => b = b' ∧ b.size = n) (Abreast s₀ s₁) (Source.read n s)
      (Source.read n s') := by
  obtain @⟨p, hs, hp⟩ := h
  have hsize := s₀.bound_le_size
  have hbound := hs.bound_le
  by_cases hle : p + n ≤ s₁.bound
  · have h₁ : Source.read n { s₁ with position := p } = _ := if_pos hle
    have h₀ : Source.read n { s₀ with position := p } = _ := if_pos (Nat.le_trans hle hbound)
    rw [h₀, h₁]
    refine .ok ⟨(hs.extract_extract_eq hle).symm, ?_⟩ (.mk hs hle)
    rw [ByteArray.size_extract]
    dsimp only
    omega
  · have h₁ : Source.read n { s₁ with position := p } = _ := if_neg hle
    rw [h₁]
    refine .short n fun hle₀ => ?_
    have heq : s₀.bound = s₁.bound := Nat.le_antisymm hle₀ hbound
    have h₀ : Source.read n { s₀ with position := p } = _ := if_neg (heq ▸ hle)
    refine ⟨_, h₀, ?_⟩
    change Abreast s₀ s₁ { s₀ with position := max p s₀.bound } { s₁ with position := max p s₁.bound }
    rw [heq]
    exact .mk hs (Nat.max_le.mpr ⟨hp, Nat.le_refl _⟩)

theorem position_le (h : Abreast s₀ s₁ s s') : s.position ≤ s₁.bound := by
  obtain ⟨-, hp⟩ := h
  exact hp

/-- **Both sources tell alike whether something was read.** -/
theorem remaining_lt_iff {t t' : Source} (hs : Abreast s₀ s₁ s s') (ht : Abreast s₀ s₁ t t') :
    t.remaining < s.remaining ↔ t'.remaining < s'.remaining := by
  obtain @⟨p, heads, hp⟩ := hs
  obtain @⟨q, -, hq⟩ := ht
  have hle := heads.bound_le
  change s₀.bound - q < s₀.bound - p ↔ s₁.bound - q < s₁.bound - p
  omega

end Source.Abreast

end BlockPress
