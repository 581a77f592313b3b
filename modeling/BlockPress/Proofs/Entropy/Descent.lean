import BlockPress.Proofs.Entropy.Consuming
import BlockPress.Proofs.Runs
import Mathlib.Data.Prod.Lex

/-!
# What a decision uses up

The load of a window is the number of bytes that were not read, and then its range (`Register.load`).
**Every decision lowers the load**, one under an open chance as well as one without a model, since a range
that was not widened is cut; what fails before a decision does not raise it.  The chances of a tree stay
open, whatever bytes are read.

Main statement: whatever contexts are read through, and also after failures, the windows behind the
decisions descend, so there are fewer than `2 ^ 32` for each byte (`RangeReader.falls`).
-/

namespace BlockPress

namespace Register

/-! ## Windows -/

/-- What a window has still to use up: bytes of the source in the first place, range in the second. -/
def load (r : Register) : ℕ ×ₗ ℕ := toLex (r.source.remaining, r.range.toNat)

variable {r r' : Register}

theorem load_lt_of_remaining_lt (h : r'.source.remaining < r.source.remaining) : r'.load < r.load :=
  Prod.Lex.toLex_lt_toLex.mpr (.inl h)

theorem load_lt_of_range_lt (h : r'.source = r.source) (hrange : r'.range.toNat < r.range.toNat) :
    r'.load < r.load :=
  Prod.Lex.toLex_lt_toLex.mpr (.inr ⟨congrArg Source.remaining h, hrange⟩)

theorem load_refill_le (r : Register) : (leftBy r.refill).load ≤ r.load := by
  fun_induction refill r with
  | case1 r hlt b s heq ih =>
    have hnext : (⟨s, r.range <<< 8, r.code <<< 8 ||| b.toUInt32⟩ : Register).load < r.load :=
      load_lt_of_remaining_lt (Source.remaining_next heq)
    exact ih.trans hnext.le
  | case2 r hlt failure s heq =>
    rw [Source.next] at heq
    split at heq
    · cases heq
    · cases heq
      exact le_rfl
  | case3 r hge => exact le_rfl

/-- A round of widening. -/
def refillRound (r : Register) : Register ⊕ EStateM.Result Failure Register Unit :=
  if r.range < top then
    match r.source.next with
    | .ok b s => .inl ⟨s, r.range <<< 8, r.code <<< 8 ||| b.toUInt32⟩
    | .error failure s => .inr (.error failure { r with source := s })
  else .inr (.ok () r)

/-- **Widening comes to an end**, since it reads on. -/
theorem ends_refill (r : Register) :
    ∃ n ≤ r.source.remaining + 1, Ends refillRound n r r.refill := by
  refine Ends.of_decreasing (fun r => r.source.remaining) (fun r r' h => ?_) (fun r x h => ?_) r
  · rw [refillRound] at h
    rw [refill]
    split at h
    · next hlt =>
      rw [if_pos hlt]
      split at h
      · next b s heq =>
        cases h
        refine ⟨?_, Source.remaining_next heq⟩
        split
        · next heq' =>
          cases heq.symm.trans heq'
          rfl
        · next heq' => cases heq.symm.trans heq'
      · cases h
    · cases h
  · rw [refillRound] at h
    rw [refill]
    split at h
    · next hlt =>
      rw [if_pos hlt]
      split at h
      · cases h
      · next f s heq =>
        cases h
        split
        · next heq' => cases heq.symm.trans heq'
        · next heq' =>
          cases heq.symm.trans heq'
          rfl
    · next hge =>
      cases h
      rw [if_neg hge]

/-- Behind the window of an action that decided, the load is lower; it is not higher if the action
failed. -/
inductive Falls {α : Type} (r : Register) : EStateM.Result Failure Register α → Prop where
  /-- A decision. -/
  | ok {a : α} {r' : Register} (h : r'.load < r.load) : Falls r (.ok a r')
  /-- A failure. -/
  | error {f : Failure} {r' : Register} (h : r'.load ≤ r.load) : Falls r (.error f r')

/-- **A decision under an open chance lowers the load.** -/
theorem falls_bit {p : Chance} (hp : p.Open) (shift : ℕ) (r : Register) : r.Falls (bit p shift r) := by
  have hle := load_refill_le r
  rw [bit]
  dsimp only
  cases hrefill : r.refill with
  | error f r' =>
    rw [hrefill] at hle
    exact .error hle
  | ok _ r' =>
    have hfall {q : Register} (hsource : q.source = r'.source)
        (hrange : 2 ^ 24 ≤ r'.range.toNat → q.range.toNat < r'.range.toNat) : q.load < r.load := by
      obtain ⟨rfl, hwide⟩ | hlt := refill_cases hrefill
      · exact load_lt_of_range_lt hsource (hrange hwide)
      · exact load_lt_of_remaining_lt (hsource ▸ hlt)
    have hshare := Chance.toNat_share hp r'.range
    obtain ⟨hpos, hlt⟩ := hp
    -- Neither part of the range is empty, as it has `2 ^ 13` units or more.
    have hparts (hwide : 2 ^ 24 ≤ r'.range.toNat) : 0 < r'.range.toNat / 2048 * p.parts.toNat ∧
        r'.range.toNat / 2048 * p.parts.toNat < r'.range.toNat := by
      have hunit : 0 < r'.range.toNat / 2048 := by omega
      have hless : r'.range.toNat / 2048 * p.parts.toNat < r'.range.toNat / 2048 * 2048 :=
        Nat.mul_lt_mul_of_pos_left hlt hunit
      exact ⟨Nat.mul_pos hunit hpos, by omega⟩
    dsimp only
    split
    · refine .ok (hfall rfl fun hwide => ?_)
      exact hshare.trans_lt (hparts hwide).2
    · refine .ok (hfall rfl fun hwide => ?_)
      obtain ⟨hzero, hone⟩ := hparts hwide
      have hle : p.share r'.range ≤ r'.range := UInt32.le_iff_toNat_le.mpr (by omega)
      change (r'.range - p.share r'.range).toNat < r'.range.toNat
      rw [UInt32.toNat_sub_of_le _ _ hle]
      omega

/-- **A decision without a model lowers the load.** -/
theorem falls_half (r : Register) : r.Falls r.half := by
  cases hhalf : r.half with
  | ok b r' =>
    obtain ⟨hsource, hrange, hwide⟩ | hlt := half_cases hhalf
    · exact .ok (load_lt_of_range_lt hsource (by omega))
    · exact .ok (load_lt_of_remaining_lt hlt)
  | error f r' =>
    have hle := load_refill_le r
    rw [half] at hhalf
    dsimp only at hhalf
    cases hrefill : r.refill with
    | error g q =>
      rw [hrefill] at hle hhalf
      cases hhalf
      exact .error hle
    | ok _ q =>
      rw [hrefill] at hhalf
      dsimp only at hhalf
      split at hhalf
      · cases hhalf
      · cases hhalf

/-! ## Descents -/

/-- From a window to another, through the windows behind some decisions, each with a lower load than the
one before. -/
inductive Descends : Register → List Register → Register → Prop where
  /-- There is no decision. -/
  | stay {r r' : Register} (h : r'.load ≤ r.load) : Descends r [] r'
  /-- There is a decision, and then others. -/
  | step {r w r' : Register} {ws : List Register} (h : w.load < r.load) (rest : Descends w ws r') :
    Descends r (w :: ws) r'

namespace Descends

variable {ws ws' : List Register} {r'' : Register}

theorem of_le (h : r'.load ≤ r.load) (hws : Descends r' ws r'') : Descends r ws r'' := by
  cases hws with
  | stay hle => exact .stay (hle.trans h)
  | step hlt rest => exact .step (hlt.trans_le h) rest

theorem append (h : Descends r ws r') (h' : Descends r' ws' r'') : Descends r (ws ++ ws') r'' := by
  induction h with
  | stay hle => exact h'.of_le hle
  | step hlt rest ih => exact .step hlt (ih h')

theorem isChain (h : Descends r ws r') : (r :: ws).IsChain fun r r' => r'.load < r.load := by
  induction h with
  | stay hle => exact .singleton _
  | step hlt rest ih => exact .cons_cons hlt ih

/-- A byte is worth `2 ^ 32` decisions at most. -/
theorem length_le (h : Descends r ws r') : ws.length ≤ r.source.remaining * 2 ^ 32 + r.range.toNat := by
  induction h with
  | stay hle => exact Nat.zero_le _
  | @step r w r' ws hlt rest ih =>
    have hrange := w.range.toNat_lt
    rw [List.length_cons]
    obtain hremaining | ⟨hremaining, hless⟩ := Prod.Lex.toLex_lt_toLex.mp hlt
    · dsimp only at hremaining
      omega
    · dsimp only at hremaining hless
      omega

end Descends

/-- The windows behind the decisions of `plain`. -/
def plainWindows : ℕ → Register → List Register
  | 0, _ => []
  | n + 1, r =>
    match r.half with
    | .ok _ r => r :: plainWindows n r
    | .error _ _ => []

theorem descends_plain (v : UInt32) (n : ℕ) (r : Register) :
    Descends r (plainWindows n r) (leftBy (plain v n r)) := by
  induction n generalizing v r with
  | zero => exact .stay le_rfl
  | succ n ih =>
    have hfalls := falls_half r
    rw [plainWindows, plain]
    dsimp only
    generalize r.half = y at hfalls ⊢
    cases hfalls with
    | error h => exact .stay h
    | ok h => exact .step h (ih _ _)

theorem length_plainWindows {v w : UInt32} {n : ℕ} (h : plain v n r = .ok w r') :
    (plainWindows n r).length = n := by
  induction n generalizing v r with
  | zero => rfl
  | succ n ih =>
    rw [plain] at h
    rw [plainWindows]
    dsimp only at h
    cases hhalf : r.half with
    | error f e =>
      rw [hhalf] at h
      cases h
    | ok b e =>
      rw [hhalf] at h
      exact congrArg Nat.succ (ih h)

end Register

namespace BitTree

/-! ## Trees -/

/-- The windows behind the decisions of `read`. -/
def readWindows {size : ℕ} (shift : ℕ) : (n node : ℕ) → (node + 1) * 2 ^ n ≤ 2 * size →
    Vector Chance size × Register → List Register
  | 0, _, _, _ => []
  | n + 1, node, h, (chances, register) =>
    have hnode : node < size := lt_of_walk h
    match register.bit chances[node] shift with
    | .ok (b, p) register =>
      register :: readWindows shift n (2 * node + b.toNat) (walk_step h b) (chances.set node p, register)
    | .error _ _ => []

variable {r r' : Register}

/-- A bit moves its chance and leaves it open. -/
theorem open_of_bit {p : Chance} (hp : p.Open) {shift : ℕ} (h₁ : 1 ≤ shift) (h₂ : shift ≤ 15)
    {a : Bool × Chance} (h : r.bit p shift = .ok a r') : a.2.Open := by
  rw [Register.bit] at h
  dsimp only at h
  split at h
  · cases h
  · split at h
    · cases h
      exact hp.adapt h₁ h₂ false
    · cases h
      exact hp.adapt h₁ h₂ true

theorem descends_read {size shift n node : ℕ} (h₁ : 1 ≤ shift) (h₂ : shift ≤ 15)
    (h : (node + 1) * 2 ^ n ≤ 2 * size) {chances : Vector Chance size} (hopen : ∀ p ∈ chances, p.Open)
    (r : Register) :
    r.Descends (readWindows shift n node h (chances, r)) (leftBy (read shift n node h (chances, r))).2 ∧
      ∀ p ∈ (leftBy (read shift n node h (chances, r))).1, p.Open := by
  induction n generalizing node chances r with
  | zero => exact ⟨.stay le_rfl, hopen⟩
  | succ n ih =>
    have hnode : node < size := lt_of_walk h
    have hp : chances[node].Open := hopen _ (Vector.getElem_mem hnode)
    have hfalls := Register.falls_bit hp shift r
    rw [readWindows, read]
    dsimp only
    cases hbit : r.bit chances[node] shift with
    | error f r' =>
      rw [hbit] at hfalls
      cases hfalls with
      | error hle => exact ⟨.stay hle, hopen⟩
    | ok a r' =>
      rw [hbit] at hfalls
      cases hfalls with
      | ok hlt =>
        obtain ⟨hrest, hopen⟩ :=
          ih (walk_step h a.1) (forall_set hopen hnode (open_of_bit hp h₁ h₂ hbit)) r'
        exact ⟨.step hlt hrest, hopen⟩

theorem length_readWindows {size shift n node v : ℕ} {h : (node + 1) * 2 ^ n ≤ 2 * size}
    {s : Vector Chance size × Register} {s' : Vector Chance size × Register}
    (hread : read shift n node h s = .ok v s') : (readWindows shift n node h s).length = n := by
  induction n generalizing node s with
  | zero => rfl
  | succ n ih =>
    obtain ⟨chances, r⟩ := s
    have hnode : node < size := lt_of_walk h
    rw [read] at hread
    rw [readWindows]
    dsimp only at hread ⊢
    cases hbit : r.bit chances[node] shift with
    | error f r' =>
      rw [hbit] at hread
      cases hread
    | ok a r' =>
      rw [hbit] at hread
      exact congrArg Nat.succ (ih hread)

/-- A walk down the tree of a context has room at the root. -/
theorem room_root (context : Context) : (1 + 1) * 2 ^ context.modeledBits ≤ 2 * 2 ^ context.modeledBits :=
  Nat.le_refl _

/-- The windows behind the decisions of `decode`: those of the walk, and then those without a model. -/
def decodeWindows : BitTree × Register → List Register
  | (⟨context, chances⟩, register) =>
    readWindows context.shift context.modeledBits 1 (room_root context) (chances, register) ++
      match read context.shift context.modeledBits 1 (room_root context) (chances, register) with
      | .ok _ (_, register) => Register.plainWindows context.plainBits register
      | .error _ _ => []

theorem descends_decode {t : BitTree} (ht : t.Open) (r : Register) :
    r.Descends (decodeWindows (t, r)) (leftBy (decode (t, r))).2 ∧ (leftBy (decode (t, r))).1.Open := by
  obtain ⟨context, chances⟩ := t
  obtain ⟨h₁, h₂⟩ := shift_bounds context
  obtain ⟨hwalk, hopen⟩ := descends_read h₁ h₂ (room_root context) ht r
  rw [decodeWindows, decode]
  cases hread : read context.shift context.modeledBits 1 (Nat.le_refl _) (chances, r) with
  | error f s =>
    rw [hread] at hwalk hopen
    exact ⟨hwalk.append (.stay le_rfl), hopen⟩
  | ok node s =>
    rw [hread] at hwalk hopen
    obtain ⟨chances, r'⟩ := s
    have hplain := Register.descends_plain (node - 2 ^ context.modeledBits).toUInt32 context.plainBits r'
    dsimp only at hwalk hopen ⊢
    generalize Register.plain _ _ r' = y at hplain ⊢
    cases y with
    | error f e => exact ⟨hwalk.append hplain, hopen⟩
    | ok symbol e =>
      dsimp only
      split
      · exact ⟨hwalk.append hplain, hopen⟩
      · exact ⟨hwalk.append hplain, hopen⟩

/-- **A symbol takes as many decisions as it has bits.** -/
theorem length_decodeWindows {t t' : BitTree} {s : UInt32} (h : decode (t, r) = .ok s (t', r')) :
    (decodeWindows (t, r)).length = t.context.symbolBits := by
  obtain ⟨-, -, node, chances, e, v, hread, hplain⟩ := decode_cases h
  obtain ⟨context, chances'⟩ := t
  dsimp only at hread hplain ⊢
  rw [decodeWindows, List.length_append, length_readWindows hread, hread]
  dsimp only
  rw [Register.length_plainWindows hplain, Nat.add_comm]
  exact context.plainBits_add_modeledBits

end BitTree

namespace RangeReader

/-! ## Decoders -/

variable {k : ℕ}

/-- The windows behind the decisions of `receive`. -/
def receiveWindows (c : Fin k) (d : RangeReader k) : List Register :=
  BitTree.decodeWindows (d.trees.get c, d.register)

/-- The windows behind the decisions of symbols through these contexts, each read from what the one
before has left behind. -/
def windows : List (Fin k) → RangeReader k → List Register
  | [], _ => []
  | c :: cs, d => d.receiveWindows c ++ windows cs (leftBy (d.receive c))

/-- The decisions of symbols through these contexts lower the load one by one, and there are fewer than
`2 ^ 32` for each byte. -/
structure Falls (d : RangeReader k) (cs : List (Fin k)) : Prop where
  /-- Each window has a lower load than the one before. -/
  isChain : (d.register :: d.windows cs).IsChain fun r r' => r'.load < r.load
  /-- The number of decisions. -/
  length_lt : (d.windows cs).length < (d.source.remaining + 1) * 2 ^ 32

variable {d : RangeReader k}

theorem descends_receive (h : ∀ c, (d.trees.get c).Open) (c : Fin k) :
    d.register.Descends (d.receiveWindows c) (leftBy (d.receive c)).register ∧
      ∀ c', ((leftBy (d.receive c)).trees.get c').Open := by
  obtain ⟨register, trees⟩ := d
  have hset {t : BitTree} (ht : t.Open) : ∀ c', ((trees.set c t c.isLt).get c').Open :=
    forall_get_set h ht
  obtain ⟨hdescends, hopen⟩ := BitTree.descends_decode (h c) register
  rw [receiveWindows, receive]
  dsimp only at hdescends hopen ⊢
  generalize BitTree.decode (trees.get c, register) = y at hdescends hopen ⊢
  cases y with
  | error f s => exact ⟨hdescends, hset hopen⟩
  | ok symbol s => exact ⟨hdescends, hset hopen⟩

/-- **Whatever is read, every decision lowers the load.** -/
theorem exists_descends_windows (h : ∀ c, (d.trees.get c).Open) (cs : List (Fin k)) :
    ∃ r, d.register.Descends (d.windows cs) r := by
  induction cs generalizing d with
  | nil => exact ⟨d.register, .stay le_rfl⟩
  | cons c cs ih =>
    obtain ⟨hreceive, hopen⟩ := descends_receive h c
    obtain ⟨r, hrest⟩ := ih hopen
    exact ⟨r, hreceive.append hrest⟩

theorem falls (h : ∀ c, (d.trees.get c).Open) (cs : List (Fin k)) : d.Falls cs := by
  obtain ⟨r, hdescends⟩ := exists_descends_windows h cs
  have hlength := hdescends.length_le
  have hrange := d.register.range.toNat_lt
  refine ⟨hdescends.isChain, ?_⟩
  change _ < (d.register.source.remaining + 1) * 2 ^ 32
  omega

/-- The chances stay open, whatever is read. -/
theorem open_after (h : ∀ c, (d.trees.get c).Open) (cs : List (Fin k)) (c : Fin k) :
    ((after cs d).trees.get c).Open := by
  induction cs generalizing d with
  | nil => exact h c
  | cons c cs ih => exact ih (descends_receive h c).2

/-- A decoder starts with even chances, which are open. -/
theorem open_of_start {contexts : Vector Context k} {s s' : Source}
    (h : start contexts s = .ok d s') (c : Fin k) : (d.trees.get c).Open := by
  rw [start] at h
  split at h
  · cases h
    have hfresh : (contexts.map BitTree.fresh).get c = BitTree.fresh (contexts.get c) :=
      Vector.getElem_map _ c.isLt
    exact hfresh ▸ BitTree.open_fresh _
  · cases h

/-- **A symbol that is received takes as many decisions as it has bits.** -/
theorem length_receiveWindows {d' : RangeReader k} {c : Fin k} {s : UInt32}
    (h : d.receive c = .ok s d') : (d.receiveWindows c).length = (d.trees.get c).context.symbolBits := by
  obtain ⟨tree, hdecode, -⟩ := receive_cases h
  exact BitTree.length_decodeWindows hdecode

end RangeReader

end BlockPress
