import BlockPress.Entropy.BitTree
import BlockPress.Proofs.Entropy.Exactness

/-!
# The decisions of a symbol

A bit tree turns a symbol into decisions: the high bits under the chances on the way down
(`BitTree.path`), the low bits as halves.  Which chances it meets and how they adapt depends on the
symbol alone, so both sides of a stream can be told apart from it: writing a symbol is taking its
decisions (`encode_eq`), and the tree afterwards is `learn`, whoever took them.
-/

namespace BlockPress.BitTree

variable {size : Nat}

/-- The decisions of the low `n` bits of `value`, going down from `node`. -/
def path (shift value : Nat) : (n node : Nat) → (node + 1) * 2 ^ n ≤ 2 * size →
    Vector Chance size → List Decision
  | 0, _, _, _ => []
  | n + 1, node, h, chances =>
    have hnode : node < size := lt_of_walk h
    let b := value.testBit n
    .chance chances[node] b ::
      path shift value n (2 * node + b.toNat) (walk_step h b)
        (chances.set node (chances[node].adapt shift b))

/-- The chances after the low `n` bits of `value` were seen, going down from `node`. -/
def adapted (shift value : Nat) : (n node : Nat) → (node + 1) * 2 ^ n ≤ 2 * size →
    Vector Chance size → Vector Chance size
  | 0, _, _, chances => chances
  | n + 1, node, h, chances =>
    have hnode : node < size := lt_of_walk h
    let b := value.testBit n
    adapted shift value n (2 * node + b.toNat) (walk_step h b)
      (chances.set node (chances[node].adapt shift b))

/-- The decisions of a symbol. -/
def decisions (t : BitTree) (symbol : UInt32) : List Decision :=
  path t.context.shift (symbol.toNat >>> t.context.plainBits) t.context.modeledBits 1
      (Nat.le_refl _) t.chances ++
    Code.plainDecisions symbol.toNat t.context.plainBits

/-- The tree after a symbol was seen. -/
def learn (t : BitTree) (symbol : UInt32) : BitTree :=
  ⟨t.context, adapted t.context.shift (symbol.toNat >>> t.context.plainBits)
    t.context.modeledBits 1 (Nat.le_refl _) t.chances⟩

theorem write_eq (shift value n node : Nat) (h : (node + 1) * 2 ^ n ≤ 2 * size)
    (chances : Vector Chance size) (code : Code) :
    write shift value n node h chances code =
      (adapted shift value n node h chances, code.run (path shift value n node h chances)) := by
  induction n generalizing node chances code with
  | zero => rfl
  | succ n ih =>
    rw [write, ih, Code.narrow_eq]
    rfl

/-- **Writing a symbol is taking its decisions.** -/
theorem encode_eq (t : BitTree) (symbol : UInt32) (code : Code) :
    t.encode symbol code = (t.learn symbol, code.run (t.decisions symbol)) := by
  rw [encode, write_eq]
  simp only [Code.plain_eq_run, decisions, Code.run_append]
  rfl

/-! ## Open trees -/

/-- Under each chance of the tree both bits are possible. -/
def Open (t : BitTree) : Prop := ∀ p ∈ t.chances, p.Open

theorem open_fresh (context : Context) : (fresh context).Open := by
  intro p hp
  rw [Vector.eq_of_mem_replicate hp]
  exact Chance.open_even

theorem forall_set {P : Chance → Prop} {chances : Vector Chance size} (h : ∀ p ∈ chances, P p)
    {node : Nat} (hnode : node < size) {p : Chance} (hp : P p) : ∀ q ∈ chances.set node p, P q := by
  intro q hq
  obtain hq | rfl := Vector.mem_or_eq_of_mem_set hq
  · exact h q hq
  · exact hp

/-- What adapting keeps of a chance, a symbol keeps of all chances of a tree. -/
theorem forall_adapted {P : Chance → Prop} {shift : Nat}
    (hP : ∀ p, P p → ∀ b, P (p.adapt shift b)) (value n node : Nat)
    (h : (node + 1) * 2 ^ n ≤ 2 * size) {chances : Vector Chance size} (hchances : ∀ p ∈ chances, P p) :
    ∀ p ∈ adapted shift value n node h chances, P p := by
  induction n generalizing node chances with
  | zero => exact hchances
  | succ n ih =>
    have hnode : node < size := lt_of_walk h
    have hp : P chances[node] := hchances _ (Vector.getElem_mem hnode)
    exact ih _ (walk_step h _) (forall_set hchances hnode (hP _ hp _))

theorem open_path {shift : Nat} (h₁ : 1 ≤ shift) (h₂ : shift ≤ 15) (value n node : Nat)
    (h : (node + 1) * 2 ^ n ≤ 2 * size) {chances : Vector Chance size}
    (hopen : ∀ p ∈ chances, p.Open) : ∀ d ∈ path shift value n node h chances, d.Open := by
  induction n generalizing node chances with
  | zero => exact List.forall_mem_nil _
  | succ n ih =>
    have hnode : node < size := lt_of_walk h
    have hp : chances[node].Open := hopen _ (Vector.getElem_mem hnode)
    have hset := forall_set hopen hnode (hp.adapt h₁ h₂ (value.testBit n))
    exact List.forall_mem_cons.mpr ⟨hp, ih _ (walk_step h _) hset⟩

theorem open_plainDecisions (value n : Nat) : ∀ d ∈ Code.plainDecisions value n, d.Open := by
  induction n with
  | zero => exact List.forall_mem_nil _
  | succ n ih => exact List.forall_mem_cons.mpr ⟨trivial, ih⟩

theorem shift_bounds (c : Context) : 1 ≤ c.shift ∧ c.shift ≤ 15 := by
  rw [Context.shift]
  omega

theorem Open.learn {t : BitTree} (h : t.Open) (symbol : UInt32) : (t.learn symbol).Open := by
  obtain ⟨h₁, h₂⟩ := shift_bounds t.context
  exact forall_adapted (fun _ hp b => hp.adapt h₁ h₂ b) _ _ _ _ h

theorem Open.decisions {t : BitTree} (h : t.Open) (symbol : UInt32) :
    ∀ d ∈ t.decisions symbol, d.Open := by
  obtain ⟨h₁, h₂⟩ := shift_bounds t.context
  exact List.forall_mem_append.mpr ⟨open_path h₁ h₂ _ _ _ _ h, open_plainDecisions _ _⟩

end BlockPress.BitTree
