import BlockPress.Entropy.Code
import BlockPress.Entropy.Context
import BlockPress.Entropy.Register

/-!
# Adaptive bit trees

The model of a context.  The high bits of a symbol are coded most significant first, each under a
chance of its own that hangs on the bits before it: the chances are the inner nodes of a binary
tree, numbered from 1, and the sons of node `i` are `2 * i` and `2 * i + 1`.  The low bits follow
without a model.

A walk down the tree carries a proof that its node is one, so no chance is looked up out of range.
-/

namespace BlockPress

open scoped Standard

/-- The adaptive model of one context. -/
structure BitTree where
  /-- The context that the tree models. -/
  context : Context
  /-- The chance at each node; node 0 is not used. -/
  chances : Vector Chance (2 ^ context.modeledBits)

namespace BitTree

/-- The tree of a context with even chances throughout. -/
def fresh (context : Context) : BitTree := ⟨context, Vector.replicate _ Chance.even⟩

/-- The number of symbols of the modelled context. -/
def alphabet (t : BitTree) : Nat := t.context.size

theorem lt_of_walk {node n size : Nat} (h : (node + 1) * 2 ^ (n + 1) ≤ 2 * size) : node < size := by
  have : (node + 1) * 2 ^ (n + 1) = 2 * ((node + 1) * 2 ^ n) := by
    rw [Nat.pow_succ, ← Nat.mul_assoc, Nat.mul_comm]
  have : node + 1 ≤ (node + 1) * 2 ^ n := Nat.le_mul_of_pos_right _ (Nat.two_pow_pos n)
  omega

theorem walk_step {node n size : Nat} (h : (node + 1) * 2 ^ (n + 1) ≤ 2 * size) (b : Bool) :
    (2 * node + b.toNat + 1) * 2 ^ n ≤ 2 * size := by
  have hb : b.toNat ≤ 1 := b.toNat_le
  have h₁ : (2 * node + b.toNat + 1) * 2 ^ n ≤ (2 * (node + 1)) * 2 ^ n :=
    Nat.mul_le_mul_right _ (by omega)
  have h₂ : (node + 1) * 2 ^ (n + 1) = (2 * (node + 1)) * 2 ^ n := by
    rw [Nat.pow_succ, ← Nat.mul_assoc, Nat.mul_comm _ 2, Nat.mul_assoc]
  omega

/-- Writes the low `n` bits of `value`, going down from `node`. -/
def write {size : Nat} (shift value : Nat) :
    (n node : Nat) → (node + 1) * 2 ^ n ≤ 2 * size → Vector Chance size → Code →
      Vector Chance size × Code
  | 0, _, _, chances, code => (chances, code)
  | n + 1, node, h, chances, code =>
    have hnode : node < size := lt_of_walk h
    let p := chances[node]
    let b := value.testBit n
    write shift value n (2 * node + b.toNat) (walk_step h b)
      (chances.set node (p.adapt shift b)) (code.narrow p b)

/-- Writes a symbol. -/
def encode (symbol : UInt32) : BitTree → Code → BitTree × Code
  | ⟨context, chances⟩, code =>
    let (chances, code) :=
      write context.shift (symbol.toNat >>> context.plainBits) context.modeledBits 1
        (Nat.le_refl _) chances code
    (⟨context, chances⟩, code.plain symbol.toNat context.plainBits)

/-- Reads `n` bits, going down from `node`, and gives the node that is reached. -/
def read {size : Nat} (shift : Nat) :
    (n node : Nat) → (node + 1) * 2 ^ n ≤ 2 * size → Action (Vector Chance size × Register) Nat
  | 0, node, _ => fun s => .ok node s
  | n + 1, node, h => fun (chances, register) =>
    have hnode : node < size := lt_of_walk h
    match register.bit chances[node] shift with
    | .error failure register => .error failure (chances, register)
    | .ok (b, p) register =>
      read shift n (2 * node + b.toNat) (walk_step h b) (chances.set node p, register)

/-- Reads a symbol.  What the alphabet does not hold is refused after it was read, when the tree has
already adapted to it. -/
def decode : Action (BitTree × Register) UInt32
  | (⟨context, chances⟩, register) =>
    match read context.shift context.modeledBits 1 (Nat.le_refl _) (chances, register) with
    | .error failure (chances, register) => .error failure (⟨context, chances⟩, register)
    | .ok node (chances, register) =>
      let high := (node - 2 ^ context.modeledBits).toUInt32
      match Register.plain high context.plainBits register with
      | .error failure register => .error failure (⟨context, chances⟩, register)
      | .ok symbol register =>
        if symbol.toNat < context.size then .ok symbol (⟨context, chances⟩, register)
        else .error (.badSymbol symbol context.size) (⟨context, chances⟩, register)

end BitTree

end BlockPress
