import BlockPress.Entropy.Coder
import Mathlib.Data.Nat.Notation
import Mathlib.Logic.Relation

/-!
# Runs

What an action leaves behind, whether it succeeded or not (`leftBy`), and what a loop comes to that goes
on for as long as its rounds say so (`Ends`).  **A loop ends if its rounds use something up**
(`Ends.of_decreasing`), and what every round keeps, the loop keeps (`Ends.invariant`), also on its way
(`Leads.invariant`).
-/

namespace BlockPress

/-- The state that an action has left behind. -/
def leftBy {ε σ α : Type} : EStateM.Result ε σ α → σ
  | .ok _ s => s
  | .error _ s => s

/-- The coder that is left behind when symbols are asked for through these contexts, one after the
other and also after failures. -/
def after {δ : Type} {k : ℕ} [SymbolReader δ k] : List (Fin k) → δ → δ
  | [], d => d
  | c :: cs, d => after cs (leftBy (SymbolReader.receive c d))

theorem after_append {δ : Type} {k : ℕ} [SymbolReader δ k] (cs cs' : List (Fin k)) (d : δ) :
    after (cs ++ cs') d = after cs' (after cs d) := by
  induction cs generalizing d with
  | nil => rfl
  | cons c cs ih => exact ih _

/-- A loop comes to its result after a number of rounds.  A round goes on from another state or gives
the result; nothing else ends the loop. -/
inductive Ends {σ ρ : Type} (round : σ → σ ⊕ ρ) : ℕ → σ → ρ → Prop where
  /-- The round gives the result. -/
  | last {s : σ} {r : ρ} (h : round s = .inr r) : Ends round 1 s r
  /-- The round goes on. -/
  | again {n : ℕ} {s t : σ} {r : ρ} (h : round s = .inl t) (rest : Ends round n t r) :
    Ends round (n + 1) s r

namespace Ends

variable {σ ρ : Type} {round : σ → σ ⊕ ρ}

/-- **A loop ends if each round that goes on uses something up**, and then it comes to what a function
gives that is the same before and after each round. -/
theorem of_decreasing {f : σ → ρ} (left : σ → ℕ)
    (go : ∀ s t, round s = .inl t → f s = f t ∧ left t < left s)
    (stop : ∀ s r, round s = .inr r → f s = r) (s : σ) :
    ∃ n ≤ left s + 1, Ends round n s (f s) := by
  induction hleft : left s using Nat.strongRecOn generalizing s with
  | ind m ih =>
    cases hround : round s with
    | inl t =>
      obtain ⟨heq, hlt⟩ := go s t hround
      obtain ⟨n, hn, hends⟩ := ih (left t) (hleft ▸ hlt) t rfl
      exact ⟨n + 1, by omega, heq ▸ .again hround hends⟩
    | inr r => exact ⟨1, by omega, stop s r hround ▸ .last hround⟩

/-- **What every round keeps, the loop keeps.** -/
theorem invariant {P : σ → Prop} {Q : ρ → Prop}
    (go : ∀ s t, P s → round s = .inl t → P t) (stop : ∀ s r, P s → round s = .inr r → Q r)
    {n : ℕ} {s : σ} {r : ρ} (h : Ends round n s r) (hs : P s) : Q r := by
  induction h with
  | last h => exact stop _ _ hs h
  | again h rest ih => exact ih (go _ _ hs h)

end Ends

/-- The rounds of a loop lead from a state to another one. -/
def Leads {σ ρ : Type} (round : σ → σ ⊕ ρ) : σ → σ → Prop :=
  Relation.ReflTransGen fun s t => round s = .inl t

/-- **What every round keeps holds of all states on the way.** -/
theorem Leads.invariant {σ ρ : Type} {round : σ → σ ⊕ ρ} {P : σ → Prop}
    (go : ∀ s t, P s → round s = .inl t → P t) {s t : σ} (h : Leads round s t) (hs : P s) : P t := by
  induction h with
  | refl => exact hs
  | tail _ hround ih => exact go _ _ ih hround

end BlockPress
