import BlockPress.Device.Source

/-!
# Guarded runs

A machine that checks its arithmetic and its indices does not finish a run in which a number does not
fit its word, a difference is below zero, a shift is by as many places as the word has, an index lies
out of range or a branch is entered that is meant to be unreachable.  A *guarded* run is the same run with
these checks in front of the operations (`require`), and it comes to nothing where one of them fails.

**A guarded run that holds comes to what the run comes to** (`Holds`): none of its checks fails, and what
is known of the answer and of the state that is left behind is known of both.
-/

namespace BlockPress

/-- The failure is none of those that only a broken reader could find: a rank beyond the last one, and a
buffer of a frame that has no room for a block. -/
def Failure.Reachable : Failure → Prop
  | .corrupt _ (.rankOutOfRange _) => False
  | .badHeader (.shortBuffer _ _) => False
  | _ => True

/-- Work on a state that comes to nothing where a check fails. -/
abbrev Guarded (σ α : Type) : Type := σ → Option (EStateM.Result Failure σ α)

namespace Guarded

variable {σ α : Type}

/-- Goes on if the check holds. -/
def require (check : Prop) [Decidable check] (run : Option α) : Option α := if check then run else none

theorem require_eq {check : Prop} [Decidable check] (h : check) (run : Option α) :
    require check run = run := if_pos h

/-- A guarded run comes to the same as a run: an answer and a state of which `ok` holds, or a failure that
is reachable and a state of which `left` holds. -/
inductive Holds (ok : α → σ → Prop) (left : σ → Prop) :
    Option (EStateM.Result Failure σ α) → EStateM.Result Failure σ α → Prop where
  /-- An answer. -/
  | ok {a : α} {s : σ} (h : ok a s) : Holds ok left (some (.ok a s)) (.ok a s)
  /-- A failure. -/
  | error {f : Failure} {s : σ} (reachable : f.Reachable) (h : left s) :
    Holds ok left (some (.error f s)) (.error f s)

namespace Holds

variable {ok ok' : α → σ → Prop} {left left' : σ → Prop} {x : Option (EStateM.Result Failure σ α)}
  {y : EStateM.Result Failure σ α}

/-- What is known may be weakened. -/
theorem mono (h : Holds ok left x y) (hok : ∀ a s, y = .ok a s → ok a s → ok' a s)
    (hleft : ∀ s, left s → left' s) : Holds ok' left' x y := by
  cases h with
  | ok h => exact .ok (hok _ _ rfl h)
  | error reachable h => exact .error reachable (hleft _ h)

/-- What is known of an answer. -/
theorem answer {a : α} {s : σ} (h : Holds ok left x (.ok a s)) : ok a s := by
  cases h with
  | ok h => exact h

/-- A check that holds changes nothing. -/
theorem require {check : Prop} [Decidable check] (hcheck : check) (h : Holds ok left x y) :
    Holds ok left (Guarded.require check x) y := by
  rwa [require_eq hcheck]

end Holds

end Guarded

end BlockPress
