import Mathlib.Data.Nat.Notation

/-!
# Loops over positions

A property that every pass of a loop hands on holds behind the loop.  An entry of a table that was set
at one place is the new one there and the old one elsewhere (`get_set`).
-/

namespace BlockPress

variable {α : Type} {n : ℕ}

theorem get_set (xs : Vector α n) (i j : Fin n) (x : α) :
    (xs.set i x i.isLt).get j = if i = j then x else xs.get j := by
  by_cases h : i = j
  · subst h
    rw [if_pos rfl]
    exact Vector.getElem_set_self i.isLt
  · rw [if_neg h]
    exact Vector.getElem_set_ne i.isLt j.isLt (Fin.val_ne_of_ne h)

/-- What holds of all entries of a table and of a new one holds of all entries afterwards. -/
theorem forall_get_set {P : Fin n → α → Prop} {xs : Vector α n} (h : ∀ j, P j (xs.get j)) {i : Fin n}
    {x : α} (hx : P i x) : ∀ j, P j ((xs.set i x i.isLt).get j) := by
  intro j
  rw [get_set]
  split
  · next heq => exact heq ▸ hx
  · exact h j

/-- Going up. -/
theorem fold_invariant {f : (i : ℕ) → i < n → α → α} {a : α} (P : ℕ → α → Prop) (start : P 0 a)
    (step : ∀ i, ∀ hi : i < n, ∀ b, P i b → P (i + 1) (f i hi b)) : P n (Nat.fold n f a) := by
  induction n with
  | zero => exact start
  | succ n ih =>
    rw [Nat.fold_succ]
    exact step n n.lt_succ_self _ (ih fun i hi b h => step i (Nat.lt_succ_of_lt hi) b h)

/-- Going down. -/
theorem foldRev_invariant {f : (i : ℕ) → i < n → α → α} {a : α} (P : ℕ → α → Prop)
    (start : P n a) (step : ∀ i, ∀ hi : i < n, ∀ b, P (i + 1) b → P i (f i hi b)) :
    P 0 (Nat.foldRev n f a) := by
  induction n generalizing a with
  | zero => exact start
  | succ n ih =>
    rw [Nat.foldRev_succ]
    exact ih (step n n.lt_succ_self a start) fun i hi b h => step i (Nat.lt_succ_of_lt hi) b h

/-- Going up through the positions of a vector. -/
theorem finFoldl_invariant {f : α → Fin n → α} {a : α} (P : ℕ → α → Prop) (start : P 0 a)
    (step : ∀ i : Fin n, ∀ b, P i b → P (i + 1) (f b i)) : P n (Fin.foldl n f a) := by
  induction n with
  | zero =>
    rw [Fin.foldl_zero]
    exact start
  | succ n ih =>
    rw [Fin.foldl_succ_last]
    exact step (Fin.last n) _ (ih fun i b h => step i.castSucc b h)

/-- A loop whose passes all come to something comes to what they come to. -/
theorem finFoldl_bind_some {f : α → Fin n → α} {g : α → Fin n → Option α}
    (h : ∀ a i, g a i = some (f a i)) (a : α) :
    Fin.foldl n (fun x i => x.bind (g · i)) (some a) = some (Fin.foldl n f a) := by
  induction n with
  | zero => rw [Fin.foldl_zero, Fin.foldl_zero]
  | succ n ih =>
    rw [Fin.foldl_succ_last, Fin.foldl_succ_last, ih fun a i => h a i.castSucc, Option.bind_some, h]

/-- Going through the bytes of an array. -/
theorem foldlBytes_invariant {f : α → UInt8 → α} {a : α} (bytes : ByteArray) (P : ℕ → α → Prop)
    (start : P 0 a)
    (step : ∀ i, ∀ hi : i < bytes.size, ∀ b, P i b → P (i + 1) (f b bytes[i])) :
    P bytes.size (bytes.foldl f a) := by
  have hloop (i : ℕ) : ∀ j b, j + i = bytes.size → P j b → P bytes.size (Id.run
      (ByteArray.foldlM.loop (pure <| f · ·) bytes bytes.size (Nat.le_refl _) i j b)) := by
    induction i with
    | zero =>
      intro j b hj hb
      rw [ByteArray.foldlM.loop, dif_neg (by omega), ← hj]
      exact hb
    | succ i ih =>
      intro j b hj hb
      rw [ByteArray.foldlM.loop, dif_pos (by omega)]
      exact ih (j + 1) _ (by omega) (step j (by omega) b hb)
  rw [ByteArray.foldl, ByteArray.foldlM, dif_pos (Nat.le_refl _)]
  exact hloop _ 0 a (by omega) start

end BlockPress
