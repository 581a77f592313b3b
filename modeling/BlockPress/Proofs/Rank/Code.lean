import BlockPress.Rank.Code
import Mathlib.Algebra.Group.Nat.Defs

/-!
# The numbers behind the symbols of ranks

A run of at most `2 ^ m - 2` zeros has fewer than `m` digits, a rank lies in its class, and each symbol
is in the alphabet of its context (`Coded`).
-/

namespace BlockPress.Rank

/-- Each symbol is in the alphabet of its context. -/
def Coded (xs : List (Fin contextCount × UInt32)) : Prop :=
  ∀ x ∈ xs, x.2.toNat < (contexts.get x.1).size

theorem Coded.append {xs ys : List (Fin contextCount × UInt32)} (hx : Coded xs) (hy : Coded ys) :
    Coded (xs ++ ys) := fun x h => (List.mem_append.mp h).elim (hx x) (hy x)

theorem size_eq_alphabet : ∀ c, (contexts.get c).size = (contexts.get c).alphabet := by decide

theorem Coded.lt_alphabet {xs : List (Fin contextCount × UInt32)} (h : Coded xs) :
    ∀ x ∈ xs, x.2.toNat < (contexts.get x.1).alphabet := fun x hx => size_eq_alphabet x.1 ▸ h x hx

theorem size_symbolContext : (contexts.get symbolContext).size = 11 := by decide

theorem size_wordContext : (contexts.get wordContext).size = 256 := by decide

theorem size_offsetContext :
    ∀ c : Fin 8, c.val ≠ 0 → (contexts.get (offsetContext c)).size = 2 ^ c.val := by
  decide

theorem context_wordContext : contexts.get wordContext = Context.plain 8 := by decide

/-! ## Runs -/

theorem toNat_digit (v : ℕ) : (v % 2).toUInt32.toNat = v % 2 := by
  rw [Nat.toUInt32_eq, UInt32.toNat_ofNat']
  omega

theorem digit_lt_firstClass (v : ℕ) : (v % 2).toUInt32 < firstClass := by
  rw [UInt32.lt_iff_toNat_lt, toNat_digit]
  exact Nat.mod_lt v (by decide)

theorem digits_one : digits 1 = [] := by rw [digits, if_neg (Nat.lt_irrefl 1)]

/-- A digit in front of the digits of a number. -/
theorem digits_cons {digit : UInt32} (hdigit : digit < firstClass) {v : ℕ} (hv : 0 < v) :
    digits (2 * v + digit.toNat) = digit :: digits v := by
  have hlt : digit.toNat < 2 := UInt32.lt_iff_toNat_lt.mp hdigit
  have hmod : (2 * v + digit.toNat) % 2 = digit.toNat := by omega
  have hdiv : (2 * v + digit.toNat) / 2 = v := by omega
  rw [digits, if_pos (by omega), hmod, hdiv]
  exact congrArg (· :: _) UInt32.ofNat_toNat

theorem length_digits_le {v m : ℕ} (h : v < 2 ^ (m + 1)) : (digits v).length ≤ m := by
  induction m generalizing v with
  | zero =>
    rw [digits, if_neg (by omega)]
    exact Nat.le_refl 0
  | succ m ih =>
    rw [digits]
    split
    · exact Nat.succ_le_succ (ih (by rw [Nat.pow_succ] at h; omega))
    · exact Nat.zero_le _

theorem runSymbols_zero : runSymbols 0 = [] := by
  rw [runSymbols, digits, if_neg (by decide), List.map_nil]

theorem lt_two_of_mem_digits {v : ℕ} : ∀ d ∈ digits v, d.toNat < 2 := by
  induction v using digits.induct with
  | case1 v hv ih =>
    rw [digits, if_pos hv]
    intro d hd
    obtain rfl | hd := List.mem_cons.mp hd
    · exact UInt32.lt_iff_toNat_lt.mp (digit_lt_firstClass v)
    · exact ih d hd
  | case2 v hv =>
    rw [digits, if_neg hv]
    intro d hd
    cases hd

theorem coded_runSymbols (length : ℕ) : Coded (runSymbols length) := by
  intro x hx
  obtain ⟨d, hd, rfl⟩ := List.mem_map.mp hx
  exact Nat.lt_of_lt_of_le (lt_two_of_mem_digits d hd) (by rw [size_symbolContext]; decide)

/-! ## Ranks -/

/-- The symbol of a class. -/
def classSymbol (c : Fin 8) : UInt32 := firstClass + c.val.toUInt32

theorem toNat_classSymbol : ∀ c : Fin 8, (classSymbol c).toNat = 2 + c.val := by decide

theorem two_pow_classOf_le {rank : UInt8} (h : rank ≠ 0) : 2 ^ (classOf rank).val ≤ rank.toNat :=
  Nat.log2_self_le fun h0 => h (UInt8.toNat_inj.mp h0)

theorem lt_two_pow_classOf (rank : UInt8) : rank.toNat < 2 ^ ((classOf rank).val + 1) :=
  Nat.lt_log2_self

/-- A rank that lies in a class is of this class. -/
theorem classOf_eq {rank : UInt8} {c : Fin 8} (hle : 2 ^ c.val ≤ rank.toNat)
    (hlt : rank.toNat < 2 ^ (c.val + 1)) : classOf rank = c := by
  have hpos : rank.toNat ≠ 0 := Nat.ne_of_gt (Nat.lt_of_lt_of_le (Nat.two_pow_pos _) hle)
  exact Fin.ext ((Nat.log2_eq_iff hpos).mpr ⟨hle, hlt⟩)

/-- The rest of a rank behind the symbol of its class. -/
def offsetOf (rank : UInt8) : UInt32 := (rank.toNat - 2 ^ (classOf rank).val).toUInt32

theorem toNat_offsetOf (rank : UInt8) :
    (offsetOf rank).toNat = rank.toNat - 2 ^ (classOf rank).val := by
  have := rank.toNat_lt
  have := Nat.two_pow_pos (classOf rank).val
  rw [offsetOf, Nat.toUInt32_eq, UInt32.toNat_ofNat']
  omega

theorem rankSymbols_of_class_zero {rank : UInt8} (h : (classOf rank).val = 0) :
    rankSymbols rank = [(symbolContext, classSymbol (classOf rank))] := by
  rw [rankSymbols, if_pos h, classSymbol]

theorem rankSymbols_of_class_pos {rank : UInt8} (h : (classOf rank).val ≠ 0) :
    rankSymbols rank = [(symbolContext, classSymbol (classOf rank)),
      (offsetContext (classOf rank), offsetOf rank)] := by
  rw [rankSymbols, if_neg h, classSymbol, offsetOf]

/-- A rank begins with the symbol of its class. -/
theorem exists_rankSymbols (rank : UInt8) :
    ∃ xs, rankSymbols rank = (symbolContext, classSymbol (classOf rank)) :: xs := by
  by_cases h : (classOf rank).val = 0
  · exact ⟨_, rankSymbols_of_class_zero h⟩
  · exact ⟨_, rankSymbols_of_class_pos h⟩

theorem coded_classSymbol (c : Fin 8) : (classSymbol c).toNat < (contexts.get symbolContext).size := by
  have := c.isLt
  rw [toNat_classSymbol, size_symbolContext]
  omega

theorem coded_rankSymbols (rank : UInt8) : Coded (rankSymbols rank) := by
  intro x hx
  by_cases h : (classOf rank).val = 0
  · rw [rankSymbols_of_class_zero h, List.mem_singleton] at hx
    subst hx
    exact coded_classSymbol _
  · rw [rankSymbols_of_class_pos h] at hx
    obtain rfl | hx := List.mem_cons.mp hx
    · exact coded_classSymbol _
    · obtain rfl := List.mem_singleton.mp hx
      have hlt := lt_two_pow_classOf rank
      rw [Nat.pow_succ] at hlt
      have hpos := Nat.two_pow_pos (classOf rank).val
      rw [toNat_offsetOf, size_offsetContext _ h]
      omega

theorem coded_blockEnd : Coded [(symbolContext, blockEnd)] := by
  intro x hx
  obtain rfl := List.mem_singleton.mp hx
  decide

/-! ## Words -/

theorem toNat_byteOfWord (word s : UInt32) (hs : s.toNat < 32) :
    ((word >>> s) &&& 0xFF).toNat = word.toNat / 2 ^ s.toNat % 256 := by
  rw [UInt32.toNat_and, UInt32.toNat_shiftRight, Nat.mod_eq_of_lt hs, Nat.shiftRight_eq_div_pow]
  exact Nat.and_two_pow_sub_one_eq_mod _ 8

theorem coded_wordSymbols (word : UInt32) : Coded (wordSymbols word) := by
  intro x hx
  obtain ⟨s, hs, rfl⟩ := List.mem_map.mp hx
  have hlt : s.toNat < 32 := by
    obtain rfl | rfl | rfl | rfl : s = 24 ∨ s = 16 ∨ s = 8 ∨ s = 0 := by simpa using hs
    all_goals decide
  rw [toNat_byteOfWord word s hlt, size_wordContext]
  exact Nat.mod_lt _ (by decide)

end BlockPress.Rank
