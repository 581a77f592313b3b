import BlockPress.Proofs.Loops
import BlockPress.Proofs.Rotation.Groups
import BlockPress.Proofs.Rotation.Keys
import BlockPress.Rotation.Sorter

/-!
# Keys that are built in place

The keys of one block after the other take up the same storage.  Each word is rolled from the one behind
it, so it is known from its position down to the first, and the first words are put behind the last one
once they are all known.

Main statement: **the keys that are built are those of the block**, whatever the storage held
(`build_eq`), and they tell the group of each rotation (`val_keyGroup`).
-/

namespace BlockPress

open Rotation
open scoped Standard

variable {block : ByteArray}

namespace KeyTable

/-! ## Rolling -/

/-- How far the words have been rolled down, to position `p`. -/
structure Rolled (block : ByteArray) (p : ℕ)
    (s : UInt32 × Vector UInt32 (block.size + wrapSize)) : Prop where
  /-- The last word starts with the three bytes that the next one needs. -/
  high : s.1.toNat / 2 ^ 8 =
    2 ^ 16 * byteAt block p + 2 ^ 8 * byteAt block (p + 1) + byteAt block (p + 2)
  /-- The words from there on are known. -/
  words : ∀ q, ∀ hq : q < block.size + wrapSize, p ≤ q → q < block.size → s.2[q].toNat = wordAt block q

theorem rolled_start (h : 0 < block.size) (words : Vector UInt32 (block.size + wrapSize)) :
    Rolled block block.size (pack (byte block 0 0 h) (byte block 0 1 h) (byte block 0 2 h) 0, words) where
  high := by
    have hwrap (k : ℕ) : byteAt block (block.size + k) = byteAt block (0 + k) := by
      rw [← byteAt_add_mod, Nat.mod_self]
    have h₀ : byteAt block block.size = byteAt block (0 + 0) := hwrap 0
    rw [pack, toNat_word, toNat_byte, toNat_byte, toNat_byte, h₀, hwrap 1, hwrap 2]
    change (_ + 0) / 2 ^ 8 = _
    omega
  words q _ hle hq := absurd hq (Nat.not_lt.mpr hle)

/-- A byte in front of the first three of a word. -/
theorem toNat_push (word : UInt32) (b : UInt8) :
    (word >>> 8 ||| b.toUInt32 <<< 24).toNat = 2 ^ 24 * b.toNat + word.toNat / 2 ^ 8 := by
  have hword := word.toNat_lt
  have hshift : (b.toUInt32 <<< 24).toNat = 2 ^ 24 * b.toNat := toNat_toUInt32_shiftLeft b (by decide)
  rw [UInt32.toNat_or, UInt32.toNat_shiftRight, hshift, Nat.or_comm]
  change 2 ^ 24 * b.toNat ||| word.toNat >>> 8 = _
  rw [Nat.shiftRight_eq_div_pow, ← Nat.two_pow_add_eq_or_of_lt (by omega)]

theorem Rolled.step {p : ℕ} {s : UInt32 × Vector UInt32 (block.size + wrapSize)}
    (h : Rolled block (p + 1) s) (hp : p < block.size) (hp' : p < block.size + wrapSize) :
    Rolled block p (s.1 >>> 8 ||| block[p].toUInt32 <<< 24,
      s.2.set p (s.1 >>> 8 ||| block[p].toUInt32 <<< 24) hp') := by
  have hhigh : s.1.toNat / 2 ^ 8 =
      2 ^ 16 * byteAt block (p + 1) + 2 ^ 8 * byteAt block (p + 2) + byteAt block (p + 3) := h.high
  have hword : (s.1 >>> 8 ||| block[p].toUInt32 <<< 24).toNat = wordAt block p := by
    rw [toNat_push, hhigh, toNat_getElem, wordAt]
    omega
  refine ⟨?_, fun q hq hle hlt => ?_⟩
  · have := byteAt_lt block (p + 3)
    rw [hword, wordAt]
    omega
  · rw [Vector.getElem_set]
    split
    · next heq => rw [hword, heq]
    · next hne => exact h.words q hq (by omega) hlt

theorem toNat_words_roll (h : 0 < block.size) (words : Vector UInt32 (block.size + wrapSize)) {p : ℕ}
    (hp : p < block.size + wrapSize) (hlt : p < block.size) :
    (roll block h words)[p].toNat = wordAt block p :=
  (foldRev_invariant (Rolled block) (rolled_start h words) fun _ hi _ h =>
    h.step hi (Nat.lt_add_right _ hi)).words p hp (Nat.zero_le p) hlt

/-! ## The words behind the last one -/

theorem wordAt_size_add (block : ByteArray) (p : ℕ) : wordAt block (block.size + p) = wordAt block p := by
  have hreading : reading block (block.size + p) = reading block p := by
    rw [← reading_mod, Nat.add_mod_left, reading_mod]
  exact Nat.le_antisymm (wordAt_le_of_reading_le hreading.le) (wordAt_le_of_reading_le hreading.ge)

/-- What has been put behind the last word, up to the word of position `i`. -/
structure Mirrored {n : ℕ} (words : Vector UInt32 (n + wrapSize)) (i : ℕ)
    (v : Vector UInt32 (n + wrapSize)) : Prop where
  /-- The words of the block stay. -/
  front : ∀ p, ∀ hp : p < n + wrapSize, p < n → v[p] = words[p]
  /-- The first words stand behind them. -/
  back : ∀ p, ∀ hp : p < n + wrapSize, ∀ hp' : n + p < n + wrapSize, p < i → v[n + p] = words[p]

theorem mirrored_mirror {n : ℕ} (h : wrapSize ≤ n) (words : Vector UInt32 (n + wrapSize)) :
    Mirrored words wrapSize (mirror words) := by
  refine fold_invariant (Mirrored words)
    ⟨fun _ _ _ => rfl, fun _ _ _ hlt => absurd hlt (Nat.not_lt_zero _)⟩
    fun i hi v ih => ⟨fun p hp hlt => ?_, fun p hp hp' hlt => ?_⟩
  · rw [Vector.getElem_set_ne _ _ (by omega), ih.front p hp hlt]
  · rw [Vector.getElem_set]
    split
    · next heq =>
      obtain rfl : i = p := by omega
      exact ih.front i hp (by omega)
    · next hne => exact ih.back p hp hp' (by omega)

/-! ## Building -/

/-- **The keys that are built are those of the block.** -/
theorem build_eq (h : wrapSize ≤ block.size) (h' : 0 < block.size) (s : KeyStore) :
    build block h s = ofBlock block h' := by
  obtain ⟨words, tagged⟩ := s
  rw [build, KeyTable.mk.injEq]
  refine ⟨Vector.ext fun p hp => UInt32.toNat_inj.mp ?_, Vector.ext fun b hb => ?_⟩
  · have hmirror := mirrored_mirror h
      (roll block h' ⟨words.shrink 0 ++ Array.replicate (block.size + wrapSize) 0, by simp⟩)
    rw [toNat_words_ofBlock h' hp]
    by_cases hlt : p < block.size
    · rw [hmirror.front p hp hlt, toNat_words_roll h' _ hp hlt]
    · obtain ⟨q, rfl⟩ := Nat.exists_eq_add_of_le (Nat.not_lt.mp hlt)
      have hq : q < wrapSize := by omega
      have hq' : q < block.size + wrapSize := by omega
      rw [hmirror.back q hq' hp hq, toNat_words_roll h' _ hq' (by omega), wordAt_size_add]
  · rw [Vector.getElem_map, ofBlock, Vector.getElem_replicate]

end KeyTable

namespace Rotation

/-- **The keys of a block tell the group of each rotation.** -/
theorem val_keyGroup (h : 0 < block.size) (p : ℕ) (hp : p < block.size) :
    (keyGroup (KeyTable.ofBlock block h) p hp).val = groupAt block p := by
  have := byteAt_lt block (p + 2)
  have := byteAt_lt block (p + 3)
  rw [keyGroup]
  change ((KeyTable.ofBlock block h).words[p] >>> 16).toNat = _
  rw [UInt32.toNat_shiftRight, KeyTable.toNat_words_ofBlock h]
  change KeyTable.wordAt block p >>> 16 = _
  rw [Nat.shiftRight_eq_div_pow, KeyTable.wordAt, groupAt]
  omega

end Rotation

end BlockPress
