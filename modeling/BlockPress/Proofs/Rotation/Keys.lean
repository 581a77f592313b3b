import BlockPress.Proofs.Rotation.Reading
import BlockPress.Proofs.Sorting.Rearranging
import BlockPress.Proofs.Word
import BlockPress.Rotation.KeyTable

/-!
# What keys say about rotations

A table of keys is `Faithful` to a block when its words never contradict the order of the rotations
and equal words show as many equal bytes as a comparison then skips.  The words of the block itself
are faithful (`faithful_ofBlock`), and **making tags of all rotations with one leading byte keeps a
table faithful if they are in order** (`Faithful.tag`).

Main statement: `compare` fits the order of the rotations (`Faithful.compare`).
-/

namespace BlockPress.KeyTable

open Rotation Sorting
open scoped Standard

variable {block : ByteArray}

/-- The words of a table do not contradict the order of the rotations of a block. -/
structure Faithful (block : ByteArray) (t : KeyTable block.size) : Prop where
  /-- A word starts with the byte of its position. -/
  leading_eq : ∀ p, ∀ hp : p < block.size + wrapSize, (leading t.words[p]).toNat = byteAt block p
  /-- The smaller word does not belong to the greater rotation. -/
  le_of_lt : ∀ p q, ∀ hp : p < block.size + wrapSize, ∀ hq : q < block.size + wrapSize,
    t.words[p] < t.words[q] → reading block p ≤ reading block q
  /-- Equal words belong to rotations that agree on their first bytes. -/
  agree_of_eq : ∀ p q, ∀ hp : p < block.size + wrapSize, ∀ hq : q < block.size + wrapSize,
    t.words[p] = t.words[q] → Agree block (t.stride t.words[p]) p q

/-! ## Four bytes -/

theorem toNat_leading (word : UInt32) : (leading word).toNat = word.toNat / 2 ^ 24 := by
  have hlt := word.toNat_lt
  rw [leading, UInt32.toNat_toUInt8, UInt32.toNat_shiftRight]
  change word.toNat >>> 24 % 2 ^ 8 = _
  rw [Nat.shiftRight_eq_div_pow]
  omega

/-- The number of the four bytes at a position. -/
def wordAt (block : ByteArray) (p : ℕ) : ℕ :=
  2 ^ 24 * byteAt block p + 2 ^ 16 * byteAt block (p + 1) + 2 ^ 8 * byteAt block (p + 2) +
    byteAt block (p + 3)

theorem agree_of_wordAt_eq {p q : ℕ} (h : wordAt block p = wordAt block q) : Agree block 4 p q := by
  have hp (k : ℕ) := byteAt_lt block (p + k)
  have hq (k : ℕ) := byteAt_lt block (q + k)
  have := hp 0
  have := hp 1
  have := hp 2
  have := hp 3
  have := hq 0
  have := hq 1
  have := hq 2
  have := hq 3
  rw [wordAt, wordAt] at h
  intro k hk
  obtain rfl | rfl | rfl | rfl : k = 0 ∨ k = 1 ∨ k = 2 ∨ k = 3 := by omega
  all_goals simp only [Nat.add_zero] at *; omega

theorem wordAt_le_of_reading_le {p q : ℕ} (h : reading block p ≤ reading block q) :
    wordAt block p ≤ wordAt block q := by
  obtain hlt | heq := lt_or_eq_of_le h
  · obtain ⟨k, hk, hlt⟩ := reading_lt_iff.mp hlt
    have hp (k : ℕ) := byteAt_lt block (p + k)
    have := hp 1
    have := hp 2
    have := hp 3
    rw [wordAt, wordAt]
    by_cases hk4 : 4 ≤ k
    · have h₀ := hk 0 (by omega)
      have h₁ := hk 1 (by omega)
      have h₂ := hk 2 (by omega)
      have h₃ := hk 3 (by omega)
      rw [Nat.add_zero, Nat.add_zero] at h₀
      omega
    have h₀ := hk 0
    have h₁ := hk 1
    have h₂ := hk 2
    obtain rfl | rfl | rfl | rfl : k = 0 ∨ k = 1 ∨ k = 2 ∨ k = 3 := by omega
    all_goals simp only [Nat.add_zero] at *; omega
  · have hbyte := reading_eq_iff.mp heq
    have h₀ := hbyte 0
    rw [Nat.add_zero, Nat.add_zero] at h₀
    rw [wordAt, wordAt, h₀, hbyte 1, hbyte 2, hbyte 3]

theorem toNat_words_ofBlock (h : 0 < block.size) {p : ℕ} (hp : p < block.size + wrapSize) :
    ((ofBlock block h).words[p]).toNat = wordAt block p := by
  simp only [ofBlock, Vector.getElem_ofFn, pack, toNat_word, toNat_byte, Nat.add_zero]
  rfl

/-- **The words of a block are faithful.** -/
theorem faithful_ofBlock (h : 0 < block.size) : (ofBlock block h).Faithful block where
  leading_eq p hp := by
    have := byteAt_lt block (p + 1)
    have := byteAt_lt block (p + 2)
    have := byteAt_lt block (p + 3)
    rw [toNat_leading, toNat_words_ofBlock h hp, wordAt]
    omega
  le_of_lt p q hp hq hlt := by
    by_contra hle
    have hword := wordAt_le_of_reading_le (le_of_lt (not_le.mp hle))
    have hlt' : ((ofBlock block h).words[p]).toNat < ((ofBlock block h).words[q]).toNat := hlt
    rw [toNat_words_ofBlock h hp, toNat_words_ofBlock h hq] at hlt'
    omega
  agree_of_eq p q hp hq heq := by
    have heq' := congrArg UInt32.toNat heq
    rw [toNat_words_ofBlock h hp, toNat_words_ofBlock h hq] at heq'
    exact (agree_of_wordAt_eq heq').mono (stride_le _ _)

/-! ## Comparing through keys -/

namespace Faithful

variable {t : KeyTable block.size}

theorem word_fits (h : t.Faithful block) {p q : ℕ} (hp : p < block.size + wrapSize)
    (hq : q < block.size + wrapSize) (hne : t.words[p] ≠ t.words[q]) :
    Fits (if t.words[p] < t.words[q] then .lt else .gt) (reading block p) (reading block q) := by
  split
  · next hlt => exact h.le_of_lt p q hp hq hlt
  · next hge => exact h.le_of_lt q p hq hp (UInt32.lt_of_le_of_ne (UInt32.not_lt.mp hge) hne.symm)

/-- What the outcome of a batch says about the rotations that it started from. -/
def Tells (block : ByteArray) (a b : ℕ) : Batch → Prop
  | .decided order => Fits order (reading block a) (reading block b)
  | .level length _ => Agree block length a b

/-- Fitting the rests of rotations with a common prefix is fitting the rotations. -/
theorem fits_of_agree {o : Ordering} {a b d : ℕ} (h : Agree block d a b)
    (ho : Fits o (reading block (a + d)) (reading block (b + d))) :
    Fits o (reading block a) (reading block b) := by
  cases o with
  | lt => exact (reading_le_iff_of_agree h).mpr ho
  | eq =>
    have heq : reading block (a + d) = reading block (b + d) := ho
    exact le_antisymm ((reading_le_iff_of_agree h).mpr heq.le)
      ((reading_le_iff_of_agree h.symm).mpr heq.ge)
  | gt => exact (reading_le_iff_of_agree h.symm).mpr ho

theorem tells_batchFrom (h : t.Faithful block) {x y left length : ℕ} (hpos : 0 < left + length)
    (ha : x + length + 4 * left ≤ block.size + wrapSize)
    (hb : y + length + 4 * left ≤ block.size + wrapSize) (hagree : Agree block length x y) :
    Tells block x y (t.batchFrom left (x + length) (y + length) length hpos ha hb) := by
  induction left generalizing length with
  | zero => exact hagree
  | succ left ih =>
    have hx : x + length < block.size + wrapSize := by omega
    have hy : y + length < block.size + wrapSize := by omega
    rw [batchFrom]
    split
    · next heq =>
      have hstride := h.agree_of_eq _ _ hx hy heq
      simp only [Nat.add_assoc]
      exact ih _ _ _ (hagree.add hstride)
    · next hne => exact fits_of_agree hagree (h.word_fits hx hy hne)

theorem tells_batch (h : t.Faithful block) {a b : ℕ} (ha : a < block.size) (hb : b < block.size) :
    Tells block a b (t.batchFrom batchSize a b 0 (by decide)
      (by simp only [batchSize, wrapSize]; omega) (by simp only [batchSize, wrapSize]; omega)) := by
  have hagree : Agree block 0 a b := fun _ hk => absurd hk (Nat.not_lt_zero _)
  exact h.tells_batchFrom _ _ _ hagree

theorem fits_compareFrom (h : t.Faithful block) {x y compared : ℕ} (a b : ℕ) (ha : a < block.size)
    (hb : b < block.size) (hxa : reading block (x + compared) = reading block a)
    (hyb : reading block (y + compared) = reading block b) (hagree : Agree block compared x y) :
    Fits (t.compareFrom a b compared ha hb) (reading block x) (reading block y) := by
  fun_induction compareFrom t a b compared ha hb with
  | case1 a b compared ha hb hlt order hbatch =>
    have htells := h.tells_batch ha hb
    rw [hbatch] at htells
    refine fits_of_agree hagree ?_
    rwa [hxa, hyb]
  | case2 a b compared ha hb hlt length hpos hbatch hn ih =>
    have htells := h.tells_batch ha hb
    rw [hbatch] at htells
    refine ih ?_ ?_ (hagree.add (Agree.congr htells hxa hyb))
    · rw [reading_mod, ← Nat.add_assoc]
      exact reading_add_eq hxa length
    · rw [reading_mod, ← Nat.add_assoc]
      exact reading_add_eq hyb length
  | case3 a b compared ha hb hge => exact reading_eq_of_agree hagree (by omega)

/-- **Comparing through faithful keys fits the order of the rotations**, once their first bytes are
known to agree. -/
theorem fits_compare [NeZero block.size] (h : t.Faithful block) {depth a b : ℕ}
    (hagree : Agree block depth a b) :
    Fits (t.compare depth a b) (reading block a) (reading block b) := by
  rw [compare]
  split
  · next heq => exact congrArg (reading block) heq
  · refine fits_of_agree hagree ?_
    rw [← reading_mod block (a + depth), ← reading_mod block (b + depth)]
    exact h.fits_compareFrom _ _ _ _ rfl rfl fun _ hk => absurd hk (Nat.not_lt_zero _)

/-- The rotation with the smaller word is not the greater one. -/
theorem le_of_key_lt [NeZero block.size] (h : t.Faithful block) {depth a b : ℕ}
    (hagree : Agree block depth a b) (hlt : t.key a depth < t.key b depth) :
    reading block a ≤ reading block b := by
  rw [reading_le_iff_of_agree hagree, ← reading_mod block (a + depth), ← reading_mod block (b + depth)]
  exact h.le_of_lt _ _ _ _ hlt

/-- Where the words are equal, the rotations agree further. -/
theorem agree_deeper [NeZero block.size] (h : t.Faithful block) {depth a b : ℕ}
    (hagree : Agree block depth a b) (heq : t.key a depth = t.key b depth) :
    Agree block (depth + t.stride (t.key a depth)) a b :=
  hagree.add (Agree.congr (h.agree_of_eq _ _ _ _ heq) (reading_mod block (a + depth)).symm
    (reading_mod block (b + depth)).symm)

end Faithful

/-! ## Tags -/

theorem rank_shiftRight_lt {size rank : ℕ} (h : rank < size) : rank >>> rankShift size < 2 ^ 16 := by
  have hlog : rank < 2 ^ ((size - 1).log2 + 1) := Nat.lt_of_le_of_lt (by omega) Nat.lt_log2_self
  have hpow : 2 ^ ((size - 1).log2 + 1) ≤ 2 ^ (rankShift size + 16) :=
    Nat.pow_le_pow_right (by omega) (by rw [rankShift]; omega)
  rw [Nat.shiftRight_eq_div_pow]
  refine Nat.div_lt_of_lt_mul ?_
  rw [← Nat.pow_add]
  omega

theorem toNat_tagOf {lead : UInt8} {shift rank : ℕ} (h : rank >>> shift < 2 ^ 16) :
    (tagOf lead shift rank).toNat = 2 ^ 24 * lead.toNat + 2 ^ 8 * (rank >>> shift) := by
  have hlead : (lead.toUInt32 <<< 24).toNat = 2 ^ 24 * lead.toNat :=
    toNat_toUInt32_shiftLeft lead (by decide)
  have hrank : ((rank >>> shift).toUInt32 <<< 8).toNat = 2 ^ 8 * (rank >>> shift) := by
    rw [UInt32.toNat_shiftLeft, Nat.toUInt32_eq, UInt32.toNat_ofNat',
      Nat.mod_eq_of_lt (show rank >>> shift < 2 ^ 32 by omega)]
    change (rank >>> shift) <<< 8 % 2 ^ 32 = _
    rw [Nat.shiftLeft_eq]
    omega
  rw [tagOf, UInt32.toNat_or, hlead, hrank, Nat.two_pow_add_eq_or_of_lt (by omega)]

section Tagging

variable {n : ℕ}

theorem getElem_setWord (hn : wrapSize ≤ n) (words : Vector UInt32 (n + wrapSize)) (o : Fin n)
    (word : UInt32) {p : ℕ} (hp : p < n + wrapSize) :
    (setWord words o word)[p] = if o.val = p % n then word else words[p] := by
  have ho := o.isLt
  obtain hlt | hge := Nat.lt_or_ge p n
  · rw [Nat.mod_eq_of_lt hlt, setWord]
    split
    · rw [Vector.getElem_set_ne _ _ (by omega), Vector.getElem_set]
    · rw [Vector.getElem_set]
  · have hmod : p % n = p - n := by
      rw [Nat.mod_eq_sub_mod hge, Nat.mod_eq_of_lt (by omega)]
    rw [hmod, setWord]
    split
    · rw [Vector.getElem_set, Vector.getElem_set_ne _ _ (by omega)]
      exact if_congr (by omega) rfl rfl
    · rw [Vector.getElem_set_ne _ _ (by omega), if_neg (by omega)]

/-- Tags the words of one more rotation. -/
def tagNext (lead : UInt8) (shift : ℕ) (state : Vector UInt32 (n + wrapSize) × ℕ) (o : Fin n) :
    Vector UInt32 (n + wrapSize) × ℕ :=
  (setWord state.1 o (tagOf lead shift state.2), state.2 + 1)

variable {lead : UInt8} {shift : ℕ} {group : List (Fin n)}

theorem getElem_tagged_of_ne (hn : wrapSize ≤ n) (state : Vector UInt32 (n + wrapSize) × ℕ) {p : ℕ}
    (hp : p < n + wrapSize) (h : ∀ o ∈ group, o.val ≠ p % n) :
    (group.foldl (tagNext lead shift) state).1[p] = state.1[p] := by
  induction group generalizing state with
  | nil => rfl
  | cons o group ih =>
    rw [List.foldl_cons, ih _ fun o' ho' => h o' (List.mem_cons_of_mem o ho'), tagNext,
      getElem_setWord hn, if_neg (h o List.mem_cons_self)]

theorem getElem_tagged (hn : wrapSize ≤ n) (state : Vector UInt32 (n + wrapSize) × ℕ) {p : ℕ}
    (hp : p < n + wrapSize) (hnodup : group.Nodup) {i : ℕ} (hi : i < group.length)
    (h : group[i].val = p % n) :
    (group.foldl (tagNext lead shift) state).1[p] = tagOf lead shift (state.2 + i) := by
  induction group generalizing state i with
  | nil => exact absurd hi (Nat.not_lt_zero i)
  | cons o group ih =>
    obtain ⟨hnot, hnodup'⟩ := List.nodup_cons.mp hnodup
    rw [List.foldl_cons]
    cases i with
    | zero =>
      have ho : o.val = p % n := h
      rw [getElem_tagged_of_ne hn, tagNext, getElem_setWord hn, if_pos ho, Nat.add_zero]
      rintro o' ho' heq
      exact hnot (Fin.ext (ho.trans heq.symm) ▸ ho')
    | succ i =>
      rw [ih _ hnodup' (Nat.lt_of_succ_lt_succ hi) h, tagNext, Nat.add_assoc, Nat.add_comm 1]

theorem tag_eq (t : KeyTable n) (lead : UInt8) (group : Array (Fin n)) :
    t.tag lead group =
      ⟨(group.toList.foldl (tagNext lead (rankShift group.size)) (t.words, 0)).1,
        t.tagged.set lead.toNat true lead.toNat_lt⟩ := by
  rw [tag, ← Array.foldl_toList]
  rfl

end Tagging

/-- The rotations that start with a byte, in their order. -/
structure Lists (block : ByteArray) (lead : UInt8) (group : List (Fin block.size)) : Prop where
  /-- No rotation is listed twice. -/
  nodup : group.Nodup
  /-- The rotations of the list are those that start with the byte. -/
  mem_iff : ∀ o : Fin block.size, o ∈ group ↔ byteAt block o = lead.toNat
  /-- They are in order. -/
  sorted : group.Pairwise fun o o' : Fin block.size => reading block o ≤ reading block o'

namespace Lists

variable {lead : UInt8} {group : Array (Fin block.size)} {p : ℕ}

/-- A word that becomes a tag has the rank of its rotation. -/
theorem words_tag (h : Lists block lead group.toList) (hn : wrapSize ≤ block.size)
    (t : KeyTable block.size) (hp : p < block.size + wrapSize) (hlead : byteAt block p = lead.toNat) :
    ∃ i, ∃ hi : i < group.size, group[i].val = p % block.size ∧
      (t.tag lead group).words[p] = tagOf lead (rankShift group.size) i := by
  have hpos : 0 < block.size := Nat.lt_of_lt_of_le (by decide) hn
  have hmem := (h.mem_iff ⟨p % block.size, Nat.mod_lt _ hpos⟩).mpr (by rwa [byteAt_mod])
  obtain ⟨i, hi, heq⟩ := List.getElem_of_mem hmem
  have hval : (group.toList[i]).val = p % block.size := congrArg Fin.val heq
  refine ⟨i, hi, hval, ?_⟩
  simp only [tag_eq]
  rw [getElem_tagged hn _ hp h.nodup hi hval, Nat.zero_add]

/-- The other words stay. -/
theorem words_tag_of_ne (h : Lists block lead group.toList) (hn : wrapSize ≤ block.size)
    (t : KeyTable block.size) (hp : p < block.size + wrapSize) (hlead : byteAt block p ≠ lead.toNat) :
    (t.tag lead group).words[p] = t.words[p] := by
  simp only [tag_eq]
  refine getElem_tagged_of_ne hn _ hp fun o ho heq => hlead ?_
  rw [← byteAt_mod, ← heq]
  exact (h.mem_iff o).mp ho

end Lists

theorem stride_tag {n : ℕ} (t : KeyTable n) {lead : UInt8} (group : Array (Fin n)) (word : UInt32) :
    (t.tag lead group).stride word = if leading word = lead then 1 else t.stride word := by
  rw [tag_eq, stride, isTagged, stride, isTagged]
  simp only [Vector.getElem_set, UInt8.toNat_inj]
  by_cases hlead : leading word = lead
  · rw [if_pos hlead.symm, if_pos hlead]
    rfl
  · rw [if_neg (Ne.symm hlead), if_neg hlead]

namespace Faithful

variable {t : KeyTable block.size}

/-- A table whose words start with the byte of their position need only be looked at where those bytes
are equal. -/
theorem of_leading (hlead : ∀ p, ∀ hp : p < block.size + wrapSize,
      (leading t.words[p]).toNat = byteAt block p)
    (hle : ∀ p q, ∀ hp : p < block.size + wrapSize, ∀ hq : q < block.size + wrapSize,
      byteAt block p = byteAt block q → t.words[p] < t.words[q] → reading block p ≤ reading block q)
    (hagree : ∀ p q, ∀ hp : p < block.size + wrapSize, ∀ hq : q < block.size + wrapSize,
      byteAt block p = byteAt block q → t.words[p] = t.words[q] →
        Agree block (t.stride t.words[p]) p q) : t.Faithful block where
  leading_eq := hlead
  le_of_lt p q hp hq hlt := by
    have hwords : t.words[p].toNat < t.words[q].toNat := hlt
    have hdiv := Nat.div_le_div_right (c := 2 ^ 24) hwords.le
    rw [← toNat_leading, ← toNat_leading, hlead p hp, hlead q hq] at hdiv
    obtain hlt' | heq := Nat.lt_or_eq_of_le hdiv
    · exact (reading_lt_iff.mpr ⟨0, fun _ hk => absurd hk (Nat.not_lt_zero _), hlt'⟩).le
    · exact hle p q hp hq heq hlt
  agree_of_eq p q hp hq heq := by
    refine hagree p q hp hq ?_ heq
    rw [← hlead p hp, ← hlead q hq, heq]

/-- **Making tags of the rotations with one leading byte keeps a table faithful.** -/
theorem tag (h : t.Faithful block) (hn : wrapSize ≤ block.size) {lead : UInt8}
    {group : Array (Fin block.size)} (hlists : Lists block lead group.toList) :
    (t.tag lead group).Faithful block := by
  refine of_leading (fun p hp => ?_) (fun p q hp hq hpq hlt => ?_) fun p q hp hq hpq heq => ?_
  · by_cases hlead : byteAt block p = lead.toNat
    · obtain ⟨i, hi, -, hword⟩ := hlists.words_tag hn t hp hlead
      have hrank := rank_shiftRight_lt hi
      rw [toNat_leading, hword, toNat_tagOf hrank, hlead]
      omega
    · rw [hlists.words_tag_of_ne hn t hp hlead]
      exact h.leading_eq p hp
  · by_cases hlead : byteAt block p = lead.toNat
    · obtain ⟨i, hi, hip, hwordp⟩ := hlists.words_tag hn t hp hlead
      obtain ⟨j, hj, hjq, hwordq⟩ := hlists.words_tag hn t hq (hpq ▸ hlead)
      have hlt' : ((t.tag lead group).words[p]).toNat < ((t.tag lead group).words[q]).toNat := hlt
      rw [hwordp, hwordq, toNat_tagOf (rank_shiftRight_lt hi),
        toNat_tagOf (rank_shiftRight_lt hj), Nat.shiftRight_eq_div_pow,
        Nat.shiftRight_eq_div_pow] at hlt'
      have hij : i < j := by
        by_contra hle
        have := Nat.div_le_div_right (c := 2 ^ rankShift group.size) (Nat.not_lt.mp hle)
        omega
      have hsorted := List.pairwise_iff_getElem.mp hlists.sorted i j hi hj hij
      simp only [Array.getElem_toList, hip, hjq, reading_mod] at hsorted
      exact hsorted
    · rw [hlists.words_tag_of_ne hn t hp hlead,
        hlists.words_tag_of_ne hn t hq (hpq ▸ hlead)] at hlt
      exact h.le_of_lt p q hp hq hlt
  · rw [stride_tag]
    by_cases hlead : byteAt block p = lead.toNat
    · obtain ⟨i, hi, -, hword⟩ := hlists.words_tag hn t hp hlead
      have hrank := rank_shiftRight_lt hi
      have hleading : leading (t.tag lead group).words[p] = lead := by
        rw [← UInt8.toNat_inj, toNat_leading, hword, toNat_tagOf hrank]
        omega
      rw [if_pos hleading]
      intro k hk
      obtain rfl : k = 0 := by omega
      exact hpq
    · rw [hlists.words_tag_of_ne hn t hp hlead] at heq ⊢
      rw [hlists.words_tag_of_ne hn t hq (hpq ▸ hlead)] at heq
      have hleading : leading t.words[p] ≠ lead := by
        rw [← h.leading_eq p hp] at hlead
        exact fun heq => hlead (congrArg UInt8.toNat heq)
      rw [if_neg hleading]
      exact h.agree_of_eq p q hp hq heq

end Faithful

end BlockPress.KeyTable
