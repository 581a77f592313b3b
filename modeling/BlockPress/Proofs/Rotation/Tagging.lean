import BlockPress.Proofs.Rotation.Building

/-!
# Comparing while groups become tags

However many groups have become tags, and in whatever order, the keys of a block tell two rotations
that differ apart as their bytes do; before the first of them they find ties as well.  A comparison
takes its words from positions that move on by strides and wrap around once for each batch.
`compareChecked` asks for every word by its position and gives up where there is none, and so does
`tagChecked` when it sets words; **neither ever gives up** (`compareChecked_eq`, `tagChecked_eq`).

Main statement: **keys compare as bytes do at every stage of tagging** (`compare_tagAll`).
-/

namespace BlockPress.KeyTable

open Rotation Sorting
open scoped Standard

variable {n : ℕ} {block : ByteArray}

/-! ## Groups in any order -/

/-- Makes the words of groups tags, one group after the other. -/
def tagAll (t : KeyTable n) (groups : List (UInt8 × Array (Fin n))) : KeyTable n :=
  groups.foldl (fun t g => t.tag g.1 g.2) t

theorem Faithful.tagAll {t : KeyTable block.size} (h : t.Faithful block)
    (hn : wrapSize ≤ block.size) {groups : List (UInt8 × Array (Fin block.size))}
    (hgroups : ∀ g ∈ groups, Lists block g.1 g.2.toList) : (t.tagAll groups).Faithful block := by
  induction groups generalizing t with
  | nil => exact h
  | cons g groups ih =>
    exact ih (h.tag hn (hgroups g List.mem_cons_self)) fun g' hg' =>
      hgroups g' (List.mem_cons_of_mem g hg')

/-- An outcome that fits rotations that differ is the outcome of comparing them. -/
theorem eq_compare_of_fits {o : Ordering} {a b : ℕ} (h : Fits o (reading block a) (reading block b))
    (hne : reading block a ≠ reading block b) : o = Rotation.compare block a b := by
  rw [compare_eq_cmp]
  cases o with
  | lt => exact ((cmp_eq_lt_iff _ _).mpr (lt_of_le_of_ne h hne)).symm
  | eq => exact absurd h hne
  | gt => exact ((cmp_eq_gt_iff _ _).mpr (lt_of_le_of_ne h hne.symm)).symm

/-! ## Ties without tags -/

/-- Without tags, words are equal where the rotations are. -/
theorem words_ofBlock_eq (h : 0 < block.size) {p q : ℕ} (hp : p < block.size + wrapSize)
    (hq : q < block.size + wrapSize) (heq : reading block p = reading block q) :
    (ofBlock block h).words[p] = (ofBlock block h).words[q] := by
  refine UInt32.toNat_inj.mp ?_
  rw [toNat_words_ofBlock h hp, toNat_words_ofBlock h hq]
  exact Nat.le_antisymm (wordAt_le_of_reading_le heq.le) (wordAt_le_of_reading_le heq.ge)

/-- A batch that starts in the block ends among the words. -/
theorem batch_fits {a : ℕ} (ha : a < n) : a + 4 * batchSize ≤ n + wrapSize := by
  simp only [batchSize, wrapSize]
  omega

theorem exists_level_of_tie (h : 0 < block.size) {left a b length : ℕ} (hpos : 0 < left + length)
    (ha : a + 4 * left ≤ block.size + wrapSize) (hb : b + 4 * left ≤ block.size + wrapSize)
    (heq : reading block a = reading block b) :
    ∃ l pos, (ofBlock block h).batchFrom left a b length hpos ha hb = .level l pos := by
  induction left generalizing a b length with
  | zero => exact ⟨length, Nat.zero_add length ▸ hpos, rfl⟩
  | succ left ih =>
    rw [batchFrom]
    dsimp only
    rw [if_pos (words_ofBlock_eq h (by omega) (by omega) heq)]
    exact ih _ _ _ (reading_add_eq heq _)

theorem compareFrom_ofBlock_of_tie (h : 0 < block.size) {a b compared : ℕ} (ha : a < block.size)
    (hb : b < block.size) (heq : reading block a = reading block b) :
    (ofBlock block h).compareFrom a b compared ha hb = .eq := by
  fun_induction compareFrom (ofBlock block h) a b compared ha hb with
  | case1 a b compared ha hb hlt order hbatch =>
    obtain ⟨l, pos, hlevel⟩ := exists_level_of_tie h (show 0 < batchSize + 0 by decide)
      (batch_fits ha) (batch_fits hb) heq
    rw [hlevel] at hbatch
    cases hbatch
  | case2 a b compared ha hb hlt length hpos hbatch hn ih =>
    refine ih ?_
    rw [reading_mod, reading_mod]
    exact reading_add_eq heq length
  | case3 a b compared ha hb hge => rfl

/-- **Without tags, rotations that tie are found to tie.** -/
theorem compare_ofBlock_of_tie [NeZero block.size] (h : 0 < block.size) {a b : ℕ}
    (heq : reading block a = reading block b) (depth : ℕ) :
    (ofBlock block h).compare depth a b = .eq := by
  rw [compare]
  split
  · rfl
  · refine compareFrom_ofBlock_of_tie h _ _ ?_
    rw [reading_mod, reading_mod]
    exact reading_add_eq heq depth

/-! ## Positions -/

/-- Compares like `batchFrom`, from positions that may have no word. -/
def batchChecked (t : KeyTable n) : (left a b length : ℕ) → 0 < left + length → Option Batch
  | 0, _, _, length, h => some (.level length (by omega))
  | left + 1, a, b, length, _ =>
    match t.words[a]?, t.words[b]? with
    | some x, some y =>
      if x = y then
        have := t.stride_pos x
        batchChecked t left (a + t.stride x) (b + t.stride x) (length + t.stride x) (by omega)
      else some (.decided (if x < y then .lt else .gt))
    | _, _ => none

/-- A position that is taken back by a turn once it has passed the end. -/
def wrapped (n p : ℕ) : ℕ := if n ≤ p then p - n else p

/-- Compares like `compareFrom`, from positions that may have no word. -/
def compareCheckedFrom (t : KeyTable n) (a b compared : ℕ) : Option Ordering :=
  if compared < n then
    match t.batchChecked batchSize a b 0 (by decide) with
    | none => none
    | some (.decided order) => some order
    | some (.level length _) =>
      compareCheckedFrom t (wrapped n (a + length)) (wrapped n (b + length)) (compared + length)
  else some .eq
termination_by n - compared

/-- Compares like `compare`, and gives up at a position that has no word. -/
def compareChecked (t : KeyTable n) (depth a b : ℕ) : Option Ordering :=
  if a = b then some .eq else t.compareCheckedFrom ((a + depth) % n) ((b + depth) % n) 0

theorem batchChecked_eq (t : KeyTable n) {left a b length : ℕ} (h : 0 < left + length)
    (ha : a + 4 * left ≤ n + wrapSize) (hb : b + 4 * left ≤ n + wrapSize) :
    t.batchChecked left a b length h = some (t.batchFrom left a b length h ha hb) := by
  induction left generalizing a b length with
  | zero => rfl
  | succ left ih =>
    have hx : a < n + wrapSize := by omega
    have hy : b < n + wrapSize := by omega
    rw [batchChecked, batchFrom, Vector.getElem?_eq_getElem hx, Vector.getElem?_eq_getElem hy]
    dsimp only
    split
    · exact ih _ _ _
    · rfl

/-- A batch goes on by at most four bytes for each pair of words. -/
theorem length_le_of_level (t : KeyTable n) {left a b length l : ℕ} {pos : 0 < l}
    (h : 0 < left + length) (ha : a + 4 * left ≤ n + wrapSize) (hb : b + 4 * left ≤ n + wrapSize)
    (hlevel : t.batchFrom left a b length h ha hb = .level l pos) : l ≤ length + 4 * left := by
  induction left generalizing a b length with
  | zero =>
    cases hlevel
    exact Nat.le_refl _
  | succ left ih =>
    rw [batchFrom] at hlevel
    split at hlevel
    · have hle := ih _ _ _ hlevel
      have hx : a < n + wrapSize := by omega
      have hstride := t.stride_le t.words[a]
      omega
    · cases hlevel

theorem wrapped_eq_mod {p : ℕ} (h : p < 2 * n) : wrapped n p = p % n := by
  rw [wrapped]
  split
  · next hle => rw [Nat.mod_eq_sub_mod hle, Nat.mod_eq_of_lt (by omega)]
  · next hlt => exact (Nat.mod_eq_of_lt (Nat.not_le.mp hlt)).symm

theorem compareCheckedFrom_eq (t : KeyTable n) (hn : wrapSize ≤ n) {a b compared : ℕ} (ha : a < n)
    (hb : b < n) : t.compareCheckedFrom a b compared = some (t.compareFrom a b compared ha hb) := by
  fun_induction compareFrom t a b compared ha hb with
  | case1 a b compared ha hb hlt order hbatch =>
    rw [compareCheckedFrom, if_pos hlt, t.batchChecked_eq _ (batch_fits ha) (batch_fits hb), hbatch]
  | case2 a b compared ha hb hlt length hpos hbatch hpos' ih =>
    have hle : length ≤ wrapSize := t.length_le_of_level _ _ _ hbatch
    rw [compareCheckedFrom, if_pos hlt, t.batchChecked_eq _ (batch_fits ha) (batch_fits hb), hbatch]
    dsimp only
    rw [wrapped_eq_mod (by omega), wrapped_eq_mod (by omega), ih]
  | case3 a b compared ha hb hge => rw [compareCheckedFrom, if_neg hge]

/-- **A comparison never leaves the words**, and wrapping by a turn is enough. -/
theorem compareChecked_eq [NeZero n] (t : KeyTable n) (hn : wrapSize ≤ n) (depth a b : ℕ) :
    t.compareChecked depth a b = some (t.compare depth a b) := by
  rw [compareChecked, compare]
  split
  · rfl
  · exact t.compareCheckedFrom_eq hn _ _

/-- Sets a word, if its position is one. -/
def setChecked (words : Array UInt32) (p : ℕ) (word : UInt32) : Option (Array UInt32) :=
  if h : p < words.size then some (words.set p word) else none

/-- Makes the words of a list of offsets tags, from a rank on. -/
def tagChecked (n : ℕ) (lead : UInt8) (shift : ℕ) :
    (rank : ℕ) → List ℕ → Array UInt32 → Option (Array UInt32)
  | _, [], words => some words
  | rank, o :: group, words => do
    let words ← setChecked words o (tagOf lead shift rank)
    let words ← if o < wrapSize then setChecked words (o + n) (tagOf lead shift rank) else some words
    tagChecked n lead shift (rank + 1) group words

theorem setChecked_eq {m : ℕ} (words : Vector UInt32 m) {p : ℕ} (hp : p < m) (word : UInt32) :
    setChecked words.toArray p word = some (words.set p word).toArray := by
  rw [setChecked, dif_pos (hp.trans_eq words.size_toArray.symm), Vector.toArray_set]

/-- **Making tags never leaves the words.** -/
theorem tagChecked_eq (lead : UInt8) (shift rank : ℕ) (group : List (Fin n))
    (words : Vector UInt32 (n + wrapSize)) :
    tagChecked n lead shift rank (group.map Fin.val) words.toArray =
      some (group.foldl (tagNext lead shift) (words, rank)).1.toArray := by
  induction group generalizing words rank with
  | nil => rfl
  | cons o group ih =>
    have ho := o.isLt
    rw [List.map_cons, tagChecked, setChecked_eq words (by omega), List.foldl_cons, tagNext, setWord]
    simp only [Option.bind_eq_bind, Option.bind_some]
    split
    · next hlt =>
      rw [setChecked_eq _ (by omega)]
      exact ih (rank + 1) _
    · exact ih (rank + 1) _

/-- Makes the words of groups tags, one group after the other. -/
def tagAllChecked (n : ℕ) (groups : List (UInt8 × List ℕ)) (words : Array UInt32) :
    Option (Array UInt32) :=
  groups.foldlM (fun words g => tagChecked n g.1 (rankShift g.2.length) 0 g.2 words) words

theorem tagAllChecked_eq (t : KeyTable n) (groups : List (UInt8 × Array (Fin n))) :
    tagAllChecked n (groups.map fun g => (g.1, g.2.toList.map Fin.val)) t.words.toArray =
      some (t.tagAll groups).words.toArray := by
  induction groups generalizing t with
  | nil => rfl
  | cons g groups ih =>
    have hwords := tagChecked_eq g.1 (rankShift g.2.size) 0 g.2.toList t.words
    rw [List.map_cons, tagAllChecked, List.foldlM_cons, List.length_map, Array.length_toList, hwords]
    have hrest := ih (t.tag g.1 g.2)
    rw [tag_eq] at hrest
    rw [tagAll, List.foldl_cons, tag_eq]
    exact hrest

/-! ## Every stage -/

/-- The rotations that start with a byte may list ties in any order. -/
theorem Lists.of_compare {lead : UInt8} {group : Array (Fin block.size)} (hnodup : group.toList.Nodup)
    (hmem : ∀ o : Fin block.size, o ∈ group ↔ block[o] = lead)
    (hsorted : group.toList.IsChain fun o o' : Fin block.size => Rotation.compare block o o' ≠ .gt) :
    Lists block lead group.toList where
  nodup := hnodup
  mem_iff o := by
    have hbyte : block[o].toNat = byteAt block o := toNat_getElem o.isLt
    rw [Array.mem_toList_iff, hmem o, ← hbyte, UInt8.toNat_inj]
  sorted := pairwise_reading_le hsorted

/-- **At every stage of tagging, keys compare as bytes do**, whatever their storage held before: from where
two rotations are known to agree, they find the first difference, and without tags also that there is none.
No tag is set and no word is looked at beyond the last one. -/
theorem compare_tagAll [NeZero block.size] (hn : wrapSize ≤ block.size) (store : KeyStore)
    {groups : List (UInt8 × Array (Fin block.size))}
    (hgroups : ∀ g ∈ groups, g.2.toList.Nodup ∧ (∀ o : Fin block.size, o ∈ g.2 ↔ block[o] = g.1) ∧
      g.2.toList.IsChain fun o o' : Fin block.size => Rotation.compare block o o' ≠ .gt)
    {depth a b : ℕ} (hagree : Agree block depth a b) :
    let fresh := build block hn store
    let t := fresh.tagAll groups
    tagAllChecked block.size (groups.map fun g => (g.1, g.2.toList.map Fin.val))
        fresh.words.toArray = some t.words.toArray ∧
      t.compareChecked depth a b = some (t.compare depth a b) ∧
      (Rotation.compare block a b ≠ .eq ∨ groups = [] →
        t.compare depth a b = Rotation.compare block a b) := by
  have hsize : 0 < block.size := Nat.pos_of_neZero block.size
  rw [build_eq hn hsize]
  intro fresh t
  have hfaithful : t.Faithful block := (faithful_ofBlock hsize).tagAll hn fun g hg =>
    Lists.of_compare (hgroups g hg).1 (hgroups g hg).2.1 (hgroups g hg).2.2
  refine ⟨tagAllChecked_eq fresh groups, t.compareChecked_eq hn depth a b, fun hcase => ?_⟩
  by_cases htie : reading block a = reading block b
  · have heq : Rotation.compare block a b = .eq := by
      rw [compare_eq_cmp, cmp_eq_eq_iff]
      exact htie
    obtain rfl : groups = [] := hcase.resolve_left fun hne => hne heq
    rw [heq]
    exact compare_ofBlock_of_tie _ htie depth
  · exact eq_compare_of_fits (hfaithful.fits_compare hagree) htie

/-- 62 zeros and two ones behind them: the rotations that start with a one are tags. -/
theorem compare_tagAll_two_ones :
    let block : ByteArray := ⟨Array.replicate 62 0 ++ #[1, 1]⟩
    have : NeZero block.size := ⟨by decide⟩
    ∃ hn : wrapSize ≤ block.size, Agree block 1 60 61 ∧
      ((build block hn ⟨#[7, 7], Vector.replicate 256 true⟩).tagAll
        [(1, #[⟨63, by decide⟩, ⟨62, by decide⟩])]).compare 1 60 61 = .lt := by
  intro block _
  have hagree : Agree block 1 60 61 := by
    intro k hk
    obtain rfl : k = 0 := by omega
    decide
  have hlt : Rotation.compare block 60 61 = .lt := by decide +kernel
  have hgroups : ∀ g ∈ [((1 : UInt8), #[(⟨63, by decide⟩ : Fin block.size), ⟨62, by decide⟩])],
      g.2.toList.Nodup ∧ (∀ o : Fin block.size, o ∈ g.2 ↔ block[o] = g.1) ∧
        g.2.toList.IsChain fun o o' : Fin block.size => Rotation.compare block o o' ≠ .gt := by
    intro g hg
    obtain rfl := List.mem_singleton.mp hg
    decide +kernel
  refine ⟨by decide, hagree, ?_⟩
  exact ((compare_tagAll (by decide) _ hgroups hagree).2.2 (.inl (by rw [hlt]; decide))).trans hlt

end BlockPress.KeyTable
