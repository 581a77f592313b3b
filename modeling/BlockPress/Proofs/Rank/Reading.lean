import BlockPress.Proofs.Entropy.Carry
import BlockPress.Proofs.Rank.Writing
import BlockPress.Proofs.Recency
import BlockPress.Rank.Reader

/-!
# Reading back what a rank writer sends

A reader takes the symbols of a run and the one behind it, and keeps the latter, so what comes next is a
kept symbol and the symbols of the coder (`Comes`).  The end of a block is never kept: behind it the
reader stands where the coder does.

Main statements: **the symbols of ranks are read as what the ranks stand for**, as long as no run of
zeros is too long (`RankReader.readOnto_eq`).  So the symbols of a block are read as its bytes, and the
recency list is then the writer's (`RankReader.readBlock_eq`); and the symbols of ranks are read as the
ranks (`RankReader.readRanks_eq`).
-/

namespace BlockPress

namespace Rank

/-- Each run of zeros is shorter than `m`. -/
def RunsBelow (m : ℕ) (rs : List UInt8) : Prop := ∀ n, List.replicate n 0 <:+: rs → n < m

theorem RunsBelow.of_infix {m : ℕ} {rs ss : List UInt8} (h : RunsBelow m rs) (hs : ss <:+: rs) :
    RunsBelow m ss := fun n hn => h n (hn.trans hs)

theorem runsBelow_of_length_lt {m : ℕ} {rs : List UInt8} (h : rs.length < m) : RunsBelow m rs :=
  fun n hn => by
    have hle := hn.length_le
    rw [List.length_replicate] at hle
    omega

/-- The least number of zeros that a reader does not accept as one run, `2 ^ 41 - 1`. -/
def runLimit : ℕ := 2 ^ (maxDigits + 1) - 1

theorem complete_listAfter {l : RecencyList} (h : l.Complete) (bs : List UInt8) :
    (listAfter l bs).Complete := by
  induction bs generalizing l with
  | nil => exact h
  | cons b bs ih => exact ih (h.encode b)

end Rank

namespace RankReader

open Rank

/-- A rank of zero leaves the list as it is. -/
def Meaning.Still (meaning : Meaning) : Prop := ∀ l, (meaning l 0).2 = l

/-- The list behind ranks. -/
def Meaning.list (meaning : Meaning) (l : RecencyList) (rs : List UInt8) : RecencyList :=
  rs.foldl (fun l r => (meaning l r).2) l

/-- What ranks stand for, one after the other. -/
def Meaning.bytes (meaning : Meaning) : RecencyList → List UInt8 → List UInt8
  | _, [] => []
  | l, r :: rs => (meaning l r).1 :: bytes meaning (meaning l r).2 rs

variable {δ : Type} [SymbolReader δ contextCount] {d e f : δ} {ahead : Option UInt32}
  {xs : List (Fin contextCount × UInt32)} (label : ℕ) (l : RecencyList)

theorem receive_eq {c : Fin contextCount} {s : UInt32} (h : SymbolReader.receive c d = .ok s e) :
    receive c ⟨d, l, ahead⟩ = .ok s ⟨e, l, ahead⟩ := by
  rw [receive]
  simp only [h]

/-! ## What comes next -/

/-- The symbols come next: the first one was kept, or all are still in the coder. -/
def Comes (xs : List (Fin contextCount × UInt32)) (d : δ) : Option UInt32 → δ → Prop
  | none, f => Gives xs d f
  | some s, f => ∃ ys, xs = (symbolContext, s) :: ys ∧ Gives ys d f

theorem nextSymbol_eq {s : UInt32} (h : Comes ((symbolContext, s) :: xs) d ahead f) :
    ∃ e, nextSymbol ⟨d, l, ahead⟩ = .ok s ⟨e, l, none⟩ ∧ Gives xs e f := by
  cases ahead with
  | none =>
    obtain ⟨e, hreceive, hrest⟩ := gives_cons h
    exact ⟨e, receive_eq l hreceive, hrest⟩
  | some t =>
    obtain ⟨ys, heq, hrest⟩ := h
    obtain ⟨hst, rfl⟩ := List.cons.inj heq
    obtain rfl : s = t := congrArg Prod.snd hst
    exact ⟨d, rfl, hrest⟩

/-! ## Tokens -/

theorem not_lt_firstClass {next : UInt32} (h : 2 ≤ next.toNat) : ¬next < firstClass := fun hlt =>
  Nat.not_lt.mpr h (UInt32.lt_iff_toNat_lt.mp hlt)

/-- **The digits of a number are read as a run**, up to the symbol behind them. -/
theorem readRun_eq {v count length : ℕ} {next symbol : UInt32} {ys : List UInt32} (hv : 0 < v)
    (hcount : count + (digits v).length ≤ maxDigits) (hnext : 2 ≤ next.toNat)
    (hdigits : digits v ++ [next] = symbol :: ys) (h : Gives (ys.map (symbolContext, ·)) d e)
    (pos : symbol < firstClass ∨ 0 < length) :
    ∃ pos', readRun label symbol count length pos ⟨d, l, none⟩ =
      .ok (.run (length + (v - 1) * 2 ^ count) pos') ⟨e, l, some next⟩ := by
  induction v using digits.induct generalizing count length symbol ys d with
  | case1 v hgt ih =>
    rw [digits, if_pos hgt] at hcount hdigits
    obtain ⟨rfl, hys⟩ := List.cons.inj hdigits
    rw [List.length_cons] at hcount
    obtain ⟨t, zs, rfl⟩ : ∃ t zs, ys = t :: zs :=
      List.exists_cons_of_ne_nil fun h => by rw [h] at hys; simp at hys
    obtain ⟨d', hreceive, hrest⟩ := gives_cons h
    have hpos : 0 < length + ((v % 2).toUInt32.toNat + 1) <<< count := by
      rw [Nat.shiftLeft_eq]
      exact Nat.add_pos_right _ (Nat.mul_pos (Nat.succ_pos _) (Nat.two_pow_pos _))
    have hlength : length + ((v % 2).toUInt32.toNat + 1) <<< count + (v / 2 - 1) * 2 ^ (count + 1) =
        length + (v - 1) * 2 ^ count := by
      have hsum : (v % 2 + 1) + (v / 2 - 1) * 2 = v - 1 := by omega
      rw [toNat_digit, Nat.shiftLeft_eq, Nat.pow_succ', ← Nat.mul_assoc, Nat.add_assoc, ← Nat.add_mul,
        hsum]
    have hcount' : count + 1 + (digits (v / 2)).length ≤ maxDigits := by omega
    have hrun := ih (by omega) hcount' hys hrest (.inr hpos)
    rw [hlength] at hrun
    rw [readRun, dif_pos (digit_lt_firstClass v), if_pos (by omega), receive_eq l hreceive]
    exact hrun
  | case2 v hle =>
    obtain rfl : v = 1 := by omega
    rw [digits, if_neg hle] at hdigits
    obtain ⟨rfl, rfl⟩ := List.cons.inj hdigits
    obtain rfl := gives_nil h
    have hlength : length + (1 - 1) * 2 ^ count = length := by
      rw [Nat.sub_self, Nat.zero_mul, Nat.add_zero]
    rw [hlength, readRun, dif_neg (not_lt_firstClass hnext)]
    exact ⟨pos.resolve_left (not_lt_firstClass hnext), rfl⟩

/-- A run comes as a token, and the symbol behind it is kept. -/
theorem readToken_run {run : ℕ} {next : UInt32} (hrun : 0 < run) (hmax : run + 1 < 2 ^ (maxDigits + 1))
    (hnext : 2 ≤ next.toNat)
    (h : Comes (runSymbols run ++ (symbolContext, next) :: xs) d ahead f) :
    ∃ e pos, readToken label ⟨d, l, ahead⟩ = .ok (.run run pos) ⟨e, l, some next⟩ ∧ Gives xs e f := by
  have hdigits : digits (run + 1) = ((run + 1) % 2).toUInt32 :: digits ((run + 1) / 2) := by
    rw [digits, if_pos (by omega)]
  have hsymbols : runSymbols run ++ (symbolContext, next) :: xs =
      (symbolContext, ((run + 1) % 2).toUInt32) ::
        ((digits ((run + 1) / 2) ++ [next]).map (symbolContext, ·) ++ xs) := by
    rw [runSymbols, hdigits, List.map_append, List.append_assoc]
    rfl
  rw [hsymbols] at h
  obtain ⟨d₁, hsymbol, hrest⟩ := nextSymbol_eq l h
  obtain ⟨e, hys, hxs⟩ := gives_append hrest
  have hcount : 0 + (digits (run + 1)).length ≤ maxDigits := by
    rw [Nat.zero_add]
    exact length_digits_le hmax
  have hdigit : ((run + 1) % 2).toUInt32 < firstClass := digit_lt_firstClass _
  have hread := readRun_eq label l (Nat.succ_pos run) hcount hnext
    (by rw [hdigits, List.cons_append]) hys (.inl hdigit : _ ∨ 0 < 0)
  have hlength : 0 + (run + 1 - 1) * 2 ^ 0 = run := by
    rw [Nat.add_sub_cancel, Nat.pow_zero, Nat.mul_one, Nat.zero_add]
  rw [hlength] at hread
  obtain ⟨pos, hread⟩ := hread
  refine ⟨e, pos, ?_, hxs⟩
  rw [readToken, hsymbol]
  dsimp only
  rw [dif_pos hdigit]
  exact hread

theorem toNat_shiftLeft_class : ∀ c : Fin 8, ((1 : UInt32) <<< c.val.toUInt32).toNat = 2 ^ c.val := by
  decide

/-- The rest of a rank behind its class is read. -/
theorem readRank_eq {rank : UInt8} (hrank : rank ≠ 0)
    (h : Comes (rankSymbols rank ++ xs) d ahead f) :
    ∃ e e', nextSymbol ⟨d, l, ahead⟩ = .ok (classSymbol (classOf rank)) ⟨e, l, none⟩ ∧
      readRank label (classOf rank) ⟨e, l, none⟩ = .ok (.rank rank) ⟨e', l, none⟩ ∧ Gives xs e' f := by
  have hle := two_pow_classOf_le hrank
  have hlt := lt_two_pow_classOf rank
  have hmax := rank.toNat_lt
  by_cases hc : (classOf rank).val = 0
  · rw [rankSymbols_of_class_zero hc] at h
    obtain ⟨e, hsymbol, hxs⟩ := nextSymbol_eq l h
    have hone : rank = 1 := by
      rw [hc] at hle hlt
      exact UInt8.toNat_inj.mp (Nat.le_antisymm (Nat.le_of_lt_succ hlt) hle)
    refine ⟨e, e, hsymbol, ?_, hxs⟩
    rw [readRank, if_pos hc, hone]
  · rw [rankSymbols_of_class_pos hc] at h
    obtain ⟨e, hsymbol, hrest⟩ := nextSymbol_eq l h
    obtain ⟨e', hreceive, hxs⟩ := gives_cons hrest
    have hsum : ((1 : UInt32) <<< (classOf rank).val.toUInt32 + offsetOf rank).toNat = rank.toNat := by
      rw [UInt32.toNat_add, toNat_shiftLeft_class, toNat_offsetOf]
      omega
    have hbyte : ((1 : UInt32) <<< (classOf rank).val.toUInt32 + offsetOf rank).toUInt8 = rank := by
      refine UInt8.toNat_inj.mp ?_
      rw [UInt32.toNat_toUInt8, hsum]
      omega
    have hsmall : (1 : UInt32) <<< (classOf rank).val.toUInt32 + offsetOf rank < 256 :=
      UInt32.lt_iff_toNat_lt.mpr (by rw [hsum]; exact hmax)
    refine ⟨e, e', hsymbol, ?_, hxs⟩
    rw [readRank, if_neg hc, receive_eq l hreceive]
    dsimp only
    rw [if_pos hsmall, hbyte]

/-- Behind the symbol of a class, the rest of a rank of this class is read. -/
theorem readToken_class {c : Fin 8}
    (h : nextSymbol ⟨d, l, ahead⟩ = .ok (classSymbol c) ⟨e, l, none⟩) :
    readToken label ⟨d, l, ahead⟩ = readRank label c ⟨e, l, none⟩ := by
  have hc := c.isLt
  have hval := toNat_classSymbol c
  have hlow : ¬classSymbol c < firstClass := not_lt_firstClass (by omega)
  have hend : classSymbol c < blockEnd := by
    refine UInt32.lt_iff_toNat_lt.mpr (show _ < 10 from ?_)
    omega
  have hne : classSymbol c ≠ blockEnd := fun heq => by
    rw [heq] at hend
    exact absurd hend (by decide)
  have hclass : (⟨(classSymbol c).toNat - 2, by omega⟩ : Fin 8) = c :=
    Fin.ext (by simp only [hval]; omega)
  rw [readToken, h]
  dsimp only
  rw [dif_neg hlow, if_neg hne, dif_pos hend, hclass]

/-- A rank above zero comes as a token. -/
theorem readToken_rank {rank : UInt8} (hrank : rank ≠ 0)
    (h : Comes (rankSymbols rank ++ xs) d ahead f) :
    ∃ e, readToken label ⟨d, l, ahead⟩ = .ok (.rank rank) ⟨e, l, none⟩ ∧ Gives xs e f := by
  obtain ⟨e, e', hsymbol, hread, hxs⟩ := readRank_eq label l hrank h
  exact ⟨e', (readToken_class label l hsymbol).trans hread, hxs⟩

/-- The end of a block comes as a token. -/
theorem readToken_blockEnd (h : Comes ((symbolContext, blockEnd) :: xs) d ahead f) :
    ∃ e, readToken label ⟨d, l, ahead⟩ = .ok .blockEnd ⟨e, l, none⟩ ∧ Gives xs e f := by
  obtain ⟨e, hsymbol, hxs⟩ := nextSymbol_eq l h
  refine ⟨e, ?_, hxs⟩
  rw [readToken, hsymbol]
  dsimp only
  rw [dif_neg (by decide), if_pos rfl]

/-! ## Blocks -/

section Blocks

variable {limit : ℕ} {out : ByteArray} {run : ℕ} {rs : List UInt8}

/-- A run that is pending is laid onto the output before the next symbol. -/
theorem readOnto_run (meaning : Meaning) {next : UInt32} (hnext : 2 ≤ next.toNat)
    (hfit : out.size + run ≤ limit) (hrun : run < runLimit)
    (h : Comes (runSymbols run ++ (symbolContext, next) :: xs) d ahead f) :
    ∃ e ahead', readOnto meaning limit label (⟨d, l, ahead⟩, out) =
        readOnto meaning limit label (⟨e, l, ahead'⟩, Buffer.pushMany out (meaning l 0).1 run) ∧
      Comes ((symbolContext, next) :: xs) e ahead' f := by
  obtain rfl | hpos := Nat.eq_zero_or_pos run
  · rw [runSymbols_zero, List.nil_append] at h
    exact ⟨d, ahead, rfl, h⟩
  · have hmax : run + 1 < 2 ^ (maxDigits + 1) := Nat.add_lt_of_lt_sub hrun
    obtain ⟨e, pos, htoken, hxs⟩ := readToken_run label l hpos hmax hnext h
    refine ⟨e, some next, ?_, xs, rfl, hxs⟩
    rw [readOnto, htoken]
    dsimp only
    rw [dif_pos (by omega)]

/-- A rank above zero is laid onto the output as its byte. -/
theorem readOnto_rank (meaning : Meaning) {rank : UInt8} (hrank : rank ≠ 0) (hfit : out.size < limit)
    (h : Comes (rankSymbols rank ++ xs) d ahead f) :
    ∃ e, readOnto meaning limit label (⟨d, l, ahead⟩, out) =
        readOnto meaning limit label (⟨e, (meaning l rank).2, none⟩, out.push (meaning l rank).1) ∧
      Gives xs e f := by
  obtain ⟨e, htoken, hxs⟩ := readToken_rank label l hrank h
  refine ⟨e, ?_, hxs⟩
  rw [readOnto, htoken]
  dsimp only
  rw [dif_pos (by omega)]

/-- **The symbols of ranks are read as what the ranks stand for**, behind the run that is pending. -/
theorem readOnto_eq {meaning : Meaning} (hstill : meaning.Still)
    (hruns : RunsBelow runLimit (List.replicate run 0 ++ rs)) (hfit : out.size + run + rs.length ≤ limit)
    (h : Comes (rankBlockSymbols run rs) d ahead f) :
    ∃ out', readOnto meaning limit label (⟨d, l, ahead⟩, out) =
        .ok () (⟨f, meaning.list l rs, none⟩, out') ∧
      out'.data.toList =
        out.data.toList ++ (List.replicate run (meaning l 0).1 ++ meaning.bytes l rs) := by
  induction rs generalizing l run d ahead out with
  | nil =>
    have hrun := hruns run (List.prefix_append _ _).isInfix
    obtain ⟨e, ahead', hread, hend⟩ := readOnto_run label l meaning
      (show 2 ≤ blockEnd.toNat by decide) hfit hrun h
    obtain ⟨e', htoken, hxs⟩ := readToken_blockEnd label l hend
    obtain rfl := gives_nil hxs
    refine ⟨Buffer.pushMany out (meaning l 0).1 run, ?_, ?_⟩
    · rw [hread, readOnto, htoken]
      rfl
    · rw [Buffer.toList_pushMany, Meaning.bytes, List.append_nil]
  | cons r rs ih =>
    rw [List.length_cons] at hfit
    rw [rankBlockSymbols] at h
    by_cases hzero : r = 0
    · -- The zero joins the pending run, and the list stays as it is.
      subst hzero
      rw [if_pos rfl] at h
      rw [List.append_cons, ← List.replicate_succ'] at hruns
      have hfit₁ : out.size + (run + 1) + rs.length ≤ limit := by omega
      obtain ⟨out', hread, hout⟩ := ih l hruns hfit₁ h
      refine ⟨out', ?_, ?_⟩
      · rw [Meaning.list, List.foldl_cons, hstill]
        exact hread
      · rw [hout, List.replicate_succ', Meaning.bytes, hstill, List.append_assoc,
          List.singleton_append]
    · rw [if_neg hzero] at h
      obtain ⟨zs, hzs⟩ := exists_rankSymbols r
      rw [hzs, List.cons_append] at h
      have hclass : 2 ≤ (classSymbol (classOf r)).toNat := by
        rw [toNat_classSymbol]
        exact Nat.le_add_right _ _
      have hrun := hruns run (List.prefix_append _ _).isInfix
      have hfit₁ : out.size + run ≤ limit := by omega
      obtain ⟨e, ahead', hread, hcomes⟩ := readOnto_run label l meaning hclass hfit₁ hrun h
      rw [← List.cons_append, ← hzs] at hcomes
      have hsize : (Buffer.pushMany out (meaning l 0).1 run).size = out.size + run :=
        Buffer.size_pushMany _ _ _
      have hroom : (Buffer.pushMany out (meaning l 0).1 run).size < limit := by omega
      obtain ⟨e', hrank, hgives⟩ := readOnto_rank label l meaning hzero hroom hcomes
      have hruns' : RunsBelow runLimit (List.replicate 0 0 ++ rs) := by
        rw [List.append_cons] at hruns
        exact hruns.of_infix (List.suffix_append _ _).isInfix
      have hfit₂ : ((Buffer.pushMany out (meaning l 0).1 run).push (meaning l r).1).size + 0 +
          rs.length ≤ limit := by
        rw [ByteArray.size_push]
        omega
      have hnext : Comes (rankBlockSymbols 0 rs) e' none f := hgives
      obtain ⟨out', hrest, hout⟩ := ih (meaning l r).2 hruns' hfit₂ hnext
      refine ⟨out', hread.trans (hrank.trans hrest), ?_⟩
      rw [hout, ByteArray.data_push, Array.toList_push, Buffer.toList_pushMany, Meaning.bytes]
      simp only [List.replicate_zero, List.nil_append, List.append_assoc, List.singleton_append]

theorem still_decode : Meaning.Still RecencyList.decode := fun _ => rfl

/-- The ranks of bytes stand for the bytes, and leave the writer's list behind. -/
theorem decode_ranksOf (hl : l.Complete) (bs : List UInt8) :
    Meaning.bytes RecencyList.decode l (ranksOf l bs) = bs ∧
      Meaning.list RecencyList.decode l (ranksOf l bs) = listAfter l bs := by
  induction bs generalizing l with
  | nil => exact ⟨rfl, rfl⟩
  | cons b bs ih =>
    obtain ⟨hbytes, hlist⟩ := ih _ (hl.encode b)
    rw [ranksOf, Meaning.bytes, Meaning.list, List.foldl_cons, hl.decode_encode b, hbytes]
    exact ⟨rfl, hlist⟩

/-- **The symbols of a block are read as its bytes.** -/
theorem readBlock_eq {bs : List UInt8} (hl : l.Complete) (hshort : bs.length < runLimit)
    (hfit : out.size + bs.length ≤ limit) (h : Comes (blockSymbols l 0 bs) d ahead f) :
    ∃ out', readBlock limit label (⟨d, l, ahead⟩, out) = .ok () (⟨f, listAfter l bs, none⟩, out') ∧
      out'.data.toList = out.data.toList ++ bs := by
  rw [blockSymbols_eq] at h
  have hlength : (ranksOf l bs).length = bs.length := length_ranksOf l bs
  have hruns : RunsBelow runLimit (List.replicate 0 0 ++ ranksOf l bs) :=
    runsBelow_of_length_lt (by rw [List.replicate_zero, List.nil_append, hlength]; exact hshort)
  obtain ⟨hbytes, hlist⟩ := decode_ranksOf l hl bs
  have hfit' : out.size + 0 + (ranksOf l bs).length ≤ limit := by omega
  obtain ⟨out', hread, hout⟩ := readOnto_eq label l still_decode hruns hfit' h
  rw [hlist] at hread
  rw [hbytes, List.replicate_zero, List.nil_append] at hout
  exact ⟨out', hread, hout⟩

/-- Ranks that stand for themselves leave the list alone. -/
theorem itself_eq (rs : List UInt8) :
    Meaning.bytes (fun list rank => (rank, list)) l rs = rs ∧
      Meaning.list (fun list rank => (rank, list)) l rs = l := by
  induction rs with
  | nil => exact ⟨rfl, rfl⟩
  | cons r rs ih => exact ⟨congrArg (r :: ·) ih.1, ih.2⟩

/-- **The symbols of ranks are read as the ranks.** -/
theorem readRanks_eq (hruns : RunsBelow runLimit rs) (hfit : out.size + rs.length ≤ limit)
    (h : Comes (rankBlockSymbols 0 rs) d ahead f) :
    ∃ out', readRanks limit label (⟨d, l, ahead⟩, out) = .ok () (⟨f, l, none⟩, out') ∧
      out'.data.toList = out.data.toList ++ rs := by
  have hstill : Meaning.Still fun list rank => (rank, list) := fun _ => rfl
  have hruns' : RunsBelow runLimit (List.replicate 0 0 ++ rs) := hruns
  have hfit' : out.size + 0 + rs.length ≤ limit := hfit
  obtain ⟨hbytes, hlist⟩ := itself_eq l rs
  obtain ⟨out', hread, hout⟩ := readOnto_eq label l hstill hruns' hfit' h
  rw [hlist] at hread
  rw [hbytes, List.replicate_zero, List.nil_append] at hout
  exact ⟨out', hread, hout⟩

end Blocks

/-! ## Words -/

/-- Bytes of a word, the highest first, put together. -/
def wordOf (a b c d : UInt32) : UInt32 :=
  (((((0 : UInt32) <<< 8 ||| a) <<< 8 ||| b) <<< 8) ||| c) <<< 8 ||| d

theorem toNat_wordOf {a b c d : UInt32} (ha : a.toNat < 256) (hb : b.toNat < 256) (hc : c.toNat < 256)
    (hd : d.toNat < 256) :
    (wordOf a b c d).toNat = 256 * (256 * (256 * a.toNat + b.toNat) + c.toNat) + d.toNat := by
  have hstep {x y : UInt32} {n : ℕ} (hx : x.toNat = n) (hn : n < 2 ^ 24) (hy : y.toNat < 2 ^ 8) :
      (x <<< 8 ||| y).toNat = 256 * n + y.toNat := by
    rw [Register.toNat_shift_byte (hx ▸ hn) hy, hx]
  have hzero : (0 : UInt32).toNat = 0 := rfl
  have hword₁ := hstep hzero (by omega) ha
  have hword₂ := hstep hword₁ (by omega) hb
  have hword₃ := hstep hword₂ (by omega) hc
  exact (hstep hword₃ (by omega) hd).trans (by omega)

/-- The bytes of a word are put together again. -/
theorem wordOf_bytes (word : UInt32) : wordOf ((word >>> 24) &&& 0xFF) ((word >>> 16) &&& 0xFF)
    ((word >>> 8) &&& 0xFF) ((word >>> 0) &&& 0xFF) = word := by
  have hword := word.toNat_lt
  have h₁ : ((word >>> 24) &&& 0xFF).toNat = word.toNat / 2 ^ 24 % 256 :=
    toNat_byteOfWord word 24 (by decide)
  have h₂ : ((word >>> 16) &&& 0xFF).toNat = word.toNat / 2 ^ 16 % 256 :=
    toNat_byteOfWord word 16 (by decide)
  have h₃ : ((word >>> 8) &&& 0xFF).toNat = word.toNat / 2 ^ 8 % 256 :=
    toNat_byteOfWord word 8 (by decide)
  have h₄ : ((word >>> 0) &&& 0xFF).toNat = word.toNat / 2 ^ 0 % 256 :=
    toNat_byteOfWord word 0 (by decide)
  rw [← UInt32.toNat_inj, toNat_wordOf (by omega) (by omega) (by omega) (by omega), h₁, h₂, h₃, h₄]
  omega

theorem readWordFrom_succ {word b : UInt32} {n : ℕ}
    (h : SymbolReader.receive wordContext d = .ok b e) :
    readWordFrom word (n + 1) ⟨d, l, ahead⟩ = readWordFrom (word <<< 8 ||| b) n ⟨e, l, ahead⟩ := by
  rw [readWordFrom]
  dsimp only
  rw [receive_eq l h]

/-- **The symbols of a word are read as the word.** -/
theorem readWord_eq {word : UInt32} (h : Gives (wordSymbols word) d f) :
    readWord ⟨d, l, ahead⟩ = .ok word ⟨f, l, ahead⟩ := by
  obtain ⟨d₁, h₁, h⟩ := gives_cons h
  obtain ⟨d₂, h₂, h⟩ := gives_cons h
  obtain ⟨d₃, h₃, h⟩ := gives_cons h
  obtain ⟨d₄, h₄, h⟩ := gives_cons h
  obtain rfl := gives_nil h
  rw [readWord, readWordFrom_succ l h₁, readWordFrom_succ l h₂, readWordFrom_succ l h₃,
    readWordFrom_succ l h₄, readWordFrom]
  exact congrArg (EStateM.Result.ok · _) (wordOf_bytes word)

end RankReader

end BlockPress
