import BlockPress.Proofs.Rank.Items

/-!
# The symbols of an item are its only ones

A reader that gives only symbols of the alphabets (`Rank.Sound`) gives no item in two ways.  A token is
read from its own symbols (`RankReader.readToken_cases`): the digits of a run tell its length, a class and
an offset tell the rank.  A run takes all digits that come, so behind it no other run can follow, and the
tokens of a block are those of its ranks (`RankReader.readOnto_cases`).

Main statement: **an item that was read from a tape is written with just the symbols that were played**,
and leaves the writer with the recency list of the reader (`Rank.Call.write_read`).  So no two different
records are read as the same item.
-/

namespace BlockPress

namespace Rank

/-- Only symbols of the alphabets come from the reader. -/
def Sound {δ : Type} [SymbolReader δ contextCount] (d : δ) : Prop := ∀ xs e, Gives xs d e → Coded xs

section Sound

variable {δ : Type} [SymbolReader δ contextCount] {d e : δ} {xs : List (Fin contextCount × UInt32)}

theorem Sound.gives (h : Sound d) (hxs : Gives xs d e) : Sound e := fun _ _ hys x hx =>
  h _ _ (hxs.append hys) x (List.mem_append_right _ hx)

theorem Sound.lt_size (h : Sound d) {c : Fin contextCount} {s : UInt32}
    (hs : SymbolReader.receive c d = .ok s e) : s.toNat < (contexts.get c).size :=
  h [(c, s)] e (.cons hs (.nil e)) (c, s) List.mem_cons_self

end Sound

/-- The symbols of a token. -/
def Token.symbols : Token → List (Fin contextCount × UInt32)
  | .run length _ => runSymbols length
  | .rank r => rankSymbols r
  | .blockEnd => [(symbolContext, Rank.blockEnd)]

/-- The symbol that is kept, with the context through which it came. -/
def keptSymbols (ahead : Option UInt32) : List (Fin contextCount × UInt32) :=
  ahead.toList.map (symbolContext, ·)

/-- A token may come behind a kept symbol and leave another one: a run comes behind none and leaves the
symbol behind it, which is not a digit. -/
inductive Token.Leaves : Option UInt32 → Token → Option UInt32 → Prop where
  /-- A run of zeros. -/
  | run {length : ℕ} {next : UInt32} (pos : 0 < length) (hnext : 2 ≤ next.toNat) :
    Leaves none (.run length pos) (some next)
  /-- A rank above zero. -/
  | rank {ahead : Option UInt32} {rank : UInt8} (hrank : rank ≠ 0) : Leaves ahead (.rank rank) none
  /-- The end of the block. -/
  | blockEnd {ahead : Option UInt32} : Leaves ahead .blockEnd none

end Rank

namespace RankReader

open Rank

variable {δ : Type} [SymbolReader δ contextCount] {d : δ} {l : RecencyList} {ahead : Option UInt32}
  {label : ℕ} {r : RankReader δ}

theorem receive_cases {c : Fin contextCount} {s : UInt32} (h : receive c ⟨d, l, ahead⟩ = .ok s r) :
    ∃ e, SymbolReader.receive c d = .ok s e ∧ r = ⟨e, l, ahead⟩ := by
  rw [receive] at h
  cases hs : SymbolReader.receive c d with
  | error failure e =>
    simp only [hs] at h
    cases h
  | ok s' e =>
    simp only [hs] at h
    cases h
    exact ⟨e, rfl, rfl⟩

/-! ## Tokens -/

theorem nextSymbol_cases {s : UInt32} (h : nextSymbol ⟨d, l, ahead⟩ = .ok s r) :
    ∃ xs e, Gives xs d e ∧ r = ⟨e, l, none⟩ ∧ keptSymbols ahead ++ xs = [(symbolContext, s)] ∧
      (ahead = none ∨ ahead = some s) := by
  rw [nextSymbol] at h
  cases ahead with
  | none =>
    obtain ⟨e, hs, rfl⟩ := receive_cases h
    exact ⟨[(symbolContext, s)], e, .cons hs (.nil e), rfl, rfl, .inl rfl⟩
  | some t =>
    cases h
    exact ⟨[], d, .nil d, rfl, rfl, .inr rfl⟩

theorem two_le_of_not_lt {s : UInt32} (h : ¬s < firstClass) : 2 ≤ s.toNat :=
  Nat.not_lt.mp fun hlt => h (UInt32.lt_iff_toNat_lt.mpr hlt)

/-- **A run is read from the digits of a number**, and the symbol behind them is kept. -/
theorem readRun_cases {symbol : UInt32} {count length : ℕ} {pos : symbol < firstClass ∨ 0 < length}
    {token : Token} (h : readRun label symbol count length pos ⟨d, l, none⟩ = .ok token r) :
    ∃ v n hn ys e next, 0 < v ∧ n = length + (v - 1) * 2 ^ count ∧ token = .run n hn ∧
      Gives (ys.map (symbolContext, ·)) d e ∧ r = ⟨e, l, some next⟩ ∧
      symbol :: ys = digits v ++ [next] ∧ 2 ≤ next.toNat := by
  -- With each digit there is room for fewer of them.
  induction hroom : maxDigits - count using Nat.strongRecOn generalizing symbol count length d with
  | ind room ih =>
    rw [readRun] at h
    by_cases hdigit : symbol < firstClass
    · rw [dif_pos hdigit] at h
      by_cases hcount : count < maxDigits
      · rw [if_pos hcount] at h
        cases hs : receive symbolContext ⟨d, l, none⟩ with
        | error failure e =>
          rw [hs] at h
          cases h
        | ok symbol' r' =>
          rw [hs] at h
          obtain ⟨d', hreceive, rfl⟩ := receive_cases hs
          obtain ⟨v, n, hn, ys, e, next, hv, hlength, htoken, hys, hr, hdigits, hnext⟩ :=
            ih (maxDigits - (count + 1)) (by omega) h rfl
          refine ⟨2 * v + symbol.toNat, n, hn, symbol' :: ys, e, next, by omega, ?_, htoken,
            .cons hreceive hys, hr, ?_, hnext⟩
          · have hsum : 2 * v + symbol.toNat - 1 = symbol.toNat + 1 + (v - 1) * 2 := by omega
            rw [hlength, hsum, Nat.shiftLeft_eq, Nat.pow_succ', ← Nat.mul_assoc,
              Nat.add_mul (symbol.toNat + 1), Nat.add_assoc]
          · rw [digits_cons hdigit hv, hdigits, List.cons_append]
      · rw [if_neg hcount] at h
        cases h
    · rw [dif_neg hdigit] at h
      cases h
      refine ⟨1, length, _, [], d, symbol, Nat.one_pos, ?_, rfl, .nil d, rfl, ?_,
        two_le_of_not_lt hdigit⟩
      · rw [Nat.sub_self, Nat.zero_mul, Nat.add_zero]
      · rw [digits_one, List.nil_append]

/-- **The rest of a rank is read from its offset.** -/
theorem readRank_cases (hd : Sound d) {c : Fin 8} {token : Token}
    (h : readRank label c ⟨d, l, none⟩ = .ok token r) :
    ∃ rank xs e, token = .rank rank ∧ rank ≠ 0 ∧ Gives xs d e ∧ r = ⟨e, l, none⟩ ∧
      (symbolContext, classSymbol c) :: xs = rankSymbols rank := by
  rw [readRank] at h
  by_cases hc : c.val = 0
  · rw [if_pos hc] at h
    cases h
    obtain rfl : c = 0 := Fin.ext hc
    exact ⟨1, [], d, rfl, by decide, .nil d, rfl, by decide⟩
  · rw [if_neg hc] at h
    cases hs : receive (offsetContext c) ⟨d, l, none⟩ with
    | error failure e =>
      rw [hs] at h
      cases h
    | ok offset r' =>
      rw [hs] at h
      obtain ⟨e, hreceive, rfl⟩ := receive_cases hs
      have hoffset : offset.toNat < 2 ^ c.val := size_offsetContext c hc ▸ hd.lt_size hreceive
      have hpow : 2 ^ c.val ≤ 2 ^ 7 := Nat.pow_le_pow_right (by decide) (Nat.le_of_lt_succ c.isLt)
      have hsum : ((1 : UInt32) <<< c.val.toUInt32 + offset).toNat = 2 ^ c.val + offset.toNat := by
        rw [UInt32.toNat_add, toNat_shiftLeft_class]
        omega
      have hsmall : (1 : UInt32) <<< c.val.toUInt32 + offset < 256 :=
        UInt32.lt_iff_toNat_lt.mpr (show _ < 256 by omega)
      dsimp only at h
      rw [if_pos hsmall] at h
      cases h
      let rank := ((1 : UInt32) <<< c.val.toUInt32 + offset).toUInt8
      have hrank : rank.toNat = 2 ^ c.val + offset.toNat := by
        rw [UInt32.toNat_toUInt8, hsum]
        omega
      have hclass : classOf rank = c :=
        classOf_eq (hrank ▸ Nat.le_add_right _ _) (by rw [hrank, Nat.pow_succ]; omega)
      have hrest : offsetOf rank = offset := by
        rw [← UInt32.toNat_inj, toNat_offsetOf, hclass, hrank, Nat.add_sub_cancel_left]
      have hne : rank ≠ 0 := fun hzero => by
        have hpos := Nat.two_pow_pos c.val
        rw [hzero, UInt8.toNat_zero] at hrank
        omega
      refine ⟨rank, [(offsetContext c, offset)], e, rfl, hne, .cons hreceive (.nil e), rfl, ?_⟩
      rw [rankSymbols_of_class_pos (hclass.symm ▸ hc), hclass, hrest]

/-- **A token is read from its symbols.** -/
theorem readToken_cases (hd : Sound d) (hahead : ∀ s ∈ ahead, 2 ≤ s.toNat) {token : Token}
    (h : readToken label ⟨d, l, ahead⟩ = .ok token r) :
    ∃ xs e ahead', Gives xs d e ∧ r = ⟨e, l, ahead'⟩ ∧ token.Leaves ahead ahead' ∧
      keptSymbols ahead ++ xs = token.symbols ++ keptSymbols ahead' := by
  rw [readToken] at h
  cases hs : nextSymbol ⟨d, l, ahead⟩ with
  | error failure e =>
    rw [hs] at h
    cases h
  | ok symbol r' =>
    rw [hs] at h
    obtain ⟨xs, e, hxs, rfl, hkept, hfrom⟩ := nextSymbol_cases hs
    dsimp only at h
    by_cases hdigit : symbol < firstClass
    · rw [dif_pos hdigit] at h
      -- The symbol that was kept is no digit, so this one came from the coder.
      obtain rfl : ahead = none :=
        hfrom.resolve_right fun heq => not_lt_firstClass (hahead symbol heq) hdigit
      obtain rfl : xs = [(symbolContext, symbol)] := hkept
      obtain ⟨v, n, hn, ys, e', next, hv, hlength, rfl, hys, rfl, hdigits, hnext⟩ := readRun_cases h
      obtain rfl : v = n + 1 := by omega
      refine ⟨_, e', some next, hxs.append hys, rfl, .run hn hnext, ?_⟩
      change (symbol :: ys).map (symbolContext, ·) = runSymbols n ++ [(symbolContext, next)]
      rw [hdigits, List.map_append]
      rfl
    · rw [dif_neg hdigit] at h
      by_cases hend : symbol = blockEnd
      · rw [if_pos hend] at h
        cases h
        refine ⟨xs, e, none, hxs, rfl, .blockEnd, ?_⟩
        rw [hkept, hend]
        rfl
      · rw [if_neg hend] at h
        by_cases hclass : symbol < blockEnd
        · rw [dif_pos hclass] at h
          obtain ⟨rank, ys, e', rfl, hrank, hys, rfl, hsymbols⟩ := readRank_cases (hd.gives hxs) h
          refine ⟨_, e', none, hxs.append hys, rfl, .rank hrank, ?_⟩
          have hsymbol (hlt : symbol.toNat - 2 < 8) : classSymbol ⟨symbol.toNat - 2, hlt⟩ = symbol := by
            rw [← UInt32.toNat_inj, toNat_classSymbol]
            exact Nat.add_sub_cancel' (two_le_of_not_lt hdigit)
          rw [hsymbol] at hsymbols
          rw [← List.append_assoc, hkept]
          exact hsymbols.trans (List.append_nil _).symm
        · rw [dif_neg hclass] at h
          cases h

/-! ## Blocks -/

theorem Meaning.Still.bytes_zeros {meaning : Meaning} (h : meaning.Still) (l : RecencyList) (n : ℕ)
    (rs : List UInt8) : meaning.bytes l (List.replicate n 0 ++ rs) =
      List.replicate n (meaning l 0).1 ++ meaning.bytes l rs := by
  induction n with
  | zero => rfl
  | succ n ih =>
    rw [List.replicate_succ, List.cons_append, Meaning.bytes, h, ih, List.replicate_succ,
      List.cons_append]

theorem Meaning.Still.list_zeros {meaning : Meaning} (h : meaning.Still) (l : RecencyList) (n : ℕ)
    (rs : List UInt8) : meaning.list l (List.replicate n 0 ++ rs) = meaning.list l rs := by
  induction n with
  | zero => rfl
  | succ n ih =>
    rw [List.replicate_succ, List.cons_append, Meaning.list, List.foldl_cons, h]
    exact ih

/-- Ranks that do not begin with a zero end the run in front of them. -/
theorem rankBlockSymbols_zeros (n : ℕ) {rs : List UInt8} (hrs : rs.head? ≠ some 0) :
    rankBlockSymbols 0 (List.replicate n 0 ++ rs) = runSymbols n ++ rankBlockSymbols 0 rs := by
  have hpending (run : ℕ) : rankBlockSymbols run (List.replicate n 0 ++ rs) =
      rankBlockSymbols (run + n) rs := by
    induction n generalizing run with
    | zero => rfl
    | succ n ih =>
      rw [List.replicate_succ, List.cons_append, rankBlockSymbols, if_pos rfl, ih, Nat.add_assoc,
        Nat.add_comm 1]
  rw [hpending, Nat.zero_add]
  cases rs with
  | nil => rw [rankBlockSymbols, rankBlockSymbols, runSymbols_zero, List.nil_append]
  | cons r rs =>
    have hr : r ≠ 0 := fun hzero => hrs (congrArg some hzero)
    rw [rankBlockSymbols, rankBlockSymbols, if_neg hr, if_neg hr, runSymbols_zero, List.nil_append]

theorem not_kept : ∀ s ∈ (none : Option UInt32), 2 ≤ s.toNat := fun s hs =>
  absurd hs (Option.not_mem_none s)

/-- An output grew within a limit by what some ranks stand for, and their symbols are the kept one and
those that the coder gave.  The ranks do not begin with a zero if a symbol was kept. -/
def Filled (meaning : Meaning) (limit : ℕ) (d : δ) (l : RecencyList) (ahead : Option UInt32)
    (out : ByteArray) (r : RankReader δ) (out' : ByteArray) : Prop :=
  ∃ rs xs e, Gives xs d e ∧ r = ⟨e, meaning.list l rs, none⟩ ∧
    keptSymbols ahead ++ xs = rankBlockSymbols 0 rs ∧ (ahead ≠ none → rs.head? ≠ some 0) ∧
    out'.data.toList = out.data.toList ++ meaning.bytes l rs ∧ out'.size ≤ limit

section Filled

variable {meaning : Meaning} {limit : ℕ} {e : δ} {out out' : ByteArray}
  {xs : List (Fin contextCount × UInt32)}

theorem Filled.blockEnd (hxs : Gives xs d e)
    (hsymbols : keptSymbols ahead ++ xs = [(symbolContext, Rank.blockEnd)]) (hsize : out.size ≤ limit) :
    Filled meaning limit d l ahead out ⟨e, l, none⟩ out := by
  refine ⟨[], xs, e, hxs, rfl, ?_, fun _ => (Option.some_ne_none _).symm, ?_, hsize⟩
  · rw [hsymbols, rankBlockSymbols, runSymbols_zero]
    rfl
  · rw [Meaning.bytes, List.append_nil]

theorem Filled.rank {rank : UInt8} (hrank : rank ≠ 0) (hxs : Gives xs d e)
    (hsymbols : keptSymbols ahead ++ xs = rankSymbols rank)
    (h : Filled meaning limit e (meaning l rank).2 none (out.push (meaning l rank).1) r out') :
    Filled meaning limit d l ahead out r out' := by
  obtain ⟨rs, ys, f, hys, hr, hrest, -, hout, hsize⟩ := h
  refine ⟨rank :: rs, xs ++ ys, f, hxs.append hys, hr, ?_, ?_, ?_, hsize⟩
  · rw [← List.append_assoc, hsymbols, rankBlockSymbols, if_neg hrank, runSymbols_zero]
    exact congrArg (rankSymbols rank ++ ·) hrest
  · exact fun _ heq => hrank (Option.some.inj heq)
  · rw [hout, ByteArray.data_push, Array.toList_push, List.append_assoc, Meaning.bytes]
    rfl

theorem Filled.run (hstill : meaning.Still) {n : ℕ} {next : UInt32} (hxs : Gives xs d e)
    (hsymbols : keptSymbols none ++ xs = runSymbols n ++ keptSymbols (some next))
    (h : Filled meaning limit e l (some next) (Buffer.pushMany out (meaning l 0).1 n) r out') :
    Filled meaning limit d l none out r out' := by
  obtain ⟨rs, ys, f, hys, hr, hrest, hhead, hout, hsize⟩ := h
  have hhead' := hhead (Option.some_ne_none next)
  refine ⟨List.replicate n 0 ++ rs, xs ++ ys, f, hxs.append hys, ?_, ?_, fun hne => absurd rfl hne, ?_,
    hsize⟩
  · rw [hstill.list_zeros]
    exact hr
  · rw [← List.append_assoc, hsymbols, rankBlockSymbols_zeros n hhead', List.append_assoc, hrest]
  · rw [hout, Buffer.toList_pushMany, hstill.bytes_zeros, List.append_assoc]

end Filled

/-- **A block is read from the symbols of ranks**, and holds what these ranks stand for. -/
theorem readOnto_cases {meaning : Meaning} (hstill : meaning.Still) {limit : ℕ} {out out' : ByteArray}
    (hd : Sound d) (hahead : ∀ s ∈ ahead, 2 ≤ s.toNat) (hsize : out.size ≤ limit)
    (h : readOnto meaning limit label (⟨d, l, ahead⟩, out) = .ok () (r, out')) :
    Filled meaning limit d l ahead out r out' := by
  -- Every token but the last takes some of the room that is left.
  induction hroom : limit - out.size using Nat.strongRecOn generalizing out d l ahead with
  | ind room ih =>
    rw [readOnto] at h
    cases htoken : readToken label ⟨d, l, ahead⟩ with
    | error failure e =>
      rw [htoken] at h
      cases h
    | ok token r' =>
      rw [htoken] at h
      obtain ⟨xs, e, ahead', hxs, rfl, hleaves, hsymbols⟩ := readToken_cases hd hahead htoken
      cases hleaves with
      | blockEnd =>
        cases h
        exact .blockEnd hxs hsymbols hsize
      | @rank _ rank hrank =>
        dsimp only at h
        by_cases hfit : 1 ≤ limit - out.size
        · rw [dif_pos hfit] at h
          have hpush : (out.push (meaning l rank).1).size = out.size + 1 := ByteArray.size_push
          have hrest := ih _ (by omega) (hd.gives hxs) not_kept (by omega) h rfl
          exact .rank hrank hxs (hsymbols.trans (List.append_nil _)) hrest
        · rw [dif_neg hfit] at h
          cases h
      | @run n next hn hnext =>
        dsimp only at h
        by_cases hfit : n ≤ limit - out.size
        · rw [dif_pos hfit] at h
          have hpush : (Buffer.pushMany out (meaning l 0).1 n).size = out.size + n :=
            Buffer.size_pushMany _ _ _
          have hnext' : ∀ s ∈ some next, 2 ≤ s.toNat := fun s hs => Option.some.inj hs ▸ hnext
          have hrest := ih _ (by omega) (hd.gives hxs) hnext' (by omega) h rfl
          exact .run hstill hxs hsymbols hrest
        · rw [dif_neg hfit] at h
          cases h

/-- Bytes that ranks stand for have these ranks. -/
theorem ranksOf_decode (hl : l.Complete) (rs : List UInt8) :
    ranksOf l (Meaning.bytes RecencyList.decode l rs) = rs ∧
      listAfter l (Meaning.bytes RecencyList.decode l rs) = Meaning.list RecencyList.decode l rs := by
  induction rs generalizing l with
  | nil => exact ⟨rfl, rfl⟩
  | cons r rs ih =>
    obtain ⟨hranks, hlist⟩ := ih (hl.decode r)
    rw [Meaning.bytes, Meaning.list, List.foldl_cons, ranksOf, listAfter, List.foldl_cons,
      hl.encode_decode r, hranks]
    exact ⟨rfl, hlist⟩

/-- **A block of bytes is read from its symbols.** -/
theorem readBlock_cases {limit : ℕ} {out : ByteArray} (hl : l.Complete) (hd : Sound d)
    (h : readBlock limit label (⟨d, l, none⟩, .empty) = .ok () (r, out)) :
    out.size ≤ limit ∧ ∃ e, r = ⟨e, listAfter l out.data.toList, none⟩ ∧
      Gives (blockSymbols l 0 out.data.toList) d e := by
  obtain ⟨rs, xs, e, hxs, hr, hsymbols, -, hout, hsize⟩ :=
    readOnto_cases still_decode hd not_kept (Nat.zero_le _) h
  obtain rfl : xs = rankBlockSymbols 0 rs := hsymbols
  have hbytes : out.data.toList = Meaning.bytes RecencyList.decode l rs := hout
  obtain ⟨hranks, hlist⟩ := ranksOf_decode hl rs
  rw [hbytes, hlist, blockSymbols_eq, hranks]
  exact ⟨hsize, e, hr, hxs⟩

/-- **A block of ranks is read from its symbols.** -/
theorem readRanks_cases {limit : ℕ} {out : ByteArray} (hd : Sound d)
    (h : readRanks limit label (⟨d, l, none⟩, .empty) = .ok () (r, out)) :
    out.size ≤ limit ∧ ∃ e, r = ⟨e, l, none⟩ ∧ Gives (rankBlockSymbols 0 out.data.toList) d e := by
  have hstill : Meaning.Still fun list rank => (rank, list) := fun _ => rfl
  obtain ⟨rs, xs, e, hxs, hr, hsymbols, -, hout, hsize⟩ :=
    readOnto_cases hstill hd not_kept (Nat.zero_le _) h
  obtain rfl : xs = rankBlockSymbols 0 rs := hsymbols
  obtain ⟨hbytes, hlist⟩ := itself_eq l rs
  rw [hlist] at hr
  obtain rfl : out.data.toList = rs := hout.trans hbytes
  exact ⟨hsize, e, hr, hxs⟩

/-! ## Words -/

/-- The symbols of a word that was put together are its bytes. -/
theorem wordSymbols_wordOf {a b c d : UInt32} (ha : a.toNat < 256) (hb : b.toNat < 256)
    (hc : c.toNat < 256) (hd : d.toNat < 256) : wordSymbols (wordOf a b c d) =
      [(wordContext, a), (wordContext, b), (wordContext, c), (wordContext, d)] := by
  have hword := toNat_wordOf ha hb hc hd
  have hbyte {x : UInt32} (s : UInt32) (hs : s.toNat < 32)
      (hx : (wordOf a b c d).toNat / 2 ^ s.toNat % 256 = x.toNat) :
      (wordOf a b c d >>> s) &&& 0xFF = x :=
    UInt32.toNat_inj.mp ((toNat_byteOfWord _ s hs).trans hx)
  have ha' := hbyte (x := a) 24 (by decide) (show _ / 2 ^ 24 % 256 = _ by omega)
  have hb' := hbyte (x := b) 16 (by decide) (show _ / 2 ^ 16 % 256 = _ by omega)
  have hc' := hbyte (x := c) 8 (by decide) (show _ / 2 ^ 8 % 256 = _ by omega)
  have hd' := hbyte (x := d) 0 (by decide) (show _ / 2 ^ 0 % 256 = _ by omega)
  simp only [wordSymbols, List.map_cons, List.map_nil, ha', hb', hc', hd']

theorem readWordFrom_succ_cases {word w : UInt32} {n : ℕ}
    (h : readWordFrom word (n + 1) ⟨d, l, ahead⟩ = .ok w r) :
    ∃ b e, SymbolReader.receive wordContext d = .ok b e ∧
      readWordFrom (word <<< 8 ||| b) n ⟨e, l, ahead⟩ = .ok w r := by
  rw [readWordFrom] at h
  dsimp only at h
  cases hs : receive wordContext ⟨d, l, ahead⟩ with
  | error failure r' =>
    rw [hs] at h
    cases h
  | ok b r' =>
    rw [hs] at h
    obtain ⟨e, hreceive, rfl⟩ := receive_cases hs
    exact ⟨b, e, hreceive, h⟩

theorem readWordFrom_cases {word w : UInt32} {n : ℕ} (hd : Sound d)
    (h : readWordFrom word (n + 1) ⟨d, l, ahead⟩ = .ok w r) :
    ∃ b e, b.toNat < 256 ∧ Gives [(wordContext, b)] d e ∧ Sound e ∧
      readWordFrom (word <<< 8 ||| b) n ⟨e, l, ahead⟩ = .ok w r := by
  obtain ⟨b, e, hreceive, h⟩ := readWordFrom_succ_cases h
  have hgives : Gives [(wordContext, b)] d e := .cons hreceive (.nil e)
  exact ⟨b, e, size_wordContext ▸ hd.lt_size hreceive, hgives, hd.gives hgives, h⟩

/-- **A word is read from its symbols.** -/
theorem readWord_cases {word : UInt32} (hd : Sound d) (h : readWord ⟨d, l, ahead⟩ = .ok word r) :
    ∃ e, r = ⟨e, l, ahead⟩ ∧ Gives (wordSymbols word) d e := by
  obtain ⟨a, d₁, ha, hgives₁, hd₁, h⟩ := readWordFrom_cases hd h
  obtain ⟨b, d₂, hb, hgives₂, hd₂, h⟩ := readWordFrom_cases hd₁ h
  obtain ⟨c, d₃, hc, hgives₃, hd₃, h⟩ := readWordFrom_cases hd₂ h
  obtain ⟨x, d₄, hx, hgives₄, -, h⟩ := readWordFrom_cases hd₃ h
  obtain ⟨hword, hr⟩ := EStateM.Result.ok.inj h
  have hsymbols := wordSymbols_wordOf ha hb hc hx
  rw [wordOf, hword] at hsymbols
  refine ⟨d₄, hr.symm, hsymbols ▸ ?_⟩
  exact hgives₁.append (hgives₂.append (hgives₃.append hgives₄))

end RankReader

/-! ## Items -/

namespace Rank.Call

section Reading

variable {δ : Type} [SymbolReader δ contextCount] {d : δ} {l : RecencyList} {r : RankReader δ}

/-- **An item is read from its symbols**: what `Rank.Call.read_eq` says of the items that fit holds the
other way for all. -/
theorem read_cases {call : Call} {item : Item} (hl : l.Complete) (hd : Sound d)
    (h : call.read ⟨d, l, none⟩ = .ok item r) :
    call.Matches item ∧ ∃ e, r = ⟨e, item.list l, none⟩ ∧ Gives (item.symbols l) d e := by
  cases call with
  | word =>
    obtain ⟨w, hread, rfl⟩ := read_word_eq_ok_iff.mp h
    exact ⟨.word w, RankReader.readWord_cases hd hread⟩
  | block limit label =>
    obtain ⟨bytes, hread, rfl⟩ := read_block_eq_ok_iff.mp h
    obtain ⟨hsize, hblock⟩ := RankReader.readBlock_cases hl hd hread
    exact ⟨.block label hsize, hblock⟩
  | ranks limit label =>
    obtain ⟨ranks, hread, rfl⟩ := read_ranks_eq_ok_iff.mp h
    obtain ⟨hsize, hranks⟩ := RankReader.readRanks_cases hd hread
    exact ⟨.ranks label hsize, hranks⟩

end Reading

end Rank.Call

/-! ## Tapes -/

/-- The symbol is in the alphabet of its context, if that is a context of a rank stream. -/
def Recorded.Coded (x : Recorded) : Prop :=
  ∀ c : Fin Rank.contextCount, x.context = c → x.symbol.toNat < (Rank.contexts.get c).alphabet

namespace TapeReader

/-- What was played from one place on the tape to another. -/
def played {k : ℕ} (t t' : TapeReader k) : Array Recorded := t.symbols.extract t.position t'.position

variable {t t' : TapeReader Rank.contextCount} {xs : List (Fin Rank.contextCount × UInt32)}

theorem played_eq (h : Gives xs t t') : t.played t' = (recorded xs).toArray := by
  obtain ⟨hfirst, rfl⟩ := gives_iff.mp h
  rw [List.prefix_iff_eq_take, length_recorded] at hfirst
  refine Array.toList_inj.mp ?_
  rw [played, Array.toList_extract, List.extract_eq_take_drop, Nat.add_sub_cancel_left, ← hfirst]

theorem sound (h : ∀ x ∈ t.symbols, x.Coded) : Rank.Sound t := by
  intro xs e hxs x hx
  obtain ⟨hfirst, -⟩ := gives_iff.mp hxs
  have hmem : (⟨x.1, x.2⟩ : Recorded) ∈ t.symbols.toList :=
    List.mem_of_mem_drop (hfirst.subset (List.mem_map.mpr ⟨x, hx, rfl⟩))
  rw [Rank.size_eq_alphabet]
  exact h _ (Array.mem_toList_iff.mp hmem) x.1 rfl

end TapeReader

namespace Rank.Call

/-- **An item that was read from a tape is written with just the symbols that were played**, and the
writer is left with the recency list of the reader.  The item is within the limit of the call, no symbol
is kept, and no other symbols of the alphabets are read as the same item. -/
theorem write_read {l : RecencyList} (hl : l.Complete) {t : TapeReader contextCount}
    (ht : ∀ x ∈ t.symbols, x.Coded) {call : Call} {item : Item} {r : RankReader (TapeReader contextCount)}
    (h : call.read ⟨t, l, none⟩ = .ok item r) :
    call.Matches item ∧ r.ahead = none ∧
      r.coder = { t with position := t.position + (t.played r.coder).size } ∧
      (∃ w : RankWriter (TapeWriter contextCount), item.write ⟨{ contexts }, l, 0⟩ = .ok () w ∧
        w.coder.symbols = t.played r.coder ∧ w.list = r.list ∧ w.run = 0) ∧
      ∀ (t' : TapeReader contextCount) (call' : Call) (r' : RankReader (TapeReader contextCount)),
        (∀ x ∈ t'.symbols, x.Coded) → call'.read ⟨t', l, none⟩ = .ok item r' →
          t'.played r'.coder = t.played r.coder := by
  obtain ⟨hmatches, e, rfl, hgives⟩ := read_cases hl (TapeReader.sound ht) h
  have hplayed := TapeReader.played_eq hgives
  refine ⟨hmatches, rfl, ?_, ?_, fun t' call' r' ht' h' => ?_⟩
  · rw [hplayed, List.size_toArray, length_recorded]
    exact (TapeReader.gives_iff.mp hgives).2
  · have hcoded := (TapeReader.sound ht _ _ hgives).lt_alphabet
    have hsend := TapeWriter.sendAll_eq (w := { contexts }) hcoded
    rw [Array.empty_append, ← hplayed] at hsend
    exact ⟨_, Item.write_eq hsend, rfl, rfl, rfl⟩
  · obtain ⟨-, e', rfl, hgives'⟩ := read_cases hl (TapeReader.sound ht') h'
    exact (TapeReader.played_eq hgives').trans hplayed.symm

/-- The byte of rank 5 and a run of two, with a symbol of the next item behind the end of the block. -/
theorem write_read_three :
    (∀ x ∈ (#[⟨0, 4⟩, ⟨2, 1⟩, ⟨0, 1⟩, ⟨0, 10⟩, ⟨0, 3⟩] : Array Recorded), x.Coded) ∧
    ∃ (r : RankReader (TapeReader contextCount)) (w : RankWriter (TapeWriter contextCount)),
      read (.block 9 0) ⟨{ symbols := #[⟨0, 4⟩, ⟨2, 1⟩, ⟨0, 1⟩, ⟨0, 10⟩, ⟨0, 3⟩] }, .fresh, none⟩ =
        .ok (.block ⟨#[5, 5, 5]⟩) r ∧
      Item.write (.block ⟨#[5, 5, 5]⟩) ⟨{ contexts }, .fresh, 0⟩ = .ok () w ∧
      w.coder.symbols = #[⟨0, 4⟩, ⟨2, 1⟩, ⟨0, 1⟩, ⟨0, 10⟩] ∧ w.list = r.list := by
  let t : TapeReader contextCount := { symbols := #[⟨0, 4⟩, ⟨2, 1⟩, ⟨0, 1⟩, ⟨0, 10⟩, ⟨0, 3⟩] }
  have hcoded : ∀ x ∈ t.symbols, x.Coded := by
    unfold Recorded.Coded
    decide
  have hsymbols : Item.symbols .fresh (.block ⟨#[5, 5, 5]⟩) = [(0, 4), (2, 1), (0, 1), (0, 10)] := by
    decide +kernel
  have hgives : Gives (Item.symbols .fresh (.block ⟨#[5, 5, 5]⟩)) t { t with position := 4 } := by
    rw [hsymbols]
    exact TapeReader.gives_append #[] [(0, 4), (2, 1), (0, 1), (0, 10)] #[⟨0, 3⟩]
  have hfits : Item.Fits (.block ⟨#[5, 5, 5]⟩) := (by decide : 3 ≤ Config.maxBlockSize)
  have hmatches : Matches (.block 9 0) (.block ⟨#[5, 5, 5]⟩) := .block 0 (by decide)
  have hread := read_eq RecencyList.complete_fresh hfits hmatches hgives
  obtain ⟨-, -, -, ⟨w, hw, hplayed, hlist, -⟩, -⟩ :=
    write_read RecencyList.complete_fresh hcoded hread
  exact ⟨hcoded, _, w, hread, hw, hplayed, hlist⟩

end Rank.Call

end BlockPress
