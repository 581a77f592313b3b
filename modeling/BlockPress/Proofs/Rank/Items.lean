import BlockPress.Block.Config
import BlockPress.Proofs.Entropy.Tape
import BlockPress.Proofs.Rank.Reading

/-!
# Whole streams of ranks

Words, blocks of bytes and blocks of ranks go through one stream in any order (`Rank.Item`), and a
reader asks for each of them by a call that says how long a block may become (`Rank.Call`).  A writer
sends the symbols of an item from the recency list at which it stands, and only a block of bytes moves
this list.

Main statement: **items that were recorded on a tape are played back by the calls that match them**,
whatever lies behind them on the tape, and after each item the two sides agree
(`Rank.Call.readAll_writeAll`).
-/

namespace BlockPress

namespace Rank

/-- What goes through a stream of ranks at a time. -/
inductive Item where
  /-- A word. -/
  | word (word : UInt32)
  /-- A block of bytes. -/
  | block (bytes : ByteArray)
  /-- A block of ranks. -/
  | ranks (ranks : ByteArray)

/-- What a reader asks for.  `label` is the number of the block, for failures. -/
inductive Call where
  /-- A word. -/
  | word
  /-- A block of bytes, not longer than `limit`. -/
  | block (limit label : ℕ)
  /-- A block of ranks, not longer than `limit`. -/
  | ranks (limit label : ℕ)

/-- A call asks for an item of this kind and size. -/
inductive Call.Matches : Call → Item → Prop where
  /-- Any word. -/
  | word (word : UInt32) : Matches .word (.word word)
  /-- A block of bytes within the limit. -/
  | block {limit : ℕ} {bytes : ByteArray} (label : ℕ) (fits : bytes.size ≤ limit) :
    Matches (.block limit label) (.block bytes)
  /-- A block of ranks within the limit. -/
  | ranks {limit : ℕ} {ranks : ByteArray} (label : ℕ) (fits : ranks.size ≤ limit) :
    Matches (.ranks limit label) (.ranks ranks)

namespace Item

/-- A stream can carry the item: a block of bytes is not larger than a block may be, and in a block of
ranks no run of zeros is too long. -/
def Fits : Item → Prop
  | word _ => True
  | block bytes => bytes.size ≤ Config.maxBlockSize
  | ranks rs => RunsBelow runLimit rs.data.toList

/-- The symbols of an item. -/
def symbols (l : RecencyList) : Item → List (Fin contextCount × UInt32)
  | word w => wordSymbols w
  | block bytes => blockSymbols l 0 bytes.data.toList
  | ranks rs => rankBlockSymbols 0 rs.data.toList

/-- The recency list behind an item. -/
def list (l : RecencyList) : Item → RecencyList
  | word _ => l
  | block bytes => listAfter l bytes.data.toList
  | ranks _ => l

/-- The symbols of items, one after the other. -/
def allSymbols : RecencyList → List Item → List (Fin contextCount × UInt32)
  | _, [] => []
  | l, item :: items => item.symbols l ++ allSymbols (item.list l) items

theorem allSymbols_append (l : RecencyList) (xs ys : List Item) :
    allSymbols l (xs ++ ys) = allSymbols l xs ++ allSymbols (xs.foldl list l) ys := by
  induction xs generalizing l with
  | nil => rfl
  | cons x xs ih =>
    rw [List.cons_append, allSymbols, allSymbols, List.foldl_cons, ih, List.append_assoc]

theorem coded_allSymbols (l : RecencyList) (items : List Item) : Coded (allSymbols l items) := by
  induction items generalizing l with
  | nil => exact fun x hx => nomatch hx
  | cons item items ih =>
    refine Coded.append ?_ (ih _)
    cases item with
    | word word => exact coded_wordSymbols word
    | block bytes => exact coded_blockSymbols _ _ _
    | ranks ranks => exact coded_rankBlockSymbols _ _

theorem complete_list {l : RecencyList} (h : l.Complete) (item : Item) : (item.list l).Complete := by
  cases item with
  | word word => exact h
  | block bytes => exact complete_listAfter h _
  | ranks ranks => exact h

/-! ## Writing -/

section Writing

variable {ε : Type} [SymbolWriter ε contextCount] {e f : ε} {l : RecencyList}

/-- Writes an item. -/
def write : Item → Action (RankWriter ε) Unit
  | word w => RankWriter.writeWord w
  | block bytes => RankWriter.writeBlock bytes
  | ranks rs => RankWriter.writeRanks rs

/-- Writes items, up to the first failure. -/
def writeAll : List Item → Action (RankWriter ε) Unit
  | [] => fun w => .ok () w
  | item :: items => fun w =>
    match item.write w with
    | .ok () w => writeAll items w
    | .error failure w => .error failure w

theorem write_eq {item : Item} (h : sendAll (item.symbols l) e = .ok () f) :
    item.write ⟨e, l, 0⟩ = .ok () ⟨f, item.list l, 0⟩ := by
  cases item with
  | word word => exact RankWriter.writeWord_eq h
  | block bytes => exact RankWriter.writeBlockFrom_eq (i := 0) h
  | ranks ranks => exact RankWriter.writeRanksFrom_eq (i := 0) h

/-- **A writer whose coder takes the symbols of items has written them.** -/
theorem writeAll_eq {items : List Item} (h : sendAll (allSymbols l items) e = .ok () f) :
    writeAll items ⟨e, l, 0⟩ = .ok () ⟨f, items.foldl list l, 0⟩ := by
  induction items generalizing l e with
  | nil =>
    cases h
    rfl
  | cons item items ih =>
    obtain ⟨d, hitem, hrest⟩ := sendAll_append.mp h
    rw [writeAll]
    dsimp only
    rw [write_eq hitem]
    exact ih hrest

end Writing

/-- The writer behind items that it recorded on a tape. -/
def taped (items : List Item) : RankWriter (TapeWriter contextCount) :=
  ⟨{ contexts, symbols := (recorded (allSymbols .fresh items)).toArray }, items.foldl list .fresh, 0⟩

/-- A tape takes all items. -/
theorem writeAll_taped (items : List Item) :
    writeAll items { coder := { contexts } } = .ok () (taped items) := by
  have hsend := TapeWriter.sendAll_eq (w := { contexts }) (coded_allSymbols .fresh items).lt_alphabet
  rw [Array.empty_append] at hsend
  exact writeAll_eq hsend

end Item

/-! ## Reading -/

namespace Call

section Reading

variable {δ : Type} [SymbolReader δ contextCount] {d f : δ} {l : RecencyList}

/-- Reads what the call asks for; a block is read onto an empty output. -/
def read : Call → Action (RankReader δ) Item
  | word => fun r =>
    match RankReader.readWord r with
    | .ok w r => .ok (.word w) r
    | .error failure r => .error failure r
  | block limit label => fun r =>
    match RankReader.readBlock limit label (r, .empty) with
    | .ok () (r, bytes) => .ok (.block bytes) r
    | .error failure (r, _) => .error failure r
  | ranks limit label => fun r =>
    match RankReader.readRanks limit label (r, .empty) with
    | .ok () (r, rs) => .ok (.ranks rs) r
    | .error failure (r, _) => .error failure r

/-- Reads what the calls ask for, up to the first failure. -/
def readAll : List Call → Action (RankReader δ) (List Item)
  | [] => fun r => .ok [] r
  | call :: calls => fun r =>
    match call.read r with
    | .error failure r => .error failure r
    | .ok item r =>
      match readAll calls r with
      | .ok items r => .ok (item :: items) r
      | .error failure r => .error failure r

variable {item : Item} {r r' : RankReader δ} {limit label : ℕ}

theorem read_word_eq_ok_iff :
    read .word r = .ok item r' ↔ ∃ w, RankReader.readWord r = .ok w r' ∧ item = .word w := by
  rw [read]
  dsimp only
  cases RankReader.readWord r with
  | error failure e => exact ⟨fun h => (nomatch h), fun ⟨w, h, _⟩ => (nomatch h)⟩
  | ok w e =>
    constructor
    · intro h
      cases h
      exact ⟨w, rfl, rfl⟩
    · rintro ⟨w, h, rfl⟩
      cases h
      rfl

theorem read_block_eq_ok_iff : read (.block limit label) r = .ok item r' ↔
    ∃ bytes, RankReader.readBlock limit label (r, .empty) = .ok () (r', bytes) ∧
      item = .block bytes := by
  rw [read]
  dsimp only
  cases RankReader.readBlock limit label (r, .empty) with
  | error failure e => exact ⟨fun h => (nomatch h), fun ⟨w, h, _⟩ => (nomatch h)⟩
  | ok _ e =>
    obtain ⟨e, bytes⟩ := e
    constructor
    · intro h
      cases h
      exact ⟨bytes, rfl, rfl⟩
    · rintro ⟨bytes, h, rfl⟩
      cases h
      rfl

theorem read_ranks_eq_ok_iff : read (.ranks limit label) r = .ok item r' ↔
    ∃ ranks, RankReader.readRanks limit label (r, .empty) = .ok () (r', ranks) ∧
      item = .ranks ranks := by
  rw [read]
  dsimp only
  cases RankReader.readRanks limit label (r, .empty) with
  | error failure e => exact ⟨fun h => (nomatch h), fun ⟨w, h, _⟩ => (nomatch h)⟩
  | ok _ e =>
    obtain ⟨e, ranks⟩ := e
    constructor
    · intro h
      cases h
      exact ⟨ranks, rfl, rfl⟩
    · rintro ⟨ranks, h, rfl⟩
      cases h
      rfl

theorem read_eq {call : Call} (hl : l.Complete) (hfits : item.Fits)
    (hmatches : call.Matches item) (h : Gives (item.symbols l) d f) :
    call.read ⟨d, l, none⟩ = .ok item ⟨f, item.list l, none⟩ := by
  cases hmatches with
  | word word => exact read_word_eq_ok_iff.mpr ⟨word, RankReader.readWord_eq l h, rfl⟩
  | @block limit bytes label hlimit =>
    have hsize : bytes.data.toList.length = bytes.size := Array.length_toList
    have hshort : bytes.data.toList.length < runLimit :=
      (hsize.trans_le hfits).trans_lt (by decide)
    have hroom : ByteArray.empty.size + bytes.data.toList.length ≤ limit := by
      rw [hsize, ByteArray.size_empty, Nat.zero_add]
      exact hlimit
    have hcomes : RankReader.Comes (blockSymbols l 0 bytes.data.toList) d none f := h
    obtain ⟨out, hread, hout⟩ := RankReader.readBlock_eq label l hl hshort hroom hcomes
    obtain rfl : out = bytes := ByteArray.ext (Array.toList_inj.mp hout)
    exact read_block_eq_ok_iff.mpr ⟨out, hread, rfl⟩
  | @ranks limit ranks label hlimit =>
    have hroom : ByteArray.empty.size + ranks.data.toList.length ≤ limit := by
      rw [Array.length_toList, ByteArray.size_empty, Nat.zero_add]
      exact hlimit
    have hcomes : RankReader.Comes (rankBlockSymbols 0 ranks.data.toList) d none f := h
    obtain ⟨out, hread, hout⟩ := RankReader.readRanks_eq label l hfits hroom hcomes
    obtain rfl : out = ranks := ByteArray.ext (Array.toList_inj.mp hout)
    exact read_ranks_eq_ok_iff.mpr ⟨out, hread, rfl⟩

/-- **A reader that is given the symbols of items gives the items to the calls that match them.** -/
theorem readAll_eq {calls : List Call} {items : List Item} (hl : l.Complete)
    (hfits : ∀ item ∈ items, item.Fits) (hmatches : List.Forall₂ Matches calls items)
    (h : Gives (Item.allSymbols l items) d f) :
    readAll calls ⟨d, l, none⟩ = .ok items ⟨f, items.foldl Item.list l, none⟩ := by
  induction hmatches generalizing l d with
  | nil =>
    obtain rfl := gives_nil h
    rfl
  | @cons call item calls items hcall _ ih =>
    obtain ⟨e, hitem, hrest⟩ := gives_append h
    have hread := read_eq hl (hfits item List.mem_cons_self) hcall hitem
    have hothers := ih (item.complete_list hl)
      (fun item hitem => hfits item (List.mem_cons_of_mem _ hitem)) hrest
    rw [readAll]
    dsimp only
    rw [hread]
    dsimp only
    rw [hothers]
    rfl

end Reading

/-- **Items that were recorded on a tape are played back by the calls that match them**, whatever lies
behind them on the tape.  After any number of items the reader stands behind just the symbols that the
writer had recorded for these items, with the same recency list, and neither side holds anything back. -/
theorem readAll_writeAll {items : List Item} {calls : List Call} (hfits : ∀ item ∈ items, item.Fits)
    (hmatches : List.Forall₂ Matches calls items) (more : Array Recorded) :
    ∃ w : RankWriter (TapeWriter contextCount),
      Item.writeAll items { coder := { contexts } } = .ok () w ∧
      ∀ n, ∃ (v : RankWriter (TapeWriter contextCount)) (r : RankReader (TapeReader contextCount)),
        Item.writeAll (items.take n) { coder := { contexts } } = .ok () v ∧
        v.coder.symbols.toList <+: w.coder.symbols.toList ∧
        readAll (calls.take n) { coder := { symbols := w.coder.symbols ++ more } } =
          .ok (items.take n) r ∧
        r.coder = { symbols := w.coder.symbols ++ more, position := v.coder.symbols.size } ∧
        r.list = v.list ∧ v.run = 0 ∧ r.ahead = none := by
  refine ⟨_, Item.writeAll_taped items, fun n => ?_⟩
  let xs := Item.allSymbols .fresh (items.take n)
  let ys := Item.allSymbols ((items.take n).foldl Item.list .fresh) (items.drop n)
  have hsymbols : recorded (Item.allSymbols .fresh items) = recorded xs ++ recorded ys := by
    have happend := Item.allSymbols_append .fresh (items.take n) (items.drop n)
    rw [List.take_append_drop] at happend
    rw [happend]
    exact List.map_append
  have hgives := TapeReader.gives_append #[] xs ((recorded ys).toArray ++ more)
  have htape : #[] ++ (recorded xs).toArray ++ ((recorded ys).toArray ++ more) =
      (recorded (Item.allSymbols .fresh items)).toArray ++ more := by
    rw [hsymbols, Array.empty_append, ← Array.append_assoc, ← List.append_toArray]
  rw [htape] at hgives
  have hread := readAll_eq RecencyList.complete_fresh
    (fun item hitem => hfits item (List.mem_of_mem_take hitem)) (List.forall₂_take n hmatches) hgives
  refine ⟨_, _, Item.writeAll_taped (items.take n), ?_, hread, ?_, rfl, rfl, rfl⟩
  · have hfirst : recorded xs <+: recorded (Item.allSymbols .fresh items) := by
      rw [hsymbols]
      exact List.prefix_append _ _
    exact hfirst
  · have hposition : (#[] : Array Recorded).size + xs.length = (recorded xs).toArray.size :=
      (Nat.zero_add _).trans (length_recorded xs).symm
    rw [hposition]
    rfl

/-- A word, the bytes 7, 7, 9 and the ranks 0, 0, 5, with a symbol of the next item behind them. -/
theorem readAll_writeAll_three :
    ∃ (w v : RankWriter (TapeWriter contextCount)) (r : RankReader (TapeReader contextCount)),
      Item.writeAll [.word 300, .block ⟨#[7, 7, 9]⟩, .ranks ⟨#[0, 0, 5]⟩] { coder := { contexts } } =
        .ok () w ∧
      Item.writeAll [.word 300, .block ⟨#[7, 7, 9]⟩] { coder := { contexts } } = .ok () v ∧
      readAll [.word, .block 3 0] { coder := { symbols := w.coder.symbols ++ #[⟨0, 4⟩] } } =
        .ok [.word 300, .block ⟨#[7, 7, 9]⟩] r ∧
      r.coder.position = v.coder.symbols.size ∧ r.list = v.list ∧ v.run = 0 ∧ r.ahead = none := by
  have hfits : ∀ item ∈ [Item.word 300, .block ⟨#[7, 7, 9]⟩, .ranks ⟨#[0, 0, 5]⟩], item.Fits := by
    intro item hitem
    obtain rfl | rfl | rfl : item = .word 300 ∨ item = .block ⟨#[7, 7, 9]⟩ ∨
      item = .ranks ⟨#[0, 0, 5]⟩ := by simpa using hitem
    · exact trivial
    · exact (by decide : 3 ≤ Config.maxBlockSize)
    · exact runsBelow_of_length_lt (by decide)
  have hmatches : List.Forall₂ Matches [.word, .block 3 0, .ranks 9 0]
      [.word 300, .block ⟨#[7, 7, 9]⟩, .ranks ⟨#[0, 0, 5]⟩] :=
    .cons (.word 300) (.cons (.block 0 (by decide)) (.cons (.ranks 0 (by decide)) .nil))
  obtain ⟨w, hw, hparts⟩ := readAll_writeAll hfits hmatches #[⟨0, 4⟩]
  obtain ⟨v, r, hv, -, hr, hcoder, hlist, hrun, hahead⟩ := hparts 2
  exact ⟨w, v, r, hw, hv, hr, congrArg TapeReader.position hcoder, hlist, hrun, hahead⟩

end Call

end Rank

end BlockPress
