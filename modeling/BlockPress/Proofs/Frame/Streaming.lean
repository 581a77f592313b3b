import BlockPress.Proofs.Frame.RoundTrip

/-!
# Frames from pieces of data

A frame writer on an unlimited sink takes data in pieces.  Whatever the pieces are, what was written as
full blocks and what is pending make up the data so far (`FrameWriter.Holds`), and the pending bytes
are less than a block.  Data falls into full blocks and such a rest in one way only
(`joined_append_inj`), so the state of a writer hangs on the data and not on the pieces
(`FrameWriter.Holds.unique`).

Main statement: **a frame does not depend on how its data was cut** (`Frame.streamed_eq_pack`).
-/

namespace BlockPress

open Rank Rotation

/-! ## Pieces of data -/

/-- The pieces put behind each other. -/
def joined (pieces : List ByteArray) : ByteArray := pieces.foldl (· ++ ·) .empty

theorem foldl_append_eq (out : ByteArray) (pieces : List ByteArray) :
    pieces.foldl (· ++ ·) out = out ++ joined pieces := by
  induction pieces generalizing out with
  | nil => exact ByteArray.append_empty.symm
  | cons b pieces ih =>
    rw [joined, List.foldl_cons, List.foldl_cons, ih, ih (.empty ++ b), ByteArray.empty_append,
      ByteArray.append_assoc]

theorem joined_cons (b : ByteArray) (pieces : List ByteArray) :
    joined (b :: pieces) = b ++ joined pieces := by
  rw [joined, List.foldl_cons, ByteArray.empty_append, foldl_append_eq]

theorem joined_concat (pieces : List ByteArray) (b : ByteArray) :
    joined (pieces ++ [b]) = joined pieces ++ b := by
  rw [joined, List.foldl_append, List.foldl_cons, List.foldl_nil, joined]

/-- **Data falls into full blocks and a rest in one way only.** -/
theorem joined_append_inj {size : ℕ} {bs cs : List ByteArray} {p q : ByteArray}
    (hbs : ∀ b ∈ bs, b.size = size) (hcs : ∀ c ∈ cs, c.size = size) (hp : p.size < size)
    (hq : q.size < size) (h : joined bs ++ p = joined cs ++ q) : bs = cs ∧ p = q := by
  induction bs generalizing cs with
  | nil =>
    cases cs with
    | nil => exact ⟨rfl, (ByteArray.append_right_inj _).mp h⟩
    | cons c cs =>
      have hsize := congrArg ByteArray.size h
      rw [joined_cons, ByteArray.append_assoc, ByteArray.size_append, ByteArray.size_append,
        hcs c List.mem_cons_self] at hsize
      have hempty : (joined []).size = 0 := rfl
      omega
  | cons b bs ih =>
    cases cs with
    | nil =>
      have hsize := congrArg ByteArray.size h
      rw [joined_cons, ByteArray.append_assoc, ByteArray.size_append,
        ByteArray.size_append (a := joined []), hbs b List.mem_cons_self] at hsize
      have hempty : (joined []).size = 0 := rfl
      omega
    | cons c cs =>
      rw [joined_cons, joined_cons, ByteArray.append_assoc, ByteArray.append_assoc] at h
      have hsize : b.size = c.size :=
        (hbs b List.mem_cons_self).trans (hcs c List.mem_cons_self).symm
      obtain ⟨rfl, hrest⟩ := (ByteArray.append_eq_append_iff_of_size_eq_left hsize).mp h
      obtain ⟨rfl, rfl⟩ := ih (fun b' hb' => hbs b' (List.mem_cons_of_mem b hb'))
        (fun c' hc' => hcs c' (List.mem_cons_of_mem b hc')) hrest
      exact ⟨rfl, rfl⟩

/-! ## Coders that take everything -/

/-- The coder takes any symbols and can then be closed. -/
def RangeWriter.Serves (e : RangeWriter contextCount) : Prop :=
  ∀ xs, ∃ f g, sendAll xs e = .ok () f ∧ RangeWriter.close f = .ok () g

theorem RangeWriter.Serves.sendAll {e f : RangeWriter contextCount} (h : e.Serves)
    {xs : List (Fin contextCount × UInt32)} (hsend : BlockPress.sendAll xs e = .ok () f) :
    f.Serves := by
  intro ys
  obtain ⟨g, g', hall, hclose⟩ := h (xs ++ ys)
  obtain ⟨d, hd, hrest⟩ := sendAll_append.mp hall
  rw [hsend] at hd
  cases hd
  exact ⟨g, g', hrest, hclose⟩

/-- **A coder on an unlimited sink takes everything.** -/
theorem RangeWriter.serves_start (sink : Sink) (h : sink.capacity = none) :
    (RangeWriter.start contexts sink).Serves := by
  intro xs
  have hshift : ∀ s ∈ symbolSteps (k := contextCount) 0 xs, s.ShiftInRange := by
    intro s hs
    obtain ⟨x, -, rfl⟩ := List.mem_map.mp hs
    trivial
  obtain ⟨f, slots, hall, -, hwrites⟩ := CoderStep.writeAll_eq
    (RangeWriter.writes_start contexts sink h) (Models.open_fresh contexts 0) hshift
  obtain ⟨g, hclose, -⟩ := hwrites.close
  exact ⟨f, g, RangeWriter.sendAll_of_writeAll hall, hclose⟩

namespace BlockWriter

/-- The writer has these settings, no run is pending, and its coder takes everything. -/
structure Able (config : Config) (w : BlockWriter (RangeWriter contextCount)) : Prop where
  /-- It has the settings of the stream. -/
  config_eq : w.config = config
  /-- No run is pending. -/
  run_eq : w.ranks.run = 0
  /-- The coder takes everything. -/
  serves : w.ranks.coder.Serves

variable {config : Config} {w w' : BlockWriter (RangeWriter contextCount)} {b : ByteArray}
  {bs : List ByteArray}

theorem Able.close (h : Able config w) : ∃ w', BlockWriter.close w = .ok () w' := by
  obtain ⟨⟨e, l, run⟩, config', s, n⟩ := w
  obtain ⟨rfl, rfl, hserves⟩ := h
  obtain ⟨f, g, hsend, hclose⟩ := hserves (wordSymbols streamEnd)
  exact ⟨_, close_eq hsend hclose⟩

variable [BlockHash]

/-- Writes blocks one after the other, up to the first failure. -/
def writeAll : List ByteArray → Action (BlockWriter (RangeWriter contextCount)) Unit
  | [] => fun w => .ok () w
  | b :: bs => fun w =>
    match write b w with
    | .error failure w => .error failure w
    | .ok _ w => writeAll bs w

theorem Able.write (h : Able config w) (hpos : 0 < b.size) (hfit : b.size ≤ config.blockSize) :
    ∃ w', BlockWriter.write b w = .ok b.size w' ∧ Able config w' ∧ w'.blocks = w.blocks + 1 := by
  obtain ⟨⟨e, l, run⟩, config', s, n⟩ := w
  obtain ⟨rfl, rfl, hserves⟩ := h
  obtain ⟨f, -, hsend, -⟩ := hserves (partSymbols config' l (s.sort b).origin ((s.sort b).column b) b)
  exact ⟨_, write_eq (extract_of_size_le hfit) hpos hsend, ⟨rfl, rfl, hserves.sendAll hsend⟩, rfl⟩

theorem writeAll_concat {w d e : BlockWriter (RangeWriter contextCount)} {k : ℕ}
    (hbs : writeAll bs w = .ok () d) (hb : BlockWriter.write b d = .ok k e) :
    writeAll (bs ++ [b]) w = .ok () e := by
  induction bs generalizing w with
  | nil =>
    cases hbs
    rw [List.nil_append, writeAll]
    dsimp only
    rw [hb]
    rfl
  | cons c bs ih =>
    rw [writeAll] at hbs
    rw [List.cons_append, writeAll]
    dsimp only at hbs ⊢
    cases hc : BlockWriter.write c w with
    | ok _ w =>
      rw [hc] at hbs
      exact ih hbs
    | error failure w =>
      rw [hc] at hbs
      cases hbs

/-- Blocks that fit are all written, and each of them is counted. -/
theorem Able.of_writeAll (h : Able config w) (hbs : ∀ b ∈ bs, b.size = config.blockSize)
    (hpos : 0 < config.blockSize) (hwrite : writeAll bs w = .ok () w') :
    Able config w' ∧ w'.blocks = w.blocks + bs.length := by
  induction bs generalizing w with
  | nil =>
    cases hwrite
    exact ⟨h, rfl⟩
  | cons b bs ih =>
    have hsize := hbs b List.mem_cons_self
    obtain ⟨d, hd, hable, hcount⟩ := h.write (hsize ▸ hpos) hsize.le
    rw [writeAll] at hwrite
    dsimp only at hwrite
    rw [hd] at hwrite
    obtain ⟨hable', hcount'⟩ := ih hable (fun b' hb' => hbs b' (List.mem_cons_of_mem b hb')) hwrite
    refine ⟨hable', ?_⟩
    rw [hcount', hcount, List.length_cons, Nat.add_assoc, Nat.add_comm 1]

end BlockWriter

section Streaming

variable [BlockHash]

namespace FrameWriter

/-- Takes pieces of data one after the other, up to the first failure. -/
def writeAll : List ByteArray → Action FrameWriter Unit
  | [] => fun w => .ok () w
  | chunk :: chunks => fun w =>
    match write chunk w with
    | .error failure w => .error failure w
    | .ok () w => writeAll chunks w

/-- Since the writer of blocks was `first`, the writer has taken the data: all of it was written as full
blocks or is pending. -/
structure Holds (first : BlockWriter (RangeWriter contextCount)) (data : ByteArray) (w : FrameWriter) :
    Prop where
  /-- What is pending does not fill a block. -/
  pending_lt : w.pending.size < first.config.blockSize
  /-- The blocks that were written are full, and what is pending stands behind them. -/
  blocks : ∃ bs, (∀ b ∈ bs, b.size = first.config.blockSize) ∧ joined bs ++ w.pending = data ∧
    BlockWriter.writeAll bs first = .ok () w.blocks

namespace Holds

variable {config : Config} {first : BlockWriter (RangeWriter contextCount)} {data more : ByteArray}
  {w w' : FrameWriter}

/-- **The data alone decides what was written and what is pending.** -/
theorem unique (h : Holds first data w) (h' : Holds first data w') (hin : w.bytesIn = w'.bytesIn) :
    w = w' := by
  obtain ⟨blocks, pending, bytesIn⟩ := w
  obtain ⟨blocks', pending', bytesIn'⟩ := w'
  obtain ⟨hlt, bs, hbs, hjoined, hwrite⟩ := h
  obtain ⟨hlt', cs, hcs, hjoined', hwrite'⟩ := h'
  obtain ⟨rfl, rfl⟩ := joined_append_inj hbs hcs hlt hlt' (hjoined.trans hjoined'.symm)
  rw [hwrite] at hwrite'
  cases hwrite'
  cases hin
  rfl

theorem able (h : Holds first data w) (hfirst : BlockWriter.Able config first)
    (hconfig : config.Valid) : BlockWriter.Able config w.blocks := by
  obtain ⟨-, bs, hbs, -, hwrite⟩ := h
  rw [hfirst.config_eq] at hbs
  exact (hfirst.of_writeAll hbs hconfig.1 hwrite).1

/-- Bytes that fill the pending ones up to a block are written with them. -/
theorem fill {blocks : BlockWriter (RangeWriter contextCount)} {pending : ByteArray} {n : ℕ}
    (h : Holds first data ⟨blocks, pending, n⟩) (hfirst : BlockWriter.Able config first)
    (hconfig : config.Valid) (hfull : (pending ++ more).size = config.blockSize) :
    ∃ blocks', BlockWriter.write (pending ++ more) blocks = .ok (pending ++ more).size blocks' ∧
      blocks'.config = config ∧ Holds first (data ++ more) ⟨blocks', .empty, n⟩ := by
  obtain ⟨blocks', hwrite, hable, -⟩ :=
    (h.able hfirst hconfig).write (hfull ▸ hconfig.1) hfull.le
  obtain ⟨hlt, bs, hbs, hjoined, hall⟩ := h
  refine ⟨blocks', hwrite, hable.config_eq, ?_, bs ++ [pending ++ more], fun b hb => ?_, ?_, ?_⟩
  · rw [hfirst.config_eq]
    exact hconfig.1
  · obtain hb | hb := List.mem_append.mp hb
    · exact hbs b hb
    · rw [List.mem_singleton.mp hb, hfirst.config_eq, hfull]
  · rw [joined_concat, ← hjoined, ByteArray.append_empty, ByteArray.append_assoc]
  · exact BlockWriter.writeAll_concat hall hwrite

/-- Bytes that do not fill the pending ones up to a block stay pending with them. -/
theorem stash {blocks : BlockWriter (RangeWriter contextCount)} {pending : ByteArray} {n : ℕ}
    (h : Holds first data ⟨blocks, pending, n⟩)
    (hlt : (pending ++ more).size < first.config.blockSize) :
    Holds first (data ++ more) ⟨blocks, pending ++ more, n⟩ := by
  obtain ⟨-, bs, hbs, hjoined, hall⟩ := h
  exact ⟨hlt, bs, hbs, by rw [← hjoined, ByteArray.append_assoc], hall⟩

/-- Full blocks of the data from a place on are written, and what is left is kept. -/
theorem writeFrom (more : ByteArray) {i : ℕ} (h : Holds first data w) (hfirst : BlockWriter.Able config first)
    (hconfig : config.Valid) (hrest : w.pending = .empty ∨ more.size ≤ i) :
    ∃ w', FrameWriter.writeFrom more i w = .ok () w' ∧
      Holds first (data ++ more.extract i more.size) w' ∧ w'.bytesIn = w.bytesIn := by
  induction hn : more.size - i using Nat.strong_induction_on generalizing i w data with
  | h n ih =>
    have hable := h.able hfirst hconfig
    have hpos := hconfig.1
    obtain ⟨blocks, pending, bytesIn⟩ := w
    have hcfg : blocks.config = config := hable.config_eq
    rw [FrameWriter.writeFrom]
    dsimp only
    rw [hcfg]
    by_cases hfull : 0 < config.blockSize ∧ i + config.blockSize ≤ more.size
    · -- A full block is left, so nothing is pending in front of it.
      obtain rfl : pending = .empty := hrest.resolve_right (by omega)
      have hsize : (.empty ++ more.extract i (i + config.blockSize)).size = config.blockSize := by
        rw [ByteArray.empty_append, ByteArray.size_extract]
        omega
      obtain ⟨blocks', hwrite, -, h'⟩ := h.fill hfirst hconfig hsize
      obtain ⟨w', hw', hholds, hin⟩ :=
        ih (more.size - (i + config.blockSize)) (by omega) h' (.inl rfl) rfl
      rw [ByteArray.empty_append] at hwrite
      refine ⟨w', ?_, ?_, hin⟩
      · rw [if_pos hfull, hwrite]
        exact hw'
      · rwa [ByteArray.append_assoc, ByteArray.extract_append_extract, Nat.min_eq_left (by omega),
          Nat.max_eq_right (by omega)] at hholds
    · have hlt : pending.size < first.config.blockSize := h.pending_lt
      refine ⟨_, if_neg hfull, h.stash ?_, rfl⟩
      obtain rfl | hge := hrest
      · rw [ByteArray.empty_append, ByteArray.size_extract, hfirst.config_eq]
        omega
      · rwa [extract_eq_empty hge, ByteArray.append_empty]

/-- **Taking more data keeps what was taken before.** -/
theorem write (h : Holds first data w) (hfirst : BlockWriter.Able config first)
    (hconfig : config.Valid) (more : ByteArray) : ∃ w', FrameWriter.write more w = .ok () w' ∧
      Holds first (data ++ more) w' ∧ w'.bytesIn = w.bytesIn + more.size := by
  have hable := h.able hfirst hconfig
  obtain ⟨blocks, pending, bytesIn⟩ := w
  have hcfg : blocks.config = config := hable.config_eq
  have hlt : pending.size < first.config.blockSize := h.pending_lt
  rw [hfirst.config_eq] at hlt
  have h₀ : Holds first data ⟨blocks, pending, bytesIn + more.size⟩ := ⟨h.pending_lt, h.blocks⟩
  rw [FrameWriter.write]
  dsimp only
  by_cases hempty : pending.isEmpty = true
  · have hpending : pending = .empty := ByteArray.size_eq_zero_iff.mp (beq_iff_eq.mp hempty)
    obtain ⟨w', hw', hholds, hin⟩ := h₀.writeFrom more (i := 0) hfirst hconfig (.inl hpending)
    rw [ByteArray.extract_zero_size] at hholds
    exact ⟨w', by rw [if_pos hempty, hw'], hholds, hin⟩
  · rw [if_neg hempty, hcfg]
    by_cases hshort : more.size < config.blockSize - pending.size
    · have hlt' : (pending ++ more).size < config.blockSize := by
        rw [ByteArray.size_append]
        omega
      have hstash := h₀.stash (hlt'.trans_eq (congrArg Config.blockSize hfirst.config_eq).symm)
      obtain ⟨w', hw', hholds, hin⟩ :=
        hstash.writeFrom more hfirst hconfig (.inr (Nat.le_refl _))
      rw [extract_eq_empty (Nat.le_refl _), ByteArray.append_empty] at hholds
      refine ⟨w', ?_, hholds, hin⟩
      rw [Nat.min_eq_right hshort.le, ByteArray.extract_zero_size, if_neg hlt'.ne, hw']
    · have hfull : (pending ++ more.extract 0 (config.blockSize - pending.size)).size =
          config.blockSize := by
        rw [ByteArray.size_append, ByteArray.size_extract]
        omega
      obtain ⟨blocks', hwrite, -, h'⟩ := h₀.fill hfirst hconfig hfull
      obtain ⟨w', hw', hholds, hin⟩ := h'.writeFrom more hfirst hconfig (.inl rfl)
      rw [ByteArray.append_assoc, ByteArray.extract_append_extract, Nat.zero_min,
        Nat.max_eq_right (Nat.not_lt.mp hshort), ByteArray.extract_zero_size] at hholds
      refine ⟨w', ?_, hholds, hin⟩
      rw [Nat.min_eq_left (Nat.not_lt.mp hshort), if_pos hfull, writePending, hwrite]
      exact hw'

/-- **Taking pieces of data is taking all of it.** -/
theorem writeAll (h : Holds first data w) (hfirst : BlockWriter.Able config first)
    (hconfig : config.Valid) (chunks : List ByteArray) :
    ∃ w', FrameWriter.writeAll chunks w = .ok () w' ∧ Holds first (data ++ joined chunks) w' ∧
      w'.bytesIn = w.bytesIn + (joined chunks).size := by
  induction chunks generalizing data w with
  | nil => exact ⟨w, rfl, ByteArray.append_empty.symm ▸ h, rfl⟩
  | cons chunk chunks ih =>
    obtain ⟨w₁, hw₁, h₁, hin₁⟩ := h.write hfirst hconfig chunk
    obtain ⟨w', hw', h', hin'⟩ := ih h₁
    refine ⟨w', ?_, ?_, ?_⟩
    · rw [FrameWriter.writeAll]
      dsimp only
      rw [hw₁]
      exact hw'
    · rwa [joined_cons, ← ByteArray.append_assoc]
    · rw [hin', hin₁, joined_cons, ByteArray.size_append, Nat.add_assoc]

/-- What is pending is written, and the stream ends. -/
theorem close (h : Holds first data w) (hfirst : BlockWriter.Able config first)
    (hconfig : config.Valid) : ∃ w', FrameWriter.close w = .ok () w' := by
  have hable := h.able hfirst hconfig
  have hlt := h.pending_lt
  obtain ⟨blocks, pending, bytesIn⟩ := w
  rw [hfirst.config_eq] at hlt
  rw [FrameWriter.close]
  by_cases hempty : pending.isEmpty = true
  · obtain ⟨blocks', hclose⟩ := hable.close
    refine ⟨⟨blocks', pending, bytesIn⟩, ?_⟩
    rw [if_pos hempty]
    dsimp only at hclose ⊢
    rw [hclose]
  · have hpos : 0 < pending.size := Nat.pos_of_ne_zero fun h0 => hempty (beq_iff_eq.mpr h0)
    obtain ⟨blocks', hwrite, hable', -⟩ := hable.write hpos hlt.le
    obtain ⟨blocks'', hclose⟩ := hable'.close
    refine ⟨⟨blocks'', .empty, bytesIn⟩, ?_⟩
    rw [if_neg hempty, writePending]
    dsimp only at hwrite ⊢
    rw [hwrite]
    dsimp only
    rw [hclose]

end Holds

/-- A writer starts with no data taken. -/
theorem exists_holds_start {config : Config} (h : config.Valid) :
    ∃ w s, start config {} = .ok w s ∧ BlockWriter.Able config w.blocks ∧ w.blocks.blocks = 0 ∧
      w.bytesIn = 0 ∧ w.Holds w.blocks .empty := by
  refine ⟨_, _, start_eq h, ⟨rfl, rfl, RangeWriter.serves_start _ rfl⟩, rfl, rfl, h.1, [], ?_, rfl, rfl⟩
  exact fun b hb => absurd hb List.not_mem_nil

end FrameWriter

end Streaming

namespace Frame

section Streaming

variable [BlockHash]

/-- **A frame does not depend on how its data was cut.**  However the data comes, a writer ends up with
the frame that packing gives; before and after each piece its pending bytes are less than a block, it
has counted the bytes that it took and the full blocks that it wrote, and the bytes are these blocks and
the pending bytes behind them. -/
theorem streamed_eq_pack (config : Config) (h : config.Valid) (chunks : List ByteArray) :
    ∃ w₀ s w w', FrameWriter.start config {} = .ok w₀ s ∧
      FrameWriter.writeAll chunks w₀ = .ok () w ∧ FrameWriter.close w = .ok () w' ∧
      pack (joined chunks) config = .ok w'.sink.written ∧
      ∀ n, ∃ wₙ, FrameWriter.writeAll (chunks.take n) w₀ = .ok () wₙ ∧
        wₙ.pending.size < config.blockSize ∧ wₙ.bytesIn = (joined (chunks.take n)).size ∧
        ∃ bs, (∀ b ∈ bs, b.size = config.blockSize) ∧
          joined bs ++ wₙ.pending = joined (chunks.take n) ∧
          BlockWriter.writeAll bs w₀.blocks = .ok () wₙ.blocks ∧ wₙ.blocks.blocks = bs.length := by
  obtain ⟨w₀, s, hstart, hfirst, hcount₀, hin₀, hholds⟩ := FrameWriter.exists_holds_start h
  obtain ⟨w, hw, hfed, hin⟩ := hholds.writeAll hfirst h chunks
  obtain ⟨w₁, hw₁, hfed₁, hin₁⟩ := hholds.write hfirst h (joined chunks)
  obtain rfl : w₁ = w := hfed₁.unique hfed (hin₁.trans hin.symm)
  obtain ⟨w', hw'⟩ := hfed.close hfirst h
  refine ⟨w₀, s, w₁, w', hstart, hw, hw', ?_, fun n => ?_⟩
  · rw [pack, hstart]
    dsimp only
    rw [hw₁]
    dsimp only
    rw [hw']
  · obtain ⟨wₙ, hwₙ, hfedₙ, hinₙ⟩ := hholds.writeAll hfirst h (chunks.take n)
    obtain ⟨hlt, bs, hbs, hjoined, hall⟩ := hfedₙ
    rw [hfirst.config_eq] at hlt hbs
    rw [ByteArray.empty_append] at hjoined
    obtain ⟨-, hcount⟩ := hfirst.of_writeAll hbs h.1 hall
    rw [hcount₀, Nat.zero_add] at hcount
    rw [hin₀, Nat.zero_add] at hinₙ
    exact ⟨wₙ, hwₙ, hlt, hinₙ, bs, hbs, hjoined, hall, hcount⟩

end Streaming

/-- Four bytes in three pieces, one of them empty, go into two blocks of two. -/
theorem streamed_eq_pack_three : (⟨2, true⟩ : Config).Valid ∧
    ∃ w₀ s w w', FrameWriter.start ⟨2, true⟩ {} = .ok w₀ s ∧
      FrameWriter.writeAll [⟨#[98]⟩, .empty, ⟨#[97, 110, 97]⟩] w₀ = .ok () w ∧
      FrameWriter.close w = .ok () w' ∧
      pack ⟨#[98, 97, 110, 97]⟩ ⟨2, true⟩ = .ok w'.sink.written := by
  have hvalid : (⟨2, true⟩ : Config).Valid := by decide
  obtain ⟨w₀, s, w, w', hstart, hw, hclose, hpack, -⟩ :=
    streamed_eq_pack ⟨2, true⟩ hvalid [⟨#[98]⟩, .empty, ⟨#[97, 110, 97]⟩]
  have hjoined : joined [⟨#[98]⟩, .empty, ⟨#[97, 110, 97]⟩] = ⟨#[98, 97, 110, 97]⟩ := by
    decide
  exact ⟨hvalid, w₀, s, w, w', hstart, hw, hclose, hjoined ▸ hpack⟩

end Frame

end BlockPress
