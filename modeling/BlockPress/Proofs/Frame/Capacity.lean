import BlockPress.Proofs.Frame.Streaming
import BlockPress.Proofs.Rank.Capacity

/-!
# Frames on a sink that fills up

A sink takes `L` bytes and then fails.  A writer of a frame gets as far as these reach: **each of its calls
does the same as on a sink that takes everything, or fails and leaves the first `L` bytes of the frame
behind** (`FrameWriter.rations_write`, `FrameWriter.rations_close`).  A caller that goes on after the
failure, with any data, changes nothing more (`FrameWriter.stuck_write`), and cannot close the frame
(`FrameWriter.stuck_close`).

Main statement: the sink holds a prefix of the frame after every call; some call fails exactly if the frame
is longer than `L`; and the close succeeds exactly if all of the frame was delivered (`Frame.delivery`).
-/

namespace BlockPress

open Rank Carrier RangeWriter

instance : Carrier FrameWriter contextCount where
  coder w := coder w.blocks
  ration n w := { w with blocks := ration n w.blocks }

namespace FrameWriter

/-! ## The start -/

/-- A writer starts behind the header, if the sink takes that. -/
theorem start_capacity {config : Config} (h : config.Valid) (L : ℕ) :
    ∃ w, start config {} = .ok w (headed config) ∧ (coder w).sink = headed config ∧
      start config { capacity := some L } =
        if (headed config).written.size ≤ L then .ok (ration L w) ⟨(headed config).written, some L⟩
        else .error (.io Sink.fullReason) ⟨(headed config).written.extract 0 L, some L⟩ := by
  refine ⟨_, start_eq h, rfl, ?_⟩
  have hcheck := Config.check_eq_ok_iff.mpr h
  have hsink : Sink.write ⟨(FrameHeader.ofConfig config).toBytes.toArray⟩ { capacity := some L } =
      if (headed config).written.size ≤ L then .ok () ⟨(headed config).written, some L⟩
      else .error (.io Sink.fullReason) ⟨(headed config).written.extract 0 L, some L⟩ := by
    have hroom : L - ByteArray.empty.size = L := Nat.sub_zero L
    rw [Sink.write, hroom, ByteArray.empty_append, ByteArray.empty_append]
    rfl
  rw [start, hcheck]
  dsimp only
  rw [hsink]
  by_cases hfits : (headed config).written.size ≤ L
  · rw [if_pos hfits, if_pos hfits]
    dsimp only
    rw [BlockWriter.start_eq h]
    rfl
  · rw [if_neg hfits, if_neg hfits]

variable [BlockHash]

/-! ## As long as the sink takes something -/

theorem rations_writePending : Rations Stuck writePending := by
  intro L w hw hL
  obtain ⟨blocks, pending, bytesIn⟩ := w
  have hblock := BlockWriter.rations_write pending L blocks hw hL
  change Rationed L Stuck (written blocks) (writePending ⟨blocks, pending, bytesIn⟩)
    (writePending ⟨ration L blocks, pending, bytesIn⟩)
  rw [writePending, writePending]
  generalize BlockWriter.write _ blocks = x, BlockWriter.write _ (ration L blocks) = x' at hblock ⊢
  apply hblock.andThen (g := fun blocks => ⟨blocks, pending, bytesIn⟩) (fun _ _ => rfl) (fun _ => rfl)
  exact fun L' _ blocks hw hL => .same hw rfl hL

theorem rations_writeFrom (data : ByteArray) (i : ℕ) : Rations Stuck (writeFrom data i) := by
  induction hn : data.size - i using Nat.strongRecOn generalizing i with
  | ind n ih =>
    intro L w hw hL
    obtain ⟨blocks, pending, bytesIn⟩ := w
    change Rationed L Stuck (written blocks) (writeFrom data i ⟨blocks, pending, bytesIn⟩)
      (writeFrom data i ⟨ration L blocks, pending, bytesIn⟩)
    have hsize : (ration L blocks).config.blockSize = blocks.config.blockSize := rfl
    rw [writeFrom, writeFrom, hsize]
    split
    · next hfull =>
      have hblock := BlockWriter.rations_write (data.extract i (i + blocks.config.blockSize)) L blocks hw hL
      have hless : data.size - (i + blocks.config.blockSize) < n := by omega
      generalize i + blocks.config.blockSize = j at hblock hless ⊢
      generalize BlockWriter.write _ blocks = x, BlockWriter.write _ (ration L blocks) = x' at hblock ⊢
      apply hblock.andThen (g := fun blocks => ⟨blocks, pending, bytesIn⟩) (fun _ _ => rfl)
        (fun _ => rfl)
      exact fun L' _ blocks hw hL => ih _ hless j rfl L' ⟨blocks, pending, bytesIn⟩ hw hL
    · exact .same hw rfl hL

/-- **Data is taken up to the failure of the sink.** -/
theorem rations_write (data : ByteArray) : Rations Stuck (write data) := by
  intro L w hw hL
  obtain ⟨blocks, pending, bytesIn⟩ := w
  change Rationed L Stuck (written blocks) (write data ⟨blocks, pending, bytesIn⟩)
    (write data ⟨ration L blocks, pending, bytesIn⟩)
  have hsize : (ration L blocks).config.blockSize = blocks.config.blockSize := rfl
  rw [write, write, hsize]
  dsimp only
  split
  · exact rations_writeFrom data 0 L ⟨blocks, pending, _⟩ hw hL
  · generalize min (blocks.config.blockSize - pending.size) data.size = take
    split
    · have hpending :=
        rations_writePending L ⟨blocks, pending ++ data.extract 0 take, bytesIn + data.size⟩ hw hL
      change Rationed L Stuck (written blocks) _
        (writePending ⟨ration L blocks, pending ++ data.extract 0 take, bytesIn + data.size⟩) at hpending
      generalize writePending ⟨blocks, _, _⟩ = x, writePending ⟨ration L blocks, _, _⟩ = x'
        at hpending ⊢
      apply hpending.andThen (g := id) (fun _ _ => rfl) (fun _ => rfl)
      exact fun L' _ w hw hL => rations_writeFrom data take L' w hw hL
    · exact rations_writeFrom data take L ⟨blocks, _, _⟩ hw hL

/-- **A frame is ended, or stops at the failure of the sink.** -/
theorem rations_close : Rations Halted close := by
  intro L w hw hL
  have hpending : Rationed L Halted (written w)
      (if w.pending.isEmpty then .ok () w else writePending w)
      (if (ration L w).pending.isEmpty then .ok () (ration L w) else writePending (ration L w)) := by
    change Rationed L Halted (written w) _
      (if w.pending.isEmpty then .ok () (ration L w) else writePending (ration L w))
    split
    · exact .same hw rfl hL
    · exact (rations_writePending L w hw hL).mono fun _ _ h => h.halted
  rw [close, close]
  generalize (if w.pending.isEmpty then _ else _) = x,
    (if (ration L w).pending.isEmpty then _ else _) = x' at hpending ⊢
  apply hpending.andThen (g := id) (fun _ _ => rfl) (fun _ => rfl)
  intro L _ w hw hL
  obtain ⟨blocks, pending, bytesIn⟩ := w
  have hclose := BlockWriter.rations_close L blocks hw hL
  have hration : ration L (⟨blocks, pending, bytesIn⟩ : FrameWriter) =
      ⟨ration L blocks, pending, bytesIn⟩ := rfl
  rw [hration]
  dsimp only
  generalize BlockWriter.close blocks = x, BlockWriter.close (ration L blocks) = x' at hclose ⊢
  apply hclose.andThen (g := fun blocks => ⟨blocks, pending, bytesIn⟩) (fun _ _ => rfl) (fun _ => rfl)
  exact fun L' _ blocks hw hL => .same hw rfl hL

/-! ## When the sink is full -/

variable {held : ByteArray} {w : FrameWriter}

theorem stuck_writePending (h : (coder w).Stuck held) : (coder (leftBy (writePending w))).Stuck held := by
  obtain ⟨blocks, pending, bytesIn⟩ := w
  have hblock := BlockWriter.stuck_write h pending
  rw [writePending]
  generalize BlockWriter.write pending blocks = x at hblock ⊢
  cases x with
  | ok n blocks' => exact hblock
  | error f blocks' => exact hblock

theorem stuck_writeFrom (data : ByteArray) (i : ℕ) (h : (coder w).Stuck held) :
    (coder (leftBy (writeFrom data i w))).Stuck held := by
  induction hn : data.size - i using Nat.strongRecOn generalizing i w with
  | ind n ih =>
    obtain ⟨blocks, pending, bytesIn⟩ := w
    have hblock := BlockWriter.stuck_write h (data.extract i (i + blocks.config.blockSize))
    rw [writeFrom]
    split
    · next hfull =>
      generalize BlockWriter.write _ blocks = x at hblock ⊢
      cases x with
      | ok m blocks' => exact ih _ (by omega) (i + blocks.config.blockSize) hblock rfl
      | error f blocks' => exact hblock
    · exact h

/-- **Data that comes after the failure changes nothing in the sink.** -/
theorem stuck_write (data : ByteArray) (h : (coder w).Stuck held) :
    (coder (leftBy (write data w))).Stuck held := by
  obtain ⟨blocks, pending, bytesIn⟩ := w
  rw [write]
  dsimp only
  split
  · exact stuck_writeFrom data 0 h
  · generalize min (blocks.config.blockSize - pending.size) data.size = take
    split
    · have hpending := stuck_writePending
        (w := ⟨blocks, pending ++ data.extract 0 take, bytesIn + data.size⟩) h
      generalize writePending _ = x at hpending ⊢
      cases x with
      | ok _ w' => exact stuck_writeFrom data take hpending
      | error f w' => exact hpending
    · exact stuck_writeFrom data take h

/-- **A frame that failed cannot be closed.** -/
theorem stuck_close (h : (coder w).Stuck held) :
    ∃ f w', close w = .error f w' ∧ (coder w').Stuck held := by
  have hpending : (coder (leftBy (if w.pending.isEmpty then .ok () w else writePending w))).Stuck
      held := by
    split
    · exact h
    · exact stuck_writePending h
  rw [close]
  generalize (if w.pending.isEmpty then _ else _) = x at hpending ⊢
  cases x with
  | error f w' => exact ⟨f, w', rfl, hpending⟩
  | ok _ w' =>
    obtain ⟨blocks, pending, bytesIn⟩ := w'
    have hblocks : (coder blocks).Stuck held := hpending
    obtain ⟨f, blocks', hclose, hstuck⟩ := BlockWriter.stuck_close hblocks
    refine ⟨f, ⟨blocks', pending, bytesIn⟩, ?_, hstuck⟩
    dsimp only
    rw [hclose]

end FrameWriter

/-! ## Calls -/

namespace Frame

/-- What is known after a call: whether it failed, and what the sink holds. -/
structure Report where
  /-- The failure of the call, if any. -/
  failure : Option Failure
  /-- The bytes that the sink holds. -/
  held : ByteArray

/-- The reports that come of writing a frame on a sink that takes `L` bytes: calls without a failure, up
to the one that has delivered all of it; or up to a call that fails, and then others that change nothing in
the sink and do not end well. -/
inductive Tells (frame : ByteArray) (L : ℕ) : List Report → Prop where
  /-- The frame was delivered. -/
  | done (h : frame.size ≤ L) : Tells frame L [⟨none, frame⟩]
  /-- The sink is full. -/
  | failed {f : Failure} {rest : List Report} (h : L < frame.size)
    (hrest : ∀ r ∈ rest, r.held = frame.extract 0 L)
    (hlast : ∀ r ∈ rest.getLast?, r.failure.isSome) :
    Tells frame L (⟨some f, frame.extract 0 L⟩ :: rest)
  /-- The call succeeds. -/
  | next {n : ℕ} {rest : List Report} (h : Tells frame L rest) :
    Tells frame L (⟨none, frame.extract 0 n⟩ :: rest)

namespace Tells

variable {frame : ByteArray} {L : ℕ} {reports : List Report}

theorem held_prefix (h : Tells frame L reports) : ∀ r ∈ reports, ∃ n, r.held = frame.extract 0 n := by
  induction h with
  | done h => exact List.forall_mem_singleton.mpr ⟨frame.size, ByteArray.extract_zero_size.symm⟩
  | failed h hrest hlast =>
    exact List.forall_mem_cons.mpr ⟨⟨L, rfl⟩, fun r hr => ⟨L, hrest r hr⟩⟩
  | @next n rest h ih => exact List.forall_mem_cons.mpr ⟨⟨n, rfl⟩, ih⟩

theorem exists_failure_iff (h : Tells frame L reports) :
    (∃ r ∈ reports, r.failure.isSome) ↔ L < frame.size := by
  induction h with
  | done h =>
    refine iff_of_false (fun ⟨r, hr, hsome⟩ => ?_) (Nat.not_lt.mpr h)
    rw [List.mem_singleton.mp hr] at hsome
    cases hsome
  | failed h hrest hlast => exact iff_of_true ⟨_, List.mem_cons_self, rfl⟩ h
  | next h ih =>
    rw [← ih, List.exists_mem_cons_iff]
    exact or_iff_right Bool.false_ne_true

/-- **From the first failure on the sink holds the same.** -/
theorem held_of_failed (h : Tells frame L reports) :
    ∀ r ∈ reports.dropWhile (·.failure.isNone), r.held = frame.extract 0 L := by
  induction h with
  | done h => exact fun r hr => nomatch hr
  | failed h hrest hlast => exact List.forall_mem_cons.mpr ⟨rfl, hrest⟩
  | next h ih => exact ih

theorem exists_last (h : Tells frame L reports) :
    ∃ r, reports.getLast? = some r ∧ (r.failure = none ↔ r.held = frame) := by
  induction h with
  | done h => exact ⟨_, rfl, iff_of_true rfl rfl⟩
  | @failed f rest h hrest hlast =>
    have hne : frame.extract 0 L ≠ frame := fun heq => by
      have hsize := congrArg ByteArray.size heq
      rw [ByteArray.size_extract] at hsize
      omega
    rw [List.getLast?_cons]
    cases heq : rest.getLast? with
    | none => exact ⟨_, rfl, iff_of_false (Option.some_ne_none f) hne⟩
    | some r =>
      have hfailure := hlast r heq
      have hheld := hrest r (List.mem_of_getLast? heq)
      refine ⟨r, rfl, iff_of_false (fun hnone => ?_) (hheld ▸ hne)⟩
      rw [hnone] at hfailure
      cases hfailure
  | next h ih =>
    obtain ⟨r, hr, hiff⟩ := ih
    exact ⟨r, by rw [List.getLast?_cons, hr]; rfl, hiff⟩

end Tells

end Frame

namespace FrameWriter

variable [BlockHash]

open BlockPress.Frame

/-- The report of a call. -/
def report : EStateM.Result Failure FrameWriter Unit → Report
  | .ok _ w => ⟨none, w.sink.written⟩
  | .error f w => ⟨some f, w.sink.written⟩

/-- The reports of a caller that goes on, whatever fails: data piece by piece, and then the close. -/
def persist : List ByteArray → FrameWriter → List Report
  | [], w => [report (close w)]
  | chunk :: chunks, w => report (write chunk w) :: persist chunks (leftBy (write chunk w))

/-- The reports of a caller that gives the data piece by piece and then closes; behind a failure it goes on
with other pieces `more`. -/
def reports (more : List ByteArray) : List ByteArray → FrameWriter → List Report
  | [], w => [report (close w)]
  | chunk :: chunks, w =>
    report (write chunk w) ::
      match write chunk w with
      | .ok _ w => reports more chunks w
      | .error _ w => persist more w

variable {held : ByteArray} {w w₁ w₂ : FrameWriter} {L : ℕ}

theorem persist_stuck (h : (coder w).Stuck held) (chunks : List ByteArray) :
    (∀ r ∈ persist chunks w, r.held = held) ∧
      ∃ r, (persist chunks w).getLast? = some r ∧ r.failure.isSome := by
  induction chunks generalizing w with
  | nil =>
    obtain ⟨f, w', hclose, hstuck⟩ := stuck_close h
    rw [persist, hclose]
    exact ⟨List.forall_mem_singleton.mpr hstuck.halted, _, rfl, rfl⟩
  | cons chunk chunks ih =>
    have hwrite := stuck_write chunk h
    obtain ⟨hheld, r, hr, hfailed⟩ := ih hwrite
    have hreport : (report (write chunk w)).held = held := by
      generalize write chunk w = x at hwrite
      cases x with
      | ok _ w' => exact hwrite.halted
      | error f w' => exact hwrite.halted
    refine ⟨List.forall_mem_cons.mpr ⟨hreport, hheld⟩, r, ?_, hfailed⟩
    rw [persist, List.getLast?_cons, hr]
    rfl

theorem writeAll_cons {chunk : ByteArray} {chunks : List ByteArray}
    (h : writeAll (chunk :: chunks) w = .ok () w₁) :
    ∃ w', write chunk w = .ok () w' ∧ writeAll chunks w' = .ok () w₁ := by
  rw [writeAll] at h
  dsimp only at h
  cases hwrite : write chunk w with
  | error f w' =>
    rw [hwrite] at h
    cases h
  | ok _ w' =>
    rw [hwrite] at h
    exact ⟨w', rfl, h⟩

/-- What is held when a frame is complete follows what was held before. -/
theorem follows_writeAll_close {chunks : List ByteArray} (hw : (coder w).sink.capacity = none)
    (hall : writeAll chunks w = .ok () w₁) (hclose : close w₁ = .ok () w₂) : Follows (written w) w₂ := by
  induction chunks generalizing w with
  | nil =>
    cases hall
    exact rations_close.follows hw hclose
  | cons chunk chunks ih =>
    obtain ⟨w', hwrite, hall⟩ := writeAll_cons hall
    have hfollows := (rations_write chunk).follows hw hwrite
    exact hfollows.trans (ih hfollows.unlimited hall)

/-- **The reports tell of the frame that is written on a sink that takes everything.** -/
theorem tells_reports (more : List ByteArray) {chunks : List ByteArray}
    (hw : (coder w).sink.capacity = none) (hL : (written w).size ≤ L)
    (hall : writeAll chunks w = .ok () w₁) (hclose : close w₁ = .ok () w₂) :
    Tells (written w₂) L ((ration L w).reports more chunks) := by
  induction chunks generalizing w with
  | nil =>
    have hrationed := rations_close L w hw hL
    cases hall
    rw [hclose] at hrationed
    rw [reports]
    generalize close (ration L w₁) = x at hrationed ⊢
    cases hrationed with
    | fits follows size_le => exact .done size_le
    | @full _ _ t' f _ lt_size left =>
      have hreport : report (.error f t') = ⟨some f, (written w₂).extract 0 L⟩ :=
        congrArg (Report.mk (some f)) left
      rw [hreport]
      exact .failed lt_size (fun r hr => nomatch hr) fun r hr => nomatch hr
  | cons chunk chunks ih =>
    have hrationed := rations_write chunk L w hw hL
    obtain ⟨w', hwrite, hall⟩ := writeAll_cons hall
    have hfollows := (rations_write chunk).follows hw hwrite
    have hrest := follows_writeAll_close hfollows.unlimited hall hclose
    rw [hwrite] at hrationed
    rw [reports]
    generalize write chunk (ration L w) = x at hrationed ⊢
    cases hrationed with
    | fits _ size_le =>
      have hreport : report (.ok () (ration L w')) = ⟨none, (written w₂).extract 0 (written w').size⟩ :=
        congrArg (Report.mk none) hrest.eq_extract
      rw [hreport]
      exact .next (ih hfollows.unlimited size_le hall)
    | @full _ _ t' f _ lt_size left =>
      rw [← hrest.extract_eq lt_size.le] at left
      obtain ⟨hheld, r, hr, hfailed⟩ := persist_stuck left more
      have hreport : report (.error f t') = ⟨some f, (written w₂).extract 0 L⟩ :=
        congrArg (Report.mk (some f)) left.halted
      rw [hreport]
      refine .failed (lt_size.trans_le hrest.size_le) hheld fun r' hr' => ?_
      cases hr.symm.trans hr'
      exact hfailed

end FrameWriter

namespace Frame

section Reporting

variable [BlockHash]

/-- The reports of writing a frame on a sink that takes `L` bytes: of the start, of the data piece by
piece, and of the close.  Behind a failure the caller goes on with other pieces `more`; without a start
there is nothing to go on with. -/
def reports (config : Config) (L : ℕ) (chunks more : List ByteArray) : List Report :=
  match FrameWriter.start config { capacity := some L } with
  | .error f sink => [⟨some f, sink.written⟩]
  | .ok w sink => ⟨none, sink.written⟩ :: w.reports more chunks

/-- Data is packed as its pieces are written. -/
theorem exists_pack_joined {config : Config} (h : config.Valid) (chunks : List ByteArray) :
    ∃ w w₁ w₂, FrameWriter.start config {} = .ok w (headed config) ∧
      FrameWriter.writeAll chunks w = .ok () w₁ ∧ FrameWriter.close w₁ = .ok () w₂ ∧
      pack (joined chunks) config = .ok w₂.sink.written := by
  obtain ⟨w, s, hstart, hfirst, -, -, hholds⟩ := FrameWriter.exists_holds_start h
  obtain ⟨w₁, hall, hfed, hin⟩ := hholds.writeAll hfirst h chunks
  obtain ⟨w₁', hwrite, hfed', hin'⟩ := hholds.write hfirst h (joined chunks)
  obtain rfl : w₁' = w₁ := hfed'.unique hfed (hin'.trans hin.symm)
  obtain ⟨w₂, hclose⟩ := hfed.close hfirst h
  obtain ⟨-, hs⟩ := EStateM.Result.ok.inj (hstart.symm.trans (FrameWriter.start_eq h))
  refine ⟨w, w₁', w₂, hs ▸ hstart, hall, hclose, ?_⟩
  rw [pack, hstart]
  dsimp only
  rw [hwrite]
  dsimp only
  rw [hclose]

/-- The reports tell of the frame of the data. -/
theorem exists_tells {config : Config} (h : config.Valid) (chunks : List ByteArray) :
    ∃ frame, pack (joined chunks) config = .ok frame ∧
      ∀ L more, Tells frame L (reports config L chunks more) := by
  obtain ⟨w, w₁, w₂, hstart, hall, hclose, hpack⟩ := exists_pack_joined h chunks
  refine ⟨w₂.sink.written, hpack, fun L more => ?_⟩
  obtain ⟨w', hstart', hsink, hlimited⟩ := FrameWriter.start_capacity h L
  obtain rfl : w' = w := (EStateM.Result.ok.inj (hstart'.symm.trans hstart)).1
  have hheader : written w' = (headed config).written := congrArg Sink.written hsink
  have hunlimited : (coder w').sink.capacity = none := congrArg Sink.capacity hsink
  have hfollows := FrameWriter.follows_writeAll_close hunlimited hall hclose
  rw [reports, hlimited]
  by_cases hfits : (headed config).written.size ≤ L
  · rw [if_pos hfits]
    have htells := FrameWriter.tells_reports more hunlimited (hheader ▸ hfits) hall hclose
    have hheld := hfollows.eq_extract
    rw [hheader] at hheld
    dsimp only
    rw [hheld]
    exact .next htells
  · rw [if_neg hfits]
    have hlt : L < (written w').size := hheader ▸ Nat.not_le.mp hfits
    have hfirst := hfollows.extract_eq hlt.le
    rw [hheader] at hfirst
    dsimp only
    rw [← hfirst]
    exact .failed (hlt.trans_le hfollows.size_le) (fun r hr => nomatch hr) fun r hr => nomatch hr

/-- **A frame is delivered, or its writer says that it was not.**  Data comes in pieces, and the sink takes
`L` bytes; behind a failure the caller may go on with whatever pieces.  After every call the sink holds a
prefix of the frame.  Some call fails exactly if the frame is longer than `L`, and from then on the sink
holds the first `L` bytes of it.  The last call succeeds exactly if all of the frame was delivered. -/
theorem delivery (config : Config) (h : config.Valid) (chunks : List ByteArray) :
    ∃ frame, pack (joined chunks) config = .ok frame ∧ ∀ L more,
      (∀ r ∈ reports config L chunks more, ∃ n, r.held = frame.extract 0 n) ∧
      ((∃ r ∈ reports config L chunks more, r.failure.isSome) ↔ L < frame.size) ∧
      (∀ r ∈ (reports config L chunks more).dropWhile (·.failure.isNone),
        r.held = frame.extract 0 L) ∧
      ∃ r, (reports config L chunks more).getLast? = some r ∧ (r.failure = none ↔ r.held = frame) := by
  obtain ⟨frame, hpack, htells⟩ := exists_tells h chunks
  refine ⟨frame, hpack, fun L more => ?_⟩
  have h := htells L more
  exact ⟨h.held_prefix, h.exists_failure_iff, h.held_of_failed, h.exists_last⟩

end Reporting

/-- Four bytes in two pieces on a sink that takes twelve, and a caller that goes on with a third piece. -/
theorem delivery_twelve : (⟨2, true⟩ : Config).Valid ∧
    ∃ frame, pack ⟨#[98, 97, 110, 97]⟩ ⟨2, true⟩ = .ok frame ∧
      ((∃ r ∈ reports ⟨2, true⟩ 12 [⟨#[98]⟩, ⟨#[97, 110, 97]⟩] [⟨#[0]⟩], r.failure.isSome) ↔
        12 < frame.size) ∧
      ∃ r, (reports ⟨2, true⟩ 12 [⟨#[98]⟩, ⟨#[97, 110, 97]⟩] [⟨#[0]⟩]).getLast? = some r ∧
        (r.failure = none ↔ r.held = frame) := by
  have hvalid : (⟨2, true⟩ : Config).Valid := by decide
  have hjoined : joined [⟨#[98]⟩, ⟨#[97, 110, 97]⟩] = ⟨#[98, 97, 110, 97]⟩ := by decide
  obtain ⟨frame, hpack, hall⟩ := delivery ⟨2, true⟩ hvalid [⟨#[98]⟩, ⟨#[97, 110, 97]⟩]
  obtain ⟨-, hfails, -, hlast⟩ := hall 12 [⟨#[0]⟩]
  exact ⟨hvalid, frame, hjoined ▸ hpack, hfails, hlast⟩

end Frame

end BlockPress
