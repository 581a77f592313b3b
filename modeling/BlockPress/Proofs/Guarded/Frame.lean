import BlockPress.Frame.Reader
import BlockPress.Proofs.Entropy.Symbol
import BlockPress.Proofs.Guarded.Blocks

/-!
# Guarded frame readers

A frame reader is started on any bytes, and asked for blocks any number of times, also after it failed
(`FrameReader.answers`).  The reader that a call leaves behind is ready for the next one, whether the
call succeeded or not, so no call ever fails a check.

Main statement: **a guarded session comes to what the session comes to**: each call gives a block, the end
of the stream or a failure that is reachable (`Guarded.session_eq_some`).
-/

namespace BlockPress

open Rank

/-! ## Sessions -/

/-- The answer is no failure, or one that is reachable. -/
def Answered {α : Type} : Except Failure α → Prop
  | .ok _ => True
  | .error failure => failure.Reachable

namespace FrameReader

variable [BlockHash]

/-- What `n` calls for a block give, each on the reader that the call before has left behind. -/
def answers : ℕ → FrameReader → List (Except Failure (Option ByteArray))
  | 0, _ => []
  | n + 1, r =>
    match readBlock r with
    | .ok answer r => .ok answer :: answers n r
    | .error failure r => .error failure :: answers n r

/-- What the start of a reader and `n` calls for a block give. -/
def session (n : ℕ) (s : Source) : Except Failure (List (Except Failure (Option ByteArray))) :=
  match start s with
  | .ok r _ => .ok (answers n r)
  | .error failure _ => .error failure

end FrameReader

namespace Guarded

variable {size : ℕ} {s : Source}

/-! ## The start -/

/-- A read gives as many bytes as were asked for. -/
theorem sourceRead_holds (n : ℕ) (s : Source) :
    Holds (fun bytes s' => bytes.size = n ∧ s'.data = s.data) (fun _ => True) (some (Source.read n s))
      (Source.read n s) := by
  rw [Source.read]
  split
  · next h =>
    refine .ok ⟨?_, rfl⟩
    have hbound := s.bound_le_size
    rw [ByteArray.size_extract]
    omega
  · exact .error (Source.reachable_shortage s n) trivial

theorem within_size (h : s.data.size = size) : s.Within size size :=
  ⟨h, (Nat.sub_le _ _).trans (s.bound_le_size.trans_eq h)⟩

theorem answered_check (c : Config) : Answered c.check := by
  rw [Config.check]
  split
  · exact trivial
  · exact trivial

theorem answered_ofBytes (bytes : List UInt8) : Answered (FrameHeader.ofBytes bytes) := by
  fun_cases FrameHeader.ofBytes bytes with
  | case1 => exact trivial
  | case2 => exact trivial
  | case3 => exact trivial
  | case4 => exact trivial
  | case5 _ _ _ _ version flags s₀ s₁ s₂ s₃ _ _ _ header failure hcheck =>
    have hanswered := answered_check header.config
    rw [hcheck] at hanswered
    exact hanswered
  | case6 => exact trivial

/-- The header: each of its ten bytes is there. -/
def readHeader : Guarded Source FrameHeader := fun s =>
  match Source.read FrameHeader.size s with
  | .error failure s => some (.error failure s)
  | .ok bytes s =>
    require (bytes.size = FrameHeader.size) <|
      match FrameHeader.ofBytes bytes.data.toList with
      | .ok header => some (.ok header s)
      | .error failure => some (.error failure s)

theorem readHeader_holds (s : Source) :
    Holds (fun _ s' => s'.data = s.data) (fun _ => True) (readHeader s) (FrameHeader.read s) := by
  have hread := sourceRead_holds FrameHeader.size s
  rw [readHeader, FrameHeader.read]
  generalize Source.read _ s = y at hread ⊢
  cases hread with
  | error reachable h => exact .error reachable h
  | @ok bytes s h =>
    obtain ⟨hbytes, hdata⟩ := h
    refine .require hbytes ?_
    have hanswered := answered_ofBytes bytes.data.toList
    dsimp only
    generalize FrameHeader.ofBytes _ = answer at hanswered ⊢
    cases answer with
    | ok header => exact .ok hdata
    | error failure => exact .error hanswered trivial

/-- The start of the coded data: each of its five bytes is there. -/
def startCoder : Guarded Source (RangeReader contextCount) := fun s =>
  match Source.read 5 s with
  | .error failure s => some (.error failure s)
  | .ok head s =>
    require (head.size = 5) <|
      let byte (i : ℕ) : UInt32 := (head.data.getD i 0).toUInt32
      if byte 0 ≠ 0 then some (.error (.badHeader .startByte) s)
      else
        let code := byte 1 <<< 24 ||| byte 2 <<< 16 ||| byte 3 <<< 8 ||| byte 4
        some (.ok ⟨{ source := s, code }, contexts.map BitTree.fresh⟩ s)

theorem startCoder_holds (s : Source) :
    Holds (fun d _ => Decodes s.data.size s.data.size d) (fun _ => True) (startCoder s)
      (RangeReader.start contexts s) := by
  have hread := sourceRead_holds 5 s
  have hfresh (c : Fin contextCount) :
      (contexts.map BitTree.fresh).get c = BitTree.fresh (contexts.get c) := Vector.getElem_map _ c.isLt
  rw [startCoder, RangeReader.start, Register.start]
  dsimp only
  generalize Source.read 5 s = y at hread ⊢
  cases hread with
  | error reachable h => exact .error reachable h
  | @ok head s h =>
    obtain ⟨hhead, hdata⟩ := h
    refine .require hhead ?_
    dsimp only
    split
    · exact .error trivial trivial
    · refine .ok ⟨fun c => ?_, fun c => ?_, within_size (congrArg ByteArray.size hdata)⟩
      · exact congrArg BitTree.context (hfresh c)
      · exact hfresh c ▸ BitTree.open_fresh _

/-- A frame reader: the bits of the symbols are split and the nodes of the trees counted within words, and
the tables of the block reader, of four bytes for each byte of a block, can be allocated. -/
def start : Guarded Source FrameReader := fun s =>
  match readHeader s with
  | none => none
  | some (.error failure s) => some (.error failure s)
  | some (.ok header s) =>
    match startCoder s with
    | none => none
    | some (.error failure s) => some (.error failure s)
    | some (.ok coder s) =>
      match BlockReader.start coder header.config with
      | .error failure => some (.error failure s)
      | .ok blocks =>
        require ((∀ c : Fin contextCount, (contexts.get c).modeledBits ≤ (contexts.get c).symbolBits ∧
            (contexts.get c).modeledBits < 64) ∧ 4 * header.config.blockSize < 2 ^ 63) <|
          some (.ok ⟨header, blocks, Buffer.zeros header.config.blockSize⟩ s)

theorem start_holds (s : Source) :
    Holds (fun r _ => Ready s.data.size r.blocks r.buffer) (fun _ => True) (start s)
      (FrameReader.start s) := by
  have hheader := readHeader_holds s
  rw [start, FrameReader.start]
  generalize readHeader s = x, FrameHeader.read s = y at hheader ⊢
  cases hheader with
  | error reachable h => exact .error reachable h
  | @ok header s' hdata =>
    rw [← hdata]
    have hcoder := startCoder_holds s'
    dsimp only
    generalize startCoder s' = x, RangeReader.start contexts s' = y at hcoder ⊢
    cases hcoder with
    | error reachable h => exact .error reachable h
    | ok hcoder =>
      dsimp only
      rw [BlockReader.start]
      cases hcheck : header.config.check with
      | error failure =>
        have hanswered := answered_check header.config
        rw [hcheck] at hanswered
        exact .error hanswered trivial
      | ok _ =>
        have hvalid := Config.check_eq_ok_iff.mp hcheck
        have hmax : header.config.blockSize ≤ 2 ^ 24 := hvalid.2
        have hbits (c : Fin contextCount) := (bits_contexts c).1.trans_lt (show 16 < 64 by decide)
        refine .require ⟨fun c => ⟨Nat.sub_le _ _, hbits c⟩, by omega⟩
          (.ok ⟨⟨hcoder, fun s hs => ?_⟩, Nat.zero_le _, hvalid, ?_⟩)
        · exact absurd hs (Option.not_mem_none s)
        · exact Buffer.size_zeros _

/-! ## Calls -/

variable [BlockHash]

/-- A call for a block: the block lies within the buffer, which was not too small. -/
def readFrameBlock : Guarded FrameReader (Option ByteArray)
  | ⟨header, blocks, buffer⟩ =>
    match read (blocks, buffer) with
    | none => none
    | some (.error failure (blocks, buffer)) => some (.error failure ⟨header, blocks, buffer⟩)
    | some (.ok (.block size) (blocks, buffer)) =>
      require (size ≤ buffer.size) <|
        some (.ok (some (buffer.extract 0 size)) ⟨header, blocks, buffer⟩)
    | some (.ok .finished (blocks, buffer)) => some (.ok none ⟨header, blocks, buffer⟩)
    | some (.ok (.needsRoom _) _) => none

theorem readFrameBlock_holds {r : FrameReader} (h : Ready size r.blocks r.buffer) :
    Holds (fun _ r' => Ready size r'.blocks r'.buffer) (fun r' => Ready size r'.blocks r'.buffer)
      (readFrameBlock r) r.readBlock := by
  obtain ⟨header, blocks, buffer⟩ := r
  have hread := read_holds h
  rw [readFrameBlock, FrameReader.readBlock]
  generalize read (blocks, buffer) = x, BlockReader.read (blocks, buffer) = y at hread ⊢
  cases hread with
  | error reachable h => exact .error reachable h
  | @ok status s h =>
    obtain ⟨hfits, h⟩ := h
    cases status with
    | block size => exact .require hfits (.ok h)
    | needsRoom needed => exact hfits.elim
    | finished => exact .ok h

/-- Calls for a block, each on the reader that the call before has left behind. -/
def answers : ℕ → FrameReader → Option (List (Except Failure (Option ByteArray)))
  | 0, _ => some []
  | n + 1, r =>
    match readFrameBlock r with
    | none => none
    | some (.ok answer r) => (answers n r).map (.ok answer :: ·)
    | some (.error failure r) => (answers n r).map (.error failure :: ·)

theorem answers_eq_some (n : ℕ) {r : FrameReader} (h : Ready size r.blocks r.buffer) :
    answers n r = some (r.answers n) ∧ (r.answers n).length = n ∧ ∀ a ∈ r.answers n, Answered a := by
  induction n generalizing r with
  | zero => exact ⟨rfl, rfl, fun a ha => nomatch ha⟩
  | succ n ih =>
    have hblock := readFrameBlock_holds h
    rw [answers, FrameReader.answers]
    generalize readFrameBlock r = x, r.readBlock = y at hblock ⊢
    cases hblock with
    | ok h =>
      obtain ⟨heq, hlength, hanswered⟩ := ih h
      dsimp only
      rw [heq]
      exact ⟨rfl, congrArg Nat.succ hlength, List.forall_mem_cons.mpr ⟨trivial, hanswered⟩⟩
    | error reachable h =>
      obtain ⟨heq, hlength, hanswered⟩ := ih h
      dsimp only
      rw [heq]
      exact ⟨rfl, congrArg Nat.succ hlength, List.forall_mem_cons.mpr ⟨reachable, hanswered⟩⟩

/-- The start of a reader and `n` calls for a block. -/
def session (n : ℕ) (s : Source) :
    Option (Except Failure (List (Except Failure (Option ByteArray)))) :=
  match start s with
  | none => none
  | some (.ok r _) => (answers n r).map .ok
  | some (.error failure _) => some (.error failure)

/-- **On any bytes, any number of calls gives one answer each, and no check fails on the way.** -/
theorem session_eq_some (n : ℕ) (s : Source) : session n s = some (FrameReader.session n s) ∧
    match FrameReader.session n s with
    | .ok answers => answers.length = n ∧ ∀ answer ∈ answers, Answered answer
    | .error failure => failure.Reachable := by
  have hstart := start_holds s
  rw [session, FrameReader.session]
  generalize start s = x, FrameReader.start s = y at hstart ⊢
  cases hstart with
  | ok h =>
    obtain ⟨heq, hlength, hanswered⟩ := answers_eq_some n h
    dsimp only
    rw [heq]
    exact ⟨rfl, hlength, hanswered⟩
  | error reachable _ => exact ⟨rfl, reachable⟩

end Guarded

end BlockPress
