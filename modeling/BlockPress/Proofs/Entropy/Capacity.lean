import BlockPress.Proofs.Entropy.Steps
import BlockPress.Proofs.Extracts
import BlockPress.Proofs.Runs

/-!
# The same work on a sink that fills up

The same calls are made on a sink that takes everything and on one that takes `L` bytes.  As long as the
first holds at most `L` bytes the two cannot be told apart; the call that would bring it above `L` fails on
the second, which then holds the first `L` of these bytes (`Rationed`).  **Rationed calls one after the
other are rationed** (`Rationed.andThen`), since what the first sink holds only grows.

Main statements: a symbol is sent in this way and a number is closed in this way
(`RangeWriter.rations_send`, `RangeWriter.rations_close`).  After a symbol that failed no other is sent
(`RangeWriter.Stuck.send`): its bytes stay settled, so each of them drains again, and a full sink takes
nothing.
-/

namespace BlockPress

variable {k : ℕ} {σ τ α β : Type}

/-- A state with a range coder in it, which may be given a sink of another capacity. -/
class Carrier (σ : Type) (k : outParam ℕ) where
  /-- The range coder. -/
  coder : σ → RangeWriter k
  /-- The state on a sink that takes this number of bytes in all. -/
  ration : ℕ → σ → σ

namespace Carrier

/-- What the sink of the state holds. -/
def written [Carrier σ k] (s : σ) : ByteArray := (coder s).sink.written

end Carrier

open Carrier

instance : Carrier (RangeWriter k) k where
  coder := id
  ration n w := { w with sink.capacity := some n }

/-- The sink of the state takes everything and holds these bytes, and perhaps more behind them. -/
structure Follows [Carrier σ k] (before : ByteArray) (s : σ) : Prop where
  /-- The sink takes everything. -/
  unlimited : (coder s).sink.capacity = none
  /-- What it held before comes first. -/
  exists_append : ∃ more, written s = before ++ more

theorem Follows.refl [Carrier σ k] {s : σ} (h : (coder s).sink.capacity = none) :
    Follows (written s) s := ⟨h, .empty, ByteArray.append_empty.symm⟩

theorem Follows.eq_extract [Carrier σ k] {before : ByteArray} {s : σ} (h : Follows before s) :
    before = (written s).extract 0 before.size := by
  obtain ⟨-, more, hmore⟩ := h
  rw [hmore, extract_append_of_le more le_rfl, ByteArray.extract_zero_size]

theorem Follows.trans [Carrier σ k] [Carrier τ k] {before : ByteArray} {s : σ} {t : τ}
    (h : Follows before s) (h' : Follows (written s) t) : Follows before t := by
  obtain ⟨-, more, hmore⟩ := h
  obtain ⟨hunlimited, more', hmore'⟩ := h'
  exact ⟨hunlimited, more ++ more', by rw [hmore', hmore, ByteArray.append_assoc]⟩

theorem Follows.size_le [Carrier σ k] {before : ByteArray} {s : σ} (h : Follows before s) :
    before.size ≤ (written s).size := by
  obtain ⟨-, more, hmore⟩ := h
  rw [hmore, ByteArray.size_append]
  exact Nat.le_add_right _ _

theorem Follows.extract_eq [Carrier σ k] {before : ByteArray} {s : σ} (h : Follows before s) {n : ℕ}
    (hn : n ≤ before.size) : (written s).extract 0 n = before.extract 0 n := by
  obtain ⟨-, more, hmore⟩ := h
  rw [hmore, extract_append_of_le more hn]

/-- What an action comes to on a sink that takes everything, from where it held the bytes `before`, and on
one that takes `L` bytes: the same, if the first holds no more; or else the second comes to a failure, which
leaves a coder with the first `L` of the bytes. -/
inductive Rationed [Carrier σ k] (L : ℕ) (stop : ByteArray → RangeWriter k → Prop)
    (before : ByteArray) : EStateM.Result Failure σ α → EStateM.Result Failure σ α → Prop where
  /-- The bytes fit. -/
  | fits {a : α} {t : σ} (follows : Follows before t) (size_le : (written t).size ≤ L) :
    Rationed L stop before (.ok a t) (.ok a (ration L t))
  /-- There are too many bytes. -/
  | full {a : α} {t t' : σ} {f : Failure} (follows : Follows before t)
    (lt_size : L < (written t).size) (left : stop ((written t).extract 0 L) (coder t')) :
    Rationed L stop before (.ok a t) (.error f t')

/-- The action is rationed on every sink, from whatever fits. -/
def Rations [Carrier σ k] (stop : ByteArray → RangeWriter k → Prop) (act : Action σ α) : Prop :=
  ∀ (L : ℕ) (s : σ), (coder s).sink.capacity = none → (written s).size ≤ L →
    Rationed L stop (written s) (act s) (act (ration L s))

section Rationed

variable [Carrier σ k] [Carrier τ k] {L : ℕ} {stop stop' : ByteArray → RangeWriter k → Prop}
  {before : ByteArray}

/-- What leaves the sink alone. -/
theorem Rationed.same {a : α} {t : σ} (h : (coder t).sink.capacity = none) (hbefore : written t = before)
    (hL : before.size ≤ L) : Rationed L stop before (.ok a t) (.ok a (ration L t)) := by
  subst hbefore
  exact .fits (.refl h) hL

theorem Rationed.mono {x x' : EStateM.Result Failure σ α} (h : Rationed L stop before x x')
    (hstop : ∀ held w, stop held w → stop' held w) : Rationed L stop' before x x' := by
  cases h with
  | fits follows size_le => exact .fits follows size_le
  | full follows lt_size left => exact .full follows lt_size (hstop _ _ left)

/-- **Rationed calls one after the other are rationed.** -/
theorem Rationed.andThen {x x' : EStateM.Result Failure σ α}
    {F : EStateM.Result Failure σ α → EStateM.Result Failure τ β} {g : σ → τ}
    (h : Rationed L stop before x x') (pass : ∀ f t, F (.error f t) = .error f (g t))
    (hg : ∀ t, coder (g t) = coder t)
    (ok : ∀ (L' : ℕ) (a : α) (t : σ), (coder t).sink.capacity = none → (written t).size ≤ L' →
      Rationed L' stop (written t) (F (.ok a t)) (F (.ok a (ration L' t)))) :
    Rationed L stop before (F x) (F x') := by
  cases h with
  | @fits a t follows size_le =>
    have hrest := ok L a t follows.unlimited size_le
    generalize F (.ok a t) = y, F (.ok a (ration L t)) = y' at hrest ⊢
    cases hrest with
    | fits follows' size_le' => exact .fits (follows.trans follows') size_le'
    | full follows' lt_size left => exact .full (follows.trans follows') lt_size left
  | @full a t t' f follows lt_size left =>
    -- What follows the failure on the first sink only adds to what it holds.
    have hrest := ok (written t).size a t follows.unlimited le_rfl
    have hleft : stop ((written t).extract 0 L) (coder (g t')) := (hg t').symm ▸ left
    rw [pass]
    generalize F (.ok a t) = y, F (.ok a (ration _ t)) = y' at hrest
    cases hrest with
    | fits follows' _ =>
      rw [← follows'.extract_eq lt_size.le] at hleft
      exact .full (follows.trans follows') (lt_size.trans_le follows'.size_le) hleft
    | full follows' _ _ =>
      rw [← follows'.extract_eq lt_size.le] at hleft
      exact .full (follows.trans follows') (lt_size.trans_le follows'.size_le) hleft

/-- On a sink that takes everything, what is held only grows. -/
theorem Rations.follows {act : Action σ α} (h : Rations stop act) {s t : σ} {a : α}
    (hs : (coder s).sink.capacity = none) (hact : act s = .ok a t) : Follows (written s) t := by
  have hrationed := h (written s).size s hs le_rfl
  rw [hact] at hrationed
  generalize act (ration _ s) = x at hrationed
  cases hrationed with
  | fits follows _ => exact follows
  | full follows _ _ => exact follows

end Rationed

namespace Code

/-! ## What a code settles -/

/-- The second code has come from the first by settling bytes, which it counts. -/
def Settles (c c' : Code) : Prop :=
  ∃ n, c'.settled.size = c.settled.size + n ∧ c'.produced = c.produced + n

namespace Settles

variable {c c' c'' : Code}

theorem refl (c : Code) : Settles c c := ⟨0, rfl, rfl⟩

theorem trans (h : Settles c c') (h' : Settles c' c'') : Settles c c'' := by
  obtain ⟨n, hsettled, hproduced⟩ := h
  obtain ⟨n', hsettled', hproduced'⟩ := h'
  exact ⟨n + n', by omega, by omega⟩

theorem settled_le (h : Settles c c') : c.settled.size ≤ c'.settled.size := by
  obtain ⟨n, hsettled, -⟩ := h
  omega

end Settles

theorem settles_settle (c : Code) : Settles c c.settle := by
  refine ⟨max c.held 1, ?_, rfl⟩
  rw [settle, Buffer.size_pushMany, ByteArray.size_push]
  omega

theorem settles_shiftLow (c : Code) : Settles c c.shiftLow := by
  rw [shiftLow]
  split
  · exact settles_settle c
  · exact .refl c

theorem settles_normalize (c : Code) : Settles c c.normalize := by
  fun_induction normalize c with
  | case1 c h ih => exact (settles_shiftLow { c with range := c.range <<< 8 }).trans ih
  | case2 c h => exact .refl c

theorem settles_step (c : Code) (d : Decision) : Settles c (c.step d) := by
  have hcut : Settles c (c.cut d) := by
    cases d with
    | chance p b => cases b with
      | false => exact .refl c
      | true => exact .refl c
    | half b => cases b with
      | false => exact .refl c
      | true => exact .refl c
  exact hcut.trans (settles_normalize _)

/-- **Decisions settle bytes and count them.** -/
theorem settles_run (ds : List Decision) (c : Code) : Settles c (c.run ds) := by
  induction ds generalizing c with
  | nil => exact .refl c
  | cons d ds ih => exact (settles_step c d).trans (ih _)

theorem settles_encode (t : BitTree) (symbol : UInt32) (c : Code) :
    Settles c (t.encode symbol c).2 := by
  rw [BitTree.encode_eq]
  exact settles_run _ c

theorem settles_flush (c : Code) : Settles c c.flush :=
  ((((settles_shiftLow c).trans (settles_shiftLow _)).trans (settles_shiftLow _)).trans
    (settles_shiftLow _)).trans (settles_shiftLow _)

end Code

namespace RangeWriter

/-! ## Range coders -/

variable {L : ℕ} {code : Code} {trees : Vector BitTree k} {bytes : ByteArray} {closed : Bool}

theorem follows (code : Code) (trees : Vector BitTree k) (bytes : ByteArray) (closed : Bool) :
    Follows bytes (⟨code, trees, ⟨bytes, none⟩, closed⟩ : RangeWriter k) :=
  ⟨rfl, .empty, ByteArray.append_empty.symm⟩

theorem follows_append (code : Code) (trees : Vector BitTree k) (bytes more : ByteArray) (closed : Bool) :
    Follows bytes (⟨code, trees, ⟨bytes ++ more, none⟩, closed⟩ : RangeWriter k) := ⟨rfl, more, rfl⟩

/-- A drain that fails has filled the sink and keeps what is settled. -/
theorem rationed_drain (hL : bytes.size ≤ L) :
    Rationed L (fun held u => u.sink = ⟨held, some held.size⟩ ∧ u.code = code) bytes
      (drain (⟨code, trees, ⟨bytes, none⟩, closed⟩ : RangeWriter k))
      (drain ⟨code, trees, ⟨bytes, some L⟩, closed⟩) := by
  rw [drain, drain]
  by_cases hempty : code.settled.isEmpty = true
  · rw [if_pos hempty, if_pos hempty]
    exact .fits (follows code trees bytes closed) hL
  · rw [if_neg hempty, if_neg hempty, Sink.write, Sink.write]
    have hfollows := follows_append { code with settled := .empty } trees bytes code.settled closed
    have hsize : (bytes ++ code.settled).size = bytes.size + code.settled.size := ByteArray.size_append
    dsimp only
    by_cases hroom : code.settled.size ≤ L - bytes.size
    · rw [if_pos hroom]
      refine .fits hfollows ?_
      change (bytes ++ code.settled).size ≤ L
      omega
    · rw [if_neg hroom]
      have hfirst : (bytes ++ code.settled).extract 0 L =
          bytes ++ code.settled.extract 0 (L - bytes.size) := extract_append_of_ge _ hL
      have hfull : (bytes ++ code.settled.extract 0 (L - bytes.size)).size = L := by
        rw [ByteArray.size_append, ByteArray.size_extract]
        omega
      refine .full hfollows ?_ ⟨?_, rfl⟩
      · change L < (bytes ++ code.settled).size
        omega
      · change (⟨_, some L⟩ : Sink) = ⟨(bytes ++ code.settled).extract 0 L,
          some ((bytes ++ code.settled).extract 0 L).size⟩
        rw [hfirst, hfull]

/-! ## Symbols -/

/-- The sink is full and so many bytes are settled that any symbol drains them. -/
structure Stuck (held : ByteArray) (w : RangeWriter k) : Prop where
  /-- What the full sink holds. -/
  sink_eq : w.sink = ⟨held, some held.size⟩
  /-- The settled bytes. -/
  drainSize_le : drainSize ≤ w.code.settled.size

/-- **A symbol is rationed**, and where it fails the coder is stuck. -/
theorem rations_send (c : Fin k) (s : UInt32) : Rations Stuck (send c s) := by
  intro L w hunlimited hL
  obtain ⟨code, trees, ⟨bytes, capacity⟩, closed⟩ := w
  obtain rfl : capacity = none := hunlimited
  change Rationed L Stuck bytes (send c s ⟨code, trees, ⟨bytes, none⟩, closed⟩)
    (send c s ⟨code, trees, ⟨bytes, some L⟩, closed⟩)
  rw [send, send]
  generalize (trees.get c).encode s code = x
  obtain ⟨tree, code'⟩ := x
  dsimp only
  split
  · next hmany =>
    refine (rationed_drain hL).mono fun held u hu => ⟨hu.1, ?_⟩
    rw [hu.2]
    exact hmany
  · exact .fits (follows _ _ bytes closed) hL

/-- A full sink takes nothing of what is settled. -/
theorem drain_full {held : ByteArray} (h : 0 < code.settled.size) :
    ∃ f, drain (⟨code, trees, ⟨held, some held.size⟩, closed⟩ : RangeWriter k) =
      .error f ⟨code, trees, ⟨held, some held.size⟩, closed⟩ := by
  have hnonempty : ¬code.settled.isEmpty = true := fun h0 => h.ne' (beq_iff_eq.mp h0)
  rw [drain, if_neg hnonempty, Sink.write, Nat.sub_self, if_neg (Nat.not_le_of_lt h),
    ByteArray.extract_same, ByteArray.append_empty]
  exact ⟨_, rfl⟩

/-- **A coder that is stuck sends no symbol**, and stays stuck. -/
theorem Stuck.send {held : ByteArray} {w : RangeWriter k} (h : w.Stuck held) (c : Fin k) (s : UInt32) :
    ∃ f w', RangeWriter.send c s w = .error f w' ∧ w'.Stuck held := by
  obtain ⟨code, trees, sink, closed⟩ := w
  obtain ⟨hsink, hmany⟩ := h
  dsimp only at hsink hmany
  subst hsink
  have hencode := (Code.settles_encode (trees.get c) s code).settled_le
  rw [RangeWriter.send]
  generalize (trees.get c).encode s code = x at hencode ⊢
  obtain ⟨tree, code'⟩ := x
  have hmany' : drainSize ≤ code'.settled.size := hmany.trans hencode
  have hpos : 0 < code'.settled.size := hmany'.trans_lt' (by decide)
  dsimp only
  rw [if_pos hmany']
  obtain ⟨f, hdrain⟩ := drain_full hpos
  exact ⟨f, _, hdrain, rfl, hmany'⟩

/-! ## The end of a number -/

/-- The sink of the coder holds these bytes. -/
def Halted (held : ByteArray) (w : RangeWriter k) : Prop := w.sink.written = held

theorem Stuck.halted {held : ByteArray} {w : RangeWriter k} (h : w.Stuck held) : w.Halted held :=
  congrArg Sink.written h.sink_eq

/-- **The end of a number is rationed.** -/
theorem rations_close : Rations Halted (close (k := k)) := by
  intro L w hunlimited hL
  obtain ⟨code, trees, ⟨bytes, capacity⟩, closed⟩ := w
  obtain rfl : capacity = none := hunlimited
  change Rationed L Halted bytes (close ⟨code, trees, ⟨bytes, none⟩, closed⟩)
    (close ⟨code, trees, ⟨bytes, some L⟩, closed⟩)
  rw [close, close]
  split
  · exact .fits (follows _ _ bytes closed) hL
  · exact (rationed_drain hL).mono fun held u hu => congrArg Sink.written hu.1

end RangeWriter

end BlockPress
