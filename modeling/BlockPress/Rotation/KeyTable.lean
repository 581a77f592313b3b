import BlockPress.Rotation.Order
import BlockPress.Standard

/-!
# Comparison keys

For each offset of a block of `n` bytes a `KeyTable n` holds a *word*: the four bytes from there on,
the first one highest, so two words compare as their bytes do.  The first 64 words stand once more
behind the last one, which lets a comparison take sixteen words from each rotation before it has to
wrap around.

When all rotations that start with some byte are in their final order, their words become *tags*:
the byte, and a rank of 16 bits in that order.  A comparison that meets two different tags is over.
**Equal tags only say that the leading bytes agree**, since neighbours in a large group share a tag,
so a comparison goes on one byte further and not four.

The keys of one block after the other are built in the same storage, a `KeyStore`.

A position that a comparison looks at comes with its proof, so none is out of range.
-/

namespace BlockPress

open scoped Standard

/-- The number of words that stand twice. -/
def wrapSize : Nat := 64

/-- The number of words that a comparison takes before it wraps around. -/
def batchSize : Nat := 16

/-- The comparison keys of a block of `n` bytes. -/
structure KeyTable (n : Nat) where
  /-- The word of each offset, and the first 64 words again. -/
  words : Vector UInt32 (n + wrapSize)
  /-- The leading bytes whose words are tags. -/
  tagged : Vector Bool 256

/-- Storage for keys. -/
structure KeyStore where
  /-- The words of the last block that had keys. -/
  words : Array UInt32
  /-- The leading bytes whose words were tags. -/
  tagged : Vector Bool 256

/-- Storage for the keys of blocks of up to `capacity` bytes. -/
def KeyStore.withCapacity (capacity : Nat) : KeyStore where
  words := Array.emptyWithCapacity (capacity + wrapSize)
  tagged := Vector.replicate 256 false

namespace KeyTable

variable {n : Nat}

/-- Four bytes as a word, the first one highest. -/
def pack (a b c d : UInt8) : UInt32 :=
  a.toUInt32 <<< 24 ||| b.toUInt32 <<< 16 ||| c.toUInt32 <<< 8 ||| d.toUInt32

/-- The leading byte of a word. -/
@[inline] def leading (word : UInt32) : UInt8 := (word >>> 24).toUInt8

/-- A table for a block that is not known yet. -/
def blank (n : Nat) : KeyTable n where
  words := Vector.replicate _ 0
  tagged := Vector.replicate 256 false

/-- The keys of a block, without tags. -/
def ofBlock (block : ByteArray) (h : 0 < block.size) : KeyTable block.size where
  words := Vector.ofFn fun p =>
    pack (Rotation.byte block p 0 h) (Rotation.byte block p 1 h) (Rotation.byte block p 2 h)
      (Rotation.byte block p 3 h)
  tagged := Vector.replicate 256 false

/-- The word of each offset, from the one behind it: going down, each byte is read once. -/
def roll (block : ByteArray) (h : 0 < block.size) (words : Vector UInt32 (block.size + wrapSize)) :
    Vector UInt32 (block.size + wrapSize) :=
  (Nat.foldRev block.size
    (fun p _ (word, words) =>
      let word := word >>> 8 ||| block[p].toUInt32 <<< 24
      (word, words.set p word))
    (pack (Rotation.byte block 0 0 h) (Rotation.byte block 0 1 h) (Rotation.byte block 0 2 h) 0,
      words)).2

/-- Puts the first 64 words behind the last one, too. -/
def mirror (words : Vector UInt32 (n + wrapSize)) : Vector UInt32 (n + wrapSize) :=
  Nat.fold wrapSize (fun p _ words => words.set (n + p) words[p]) words

/-- Builds the keys of a block in storage that is used again. -/
def build (block : ByteArray) (h : wrapSize ≤ block.size) : KeyStore → KeyTable block.size
  | ⟨words, tagged⟩ =>
    let words : Vector UInt32 (block.size + wrapSize) :=
      ⟨words.shrink 0 ++ Array.replicate (block.size + wrapSize) 0, by simp⟩
    { words := mirror (roll block (Nat.lt_of_lt_of_le (by decide) h) words)
      tagged := tagged.map fun _ => false }

/-- The storage that a table takes up. -/
def store (t : KeyTable n) : KeyStore := ⟨t.words.toArray, t.tagged⟩

/-- Whether a word is a tag. -/
@[inline] def isTagged (t : KeyTable n) (word : UInt32) : Bool :=
  have : (leading word).toNat < 256 := UInt8.toNat_lt _
  t.tagged[(leading word).toNat]

/-- The number of bytes that two equal words show to agree. -/
@[inline] def stride (t : KeyTable n) (word : UInt32) : Nat := if t.isTagged word then 1 else 4

theorem stride_pos (t : KeyTable n) (word : UInt32) : 0 < t.stride word := by
  unfold stride; split <;> omega

theorem stride_le (t : KeyTable n) (word : UInt32) : t.stride word ≤ 4 := by
  unfold stride; split <;> omega

/-- The word `depth` places into the rotation at `offset`. -/
@[inline] def key [NeZero n] (t : KeyTable n) (offset depth : Nat) : UInt32 :=
  have : (offset + depth) % n < n + wrapSize :=
    Nat.lt_of_lt_of_le (Nat.mod_lt _ (Nat.pos_of_ne_zero (NeZero.ne n))) (Nat.le_add_right _ _)
  t.words[(offset + depth) % n]

/-- The outcome of comparing a batch of words. -/
inductive Batch where
  /-- Two words differ. -/
  | decided (order : Ordering)
  /-- All words agree, over so many bytes. -/
  | level (length : Nat) (pos : 0 < length)

/-- Compares up to `left` pairs of words from the positions `a` and `b` on, `length` bytes having
agreed before. -/
def batchFrom (t : KeyTable n) : (left a b length : Nat) → 0 < left + length →
    a + 4 * left ≤ n + wrapSize → b + 4 * left ≤ n + wrapSize → Batch
  | 0, _, _, length, h, _, _ => .level length (by omega)
  | left + 1, a, b, length, _, ha, hb =>
    have : a < n + wrapSize := by omega
    have : b < n + wrapSize := by omega
    let x := t.words[a]
    let y := t.words[b]
    if x = y then
      have := t.stride_pos x
      have := t.stride_le x
      batchFrom t left (a + t.stride x) (b + t.stride x) (length + t.stride x) (by omega) (by omega)
        (by omega)
    else .decided (if x < y then .lt else .gt)

/-- Compares from the positions `a` and `b` on, until all `n` bytes are known to agree. -/
def compareFrom (t : KeyTable n) (a b compared : Nat) (ha : a < n) (hb : b < n) : Ordering :=
  if compared < n then
    match t.batchFrom batchSize a b 0 (by decide) (by simp only [batchSize, wrapSize]; omega)
      (by simp only [batchSize, wrapSize]; omega) with
    | .decided order => order
    | .level length _ =>
      have hn : 0 < n := Nat.lt_of_le_of_lt (Nat.zero_le a) ha
      compareFrom t ((a + length) % n) ((b + length) % n) (compared + length) (Nat.mod_lt _ hn)
        (Nat.mod_lt _ hn)
  else .eq
termination_by n - compared

/-- Compares the rotations at `a` and `b`, whose first `depth` bytes agree.  A rotation is level with
itself. -/
def compare [NeZero n] (t : KeyTable n) (depth a b : Nat) : Ordering :=
  if a = b then .eq
  else
    have hn : 0 < n := Nat.pos_of_ne_zero (NeZero.ne n)
    t.compareFrom ((a + depth) % n) ((b + depth) % n) 0 (Nat.mod_lt _ hn) (Nat.mod_lt _ hn)

theorem compare_self [NeZero n] (t : KeyTable n) (depth a : Nat) : t.compare depth a a = .eq := by
  simp [compare]

/-- How far ranks are shifted to the right in a group of `size` rotations, so that the last of them
has 16 bits. -/
def rankShift (size : Nat) : Nat := (size - 1).log2 - 15

/-- The tag of a rank. -/
@[inline] def tagOf (lead : UInt8) (shift rank : Nat) : UInt32 :=
  lead.toUInt32 <<< 24 ||| (rank >>> shift).toUInt32 <<< 8

/-- Makes the word at an offset a tag, and also the one that stands for it behind the last. -/
@[inline] def setWord (words : Vector UInt32 (n + wrapSize)) (offset : Fin n) (word : UInt32) :
    Vector UInt32 (n + wrapSize) :=
  let words := words.set offset word
  if h : offset.val < wrapSize then words.set (offset.val + n) word else words

/-- Makes the words of a group tags; `group` lists the rotations that start with `lead` in their
final order. -/
def tag (t : KeyTable n) (lead : UInt8) (group : Array (Fin n)) : KeyTable n :=
  let shift := rankShift group.size
  have : lead.toNat < 256 := lead.toNat_lt
  match t with
  | ⟨words, tagged⟩ =>
    { words :=
        (group.foldl
          (fun (words, rank) offset => (setWord words offset (tagOf lead shift rank), rank + 1))
          (words, 0)).1
      tagged := tagged.set lead.toNat true }

end KeyTable

end BlockPress
