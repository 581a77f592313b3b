import BlockPress.Failure

/-!
# Sinks

A sink keeps the bytes that it was given.  One with a capacity takes as many bytes of a write as
still fit and then fails; what it has taken stays.
-/

namespace BlockPress

/-- A byte sink. -/
structure Sink where
  /-- The bytes taken so far. -/
  written : ByteArray := .empty
  /-- The greatest number of bytes that the sink can take. -/
  capacity : Option Nat := none

namespace Sink

/-- The reason that a sink gives when nothing more fits. -/
def fullReason : String := "sink full"

/-- Writes all the bytes, or those that still fit. -/
def write (bytes : ByteArray) : Action Sink Unit
  | ⟨written, none⟩ => .ok () ⟨written ++ bytes, none⟩
  | ⟨written, some capacity⟩ =>
    let room := capacity - written.size
    if bytes.size ≤ room then .ok () ⟨written ++ bytes, some capacity⟩
    else .error (.io fullReason) ⟨written ++ bytes.extract 0 room, some capacity⟩

end Sink

end BlockPress
