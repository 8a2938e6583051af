/-
The sink: where printed text goes.

A sink keeps the bytes it accepted.  It may have room for a limited number of
bytes; the write that crosses the limit leaves a prefix behind and fails, and so
does every later write that is not empty.
-/
import DualStack.Fault

namespace DualStack

/-- A place for printed bytes. -/
structure Sink where
  /-- The bytes accepted so far, newest first. -/
  accepted : List UInt8 := []
  /-- How many more bytes fit, if there is a limit. -/
  room : Option Nat := none
  /-- How a write fails that does not fit. -/
  full : Fault := .nothingAccepted
  /-- How a flush fails, if it does. -/
  stuck : Option Fault := none

namespace Sink

/-- Everything the sink accepted, in order. -/
def contents (s : Sink) : List UInt8 :=
  s.accepted.reverse

/-- The sink after accepting bytes. -/
def accept (bytes : List UInt8) (s : Sink) : Sink :=
  { s with accepted := bytes.reverse ++ s.accepted, room := s.room.map (· - bytes.length) }

/-- Write all of the bytes, or as many as fit. -/
def write (bytes : List UInt8) : EStateM Fault Sink Unit := fun s =>
  match s.room with
  | none => .ok () (s.accept bytes)
  | some room =>
    if bytes.length ≤ room then .ok () (s.accept bytes)
    else .error s.full (s.accept (bytes.take room))

/-- Push what was written on its way. -/
def flush : EStateM Fault Sink Unit := fun s =>
  match s.stuck with
  | none => .ok () s
  | some fault => .error fault s

end Sink

end DualStack
