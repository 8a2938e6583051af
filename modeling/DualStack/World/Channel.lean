/-
Channels: the streams behind pipes.

A channel is either a file with a position of its own, or a script that says how
each coming call will go.  A script can express any behaviour a stream may show:
bytes that arrive in pieces, writes that accept only part of what they are given,
interruptions and errors at any point.

Delivering bytes means writing what has not been accepted until nothing is left:
an interrupted write is tried again, a write that accepts nothing of something is
a fault, and any other fault ends the delivery.
-/
import DualStack.World.Directory

namespace DualStack

/-- How one read goes. -/
inductive ReadTurn where
  /-- These bytes are there; what does not fit stays for the next read. -/
  | bytes (available : List UInt8)
  | fail (fault : Fault)

/-- How one write goes. -/
inductive WriteTurn where
  /-- At most this many bytes are accepted. -/
  | accept (limit : Nat)
  | acceptAll
  | fail (fault : Fault)

/-- How the coming calls of a channel go. Where a list has ended, a read finds nothing, a
write accepts all and a flush succeeds. -/
structure Script where
  reads : List ReadTurn := []
  writes : List WriteTurn := []
  flushes : List (Option Fault) := []
  close : Option Fault := none

/-- What a file was opened for. -/
inductive Access where
  | reading
  | writing
deriving DecidableEq

/-- A stream of bytes. -/
inductive Channel where
  | scripted (script : Script)
  | file (path : Path) (access : Access) (position : Nat)

/-- A call a channel received. -/
inductive Call where
  /-- A read into a buffer of this length. -/
  | read (room : Nat)
  /-- A write, with the bytes that were accepted, or none if it failed. -/
  | write (accepted : Option (List UInt8))
  | flush
  | close
deriving DecidableEq

/-- How a delivery went. -/
structure Delivery where
  /-- The writes that were made, in order. -/
  calls : List Call
  /-- The turns that are left. -/
  turns : List WriteTurn
  /-- Why the delivery ended early, if it did. -/
  fault : Option Fault

/-- Write all of the bytes to a channel that takes these turns. -/
def Script.deliver : List WriteTurn → List UInt8 → Delivery
  | turns, [] => ⟨[], turns, none⟩
  | [], bytes => ⟨[.write (some bytes)], [], none⟩
  | .acceptAll :: turns, bytes => ⟨[.write (some bytes)], turns, none⟩
  | .accept limit :: turns, bytes =>
    if limit = 0 then ⟨[.write (some [])], turns, some .nothingAccepted⟩
    else
      let later := deliver turns (bytes.drop limit)
      { later with calls := .write (some (bytes.take limit)) :: later.calls }
  | .fail fault :: turns, bytes =>
    if fault = .interrupted then
      let later := deliver turns bytes
      { later with calls := .write none :: later.calls }
    else ⟨[.write none], turns, some fault⟩

/-- What a call leaves behind: the channel, the directory and the calls it made. -/
structure Exchange (α : Type) where
  result : Except Fault α
  channel : Channel
  files : Directory
  calls : List Call

namespace Channel

/-- Read once into a buffer with the given room. -/
def read (room : Nat) (files : Directory) : Channel → Exchange (List UInt8)
  | scripted script =>
    let exchange (result : Except Fault (List UInt8)) (reads : List ReadTurn) :=
      ⟨result, scripted { script with reads }, files, [.read room]⟩
    match script.reads with
    | [] => exchange (.ok []) []
    | .fail fault :: reads => exchange (.error fault) reads
    | .bytes available :: reads =>
      let left := available.drop room
      exchange (.ok (available.take room)) (if left.isEmpty then reads else .bytes left :: reads)
  | file path access position =>
    let exchange (result : Except Fault (List UInt8)) (position : Nat) :=
      ⟨result, file path access position, files, [.read room]⟩
    match access, files.entry? path with
    | .reading, some (.file contents) =>
      let bytes := (contents.drop position).take room
      exchange (.ok bytes) (position + bytes.length)
    | .reading, some .directory => exchange (.error (.system .isDirectory)) position
    | _, _ => exchange (.error (.system .badDescriptor)) position

/-- Deliver all of the bytes, then flush once. -/
def send (bytes : List UInt8) (files : Directory) : Channel → Exchange Unit
  | scripted script =>
    let delivery := Script.deliver script.writes bytes
    match delivery.fault with
    | some fault =>
      ⟨.error fault, scripted { script with writes := delivery.turns }, files, delivery.calls⟩
    | none =>
      let result := match script.flushes.head? with
        | some (some fault) => .error fault
        | _ => .ok ()
      ⟨result,
        scripted { script with writes := delivery.turns, flushes := script.flushes.drop 1 },
        files, delivery.calls ++ [.flush]⟩
  | file path access position =>
    if bytes.isEmpty then ⟨.ok (), file path access position, files, [.flush]⟩
    else
      match access, files.entry? path with
      | .writing, some (.file contents) =>
        ⟨.ok (), file path access (position + bytes.length),
          files.insert path (.file (overwrite contents position bytes)),
          [.write (some bytes), .flush]⟩
      | _, _ =>
        ⟨.error (.system .badDescriptor), file path access position, files, [.write none]⟩

/-- Release what the channel holds. -/
def close : Channel → Except Fault Unit
  | scripted script =>
    match script.close with
    | some fault => .error fault
    | none => .ok ()
  | file _ _ _ => .ok ()

end Channel

end DualStack
