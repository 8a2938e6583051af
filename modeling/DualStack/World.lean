/-
The world outside the machine: pipes, files and the network.

A pipe is known by its name, and every copy of a pipe carries that name, so what
happens through one copy is seen through all of them.  The world keeps, for each
pipe ever made, its channel, whether it is still open, and the calls its channel
received.  A closed pipe stays closed, also when closing it failed, and nothing
reaches its channel any more.

A pipe is made by opening or making a file, or by a dial that finds a peer.  A dial
that fails makes no pipe, but the network goes on from where the dial left it.
-/
import DualStack.Value
import DualStack.World.Network

namespace DualStack

/-- A pipe as the world keeps it. -/
structure Pipe where
  channel : Channel
  isOpen : Bool
  /-- The calls the channel received, newest first. -/
  calls : List Call

/-- The pipes, the files and the network around a machine. -/
structure World where
  /-- Every pipe ever made, in the order of their names. -/
  pipes : List Pipe
  files : Directory
  network : Network := {}

namespace World

/-- The world without pipes and files, where nobody can be reached. -/
def empty : World :=
  { pipes := [], files := .empty }

/-- A way to act on the world that may fail. What was done before a failure stays done. -/
abbrev Act := EStateM Fault World

/-- The pipe of a name. -/
def pipe? (w : World) (id : PipeId) : Option Pipe :=
  w.pipes[id.index]?

/-- Whether a pipe is open. -/
def isOpen (w : World) (id : PipeId) : Bool :=
  (w.pipe? id).any (·.isOpen)

/-- Make an open pipe around a channel. -/
def attach (channel : Channel) (w : World) : PipeId × World :=
  (⟨w.pipes.length⟩, { w with pipes := w.pipes ++ [⟨channel, true, []⟩] })

/-- Run one exchange with the channel of a pipe, which must be open. -/
def exchange {α : Type} (id : PipeId) (talk : Directory → Channel → Exchange α) : Act α := fun w =>
  match w.pipe? id with
  | some ⟨channel, true, calls⟩ =>
    let e := talk w.files channel
    let w :=
      { w with
        pipes := w.pipes.set id.index ⟨e.channel, true, e.calls.reverse ++ calls⟩
        files := e.files }
    match e.result with
    | .ok a => .ok a w
    | .error fault => .error fault w
  | _ => .error .closed w

/-- Write all of the bytes to a pipe and flush it; the result is their number. -/
def write (id : PipeId) (bytes : List UInt8) : Act Nat := do
  exchange id fun files channel => channel.send bytes files
  return bytes.length

/-- Read once from a pipe, at most `room` bytes. -/
def read (id : PipeId) (room : Nat) : Act (List UInt8) :=
  exchange id fun files channel => channel.read room files

/-- Close a pipe for all of its copies. -/
def close (id : PipeId) : Act Unit := fun w =>
  match w.pipe? id with
  | some ⟨channel, true, calls⟩ =>
    let w := { w with pipes := w.pipes.set id.index ⟨channel, false, .close :: calls⟩ }
    match channel.close with
    | .ok () => .ok () w
    | .error fault => .error fault w
  | _ => .error .closed w

/-- A pipe that reads an existing file. -/
def openFile (path : String) : Act PipeId := fun w =>
  match w.files.locate path with
  | .ok (place, _) =>
    let (id, w) := w.attach (.file place .reading 0)
    .ok id w
  | .error fault => .error fault w

/-- A pipe that writes a file, which is made or emptied. -/
def createFile (path : String) : Act PipeId := fun w =>
  match w.files.create path with
  | .ok (place, files) =>
    let (id, w) := { w with files }.attach (.file place .writing 0)
    .ok id w
  | .error fault => .error fault w

/-- A pipe to the peer at an address. -/
def dial (protocol address : String) : Act PipeId := fun w =>
  match Network.dial w.files protocol address w.network with
  | .ok script network =>
    let (id, w) := { w with network }.attach (.scripted script)
    .ok id w
  | .error fault network => .error fault { w with network }

end World

end DualStack
