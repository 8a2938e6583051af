/-
The machine: two stacks, a dictionary of words, variables, and the world.

Programs work on the data stack.  The return stack belongs to the loops: each
running loop keeps its limit there and, above it, its index.  Words and variables
outlive a run, so one line can define what the next one uses.

An action either succeeds or aborts, and an abort keeps whatever was done before
it.  The reasons to abort are few: a stack has too few values or no room, or the
output fails.  Anything else a program does wrong is silently passed over.  The
third reason, `outOfFuel`, is not an error of a program: evaluation is given a
bound on its depth, and running into the bound tells nothing about the program.
-/
import DualStack.Dictionary
import DualStack.Node
import DualStack.Sink
import DualStack.Stack
import DualStack.Text.Bytes
import DualStack.Value
import DualStack.World

namespace DualStack

/-- Why an evaluation stopped early. -/
inductive Abort where
  /-- A stack had too few values or no room, or calls nested too deep. -/
  | stack
  /-- Printing failed. -/
  | output (fault : Fault)
  /-- The bound on the evaluation was reached. -/
  | outOfFuel
deriving DecidableEq

/-- The text of an abort. -/
def Abort.message : Abort → String
  | stack => "stack under/overflow"
  | output fault => "Failed write output: " ++ fault.message
  | outOfFuel => "out of fuel"

/-- The state of a machine. -/
structure Machine where
  /-- The operands. -/
  data : Stack Value
  /-- The bookkeeping of the running loops, innermost on top. -/
  returns : Stack Value
  /-- The words programs defined. -/
  words : Dictionary String (List Node)
  /-- What the variables hold. -/
  slots : Dictionary String Value
  /-- Where printed text goes. -/
  sink : Sink
  world : World
  /-- How many calls of defined words are in progress. -/
  depth : Nat

/-- The capacity of the stacks unless another one is asked for. -/
def defaultStackSize : Nat := 1024

/-- Something a machine does, which may abort. -/
abbrev Effect := EStateM Abort Machine

namespace Machine

/-- A machine with empty stacks of the given capacity. -/
def fresh (stackSize : Nat) (sink : Sink) (world : World) : Machine where
  data := .empty stackSize
  returns := .empty stackSize
  words := .empty
  slots := .empty
  sink := sink
  world := world
  depth := 0

/-- Let a word stand for a body. -/
def define (name : String) (body : List Node) (m : Machine) : Machine :=
  { m with words := m.words.insert name body }

/-- Let a variable hold a value. -/
def store (name : String) (value : Value) (m : Machine) : Machine :=
  { m with slots := m.slots.insert name value }

/-- The value of a variable, `nil` if it has none. -/
def load (m : Machine) (name : String) : Value :=
  (m.slots.find? name).getD .nil

/-- The deepest nesting of calls, unless the return stack is smaller still. -/
def maxDepth : Nat := 128

/-- How deep calls of defined words may nest. -/
def callLimit (m : Machine) : Nat :=
  min maxDepth m.returns.capacity

end Machine

namespace Effect

/-- Change the data stack, aborting if the change has no result. -/
def onData (change : Stack Value → Option (Stack Value)) : Effect Unit := fun m =>
  match change m.data with
  | some data => .ok () { m with data }
  | none => .error .stack m

/-- Change the return stack, aborting if the change has no result. -/
def onReturns (change : Stack Value → Option (Stack Value)) : Effect Unit := fun m =>
  match change m.returns with
  | some returns => .ok () { m with returns }
  | none => .error .stack m

/-- Push a value on the data stack. -/
def push (v : Value) : Effect Unit :=
  onData (Stack.push? v)

/-- Pop a value from the data stack. -/
def pop : Effect Value := fun m =>
  match m.data.pop? with
  | some (v, data) => .ok v { m with data }
  | none => .error .stack m

/-- The top of the data stack. -/
def peek : Effect Value := fun m =>
  match m.data.peek? with
  | some v => .ok v m
  | none => .error .stack m

/-- Push a value on the return stack. -/
def pushReturn (v : Value) : Effect Unit :=
  onReturns (Stack.push? v)

/-- Pop a value from the return stack. -/
def popReturn : Effect Value := fun m =>
  match m.returns.pop? with
  | some (v, returns) => .ok v { m with returns }
  | none => .error .stack m

/-- The top of the return stack. -/
def peekReturn : Effect Value := fun m =>
  match m.returns.peek? with
  | some v => .ok v m
  | none => .error .stack m

/-- Push several values, the first one first. -/
def pushAll : List Value → Effect Unit
  | [] => pure ()
  | v :: vs => do
    push v
    pushAll vs

/-- Change the machine in a way that cannot fail. -/
def update (change : Machine → Machine) : Effect Unit := fun m =>
  .ok () (change m)

/-- Print bytes. -/
def print (bytes : List UInt8) : Effect Unit := fun m =>
  match Sink.write bytes m.sink with
  | .ok () sink => .ok () { m with sink }
  | .error fault sink => .error (.output fault) { m with sink }

/-- Act on the world; the outcome is a result like any other. -/
def attempt {α : Type} (act : World.Act α) : Effect (Except Fault α) := fun m =>
  match act m.world with
  | .ok a world => .ok (.ok a) { m with world }
  | .error fault world => .ok (.error fault) { m with world }

/-- Push what acting on the world gave: values and the number zero, or a message and the
number one. -/
def report : Except Fault (List Value) → Effect Unit
  | .ok values => do
    pushAll values
    push (.number 0.0)
  | .error fault => do
    push (.text fault.message)
    push (.number 1.0)

end Effect

end DualStack
