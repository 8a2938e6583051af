/-
Evaluation.

A tree walk over the nodes of a program.  Words are looked up each time they are
met, defined words before primitives, so a word may call one that is defined only
later; a name that stands for nothing does nothing.  Calls of defined words nest
at most `callLimit` deep.

A loop keeps its limit on the return stack and its index above it.  It goes on
while the index is below the limit, and for ever if the limit is zero, so
evaluation need not end.  Every function therefore takes fuel, a bound on the
depth of the evaluation; more fuel never changes an answer, and `outOfFuel` is
kept apart from the errors of a program.

One construct forgives an empty stack: a conditional without a value to test goes
on with its second branch.  How the value is taken is a parameter of evaluation.
Programs run with `lenient`; `strict` insists on a value, and a program that runs
strictly looks at nothing below the values it was given.
-/
import DualStack.Machine.Primitive

namespace DualStack

/-- What a name stands for. -/
inductive Word where
  | defined (body : List Node)
  | primitive (p : Primitive)

/-- Look a word up, defined words first. -/
def Machine.word? (m : Machine) (name : String) : Option Word :=
  match m.words.find? name with
  | some body => some (.defined body)
  | none => (Primitive.ofName? name).map .primitive

mutual

/-- The value of a node inside a collection literal. Words are not run there: all but `true`
and `false` count as `nil`, and so does everything that is not a literal. -/
def Node.element : Node → Value
  | .number x => .number x
  | .text s => .text s
  | .word name =>
    if name = "true" then .boolean true
    else if name = "false" then .boolean false
    else .nil
  | .collection shape body => .collect shape (Node.elements body)
  | _ => .nil

/-- The values of the nodes inside a collection literal. -/
def Node.elements : List Node → List Value
  | [] => []
  | n :: ns => n.element :: Node.elements ns

end

namespace Eval

open Effect

/-- Pop a condition; an empty stack counts as false. -/
def lenient : Effect Bool := fun m =>
  match m.data.pop? with
  | some (v, data) => .ok v.isTruthy { m with data }
  | none => .ok false m

/-- Pop a condition; an empty stack aborts. -/
def strict : Effect Bool := do
  return (← pop).isTruthy

/-- Take limit and start of a loop from the data stack to the return stack. -/
def enterLoop : Effect Unit := do
  onData Stack.swap?
  let limit ← pop
  let start ← pop
  pushReturn limit
  pushReturn start

/-- The index of the next iteration, taken off the return stack, or nothing if the loop is
over: when index or limit is no number, or the index has reached a limit other than zero. -/
def nextIndex : Effect (Option Float) := do
  let index ← popReturn
  let limit ← peekReturn
  match index, limit with
  | .number i, .number l => return if i < l || l == 0.0 then some i else none
  | _, _ => return none

/-- Note the start of a call, which must not nest too deep. -/
def enterCall : Effect Unit := fun m =>
  if m.callLimit ≤ m.depth then .error .stack m else .ok () { m with depth := m.depth + 1 }

/-- Run an action as the body of a call: the depth goes back whether it succeeds or not. -/
def leaveCall (body : Effect Unit) : Effect Unit := fun m =>
  match body m with
  | .ok () m => .ok () { m with depth := m.depth - 1 }
  | .error a m => .error a { m with depth := m.depth - 1 }

mutual

/-- Evaluate one node, taking conditions by `test`. -/
def node (test : Effect Bool) : Nat → Node → Effect Unit
  | 0, _ => throw .outOfFuel
  | _ + 1, .definition name body => update (·.define name body)
  | fuel + 1, .word name => call test fuel name
  | _ + 1, .number x => push (.number x)
  | _ + 1, .text s => push (.text s)
  | _ + 1, .declaration name => do
    update (·.define name [.reference name])
    push (.reference name)
  | _ + 1, .reference name => push (.reference name)
  | fuel + 1, .conditional thenBody elseBody => do
    if ← test then block test fuel thenBody else block test fuel elseBody
  | fuel + 1, .loop body => do
    enterLoop
    iterate test fuel body
  | _ + 1, .collection shape body => push (.collect shape (Node.elements body))

/-- Evaluate the nodes of a body in order. -/
def block (test : Effect Bool) : Nat → List Node → Effect Unit
  | 0, _ => throw .outOfFuel
  | _ + 1, [] => pure ()
  | fuel + 1, n :: ns => do
    node test fuel n
    block test fuel ns

/-- Run the word of a name, if it has one. -/
def call (test : Effect Bool) : Nat → String → Effect Unit
  | 0, _ => throw .outOfFuel
  | fuel + 1, name => do
    match (← get).word? name with
    | none => pure ()
    | some (.primitive p) => p.run
    | some (.defined body) =>
      enterCall
      leaveCall (block test fuel body)

/-- Go on with a loop whose limit and index are on the return stack. -/
def iterate (test : Effect Bool) : Nat → List Node → Effect Unit
  | 0, _ => throw .outOfFuel
  | fuel + 1, body => do
    match ← nextIndex with
    | none => onReturns Stack.drop?
    | some i =>
      pushReturn (.number i)
      block test fuel body
      onReturns Stack.drop?
      pushReturn (.number (i + 1.0))
      iterate test fuel body

end

end Eval

namespace Machine

/-- The loop bookkeeping and the calls in progress, forgotten. -/
def reset (m : Machine) : Machine :=
  { m with returns := m.returns.clear, depth := 0 }

/-- Evaluate top-level nodes in order, up to the first abort. What was defined and stored
before an abort stays; the loop bookkeeping does not. -/
def interpret (fuel : Nat) (nodes : List Node) : Effect Unit := fun m =>
  match Eval.block Eval.lenient fuel nodes m with
  | .ok () m => .ok () m
  | .error a m => .error a m.reset

end Machine

end DualStack
