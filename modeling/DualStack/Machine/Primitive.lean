/-
The primitive words every machine starts with.

Primitives take their operands from the data stack.  A missing operand aborts;
operands of the wrong variant are consumed and nothing is pushed for them.  Words
that reach into the world push their results and a status: the number zero, or a
message and the number one.
-/
import DualStack.Machine
import DualStack.Value.Arithmetic
import DualStack.Value.Collection

namespace DualStack

/-- The primitive words. -/
inductive Primitive where
  | plus | minus | times | divide | remainder
  | less | greater | equal
  | dup | drop | swap | copyUnder | rot
  | print
  | lineFeed | carriageReturn
  | true | false
  | store | load
  | loopIndex
  | index | length | insert | spread
  | blob
  | openFile | createFile | dial
  | send | receive | close
deriving DecidableEq

namespace Primitive

/-- The primitives with their names. -/
def names : List (String × Primitive) :=
  [("+", plus), ("-", minus), ("*", times), ("/", divide), ("%", remainder),
    ("<", less), (">", greater), ("=", equal),
    ("dup", dup), ("drop", drop), ("swap", swap), ("over", copyUnder), ("rot", rot),
    (".", print), ("LF", lineFeed), ("CR", carriageReturn), ("true", true), ("false", false),
    ("!", store), ("@", load), ("I", loopIndex),
    ("#", index), ("len", length), ("insert", insert), ("spread", spread), ("blob", blob),
    ("open", openFile), ("create", createFile), ("dial", dial),
    ("send", send), ("recv", receive), ("close", close)]

/-- The primitive of a name. -/
def ofName? (name : String) : Option Primitive :=
  Dictionary.lookup name names

/-- The largest buffer a single read gets. -/
def maxRead : Nat := 65536

open Effect

/-- Pop two operands and push what the operator yields, if anything. -/
def binary (op : Value → Value → Option Value) : Effect Unit := do
  let right ← pop
  let left ← pop
  match op left right with
  | some v => push v
  | none => pure ()

/-- Print a value: `v --`. -/
def printTop : Effect Unit := do
  let v ← pop
  Effect.print (Text.bytes v.display)

/-- Store a value in a variable: `ref v --`. -/
def storeTop : Effect Unit := do
  let v ← pop
  match ← pop with
  | .reference name => update (·.store name v)
  | _ => pure ()

/-- Load what a variable holds: `ref -- v`. -/
def loadTop : Effect Unit := do
  match ← pop with
  | .reference name =>
    let m ← get
    push (m.load name)
  | _ => pure ()

/-- Push the index of the innermost running loop: `-- i`. -/
def pushIndex : Effect Unit := do
  push (← peekReturn)

/-- Push what an index selects: `coll i -- coll v`. -/
def indexTop : Effect Unit := do
  let i ← pop
  match (← peek).index? i with
  | some v => push v
  | none => pure ()

/-- Push the size: `coll -- coll n`. -/
def lengthTop : Effect Unit := do
  match (← peek).size? with
  | some n => push (.number (Float.ofNat n))
  | none => pure ()

/-- Insert an element: `coll v -- coll`. -/
def insertTop : Effect Unit := do
  let v ← pop
  match (← peek).insert? v with
  | some grown => onData (Stack.setTop? grown)
  | none => pure ()

/-- Push every element: `coll -- coll v0 v1 …`. -/
def spreadTop : Effect Unit := do
  match (← peek).elements? with
  | some vs => pushAll vs
  | none => pure ()

/-- Make a pipe from a path: `path -- pipe 0`. -/
def pipeFrom (make : String → World.Act PipeId) : Effect Unit := do
  match ← pop with
  | .text path => report ((← attempt (make path)).map fun id => [.pipe id])
  | _ => pure ()

/-- Connect to an address: `network address -- pipe 0`. -/
def dialTop : Effect Unit := do
  let address ← pop
  let network ← pop
  match network, address with
  | .text network, .text address =>
    report ((← attempt (World.dial network address)).map fun id => [.pipe id])
  | _, _ => pure ()

/-- The bytes a value is sent as. -/
def payload : Value → List UInt8
  | .text s => Text.bytes s
  | .blob bytes => bytes
  | _ => []

/-- Send a value: `pipe v -- pipe n 0`. -/
def sendTop : Effect Unit := do
  let v ← pop
  match ← peek with
  | .pipe id =>
    report ((← attempt (World.write id (payload v))).map fun n => [.number (Float.ofNat n)])
  | _ => pure ()

/-- The length of the buffer a number asks for. -/
def roomOf (x : Float) : Nat :=
  min x.toUInt64.toNat maxRead

/-- Receive at most `n` bytes: `pipe n -- pipe blob n 0`. -/
def receiveTop : Effect Unit := do
  match ← pop with
  | .number x =>
    match ← peek with
    | .pipe id =>
      report ((← attempt (World.read id (roomOf x))).map fun bytes =>
        [.blob bytes, .number (Float.ofNat bytes.length)])
    | _ => pure ()
  | _ => pure ()

/-- Close a pipe: `pipe -- 0`. -/
def closeTop : Effect Unit := do
  match ← peek with
  | .pipe id =>
    onData Stack.drop?
    report ((← attempt (World.close id)).map fun () => [])
  | _ => pure ()

/-- What a primitive does. -/
def run : Primitive → Effect Unit
  | plus => binary Value.plus
  | minus => binary Value.minus
  | times => binary Value.times
  | divide => binary Value.divide
  | remainder => binary Value.remainder
  | less => binary Value.less
  | greater => binary Value.greater
  | equal => binary Value.equal
  | dup => onData Stack.dup?
  | drop => onData Stack.drop?
  | swap => onData Stack.swap?
  | copyUnder => onData Stack.over?
  | rot => onData Stack.rot?
  | print => printTop
  | lineFeed => push (.text "\n")
  | carriageReturn => push (.text "\r")
  | true => push (.boolean Bool.true)
  | false => push (.boolean Bool.false)
  | store => storeTop
  | load => loadTop
  | loopIndex => pushIndex
  | index => indexTop
  | length => lengthTop
  | insert => insertTop
  | spread => spreadTop
  | blob => push (.blob [])
  | openFile => pipeFrom World.openFile
  | createFile => pipeFrom World.createFile
  | dial => dialTop
  | send => sendTop
  | receive => receiveTop
  | close => closeTop

end Primitive

end DualStack
