/-
Sessions: running sources on one machine.

A session runs whole sources one after the other; words, variables and whatever
is left on the data stack stay for the next one.  A source that does not parse
leaves the machine as it was.  After a source has been evaluated the output is
flushed, also when the evaluation aborted, and a flush that fails is reported in
place of the abort.
-/
import DualStack.Machine.Eval
import DualStack.Node.Parse

namespace DualStack

/-- Why a source could not be run to its end. -/
inductive Failure where
  /-- The file that holds the source could not be read. -/
  | unreadable (fault : Fault)
  /-- The output could not be flushed. -/
  | unflushed (fault : Fault)
  /-- The source is not well nested. -/
  | parse (error : ParseError)
  /-- The evaluation aborted. -/
  | runtime (reason : Abort)
deriving DecidableEq

/-- The text of a failure. -/
def Failure.message : Failure → String
  | unreadable fault => "InternalError: Failed open source file: " ++ fault.message
  | unflushed fault => "InternalError: Failed flush output: " ++ fault.message
  | parse error => "Parse error: " ++ error.message
  | runtime reason => "Runtime error: " ++ reason.message

namespace Session

/-- The fuel a run gets when nothing else is said: more than any run can use up. -/
def ample : Nat := Nat.pow 2 62

/-- Flush the output. -/
def flush : EStateM Fault Machine Unit := fun m =>
  match Sink.flush m.sink with
  | .ok () sink => .ok () { m with sink }
  | .error fault sink => .error fault { m with sink }

/-- Parse and evaluate a source, then flush the output. -/
def run (fuel : Nat) (source : String) : EStateM Failure Machine Unit := fun m =>
  match DualStack.parse source with
  | .error error => .error (.parse error) m
  | .ok nodes =>
    match Machine.interpret fuel nodes m with
    | .ok () m =>
      match flush m with
      | .ok () m => .ok () m
      | .error fault m => .error (.unflushed fault) m
    | .error reason m =>
      match flush m with
      | .ok () m => .error (.runtime reason) m
      | .error fault m => .error (.unflushed fault) m

/-- The text of a file. -/
def sourceOf (files : Directory) (path : String) : Except Fault String := do
  match Text.ofBytes? (← files.readFile path) with
  | some source => .ok source
  | none => .error .notUtf8

/-- Run the source a file holds. -/
def runFile (fuel : Nat) (path : String) : EStateM Failure Machine Unit := fun m =>
  match sourceOf m.world.files path with
  | .ok source => run fuel source m
  | .error fault => .error (.unreadable fault) m

end Session

end DualStack
