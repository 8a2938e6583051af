/-
The command line.

`file <path>` runs a script and `repl` reads lines from the input and runs each
one, cleaned of blanks at its ends, in one session.  Before the command the
option `--stack-size` sets the capacity of both stacks.  Arguments are read from
left to right and the first one that does not fit is reported.

A prompt is printed before each line is read.  A line that is not a text, or
whose run fails, is reported on the error output and the session goes on; the end
of the input ends it.
-/
import DualStack.Session
import DualStack.Text.Blank

namespace DualStack

/-- What the program is asked to do. -/
inductive Mode where
  | script (path : String)
  | prompt
deriving DecidableEq

/-- A command line. -/
structure Invocation where
  stackSize : Option Nat
  mode : Mode
deriving DecidableEq

/-- Why a command line makes no sense. -/
inductive UsageError where
  | missingCommand
  | missingPath
  | unknownCommand (name : String)
  | unexpectedArgument (argument : String)
  | missingSize
  | invalidSize (value : String)
  | repeatedSize
deriving DecidableEq

/-- The text of a usage error. -/
def UsageError.message : UsageError → String
  | missingCommand => "the subcommand is required but not provided"
  | missingPath => "the argument '<PATH>' is required but not provided"
  | unknownCommand name => "unrecognized subcommand '" ++ name ++ "'"
  | unexpectedArgument argument => "unexpected argument '" ++ argument ++ "'"
  | missingSize =>
    "a value is required for '--stack-size <STACK_SIZE>' but none was supplied"
  | invalidSize value => "invalid value '" ++ value ++ "' for '--stack-size <STACK_SIZE>'"
  | repeatedSize => "the argument '--stack-size <STACK_SIZE>' cannot be used multiple times"

namespace Invocation

/-- The largest stack size, a whole number of 64 bits. -/
def maxSize : Nat := UInt64.size - 1

/-- Read a stack size: decimal digits, with an optional plus sign. -/
def size? (text : String) : Option Nat :=
  let digits := match text.toList with
    | '+' :: cs => cs
    | cs => cs
  if digits.isEmpty || !digits.all Decimal.isDigit then none
  else
    let n := Decimal.natOf digits
    if n ≤ maxSize then some n else none

/-- Whether an argument has the form of an option. -/
def isOption (argument : String) : Bool :=
  match argument.toList with
  | '-' :: _ :: _ => true
  | _ => false

/-- A long option as it is reported. Its name gets the dashes it was written with, except
that a name with dashes of its own needs none, and that a name of one letter beyond ASCII,
or none, passes for a short option. -/
def longName (name : List Char) : List Char :=
  match name with
  | [] => ['-']
  | [c] => if c.toNat < 0x80 then ['-', '-', c] else ['-', c]
  | '-' :: '-' :: _ => name
  | _ => '-' :: '-' :: name

/-- The part of an option that is reported when nobody knows it: its name without a value,
or the first letter of a bundle of short options. -/
def optionName (argument : String) : String :=
  match argument.toList with
  | '-' :: '-' :: cs => String.ofList (longName (cs.takeWhile (· ≠ '=')))
  | '-' :: c :: _ => String.ofList ['-', c]
  | cs => String.ofList cs

/-- The mark that ends the options: what follows it is taken as it stands. -/
def endMark : String := "--"

/-- The complaint about an argument that has no place. -/
def refuse (argument : String) : Except UsageError Invocation :=
  .error (.unexpectedArgument (if isOption argument then optionName argument else argument))

/-- Nothing may follow a complete command, but the mark that ends the options. -/
def done (invocation : Invocation) : List String → Except UsageError Invocation
  | [] => .ok invocation
  | argument :: rest =>
    if argument = endMark then
      match rest with
      | [] => .ok invocation
      | argument :: _ => .error (.unexpectedArgument argument)
    else refuse argument

/-- Read the path of a script and nothing else. -/
def script (size : Option Nat) : List String → Except UsageError Invocation
  | [] => .error .missingPath
  | path :: rest =>
    if path = endMark then
      match rest with
      | [] => .error .missingPath
      | [path] => .ok ⟨size, .script path⟩
      | _ :: argument :: _ => .error (.unexpectedArgument argument)
    else if isOption path then refuse path
    else done ⟨size, .script path⟩ rest

/-- Read a command and what belongs to it. -/
def command (size : Option Nat) : List String → Except UsageError Invocation
  | [] => .error .missingCommand
  | name :: arguments =>
    if name = "repl" then done ⟨size, .prompt⟩ arguments
    else if name = "file" then script size arguments
    else .error (.unknownCommand name)

/-- Take in the value of the option `--stack-size`. -/
def withSize (size : Option Nat) (value : String) : Except UsageError (Option Nat) :=
  if size.isSome then .error .repeatedSize
  else
    match size? value with
    | some n => .ok (some n)
    | none => .error (.invalidSize value)

/-- The value an option carries behind an equals sign. -/
def attached? (option : String) (argument : String) : Option String :=
  let name := option.toList ++ ['=']
  if name.isPrefixOf argument.toList then some (String.ofList (argument.toList.drop name.length))
  else none

/-- Read options up to the command, and the command. -/
def read (size : Option Nat) : List String → Except UsageError Invocation
  | [] => command size []
  | argument :: arguments =>
    if argument = "--stack-size" then
      match arguments with
      | [] => .error .missingSize
      | value :: rest =>
        if isOption value then .error .missingSize
        else
          match withSize size value with
          | .ok size => read size rest
          | .error e => .error e
    else
      match attached? "--stack-size" argument with
      | some value =>
        match withSize size value with
        | .ok size => read size arguments
        | .error e => .error e
      | none =>
        if argument = endMark then command size arguments
        else if isOption argument then refuse argument
        else command size (argument :: arguments)

/-- Read a command line. -/
def ofArguments (arguments : List String) : Except UsageError Invocation :=
  read none arguments

end Invocation

/-- A session at the prompt: its machine, and what went to the error output. -/
structure Console where
  machine : Machine
  /-- The lines of the error output, newest first. -/
  complaints : List String

namespace Console

/-- What is printed before each line is read. -/
def promptText : String := "repl> "

/-- What is printed when the input ends. -/
def farewell : String := "\nExited zstack repl\n"

/-- A session that has not begun. -/
def start (stackSize : Option Nat) (files : Directory) (network : Network := {}) : Console where
  machine := .fresh (stackSize.getD defaultStackSize) {} { pipes := [], files, network }
  complaints := []

/-- Print a text of the console's own. -/
def say (text : String) (c : Console) : Console :=
  { c with machine := { c.machine with sink := c.machine.sink.accept (Text.bytes text) } }

/-- Put a line on the error output. -/
def complain (text : String) (c : Console) : Console :=
  { c with complaints := text :: c.complaints }

/-- Keep the machine a run leaves behind, and report its failure behind a heading. -/
def settle (heading : String) (c : Console) : EStateM.Result Failure Machine Unit → Console
  | .ok () machine => { c with machine }
  | .error failure machine => { c with machine }.complain (heading ++ failure.message)

/-- Run one line of input. -/
def line (fuel : Nat) (bytes : List UInt8) (c : Console) : Console :=
  match Text.ofBytes? bytes with
  | none => c.complain ("Failed read line: " ++ Fault.message .notUtf8)
  | some text => c.settle "Failed run prompt: " (Session.run fuel (Text.trim text) c.machine)

/-- Cut the input into lines, each with the line feed that ends it. -/
def linesOf : List UInt8 → List (List UInt8)
  | [] => []
  | b :: bs =>
    if b = 10 then [b] :: linesOf bs
    else
      match linesOf bs with
      | [] => [[b]]
      | l :: ls => (b :: l) :: ls

/-- Read and run every line of the input. -/
def repl (fuel : Nat) (input : List UInt8) (c : Console) : Console :=
  let c := (linesOf input).foldl (fun c l => (c.say promptText).line fuel l) c
  (c.say promptText).say farewell

/-- Run a script. -/
def script (fuel : Nat) (path : String) (c : Console) : Console :=
  c.settle "Failed run file: " (Session.runFile fuel path c.machine)

/-- What a whole run of the program leaves behind. -/
structure Report where
  output : List UInt8
  errors : List String
  code : Nat
  files : Directory

/-- The report of a session with a given exit code. -/
def report (c : Console) (code : Nat) : Report where
  output := c.machine.sink.contents
  errors := c.complaints.reverse
  code := code
  files := c.machine.world.files

/-- Run the program on a command line, an input, and the files and the network around it. -/
def perform (fuel : Nat) (arguments : List String) (input : List UInt8) (files : Directory)
    (network : Network := {}) : Report :=
  match Invocation.ofArguments arguments with
  | .error e => ⟨[], [e.message], 1, files⟩
  | .ok ⟨size, .prompt⟩ => ((start size files network).repl fuel input).report 0
  | .ok ⟨size, .script path⟩ =>
    let c := (start size files network).script fuel path
    c.report (if c.complaints.isEmpty then 0 else 1)

end Console

end DualStack
