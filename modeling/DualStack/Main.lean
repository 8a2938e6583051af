/-
The program.

The console works on values; this module moves those values in and out of the
process.  A session sees the files of the current directory as they are when it
starts, and the script it is asked to run; it reaches nobody over the network.  After
each run what it printed is written out, and so is every file it changed.
-/
import DualStack.Console

namespace DualStack.Terminal

/-- The bytes of an array. -/
def bytesOf (bytes : ByteArray) : List UInt8 :=
  bytes.toList

/-- The files and directories directly in the current directory. -/
def surroundings : IO Directory := do
  let mut files := Directory.empty
  for item in ← (← IO.currentDir).readDir do
    match (← item.path.metadata).type with
    | .file =>
      match ← (IO.FS.readBinFile item.path).toBaseIO with
      | .ok bytes => files := files.insert [item.fileName] (.file (bytesOf bytes))
      | .error _ => pure ()
    | .dir => files := files.insert [item.fileName] .directory
    | _ => pure ()
  return files

/-- Add the file of a script to what a session can see. -/
def withScript (path : String) (files : Directory) : IO Directory := do
  match ← (IO.FS.readBinFile path).toBaseIO with
  | .ok bytes => return files.install path (.file (bytesOf bytes))
  | .error _ => return files

/-- A path as it is written. -/
def written : Path → String
  | "/" :: names => "/" ++ String.intercalate "/" names
  | names => String.intercalate "/" names

/-- Write out every file that has changed. -/
def save (before after : Directory) : IO Unit := do
  for (path, entry) in after.table.entries do
    if let .file contents := entry then
      let unchanged := match before.entry? path with
        | some (.file old) => old == contents
        | _ => false
      unless unchanged do
        IO.FS.writeBinFile (written path) ⟨contents.toArray⟩

/-- Write out what a console printed, complained about and changed since `before`. -/
def emit (before after : Console) : IO Unit := do
  let output := after.machine.sink.contents.drop before.machine.sink.accepted.length
  let stdout ← IO.getStdout
  stdout.write ⟨output.toArray⟩
  stdout.flush
  let fresh := after.complaints.take (after.complaints.length - before.complaints.length)
  for complaint in fresh.reverse do
    IO.eprintln complaint
  save before.machine.world.files after.machine.world.files

/-- Read a line with the line feed that ends it; nothing at the end of the input. -/
partial def readLine (input : IO.FS.Stream) (line : ByteArray) : IO ByteArray := do
  let byte ← input.read 1
  if byte.isEmpty then return line
  let line := line ++ byte
  if byte.toList = [10] then return line
  readLine input line

/-- Prompt, read and run until the input ends. -/
partial def interact (input : IO.FS.Stream) (c : Console) : IO Unit := do
  let prompted := c.say Console.promptText
  emit c prompted
  let line ← readLine input ByteArray.empty
  if line.isEmpty then
    emit prompted (prompted.say Console.farewell)
  else
    let after := prompted.line Session.ample (bytesOf line)
    emit prompted after
    interact input after

/-- Do what a command line asks for; the result is the exit code. -/
def start (arguments : List String) : IO UInt32 := do
  match Invocation.ofArguments arguments with
  | .error e =>
    IO.eprintln e.message
    return 1
  | .ok ⟨size, .prompt⟩ =>
    interact (← IO.getStdin) (Console.start size (← surroundings))
    return 0
  | .ok ⟨size, .script path⟩ =>
    let c := Console.start size (← withScript path (← surroundings))
    let after := c.script Session.ample path
    emit c after
    return if after.complaints.isEmpty then 0 else 1

end DualStack.Terminal

/-- The entry point of the program. -/
def main (arguments : List String) : IO UInt32 :=
  DualStack.Terminal.start arguments
