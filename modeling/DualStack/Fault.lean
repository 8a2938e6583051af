/-
What can go wrong outside the machine.

A fault is a cause, not a text: `message` gives the text a program or a user gets
to see.  Faults of the operating system carry their number in the text.
-/
import DualStack.Decimal.Numeral

namespace DualStack

/-- The faults an operating system reports by number. -/
inductive SystemFault where
  /-- A path leads nowhere. -/
  | noEntry
  /-- A handle does not allow the operation. -/
  | badDescriptor
  /-- A path goes through something that is not a directory. -/
  | notDirectory
  /-- A directory is used as a file. -/
  | isDirectory
  /-- An argument makes no sense. -/
  | invalidArgument
  /-- A name or a path is too long. -/
  | nameTooLong
  /-- Nobody answers at an address. -/
  | connectionRefused
deriving DecidableEq

namespace SystemFault

/-- The number of a fault. -/
def number : SystemFault → Nat
  | noEntry => 2
  | badDescriptor => 9
  | notDirectory => 20
  | isDirectory => 21
  | invalidArgument => 22
  | nameTooLong => 36
  | connectionRefused => 111

/-- What a fault is called. -/
def describe : SystemFault → String
  | noEntry => "No such file or directory"
  | badDescriptor => "Bad file descriptor"
  | notDirectory => "Not a directory"
  | isDirectory => "Is a directory"
  | invalidArgument => "Invalid argument"
  | nameTooLong => "File name too long"
  | connectionRefused => "Connection refused"

end SystemFault

/-- Why an operation on the outside world failed. -/
inductive Fault where
  /-- The pipe has been closed. -/
  | closed
  /-- A device accepted no byte of a non-empty write. -/
  | nothingAccepted
  /-- The operation was interrupted; a write is tried again. -/
  | interrupted
  /-- A device failed with a message of its own. -/
  | reported (text : String)
  /-- Bytes that should be a text are not one. -/
  | notUtf8
  /-- No network has this name. -/
  | unknownNetwork (name : String)
  /-- An address names no service. -/
  | malformedAddress
  /-- The service of an address is not a number of 16 bits. -/
  | malformedService
  /-- A host is not known. -/
  | unknownHost
  /-- An address has no form the network can use. -/
  | noAddress
  /-- A name for the operating system contains the null character. -/
  | nullInName
  /-- The path of a socket contains the null character. -/
  | nullInSocketPath
  /-- The path of a socket does not fit its address. -/
  | socketPathTooLong
  /-- The operating system refused. -/
  | system (fault : SystemFault)
deriving DecidableEq

/-- The text of a fault. -/
def Fault.message : Fault → String
  | closed => "pipe is closed"
  | nothingAccepted => "failed to write whole buffer"
  | interrupted => "interrupted"
  | reported text => text
  | notUtf8 => "stream did not contain valid UTF-8"
  | unknownNetwork name => "unknown network " ++ name
  | malformedAddress => "invalid socket address"
  | malformedService => "invalid port value"
  | unknownHost => "failed to lookup address information: Name or service not known"
  | noAddress => "could not resolve to any addresses"
  | nullInName => "file name contained an unexpected NUL byte"
  | nullInSocketPath => "paths must not contain interior null bytes"
  | socketPathTooLong => "path must be shorter than SUN_LEN"
  | system fault =>
    fault.describe ++ " (os error " ++ String.ofList (Decimal.digitsOf fault.number) ++ ")"

end DualStack
