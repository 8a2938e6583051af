/-
The network around a session.

Who can be reached is not known beforehand, so a network is a script, as a channel
can be one: it says how each coming lookup of a name and each coming attempt to
connect will go, which may depend on the name and on where the attempt leads.  A
script can express any behaviour a network may show: names that lead to several
hosts, peers that refuse, and peers that answer with a channel of their own.

A dial to an internet address tries the hosts it leads to in order until one
answers.  With an address that cannot be read or a path that no socket can have it
fails before anybody is asked.
-/
import DualStack.World.Address
import DualStack.World.Channel

namespace DualStack

/-- Where an attempt to connect leads. -/
inductive Destination where
  /-- A host of a family, behind an address. -/
  | internet (family : Address.Family) (address : String)
  /-- A socket in the file system. -/
  | socket (path : String)

/-- How the coming lookups and connections go. Where a list has ended, a name is not known and
nobody is there. -/
structure Network where
  /-- For each coming lookup, the families of the hosts that a name has. -/
  lookups : List (String → Except Fault (List Address.Family)) := []
  /-- For each coming attempt to connect, the channel to the peer. -/
  connections : List (Destination → Except Fault Script) := []

namespace Network

/-- Something done on the network that may fail. -/
abbrev Act := EStateM Fault Network

/-- Look a name up. -/
def lookup (name : String) : Act (List Address.Family) := fun n =>
  match n.lookups with
  | [] => .error .unknownHost n
  | answer :: lookups =>
    match answer name with
    | .ok families => .ok families { n with lookups }
    | .error fault => .error fault { n with lookups }

/-- Try to connect, which fails with `absent` where nobody is there. -/
def connect (absent : Fault) (peer : Destination) : Act Script := fun n =>
  match n.connections with
  | [] => .error absent n
  | answer :: connections =>
    match answer peer with
    | .ok script => .ok script { n with connections }
    | .error fault => .error fault { n with connections }

/-- Connect to the first of some destinations that answers. If none does, the last fault counts,
and before the first attempt that is `last`. -/
def connectAny (last : Fault) : List Destination → Act Script
  | [] => throw last
  | peer :: others => fun n =>
    match connect (.system .connectionRefused) peer n with
    | .ok script n => .ok script n
    | .error fault n => connectAny fault others n

/-- The families of the hosts behind an address. -/
def families (address : String) : Act (List Address.Family) :=
  match Address.host address.toList with
  | .ok (.numeric family) => return [family]
  | .ok (.name text) => lookup text
  | .error fault => throw fault

/-- Connect to an internet address by hosts of the given families. -/
def dialInternet (served : List Address.Family) (address : String) : Act Script := do
  let found ← families address
  connectAny .noAddress ((found.filter (· ∈ served)).map (.internet · address))

/-- The length from which on the path of a socket is refused, in bytes. -/
def maxSocketPath : Nat := 108

/-- Connect to a socket in the file system. -/
def dialSocket (files : Directory) (path : String) : Act Script :=
  if path.contains '\x00' then throw .nullInSocketPath
  else if maxSocketPath ≤ path.utf8ByteSize then throw .socketPathTooLong
  else if path = "" then throw (.system .invalidArgument)
  else
    match files.locate path with
    | .error fault => connect fault (.socket path)
    | .ok _ => connect (.system .connectionRefused) (.socket path)

/-- Connect to an address by a protocol. -/
def dial (files : Directory) (protocol address : String) : Act Script :=
  if protocol = "tcp" then dialInternet [.v4, .v6] address
  else if protocol = "tcp4" then dialInternet [.v4] address
  else if protocol = "tcp6" then dialInternet [.v6] address
  else if protocol = "unix" then dialSocket files address
  else throw (.unknownNetwork protocol)

end Network

end DualStack
